import Stimulus.Proofs.Cell.Sound
import Stimulus.Proofs.Cell.Visits
import Stimulus.Proofs.Cell.WellFormed
import Stimulus.Proofs.Sampling.Exact

/-!
# What checked nodes fail with

What the checks see beforehand does not happen at a step: literals that make up an empty range, a
literal increment of zero, samplers without members, negative weights. The draws fail for want of a
weight only where there is none: a weighted pool has copies, and it never counts fewer of them than
it holds.
-/
namespace Stimulus

open Stimulus.Random Stimulus.Sampling

/-- The faults with which draws, tables and pools refuse the members or the weights that they are
given. -/
def Fault.refusesMembers : Fault → Bool
  | noIndices _ | emptyPool | zeroCount | emptyTable | negativeWeights _ | negativeTable _ => true
  | _ => false

/-- The kind of the evaluation error that a failure ends with. -/
def Failure.kind? : Failure → Option ErrorKind
  | cause c => some c.kind
  | fault _ => none

namespace Expr

/-- Whether the weights of a sampler, if it is a weighted one, add up to a signed number of 64
bits. -/
def TotalFits : Expr → Prop
  | .weightedSample members | .weightedPool members =>
    totalWeight (weights members) ≤ Source.greatestSigned
  | _ => True

theorem TotalsFit.totalFits {e node : Expr} (h : e.TotalsFit) (hnode : node ∈ e.walk) :
    node.TotalFits := by
  cases node with
  | weightedSample members => exact h members (.inl hnode)
  | weightedPool members => exact h members (.inr hnode)
  | _ => trivial

theorem TotalsFit.weightsFit {e : Expr} (h : e.TotalsFit) (hsound : e.Sound) : e.WeightsFit := by
  intro members hmembers member hmember
  have hnonneg : ∀ w ∈ weights members, 0 ≤ w :=
    List.forall_mem_map.mpr (hsound.weighted members hmembers).2
  exact (le_totalWeight hnonneg _ (List.mem_map_of_mem hmember)).trans (h members hmembers)

/-- A failure that the checks leave possible: only bounds of a range and an increment that are not
literals can turn out to be wrong, and nothing refuses its members or weights. -/
structure Admits (e : Expr) (failure : Failure) : Prop where
  range : failure.kind? = some .dynamicRange →
    (∃ min max, e = .range min max) ∧ ∀ lo hi, e ≠ .range (.literal lo) (.literal hi)
  increment : failure.kind? = some .dynamicIncrement →
    (∃ first last increment, e = .sequence first last increment) ∧
      ∀ first last size, e ≠ .sequence first last (.literal size)
  members : ∀ fault, failure = .fault fault → fault.refusesMembers = false

theorem admits_fault {e : Expr} {fault : Fault} (h : fault.refusesMembers = false) :
    e.Admits (.fault fault) where
  range hkind := by cases hkind
  increment hkind := by cases hkind
  members := by
    rintro _ ⟨⟩
    exact h

theorem admits_cause {e : Expr} {cause : EvaluationCause} (hrange : cause.kind ≠ .dynamicRange)
    (hincrement : cause.kind ≠ .dynamicIncrement) : e.Admits (.cause cause) where
  range hkind := absurd (Option.some.inj hkind) hrange
  increment hkind := absurd (Option.some.inj hkind) hincrement
  members := by
    rintro _ ⟨⟩

end Expr

theorem Random.Source.boundsFault?_eq_some {lo hi : Int} {fault : Fault}
    (h : boundsFault? lo hi = some fault) :
    fault = .highOutOfUnsignedBounds ∨ fault = .lowOutOfBounds ∨
      fault = .highOutOfSignedBounds := by
  unfold boundsFault? at h
  split at h
  · split at h <;> cases h
    exact .inl rfl
  · split at h
    · cases h
      exact .inr (.inl rfl)
    · split at h <;> cases h
      exact .inr (.inr rfl)

theorem BinaryOp.admits_apply {op : BinaryOp} {x y : Int} {failure : Failure}
    (h : op.apply x y = .error failure) (e : Expr) :
    e.Admits failure ∧ failure.kind? ≠ some .weightSum := by
  cases failure with
  | fault fault =>
    obtain ⟨-, rfl⟩ := apply_fault h
    exact ⟨Expr.admits_fault rfl, by simp [Failure.kind?]⟩
  | cause cause =>
    have hshift {f : Int → Nat → Int} (h : Word.shift f x y = .error (.cause cause)) : False := by
      unfold Word.shift at h
      split at h
      · cases h
      · split at h <;> cases h
    have harithmetic : cause.kind = .arithmetic := by
      cases op with
      | shiftLeft | shiftRight => exact (hshift h).elim
      | div | mod =>
        simp only [apply] at h
        split at h <;> cases h
        rfl
      | _ => cases h
    refine ⟨Expr.admits_cause ?_ ?_, ?_⟩ <;> simp [Failure.kind?, harithmetic]

namespace Chooser

variable {count : Nat} {chooser : Chooser}

/-- A chooser that fits has a cause to fail only where it draws by weights and the total is not
positive, or where a weighted pool fails to draw. -/
theorem Fits.select_cause (h : chooser.Fits count) {w : World} {cause : EvaluationCause}
    (hcause : (chooser.select count w).1 = .error (.cause cause)) :
    cause = .noEligibleMember ∧
      ((∃ table, chooser = weightedSample table none ∧
          wrapSigned (totalWeight table.weights) ≤ 0) ∨
        ∃ p failure, chooser = weightedPool p none ∧
          (p.draw w.source).outcome = .error failure) := by
  cases chooser with
  | pattern cursor => cases hcause
  | sample current? =>
    cases current? with
    | some member => cases hcause
    | none =>
      simp only [Chooser.select] at hcause
      split at hcause <;> cases hcause
  | weightedSample table current? =>
    cases current? with
    | some member => cases hcause
    | none =>
      simp only [Chooser.select] at hcause
      split at hcause <;> cases hcause
      rename_i hdrawn
      rw [WeightTable.draw, h.1, cumulativeIndex_eq_error_iff,
        cumulativeTotal_runningSums] at hdrawn
      obtain ⟨hnone, hle⟩ := hdrawn
      cases hnone
      exact ⟨rfl, .inl ⟨table, rfl, hle⟩⟩
  | pool p current? =>
    cases current? with
    | some ticket => cases hcause
    | none =>
      simp only [Chooser.select] at hcause
      split at hcause <;> cases hcause
      rename_i hdrawn
      cases ((h.1.draw w.source).2.2 _ hdrawn).2
  | weightedPool p current? =>
    cases current? with
    | some ticket => cases hcause
    | none =>
      simp only [Chooser.select] at hcause
      split at hcause <;> cases hcause
      rename_i hdrawn
      cases (h.1.draw w.source).2.2 _ hdrawn
      exact ⟨rfl, .inr ⟨p, _, rfl, hdrawn⟩⟩

end Chooser

namespace Cell

theorem eq_literal {c : Cell} {value : Int} (h : c.expr = .literal value) :
    ∃ r, c = leaf (.literal value) r := by
  cases c with
  | leaf l r =>
    cases l <;> cases h
    exact ⟨r, rfl⟩
  | choice chooser members r => cases chooser <;> cases h
  | _ => cases h

variable {scope : Scope} {chooser : Chooser} {members : List Cell} {r : Report} {w : World}

/-- A checked chooser that fits faults only among more members than there are words. -/
theorem Checked.select_fault (hchecked : (choice chooser members r).Checked scope)
    (hfits : chooser.Fits members.length) {fault : Fault}
    (h : (chooser.select members.length w).1 = .error (.fault fault)) :
    fault = .highOutOfUnsignedBounds := by
  obtain ⟨hchooser, hindex⟩ := hfits.select_fault h
  refine (hindex (hchecked.length_pos ?_)).2
  obtain ⟨_, rfl⟩ | ⟨_, _, rfl⟩ := hchooser <;> rintro _ ⟨⟩

/-- A weighted sampler in order finds no eligible member only if it is one with replacement and all
its weights are zero. -/
theorem Regular.weightless (hregular : (choice chooser members r).Regular)
    (hchecked : (choice chooser members r).Checked scope)
    (hfit : (choice chooser members r).expr.TotalFits) {cause : EvaluationCause}
    (h : (chooser.select members.length w).1 = .error (.cause cause)) :
    ∃ weighted, (choice chooser members r).expr = .weightedSample weighted ∧
      ∀ w ∈ Expr.weights weighted, w = 0 := by
  have hfits := hregular.fits chooser members r rfl
  have hzip (weights : List Int) (hlength : weights.length = members.length) :
      Expr.weights (weights.zip (memberExprs members)) = weights :=
    List.map_fst_zip (by rw [memberExprs_eq_map, List.length_map, hlength])
  obtain ⟨-, ⟨table, rfl, hle⟩ | ⟨p, failure, rfl, hdrawn⟩⟩ := hfits.select_cause h
  · refine ⟨_, rfl, ?_⟩
    have hnonneg := (hregular.placed _ _ _ rfl).1
    rw [expr, Chooser.expr, Expr.TotalFits, hzip _ hfits.2.1] at hfit
    rw [wrapSigned_of_mem (totalWeight_nonneg hnonneg) hfit] at hle
    rw [hzip _ hfits.2.1, ← totalWeight_eq_zero_iff hnonneg]
    have := totalWeight_nonneg hnonneg
    omega
  · -- A weighted pool has copies, and as long as it does one of them is drawn.
    rw [expr, Chooser.expr, Expr.TotalFits, hzip _ hfits.1.weights_length] at hfit
    have hsound := (hregular.balanced _ _ _ rfl hfit).fair.sound
    have htotal : totalWeight p.weights ≠ 0 := by
      have hcause := hchecked.cause
      rw [expr, Chooser.expr, Expr.nodeCause?, Option.or_eq_none_iff,
        hzip _ hfits.1.weights_length] at hcause
      simpa using hcause.2
    exact absurd hdrawn (WeightedPool.Sound.draw_ne_error hsound htotal _ _)

end Cell

namespace Visit

variable {scope : Scope} {t : Visit} {failure : Failure}

/-- A visit of a checked node in order fails by itself with a fault of values that refuses no
members, or for a pattern without members. -/
theorem Fails.fault_cases {fault : Fault} (h : t.Fails (.fault fault)) (hregular : t.cell.Regular)
    (hchecked : t.cell.Checked scope) :
    (fault.kind = .value ∧ fault.refusesMembers = false) ∨
      fault = .noSuchMember ∧ t.cell.expr = .pattern [] := by
  cases h with
  | outOfReach => exact .inl ⟨rfl, rfl⟩
  | @enumeration bound ref name values r w _ h =>
    obtain ⟨-, hne⟩ := hchecked.values ref name values r rfl
    obtain ⟨-, rfl⟩ := World.drawValue_fault hne h
    exact .inl ⟨rfl, rfl⟩
  | range _ _ h =>
    obtain rfl | rfl | rfl := Source.boundsFault?_eq_some (World.drawBetween_fault h).2 <;>
      exact .inl ⟨rfl, rfl⟩
  | select h =>
    obtain rfl := hchecked.select_fault (hregular.fits _ _ _ rfl) h
    exact .inl ⟨rfl, rfl⟩
  | @member bound i chooser members r w h hmember =>
    rw [List.getElem?_eq_none_iff] at hmember
    have hempty : members = [] := by
      by_contra hne
      have hlt := hregular.safe (fun _ => List.length_pos_iff.mpr hne) w i h
      omega
    subst hempty
    obtain ⟨cursor, rfl⟩ := Cell.pattern_of_nil hchecked.cause
    exact .inr ⟨rfl, rfl⟩
  | operator h =>
    obtain ⟨-, rfl⟩ := BinaryOp.apply_fault h
    exact .inl ⟨rfl, rfl⟩

/-- What a visit of a checked node in order fails with by itself, is left possible by the checks. -/
theorem Fails.admits (h : t.Fails failure) (hregular : t.cell.Regular)
    (hchecked : t.cell.Checked scope) : t.cell.expr.Admits failure := by
  cases failure with
  | fault fault =>
    obtain ⟨-, hkeeps⟩ | ⟨rfl, -⟩ := h.fault_cases hregular hchecked
    · exact Expr.admits_fault hkeeps
    · exact Expr.admits_fault rfl
  | cause cause =>
    cases h with
    | enumeration h =>
      unfold World.drawValue at h
      split at h
      · cases h
      · split at h <;> cases h
    | @range bound min max r w v u lo hi _ hmin hmax h =>
      have hreversed : hi.value < lo.value := by
        unfold World.drawBetween at h
        split at h
        · assumption
        · split at h <;> cases h
      refine ⟨fun _ => ⟨⟨_, _, rfl⟩, fun a b hexpr => ?_⟩, ?_, by rintro _ ⟨⟩⟩
      · obtain ⟨hmin', hmax'⟩ := Expr.range.inj hexpr
        obtain ⟨_, rfl⟩ := Cell.eq_literal hmin'
        obtain ⟨_, rfl⟩ := Cell.eq_literal hmax'
        cases hmin
        cases hmax
        have hcause := hchecked.cause
        rw [hexpr, Expr.nodeCause?, if_pos hreversed] at hcause
        cases hcause
      · unfold World.drawBetween at h
        rw [if_pos hreversed] at h
        cases h
        rintro ⟨⟩
    | @increment bound first last increment p r w v c h hzero =>
      refine ⟨by rintro ⟨⟩, fun _ => ⟨⟨_, _, _, rfl⟩, fun _ _ size hexpr => ?_⟩, by rintro _ ⟨⟩⟩
      obtain ⟨-, -, hsize⟩ := Expr.sequence.inj hexpr
      obtain ⟨_, rfl⟩ := Cell.eq_literal hsize
      cases h
      have hcause := hchecked.cause
      rw [hexpr] at hcause
      cases hzero
      cases hcause
    | @select bound chooser members r w _ h =>
      obtain ⟨rfl, -⟩ := (hregular.fits chooser members r rfl).select_cause h
      exact Expr.admits_cause (by decide) (by decide)
    | operator h => exact (BinaryOp.admits_apply h _).1

/-- Where a visit of a checked node in order finds no eligible member by itself, and the weights
fit, it is a weighted sample without weights. -/
theorem Fails.weightless (h : t.Fails failure) (hregular : t.cell.Regular)
    (hchecked : t.cell.Checked scope) (hfit : t.cell.expr.TotalFits)
    (hkind : failure.kind? = some .weightSum) :
    ∃ members, t.cell.expr = .weightedSample members ∧ ∀ w ∈ Expr.weights members, w = 0 := by
  cases h with
  | outOfReach | member | increment => cases hkind
  | enumeration h =>
    unfold World.drawValue at h
    split at h
    · cases h
      cases hkind
    · split at h <;> cases h
      cases hkind
  | range _ _ h =>
    unfold World.drawBetween at h
    split at h
    · cases h
      cases hkind
    · split at h <;> cases h
      cases hkind
  | select h =>
    cases failure with
    | fault fault => cases hkind
    | cause cause => exact hregular.weightless hchecked hfit h
  | operator h => exact absurd hkind (BinaryOp.admits_apply h default).2

end Visit

end Stimulus
