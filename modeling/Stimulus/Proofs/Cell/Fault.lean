import Stimulus.Proofs.Cell.Choosers
import Stimulus.Proofs.Cell.Failure
import Stimulus.Proofs.Sampling.Fault
import Stimulus.Check

/-!
# Nodes that can fault

A step can end with a fault, which belongs to no variable, only at a few kinds of nodes: a pattern
without members, a shift, a range, and sets with more members than there are words. Everything else
that a step fails with is the cause of an evaluation error.
-/
namespace Stimulus

open Stimulus.Random Stimulus.Sampling

namespace Chooser

/-- A chooser over a number of members whose place or ticket is the one of a member. -/
def Fits (count : Nat) : Chooser → Prop
  | pattern cursor => 0 < count → cursor < count
  | sample current? => ∀ i, current? = some i → i < count
  | weightedSample table current? =>
    table.sums = runningSums 0 table.weights ∧ table.weights.length = count ∧
      ∀ i, current? = some i → i < count
  | pool p current? => p.Counts count ∧ ∀ ticket, current? = some ticket → ticket.member < count
  | weightedPool p current? =>
    p.Counts count ∧ ∀ ticket, current? = some ticket → ticket.member < count

variable {count : Nat} {chooser : Chooser}

theorem Initial.fits (h : chooser.Initial count) : chooser.Fits count := by
  cases h with
  | pattern => exact id
  | sample => simp [Fits]
  | weightedSample hcount htable =>
    obtain ⟨-, -, rfl⟩ := WeightTable.ofWeights_eq_ok htable
    exact ⟨rfl, hcount, by simp⟩
  | pool hpos => exact ⟨.full hpos, by simp⟩
  | @weightedPool weights p hcount hpool =>
    obtain ⟨hnonneg, hsigned, -, rfl⟩ := WeightedPool.ofWeights_eq_ok hpool
    have hmem : ∀ w ∈ weights, 0 ≤ w ∧ w ≤ Source.greatestSigned := by
      intro w hw
      have hw' := List.all_eq_true.mp hsigned w hw
      simp only [isSigned, Bool.and_eq_true, decide_eq_true_eq] at hw'
      exact ⟨hnonneg w hw, hw'.2⟩
    exact ⟨⟨hcount, hmem, hcount, hmem⟩, by simp⟩

theorem Fits.reset (h : chooser.Fits count) : chooser.reset.Fits count := by
  cases chooser with
  | pattern cursor => exact id
  | sample current? => simp [Chooser.reset, Fits]
  | weightedSample table current? => exact ⟨h.1, h.2.1, by simp⟩
  | pool p current? | weightedPool p current? => exact ⟨h.1.refill, by simp⟩

/-- What a chooser that fits selects is a member, unless it is a pattern without members; and it
fits afterwards. -/
theorem Fits.select (h : chooser.Fits count) (w : World) :
    (chooser.select count w).2.1.Fits count ∧
      ∀ i, (chooser.select count w).1 = .ok i →
        ((∃ cursor, chooser = pattern cursor) → 0 < count) → i < count := by
  cases chooser with
  | pattern cursor =>
    refine ⟨h, ?_⟩
    rintro _ ⟨⟩ hpos
    exact h (hpos ⟨cursor, rfl⟩)
  | sample current? =>
    cases current? with
    | some member =>
      refine ⟨h, ?_⟩
      rintro _ ⟨⟩ -
      exact h member rfl
    | none =>
      simp only [Chooser.select]
      split
      · exact ⟨h, by simp⟩
      · rename_i hdrawn
        have hlt := Source.uniformIndex_lt hdrawn
        refine ⟨?_, ?_⟩
        · rintro _ ⟨⟩
          omega
        · rintro _ ⟨⟩ -
          omega
  | weightedSample table current? =>
    obtain ⟨hsums, hlength, hcurrent⟩ := h
    cases current? with
    | some member =>
      refine ⟨⟨hsums, hlength, hcurrent⟩, ?_⟩
      rintro _ ⟨⟩ -
      exact hcurrent member rfl
    | none =>
      simp only [Chooser.select]
      split
      · exact ⟨⟨hsums, hlength, hcurrent⟩, by simp⟩
      · rename_i hdrawn
        have hlt := cumulativeIndex_lt hdrawn
        rw [hsums, length_runningSums, hlength] at hlt
        refine ⟨⟨hsums, hlength, ?_⟩, ?_⟩
        · rintro _ ⟨⟩
          exact hlt
        · rintro _ ⟨⟩ -
          exact hlt
  | pool p current? | weightedPool p current? =>
    cases current? with
    | some ticket =>
      refine ⟨h, ?_⟩
      rintro _ ⟨⟩ -
      exact h.2 ticket rfl
    | none =>
      obtain ⟨hcounts, hmember, -⟩ := h.1.draw w.source
      simp only [Chooser.select]
      split
      · exact ⟨⟨hcounts, by simp⟩, by simp⟩
      · rename_i ticket hticket
        refine ⟨⟨hcounts, ?_⟩, ?_⟩
        · rintro _ ⟨⟩
          exact hmember ticket hticket
        · rintro _ ⟨⟩ -
          exact hmember ticket hticket

theorem Fits.settle (h : chooser.Fits count) (done : Bool) (hpos : 0 < count) :
    (chooser.settle count done).2.Fits count := by
  have hkept {α : Type} {current? : Option α} {p : α → Prop} (hp : ∀ x, current? = some x → p x) :
      ∀ x, (if done then none else current?) = some x → p x := by
    cases done with
    | true => simp
    | false => exact hp
  cases chooser with
  | pattern cursor => exact fun _ => Nat.mod_lt _ hpos
  | sample current? => exact hkept h
  | weightedSample table current? => exact ⟨h.1, h.2.1, hkept h.2.2⟩
  | pool p current? | weightedPool p current? => exact ⟨h.1, hkept h.2⟩

/-- In every state a chooser has selected a member or none. -/
theorem invariant_fits : Invariant Fits where
  initial := Initial.fits
  reset := Fits.reset
  select w h := (h.select w).1
  settle done hpos h := h.settle done hpos

/-- A chooser that fits faults only where it draws an index without weights: among no members, or
among more than there are words. -/
theorem Fits.select_fault (h : chooser.Fits count) {w : World} {fault : Fault}
    (hfault : (chooser.select count w).1 = .error (.fault fault)) :
    ((∃ current?, chooser = sample current?) ∨ ∃ p current?, chooser = pool p current?) ∧
      (0 < count → Source.greatestUnsigned < count ∧ fault = .highOutOfUnsignedBounds) := by
  cases chooser with
  | pattern cursor => cases hfault
  | sample current? =>
    refine ⟨.inl ⟨current?, rfl⟩, fun hpos => ?_⟩
    cases current? with
    | some member => cases hfault
    | none =>
      simp only [Chooser.select] at hfault
      split at hfault <;> cases hfault
      rename_i hdrawn
      exact Source.uniformIndex_fault (by omega) hdrawn
  | weightedSample table current? =>
    cases current? with
    | some member => cases hfault
    | none =>
      simp only [Chooser.select] at hfault
      split at hfault <;> cases hfault
      rename_i hdrawn
      rw [WeightTable.draw, h.1] at hdrawn
      cases cumulativeIndex_cause hdrawn
  | pool p current? =>
    refine ⟨.inr ⟨p, current?, rfl⟩, fun _ => ?_⟩
    cases current? with
    | some ticket => cases hfault
    | none =>
      simp only [Chooser.select] at hfault
      split at hfault <;> cases hfault
      rename_i hdrawn
      obtain ⟨hvast, hcause⟩ := (h.1.draw w.source).2.2 _ hdrawn
      cases hcause
      exact ⟨hvast, rfl⟩
  | weightedPool p current? =>
    cases current? with
    | some ticket => cases hfault
    | none =>
      simp only [Chooser.select] at hfault
      split at hfault <;> cases hfault
      rename_i hdrawn
      cases (h.1.draw w.source).2.2 _ hdrawn

end Chooser

/-- The faults that a step can end with at the node of an expression. -/
inductive Expr.CanFault (scope : Scope) : Expr → Fault → Prop
  | emptyPattern : CanFault scope (.pattern []) .noSuchMember
  | shiftLeft (left right : Expr) : CanFault scope (.binary .shiftLeft left right) .negativeShift
  | shiftRight (left right : Expr) : CanFault scope (.binary .shiftRight left right) .negativeShift
  | range (min max : Expr) {lo hi : Int} {fault : Fault} (hle : lo ≤ hi)
      (hbounds : Source.boundsFault? lo hi = some fault) : CanFault scope (.range min max) fault
  | vastSample {members : List Expr} (hvast : Source.greatestUnsigned < members.length) :
      CanFault scope (.sample members) .highOutOfUnsignedBounds
  | vastPool {members : List Expr} (hvast : Source.greatestUnsigned < members.length) :
      CanFault scope (.pool members) .highOutOfUnsignedBounds
  | vastEnumeration (ref : Identifier) {name : String} {values : List Int}
      (hvalues : scope.enumValues? name = some values)
      (hvast : Source.greatestUnsigned < values.length) :
      CanFault scope (.reference ref) .highOutOfUnsignedBounds

theorem BinaryOp.apply_fault {op : BinaryOp} {x y : Int} {fault : Fault}
    (h : op.apply x y = .error (.fault fault)) :
    (op = .shiftLeft ∨ op = .shiftRight) ∧ fault = .negativeShift := by
  have hshift {f : Int → Nat → Int} (h : Word.shift f x y = .error (.fault fault)) :
      fault = .negativeShift := by
    unfold Word.shift at h
    split at h
    · cases h
    · split at h <;> cases h
      rfl
  cases op with
  | shiftLeft => exact ⟨.inl rfl, hshift h⟩
  | shiftRight => exact ⟨.inr rfl, hshift h⟩
  | div | mod =>
    simp only [apply] at h
    split at h <;> cases h
  | _ => cases h

theorem World.drawBetween_fault {w : World} {range : Expr} {lo hi : Int} {fault : Fault}
    (h : (w.drawBetween range lo hi).1 = .error (.fault fault)) :
    lo ≤ hi ∧ Source.boundsFault? lo hi = some fault := by
  unfold drawBetween at h
  split at h
  · cases h
  · rename_i hle
    split at h <;> cases h
    rename_i hdrawn
    obtain ⟨hlt, -⟩ | hbounds := Source.uniformInt_eq_error hdrawn
    · exact absurd hlt hle
    · exact ⟨by omega, hbounds⟩

theorem World.drawValue_fault {w : World} {values : List Int} {fault : Fault} (hne : values ≠ [])
    (h : (w.drawValue values).1 = .error (.fault fault)) :
    Source.greatestUnsigned < values.length ∧ fault = .highOutOfUnsignedBounds := by
  have hpos : 0 < values.length := List.length_pos_iff.mpr hne
  unfold drawValue at h
  split at h
  · cases h
    rename_i hdrawn
    exact Source.uniformIndex_fault (by omega) hdrawn
  · rename_i hdrawn
    have hlt := Source.uniformIndex_lt hdrawn
    split at h <;> cases h
    rename_i hnone
    rw [List.getElem?_eq_none_iff] at hnone
    omega

namespace Cell

variable {advance : Nat → World → Outcome × World}

/-- A node that the checks have let pass, with the values of an enumeration of the scope if it draws
one of them. -/
structure Checked (scope : Scope) (node : Cell) : Prop where
  cause : node.expr.nodeCause? = none
  values : ∀ ref name values r, node = leaf (.enumeration ref name values) r →
    scope.enumValues? name = some values ∧ values ≠ []

/-- Only patterns have passed the checks without members. -/
theorem pattern_of_nil {chooser : Chooser} {r : Report}
    (h : (choice chooser [] r).expr.nodeCause? = none) : ∃ cursor, chooser = .pattern cursor := by
  cases chooser with
  | pattern cursor => exact ⟨cursor, rfl⟩
  | _ => simp [expr, Chooser.expr, memberExprs, Expr.nodeCause?, Expr.weightedCause?] at h

theorem Checked.length_pos {scope : Scope} {chooser : Chooser} {members : List Cell} {r : Report}
    (h : (choice chooser members r).Checked scope)
    (hchooser : ∀ cursor, chooser ≠ .pattern cursor) :
    0 < members.length := by
  cases members with
  | nil =>
    obtain ⟨cursor, hcursor⟩ := pattern_of_nil h.cause
    exact absurd hcursor (hchooser cursor)
  | cons c rest => exact Nat.succ_pos _

/-- A fault at a node that fits comes from one of the expressions that can fault, if the node
neither steps another variable nor asks for one that is out of reach. -/
theorem Raises.canFault {scope : Scope} {w : World} {node : Cell} {fault : Fault}
    (h : Raises advance w node (.fault fault)) (hchecked : node.Checked scope)
    (hfits : node.AllChoosers Chooser.Fits) (hreach : (Failure.fault fault).InReach)
    (hnext : ∀ ref name i r, node ≠ Cell.leaf (.next ref name i) r) :
    node.expr.CanFault scope fault := by
  cases h with
  | @leaf l r _ h =>
    cases l with
    | next ref name i => exact absurd rfl (hnext ref name i r)
    | enumeration ref name values =>
      obtain ⟨hvalues, hne⟩ := hchecked.values ref name values r rfl
      obtain ⟨hvast, rfl⟩ := World.drawValue_fault hne h
      exact .vastEnumeration ref hvalues hvast
    | read ref name i =>
      simp only [Leaf.step, World.read] at h
      split at h <;> cases h
      simp at hreach
    | _ => cases h
  | range h =>
    obtain ⟨hle, hbounds⟩ := World.drawBetween_fault h
    exact .range _ _ hle hbounds
  | @select chooser members r _ h =>
    obtain ⟨⟨current?, rfl⟩ | ⟨p, current?, rfl⟩, hindex⟩ := hfits.choice.select_fault h
    · obtain ⟨hvast, rfl⟩ := hindex (hchecked.length_pos (by simp))
      exact .vastSample (by simpa [memberExprs_eq_map] using hvast)
    · obtain ⟨hvast, rfl⟩ := hindex (hchecked.length_pos (by simp))
      exact .vastPool (by simpa [memberExprs_eq_map] using hvast)
  | @member chooser members r i h hmember =>
    rw [List.getElem?_eq_none_iff] at hmember
    obtain ⟨-, hlt⟩ := hfits.choice.select w
    have hempty : members.length = 0 := by
      by_contra hne
      have := hlt i h fun _ => by omega
      omega
    obtain rfl := List.length_eq_zero_iff.mp hempty
    obtain ⟨cursor, rfl⟩ := pattern_of_nil hchecked.cause
    exact .emptyPattern
  | @operator op left right r x y _ h =>
    obtain ⟨rfl | rfl, rfl⟩ := BinaryOp.apply_fault h
    · exact .shiftLeft _ _
    · exact .shiftRight _ _

end Cell

end Stimulus
