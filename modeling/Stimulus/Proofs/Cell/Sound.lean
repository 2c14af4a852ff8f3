import Stimulus.Check
import Stimulus.Proofs.Cell.Build
import Stimulus.Proofs.Sampling.Fault

/-!
# Expressions that can be built

An expression that passes the static checks, and whose weights fit their words, is built to cells
wherever its references are: no chooser of its samplers can fail to be made. Otherwise building it
fails as one of its references does, or with the fault of a weight that does not fit.
-/
namespace Stimulus

open Stimulus.Random Stimulus.Sampling

namespace Sampling

/-- Weights that fit their words have a table. -/
theorem WeightTable.ofWeights_of_mem {weights : List Int} (hne : weights ≠ [])
    (h : ∀ w ∈ weights, 0 ≤ w ∧ w ≤ Source.greatestSigned) :
    WeightTable.ofWeights weights = .ok ⟨weights, runningSums 0 weights⟩ := by
  have hnegative := negativeFault?_eq_none_iff.mpr fun w hw => (h w hw).1
  rw [WeightTable.ofWeights, if_neg (by simpa using hne), hnegative]
  simp only [cumulativeWeights_of_mem h, Except.map]

theorem WeightTable.ofWeights_eq_error {weights : List Int} {fault : Fault} (hne : weights ≠ [])
    (hweights : ∀ w ∈ weights, 0 ≤ w) (h : WeightTable.ofWeights weights = .error fault) :
    fault = .tooWide := by
  rw [WeightTable.ofWeights, if_neg (by simpa using hne),
    negativeFault?_eq_none_iff.mpr hweights] at h
  cases hsums : cumulativeWeights weights with
  | ok sums =>
    rw [hsums] at h
    cases h
  | error other =>
    rw [hsums] at h
    cases h
    unfold cumulativeWeights at hsums
    split at hsums
    · cases hsums
      rfl
    · split at hsums <;> cases hsums
      rename_i hnegative
      obtain ⟨w, hw, hlt⟩ := List.any_eq_true.mp hnegative
      exact absurd (hweights w hw) (by simpa using hlt)

/-- Weights that fit their words, and of which some are not zero, have a pool. -/
theorem WeightedPool.ofWeights_of_mem {weights : List Int} (htotal : totalWeight weights ≠ 0)
    (h : ∀ w ∈ weights, 0 ≤ w ∧ w ≤ Source.greatestSigned) :
    WeightedPool.ofWeights weights = .ok (.full weights) := by
  have hnegative := negativeFault?_eq_none_iff.mpr fun w hw => (h w hw).1
  simp [WeightedPool.ofWeights, hnegative, htotal, all_isSigned h]

theorem WeightedPool.ofWeights_eq_error {weights : List Int} {fault : Fault}
    (htotal : totalWeight weights ≠ 0) (hweights : ∀ w ∈ weights, 0 ≤ w)
    (h : WeightedPool.ofWeights weights = .error fault) : fault = .tooWide := by
  rw [WeightedPool.ofWeights, negativeFault?_eq_none_iff.mpr hweights] at h
  simp only [if_neg htotal] at h
  split at h <;> cases h
  rfl

end Sampling

namespace Expr

/-- An expression in which nothing can be seen to be wrong before it is evaluated. -/
structure Sound (e : Expr) : Prop where
  range : ∀ lo hi, .range (.literal lo) (.literal hi) ∈ e.walk → lo ≤ hi
  increment : ∀ first last, .sequence first last (.literal 0) ∉ e.walk
  sample : ∀ members, .sample members ∈ e.walk → members ≠ []
  pool : ∀ members, .pool members ∈ e.walk → members ≠ []
  weighted : ∀ members, .weightedSample members ∈ e.walk ∨ .weightedPool members ∈ e.walk →
    members ≠ [] ∧ ∀ member ∈ members, 0 ≤ member.1
  total : ∀ members, .weightedPool members ∈ e.walk → totalWeight (weights members) ≠ 0

theorem weightedCause?_eq_none_iff {members : List (Int × Expr)} :
    weightedCause? members = none ↔ members ≠ [] ∧ ∀ member ∈ members, 0 ≤ member.1 := by
  unfold weightedCause?
  split
  · rename_i h
    simp [List.isEmpty_iff.mp h]
  · rename_i h
    simp [weights, List.isEmpty_iff.not.mp h]

/-- The static checks find nothing wrong exactly with sound expressions. -/
theorem cause?_eq_none_iff_sound {e : Expr} : e.cause? = none ↔ e.Sound := by
  rw [cause?_eq_none_iff]
  constructor
  · intro h
    refine ⟨?_, ?_, ?_, ?_, ?_, ?_⟩
    · intro lo hi hnode
      have hcause := h _ hnode
      simp only [nodeCause?] at hcause
      split at hcause
      · cases hcause
      · omega
    · intro first last hnode
      have hcause := h _ hnode
      simp [nodeCause?] at hcause
    · intro members hnode
      simpa [nodeCause?] using h _ hnode
    · intro members hnode
      simpa [nodeCause?] using h _ hnode
    · rintro members (hnode | hnode)
      · exact weightedCause?_eq_none_iff.mp (h _ hnode)
      · have hcause := h _ hnode
        rw [nodeCause?, Option.or_eq_none_iff] at hcause
        exact weightedCause?_eq_none_iff.mp hcause.1
    · intro members hnode
      have hcause := h _ hnode
      rw [nodeCause?, Option.or_eq_none_iff] at hcause
      simpa using hcause.2
  · intro h node hnode
    unfold nodeCause?
    split
    · rename_i lo hi
      have hle := h.range lo hi hnode
      rw [if_neg (by omega)]
    · exact absurd hnode (h.increment _ _)
    · simpa using h.sample _ hnode
    · simpa using h.pool _ hnode
    · exact weightedCause?_eq_none_iff.mpr (h.weighted _ (.inl hnode))
    · rw [weightedCause?_eq_none_iff.mpr (h.weighted _ (.inr hnode)), if_neg (h.total _ hnode)]
      rfl
    · rfl

/-- An expression whose weights are at most the greatest signed number of 64 bits,
`2 ^ 63 - 1`. -/
def WeightsFit (e : Expr) : Prop :=
  ∀ members, .weightedSample members ∈ e.walk ∨ .weightedPool members ∈ e.walk →
    ∀ member ∈ members, member.1 ≤ Source.greatestSigned

/-- The fault with which the chooser of a node is refused. -/
inductive Refuses : Expr → Fault → Prop
  | pool : Refuses (.pool []) .emptyPool
  | weightedSample {members : List (Int × Expr)} {fault : Fault}
      (h : WeightTable.ofWeights (weights members) = .error fault) :
      Refuses (.weightedSample members) fault
  | weightedPool {members : List (Int × Expr)} {fault : Fault}
      (h : WeightedPool.ofWeights (weights members) = .error fault) :
      Refuses (.weightedPool members) fault

/-- In a sound expression only a weight that does not fit its word is refused. -/
theorem Sound.refuses {e node : Expr} {fault : Fault} (h : e.Sound) (hnode : node ∈ e.walk)
    (hrefuses : node.Refuses fault) : fault = .tooWide ∧ ¬e.WeightsFit := by
  have hnonneg {members : List (Int × Expr)} (hweighted : .weightedSample members ∈ e.walk ∨
      .weightedPool members ∈ e.walk) : ∀ w ∈ weights members, 0 ≤ w :=
    List.forall_mem_map.mpr (h.weighted members hweighted).2
  have hmem {members : List (Int × Expr)} (hweighted : .weightedSample members ∈ e.walk ∨
      .weightedPool members ∈ e.walk) (hfit : e.WeightsFit) :
      ∀ w ∈ weights members, 0 ≤ w ∧ w ≤ Source.greatestSigned :=
    List.forall_mem_map.mpr fun member hmember =>
      ⟨(h.weighted members hweighted).2 member hmember, hfit members hweighted member hmember⟩
  cases hrefuses with
  | pool => exact absurd rfl (h.pool [] hnode)
  | @weightedSample members _ hfault =>
    have hne : weights members ≠ [] := by simpa [weights] using (h.weighted members (.inl hnode)).1
    refine ⟨WeightTable.ofWeights_eq_error hne (hnonneg (.inl hnode)) hfault, fun hfit => ?_⟩
    rw [WeightTable.ofWeights_of_mem hne (hmem (.inl hnode) hfit)] at hfault
    cases hfault
  | @weightedPool members _ hfault =>
    have htotal := h.total members hnode
    refine ⟨WeightedPool.ofWeights_eq_error htotal (hnonneg (.inr hnode)) hfault, fun hfit => ?_⟩
    rw [WeightedPool.ofWeights_of_mem htotal (hmem (.inr hnode) hfit)] at hfault
    cases hfault

end Expr

namespace Cell

variable {bind : Identifier → Except Error Cell}

/-- Building some expressions ends with their cells, or as the reference of one of them does, or
with the fault of a chooser. -/
inductive BuildOutcome {α : Type} (bind : Identifier → Except Error Cell) (nodes : List Expr) :
    Except Error α → Prop
  | built (result : α) : BuildOutcome bind nodes (.ok result)
  | unbound {ref : Identifier} {error : Error} (href : .reference ref ∈ nodes)
      (hbind : bind ref = .error error) : BuildOutcome bind nodes (.error error)
  | refused {node : Expr} {fault : Fault} (hnode : node ∈ nodes) (hrefuses : node.Refuses fault) :
      BuildOutcome bind nodes (.error (.fault fault))

theorem BuildOutcome.andThen {α β : Type} {nodes : List Expr} {x : Except Error α}
    {f : α → Except Error β} (hx : BuildOutcome bind nodes x)
    (hf : ∀ a, x = .ok a → BuildOutcome bind nodes (f a)) : BuildOutcome bind nodes (x >>= f) := by
  cases hx with
  | built a => exact hf a rfl
  | unbound href hbind => exact .unbound href hbind
  | refused hnode hrefuses => exact .refused hnode hrefuses

theorem BuildOutcome.mono {α : Type} {nodes more : List Expr} {x : Except Error α}
    (h : BuildOutcome bind nodes x) (hsub : ∀ node ∈ nodes, node ∈ more) :
    BuildOutcome bind more x := by
  cases h with
  | built a => exact .built a
  | unbound href hbind => exact .unbound (hsub _ href) hbind
  | refused hnode hrefuses => exact .refused (hsub _ hnode) hrefuses

theorem buildOutcome_buildMembers {nodes : List Expr} {members : List Expr}
    (h : ∀ member ∈ members, BuildOutcome bind nodes (build bind member)) :
    BuildOutcome bind nodes (buildMembers bind members) := by
  induction members with
  | nil => exact .built []
  | cons e rest ih =>
    rw [List.forall_mem_cons] at h
    refine h.1.andThen fun cell _ => (ih h.2).andThen fun cells _ => ?_
    exact .built (cell :: cells)

theorem length_of_buildMembers {members : List Expr} {cells : List Cell}
    (h : buildMembers bind members = .ok cells) : cells.length = members.length :=
  (buildMembers_eq_ok h).length_eq.symm

/-- An expression is built wherever its references are and its choosers can be made. -/
theorem buildOutcome_build (e : Expr) : BuildOutcome bind e.walk (build bind e) := by
  induction e using Expr.induct_members with
  | hexpr e ih =>
    have hmember (member : Expr) (hmem : member ∈ e.members) :
        BuildOutcome bind e.walk (build bind member) :=
      (ih member hmem).mono fun node hnode => Expr.mem_walk_of_member hmem hnode
    have hmembers := buildOutcome_buildMembers hmember
    cases e with
    | literal | item => exact .built _
    | reference ref =>
      cases hbind : bind ref with
      | ok c => rw [build, hbind]; exact .built c
      | error error => rw [build, hbind]; exact .unbound (Expr.mem_walk_self _) hbind
    | range min max =>
      refine (hmember min (by simp [Expr.members])).andThen fun _ _ => ?_
      refine (hmember max (by simp [Expr.members])).andThen fun _ _ => ?_
      exact .built _
    | sequence first last increment =>
      refine (hmember first (by simp [Expr.members])).andThen fun _ _ => ?_
      refine (hmember last (by simp [Expr.members])).andThen fun _ _ => ?_
      refine (hmember increment (by simp [Expr.members])).andThen fun _ _ => ?_
      exact .built _
    | unary op operand =>
      exact (hmember operand (by simp [Expr.members])).andThen fun _ _ => .built _
    | binary op left right =>
      refine (hmember left (by simp [Expr.members])).andThen fun _ _ => ?_
      refine (hmember right (by simp [Expr.members])).andThen fun _ _ => ?_
      exact .built _
    | pattern members | sample members => exact hmembers.andThen fun _ _ => .built _
    | pool members =>
      refine hmembers.andThen fun cells hcells => ?_
      rw [length_of_buildMembers hcells]
      cases members with
      | nil => exact .refused (Expr.mem_walk_self _) .pool
      | cons member rest => exact .built _
    | weightedSample members =>
      simp only [build, buildWeighted_eq]
      refine hmembers.andThen fun cells _ => ?_
      rw [Chooser.ofWeightedSample]
      cases htable : WeightTable.ofWeights (Expr.weights members) with
      | ok table => exact .built _
      | error fault => exact .refused (Expr.mem_walk_self _) (.weightedSample htable)
    | weightedPool members =>
      simp only [build, buildWeighted_eq]
      refine hmembers.andThen fun cells _ => ?_
      rw [Chooser.ofWeightedPool]
      cases hpool : WeightedPool.ofWeights (Expr.weights members) with
      | ok p => exact .built _
      | error fault => exact .refused (Expr.mem_walk_self _) (.weightedPool hpool)

end Cell

end Stimulus
