import Mathlib.Data.List.Forall2
import Stimulus.Proofs.Cell.Tree
import Stimulus.Proofs.Expr.Walk
import Stimulus.Cell.Build

/-!
# What building gives

The cells of an expression are put together from the cells of its references, and every chooser
among them is full and has nothing selected. So a property of freshly built cells is proved by going
through the nodes once.
-/
namespace Stimulus

open Stimulus.Sampling

/-- A sequence of operations succeeds only if its first one does. -/
theorem bind_eq_ok {ε α β : Type} {x : Except ε α} {f : α → Except ε β} {y : β}
    (h : (x >>= f) = .ok y) : ∃ a, x = .ok a ∧ f a = .ok y := by
  cases x with
  | error e => cases h
  | ok a => exact ⟨a, rfl, h⟩

namespace Sampling

theorem negativeFault?_eq_none_iff {weights : List Int} :
    negativeFault? weights = none ↔ ∀ w ∈ weights, 0 ≤ w := by
  simp [negativeFault?]

/-- A new pool holds all copies, of which there are some, and each weight fits its word. -/
theorem WeightedPool.ofWeights_eq_ok {weights : List Int} {p : WeightedPool}
    (h : WeightedPool.ofWeights weights = .ok p) :
    (∀ w ∈ weights, 0 ≤ w) ∧ weights.all isSigned ∧ totalWeight weights ≠ 0 ∧
      p = .full weights := by
  unfold WeightedPool.ofWeights at h
  split at h
  · cases h
  · rename_i hnegative
    split at h
    · cases h
    · rename_i htotal
      split at h
      · cases h
      · rename_i hsigned
        refine ⟨negativeFault?_eq_none_iff.mp hnegative, by simpa using hsigned, htotal, ?_⟩
        exact (Except.ok.inj h).symm

/-- A new table has the running sums of its weights. -/
theorem WeightTable.ofWeights_eq_ok {weights : List Int} {table : WeightTable}
    (h : WeightTable.ofWeights weights = .ok table) :
    (∀ w ∈ weights, 0 ≤ w) ∧ weights ≠ [] ∧ table = ⟨weights, runningSums 0 weights⟩ := by
  unfold WeightTable.ofWeights at h
  split at h
  · cases h
  · rename_i hempty
    split at h
    · cases h
    · rename_i hnegative
      refine ⟨negativeFault?_eq_none_iff.mp hnegative, by simpa using hempty, ?_⟩
      unfold cumulativeWeights at h
      split at h
      · cases h
      · split at h
        · cases h
        · exact (Except.ok.inj h).symm

end Sampling

namespace Chooser

/-- The choosers over a number of members before their first step. -/
inductive Initial (count : Nat) : Chooser → Prop
  | pattern : Initial count (pattern 0)
  | sample : Initial count (sample none)
  | weightedSample {weights : List Int} {table : WeightTable} (hcount : weights.length = count)
      (htable : WeightTable.ofWeights weights = .ok table) :
      Initial count (weightedSample table none)
  | pool (hpos : 0 < count) : Initial count (pool (.full count) none)
  | weightedPool {weights : List Int} {p : WeightedPool} (hcount : weights.length = count)
      (hpool : WeightedPool.ofWeights weights = .ok p) : Initial count (weightedPool p none)

theorem ofPool_eq_ok {count : Nat} {chooser : Chooser} (h : ofPool count = .ok chooser) :
    0 < count ∧ chooser = pool (.full count) none := by
  unfold ofPool Pool.ofSize at h
  split at h
  · cases h
  · rename_i hpos
    cases h
    exact ⟨by omega, rfl⟩

theorem ofWeightedSample_eq_ok {weights : List Int} {chooser : Chooser}
    (h : ofWeightedSample weights = .ok chooser) :
    ∃ table, WeightTable.ofWeights weights = .ok table ∧ chooser = weightedSample table none := by
  unfold ofWeightedSample at h
  cases htable : WeightTable.ofWeights weights with
  | error fault => simp [htable, Except.map] at h
  | ok table =>
    rw [htable] at h
    cases h
    exact ⟨table, rfl, rfl⟩

theorem ofWeightedPool_eq_ok {weights : List Int} {chooser : Chooser}
    (h : ofWeightedPool weights = .ok chooser) :
    ∃ p, WeightedPool.ofWeights weights = .ok p ∧ chooser = weightedPool p none := by
  unfold ofWeightedPool at h
  cases hpool : WeightedPool.ofWeights weights with
  | error fault => simp [hpool, Except.map] at h
  | ok p =>
    rw [hpool] at h
    cases h
    exact ⟨p, rfl, rfl⟩

end Chooser

/-- The chooser that an expression with members starts with. -/
inductive Expr.Chooses : Expr → Chooser → Prop
  | pattern (members : List Expr) : Chooses (.pattern members) (.pattern 0)
  | sample (members : List Expr) : Chooses (.sample members) (.sample none)
  | pool (members : List Expr) (hpos : 0 < members.length) :
      Chooses (.pool members) (.pool (.full members.length) none)
  | weightedSample (members : List (Int × Expr)) {table : WeightTable}
      (htable : WeightTable.ofWeights (Expr.weights members) = .ok table) :
      Chooses (.weightedSample members) (.weightedSample table none)
  | weightedPool (members : List (Int × Expr)) {p : WeightedPool}
      (hpool : WeightedPool.ofWeights (Expr.weights members) = .ok p) :
      Chooses (.weightedPool members) (.weightedPool p none)

theorem Expr.Chooses.initial {e : Expr} {chooser : Chooser} (h : e.Chooses chooser) :
    chooser.Initial e.members.length := by
  cases h with
  | pattern members => exact .pattern
  | sample members => exact .sample
  | pool members hpos => exact .pool hpos
  | weightedSample members htable =>
    exact .weightedSample (by simp [Expr.weights, Expr.members]) htable
  | weightedPool members hpool => exact .weightedPool (by simp [Expr.weights, Expr.members]) hpool

namespace Chooser

/-- A reset changes nothing before the first step. -/
theorem Initial.reset {count : Nat} {chooser : Chooser} (h : chooser.Initial count) :
    chooser.reset = chooser := by
  cases h with
  | pattern | sample | weightedSample | pool => rfl
  | weightedPool _ hpool =>
    obtain ⟨-, -, -, rfl⟩ := WeightedPool.ofWeights_eq_ok hpool
    rfl

end Chooser

namespace Cell

variable {bind : Identifier → Except Error Cell}

theorem choose_eq_ok {chooser : Except Fault Chooser} {members : List Cell} {c : Cell}
    (h : choose chooser members = .ok c) :
    ∃ k, chooser = .ok k ∧ c = choice k members {} := by
  cases chooser with
  | error fault => cases h
  | ok k =>
    cases h
    exact ⟨k, rfl, rfl⟩

/-- Members are built one by one, in their order. -/
theorem buildMembers_eq_ok {members : List Expr} {cells : List Cell}
    (h : buildMembers bind members = .ok cells) :
    List.Forall₂ (fun e c => build bind e = .ok c) members cells := by
  induction members generalizing cells with
  | nil =>
    cases h
    exact .nil
  | cons e rest ih =>
    obtain ⟨c, hc, h⟩ := bind_eq_ok h
    obtain ⟨more, hmore, h⟩ := bind_eq_ok h
    cases h
    exact .cons hc (ih hmore)

theorem buildWeighted_eq (members : List (Int × Expr)) :
    buildWeighted bind members = buildMembers bind (members.map Prod.snd) := by
  induction members with
  | nil => rfl
  | cons member rest ih => simp only [buildWeighted, buildMembers, List.map_cons, ih]

/-- The outermost node of a built cell, by the outermost node of its expression. -/
inductive StartsAs : Expr → Cell → Prop
  | literal (value : Int) : StartsAs (.literal value) (leaf (.literal value) {})
  | item (name : String) (value : Int) : StartsAs (.item name value) (leaf (.item name value) {})
  | range (a b : Expr) (min max : Cell) : StartsAs (.range a b) (range min max {})
  | sequence (a b d : Expr) (first last increment : Cell) :
      StartsAs (.sequence a b d) (sequence first last increment {} {})
  | choice {e : Expr} {chooser : Chooser} (members : List Cell) (hchooser : e.Chooses chooser) :
      StartsAs e (choice chooser members {})
  | unary (op : UnaryOp) (a : Expr) (operand : Cell) : StartsAs (.unary op a) (unary op operand {})
  | binary (op : BinaryOp) (a b : Expr) (left right : Cell) :
      StartsAs (.binary op a b) (binary op left right {})

/-- The cell of a reference is given; any other cell starts over the cells of the expression's
members. -/
theorem build_eq_ok {e : Expr} {c : Cell} (h : build bind e = .ok c) :
    (∃ ref, e = .reference ref ∧ bind ref = .ok c) ∨
      (StartsAs e c ∧ List.Forall₂ (fun e c => build bind e = .ok c) e.members c.children) := by
  cases e with
  | reference ref => exact .inl ⟨ref, rfl, h⟩
  | literal value =>
    cases h
    exact .inr ⟨.literal value, .nil⟩
  | item name value =>
    cases h
    exact .inr ⟨.item name value, .nil⟩
  | range a b =>
    obtain ⟨min, hmin, h⟩ := bind_eq_ok h
    obtain ⟨max, hmax, h⟩ := bind_eq_ok h
    cases h
    exact .inr ⟨.range a b min max, .cons hmin (.cons hmax .nil)⟩
  | sequence a b d =>
    obtain ⟨first, hfirst, h⟩ := bind_eq_ok h
    obtain ⟨last, hlast, h⟩ := bind_eq_ok h
    obtain ⟨increment, hincrement, h⟩ := bind_eq_ok h
    cases h
    exact .inr ⟨.sequence a b d first last increment,
      .cons hfirst (.cons hlast (.cons hincrement .nil))⟩
  | pattern members =>
    obtain ⟨cells, hcells, h⟩ := bind_eq_ok h
    cases h
    exact .inr ⟨.choice cells (.pattern members), buildMembers_eq_ok hcells⟩
  | sample members =>
    obtain ⟨cells, hcells, h⟩ := bind_eq_ok h
    cases h
    exact .inr ⟨.choice cells (.sample members), buildMembers_eq_ok hcells⟩
  | pool members =>
    obtain ⟨cells, hcells, h⟩ := bind_eq_ok h
    obtain ⟨chooser, hchooser, rfl⟩ := choose_eq_ok h
    obtain ⟨hpos, rfl⟩ := Chooser.ofPool_eq_ok hchooser
    have hall := buildMembers_eq_ok hcells
    rw [← hall.length_eq] at hpos ⊢
    exact .inr ⟨.choice cells (.pool members hpos), hall⟩
  | weightedSample members =>
    obtain ⟨cells, hcells, h⟩ := bind_eq_ok h
    obtain ⟨chooser, hchooser, rfl⟩ := choose_eq_ok h
    obtain ⟨table, htable, rfl⟩ := Chooser.ofWeightedSample_eq_ok hchooser
    rw [buildWeighted_eq] at hcells
    exact .inr ⟨.choice cells (.weightedSample members htable), buildMembers_eq_ok hcells⟩
  | weightedPool members =>
    obtain ⟨cells, hcells, h⟩ := bind_eq_ok h
    obtain ⟨chooser, hchooser, rfl⟩ := choose_eq_ok h
    obtain ⟨p, hpool, rfl⟩ := Chooser.ofWeightedPool_eq_ok hchooser
    rw [buildWeighted_eq] at hcells
    exact .inr ⟨.choice cells (.weightedPool members hpool), buildMembers_eq_ok hcells⟩
  | unary op a =>
    obtain ⟨operand, hoperand, h⟩ := bind_eq_ok h
    cases h
    exact .inr ⟨.unary op a operand, .cons hoperand .nil⟩
  | binary op a b =>
    obtain ⟨left, hleft, h⟩ := bind_eq_ok h
    obtain ⟨right, hright, h⟩ := bind_eq_ok h
    cases h
    exact .inr ⟨.binary op a b left right, .cons hleft (.cons hright .nil)⟩

theorem exists_left_of_forall₂ {α β : Type} {r : α → β → Prop} {as : List α} {bs : List β}
    (h : List.Forall₂ r as bs) : ∀ b ∈ bs, ∃ a ∈ as, r a b := by
  induction h with
  | nil => simp
  | cons hfirst _ ih =>
    simp only [List.forall_mem_cons, List.exists_mem_cons_iff]
    exact ⟨.inl hfirst, fun b hb => .inr (ih b hb)⟩

/-- A property that passes from the parts of a cell without progress to the cell, and that holds of
leaves with the property `p`. -/
structure Hereditary (p : Leaf → Prop) (motive : Cell → Prop) : Prop where
  leaf : ∀ l, p l → motive (leaf l {})
  copy : ∀ ref name body, motive body → motive (copy ref name body {})
  range : ∀ min max, motive min → motive max → motive (range min max {})
  sequence : ∀ first last increment, motive first → motive last → motive increment →
    motive (sequence first last increment {} {})
  choice : ∀ chooser members, chooser.Initial members.length → (∀ c ∈ members, motive c) →
    motive (choice chooser members {})
  unary : ∀ op operand, motive operand → motive (unary op operand {})
  binary : ∀ op left right, motive left → motive right → motive (binary op left right {})

/-- A hereditary property of the cells of all references holds of every built cell. -/
theorem Hereditary.build {p : Leaf → Prop} {motive : Cell → Prop} (hm : Hereditary p motive)
    (literal : ∀ value, p (.literal value)) (item : ∀ name value, p (.item name value))
    (hbind : ∀ ref c, bind ref = .ok c → motive c) {e : Expr} {c : Cell}
    (h : build bind e = .ok c) : motive c := by
  induction e using Expr.induct_members generalizing c with
  | hexpr e ih =>
    obtain ⟨ref, rfl, hc⟩ | ⟨hstart, hcells⟩ := build_eq_ok h
    · exact hbind ref c hc
    · have hchildren : ∀ child ∈ c.children, motive child := by
        intro child hchild
        obtain ⟨member, hmember, hbuilt⟩ := exists_left_of_forall₂ hcells child hchild
        exact ih member hmember hbuilt
      cases hstart with
      | literal value => exact hm.leaf _ (literal value)
      | item name value => exact hm.leaf _ (item name value)
      | choice members hchooser =>
        exact hm.choice _ members (hcells.length_eq ▸ hchooser.initial) hchildren
      | range a b min max =>
        simp only [children, List.forall_mem_cons] at hchildren
        exact hm.range min max hchildren.1 hchildren.2.1
      | sequence a b d first last increment =>
        simp only [children, List.forall_mem_cons] at hchildren
        exact hm.sequence first last increment hchildren.1 hchildren.2.1 hchildren.2.2.1
      | unary op a operand =>
        simp only [children, List.forall_mem_cons] at hchildren
        exact hm.unary op operand hchildren.1
      | binary op a b left right =>
        simp only [children, List.forall_mem_cons] at hchildren
        exact hm.binary op left right hchildren.1 hchildren.2.1

theorem hereditary_reset (p : Leaf → Prop) : Hereditary p fun c => c.reset = c where
  leaf l _ := rfl
  copy ref name body hbody := by simp only [reset, hbody]
  range min max hmin hmax := by simp only [reset, hmin, hmax]
  sequence first last increment hfirst hlast hincrement := by
    simp only [reset, hfirst, hlast, hincrement]
  choice chooser members hchooser hmembers := by
    rw [reset, hchooser.reset, resetMembers_eq_map, List.map_congr_left hmembers, List.map_id']
  unary op operand hoperand := by simp only [reset, hoperand]
  binary op left right hleft hright := by simp only [reset, hleft, hright]

theorem hereditary_leaves (p : Leaf → Prop) : Hereditary p fun c => ∀ l ∈ c.leaves, p l where
  leaf l hl := by simpa [leaves] using hl
  copy ref name body hbody := hbody
  range min max hmin hmax := by
    simp only [leaves, List.forall_mem_append]
    exact ⟨hmin, hmax⟩
  sequence first last increment hfirst hlast hincrement := by
    simp only [leaves, List.forall_mem_append]
    exact ⟨⟨hfirst, hlast⟩, hincrement⟩
  choice chooser members _ hmembers := by
    simp only [leaves, memberLeaves_eq_flatMap, List.mem_flatMap]
    rintro l ⟨c, hc, hl⟩
    exact hmembers c hc l hl
  unary op operand hoperand := hoperand
  binary op left right hleft hright := by
    simp only [leaves, List.forall_mem_append]
    exact ⟨hleft, hright⟩

end Cell

end Stimulus
