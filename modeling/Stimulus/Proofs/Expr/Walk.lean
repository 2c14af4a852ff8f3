import Mathlib.Data.List.Basic
import Stimulus.Expr.Basic

/-!
# The nodes of an expression

The nodes of an expression are its outermost one and those of its members, whatever kind the
members are of. What holds of an expression if it holds of its members holds of all expressions.
-/
namespace Stimulus.Expr

theorem walkMembers_eq_flatMap (members : List Expr) :
    walkMembers members = members.flatMap walk := by
  induction members with
  | nil => rfl
  | cons e rest ih => simp [walkMembers, ih]

theorem walkWeighted_eq_flatMap (members : List (Int × Expr)) :
    walkWeighted members = (members.map Prod.snd).flatMap walk := by
  induction members with
  | nil => rfl
  | cons member rest ih => simp [walkWeighted, ih]

/-- The expressions directly below an expression. -/
def members : Expr → List Expr
  | .literal _ | .item _ _ | .reference _ => []
  | .range min max => [min, max]
  | .pattern members | .sample members | .pool members => members
  | .sequence first last increment => [first, last, increment]
  | .weightedSample members | .weightedPool members => members.map Prod.snd
  | .unary _ operand => [operand]
  | .binary _ left right => [left, right]

theorem walk_eq (e : Expr) : e.walk = e :: e.members.flatMap walk := by
  cases e <;> simp [walk, members, walkMembers_eq_flatMap, walkWeighted_eq_flatMap]

theorem mem_walk_of_member {e member node : Expr} (h : member ∈ e.members)
    (hnode : node ∈ member.walk) : node ∈ e.walk := by
  rw [walk_eq]
  exact List.mem_cons_of_mem _ (List.mem_flatMap.mpr ⟨member, h, hnode⟩)

/-- Induction over an expression and everything below it. -/
@[elab_as_elim, induction_eliminator]
theorem induct {motive : Expr → Prop}
    (literal : ∀ value, motive (.literal value))
    (item : ∀ name value, motive (.item name value))
    (reference : ∀ ref, motive (.reference ref))
    (range : ∀ min max, motive min → motive max → motive (.range min max))
    (pattern : ∀ members, (∀ e ∈ members, motive e) → motive (.pattern members))
    (sequence : ∀ first last increment, motive first → motive last → motive increment →
      motive (.sequence first last increment))
    (sample : ∀ members, (∀ e ∈ members, motive e) → motive (.sample members))
    (pool : ∀ members, (∀ e ∈ members, motive e) → motive (.pool members))
    (weightedSample : ∀ members : List (Int × Expr), (∀ e ∈ members, motive e.2) →
      motive (.weightedSample members))
    (weightedPool : ∀ members : List (Int × Expr), (∀ e ∈ members, motive e.2) →
      motive (.weightedPool members))
    (unary : ∀ op operand, motive operand → motive (.unary op operand))
    (binary : ∀ op left right, motive left → motive right → motive (.binary op left right))
    (e : Expr) : motive e :=
  @Expr.rec motive (fun members => ∀ e ∈ members, motive e)
    (fun members => ∀ e ∈ members, motive e.2) (fun member => motive member.2)
    literal item reference range pattern sequence sample pool weightedSample weightedPool unary
    binary (by simp) (fun _ _ he hrest => List.forall_mem_cons.mpr ⟨he, hrest⟩)
    (by simp) (fun _ _ he hrest => List.forall_mem_cons.mpr ⟨he, hrest⟩) (fun _ _ he => he) e

/-- Induction over an expression by all expressions directly below it. -/
theorem induct_members {motive : Expr → Prop}
    (hexpr : ∀ e, (∀ member ∈ e.members, motive member) → motive e) (e : Expr) : motive e := by
  induction e with
  | literal | item | reference => exact hexpr _ (by simp [members])
  | range min max ihMin ihMax => exact hexpr _ (by simp [members, ihMin, ihMax])
  | sequence first last increment ihFirst ihLast ihIncrement =>
    exact hexpr _ (by simp [members, ihFirst, ihLast, ihIncrement])
  | pattern list ih | sample list ih | pool list ih => exact hexpr _ ih
  | weightedSample list ih | weightedPool list ih => exact hexpr _ (List.forall_mem_map.mpr ih)
  | unary op operand ih => exact hexpr _ (by simpa [members] using ih)
  | binary op left right ihLeft ihRight => exact hexpr _ (by simp [members, ihLeft, ihRight])

theorem mem_walk_trans {e inner node : Expr} (hinner : inner ∈ e.walk) (hnode : node ∈ inner.walk) :
    node ∈ e.walk := by
  induction e using induct_members with
  | hexpr e ih =>
    rw [walk_eq, List.mem_cons, List.mem_flatMap] at hinner
    obtain rfl | ⟨member, hmember, hinner⟩ := hinner
    · exact hnode
    · exact mem_walk_of_member hmember (ih member hmember hinner)

end Stimulus.Expr
