import Stimulus.Diagnostic

/-!
# Static checks

What can be seen to be wrong with an expression before it is evaluated: a range of two literals in
reverse order, a sequence with a literal increment of zero, a sampler without members, a negative
weight, a weighted pool without copies.
-/
namespace Stimulus.Expr

/-- The fault of a list of weighted members, if it has one. -/
def weightedCause? (members : List (Int × Expr)) : Option ConstructionCause :=
  if members.isEmpty then some .emptySampler
  else ((weights members).find? (· < 0)).map .negativeWeight

/-- What is wrong with the outermost node of an expression. -/
def nodeCause? : Expr → Option ConstructionCause
  | .range (.literal lo) (.literal hi) =>
    if hi < lo then some (.reversedRange (.range (.literal lo) (.literal hi))) else none
  | .sequence first last (.literal 0) =>
    some (.zeroIncrement (.sequence first last (.literal 0)))
  | .sample members | .pool members => if members.isEmpty then some .emptySampler else none
  | .weightedSample members => weightedCause? members
  | .weightedPool members =>
    (weightedCause? members).or
      (if totalWeight (weights members) = 0 then some (.emptyWeightedPool (.weightedPool members))
        else none)
  | _ => none

/-- The first thing that is wrong with an expression, parents before their children. -/
def cause? (e : Expr) : Option ConstructionCause := e.walk.findSome? nodeCause?

theorem cause?_eq_none_iff {e : Expr} :
    e.cause? = none ↔ ∀ node ∈ e.walk, node.nodeCause? = none := by
  simp [cause?]

/-- Refuses an expression with which something is wrong. -/
def check (subject? : Option String) (position? : Option Position) (e : Expr) :
    Except (Located ConstructionCause) Unit :=
  match e.cause? with
  | some cause => .error { cause, variableName? := subject?, position? }
  | none => .ok ()

end Stimulus.Expr
