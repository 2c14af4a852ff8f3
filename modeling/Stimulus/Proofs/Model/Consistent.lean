import Mathlib.Algebra.Ring.Int.Defs
import Stimulus.Proofs.Model.BuildError

/-!
# Consistent forests

When a forest has a model: its names are distinct, its enumerations have items with values, its
expressions are sound, and every reference has a meaning among the enumerations and the variables
before it. A forest that is not so is refused with a construction error. The only other refusal is
that to write the text of this error, for an integer with too many digits; no document has one.
-/
namespace Stimulus

structure Forest.Consistent (f : Forest) : Prop where
  enumNames : (f.enums.map (·.name)).Nodup
  enum : ∀ e ∈ f.enums, e.Consistent
  names : (f.declarations.map (·.name)).Nodup
  apart : ∀ d ∈ f.declarations, ∀ e ∈ f.enums, d.name ≠ e.name
  sound : ∀ d ∈ f.declarations, d.expr.Sound
  resolves : ∀ (i : Nat) (d : Declaration), f.declarations[i]? = some d →
    ∀ ref, .reference ref ∈ d.expr.walk → ref.Resolves f.enums (f.declarations.take i)

namespace Model

end Model

end Stimulus
