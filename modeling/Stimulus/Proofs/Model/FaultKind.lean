import Stimulus.Proofs.Model.Visits

/-!
# Faults that are not of values

Nearly all faults of compiling and evaluating are faults of values. There are two others: a pattern
without members asks for one of them, and a weight can be too wide for a table.
-/
namespace Stimulus

/-- The faults, but for those of values, that some expressions can lead to. -/
inductive Fault.StemsFrom (exprs : Expr → Prop) : Fault → Prop
  | emptyPattern {e : Expr} (he : exprs e) (h : .pattern [] ∈ e.walk) :
      StemsFrom exprs .noSuchMember
  | tooWide {e : Expr} (he : exprs e) (h : ¬e.WeightsFit) : StemsFrom exprs .tooWide

theorem Fault.StemsFrom.mono {exprs others : Expr → Prop} {fault : Fault}
    (h : fault.StemsFrom exprs) (hmono : ∀ e, exprs e → others e) : fault.StemsFrom others := by
  cases h with
  | emptyPattern he h => exact .emptyPattern (hmono _ he) h
  | tooWide he h => exact .tooWide (hmono _ he) h

namespace Model

variable {settings : Settings} {forest : Forest} {m : Model} {fault : Fault}

theorem fault_of_compile (h : compile settings forest = .error (.fault fault)) :
    fault.kind = .value ∨ fault.StemsFrom fun e => ∃ d ∈ forest.declarations, d.expr = e := by
  cases error_of_compile h with
  | tooWide hwide =>
    obtain ⟨d, hd, hwide⟩ := hwide
    exact .inr (.tooWide ⟨d, hd, rfl⟩ hwide)
  | unwritable => exact .inl rfl

/-- A call that ends with a fault ends with one of values, or an expression that belongs to it leads
to the fault. -/
theorem fault_of_perform (hm : compile settings forest = .ok m) (calls : List Call) {call : Call}
    (h : ((m.after calls).perform call).1.error? = some (.fault fault)) :
    fault.kind = .value ∨ fault.StemsFrom (call.Handles forest) := by
  obtain ⟨e, rfl, hbuild⟩ | ⟨t, failure, hvisits, hraises, hfailure⟩ := exists_raises hm calls h
  · cases error_of_buildOnce hm calls hbuild with
    | tooWide hwide =>
      obtain hwide | ⟨d, hd, hwide⟩ := hwide
      · exact .inr (.tooWide (.once e) hwide)
      · exact .inr (.tooWide (.declared hd) hwide)
    | unwritable => exact .inl rfl
  · cases hfailure
    obtain ⟨-, hnodes⟩ := hvisits.vetted hm
    obtain ⟨hregular, hchecked, e, he, hexpr⟩ := hnodes t.cell t.cell.mem_walk_self
    obtain ⟨hvalue, -⟩ | ⟨rfl, hempty⟩ := hraises.fails.fault_cases hregular hchecked
    · exact .inl hvalue
    · exact .inr (.emptyPattern he (hempty ▸ hexpr))

theorem fault_of_advance (hm : compile settings forest = .ok m) (calls : List Call)
    (h : (m.after calls).advance.outcome = .error (.fault fault)) :
    fault.kind = .value ∨ fault.StemsFrom (Call.advance.Handles forest) :=
  fault_of_perform hm calls (by simp [perform, h, Reply.error?])

theorem fault_of_evaluateOnce (hm : compile settings forest = .ok m) {e : Expr}
    (h : (m.evaluateOnce e).outcome = .error (.fault fault)) :
    fault.kind = .value ∨ fault.StemsFrom ((Call.once e).Handles forest) :=
  fault_of_perform hm [] (by simp [perform, h, Reply.error?])

end Model

end Stimulus
