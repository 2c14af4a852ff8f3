import Stimulus.Proofs.Cell.Admitted
import Stimulus.Proofs.Model.BuildError
import Stimulus.Proofs.Model.WellFormed

/-!
# The steps of an evaluation

A cycle visits the cells of one variable after the other, and an expression that is evaluated once
is visited on cells of its own. All nodes that they come to, through copies and through variables
that are stepped within a step, are in order and have passed the checks. So where an evaluation
fails, it fails for a reason that the checks cannot see beforehand.
-/
namespace Stimulus

open Stimulus.Sampling

/-- What an error tells of the failure behind it; a refused document or forest has none. -/
def Error.failure? : Error → Option Failure
  | evaluation located => some (.cause located.cause)
  | fault f => some (.fault f)
  | format _ | construction _ => none

@[simp] theorem Declaration.failure?_error (d : Declaration) (failure : Failure) :
    (d.error failure).failure? = some failure := by
  cases failure <;> rfl

@[simp] theorem Error.failure?_ofFailure (failure : Failure) :
    (Error.ofFailure failure).failure? = some failure := by
  cases failure <;> rfl

/-- The error that an evaluation is answered with. -/
def Reply.error? : Reply → Option Error
  | cycle (.error e) _ _ | value (.error e) _ => some e
  | _ => none

/-- An expression that is evaluated once has samplers whose weights add up to signed numbers of 64
bits. -/
def Call.TotalsFit : Call → Prop
  | once e => e.TotalsFit
  | _ => True

theorem World.Completes.reaches {m : Model} {i j : Nat} {w v : World} (h : Completes i w j v)
    (hw : m.Reaches w) : m.Reaches v := by
  induction h with
  | refl i w => exact hw
  | step hstep hrest ih => exact ih (hw.stepped _ _)

/-- The expressions that belong to a call: those of the declarations, and the one that it evaluates
once. -/
inductive Call.Handles (forest : Forest) : Call → Expr → Prop
  | declared {call : Call} {d : Declaration} (h : d ∈ forest.declarations) :
    Handles forest call d.expr
  | once (e : Expr) : Handles forest (.once e) e

theorem Call.Handles.totalsFit {forest : Forest} {call : Call} {e : Expr}
    (h : call.Handles forest e)
    (hfit : ∀ d ∈ forest.declarations, d.expr.TotalsFit) (hown : call.TotalsFit) : e.TotalsFit := by
  cases h with
  | declared hd => exact hfit _ hd
  | once => exact hown

/-- A node in order that has passed the checks, and that one of some expressions has. -/
structure Cell.Vetted (scope : Scope) (sources : Expr → Prop) (node : Cell) : Prop where
  regular : node.Regular
  checked : node.Checked scope
  source : ∃ e, sources e ∧ node.expr ∈ e.walk

namespace Model

/-- The visits that a call on a model makes, if those before them succeed. -/
inductive Visits (m : Model) : Call → Visit → Prop
  | cycle {i : Nat} {w : World} {c : Cell} (hbefore : World.Completes 0 m.world i w)
      (hcell : w.cells[i]? = some c) : Visits m .advance ⟨i, c, w⟩
  | once {e : Expr} {c : Cell} (hbuild : m.buildOnce e = .ok c) :
      Visits m (.once e) ⟨m.cells.size, c, m.world⟩
  | calls {call : Call} {t u : Visit} (h : Visits m call t) (hcalls : t.Calls u) : Visits m call u

theorem Visits.run {m : Model} {call : Call} {t u : Visit} (h : m.Visits call t)
    (hrun : Relation.ReflTransGen Visit.Calls t u) : m.Visits call u := by
  induction hrun with
  | refl => exact h
  | tail _ hcalls ih => exact ih.calls hcalls

variable {settings : Settings} {forest : Forest} {m : Model}

/-- An evaluation that fails is refused before its first step, or its failure is raised at one of
its visits. -/
theorem exists_raises (hm : compile settings forest = .ok m) (calls : List Call) {call : Call}
    {error : Error} (h : ((m.after calls).perform call).1.error? = some error) :
    (∃ e, call = .once e ∧ (m.after calls).buildOnce e = .error error) ∨
      ∃ t failure, (m.after calls).Visits call t ∧ t.Raises failure ∧
        error.failure? = some failure := by
  obtain ⟨hsize, -⟩ := backward_after hm calls
  generalize m.after calls = n at h hsize ⊢
  -- A visit of the call that fails has one below it where the failure is raised.
  have hraised {t : Visit} {failure : Failure} (ht : n.Visits call t)
      (houtcome : t.outcome = .error failure) (herror : error.failure? = some failure) :
      ∃ t failure, n.Visits call t ∧ t.Raises failure ∧ error.failure? = some failure := by
    obtain ⟨u, hrun, hraises⟩ := Visit.exists_raises houtcome
    exact ⟨u, failure, ht.run hrun, hraises, herror⟩
  cases call with
  | advance =>
    have houtcome : n.advance.outcome = .error error := by
      simp only [perform] at h
      cases houtcome : n.advance.outcome with
      | ok _ => simp [houtcome, Reply.error?] at h
      | error other =>
        rw [houtcome] at h
        exact congrArg _ (Option.some.inj h)
    obtain ⟨hfails, -⟩ := advance_eq_error houtcome
    obtain ⟨i, d, v, failure, hd, hbefore, hfailure, rfl, -⟩ := World.stepAll_eq_error hfails
    rw [Nat.zero_add] at hbefore hfailure
    obtain ⟨hi, -⟩ := List.getElem?_eq_some_iff.mp hd
    have hlt : i < v.cells.size := by
      rw [World.size_of_initialCells hbefore.initialCells, world, hsize]
      exact hi
    have hcell : v.cells[i]? = some v.cells[i] := Array.getElem?_eq_getElem hlt
    rw [World.stepVariable_eq hcell] at hfailure
    exact .inr (hraised (.cycle hbefore hcell) hfailure (d.failure?_error failure))
  | once e =>
    have houtcome : (n.evaluateOnce e).outcome = .error error := by
      simp only [perform] at h
      cases houtcome : (n.evaluateOnce e).outcome with
      | ok _ => simp [houtcome, Reply.error?] at h
      | error other =>
        rw [houtcome] at h
        exact congrArg _ (Option.some.inj h)
    unfold evaluateOnce at houtcome
    split at houtcome
    · rename_i other hother
      cases houtcome
      exact .inl ⟨e, rfl, hother⟩
    · rename_i c hc
      refine .inr ?_
      simp only at houtcome
      cases hstep : (c.step (World.stepBelow n.cells.size) n.world).outcome with
      | ok x =>
        rw [hstep] at houtcome
        cases houtcome
      | error failure =>
        rw [hstep] at houtcome
        cases houtcome
        exact hraised (.once hc) hstep (Error.failure?_ofFailure failure)
  | seed value =>
    simp only [perform] at h
    split at h <;> cases h
  | reset => cases h

/-- All nodes of the variables are in order and have passed the checks, wherever a model comes
to. -/
theorem Reaches.vetted (hm : compile settings forest = .ok m) {w : World} (hw : m.Reaches w)
    (call : Call) (i : Nat) (c : Cell) (hcell : w.cells[i]? = some c) :
    ∀ node ∈ c.walk, node.Vetted m.scope (call.Handles forest) := by
  intro node hnode
  obtain ⟨hcompiled, -⟩ := compile_eq_ok hm
  obtain ⟨d, hd, hexpr⟩ := hw.source hm hcell hnode
  exact {
    regular := hw.everywhere Cell.lasting_regular hm i c hcell node hnode
    checked := (hcompiled.declares_of_initialCells (w := m.world) (items_ne_nil_of_compile hm)
      hw.initialCells hcell hnode).checked
    source := ⟨d.expr, .declared hd, hexpr⟩ }

/-- All nodes of an expression that is evaluated once are in order and have passed the checks. -/
theorem vetted_of_buildOnce (hm : compile settings forest = .ok m) (calls : List Call) {e : Expr}
    {c : Cell} (hbuild : (m.after calls).buildOnce e = .ok c) :
    ∀ node ∈ c.walk, node.Vetted m.scope ((Call.once e).Handles forest) := by
  intro node hnode
  obtain ⟨hcompiled, hdeclarations, -⟩ := compile_eq_ok hm
  obtain ⟨hfresh, hsource⟩ := source_of_buildOnce hm calls hbuild hnode
  obtain ⟨_, hcheck, hcells⟩ := bind_eq_ok hbuild
  rw [(m.sameOrigin_after calls).scope] at hcells
  have hsound : e.Sound := (Expr.accepts_check none none e).iff.mp ⟨_, hcheck⟩
  refine ⟨Cell.lasting_regular.fresh hfresh, ⟨?_, ?_⟩, ?_⟩
  · obtain hown | ⟨d, hd, hother⟩ := hsource
    · exact Expr.cause?_eq_none_iff.mp (Expr.cause?_eq_none_iff_sound.mpr hsound) _ hown
    · rw [← hdeclarations] at hd
      exact hcompiled.nodeCause?_eq_none hd hother
  · rintro ref name values r rfl
    have hvalues : m.scope.enumValues? name = some values :=
      Scope.boundIn_of_buildCell hcells _ (Cell.mem_leaves_of_mem_walk hnode)
    exact ⟨hvalues, Scope.values_ne_nil (items_ne_nil_of_compile hm) hvalues⟩
  · obtain hown | ⟨d, hd, hother⟩ := hsource
    · exact ⟨e, .once e, hown⟩
    · exact ⟨d.expr, .declared hd, hother⟩

/-- All nodes that a call comes to are in order and have passed the checks. -/
theorem Visits.vetted (hm : compile settings forest = .ok m) {calls : List Call} {call : Call}
    {t : Visit} (h : (m.after calls).Visits call t) :
    m.Reaches t.world ∧ ∀ node ∈ t.cell.walk, node.Vetted m.scope (call.Handles forest) := by
  induction h with
  | cycle hbefore hcell =>
    have hworld := hbefore.reaches (.called calls)
    exact ⟨hworld, hworld.vetted hm .advance _ _ hcell⟩
  | once hbuild => exact ⟨.called calls, vetted_of_buildOnce hm calls hbuild⟩
  | calls _ hcalls ih =>
    obtain ⟨hworld, hnodes⟩ := ih
    refine ⟨?_, hcalls.walk hnodes (hworld.vetted hm _)⟩
    exact hcalls.keeps (fun _ _ hdraws hv => .drawn hdraws hv)
      (fun bound i _ hv => .stepped bound i hv) hworld

/-- The checks are sound for evaluation. Whatever calls have been made on a compiled model whose
weighted samplers have totals of at most `2 ^ 63 - 1`, an evaluation that fails is refused before
its first step, as its expression is built; or its failure is raised at a node that it visits, where
all steps below succeed. There a range that turns out to be empty has bounds that are not both
literals, and an increment of zero is no literal; no set, table or pool refuses its members or
weights; and a sampler without an eligible member is one with replacement all of whose weights are
zero. This takes for granted that the totals of an expression that is evaluated once fit, too. -/
theorem evaluation_fails_unforeseen (hm : compile settings forest = .ok m)
    (hfit : ∀ d ∈ forest.declarations, d.expr.TotalsFit) (calls : List Call) {call : Call}
    {error : Error} (h : ((m.after calls).perform call).1.error? = some error) :
    (∃ e, call = .once e ∧ error.OfBuilding (¬e.WeightsFit) ¬e.isWritable) ∨
      ∃ t failure, (m.after calls).Visits call t ∧ t.Raises failure ∧
        error.failure? = some failure ∧ t.cell.expr.Admits failure ∧
        (call.TotalsFit → failure.kind? = some .weightSum →
          ∃ members, t.cell.expr = .weightedSample members ∧
            ∀ w ∈ Expr.weights members, w = 0) := by
  obtain ⟨e, rfl, hbuild⟩ | ⟨t, failure, hvisits, hraises, herror⟩ := exists_raises hm calls h
  · refine .inl ⟨e, rfl, (error_of_buildOnce hm calls hbuild).mono (fun hwide => ?_) id⟩
    obtain ⟨hcompiled, hdeclarations, -⟩ := compile_eq_ok hm
    obtain hwide | ⟨d, hd, hwide⟩ := hwide
    · exact hwide
    · have hsound : d.expr.Sound := by
        rw [← hdeclarations] at hd
        exact hcompiled.sound_of_mem d hd
      exact absurd ((hfit d hd).weightsFit hsound) hwide
  · obtain ⟨-, hnodes⟩ := hvisits.vetted hm
    have hvetted := hnodes t.cell t.cell.mem_walk_self
    refine .inr ⟨t, failure, hvisits, hraises, herror, ?_, fun hown hkind => ?_⟩
    · exact hraises.fails.admits hvetted.regular hvetted.checked
    · obtain ⟨e, he, hexpr⟩ := hvetted.source
      have htotal := (he.totalsFit hfit hown).totalFits hexpr
      exact hraises.fails.weightless hvetted.regular hvetted.checked htotal hkind

/-- A copy, evaluated once behind a cycle that has failed, of a sampler without weights. -/
theorem evaluation_fails_unforeseen_copy :
    let forest : Forest := { declarations := [
      ⟨"a", .weightedSample [(0, .literal 1), (0, .literal 2)], none⟩] }
    let call := .once (.reference { path := "a", access? := some .copy })
    ∃ m error, compile {} forest = .ok m ∧
      ((m.after [.advance]).perform call).1.error? = some error ∧
      ∃ t failure, (m.after [.advance]).Visits call t ∧ t.Raises failure ∧
        error.failure? = some failure ∧
        ∃ members, t.cell.expr = .weightedSample members ∧ ∀ w ∈ Expr.weights members, w = 0 := by
  intro forest call
  have hfit : ∀ d ∈ forest.declarations, d.expr.TotalsFit := by
    intro d hd members hmembers
    simp only [forest, List.mem_cons, List.not_mem_nil, or_false] at hd
    subst hd
    simp only [Expr.walk, Expr.walkWeighted, List.append_nil, List.mem_cons, List.cons_append,
      List.nil_append, reduceCtorEq, List.not_mem_nil, or_false,
      Expr.weightedSample.injEq] at hmembers
    subst hmembers
    decide
  have hown : call.TotalsFit := by
    rintro members (hmembers | hmembers) <;> simp [Expr.walk] at hmembers
  obtain ⟨m, error, hm, h, hkind⟩ : ∃ m error, compile {} forest = .ok m ∧
      ((m.after [.advance]).perform call).1.error? = some error ∧
      error.failure?.bind Failure.kind? = some .weightSum := ⟨_, _, rfl, rfl, rfl⟩
  refine ⟨m, error, hm, h, ?_⟩
  obtain ⟨e, -, hbuilding⟩ | ⟨t, failure, hvisits, hraises, herror, -, hweightless⟩ :=
    evaluation_fails_unforeseen hm hfit [.advance] h
  · cases hbuilding <;> cases hkind
  · rw [herror] at hkind
    exact ⟨t, failure, hvisits, hraises, herror, hweightless hown hkind⟩

end Model

end Stimulus
