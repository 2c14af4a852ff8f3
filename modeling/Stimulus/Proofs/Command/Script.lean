import Stimulus.Command.Script

/-!
# What scripts do

A script adds actions to those before it, and ends with a value or with a problem. Scripts that
write no file are put together from smaller ones, with what is known of their values and their
problems.
-/
namespace Stimulus.Command

def Action.IsWrite : Action → Prop
  | .write .. => True
  | .print _ | .log _ => False

namespace Script

variable {α β : Type} {s : Script α} {f : α → Script β}

/-- A script adds actions to any others, and ends with an outcome. -/
def Does (s : Script α) (actions : List Action) (outcome : Except Problem α) : Prop :=
  ∀ before : Array Action, Id.run (s.run before) = (outcome, before ++ actions.toArray)

theorem Does.result_eq {actions : List Action} {outcome : Except Problem α}
    (h : s.Does actions outcome) : s.result = (outcome, actions) := by
  simp [result, h #[]]

theorem does_pure (a : α) : (pure a : Script α).Does [] (.ok a) := by
  intro before
  change (Except.ok a, before) = _
  simp

theorem does_throw (problem : Problem) : (throw problem : Script α).Does [] (.error problem) := by
  intro before
  change (Except.error problem, before) = _
  simp

theorem does_act (action : Action) : (act action).Does [action] (.ok ()) := by
  intro before
  change (Except.ok (), before.push action) = _
  simp

theorem run_bind {before after : Array Action} {outcome : Except Problem α}
    (h : Id.run (s.run before) = (outcome, after)) :
    Id.run ((s >>= f).run before) = Id.run (ExceptT.bindCont f outcome after) := by
  change Id.run (ExceptT.bindCont f (s.run before).1 (s.run before).2) = _
  rw [show s.run before = _ from h]

theorem Does.bind {actions more : List Action} {a : α} {outcome : Except Problem β}
    (hs : s.Does actions (.ok a)) (hf : (f a).Does more outcome) :
    (s >>= f).Does (actions ++ more) outcome := by
  intro before
  rw [run_bind (hs before)]
  refine (hf (before ++ actions.toArray)).trans ?_
  simp

theorem Does.bind_error {actions : List Action} {problem : Problem}
    (hs : s.Does actions (.error problem)) : (s >>= f).Does actions (.error problem) := by
  intro before
  rw [run_bind (hs before)]
  rfl

/-- A script ends with an outcome, whatever it does before. -/
def Gives (s : Script α) (outcome : Except Problem α) : Prop := ∃ actions, s.Does actions outcome

theorem Gives.result_eq {outcome : Except Problem α} (h : s.Gives outcome) :
    s.result.1 = outcome := by
  obtain ⟨actions, hdoes⟩ := h
  rw [hdoes.result_eq]

theorem gives_pure (a : α) : (pure a : Script α).Gives (.ok a) := ⟨_, does_pure a⟩

theorem gives_throw (problem : Problem) : (throw problem : Script α).Gives (.error problem) :=
  ⟨_, does_throw problem⟩

theorem gives_act (action : Action) : (act action).Gives (.ok ()) := ⟨_, does_act action⟩

theorem Gives.bind {a : α} {outcome : Except Problem β} (hs : s.Gives (.ok a))
    (hf : (f a).Gives outcome) : (s >>= f).Gives outcome := by
  obtain ⟨actions, hdoes⟩ := hs
  obtain ⟨more, hmore⟩ := hf
  exact ⟨_, hdoes.bind hmore⟩

theorem Gives.bind_error {problem : Problem} (hs : s.Gives (.error problem)) :
    (s >>= f).Gives (.error problem) := by
  obtain ⟨actions, hdoes⟩ := hs
  exact ⟨_, hdoes.bind_error⟩

/-! ## Scripts that write no file -/

/-- A script writes no file, and its value or its problem is one of those given. -/
inductive Ensures (values : α → Prop) (problems : Problem → Prop) (s : Script α) : Prop
  | value {actions : List Action} {a : α} (hdoes : s.Does actions (.ok a))
      (hquiet : ∀ action ∈ actions, ¬action.IsWrite) (h : values a) : Ensures values problems s
  | problem {actions : List Action} {problem : Problem} (hdoes : s.Does actions (.error problem))
      (hquiet : ∀ action ∈ actions, ¬action.IsWrite) (h : problems problem) :
      Ensures values problems s

variable {values : α → Prop} {others : β → Prop} {problems : Problem → Prop}

namespace Ensures

theorem pure {a : α} (h : values a) : Ensures values problems (pure a) :=
  .value (does_pure a) (by simp) h

theorem throw {problem : Problem} (h : problems problem) :
    Ensures values problems (throw problem : Script α) :=
  .problem (does_throw problem) (by simp) h

theorem act {action : Action} (h : ¬action.IsWrite) :
    Ensures (fun _ => True) problems (act action) :=
  .value (does_act action) (by simpa using h) trivial

theorem print (line : String) : Ensures (fun _ => True) problems (print line) := .act id

theorem log (entry : Log.Entry) : Ensures (fun _ => True) problems (log entry) := .act id

theorem bind (hs : s.Ensures values problems) (hf : ∀ a, values a → (f a).Ensures others problems) :
    (s >>= f).Ensures others problems := by
  cases hs with
  | problem hdoes hquiet h => exact .problem hdoes.bind_error hquiet h
  | value hdoes hquiet h =>
    cases hf _ h with
    | value hmore hquiet' h' =>
      exact .value (hdoes.bind hmore) (List.forall_mem_append.mpr ⟨hquiet, hquiet'⟩) h'
    | problem hmore hquiet' h' =>
      exact .problem (hdoes.bind hmore) (List.forall_mem_append.mpr ⟨hquiet, hquiet'⟩) h'

theorem expect {ε : Type} {wrap : ε → Error} {x : Except ε α} (h : ∀ a, x = .ok a → values a)
    (hproblem : ∀ e, x = .error e → problems (.error (wrap e))) :
    Ensures values problems (expect wrap x) := by
  cases x with
  | ok a => exact .pure (h a rfl)
  | error e => exact .throw (hproblem e rfl)

theorem need {fault : Fault} {a? : Option α} (h : ∀ a, a? = some a → values a)
    (hproblem : a? = none → problems (.error (.fault fault))) :
    Ensures values problems (need fault a?) := by
  cases a? with
  | some a => exact .pure (h a rfl)
  | none => exact .throw (hproblem rfl)

theorem optional {fault : Fault} {given : Given α}
    (hproblem : given = .blank → problems (.error (.fault fault))) :
    Ensures (fun _ => True) problems (optional fault given) := by
  cases given with
  | nothing | value => exact .pure trivial
  | blank => exact .throw (hproblem rfl)

theorem forM {xs : List α} {f : α → Script Unit}
    (h : ∀ x ∈ xs, (f x).Ensures (fun _ => True) problems) :
    (xs.forM f).Ensures (fun _ => True) problems := by
  induction xs with
  | nil => exact .pure trivial
  | cons x rest ih =>
    obtain ⟨hx, hrest⟩ := List.forall_mem_cons.mp h
    exact .bind hx fun _ _ => ih hrest

end Ensures

/-! ## Scripts that write files at their end -/

/-- A script that ends with a problem has written no file, and the problem is one of those given. -/
def WritesLast (problems : Problem → Prop) (s : Script α) : Prop :=
  ∃ actions outcome, s.Does actions outcome ∧
    ∀ problem, outcome = .error problem →
      problems problem ∧ ∀ action ∈ actions, ¬action.IsWrite

theorem Ensures.writesLast (h : s.Ensures values problems) : s.WritesLast problems := by
  cases h with
  | value hdoes => exact ⟨_, _, hdoes, by rintro _ ⟨⟩⟩
  | problem hdoes hquiet h =>
    refine ⟨_, _, hdoes, ?_⟩
    rintro _ ⟨⟩
    exact ⟨h, hquiet⟩

theorem WritesLast.bind (hs : s.Ensures values problems)
    (hf : ∀ a, values a → (f a).WritesLast problems) : (s >>= f).WritesLast problems := by
  cases hs with
  | problem hdoes hquiet h =>
    refine ⟨_, _, hdoes.bind_error, ?_⟩
    rintro _ ⟨⟩
    exact ⟨h, hquiet⟩
  | value hdoes hquiet h =>
    obtain ⟨more, outcome, hmore, hproblem⟩ := hf _ h
    refine ⟨_, outcome, hdoes.bind hmore, fun problem houtcome => ?_⟩
    obtain ⟨hkind, hquiet'⟩ := hproblem problem houtcome
    exact ⟨hkind, List.forall_mem_append.mpr ⟨hquiet, hquiet'⟩⟩

end Script

end Stimulus.Command
