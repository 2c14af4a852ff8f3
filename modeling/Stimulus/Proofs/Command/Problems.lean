import Stimulus.Proofs.Command.Script
import Stimulus.Proofs.Model.FaultKind
import Stimulus.Proofs.Scope.Resolution

/-!
# Problems of commands

Every problem that a command can end with is told to the user, but for a few faults: a value that is
missing for an option, and what an empty pattern or a weight that is too wide leads to. A command
that ends with a problem has written no file.
-/
namespace Stimulus

/-! ## Settings and documents -/

theorem Settings.kind_of_ofNames {seed : Int} {backendName : String} {fault : Fault}
    (h : ofNames seed backendName = .error fault) : fault.kind = .value := by
  obtain hseed | ⟨_, -, h⟩ := bind_eq_error h
  · unfold Random.checkedSeed at hseed
    split at hseed <;> cases hseed
    rfl
  · obtain hbackend | ⟨_, -, h⟩ := bind_eq_error h
    · unfold Random.Backend.ofName at hbackend
      split at hbackend <;> cases hbackend
      rfl
    · cases h

theorem Settings.kind_of_ofEnvironment {env : Environment} {fault : Fault}
    (h : ofEnvironment env = .error fault) : fault.kind = .value := by
  obtain hseed | ⟨_, -, h⟩ := bind_eq_error h
  · cases hgiven : given env.seed? with
    | none =>
      rw [hgiven] at hseed
      cases hseed
    | some text =>
      rw [hgiven] at hseed
      obtain hread | ⟨_, -, h⟩ := bind_eq_error (x := readSeed text) hseed
      · unfold readSeed at hread
        split at hread <;> cases hread
        rfl
      · cases h
  · exact kind_of_ofNames h

theorem Document.kind_of_read {name text : String} {fault : Fault}
    (h : read name text = .error (.fault fault)) : fault.kind = .value := by
  unfold read at h
  cases hparse : Json.parse text with
  | ok document =>
    rw [hparse] at h
    cases h
  | error error =>
    rw [hparse] at h
    replace h : unreadable name error = .fault fault := Except.error.inj h
    unfold unreadable at h
    split at h <;> cases h
    rfl

theorem Document.kind_of_loadForest {name text : String} {fault : Fault}
    (h : loadForest name text = .error (.fault fault)) : fault.kind = .value := by
  obtain hread | ⟨document, -, h⟩ := bind_eq_error h
  · exact kind_of_read hread
  · cases hdecode : decodeForest document <;> rw [hdecode] at h <;> cases h

/-- A trace of all variables of a model is never refused. -/
theorem Trace.start_none (m : Model) : start m none = .ok { names := m.names } := by
  have hknown : unknownName? m m.names = none := by
    rw [unknownName?, List.find?_eq_none]
    intro name hname
    obtain ⟨d, hd, rfl⟩ := List.mem_map.mp hname
    obtain ⟨k, hk⟩ := Scope.index?_isSome_iff.mpr ⟨d, hd, rfl⟩
    simp [hk]
  simp [start, hknown]

namespace Command

/-! ## What commands pass on -/

/-- The model source of a task that has one. -/
def Task.source? : Task → Option ModelSource
  | run source .. | once source _ => some source
  | list _ => none

/-- A part of a task that was asked for without its value, with the fault that it leads to. -/
inductive Task.Lacks : Task → Fault → Prop
  | path {task : Task} (h : task.forest? = none) : Lacks task .blankPath
  | seed {task : Task} {source : ModelSource} (hsource : task.source? = some source)
      (h : source.seed = .blank) : Lacks task .blankSeed
  | backend {task : Task} {source : ModelSource} (hsource : task.source? = some source)
      (h : source.backend = .blank) : Lacks task .blankBackend
  | count (source : ModelSource) (quiet : Bool) (exports : Exports) :
      Lacks (.run source none quiet exports) .blankCount
  | text (source : ModelSource) : Lacks (.once source none) .blankText

/-- The forest in the file of a task. -/
def Task.Loads (task : Task) (inputs : Inputs) (forest : Forest) : Prop :=
  ∃ path text, task.forest? = some path ∧ inputs.forestText? = some (.ok text) ∧
    Document.loadForest (Path.plain path) text = .ok forest

/-- The expressions that belong to a task: those of its forest's declarations, and the one that it
evaluates once. -/
inductive Task.Handles (inputs : Inputs) : Task → Expr → Prop
  | declared {task : Task} {forest : Forest} {d : Declaration} (hforest : task.Loads inputs forest)
      (hd : d ∈ forest.declarations) : Handles inputs task d.expr
  | once (source : ModelSource) {text : String} {document : Json} {e : Expr}
      (hdocument : Document.read "--expr" text = .ok document)
      (hexpr : Document.decodeExpr "expr" document = .ok e) :
      Handles inputs (.once source (some text)) e

/-- The faults that a task can pass on to its caller. -/
inductive Task.PassesOn (inputs : Inputs) (task : Task) : Fault → Prop
  | lacking {fault : Fault} (h : task.Lacks fault) : PassesOn inputs task fault
  | stemming {fault : Fault} (h : fault.StemsFrom (task.Handles inputs)) :
      PassesOn inputs task fault

/-- The problems that a task can end with: those that are told to the user, and the faults that it
passes on. -/
inductive Task.EndsWith (inputs : Inputs) (task : Task) : Problem → Prop
  | told {problem : Problem} (h : ∃ message, problem.message? = some message) :
      EndsWith inputs task problem
  | passedOn {fault : Fault} (h : task.PassesOn inputs fault) :
      EndsWith inputs task (.error (.fault fault))

namespace Task.EndsWith

variable {inputs : Inputs} {task : Task}

theorem fault {fault : Fault} (h : fault.kind = .value) :
    task.EndsWith inputs (.error (.fault fault)) :=
  .told ⟨fault.message, by rw [Problem.message?, if_pos h]⟩

theorem error {e : Error} (h : ∀ fault, e = .fault fault →
    fault.kind = .value ∨ fault.StemsFrom (task.Handles inputs)) :
    task.EndsWith inputs (.error e) := by
  cases e with
  | fault fault =>
    obtain hvalue | hstems := h fault rfl
    · exact .fault hvalue
    · exact .passedOn (.stemming hstems)
  | format | construction | evaluation => exact .told ⟨_, rfl⟩

end Task.EndsWith

section Parts

variable {inputs : Inputs} {task : Task}

theorem chooseSettings_ensures {source : ModelSource} (hsource : task.source? = some source) :
    (chooseSettings inputs source).Ensures (fun _ => True) (task.EndsWith inputs) := by
  refine .bind (.expect (fun _ _ => trivial) fun fault h => ?_) fun settings _ => ?_
  · exact .fault (Settings.kind_of_ofEnvironment h)
  refine .bind (.log _) fun _ _ => ?_
  refine .bind (.optional fun h => .passedOn (.lacking (.seed hsource h))) fun seed? _ => ?_
  refine .bind (.expect (fun _ _ => trivial) fun fault h => ?_) fun settings' _ => ?_
  · exact .fault (Settings.kind_of_ofNames h)
  refine .bind (.optional fun h => .passedOn (.lacking (.backend hsource h))) fun backend? _ => ?_
  exact .expect (fun _ _ => trivial) fun fault h => .fault (Settings.kind_of_ofNames h)

/-- A forest is read if the task has a path, and only from what is at that path. -/
theorem loadForest_ensures (hread : inputs.forestText? = none → task.forest? = none) :
    (loadForest inputs task.forest?).Ensures (task.Loads inputs) (task.EndsWith inputs) := by
  refine .bind (.need (fun path hpath => hpath) fun h => .passedOn (.lacking (.path h)))
    fun path hpath => ?_
  refine .bind (.need (fun text? htext => htext) fun h => ?_) fun text? htext => ?_
  · exact .passedOn (.lacking (.path (hread h)))
  cases text? with
  | error fault => exact .throw (.told ⟨_, rfl⟩)
  | ok text =>
    refine .expect (fun forest h => ⟨path, text, hpath, htext, h⟩) fun e h => .error ?_
    rintro fault rfl
    exact .inl (Document.kind_of_loadForest h)

/-- A model that is built is that of the task's forest. -/
theorem buildModel_ensures {source : ModelSource} (hsource : task.source? = some source)
    (hforest : source.forest? = task.forest?)
    (hread : inputs.forestText? = none → task.forest? = none) :
    (buildModel inputs source).Ensures
      (fun built => ∃ settings forest, task.Loads inputs forest ∧
        Model.compile settings forest = .ok built.1)
      (task.EndsWith inputs) := by
  refine .bind (chooseSettings_ensures hsource) fun settings _ => ?_
  refine .bind (hforest ▸ loadForest_ensures hread) fun forest hloads => ?_
  refine .bind (.expect (fun model h => h) fun e h => .error ?_) fun model hmodel => ?_
  · rintro fault rfl
    refine (Model.fault_of_compile h).imp_right fun h => h.mono ?_
    rintro _ ⟨d, hd, rfl⟩
    exact .declared hloads hd
  · exact .bind (.log _) fun _ _ => .pure ⟨settings, forest, hloads, hmodel⟩

variable {problems : Problem → Prop}

theorem logRefills_ensures (refills : Array Sampling.Refill) :
    (logRefills refills).Ensures (fun _ => True) problems :=
  .forM fun refill _ => .log (.refilled refill)

variable {settings : Settings} {forest : Forest} {m : Model}

/-- A cycle is a call on the model, behind the calls before it. -/
theorem advance_ensures (hloads : task.Loads inputs forest)
    (hm : Model.compile settings forest = .ok m) (calls : List Call) :
    (advance (m.after calls)).Ensures (fun n => ∃ calls, n = m.after calls)
      (task.EndsWith inputs) := by
  refine .bind (logRefills_ensures _) fun _ _ => ?_
  split
  · rename_i error herror
    have hlogged : Script.Ensures (fun _ => True) (task.EndsWith inputs)
        ((failedCycle? (m.after calls) error).forM Script.log) := by
      cases failedCycle? (m.after calls) error with
      | none => exact .pure trivial
      | some entry => exact .log entry
    refine .bind hlogged fun _ _ => .throw (.error ?_)
    rintro fault rfl
    refine (Model.fault_of_advance hm calls herror).imp_right fun h => h.mono ?_
    rintro _ ⟨hd⟩
    exact .declared hloads hd
  · refine .bind (.log _) fun _ _ => .pure ⟨calls ++ [.advance], ?_⟩
    rw [Model.after_append]
    rfl

theorem runCycles_ensures (hloads : task.Loads inputs forest)
    (hm : Model.compile settings forest = .ok m) (quiet : Bool) (cycles : Nat) (calls : List Call)
    (t : Trace) :
    (runCycles quiet (m.after calls) t cycles).Ensures (fun _ => True) (task.EndsWith inputs) := by
  induction cycles generalizing calls t with
  | zero => exact .pure trivial
  | succ cycles ih =>
    refine .bind (advance_ensures hloads hm calls) fun n hn => ?_
    obtain ⟨more, rfl⟩ := hn
    have hrest := ih more (t.record (m.after more))
    cases quiet with
    | true => exact hrest
    | false => exact .bind (.print _) fun _ _ => hrest

end Parts

/-! ## What tasks end with -/

/-- The exports end with no problem. -/
theorem exportAll_gives (t : Trace) (date : String) (exports : Exports) :
    (exportAll t date exports).Gives (.ok ()) := by
  have hforM (path? : Option String) {f : String → Script Unit}
      (hf : ∀ path, (f path).Gives (.ok ())) :
      (path?.forM f).Gives (.ok ()) := by
    cases path? with
    | none => exact Script.gives_pure ()
    | some path => exact hf path
  refine .bind (hforM _ fun path => ?_) (.bind (hforM _ fun path => ?_) (hforM _ fun path => ?_))
  all_goals exact .bind (Script.gives_act _) (.bind (Script.gives_act _) (Script.gives_act _))

/-- A task that ends with a problem has written no file; the problem is told, or it is a fault that
the task passes on. -/
theorem Task.script_writesLast {inputs : Inputs} (task : Task)
    (hread : inputs.forestText? = none → task.forest? = none) :
    (task.script inputs).WritesLast (task.EndsWith inputs) := by
  cases task with
  | list forest? =>
    refine .bind (loadForest_ensures hread) fun forest _ => ?_
    refine .bind (.forM fun d _ => .print (enumLine d)) fun _ _ => ?_
    exact (Script.Ensures.forM fun d _ => .print d.text).writesLast
  | once source expr? =>
    refine .bind (buildModel_ensures rfl rfl hread) fun built hbuilt => ?_
    obtain ⟨m, settings⟩ := built
    obtain ⟨settings, forest, hloads, hm⟩ := hbuilt
    refine .bind (.need (fun _ h => h) fun h => ?_) fun text htext => ?_
    · subst h
      exact .passedOn (.lacking (.text source))
    subst htext
    refine .bind (.expect (fun _ h => h) fun e h => .error ?_) fun document hdocument => ?_
    · rintro fault rfl
      exact .inl (Document.kind_of_read h)
    refine .bind (.expect (fun _ h => h) fun e _ => .told ⟨_, rfl⟩) fun e hexpr => ?_
    refine .bind (logRefills_ensures _) fun _ _ => ?_
    refine .bind (.expect (fun _ _ => trivial) fun e h => .error ?_) fun value _ =>
      (Script.Ensures.print (toString value)).writesLast
    rintro fault rfl
    refine (Model.fault_of_evaluateOnce hm h).imp_right fun h => h.mono ?_
    rintro _ (⟨hd⟩ | _)
    · exact .declared hloads hd
    · exact .once source hdocument hexpr
  | run source cycles? quiet exports =>
    refine .bind (buildModel_ensures rfl rfl hread) fun built hbuilt => ?_
    obtain ⟨m, settings⟩ := built
    obtain ⟨settings, forest, hloads, hm⟩ := hbuilt
    refine .bind (.need (fun _ _ => trivial) fun h => ?_) fun path _ => ?_
    · exact .passedOn (.lacking (.path h))
    refine .bind (.print _) fun _ _ => ?_
    refine .bind (.expect (fun _ _ => trivial) fun fault h => ?_) fun start _ => ?_
    · rw [Trace.start_none] at h
      cases h
    refine .bind (.need (fun _ _ => trivial) fun h => ?_) fun cycles _ => ?_
    · subst h
      exact .passedOn (.lacking (.count source quiet exports))
    refine .bind (runCycles_ensures hloads hm quiet _ [] _) fun trace _ => ?_
    refine .bind (.print _) fun _ _ => ?_
    obtain ⟨actions, hdoes⟩ := exportAll_gives trace inputs.date exports
    exact ⟨actions, _, hdoes, by rintro _ ⟨⟩⟩

end Command

end Stimulus
