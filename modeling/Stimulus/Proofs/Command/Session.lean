import Mathlib
import Stimulus.Command.Session
import Stimulus.Proofs.Command.Problems
import Stimulus.Proofs.Json.Reading

/-!
# Failures of sessions

A command tells every failure in one message behind its log, or it hands a fault of few kinds to its
caller. Whatever error ends it, the disk is then as it was.
-/
namespace Stimulus.Command

/-- The line that tells a failure. -/
def failureLine (message : String) : String := s!"[FAIL] {message}"

/-- Lines of a log as far as it is shown; none of them tells a failure. -/
def IsLog (verbosity : Nat) (lines : List String) : Prop :=
  ∀ line ∈ lines, (∃ entry : Log.Entry, entry.isShown verbosity ∧ entry.line = line) ∧
    ∀ message, line ≠ failureLine message

theorem line_ne_failureLine (entry : Log.Entry) (message : String) :
    entry.line ≠ failureLine message := by
  intro h
  have hchars := congrArg (fun line => line.toList.head?) h
  cases hlevel : entry.level <;>
    simp [Log.Entry.line, failureLine, hlevel, Log.Level.label, toString] at hchars

theorem IsLog.cons {verbosity : Nat} {lines : List String} (h : IsLog verbosity lines)
    {entry : Log.Entry} (hshown : entry.isShown verbosity) :
    IsLog verbosity (entry.line :: lines) :=
  List.forall_mem_cons.mpr ⟨⟨⟨entry, hshown, rfl⟩, line_ne_failureLine entry⟩, h⟩

/-- What a task reads on a disk. -/
def Task.inputsOn (environment : Settings.Environment) (date : String) (disk : Disk) (task : Task) :
    Inputs where
  environment
  forestText? := task.forest?.map fun path => disk.read (Path.plain path)
  date

/-- A task that has a path reads what is there. -/
theorem Task.inputsOn_read (environment : Settings.Environment) (date : String) (disk : Disk)
    (task : Task) :
    (task.inputsOn environment date disk).forestText? = none → task.forest? = none := by
  simp [Task.inputsOn]

namespace Session

variable {environment : Settings.Environment} {date : String} {verbosity : Nat}

/-- A session after actions: the log lines that are shown stand behind the messages before, and
without a file to be written nothing fails and the disk is the same. -/
structure Carried (verbosity : Nat) (actions : List Action) (before : Session)
    (ended : Except FileFault Unit × Session) : Prop where
  messages : ∃ lines, IsLog verbosity lines ∧
    ended.2.messages.toList = before.messages.toList ++ lines
  quiet : (∀ action ∈ actions, ¬action.IsWrite) → ended.1 = .ok () ∧ ended.2.disk = before.disk

namespace Carried

variable {action : Action} {rest : List Action} {before middle : Session}
  {ended : Except FileFault Unit × Session}

/-- An action that adds no message, in front of others. -/
theorem cons (h : Carried verbosity rest middle ended)
    (hmessages : middle.messages = before.messages)
    (hquiet : ¬action.IsWrite → middle.disk = before.disk) :
    Carried verbosity (action :: rest) before ended where
  messages := hmessages ▸ h.messages
  quiet hall := by
    obtain ⟨haction, hrest⟩ := List.forall_mem_cons.mp hall
    obtain ⟨hdone, hdisk⟩ := h.quiet hrest
    exact ⟨hdone, hdisk.trans (hquiet haction)⟩

/-- An entry that is shown, in front of others. -/
theorem log {entry : Log.Entry} (hshown : entry.isShown verbosity)
    (h : Carried verbosity rest { before with messages := before.messages.push entry.line } ended) :
    Carried verbosity (.log entry :: rest) before ended where
  messages := by
    obtain ⟨lines, hlines, hmessages⟩ := h.messages
    exact ⟨entry.line :: lines, hlines.cons hshown, by simp [hmessages]⟩
  quiet hall := h.quiet (List.forall_mem_cons.mp hall).2

theorem isLog {disk : Disk} {actions : List Action} (h : Carried verbosity actions { disk } ended) :
    IsLog verbosity ended.2.messages.toList := by
  obtain ⟨lines, hlines, hmessages⟩ := h.messages
  rwa [hmessages]

end Carried

theorem performAll_cons_ok {action : Action} {s middle : Session}
    (h : Id.run (((host environment date).perform verbosity action).run s) = (.ok (), middle))
    (rest : List Action) :
    Id.run (((host environment date).performAll verbosity (action :: rest)).run s) =
      Id.run (((host environment date).performAll verbosity rest).run middle) := by
  rw [Host.performAll, StateT.run_bind, Id.run_bind, h]

theorem performAll_cons_error {action : Action} {s middle : Session} {fault : FileFault}
    (h : Id.run (((host environment date).perform verbosity action).run s) = (.error fault, middle))
    (rest : List Action) :
    Id.run (((host environment date).performAll verbosity (action :: rest)).run s) =
      (.error fault, middle) := by
  rw [Host.performAll, StateT.run_bind, Id.run_bind, h]
  rfl

theorem carried_performAll (environment : Settings.Environment) (date : String) (verbosity : Nat)
    (actions : List Action) (s : Session) :
    Carried verbosity actions s
      (Id.run (((host environment date).performAll verbosity actions).run s)) := by
  induction actions generalizing s with
  | nil => exact ⟨⟨[], by simp [IsLog], by simp [Host.performAll]⟩, fun _ => ⟨rfl, rfl⟩⟩
  | cons action rest ih =>
    cases action with
    | print line => exact .cons (ih { s with output := s.output.push line }) rfl fun _ => rfl
    | log entry =>
      cases hshown : entry.isShown verbosity with
      | true =>
        have hperform : Id.run (((host environment date).perform verbosity (.log entry)).run s) =
            (.ok (), { s with messages := s.messages.push entry.line }) := by
          rw [Host.perform, if_pos hshown]
          rfl
        rw [performAll_cons_ok hperform]
        exact .log hshown (ih _)
      | false =>
        have hperform : Id.run (((host environment date).perform verbosity (.log entry)).run s) =
            (.ok (), s) := by
          rw [Host.perform, if_neg (by simp [hshown])]
          rfl
        rw [performAll_cons_ok hperform]
        exact .cons (ih s) rfl fun _ => rfl
    | write path text =>
      cases hwrite : s.disk.write path text with
      | error fault =>
        have hperform :
            Id.run (((host environment date).perform verbosity (.write path text)).run s) =
              (.error fault, s) := by
          change s.write path text = _
          rw [write, hwrite]
        rw [performAll_cons_error hperform]
        exact ⟨⟨[], by simp [IsLog], by simp⟩,
          fun hquiet => absurd trivial (hquiet _ List.mem_cons_self)⟩
      | ok disk =>
        have hperform :
            Id.run (((host environment date).perform verbosity (.write path text)).run s) =
              (.ok (), { s with disk }) := by
          change s.write path text = _
          rw [write, hwrite]
        rw [performAll_cons_ok hperform]
        exact .cons (ih _) rfl fun hquiet => absurd trivial hquiet

theorem run_tell {problem : Problem} {message : String} (h : problem.message? = some message)
    (s : Session) :
    Id.run (((host environment date).tell problem).run s) =
      (.failed, { s with messages := s.messages.push (failureLine message) }) := by
  simp only [Host.tell, h]
  rfl

theorem run_tell_fault {fault : Fault} (h : (Problem.error (.fault fault)).message? = none)
    (s : Session) :
    Id.run (((host environment date).tell (.error (.fault fault))).run s) =
      (.escaped fault, s) := by
  simp only [Host.tell, h]
  rfl

theorem run_inputs (task : Task) (s : Session) :
    Id.run (((host environment date).inputs task).run s) =
      (task.inputsOn environment date s.disk, s) := by
  have hread (path : String) : ((host environment date).read path).run s =
      pure (s.disk.read path, s) := rfl
  have henvironment : ((host environment date).environment).run s = pure (environment, s) := rfl
  have hdate : ((host environment date).date).run s = pure (date, s) := rfl
  cases hforest : task.forest? <;>
    simp [Host.inputs, Task.inputsOn, hforest, hread, henvironment, hdate]

/-- A command line that asks for a task carries its script out on what the task reads. -/
theorem invoke_eq {words : List String} {request : Request} (h : readRequest words = .ok request)
    (disk : Disk) :
    invoke environment date disk words =
      Id.run (((host environment date).carryOut request.verbosity
        (request.task.script (request.task.inputsOn environment date disk))).run { disk }) := by
  simp only [invoke, Host.invoke, h]
  rw [StateT.run_bind, Id.run_bind, run_inputs]

section CarryOut

variable {script : Script Unit} {actions : List Action} {s after : Session}

theorem carryOut_fault {ending : Except Problem Unit} (h : script.Does actions ending)
    {fault : FileFault}
    (hactions : Id.run (((host environment date).performAll verbosity actions).run s) =
      (.error fault, after)) :
    Id.run (((host environment date).carryOut verbosity script).run s) =
      (.failed, { after with messages := after.messages.push (failureLine fault.message) }) := by
  simp only [Host.carryOut, h.result_eq]
  rw [StateT.run_bind, Id.run_bind, hactions]
  exact run_tell rfl after

theorem carryOut_done (h : script.Does actions (.ok ()))
    (hactions : Id.run (((host environment date).performAll verbosity actions).run s) =
      (.ok (), after)) :
    Id.run (((host environment date).carryOut verbosity script).run s) = (.done, after) := by
  simp only [Host.carryOut, h.result_eq]
  rw [StateT.run_bind, Id.run_bind, hactions]
  rfl

theorem carryOut_problem {problem : Problem} (h : script.Does actions (.error problem))
    (hactions : Id.run (((host environment date).performAll verbosity actions).run s) =
      (.ok (), after)) :
    Id.run (((host environment date).carryOut verbosity script).run s) =
      Id.run (((host environment date).tell problem).run after) := by
  simp only [Host.carryOut, h.result_eq]
  rw [StateT.run_bind, Id.run_bind, hactions]

end CarryOut

section Invoke

variable {words : List String} {request : Request}

/-- What a session is told of a problem that ends a script. Up to then it has told a log, and the
disk is as it was. -/
theorem invoke_of_problem (h : readRequest words = .ok request) {disk : Disk} {problem : Problem}
    (hscript : (request.task.script (request.task.inputsOn environment date disk)).result.1 =
      .error problem) :
    request.task.EndsWith (request.task.inputsOn environment date disk) problem ∧
      ∃ after : Session, IsLog request.verbosity after.messages.toList ∧ after.disk = disk ∧
        invoke environment date disk words =
          Id.run (((host environment date).tell problem).run after) := by
  obtain ⟨actions, outcome, hdoes, hproblem⟩ := request.task.script_writesLast
    (Task.inputsOn_read environment date disk request.task)
  obtain rfl : outcome = .error problem := by rw [← hscript, hdoes.result_eq]
  obtain ⟨hends, hunwritten⟩ := hproblem problem rfl
  have hcarried := carried_performAll environment date request.verbosity actions { disk }
  obtain ⟨hdone, hdisk⟩ := hcarried.quiet hunwritten
  refine ⟨hends, _, hcarried.isLog, hdisk, ?_⟩
  rw [invoke_eq h, carryOut_problem hdoes (Prod.ext hdone rfl)]

end Invoke

/-! ## A pattern without members -/

theorem plain_s : Path.plain "s" = "s" := by
  have hparts : Path.parts "s" = ["s"] := by cbv
  simp only [Path.plain, Path.steps, hparts]
  rfl

/-- The text of a pattern without members. -/
def emptyPatternText : String := "\x7b\"type\":\"pattern\",\"members\":[]\x7d"

theorem parse_emptyPatternText :
    Json.parse emptyPatternText = .ok (.obj [("type", .str "pattern"), ("members", .arr [])]) := by
  have htype : Json.ReadsField "\"type\":\"pattern\",\"members\":[]\x7d".toList "type"
      (.str "pattern") ",\"members\":[]\x7d".toList := by
    have hname : Json.nameFrom "\"type\":\"pattern\",\"members\":[]\x7d".toList =
        .ok ("type", ":\"pattern\",\"members\":[]\x7d".toList) := by cbv
    have hvalue : Json.stringFrom "\"pattern\",\"members\":[]\x7d".toList []
        "pattern\",\"members\":[]\x7d".toList =
          .ok ("pattern", ",\"members\":[]\x7d".toList) := by cbv
    exact ⟨_, "\"pattern\",\"members\":[]\x7d".toList, hname, rfl, Json.reads_string hvalue⟩
  have hmembers : Json.ReadsField "\"members\":[]\x7d".toList "members" (.arr []) ['\x7d'] := by
    have hname : Json.nameFrom "\"members\":[]\x7d".toList = .ok ("members", ":[]\x7d".toList) := by
      cbv
    exact ⟨_, "[]\x7d".toList, hname, rfl, Json.reads_emptyArray rfl⟩
  have hfields : Json.ReadsFields [] "\"type\":\"pattern\",\"members\":[]\x7d".toList
      [("type", .str "pattern"), ("members", .arr [])] [] :=
    Json.readsFields_more htype rfl (Json.readsFields_last hmembers rfl)
  exact Json.parse_of_reads (by decide) (Json.reads_object rfl hfields) rfl

/-- An empty forest, and a pattern without members that is evaluated once on it. -/
theorem once_gives_emptyPattern :
    ((Task.once ⟨some "s", .nothing, .nothing⟩ (some emptyPatternText)).script
      ⟨{}, some (.ok "\x7b\x7d"), ""⟩).Gives (.error (.error (.fault .noSuchMember))) := by
  obtain ⟨m, hm, hrefills, hfault⟩ : ∃ m, Model.compile {} {} = .ok m ∧
      (m.evaluateOnce (.pattern [])).refills = #[] ∧
      (m.evaluateOnce (.pattern [])).outcome = .error (.fault .noSuchMember) := ⟨_, rfl, rfl, rfl⟩
  have hload : Document.loadForest (Path.plain "s") "\x7b\x7d" = .ok {} := by
    rw [plain_s]
    cbv
  have hread : Document.read "--expr" emptyPatternText =
      .ok (.obj [("type", .str "pattern"), ("members", .arr [])]) := by
    rw [Document.read, parse_emptyPatternText]
    rfl
  have hsettings : (chooseSettings ⟨{}, some (.ok "\x7b\x7d"), ""⟩
      ⟨some "s", .nothing, .nothing⟩).Gives (.ok {}) :=
    .bind (Script.gives_pure ({} : Settings)) <| .bind (Script.gives_act _) <|
      .bind (Script.gives_pure none) <| .bind (Script.gives_pure ({} : Settings)) <|
        .bind (Script.gives_pure none) <| Script.gives_pure ({} : Settings)
  have hforest : (loadForest ⟨{}, some (.ok "\x7b\x7d"), ""⟩ (some "s")).Gives (.ok {}) := by
    refine .bind (Script.gives_pure "s") (.bind (Script.gives_pure (Except.ok "\x7b\x7d")) ?_)
    simp only [hload]
    exact Script.gives_pure ({} : Forest)
  have hmodel : (buildModel ⟨{}, some (.ok "\x7b\x7d"), ""⟩ ⟨some "s", .nothing, .nothing⟩).Gives
      (.ok (m, {})) := by
    refine .bind hsettings (.bind hforest ?_)
    rw [hm]
    refine .bind (Script.gives_pure m) (.bind (Script.gives_act _) ?_)
    exact Script.gives_pure (m, ({} : Settings))
  refine .bind hmodel (.bind (Script.gives_pure emptyPatternText) ?_)
  rw [hread]
  refine .bind (Script.gives_pure _) (.bind (Script.gives_pure (Expr.pattern [])) ?_)
  simp only [hrefills, hfault]
  exact .bind (Script.gives_pure ()) (.bind_error (Script.gives_throw _))

/-! ## Endings -/

/-- How a command line ends that asks for a task, with the session afterwards. -/
inductive Ended (verbosity : Nat) (task : Task) (inputs : Inputs) (disk : Disk) :
    Outcome × Session → Prop
  /-- The script of the task has come to its end. -/
  | done {session : Session} (hscript : (task.script inputs).result.1 = .ok ())
      (hmessages : IsLog verbosity session.messages.toList) :
      Ended verbosity task inputs disk (.done, session)
  /-- The script has failed, and one message tells it. No file has been written. -/
  | failed {session : Session} {problem : Problem} {message : String} {log : List String}
      (hscript : (task.script inputs).result.1 = .error problem)
      (hmessage : problem.message? = some message) (hlog : IsLog verbosity log)
      (hmessages : session.messages.toList = log ++ [failureLine message])
      (hdisk : session.disk = disk) : Ended verbosity task inputs disk (.failed, session)
  /-- The script has come to its end, but one of its files cannot be written, and one message tells
  it. -/
  | unwritten {session : Session} {fault : FileFault} {log : List String}
      (hscript : (task.script inputs).result.1 = .ok ()) (hlog : IsLog verbosity log)
      (hmessages : session.messages.toList = log ++ [failureLine fault.message]) :
      Ended verbosity task inputs disk (.failed, session)
  /-- The script has failed with a fault that is handed to the caller. No file has been written. -/
  | escaped {session : Session} {fault : Fault}
      (hscript : (task.script inputs).result.1 = .error (.error (.fault fault)))
      (hfault : task.PassesOn inputs fault) (hmessages : IsLog verbosity session.messages.toList)
      (hdisk : session.disk = disk) : Ended verbosity task inputs disk (.escaped fault, session)

/-- Every command line that asks for a task is carried out to its end, or tells in one message
behind its log what has failed, or hands a fault to its caller. The last happens only for want of an
option's value, or for the sake of an empty pattern or of a weight that is too wide. Whatever error
has ended the task, the disk is as it was. Memory and the stack have no bounds here: what happens
where they do not suffice, as for a thousand brackets inside each other or for a chain of hundreds
of copies, is left out. -/
theorem every_failure_told {words : List String} {request : Request}
    (h : readRequest words = .ok request) (environment : Settings.Environment) (date : String)
    (disk : Disk) :
    Ended request.verbosity request.task (request.task.inputsOn environment date disk) disk
      (invoke environment date disk words) := by
  cases hscript : (request.task.script (request.task.inputsOn environment date disk)).result.1 with
  | error problem =>
    obtain ⟨hends, after, hlog, hdisk, hinvoke⟩ := invoke_of_problem h hscript
    rw [hinvoke]
    cases hmessage : problem.message? with
    | some message =>
      rw [run_tell hmessage]
      exact .failed hscript hmessage hlog Array.toList_push hdisk
    | none =>
      cases hends with
      | told h =>
        rw [hmessage] at h
        obtain ⟨_, ⟨⟩⟩ := h
      | passedOn hfault =>
        rw [run_tell_fault hmessage]
        exact .escaped hscript hfault hlog hdisk
  | ok _ =>
    obtain ⟨actions, outcome, hdoes, -⟩ := request.task.script_writesLast
      (Task.inputsOn_read environment date disk request.task)
    obtain rfl : outcome = .ok () := by rw [← hscript, hdoes.result_eq]
    have hcarried := carried_performAll environment date request.verbosity actions { disk }
    generalize hactions : Id.run (((host environment date).performAll request.verbosity actions).run
      { disk }) = ended at hcarried
    obtain ⟨result, after⟩ := ended
    rw [invoke_eq h]
    cases result with
    | error fault =>
      rw [carryOut_fault hdoes hactions]
      exact .unwritten hscript hcarried.isLog Array.toList_push
    | ok _ =>
      rw [carryOut_done hdoes hactions]
      exact .done hscript hcarried.isLog

/-- A forest whose text is no document. -/
theorem every_failure_told_unreadable :
    let disk := Disk.ofFiles [("s", "nope")]
    let words := ["-vv", "show", "--forest", "s"]
    let task := Task.list (some "s")
    let session : Session := { disk, messages := #[failureLine
      "format error: s: invalid JSON: Expecting value: line 1 column 1 (char 0)"] }
    readRequest words = .ok ⟨2, task⟩ ∧ invoke {} "" disk words = (.failed, session) ∧
      Ended 2 task (task.inputsOn {} "" disk) disk (.failed, session) := by
  intro disk words task session
  have hwords : readRequest words = .ok ⟨2, task⟩ := rfl
  have hinvoke : invoke {} "" disk words = (.failed, session) := by
    simp only [invoke_eq hwords, task, Task.inputsOn, Task.forest?, Option.map_some, Task.script,
      list, loadForest, plain_s]
    cbv
  exact ⟨hwords, hinvoke, hinvoke ▸ every_failure_told hwords {} "" disk⟩

/-- A pattern without members, evaluated once on an empty forest: the fault is handed to the caller,
and no message tells a failure. -/
theorem empty_pattern_escapes :
    let disk := Disk.ofFiles [("s", "\x7b\x7d")]
    let words := ["once", "--forest", "s", "--expr", emptyPatternText]
    (∃ request, readRequest words = .ok request) ∧
      ∃ session, invoke {} "" disk words = (.escaped .noSuchMember, session) ∧
        ∀ line ∈ session.messages.toList, ∀ message, line ≠ failureLine message := by
  intro disk words
  let task := Task.once ⟨some "s", .nothing, .nothing⟩ (some emptyPatternText)
  have hwords : readRequest words = .ok ⟨0, task⟩ := rfl
  have hinputs : task.inputsOn {} "" disk = ⟨{}, some (.ok "\x7b\x7d"), ""⟩ := by
    have hread : disk.read (Path.plain "s") = .ok "\x7b\x7d" := by
      rw [plain_s]
      cbv
    simp [Task.inputsOn, Task.forest?, task, hread]
  have hscript : (task.script (task.inputsOn {} "" disk)).result.1 =
      .error (.error (.fault .noSuchMember)) := by
    rw [hinputs]
    exact once_gives_emptyPattern.result_eq
  obtain ⟨-, after, hlog, -, hinvoke⟩ := invoke_of_problem hwords hscript
  refine ⟨⟨_, hwords⟩, after, hinvoke.trans (run_tell_fault rfl after), fun line hline => ?_⟩
  exact (hlog line hline).2

end Session

end Stimulus.Command
