import Stimulus.Proofs.Model.Replay
import Stimulus.Trace.Basic

/-!
# Recordings

A trace is filled by whoever drives its model: calls on the model, samples, and runs of cycles each
of which is sampled. In whatever order these come, and also where a run ends early at a cycle that
fails, the trace holds one sample for each time that one was taken, of the model as it was then.
-/
namespace Stimulus

/-- The sample of a model for the names of a trace. -/
def Sample.of (names : List String) (m : Model) : Sample := ⟨m.cycle, names.map (Trace.readingOf m)⟩

namespace Model

/-- The models after the cycles of a run, up to the first that fails. -/
def completed (m : Model) : Nat → List Model
  | 0 => []
  | cycles + 1 =>
    let r := m.advance
    match r.outcome with
    | .error _ => []
    | .ok _ => r.model :: r.model.completed cycles

/-- The models of a run are reached by calls. -/
theorem exists_calls_of_mem_completed {m n : Model} {cycles : Nat} (h : n ∈ m.completed cycles) :
    ∃ calls, n = m.after calls := by
  induction cycles generalizing m with
  | zero => cases h
  | succ cycles ih =>
    simp only [completed] at h
    split at h
    · cases h
    · rw [List.mem_cons] at h
      obtain rfl | h := h
      · exact ⟨[.advance], rfl⟩
      · obtain ⟨calls, hcalls⟩ := ih h
        exact ⟨.advance :: calls, hcalls⟩

end Model

namespace Trace

/-- A trace with the samples of some models, one for each and in their order. -/
def Records (t : Trace) (sampled : List Model) : Prop :=
  t.samples.toList = sampled.map (Sample.of t.names)

theorem Records.record {t : Trace} {sampled : List Model} (h : t.Records sampled) (m : Model) :
    (t.record m).Records (sampled ++ [m]) := by
  rw [Records] at h
  simp only [Records, Trace.record, Array.toList_push, h, List.map_append, List.map_cons,
    List.map_nil, Sample.of]

/-- A trace is started without samples, for names of variables. -/
theorem start_eq_ok {m : Model} {names? : Option (List String)} {t : Trace}
    (h : start m names? = .ok t) :
    t.Records [] ∧ ∀ name ∈ t.names, (m.scope.index? name).isSome := by
  simp only [start] at h
  split at h
  · cases h
  · rename_i hknown
    cases h
    refine ⟨rfl, fun name hname => ?_⟩
    simpa [Option.isSome_iff_ne_none] using List.find?_eq_none.mp hknown name hname

/-- A run leaves a sample of each cycle before the first that fails. -/
theorem Records.run {t : Trace} {sampled : List Model} (h : t.Records sampled) (m : Model)
    (cycles : Nat) :
    (t.run m cycles).trace.names = t.names ∧
      (t.run m cycles).trace.Records (sampled ++ m.completed cycles) := by
  induction cycles generalizing t m sampled with
  | zero => exact ⟨rfl, by rwa [Model.completed, List.append_nil]⟩
  | succ cycles ih =>
    cases houtcome : m.advance.outcome with
    | error e =>
      simpa only [Trace.run, Model.completed, houtcome, List.append_nil, true_and] using h
    | ok =>
      obtain ⟨hnames, hrecords⟩ := ih (h.record m.advance.model) m.advance.model
      simp only [Trace.run, Model.completed, houtcome]
      rw [List.append_assoc] at hrecords
      exact ⟨hnames, hrecords⟩

theorem exists_calls_run (t : Trace) (m : Model) (cycles : Nat) :
    ∃ calls, (t.run m cycles).model = m.after calls := by
  induction cycles generalizing t m with
  | zero => exact ⟨[], rfl⟩
  | succ cycles ih =>
    simp only [Trace.run]
    split
    · exact ⟨[.advance], rfl⟩
    · obtain ⟨calls, hmodel⟩ := ih (t.record m.advance.model) m.advance.model
      exact ⟨.advance :: calls, hmodel⟩

end Trace

/-- A model with a trace of it. -/
structure Recording where
  model : Model
  trace : Trace

namespace Recording

/-- What can be done with a model and its trace. -/
inductive Step
  | call (call : Call)
  | sample
  | run (cycles : Nat)

def perform (r : Recording) : Step → Recording
  | .call call => { r with model := (r.model.perform call).2 }
  | .sample => { r with trace := r.trace.record r.model }
  | .run cycles =>
    let run := r.trace.run r.model cycles
    ⟨run.model, run.trace⟩

/-- The model and its trace after some steps. -/
def after (r : Recording) : List Step → Recording
  | [] => r
  | step :: rest => (r.perform step).after rest

/-- The models that a step samples, each as it is when it is sampled. -/
def sampledBy (m : Model) : Step → List Model
  | .call _ => []
  | .sample => [m]
  | .run cycles => m.completed cycles

/-- The models that are sampled in some steps. -/
def sampled (r : Recording) : List Step → List Model
  | [] => []
  | step :: rest => sampledBy r.model step ++ (r.perform step).sampled rest

variable {r : Recording} {taken : List Model}

/-- A step records what it samples. -/
theorem records_perform (h : r.trace.Records taken) (step : Step) :
    (r.perform step).trace.names = r.trace.names ∧
      (r.perform step).trace.Records (taken ++ sampledBy r.model step) := by
  cases step with
  | call call => exact ⟨rfl, by rwa [sampledBy, List.append_nil]⟩
  | sample => exact ⟨rfl, h.record r.model⟩
  | run cycles => exact h.run r.model cycles

/-- In all its steps a recording records what it samples. -/
theorem records_after (h : r.trace.Records taken) (steps : List Step) :
    (r.after steps).trace.names = r.trace.names ∧
      (r.after steps).trace.Records (taken ++ r.sampled steps) := by
  induction steps generalizing r taken with
  | nil => exact ⟨rfl, by rwa [sampled, List.append_nil]⟩
  | cons step rest ih =>
    obtain ⟨hnames, hrecords⟩ := records_perform h step
    obtain ⟨hnames', hrecords'⟩ := ih hrecords
    rw [List.append_assoc] at hrecords'
    exact ⟨hnames'.trans hnames, hrecords'⟩

/-- The model behind a step is reached by calls. -/
theorem exists_calls_perform (r : Recording) (step : Step) :
    ∃ calls, (r.perform step).model = r.model.after calls := by
  cases step with
  | call call => exact ⟨[call], rfl⟩
  | sample => exact ⟨[], rfl⟩
  | run cycles => exact r.trace.exists_calls_run r.model cycles

/-- So is every model that is sampled. -/
theorem exists_calls_of_mem_sampled {steps : List Step} {n : Model} (h : n ∈ r.sampled steps) :
    ∃ calls, n = r.model.after calls := by
  induction steps generalizing r with
  | nil => cases h
  | cons step rest ih =>
    rw [sampled, List.mem_append] at h
    obtain h | h := h
    · cases step with
      | call call => cases h
      | sample => exact ⟨[], List.mem_singleton.mp h⟩
      | run cycles => exact Model.exists_calls_of_mem_completed h
    · obtain ⟨more, rfl⟩ := ih h
      obtain ⟨calls, hmodel⟩ := r.exists_calls_perform step
      exact ⟨calls ++ more, by rw [hmodel, Model.after_append]⟩

end Recording

end Stimulus
