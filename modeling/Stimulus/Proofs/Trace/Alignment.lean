import Mathlib.Data.List.Nodup
import Stimulus.Proofs.Model.Backward
import Stimulus.Proofs.Trace.Recording
import Stimulus.Trace.Table

/-!
# Alignment of a trace

The histories of a trace are kept by name, its tables and records go by place. They tell the same of
every sample as long as no name is there twice; a table needs a name to have rows, and a variable
that has the name of a record's first field takes the place of the cycle's number.
-/
namespace Stimulus

open Stimulus.Sampling

theorem Sample.readingsOf_of (names : List String) (m : Model) (name : String) :
    (Sample.of names m).readingsOf names name =
      List.replicate (names.count name) (Trace.readingOf m name) := by
  simp only [Sample.readingsOf, Sample.of]
  induction names with
  | nil => rfl
  | cons first rest ih =>
    by_cases heq : first = name
    · simp [heq, ih, List.replicate_succ]
    · simp [heq, ih]

namespace Trace

/-- A model has the reading that a trace takes of it. -/
theorem reading_eq_readingOf {settings : Settings} {forest : Forest} {m₀ m : Model}
    (hm : Model.compile settings forest = .ok m₀) (horigin : m₀.SameOrigin m) {name : String}
    (hname : (m₀.scope.index? name).isSome) : m.reading name = .ok (readingOf m name) := by
  obtain ⟨hcompiled, -⟩ := Model.compile_eq_ok hm
  obtain ⟨i, hindex⟩ := Option.isSome_iff_exists.mp hname
  have hsize : m.cells.size = m₀.cells.size :=
    World.size_of_initialCells (w := m₀.world) (v := m.world) horigin.cells
  have hlt : i < m.cells.size := by
    rw [hsize, hcompiled.size]
    exact Scope.index?_lt hindex
  have hreading : m.reading name = .ok m.cells[i].reading := by
    simp [Model.reading, Model.indexOf, horigin.scope, hindex, hlt, bind, Except.bind]
  rw [readingOf, hreading]

variable {t : Trace} {sampled : List Model}

theorem Records.size_eq (h : t.Records sampled) : t.size = sampled.length := by
  rw [size, ← Array.length_toList, h, List.length_map]

theorem Records.history_eq (h : t.Records sampled) (name : String) :
    t.history name =
      sampled.flatMap fun m => List.replicate (t.names.count name) (readingOf m name) := by
  rw [history, h, List.flatMap_map]
  simp only [Sample.readingsOf_of]

/-- A name has as many readings in every sample as it has mentions. -/
theorem Records.length_history (h : t.Records sampled) (name : String) :
    (t.history name).length = sampled.length * t.names.count name := by
  rw [h.history_eq, List.length_flatMap]
  simp

theorem Records.history_of_nodup (h : t.Records sampled) (hnodup : t.names.Nodup) {name : String}
    (hname : name ∈ t.names) : t.history name = sampled.map (readingOf · name) := by
  rw [h.history_eq, List.count_eq_one_of_mem hnodup hname, List.map_eq_flatMap]
  rfl

/-- The rows of columns that hold the same items for different names. -/
theorem transpose_map {α β : Type} (sampled : List α) (names : List String) (f : String → α → β) :
    transpose sampled.length (names.map fun name => sampled.map (f name)) =
      sampled.map fun m => names.map fun name => f name m := by
  refine List.ext_getElem (by simp [transpose]) fun i hi _ => ?_
  simp only [transpose, List.length_map, List.length_range] at hi
  simp [transpose, hi, List.filterMap_map]

/-- The table of a trace that has no sample, or names none of which is there twice. -/
theorem Records.table_eq (h : t.Records sampled)
    (hnames : sampled = [] ∨ t.names.Nodup ∧ t.names ≠ []) {α : Type} (part : Reading → α) :
    t.table part = .ok ⟨[sampled.length, t.names.length],
      sampled.map fun m => t.names.map fun name => part (readingOf m name)⟩ := by
  have hempty : t.samples.isEmpty = sampled.isEmpty := by
    rw [← Array.isEmpty_toList, h, List.isEmpty_map]
  rw [table, hempty]
  cases sampled with
  | nil => rfl
  | cons m rest =>
    obtain ⟨hnodup, hne⟩ := hnames.resolve_left (List.cons_ne_nil m rest)
    have hcolumns : t.names.map (fun name => (t.history name).map part) =
        t.names.map fun name => (m :: rest).map fun m => part (readingOf m name) := by
      refine List.map_congr_left fun name hname => ?_
      rw [h.history_of_nodup hnodup hname, List.map_map]
      rfl
    have hrows := transpose_map (m :: rest) t.names fun name m => part (readingOf m name)
    obtain ⟨name, names, hcons⟩ := List.exists_cons_of_ne_nil hne
    rw [hcolumns]
    rw [hcons] at hrows ⊢
    simp only [List.isEmpty_cons, Bool.false_eq_true, if_false, List.map_cons] at hrows ⊢
    rw [if_pos (by simp), List.length_cons, List.length_map, ← List.length_cons, hrows]

/-- A table without names counts no rows. -/
theorem Records.names_ne_nil_of_table (h : t.Records sampled) (hne : sampled ≠ []) {α : Type}
    {part : Reading → α} {rows columns : Nat} {items : List (List α)}
    (htable : t.table part = .ok ⟨[rows, columns], items⟩) : t.names ≠ [] := by
  intro hnil
  have hempty : t.samples.isEmpty = false := by
    rw [← Array.isEmpty_toList, h, List.isEmpty_map]
    exact List.isEmpty_eq_false_iff.mpr hne
  simp [table, hempty, hnil] at htable

/-- The readings of all names at a place. -/
theorem Records.rowAt_eq (h : t.Records sampled) (hnodup : t.names.Nodup) {i : Nat} {m : Model}
    (hm : sampled[i]? = some m) :
    rowAt t.columns i = t.names.map fun name => (name, readingOf m name) := by
  rw [rowAt, columns, List.filterMap_map, ← List.filterMap_eq_map]
  refine List.filterMap_congr fun name hname => ?_
  simp [h.history_of_nodup hnodup hname, hm]

/-- A record has the value of every name; its first field stays unless a name takes its place. -/
theorem lookup_recordOf (cycle : Nat) (names : List String) (reading : String → Reading)
    (key : String) :
    (recordOf cycle (names.map fun name => (name, reading name))).lookup key =
      if key ∈ names then some (.int (reading key).value)
      else [("cycle", Json.int cycle)].lookup key := by
  rw [recordOf, List.foldl_map]
  generalize [("cycle", Json.int cycle)] = fields
  induction names generalizing fields with
  | nil => simp
  | cons first rest ih =>
    rw [List.foldl_cons, ih]
    by_cases hrest : key ∈ rest
    · simp [hrest]
    · by_cases heq : key = first
      · simp [heq, Json.lookup_putField_self]
      · simp [hrest, heq, Json.lookup_putField_of_ne heq]

theorem Records.records_eq (h : t.Records sampled) (hnodup : t.names.Nodup) :
    t.records = sampled.map fun m =>
      recordOf m.cycle (t.names.map fun name => (name, readingOf m name)) := by
  have hsamples : t.samples.toList = sampled.map (Sample.of t.names) := h
  simp only [records, hsamples]
  refine List.ext_getElem (by simp) fun i _ hi => ?_
  rw [List.length_map] at hi
  simp [h.rowAt_eq hnodup (List.getElem?_eq_getElem hi), Sample.of]

/-- A trace that tells, for every name and every sample, the reading of the model of the sample. -/
structure Aligned (t : Trace) (sampled : List Model) : Prop where
  history : ∀ name ∈ t.names, t.history name = sampled.map (readingOf · name)
  doneTable : t.doneTable = .ok ⟨[sampled.length, t.names.length],
    sampled.map fun m => t.names.map fun name => (readingOf m name).done⟩
  valueTable : (∀ m ∈ sampled, ∀ name ∈ t.names, isSigned (readingOf m name).value) →
    t.valueTable = .ok ⟨[sampled.length, t.names.length],
      sampled.map fun m => t.names.map fun name => (readingOf m name).value⟩
  records : List.Forall₂ (fun record m => record.lookup "cycle" = some (.int m.cycle) ∧
    ∀ name ∈ t.names, record.lookup name = some (.int (readingOf m name).value)) t.records sampled

/-- A trace is aligned if its names can be told apart. -/
theorem Records.aligned (h : t.Records sampled) (hnodup : t.names.Nodup) (hne : t.names ≠ [])
    (hcycle : "cycle" ∈ t.names → ∀ m ∈ sampled, (readingOf m "cycle").value = m.cycle) :
    t.Aligned sampled where
  history _ hname := h.history_of_nodup hnodup hname
  doneTable := h.table_eq (.inr ⟨hnodup, hne⟩) (·.done)
  valueTable hfit := by
    rw [Trace.valueTable, h.table_eq (.inr ⟨hnodup, hne⟩)]
    simp only [bind, Except.bind]
    rw [if_pos (by simpa using hfit)]
    rfl
  records := by
    rw [h.records_eq hnodup, List.forall₂_map_left_iff, List.forall₂_same]
    intro m hm
    simp only [lookup_recordOf]
    refine ⟨?_, fun name hname => if_pos hname⟩
    split
    · rename_i hmem
      rw [hcycle hmem m hm]
    · rfl

theorem Records.aligned_nil (h : t.Records []) : t.Aligned [] where
  history name _ := by rw [h.history_eq]; rfl
  doneTable := h.table_eq (.inl rfl) (·.done)
  valueTable _ := by
    rw [Trace.valueTable, h.table_eq (.inl rfl)]
    rfl
  records := by
    have hsamples : t.samples.toList = [] := h
    simp [Trace.records, hsamples]

theorem Records.aligned_iff (h : t.Records sampled) :
    t.Aligned sampled ↔ sampled = [] ∨ t.names.Nodup ∧ t.names ≠ [] ∧
      ("cycle" ∈ t.names → ∀ m ∈ sampled, (readingOf m "cycle").value = m.cycle) := by
  constructor
  · intro haligned
    by_cases hne : sampled = []
    · exact .inl hne
    -- One reading for each sample means one mention of the name.
    have hnodup : t.names.Nodup := by
      rw [List.nodup_iff_count_eq_one]
      intro name hname
      have hlength := h.length_history name
      rw [haligned.history name hname, List.length_map] at hlength
      have hpos : 0 < sampled.length := List.length_pos_iff.mpr hne
      exact (Nat.eq_of_mul_eq_mul_left hpos (by omega)).symm
    refine .inr ⟨hnodup, h.names_ne_nil_of_table hne haligned.doneTable, fun hmem m hm => ?_⟩
    have hrecords := haligned.records
    rw [h.records_eq hnodup, List.forall₂_map_left_iff, List.forall₂_same] at hrecords
    obtain ⟨hcycle, hvalues⟩ := hrecords m hm
    have hvalue := hvalues "cycle" hmem
    rw [hcycle] at hvalue
    simpa using hvalue.symm
  · rintro (rfl | ⟨hnodup, hne, hcycle⟩)
    · exact h.aligned_nil
    · exact h.aligned hnodup hne hcycle

/-- Whatever is done with a compiled model while it is recorded, runs that fail on their way
included, the trace has a sample for each that was taken, and every name has as many readings in it
as the trace has mentions of the name. Histories, tables and records all agree with what the model
showed at the samples exactly if nothing was sampled or no name is there twice, some name is there,
and a variable named as the field of the cycle's number always had that number as its value. -/
theorem recording_aligned_iff {settings : Settings} {forest : Forest} {m₀ : Model}
    (hm : Model.compile settings forest = .ok m₀) (calls : List Call)
    {names? : Option (List String)} {t₀ : Trace} (ht : start (m₀.after calls) names? = .ok t₀)
    (steps : List Recording.Step) :
    let r : Recording := ⟨m₀.after calls, t₀⟩
    let t := (r.after steps).trace
    let sampled := r.sampled steps
    t.names = t₀.names ∧ t.size = sampled.length ∧
      (∀ m ∈ sampled, ∀ name ∈ t.names, m.reading name = .ok (readingOf m name)) ∧
      (∀ name, (t.history name).length = sampled.length * t.names.count name) ∧
      (t.Aligned sampled ↔ sampled = [] ∨ t.names.Nodup ∧ t.names ≠ [] ∧
        ("cycle" ∈ t.names → ∀ m ∈ sampled, (readingOf m "cycle").value = m.cycle)) := by
  intro r t sampled
  obtain ⟨hempty, hknown⟩ := start_eq_ok ht
  obtain ⟨hnames, hrecords⟩ : t.names = t₀.names ∧ t.Records sampled := by
    simpa using r.records_after hempty steps
  refine ⟨hnames, hrecords.size_eq, fun m hmem name hname => ?_, hrecords.length_history,
    hrecords.aligned_iff⟩
  obtain ⟨more, rfl⟩ := Recording.exists_calls_of_mem_sampled hmem
  have horigin := m₀.sameOrigin_after calls
  refine reading_eq_readingOf hm (horigin.trans ((m₀.after calls).sameOrigin_after more)) ?_
  rw [← horigin.scope]
  exact hknown name (hnames ▸ hname)

/-- A run whose third cycle fails, a sample by hand, and a run behind them. -/
theorem recording_aligned_iff_failed :
    let forest : Forest := { declarations := [
      ⟨"a", .pattern [.literal 1, .literal 2, .literal 0], none⟩,
      ⟨"b", .binary .div (.literal 6) (.reference { path := "a" }), none⟩] }
    ∃ m t₀, Model.compile {} forest = .ok m ∧
      start (m.after [.advance]) (some ["b", "a"]) = .ok t₀ ∧
      let r : Recording := ⟨m.after [.advance], t₀⟩
      let steps := [.run 3, .sample, .call .reset, .run 1]
      (r.sampled steps).length = 3 ∧ (r.after steps).trace.Aligned (r.sampled steps) := by
  intro forest
  obtain ⟨m, t₀, hm, ht, hnames₀, hlength⟩ : ∃ m t₀, Model.compile {} forest = .ok m ∧
      start (m.after [.advance]) (some ["b", "a"]) = .ok t₀ ∧ t₀.names = ["b", "a"] ∧
      (Recording.sampled ⟨m.after [.advance], t₀⟩
        [.run 3, .sample, .call .reset, .run 1]).length = 3 :=
    ⟨_, _, rfl, rfl, rfl, by decide +kernel⟩
  obtain ⟨hnames, -, -, -, haligned⟩ :=
    recording_aligned_iff hm [.advance] ht [.run 3, .sample, .call .reset, .run 1]
  refine ⟨m, t₀, hm, ht, hlength, haligned.mpr (.inr ?_)⟩
  rw [hnames, hnames₀]
  exact ⟨by decide, by decide, fun hcycle => absurd hcycle (by decide)⟩

/-- A name that is there twice has two readings in one sample. -/
theorem repeated_name_misaligned :
    let forest : Forest := { declarations := [⟨"a", .literal 7, none⟩] }
    ∃ m t, Model.compile {} forest = .ok m ∧ start m (some ["a", "a"]) = .ok t ∧
      let r : Recording := ⟨m, t⟩
      (r.sampled [.run 1]).length = 1 ∧
        (r.after [.run 1]).trace.history "a" = [⟨7, true⟩, ⟨7, true⟩] ∧
        ¬(r.after [.run 1]).trace.Aligned (r.sampled [.run 1]) := by
  intro forest
  refine ⟨_, _, rfl, rfl, rfl, rfl, fun haligned => ?_⟩
  exact absurd (haligned.history "a" (by decide)) (by decide)

end Trace

end Stimulus
