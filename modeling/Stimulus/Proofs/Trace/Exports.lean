import Mathlib.Algebra.Ring.Int.Defs
import Mathlib.Data.List.Forall2
import Stimulus.Proofs.Trace.Display

/-!
# Exports of a recording

What the exports of a trace tell is what was recorded: a viewer of the dump and a reader of the
memory words see, at every sample, the values of the histories modulo `2 ^ 32`. A dump can be
refused, since a time has to be written in at most 4300 digits; memory words cannot.
-/
namespace Stimulus.Trace

open Stimulus.Text Stimulus.Text.Numeral

variable {t : Trace} {sampled : List Model} {period : Nat}

/-! ## Dumps that can be written -/

/-- Whether some name has another reading at the sample behind one than at that one. -/
def ChangesBehind (t : Trace) (place : Nat) : Prop :=
  ∃ name ∈ t.names, ∃ before now, (t.history name)[place]? = some before ∧
    (t.history name)[place + 1]? = some now ∧ before ≠ now

theorem changeLines_ne_nil_iff (hnodup : t.names.Nodup) {place : Nat} :
    changeLines t.dumpColumns (place + 1) ≠ [] ↔ t.ChangesBehind place := by
  constructor
  · intro hne
    obtain ⟨line, hmem⟩ := List.exists_mem_of_ne_nil _ hne
    obtain ⟨j, name, now, hj, hnow, hline⟩ := (mem_changeLines hnodup).mp hmem
    have hlt : place < (t.history name).length := by
      obtain ⟨hlt, -⟩ := List.getElem?_eq_some_iff.mp hnow
      omega
    refine ⟨name, List.mem_of_getElem? hj, _, now, List.getElem?_eq_getElem hlt, hnow, ?_⟩
    rintro rfl
    simp [mem_linesOf, List.getElem?_eq_getElem hlt] at hline
  · rintro ⟨name, hname, before, now, hbefore, hnow, hne⟩
    obtain ⟨j, hj⟩ := List.getElem?_of_mem hname
    obtain ⟨line, hline⟩ : ∃ line, line ∈ linesOf (.at j name)
        (if place + 1 = 0 then none else (t.history name)[place]?) now := by
      obtain hvalue | hdone : before.value ≠ now.value ∨ before.done ≠ now.done := by
        cases before
        cases now
        grind
      · exact ⟨_, mem_linesOf.mpr (.inl ⟨rfl, by simpa [hbefore] using hvalue⟩)⟩
      · exact ⟨_, mem_linesOf.mpr (.inr ⟨rfl, by simpa [hbefore] using hdone⟩)⟩
    exact List.ne_nil_of_mem ((mem_changeLines hnodup).mpr ⟨j, name, now, hj, hnow, hline⟩)

/-- A dump can be written if every time at which something has changed can be. -/
theorem hasWritableTimes_iff (hnodup : t.names.Nodup)
    (hfull : ∀ name ∈ t.names, (t.history name).length = t.size) :
    t.hasWritableTimes period ↔
      ∀ place, t.ChangesBehind place → (Nat.toDigits 10 ((place + 1) * period)).length ≤ 4300 := by
  have hwritable : ∀ place : Nat, isWritable ((place : Int) * period) ↔
      (Nat.toDigits 10 (place * period)).length ≤ 4300 := by
    intro place
    rw [← Int.natCast_mul, isWritable, digitCount, Int.natAbs_natCast, decide_eq_true_iff]
    rfl
  simp only [hasWritableTimes, List.all_eq_true, List.mem_range, Bool.or_eq_true, hwritable,
    isEmpty_changesAt]
  constructor
  · intro h place hchanges
    have hlt : place + 1 < t.size := by
      obtain ⟨name, hname, before, now, -, hnow, -⟩ := hchanges
      obtain ⟨hlt, -⟩ := List.getElem?_eq_some_iff.mp hnow
      rwa [← hfull name hname]
    refine (h (place + 1) hlt).resolve_right ?_
    rw [List.isEmpty_iff]
    exact (changeLines_ne_nil_iff hnodup).mpr hchanges
  · intro h place _
    cases place with
    | zero => exact .inl (by simp)
    | succ place =>
      by_cases hempty : changeLines t.dumpColumns (place + 1) = []
      · exact .inr (by rw [hempty]; rfl)
      · exact .inl (h place ((changeLines_ne_nil_iff hnodup).mp hempty))

/-- Twice a nine with `n` zeros behind it has more than `n + 1` digits. -/
theorem succ_lt_length_toDigits (n : Nat) :
    n + 1 < (Nat.toDigits 10 ((1 + 1) * (9 * 10 ^ n))).length := by
  by_contra h
  rw [Nat.not_lt, Nat.length_toDigits_le_iff (by decide) (Nat.succ_pos n), pow_succ] at h
  omega

/-! ## Memory words -/

/-- Between parts without a character, another one brings none in. -/
theorem not_mem_intercalate {mark c : Char} (hne : c ≠ mark) {parts : List (List Char)}
    (h : ∀ part ∈ parts, c ∉ part) : c ∉ [mark].intercalate parts := by
  induction parts with
  | nil => simp
  | cons part rest ih =>
    have hpart := h part List.mem_cons_self
    have hrest := ih fun other hother => h other (List.mem_cons_of_mem _ hother)
    cases rest with
    | nil => simpa using hpart
    | cons next more =>
      rw [List.intercalate_cons_cons]
      simp only [List.mem_append, List.mem_singleton, not_or]
      exact ⟨⟨hpart, hne⟩, hrest⟩

/-- The words of a line: what stands between blanks. -/
def wordsOf (line : List Char) : List (List Char) := (line.splitOn ' ').filter (!·.isEmpty)

theorem wordsOf_intercalate {words : List (List Char)}
    (h : ∀ word ∈ words, word ≠ [] ∧ ' ' ∉ word) : wordsOf ([' '].intercalate words) = words := by
  by_cases hempty : words = []
  · subst hempty
    rfl
  · rw [wordsOf, List.splitOn_intercalate ' ' (fun word hword => (h word hword).2) hempty,
      List.filter_eq_self]
    intro word hword
    simpa using (h word hword).1

/-- A line of memory words holds, for every name, the value of the sample in eight digits. -/
def HoldsWords (t : Trace) (place : Nat) (line : List Char) : Prop :=
  List.Forall₂ (fun name word => word.length = 8 ∧ ∃ reading,
    (t.history name)[place]? = some reading ∧
      digits? 16 word = some (reading.value % 2 ^ 32).toNat) t.names (wordsOf line)

theorem wordOf_eq (value : Int) : wordOf value = (value % 2 ^ 32).toNat := rfl

theorem wordOf_lt (value : Int) : wordOf value < 16 ^ 8 := by
  have hlt := Word.wrap_lt value
  have hnonneg := Word.wrap_nonneg value
  rw [show Word.size = 16 ^ 8 from rfl] at hlt
  rw [wordOf]
  omega

/-- The words for the readings of all names at a place. -/
def memoryWords (t : Trace) (place : Nat) : List (List Char) :=
  (rowAt t.columns place).map fun (_, reading) => hexDigits 8 (wordOf reading.value)

theorem not_mem_memoryWords {place : Nat} {c : Char} (hc : digit? c = none) :
    ∀ word ∈ t.memoryWords place, c ∉ word := by
  intro word hword
  obtain ⟨⟨name, reading⟩, -, rfl⟩ := List.mem_map.mp hword
  exact not_mem_hexDigits hc 8 _

theorem toList_memoryLine (t : Trace) (place : Nat) :
    (memoryLine ((rowAt t.columns place).map fun (_, reading) =>
      hexWord (wordOf reading.value))).toList =
        [' '].intercalate (t.memoryWords place) ++ ['\n'] := by
  simp [memoryLine, memoryWords, hexWord, Function.comp_def]

theorem holdsWords_memoryWords (h : t.Records sampled) (hnodup : t.names.Nodup) {place : Nat}
    (hplace : place < t.size) : t.HoldsWords place ([' '].intercalate (t.memoryWords place)) := by
  rw [h.size_eq] at hplace
  have hsample : sampled[place]? = some sampled[place] := List.getElem?_eq_getElem hplace
  have hwords : ∀ word ∈ t.memoryWords place, word ≠ [] ∧ ' ' ∉ word := by
    intro word hword
    refine ⟨?_, not_mem_memoryWords rfl word hword⟩
    obtain ⟨⟨name, reading⟩, -, rfl⟩ := List.mem_map.mp hword
    rw [← List.length_pos_iff, length_hexDigits (by decide) (wordOf_lt _)]
    decide
  rw [HoldsWords, wordsOf_intercalate hwords, memoryWords, h.rowAt_eq hnodup hsample, List.map_map,
    List.forall₂_map_right_iff, List.forall₂_same]
  intro name hname
  refine ⟨length_hexDigits (by decide) (wordOf_lt _), readingOf sampled[place] name, ?_, ?_⟩
  · rw [h.history_of_nodup hnodup hname, List.getElem?_map, hsample, Option.map_some]
  · rw [← wordOf_eq]
    exact digits?_hexDigits 8 _

/-- The memory words are lines of words behind a line with the names, one for each sample. -/
theorem exists_memoryText_eq (h : t.Records sampled) (hnodup : t.names.Nodup) :
    ∃ words lines, t.memoryText = "// " ++ " ".intercalate t.names ++ "\n" ++ words ∧
      words.toList.splitOn '\n' = lines ++ [[]] ∧ lines.length = t.size ∧
      ∀ place line, lines[place]? = some line → t.HoldsWords place line := by
  have htext : t.memoryText = "// " ++ " ".intercalate t.names ++ "\n" ++
      String.join ((List.range t.size).map fun place =>
        memoryLine ((rowAt t.columns place).map fun (_, reading) =>
          hexWord (wordOf reading.value))) := by
    simp only [memoryText, memoryLine, String.append_assoc]
  refine ⟨_, (List.range t.size).map fun place => [' '].intercalate (t.memoryWords place),
    htext, ?_, ?_, fun place line hline => ?_⟩
  · rw [String.toList_join, List.flatMap_map]
    simp only [toList_memoryLine]
    rw [← List.flatMap_map (f := fun place => [' '].intercalate (t.memoryWords place))
      (g := (· ++ ['\n']))]
    refine splitOn_flatMap fun line hline => ?_
    obtain ⟨place, -, rfl⟩ := List.mem_map.mp hline
    exact not_mem_intercalate (by decide) (not_mem_memoryWords rfl)
  · rw [List.length_map, List.length_range]
  · rw [List.getElem?_map] at hline
    obtain ⟨other, hother, rfl⟩ := Option.map_eq_some_iff.mp hline
    obtain ⟨hlt, hsame⟩ := List.getElem?_eq_some_iff.mp hother
    rw [List.length_range] at hlt
    rw [List.getElem_range] at hsame
    exact hsame ▸ holdsWords_memoryWords h hnodup hlt

/-! ## The agreement of the exports -/

/-- A viewer of a dump is shown, at the time of every sample, the readings of all names. -/
structure Displays (t : Trace) (period : Nat) (lines : List DumpLine) : Prop where
  times : (lines.filterMap DumpLine.time?).Pairwise (· < ·)
  value : ∀ place j name reading, t.names[j]? = some name →
    (t.history name)[place]? = some reading →
    DumpLine.replay (place * period) (fun _ => none) lines (symbol (2 * j)) =
      some (.word (reading.value % 2 ^ 32).toNat)
  done : ∀ place j name reading, t.names[j]? = some name →
    (t.history name)[place]? = some reading →
    DumpLine.replay (place * period) (fun _ => none) lines (symbol (2 * j + 1)) =
      some (.bit reading.done)

theorem displays_lines (hnodup : t.names.Nodup)
    (hfull : ∀ name ∈ t.names, (t.history name).length = t.size) (hperiod : 0 < period) :
    t.Displays period (t.lines period) := by
  have hplace : ∀ {place j : Nat} {name : String} {reading : Reading}, t.names[j]? = some name →
      (t.history name)[place]? = some reading → place < t.size := by
    intro place j name reading hname hreading
    obtain ⟨hlt, -⟩ := List.getElem?_eq_some_iff.mp hreading
    rwa [← hfull name (List.mem_of_getElem? hname)]
  refine ⟨pairwise_times hnodup hperiod, fun place j name reading hname hreading => ?_,
    fun place j name reading hname hreading => ?_⟩
  · have hj : t.names[2 * j / 2]? = some name := by
      rwa [Nat.mul_div_cancel_left j (by decide)]
    rw [replay_lines hnodup hperiod hj (hplace hname hreading) hreading, wireOf,
      if_pos (by omega), wordOf_eq]
  · have hj : t.names[(2 * j + 1) / 2]? = some name := by
      rwa [show (2 * j + 1) / 2 = j by omega]
    rw [replay_lines hnodup hperiod hj (hplace hname hreading) hreading, wireOf,
      if_neg (by omega)]

/-- The dump of a trace is read as its lines. -/
theorem readAll?_lines (hnodup : t.names.Nodup) :
    DumpLine.readAll? ((t.lines period).flatMap fun line => line.text ++ ['\n']) =
      some (t.lines period) := by
  refine DumpLine.readAll?_flatMap fun code wire hmem => ?_
  obtain ⟨place, -, hline⟩ := List.mem_flatMap.mp hmem
  obtain heq | hchange := mem_linesAt hline
  · cases heq
  · obtain ⟨i, name, now, -, -, heq⟩ := exists_signal_of_mem_changeLines hnodup hchange
    obtain ⟨rfl, -⟩ := DumpLine.change.inj heq
    exact not_mem_symbol (by decide)

/-- Whatever is done with a model while it is recorded under names no two of which are equal: the
exports of the trace agree with its histories, which have a reading for every sample. A dump with a
positive period has times in their order, and a viewer that takes the last change of every code is
shown, at the time of each sample, the values modulo `2 ^ 32` and the done flags of that sample,
also where nothing was written at that time. It is refused exactly if a time at which something has
changed is too long. The lines of memory words hold the same values in eight digits, in the order of
the names. -/
theorem exports_agree {m : Model} {names? : Option (List String)} {t₀ : Trace}
    (ht : start m names? = .ok t₀) (hnodup : t₀.names.Nodup) (steps : List Recording.Step)
    (date : String) {period : Nat} (hperiod : 0 < period) :
    let t := (Recording.after ⟨m, t₀⟩ steps).trace
    let written := ∀ place, t.ChangesBehind place →
      (Nat.toDigits 10 ((place + 1) * period)).length ≤ 4300
    t.names = t₀.names ∧ (∀ name ∈ t.names, (t.history name).length = t.size) ∧
      (written → ∃ changes lines, t.dump? date period = .ok (dumpHead date t.names ++ changes) ∧
        DumpLine.readAll? changes.toList = some lines ∧ t.Displays period lines) ∧
      (¬written → t.dump? date period = .error .unwritableNumeral) ∧
      ∃ words lines, t.memoryText = "// " ++ " ".intercalate t.names ++ "\n" ++ words ∧
        words.toList.splitOn '\n' = lines ++ [[]] ∧ lines.length = t.size ∧
        ∀ place line, lines[place]? = some line → t.HoldsWords place line := by
  intro t written
  obtain ⟨hempty, -⟩ := start_eq_ok ht
  obtain ⟨hnames, hrecords⟩ : t.names = t₀.names ∧
      t.Records (Recording.sampled ⟨m, t₀⟩ steps) := by
    simpa using Recording.records_after (r := ⟨m, t₀⟩) hempty steps
  rw [← hnames] at hnodup
  have hfull : ∀ name ∈ t.names, (t.history name).length = t.size := by
    intro name hname
    rw [hrecords.history_of_nodup hnodup hname, List.length_map, hrecords.size_eq]
  refine ⟨hnames, hfull, fun hwritten => ?_, fun hwritten => ?_,
    exists_memoryText_eq hrecords hnodup⟩
  · obtain ⟨changes, hdump, hchanges⟩ := t.exists_dump_eq date period
    refine ⟨changes, t.lines period, ?_, ?_, displays_lines hnodup hfull hperiod⟩
    · rw [dump?, if_pos ((hasWritableTimes_iff hnodup hfull).mpr hwritten), hdump]
    · rw [hchanges, readAll?_lines hnodup]
  · rw [dump?, if_neg fun h => hwritten ((hasWritableTimes_iff hnodup hfull).mp h)]

/-- A signal that is written once is shown at later samples too, as a word. -/
theorem exports_agree_unchanged :
    let forest : Forest := { declarations := [
      ⟨"p", .pattern [.literal 1, .literal (-1)], none⟩, ⟨"q", .literal 4294967301, none⟩] }
    ∃ m t₀, Model.compile {} forest = .ok m ∧ start m (some ["q", "p"]) = .ok t₀ ∧
      let t := (Recording.after ⟨m, t₀⟩ [.run 3]).trace
      ∃ changes lines, t.dump? "" (10 : Nat) = .ok (dumpHead "" t.names ++ changes) ∧
        DumpLine.readAll? changes.toList = some lines ∧
        DumpLine.replay 20 (fun _ => none) lines (symbol 0) = some (.word 5) := by
  intro forest
  obtain ⟨m, t₀, hm, ht, hnames₀, hsize, hq⟩ : ∃ m t₀, Model.compile {} forest = .ok m ∧
      start m (some ["q", "p"]) = .ok t₀ ∧ t₀.names = ["q", "p"] ∧
      let t := (Recording.after ⟨m, t₀⟩ [.run 3]).trace
      t.size = 3 ∧ (t.history "q")[2]? = some ⟨4294967301, true⟩ :=
    ⟨_, _, rfl, rfl, rfl, by decide +kernel, by decide +kernel⟩
  obtain ⟨hnames, hfull, hwritten, -, -⟩ :=
    exports_agree ht (by rw [hnames₀]; decide) [.run 3] "" (show 0 < 10 by decide)
  obtain ⟨changes, lines, hdump, hread, hdisplays⟩ := hwritten fun place hchanges => by
    obtain ⟨name, hname, before, now, -, hnow, -⟩ := hchanges
    obtain ⟨hlt, -⟩ := List.getElem?_eq_some_iff.mp hnow
    rw [hfull name hname, hsize] at hlt
    obtain rfl | rfl : place = 0 ∨ place = 1 := by omega
    · decide
    · decide
  have hplace : (Recording.after ⟨m, t₀⟩ [.run 3]).trace.names[0]? = some "q" := by
    rw [hnames, hnames₀]
    rfl
  exact ⟨m, t₀, hm, ht, changes, lines, hdump, hread, hdisplays.value 2 0 "q" _ hplace hq⟩

/-- A dump whose last time has 4301 digits is refused. -/
theorem dump_refused :
    let forest : Forest := { declarations := [⟨"p", .pattern [.literal 1, .literal 2], none⟩] }
    ∃ m t₀, Model.compile {} forest = .ok m ∧ start m none = .ok t₀ ∧ t₀.names.Nodup ∧
      (Recording.after ⟨m, t₀⟩ [.run 3]).trace.dump? "" ((9 * 10 ^ 4299 : Nat) : Int) =
        .error .unwritableNumeral := by
  intro forest
  obtain ⟨m, t₀, hm, ht, hnames₀, hnames, hfull, hbefore, hnow⟩ : ∃ m t₀,
      Model.compile {} forest = .ok m ∧ start m none = .ok t₀ ∧ t₀.names = ["p"] ∧
      let t := (Recording.after ⟨m, t₀⟩ [.run 3]).trace
      t.names = ["p"] ∧ (∀ name ∈ t.names, (t.history name).length = t.size) ∧
        (t.history "p")[1]? = some ⟨2, true⟩ ∧ (t.history "p")[2]? = some ⟨1, false⟩ :=
    ⟨_, _, rfl, rfl, rfl, by decide +kernel, by decide +kernel, by decide +kernel,
      by decide +kernel⟩
  refine ⟨m, t₀, hm, ht, by rw [hnames₀]; decide, ?_⟩
  have hchanges : (Recording.after ⟨m, t₀⟩ [.run 3]).trace.ChangesBehind 1 :=
    ⟨"p", by rw [hnames]; decide, _, _, hbefore, hnow, by decide⟩
  rw [dump?, if_neg]
  intro h
  have hwritten := (hasWritableTimes_iff (by rw [hnames]; decide) hfull).mp h 1 hchanges
  exact absurd (succ_lt_length_toDigits 4299) (Nat.not_lt_of_le hwritten)

end Stimulus.Trace
