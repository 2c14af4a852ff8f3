import Stimulus.Proofs.Trace.Alignment
import Stimulus.Proofs.Trace.DumpLine
import Stimulus.Trace.Export

/-!
# Text of a dump

The text of a dump behind its head, as lines: for every sample at which something has changed its
time, and then the changes of the signals of all names.
-/
namespace Stimulus.Trace

open Stimulus.Text.Numeral

/-- What the signal of a number shows of a reading: those of even numbers the value as a word, those
of odd numbers whether it is done. -/
def wireOf (i : Nat) (r : Reading) : Wire :=
  if i % 2 = 0 then .word (wordOf r.value) else .bit r.done

/-- The lines for the changes of a name from one reading to the next. -/
def linesOf (signal : Signal) (before? : Option Reading) (now : Reading) : List DumpLine :=
  (if before?.map (·.value) = some now.value then []
    else [.change signal.valueSymbol (.word (wordOf now.value))]) ++
  if before?.map (·.done) = some now.done then []
    else [.change signal.doneSymbol (.bit now.done)]

/-- The lines for the changes of all names at a place of their histories. -/
def changeLines (columns : List (Signal × Array Reading)) (place : Nat) : List DumpLine :=
  columns.flatMap fun (signal, history) =>
    match history[place]? with
    | none => []
    | some now => linesOf signal (if place = 0 then none else history[place - 1]?) now

/-- The lines at one time. -/
def linesAt (columns : List (Signal × Array Reading)) (period place : Nat) : List DumpLine :=
  let changes := changeLines columns place
  if changes.isEmpty then [] else .time (place * period) :: changes

/-- The lines of a dump behind its head. -/
def lines (t : Trace) (period : Nat) : List DumpLine :=
  (List.range t.size).flatMap (linesAt t.dumpColumns period)

/-! ## The text of a dump -/

theorem map_toList_changesOf (signal : Signal) (before? : Option Reading) (now : Reading) :
    (changesOf signal before? now).map String.toList =
      (linesOf signal before? now).map DumpLine.text := by
  have hvalue : (s!"b{binary (wordOf now.value)} {signal.valueSymbol}").toList =
      (DumpLine.change signal.valueSymbol (.word (wordOf now.value))).text := by
    show ("b" ++ binary (wordOf now.value) ++ " " ++ signal.valueSymbol).toList = _
    simp [DumpLine.text, binary]
  have hdone : ((if now.done then "1" else "0") ++ signal.doneSymbol).toList =
      (DumpLine.change signal.doneSymbol (.bit now.done)).text := by
    cases now.done <;> simp [DumpLine.text]
  simp only [changesOf, linesOf, List.map_append]
  congr 1
  · split
    · rfl
    · rw [List.map_singleton, List.map_singleton, hvalue]
  · split
    · rfl
    · rw [List.map_singleton, List.map_singleton, hdone]

theorem map_toList_changesAt (columns : List (Signal × Array Reading)) (place : Nat) :
    (changesAt columns place).map String.toList =
      (changeLines columns place).map DumpLine.text := by
  simp only [changesAt, changeLines, List.map_flatMap]
  refine List.flatMap_congr fun column _ => ?_
  obtain ⟨signal, history⟩ := column
  cases hnow : history[place]? with
  | none => rfl
  | some now =>
    simp only
    exact map_toList_changesOf signal _ now

theorem isEmpty_changesAt (columns : List (Signal × Array Reading)) (place : Nat) :
    (changesAt columns place).isEmpty = (changeLines columns place).isEmpty := by
  simpa using congrArg List.isEmpty (map_toList_changesAt columns place)

theorem toString_natCast (n : Nat) : toString (n : Int) = String.ofList (Nat.toDigits 10 n) :=
  Nat.toString_eq_ofList_toDigits

theorem toList_dumpAt (columns : List (Signal × Array Reading)) (period place : Nat) :
    (dumpAt columns period place).toList =
      (linesAt columns period place).flatMap fun line => line.text ++ ['\n'] := by
  have htime : (s!"#{(place : Int) * period}\n").toList =
      (DumpLine.time (place * period)).text ++ ['\n'] := by
    show ("#" ++ toString (place * period : Int) ++ "\n").toList = _
    rw [← Int.natCast_mul, toString_natCast]
    simp [DumpLine.text]
  have hmap := map_toList_changesAt columns place
  simp only [dumpAt, linesAt, isEmpty_changesAt]
  split
  · rfl
  · rename_i hne
    have hlines : (changeLines columns place).map DumpLine.text ≠ [] := by simpa using hne
    rw [String.toList_append, String.toList_append, htime, String.toList_intercalate, hmap,
      List.append_assoc, List.flatMap_cons]
    rw [← List.flatMap_map (f := DumpLine.text) (g := (· ++ ['\n'])),
      ← intercalate_append_mark hlines]
    rfl

theorem exists_dump_eq (t : Trace) (date : String) (period : Nat) :
    ∃ changes, t.dump date period = dumpHead date t.names ++ changes ∧
      changes.toList = (t.lines period).flatMap fun line => line.text ++ ['\n'] := by
  refine ⟨_, rfl, ?_⟩
  rw [String.toList_join, lines, List.flatMap_assoc, List.flatMap_map]
  exact List.flatMap_congr fun place _ => toList_dumpAt t.dumpColumns period place

/-! ## The lines of a recording -/

/-- The signals of a name are those of its place, if it has only one. -/
theorem signalOf_eq {names : List String} (hnodup : names.Nodup) {i : Nat} {name : String}
    (hname : names[i]? = some name) : signalOf names name = .at i name := by
  have hmem : Signal.at i name ∈ (signals names).reverse := by
    rw [List.mem_reverse, signals, List.mem_map]
    exact ⟨(name, i), List.mem_zipIdx_iff_getElem?.mpr hname, rfl⟩
  obtain ⟨found, hfound⟩ : ∃ found, (signals names).reverse.find? (·.name == name) = some found :=
    Option.isSome_iff_exists.mp (List.find?_isSome.mpr ⟨_, hmem, by simp [Signal.at]⟩)
  have hfoundName : (found.name == name) = true := by simpa using List.find?_some hfound
  have hfoundMem := List.mem_of_find?_eq_some hfound
  rw [List.mem_reverse, signals, List.mem_map] at hfoundMem
  obtain ⟨⟨other, j⟩, hother, rfl⟩ := hfoundMem
  have hother := List.mem_zipIdx_iff_getElem?.mp hother
  obtain rfl : other = name := by simpa [Signal.at] using hfoundName
  have hsame : i = j := by
    obtain ⟨hlt, -⟩ := List.getElem?_eq_some_iff.mp hname
    exact (List.getElem?_inj hlt hnodup).mp (hname.trans hother.symm)
  rw [signalOf, hfound, hsame]
  rfl

variable {t : Trace} {period place : Nat}

theorem mem_changeLines (hnodup : t.names.Nodup) {line : DumpLine} :
    line ∈ changeLines t.dumpColumns place ↔ ∃ j name now, t.names[j]? = some name ∧
      (t.history name)[place]? = some now ∧
      line ∈ linesOf (.at j name)
        (if place = 0 then none else (t.history name)[place - 1]?) now := by
  simp only [changeLines, dumpColumns, List.flatMap_map, List.mem_flatMap, List.getElem?_toArray]
  constructor
  · rintro ⟨name, hname, hline⟩
    obtain ⟨j, hj⟩ := List.getElem?_of_mem hname
    rw [signalOf_eq hnodup hj] at hline
    split at hline
    · cases hline
    · rename_i now hnow
      exact ⟨j, name, now, hj, hnow, hline⟩
  · rintro ⟨j, name, now, hj, hnow, hline⟩
    refine ⟨name, List.mem_of_getElem? hj, ?_⟩
    rw [signalOf_eq hnodup hj, hnow]
    exact hline

/-- A name has a line for its value and one for whether it is done, where these have changed. -/
theorem mem_linesOf {j : Nat} {name : String} {before? : Option Reading} {now : Reading}
    {line : DumpLine} :
    line ∈ linesOf (.at j name) before? now ↔
      (line = .change (symbol (2 * j)) (wireOf (2 * j) now) ∧
        before?.map (·.value) ≠ some now.value) ∨
      (line = .change (symbol (2 * j + 1)) (wireOf (2 * j + 1) now) ∧
        before?.map (·.done) ≠ some now.done) := by
  have heven : wireOf (2 * j) now = .word (wordOf now.value) := if_pos (by omega)
  have hodd : wireOf (2 * j + 1) now = .bit now.done := if_neg (by omega)
  rw [linesOf, List.mem_append, heven, hodd]
  simp only [Signal.at]
  refine or_congr ?_ ?_ <;> split <;> simp_all

/-- Every line for the changes of some names is the change of one of their signals. -/
theorem exists_signal_of_mem_changeLines (hnodup : t.names.Nodup) {line : DumpLine}
    (h : line ∈ changeLines t.dumpColumns place) :
    ∃ i name now, t.names[i / 2]? = some name ∧ (t.history name)[place]? = some now ∧
      line = .change (symbol i) (wireOf i now) := by
  obtain ⟨j, name, now, hj, hnow, hline⟩ := (mem_changeLines hnodup).mp h
  obtain ⟨rfl, -⟩ | ⟨rfl, -⟩ := mem_linesOf.mp hline
  · exact ⟨2 * j, name, now, by rwa [Nat.mul_div_cancel_left j (by decide)], hnow, rfl⟩
  · exact ⟨2 * j + 1, name, now, by rwa [show (2 * j + 1) / 2 = j by omega], hnow, rfl⟩

/-- A signal without a line shows the same as at the sample before. -/
theorem wireOf_eq_of_not_mem_changeLines (hnodup : t.names.Nodup) {i : Nat} {name : String}
    (hname : t.names[i / 2]? = some name) {now : Reading}
    (hnow : (t.history name)[place]? = some now)
    (h : .change (symbol i) (wireOf i now) ∉ changeLines t.dumpColumns place) :
    0 < place ∧ ∃ before, (t.history name)[place - 1]? = some before ∧
      wireOf i before = wireOf i now := by
  have hline : .change (symbol i) (wireOf i now) ∉ linesOf (.at (i / 2) name)
      (if place = 0 then none else (t.history name)[place - 1]?) now :=
    fun hmem => h ((mem_changeLines hnodup).mpr ⟨i / 2, name, now, hname, hnow, hmem⟩)
  rw [mem_linesOf] at hline
  obtain hpart | hpart : i = 2 * (i / 2) ∨ i = 2 * (i / 2) + 1 := by omega
  · have hvalue : (if place = 0 then none else (t.history name)[place - 1]?).map (·.value) =
        some now.value := by
      by_contra hne
      exact hline (.inl ⟨by rw [← hpart], hne⟩)
    obtain ⟨before, hbefore, heq⟩ := Option.map_eq_some_iff.mp hvalue
    obtain ⟨hplace, hbefore⟩ := Option.ite_none_left_eq_some.mp hbefore
    have heven : i % 2 = 0 := by omega
    exact ⟨Nat.pos_of_ne_zero hplace, before, hbefore, by simp [wireOf, heq, heven]⟩
  · have hdone : (if place = 0 then none else (t.history name)[place - 1]?).map (·.done) =
        some now.done := by
      by_contra hne
      exact hline (.inr ⟨by rw [← hpart], hne⟩)
    obtain ⟨before, hbefore, heq⟩ := Option.map_eq_some_iff.mp hdone
    obtain ⟨hplace, hbefore⟩ := Option.ite_none_left_eq_some.mp hbefore
    have hodd : i % 2 = 1 := by omega
    exact ⟨Nat.pos_of_ne_zero hplace, before, hbefore, by simp [wireOf, heq, hodd]⟩

/-! ## Times -/

theorem mem_linesAt {columns : List (Signal × Array Reading)} {line : DumpLine}
    (h : line ∈ linesAt columns period place) :
    line = .time (place * period) ∨ line ∈ changeLines columns place := by
  simp only [linesAt] at h
  split at h
  · cases h
  · exact List.mem_cons.mp h

theorem time_mem_linesAt (hnodup : t.names.Nodup) {moment : Nat}
    (h : .time moment ∈ linesAt t.dumpColumns period place) : moment = place * period := by
  obtain h | h := mem_linesAt h
  · exact DumpLine.time.inj h
  · obtain ⟨i, name, now, -, -, hline⟩ := exists_signal_of_mem_changeLines hnodup h
    cases hline

/-- Of the lines at one time at most one is a time. -/
theorem filterMap_time?_linesAt (hnodup : t.names.Nodup) :
    List.Sublist ((linesAt t.dumpColumns period place).filterMap DumpLine.time?)
      [place * period] := by
  have hchanges : (changeLines t.dumpColumns place).filterMap DumpLine.time? = [] := by
    rw [List.filterMap_eq_nil_iff]
    intro line hline
    obtain ⟨i, name, now, -, -, rfl⟩ := exists_signal_of_mem_changeLines hnodup hline
    rfl
  simp only [linesAt]
  split
  · exact List.nil_sublist _
  · rw [List.filterMap_cons, hchanges]
    exact List.Sublist.refl _

theorem filterMap_time?_flatMap (hnodup : t.names.Nodup) (places : List Nat) :
    List.Sublist ((places.flatMap (linesAt t.dumpColumns period)).filterMap DumpLine.time?)
      (places.map (· * period)) := by
  induction places with
  | nil => exact List.nil_sublist _
  | cons place rest ih =>
    rw [List.flatMap_cons, List.filterMap_append, List.map_cons]
    exact (filterMap_time?_linesAt hnodup).append ih

/-- The times of a dump are in their order, and none is there twice. -/
theorem pairwise_times (hnodup : t.names.Nodup) (hperiod : 0 < period) :
    ((t.lines period).filterMap DumpLine.time?).Pairwise (· < ·) := by
  refine (List.Pairwise.map _ ?_ List.pairwise_lt_range).sublist
    (filterMap_time?_flatMap hnodup (List.range t.size))
  exact fun a b hab => Nat.mul_lt_mul_of_pos_right hab hperiod

end Stimulus.Trace
