import Mathlib.Logic.Function.Basic
import Stimulus.Proofs.Text.Numeral
import Stimulus.Proofs.Trace.Symbol

/-!
# Lines of a dump

The part of a dump behind its head, as a viewer reads it: line by line, each of which is a time or
what the signal of a code shows from then on. What the viewer shows at a time is what the lines up
to that time leave.
-/
namespace Stimulus.Trace

open Stimulus.Text.Numeral

section

variable {α : Type} [BEq α] [LawfulBEq α] {mark : α} {lines : List (List α)}

/-- A text whose lines all have an end mark is split into the lines and what is behind them. -/
theorem splitOn_flatMap (h : ∀ line ∈ lines, mark ∉ line) :
    (lines.flatMap (· ++ [mark])).splitOn mark = lines ++ [[]] := by
  induction lines with
  | nil => exact List.splitOn_nil mark
  | cons line rest ih =>
    rw [List.flatMap_cons, List.append_assoc, List.singleton_append,
      List.splitOn_append_cons_self_of_not_mem (h line List.mem_cons_self),
      ih fun other hother => h other (List.mem_cons_of_mem _ hother), List.cons_append]

omit [BEq α] [LawfulBEq α] in
theorem intercalate_append_mark (h : lines ≠ []) :
    [mark].intercalate lines ++ [mark] = lines.flatMap (· ++ [mark]) := by
  induction lines with
  | nil => exact absurd rfl h
  | cons line rest ih =>
    cases rest with
    | nil => simp
    | cons next more =>
      rw [List.intercalate_cons_cons, List.flatMap_cons, ← ih (List.cons_ne_nil next more)]
      simp only [List.append_assoc]

end

/-- What a signal shows: a word or a single bit. -/
inductive Wire
  | word (value : Nat)
  | bit (value : Bool)
  deriving DecidableEq

inductive DumpLine
  | time (t : Nat)
  | change (code : String) (wire : Wire)
  deriving DecidableEq

namespace DumpLine

def time? : DumpLine → Option Nat
  | time t => some t
  | change _ _ => none

/-- The characters of a line. -/
def text : DumpLine → List Char
  | time t => '#' :: Nat.toDigits 10 t
  | change code (.word value) => 'b' :: (Nat.toDigits 2 value ++ ' ' :: code.toList)
  | change code (.bit value) => (if value then '1' else '0') :: code.toList

/-- Reads a line: a time, a word in binary with its code behind a blank, or a bit with its code. -/
def read? : List Char → Option DumpLine
  | '#' :: digits => (digits? 10 digits).map .time
  | 'b' :: rest =>
    match rest.dropWhile (· != ' ') with
    | _ :: code =>
      (digits? 2 (rest.takeWhile (· != ' '))).map fun value =>
        .change (String.ofList code) (.word value)
    | [] => none
  | '0' :: code => some (.change (String.ofList code) (.bit false))
  | '1' :: code => some (.change (String.ofList code) (.bit true))
  | _ => none

/-- Reads all lines of a text but the blank ones. -/
def readAll? (text : List Char) : Option (List DumpLine) :=
  ((text.splitOn '\n').filter (!·.isEmpty)).mapM read?

theorem read?_text (line : DumpLine) : read? line.text = some line := by
  cases line with
  | time t =>
    have hread : digits? 10 (Nat.toDigits 10 t) = some t :=
      digits?_toDigits (by decide) (by decide) t
    rw [text, read?, hread, Option.map_some]
  | change code wire =>
    cases wire with
    | word value =>
      have hdigits : ∀ c ∈ Nat.toDigits 2 value, (c != ' ') = true := by
        intro c hc
        rw [bne_iff_ne]
        rintro rfl
        exact not_mem_toDigits (by decide) (by decide) rfl value hc
      have hread : digits? 2 (Nat.toDigits 2 value) = some value :=
        digits?_toDigits (by decide) (by decide) value
      simp [text, read?, List.dropWhile_append_of_pos hdigits,
        List.takeWhile_append_of_pos hdigits, hread]
    | bit value => cases value <;> simp [text, read?]

theorem text_ne_nil (line : DumpLine) : line.text ≠ [] := by
  cases line with
  | time => exact List.cons_ne_nil _ _
  | change code wire => cases wire <;> exact List.cons_ne_nil _ _

/-- A line whose code ends no line has no end of a line in it. -/
theorem not_mem_text {line : DumpLine}
    (h : ∀ code wire, line = change code wire → '\n' ∉ code.toList) : '\n' ∉ line.text := by
  have hdigits : ∀ {base : Nat}, 1 < base → base ≤ 16 → ∀ n, '\n' ∉ base.toDigits n :=
    fun hbase hle => not_mem_toDigits hbase hle rfl
  cases line with
  | time t => simp [text, hdigits]
  | change code wire =>
    have hcode := h code wire rfl
    cases wire with
    | word value => simp [text, hdigits, hcode]
    | bit value => cases value <;> simp [text, hcode]

/-- The lines that were written are read. -/
theorem readAll?_flatMap {lines : List DumpLine}
    (h : ∀ code wire, .change code wire ∈ lines → '\n' ∉ code.toList) :
    readAll? (lines.flatMap fun line => line.text ++ ['\n']) = some lines := by
  have hlines : ∀ characters ∈ lines.map text, '\n' ∉ characters := by
    intro characters hmem
    obtain ⟨line, hline, rfl⟩ := List.mem_map.mp hmem
    exact not_mem_text fun code wire heq => h code wire (heq ▸ hline)
  have hsplit : (lines.flatMap fun line => line.text ++ ['\n']).splitOn '\n' =
      lines.map text ++ [[]] := by
    rw [← splitOn_flatMap hlines, List.flatMap_map]
  have hfilter : (lines.map text ++ [[]]).filter (!·.isEmpty) = lines.map text := by
    rw [List.filter_append, List.filter_eq_self.mpr]
    · simp
    · intro characters hmem
      obtain ⟨line, -, rfl⟩ := List.mem_map.mp hmem
      simp [line.text_ne_nil]
  rw [readAll?, hsplit, hfilter, List.mapM_map]
  simp only [Function.comp_def, read?_text]
  exact List.mapM_pure.trans (congrArg some (List.map_id lines))

/-- What the signals show at a moment, when some lines have been read up to that moment. -/
def replay (moment : Nat) (shown : String → Option Wire) : List DumpLine → String → Option Wire
  | [] => shown
  | .time t :: rest => if moment < t then shown else replay moment shown rest
  | .change code wire :: rest => replay moment (Function.update shown code (some wire)) rest

variable {moment : Nat} {shown : String → Option Wire} {lines more : List DumpLine}

/-- Lines whose times have come are all read. -/
theorem replay_append (h : ∀ t, .time t ∈ lines → t ≤ moment) :
    replay moment shown (lines ++ more) = replay moment (replay moment shown lines) more := by
  induction lines generalizing shown with
  | nil => rfl
  | cons line rest ih =>
    have hrest : ∀ t, .time t ∈ rest → t ≤ moment :=
      fun t hmem => h t (List.mem_cons_of_mem _ hmem)
    cases line with
    | time t =>
      have hle : ¬moment < t := Nat.not_lt_of_le (h t List.mem_cons_self)
      simp only [List.cons_append, replay, if_neg hle, ih hrest]
    | change code wire => simp only [List.cons_append, replay, ih hrest]

theorem replay_of_not_mem {code : String} (h : ∀ wire, .change code wire ∉ lines) :
    replay moment shown lines code = shown code := by
  induction lines generalizing shown with
  | nil => rfl
  | cons line rest ih =>
    have hrest : ∀ wire, .change code wire ∉ rest :=
      fun wire hmem => h wire (List.mem_cons_of_mem _ hmem)
    cases line with
    | time t =>
      rw [replay]
      split
      · rfl
      · exact ih hrest
    | change other wire =>
      have hne : code ≠ other := by
        rintro rfl
        exact h wire List.mem_cons_self
      rw [replay, ih hrest, Function.update_of_ne hne]

/-- If all changes of a code are the same one, that is what its signal shows. -/
theorem replay_of_mem {code : String} {wire : Wire} (htimes : ∀ t, .time t ∈ lines → t ≤ moment)
    (hmem : .change code wire ∈ lines)
    (hsame : ∀ other, .change code other ∈ lines → other = wire) :
    replay moment shown lines code = some wire := by
  induction lines generalizing shown with
  | nil => cases hmem
  | cons line rest ih =>
    have htimes' : ∀ t, .time t ∈ rest → t ≤ moment :=
      fun t h => htimes t (List.mem_cons_of_mem _ h)
    have hsame' : ∀ other, .change code other ∈ rest → other = wire :=
      fun other h => hsame other (List.mem_cons_of_mem _ h)
    cases line with
    | time t =>
      have hle : ¬moment < t := Nat.not_lt_of_le (htimes t List.mem_cons_self)
      rw [replay, if_neg hle]
      exact ih htimes' (by simpa using hmem) hsame'
    | change other wire' =>
      rw [replay]
      -- The last change of the code is the one that stays.
      by_cases hrest : .change code wire ∈ rest
      · exact ih htimes' hrest hsame'
      · have hfirst : code = other ∧ wire = wire' := by simpa [hrest] using hmem
        obtain ⟨rfl, rfl⟩ := hfirst
        rw [replay_of_not_mem, Function.update_self]
        intro wire' h
        exact hrest (hsame' wire' h ▸ h)

/-- Lines whose first time is still to come show nothing new. -/
theorem replay_of_lt {t : Nat} (h : moment < t) :
    replay moment shown (.time t :: lines) = shown := by
  rw [replay, if_pos h]

end DumpLine

end Stimulus.Trace
