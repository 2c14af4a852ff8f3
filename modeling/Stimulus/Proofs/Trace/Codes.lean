import Mathlib.Data.List.Induction
import Mathlib.Data.List.Nodup
import Mathlib.Data.Set.Function
import Stimulus.Proofs.Trace.Symbol
import Stimulus.Trace.Export

/-!
# Codes and numbers

The digits of a code are taken off a number one by one, and none of them is a zero: that is why
every text of printable characters is the code of exactly one number. The loop that takes them off
ends for every integer.
-/
namespace Stimulus.Trace

/-! ## The loop over the digits -/

/-- The loop that starts with `left` to be spelled ends and has spelled `cs`. -/
inductive Spells : Int → List Char → Prop
  | done {left : Int} (h : left ≤ 0) : Spells left []
  | digit {left : Int} {cs : List Char} (h : 0 < left)
    (rest : Spells ((left - 1) / symbolBase) cs) :
    Spells left (symbolChar ((left - 1) % symbolBase).toNat :: cs)

/-- There is one way only to go on from a number. -/
theorem Spells.unique {left : Int} {cs ds : List Char} (hc : Spells left cs)
    (hd : Spells left ds) : cs = ds := by
  induction hc generalizing ds with
  | done h =>
    cases hd with
    | done => rfl
    | digit hpos => omega
  | digit h _ ih =>
    cases hd with
    | done hle => omega
    | digit _ rest => rw [ih rest]

theorem symbolChars_zero : symbolChars 0 = [] := by rw [symbolChars, if_pos rfl]

theorem spells_natCast (n : Nat) : Spells n (symbolChars n) := by
  fun_induction symbolChars n with
  | case1 => exact .done (Int.le_refl 0)
  | case2 n hn ih =>
    have hleft : ((n : Int) - 1) = ((n - 1 : Nat) : Int) := by omega
    have hspells : Spells n _ := .digit (by omega) (by rw [hleft]; exact ih)
    rwa [hleft] at hspells

theorem spells_symbolAt (place : Int) : Spells (place + 1) (symbolAt place).toList := by
  rw [symbolAt, String.toList_ofList]
  obtain hle | hpos := le_or_gt (place + 1) 0
  · rw [Int.toNat_of_nonpos hle, symbolChars_zero]
    exact .done hle
  · have hspells := spells_natCast (place + 1).toNat
    rwa [Int.toNat_of_nonneg hpos.le] at hspells

@[simp] theorem symbolAt_natCast (i : Nat) : symbolAt i = symbol i := rfl

/-! ## Every text of printable characters is a code -/

/-- A text that may stand for a signal: not empty, and of the characters from `!` to `~`. -/
def IsCode (s : String) : Prop := s ≠ "" ∧ ∀ c ∈ s.toList, '!' ≤ c ∧ c ≤ '~'

theorem symbolChar_sub {c : Char} (h : '!' ≤ c) : symbolChar (c.toNat - '!'.toNat) = c := by
  have hle : '!'.toNat ≤ c.toNat := h
  rw [symbolChar, Nat.add_sub_cancel' hle, Char.ofNat_toNat]

theorem symbolChars_symbolNumber {cs : List Char} (h : ∀ c ∈ cs, '!' ≤ c ∧ c ≤ '~') :
    symbolChars (symbolNumber cs) = cs := by
  induction cs with
  | nil => exact symbolChars_zero
  | cons c cs ih =>
    obtain ⟨hleast, hgreatest⟩ := h c List.mem_cons_self
    have hbelow : c.toNat - '!'.toNat < symbolBase := by
      have hfrom : '!'.toNat ≤ c.toNat := hleast
      have hto : c.toNat ≤ '~'.toNat := hgreatest
      have hbase : '!'.toNat + symbolBase = '~'.toNat + 1 := rfl
      omega
    -- what is taken off first is the first character, and the number of the others is left
    have hdigit : symbolNumber (c :: cs) - 1 =
        c.toNat - '!'.toNat + symbolBase * symbolNumber cs := by
      rw [symbolNumber]
      omega
    have hpos : symbolNumber (c :: cs) ≠ 0 := by simp [symbolNumber]
    rw [symbolChars, if_neg hpos, hdigit, Nat.add_mul_mod_self_left, Nat.mod_eq_of_lt hbelow,
      Nat.add_mul_div_left _ _ (by decide : 0 < symbolBase), Nat.div_eq_of_lt hbelow, Nat.zero_add,
      symbolChar_sub hleast, ih fun d hd => h d (List.mem_cons_of_mem c hd)]

theorem isCode_symbol (i : Nat) : IsCode (symbol i) := by
  refine ⟨fun h => ?_, fun c hc => ?_⟩
  · have hchars : symbolChars (i + 1) = [] := String.ofList_injective h
    rw [symbolChars, if_neg (Nat.succ_ne_zero i)] at hchars
    cases hchars
  · rw [symbol, String.toList_ofList] at hc
    exact mem_symbolChars hc

theorem exists_symbol_eq {s : String} (h : IsCode s) : ∃ i, symbol i = s := by
  obtain ⟨hne, hprintable⟩ := h
  have hchars := symbolChars_symbolNumber hprintable
  have hpos : symbolNumber s.toList ≠ 0 := by
    intro hzero
    rw [hzero, symbolChars_zero] at hchars
    exact hne (String.toList_injective hchars.symm)
  refine ⟨symbolNumber s.toList - 1, ?_⟩
  rw [symbol, Nat.sub_add_cancel (Nat.pos_of_ne_zero hpos), hchars, String.ofList_toList]

/-- The codes and the numbers of their places are in one to one correspondence. -/
theorem bijOn_symbol : Set.BijOn symbol Set.univ {s | IsCode s} :=
  ⟨fun i _ => isCode_symbol i, symbol_injective.injOn, fun _ h =>
    let ⟨i, hi⟩ := exists_symbol_eq h
    ⟨i, trivial, hi⟩⟩

/-! ## The codes of a dump -/

/-- The codes of signals, in the order in which a dump declares them. -/
def codes (signals : List Signal) : List String :=
  signals.flatMap fun signal => [signal.valueSymbol, signal.doneSymbol]

theorem codes_append (before after : List Signal) :
    codes (before ++ after) = codes before ++ codes after := List.flatMap_append

/-- The names take the codes from the first one on, two each. -/
theorem codes_signals (names : List String) :
    codes (signals names) = (List.range (2 * names.length)).map symbol := by
  induction names using List.reverseRecOn with
  | nil => rfl
  | append_singleton names name ih =>
    have hlast : signals (names ++ [name]) = signals names ++ [.at names.length name] := by
      simp [signals, List.zipIdx_append]
    have hrange : List.range (2 * (names ++ [name]).length) =
        List.range (2 * names.length) ++ [2 * names.length, 2 * names.length + 1] := by
      rw [List.length_append, List.length_singleton, Nat.mul_succ, List.range_succ, List.range_succ,
        List.append_assoc]
      rfl
    rw [hlast, codes_append, ih, hrange, List.map_append]
    rfl

theorem codes_signals_nodup (names : List String) : (codes (signals names)).Nodup := by
  rw [codes_signals]
  exact List.Nodup.map symbol_injective List.nodup_range

/-- The loop ends for every integer, and what it spells there is the code. The codes of the natural
numbers are all texts of printable characters that are not empty, each of them once. The two codes
of each name of a dump are pairwise distinct. -/
theorem symbol_codes :
    (∀ place : Int, Spells (place + 1) (symbolAt place).toList ∧
      ∀ cs, Spells (place + 1) cs → cs = (symbolAt place).toList) ∧
    Set.BijOn (fun i : Nat => symbolAt i) Set.univ {s | IsCode s} ∧
    ∀ names : List String, (codes (signals names)).length = 2 * names.length ∧
      (codes (signals names)).Nodup := by
  refine ⟨fun place => ⟨spells_symbolAt place, fun cs h => h.unique (spells_symbolAt place)⟩,
    ?_, fun names => ⟨?_, codes_signals_nodup names⟩⟩
  · simp only [symbolAt_natCast]
    exact bijOn_symbol
  · rw [codes_signals, List.length_map, List.length_range]

end Stimulus.Trace
