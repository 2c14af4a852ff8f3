import Stimulus.Cell.Step
import Stimulus.Proofs.Word.Vector

/-!
# Composed expressions

A tree of operators steps its leaves from left to right and computes on what they give. If that is
words, then the whole tree computes on words: its value is the one that the operators mean on bit
vectors, and it has none only if a division by zero is reached before.
-/
namespace Stimulus

open Word

/-- A tree of operators. Its leaves are cells of any kind. -/
inductive Composed
  | leaf (cell : Cell)
  | unary (op : UnaryOp) (operand : Composed) (report : Report)
  | binary (op : BinaryOp) (left right : Composed) (report : Report)

namespace Composed

def cell : Composed → Cell
  | leaf c => c
  | unary op operand r => .unary op operand.cell r
  | binary op left right r => .binary op left.cell right.cell r

section

variable (advance : Nat → World → Outcome × World)

def step (t : Composed) (w : World) : Stepped Cell := t.cell.step advance w

/-- The value of a tree on bit vectors, over the words of what its leaves give. A division by zero
has none. -/
def word? : Composed → World → Option (BitVec bits)
  | leaf c, w => (c.step advance w).outcome.toOption.map fun x => ofInt x.value
  | unary op operand _, w => (operand.word? w).map op.onWord
  | binary op left right _, w => do
    let a ← left.word? w
    let b ← right.word? (left.step advance w).world
    if op.divides && b == 0 then none else some (op.onWords a b)

/-- The parts of a tree that its step reaches, and the worlds in which they are stepped. The right
operand is reached if the left one has given its value. -/
inductive Reaches : Composed → World → Composed → World → Prop
  | here (t : Composed) (w : World) : Reaches t w t w
  | operand {op : UnaryOp} {operand n : Composed} {r : Report} {w v : World}
      (h : Reaches operand w n v) : Reaches (unary op operand r) w n v
  | left {op : BinaryOp} {left right n : Composed} {r : Report} {w v : World}
      (h : Reaches left w n v) : Reaches (binary op left right r) w n v
  | right {op : BinaryOp} {left right n : Composed} {r : Report} {w v : World} {x : Reading}
      (hleft : (left.step advance w).outcome = .ok x)
      (h : Reaches right (left.step advance w).world n v) : Reaches (binary op left right r) w n v

/-- A division whose divisor turns out to be zero. -/
def DividesByZero (t : Composed) (w : World) : Prop :=
  ∃ op left right r x done, t = binary op left right r ∧ op.divides = true ∧
    (left.step advance w).outcome = .ok x ∧
    (right.step advance (left.step advance w).world).outcome = .ok ⟨0, done⟩

/-- Every leaf that the step of a tree reaches gives a word. -/
def OverWords (t : Composed) (w : World) : Prop :=
  ∀ c v, Reaches advance t w (leaf c) v →
    ∃ x, (c.step advance v).outcome = .ok x ∧ 0 ≤ x.value ∧ x.value < size

end

variable {advance : Nat → World → Outcome × World}

theorem Reaches.trans {t n m : Composed} {w v u : World} (h : Reaches advance t w n v)
    (h' : Reaches advance n v m u) : Reaches advance t w m u := by
  induction h with
  | here => exact h'
  | operand _ ih => exact .operand (ih h')
  | left _ ih => exact .left (ih h')
  | right hleft _ ih => exact .right hleft (ih h')

/-! ## Steps -/

section

variable {op : BinaryOp} {left right : Composed} {r : Report} {w : World}

theorem outcome_of_left_error {failure : Failure}
    (h : (left.step advance w).outcome = .error failure) :
    ((binary op left right r).step advance w).outcome = .error failure := by
  rw [step] at h
  simp only [step, cell, Cell.step, h]

theorem outcome_of_right_error {x : Reading} {failure : Failure}
    (hleft : (left.step advance w).outcome = .ok x)
    (h : (right.step advance (left.step advance w).world).outcome = .error failure) :
    ((binary op left right r).step advance w).outcome = .error failure := by
  simp only [step] at hleft h
  simp only [step, cell, Cell.step, hleft, h]

theorem outcome_of_ok {x y : Reading} (hleft : (left.step advance w).outcome = .ok x)
    (h : (right.step advance (left.step advance w).world).outcome = .ok y) :
    ((binary op left right r).step advance w).outcome =
      (op.apply x.value y.value).map fun value => ⟨value, x.done || y.done⟩ := by
  simp only [step] at hleft h
  simp only [step, cell, Cell.step, hleft, h]

end

theorem outcome_unary (op : UnaryOp) (operand : Composed) (r : Report) (w : World) :
    ((unary op operand r).step advance w).outcome =
      (operand.step advance w).outcome.map fun x => ⟨op.apply x.value, x.done⟩ := rfl

/-- A part that fails fails the whole tree. -/
theorem Reaches.error {t n : Composed} {w v : World} (h : Reaches advance t w n v)
    {failure : Failure} (hn : (n.step advance v).outcome = .error failure) :
    (t.step advance w).outcome = .error failure := by
  induction h with
  | here => exact hn
  | operand _ ih => rw [outcome_unary, ih hn]; rfl
  | left _ ih => exact outcome_of_left_error (ih hn)
  | right hleft _ ih => exact outcome_of_right_error hleft (ih hn)

theorem DividesByZero.error {t : Composed} {w : World} (h : t.DividesByZero advance w) :
    ∃ cause, (t.step advance w).outcome = .error (.cause cause) ∧ cause.kind = .arithmetic := by
  obtain ⟨op, left, right, r, x, done, rfl, hdivides, hleft, hright⟩ := h
  obtain ⟨cause, hcause, hkind⟩ := BinaryOp.apply_zero hdivides x.value
  refine ⟨cause, ?_, hkind⟩
  rw [outcome_of_ok hleft hright, hcause]
  rfl

/-- A tree fails with the error of a division by zero that its step reaches. -/
theorem Reaches.error_of_division {t n : Composed} {w v : World} (h : Reaches advance t w n v)
    (hzero : n.DividesByZero advance v) :
    ∃ cause, (t.step advance w).outcome = .error (.cause cause) ∧ cause.kind = .arithmetic := by
  obtain ⟨cause, hcause, hkind⟩ := hzero.error
  exact ⟨cause, h.error hcause, hkind⟩

/-! ## Leaves -/

theorem overWords_leaf {c : Cell} {w : World} : (leaf c).OverWords advance w ↔
    ∃ x, (c.step advance w).outcome = .ok x ∧ 0 ≤ x.value ∧ x.value < size := by
  constructor
  · exact fun h => h c w (.here _ _)
  · rintro h _ _ ⟨⟩
    exact h

theorem overWords_binary {op : BinaryOp} {left right : Composed} {r : Report} {w : World}
    (hleft : left.OverWords advance w)
    (hright : ∀ x, (left.step advance w).outcome = .ok x →
      right.OverWords advance (left.step advance w).world) :
    (binary op left right r).OverWords advance w := by
  intro c v hc
  cases hc with
  | left h => exact hleft c v h
  | right hx h => exact hright _ hx c v h

theorem OverWords.part {t n : Composed} {w v : World} (h : t.OverWords advance w)
    (hn : Reaches advance t w n v) : n.OverWords advance v :=
  fun c u hc => h c u (hn.trans hc)

/-! ## Values -/

/-- The step of a tree over words gives the value on bit vectors, or reaches a division by zero. -/
theorem OverWords.value_or_division {t : Composed} {w : World} (h : t.OverWords advance w) :
    (∃ a done, (t.step advance w).outcome = .ok ⟨toInt a, done⟩ ∧ t.word? advance w = some a) ∨
      t.word? advance w = none ∧
        ∃ n v, Reaches advance t w n v ∧ n.DividesByZero advance v := by
  induction t generalizing w with
  | leaf c =>
    obtain ⟨x, hx, h0, hlt⟩ := overWords_leaf.mp h
    refine .inl ⟨ofInt x.value, x.done, ?_, ?_⟩
    · rw [toInt_ofInt_of_mem h0 hlt]
      exact hx
    · rw [word?, hx]
      rfl
  | unary op operand r ih =>
    obtain ⟨a, done, hok, hword⟩ | ⟨hword, n, v, hreach, hzero⟩ :=
      ih (h.part (.operand (.here _ _)))
    · refine .inl ⟨op.onWord a, done, ?_, ?_⟩
      · rw [outcome_unary, hok, Except.map, op.apply_eq, ofInt_toInt]
      · rw [word?, hword]
        rfl
    · refine .inr ⟨?_, n, v, .operand hreach, hzero⟩
      rw [word?, hword]
      rfl
  | binary op left right r ihLeft ihRight =>
    obtain ⟨a, done, hleft, hwordLeft⟩ | ⟨hword, n, v, hreach, hzero⟩ :=
      ihLeft (h.part (.left (.here _ _)))
    · obtain ⟨b, done', hright, hwordRight⟩ | ⟨hword, n, v, hreach, hzero⟩ :=
        ihRight (h.part (.right hleft (.here _ _)))
      · by_cases hdivision : op.divides = true ∧ b = 0
        · obtain ⟨hdivides, rfl⟩ := hdivision
          refine .inr ⟨?_, _, w, .here _ _, op, left, right, r, _, done', rfl, hdivides, hleft,
            hright⟩
          simp [word?, hwordLeft, hwordRight, hdivides]
        · refine .inl ⟨op.onWords a b, done || done', ?_, ?_⟩
          · rw [outcome_of_ok hleft hright,
              BinaryOp.apply_toInt fun hdivides hb => hdivision ⟨hdivides, hb⟩]
            rfl
          · simpa [word?, hwordLeft, hwordRight] using hdivision
      · refine .inr ⟨?_, n, v, .right hleft hreach, hzero⟩
        simp [word?, hwordLeft, hword]
    · refine .inr ⟨?_, n, v, .left hreach, hzero⟩
      simp [word?, hword]

/-- Composed expressions compute on words. In a tree of operators of any shape whose leaves, as far
as they are reached, give words, the value is the one that the operators have on bit vectors, and
all values on the way to it are words too. The step fails exactly if it reaches a division by zero,
from left to right, and then with an arithmetic error. -/
theorem computes_on_words {t : Composed} {w : World} (h : t.OverWords advance w) :
    (t.step advance w).outcome.toOption.map Reading.value = (t.word? advance w).map toInt ∧
    (∀ n v x, Reaches advance t w n v → (n.step advance v).outcome = .ok x →
      0 ≤ x.value ∧ x.value < size) ∧
    ((∃ failure, (t.step advance w).outcome = .error failure) ↔
      ∃ n v, Reaches advance t w n v ∧ n.DividesByZero advance v) ∧
    ∀ failure, (t.step advance w).outcome = .error failure →
      ∃ cause, failure = .cause cause ∧ cause.kind = .arithmetic := by
  refine ⟨?_, fun n v x hn hx => ?_, ⟨?_, ?_⟩, ?_⟩
  · obtain ⟨a, done, hok, hword⟩ | ⟨hword, n, v, hn, hzero⟩ := h.value_or_division
    · rw [hok, hword]
      rfl
    · obtain ⟨cause, hcause, -⟩ := hn.error_of_division hzero
      rw [hcause, hword]
      rfl
  · obtain ⟨a, done, hok, -⟩ | ⟨-, m, u, hm, hzero⟩ := (h.part hn).value_or_division
    · rw [hok] at hx
      cases hx
      exact ⟨toInt_nonneg a, toInt_lt a⟩
    · obtain ⟨cause, hcause, -⟩ := hm.error_of_division hzero
      rw [hcause] at hx
      cases hx
  · rintro ⟨failure, hfailure⟩
    obtain ⟨a, done, hok, -⟩ | ⟨-, hdivision⟩ := h.value_or_division
    · rw [hok] at hfailure
      cases hfailure
    · exact hdivision
  · rintro ⟨n, v, hn, hzero⟩
    obtain ⟨cause, hcause, -⟩ := hn.error_of_division hzero
    exact ⟨_, hcause⟩
  · intro failure hfailure
    obtain ⟨a, done, hok, -⟩ | ⟨-, n, v, hn, hzero⟩ := h.value_or_division
    · rw [hok] at hfailure
      cases hfailure
    · obtain ⟨cause, hcause, hkind⟩ := hn.error_of_division hzero
      rw [hcause] at hfailure
      cases hfailure
      exact ⟨cause, rfl, hkind⟩

/-- A difference below zero is shifted as a word; and a remainder by zero stops the step before it
reaches a leaf that gives no word. -/
theorem computes_on_words_stops :
    let literal (value : Int) : Composed := leaf (.leaf (.literal value) {})
    let shifted := binary .shiftRight (binary .sub (literal 7) (literal 9) {}) (literal 1) {}
    let stopped := binary .add (binary .mod (literal 7) (literal 0) {}) (literal (-1)) {}
    let advance (index : Nat) (w : World) : Outcome × World := (w.read index, w)
    let w : World := { cells := #[], source := .ofSeed .pcg64 7 }
    shifted.OverWords advance w ∧
      (shifted.step advance w).outcome.toOption.map Reading.value = some 2147483647 ∧
      stopped.OverWords advance w ∧
      ∃ failure, (stopped.step advance w).outcome = .error failure := by
  intro literal shifted stopped advance w
  have hliteral {value : Int} (h : 0 ≤ value ∧ value < size) (v : World) :
      (literal value).OverWords advance v := overWords_leaf.mpr ⟨⟨value, true⟩, rfl, h⟩
  have hshifted : shifted.OverWords advance w :=
    overWords_binary
      (overWords_binary (hliteral (by decide) w) fun _ _ => hliteral (by decide) _)
      fun _ _ => hliteral (by decide) _
  have hstopped : stopped.OverWords advance w :=
    overWords_binary
      (overWords_binary (hliteral (by decide) w) fun _ _ => hliteral (by decide) _)
      fun _ hx => nomatch hx
  obtain ⟨hvalue, -⟩ := computes_on_words hshifted
  obtain ⟨-, -, hfails, -⟩ := computes_on_words hstopped
  refine ⟨hshifted, hvalue, hstopped, hfails.mpr ⟨_, w, .left (.here _ _), ?_⟩⟩
  exact ⟨.mod, _, _, _, _, true, rfl, rfl, rfl, rfl⟩

end Composed

end Stimulus
