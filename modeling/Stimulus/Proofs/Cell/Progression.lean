import Stimulus.Proofs.Cell.Stream

/-!
# Progressions

The values of a sequence. Over constant operands they go round: from the first value in steps of one
size towards the last, and from the furthest value that is not beyond it back to the first. Over
operands that change, each value still depends on nothing but the operands of its own turn and the
value before.
-/
namespace Stimulus

open Scope hiding bind

namespace Bounds

variable {b : Bounds}

/-- The number of values from the first one on that do not lie beyond the last. -/
def count (b : Bounds) : Nat := (b.last - b.first).natAbs / b.increment.natAbs + 1

/-- The value that is some steps behind the first one. -/
def value (b : Bounds) (steps : Nat) : Int :=
  b.first + b.direction * b.increment.natAbs * steps

@[simp] theorem value_zero (b : Bounds) : b.value 0 = b.first := by simp [value]

theorem behind_value (b : Bounds) (steps : Nat) :
    b.behind (b.value steps) = b.value (steps + 1) := by
  simp only [behind, value, Nat.cast_succ]
  ring

/-- The first value does not lie beyond the last, whichever is greater. -/
theorem not_beyond_first (b : Bounds) : b.beyond b.first = false := by
  unfold beyond direction
  split <;> simp <;> omega

/-- The values from the first one on lie beyond the last as soon as there are too many of them. -/
theorem beyond_value_iff (h : b.increment ≠ 0) {steps : Nat} :
    b.beyond (b.value steps) = true ↔ b.count ≤ steps := by
  have hsize : 0 < b.increment.natAbs := Int.natAbs_pos.mpr h
  have hdistance : b.beyond (b.value steps) = true ↔
      (b.last - b.first).natAbs < steps * b.increment.natAbs := by
    unfold beyond value direction
    generalize b.increment.natAbs = size
    have hsteps : ((steps * size : Nat) : Int) = size * steps := by
      rw [Nat.cast_mul, Int.mul_comm]
    split <;> simp <;> omega
  rw [hdistance, ← Nat.div_lt_iff_lt_mul hsize]
  rfl

end Bounds

/-- Over constant operands, the values of a progression go round. -/
theorem progressionValue_const {b : Bounds} (h : b.increment ≠ 0) (k : Nat) :
    progressionValue (fun _ => some b) k = some (b.value (k % b.count)) := by
  induction k with
  | zero => simp [progressionValue]
  | succ k ih =>
    have hplace : k % b.count < b.count := Nat.mod_lt k (Nat.succ_pos _)
    have hnext : (k + 1) % b.count = (k % b.count + 1) % b.count := by rw [Nat.mod_add_mod]
    rw [hnext]
    simp only [progressionValue, ih, Option.bind_eq_bind, Option.bind_some, b.behind_value,
      b.beyond_value_iff h]
    split
    · have hround : k % b.count + 1 = b.count := by omega
      rw [hround, Nat.mod_self, Bounds.value_zero]
      rfl
    · have hinside : k % b.count + 1 < b.count := by omega
      rw [Nat.mod_eq_of_lt hinside]
      rfl

/-- A progression over constant operands is done at the end of each round. -/
theorem progression_const {b : Bounds} (h : b.increment ≠ 0) (k : Nat) :
    progression (fun _ => some b) k =
      some ⟨b.value (k % b.count), decide (k % b.count + 1 = b.count)⟩ := by
  have hplace : k % b.count < b.count := Nat.mod_lt k (Nat.succ_pos _)
  have hdone : b.beyond (b.value (k % b.count + 1)) = decide (k % b.count + 1 = b.count) := by
    rw [Bool.eq_iff_iff, Bounds.beyond_value_iff h, decide_eq_true_iff]
    omega
  simp only [progression, progressionValue_const h, Option.bind_eq_bind, Option.bind_some,
    b.behind_value, hdone]
  rfl

/-- The value that a progression moves on to does not lie beyond the last one. -/
theorem Progress.not_beyond_advance (p : Progress) (ready : Bool) (b : Bounds) :
    b.beyond (p.advance ready b.first b.last b.increment).1.value = false := by
  rw [advance_eq]
  dsimp only
  split
  · exact b.not_beyond_first
  · split
    · exact b.not_beyond_first
    · simpa using ‹¬b.beyond _ = true›

/-- A progression that has moved on under some operands moves on under the same ones: to the first
value if it was done, and else by one step. -/
theorem Progress.value_advance_advance (p : Progress) (ready : Bool) (b : Bounds) :
    let moved := p.advance ready b.first b.last b.increment
    (moved.2.advance true b.first b.last b.increment).1.value =
      if moved.1.done then b.first else b.behind moved.1.value := by
  simp only [advance_eq, Bool.not_true, Bool.or_false, Bool.false_eq_true, if_false]

namespace Cell

/-! ## Sequences over constants -/

/-- Where a stream has every element, every turn succeeds. -/
theorem Stands.outcomes_eq_ok {constant : Identifier → Option Int} {e : Expr} {k : Nat} {c : Cell}
    (h : Stands constant e k c) (hsome : ∀ j, (e.stream constant j).isSome) (turns : List Turn) :
    ∀ o ∈ c.outcomes turns, ∃ x, o = .ok x := by
  induction turns generalizing k c with
  | nil => simp [outcomes]
  | cons t rest ih =>
    have hstep : Gives (e.stream constant k) _ t.world (c.turn t) := h.step t.world
    obtain ⟨failure, -, hnone⟩ | ⟨x, hx, -, hnext⟩ := hstep.cases
    · have hk := hsome k
      rw [hnone] at hk
      cases hk
    · rw [outcomes, List.forall_mem_cons]
      exact ⟨⟨x, hx⟩, ih hnext⟩

theorem stream_literals (constant : Identifier → Option Int) {b : Bounds} (h : b.increment ≠ 0)
    (k : Nat) :
    (Expr.sequence (.literal b.first) (.literal b.last) (.literal b.increment)).stream constant k =
      some ⟨b.value (k % b.count), decide (k % b.count + 1 = b.count)⟩ := by
  have hbounds : Expr.bounds constant (.literal b.first) (.literal b.last) (.literal b.increment) =
      fun _ => some b := by
    funext k
    simp [Expr.bounds, Bounds.ofReadings?, Expr.stream, h]
  rw [Expr.stream_sequence, hbounds, progression_const h]

/-- The turns of a sequence over three literals all succeed, with readings that go round. -/
theorem Stands.outcome_literals {constant : Identifier → Option Int} {b : Bounds}
    (h : b.increment ≠ 0) {c : Cell}
    (hc : Stands constant (.sequence (.literal b.first) (.literal b.last) (.literal b.increment)) 0
      c) (turns : List Turn) (t : Turn) :
    ((c.afterTurns turns).turn t).outcome =
      .ok ⟨b.value (turns.length % b.count), decide (turns.length % b.count + 1 = b.count)⟩ := by
  have hstream := stream_literals constant h
  have hok := hc.outcomes_eq_ok (fun j => by rw [hstream j]; rfl) turns
  have hafter := hc.afterTurns hok
  rw [Nat.zero_add] at hafter
  have hgives : Gives _ _ t.world ((c.afterTurns turns).turn t) := hafter.step t.world
  rw [hstream] at hgives
  obtain ⟨failure, -, hnone⟩ | ⟨x, hx, hsome, -⟩ := hgives.cases
  · cases hnone
  · cases hsome
    exact hx

/-- Runs that end with a reset leave nothing in a new cell. -/
theorem afterRuns_of_reset {c : Cell} (h : c.reset = c) (runs : List (List Turn)) :
    c.afterRuns runs = c := by
  cases runs with
  | nil => rfl
  | cons first rest => rw [afterRuns_cons, h]

/-! ## Sequences over any operands -/

/-- The operands that a sequence sees in a turn, if none of them fails and the increment is not
zero. -/
def bounds? (t : Turn) : Cell → Option Bounds
  | sequence first last increment _ _ =>
    let s := first.turn t
    let s' := last.turn { t with world := s.world }
    let s'' := increment.turn { t with world := s'.world }
    Bounds.ofReadings? s.outcome.toOption s'.outcome.toOption s''.outcome.toOption
  | _ => none

/-- The progression and the report of a sequence. -/
def At (p : Progress) (r : Report) : Cell → Prop
  | sequence _ _ _ p' r' => p' = p ∧ r' = r
  | _ => False

/-- A sequence moves on by the operands that it sees. In a turn without, it fails and stays where it
is. -/
theorem At.turn {c : Cell} {p : Progress} {r : Report} (h : c.At p r) (t : Turn) :
    match c.bounds? t with
    | none => (∃ failure, (c.turn t).outcome = .error failure) ∧ (c.turn t).after.At p r
    | some b =>
      let moved := p.advance r.ready b.first b.last b.increment
      (c.turn t).outcome = .ok moved.1 ∧ (c.turn t).after.At moved.2 (.ofReading moved.1) := by
  cases c with
  | sequence first last increment p' r' =>
    obtain ⟨rfl, rfl⟩ := h
    simp only [Cell.turn, step, bounds?, Bounds.ofReadings?]
    cases (first.step t.advance t.world).outcome with
    | error failure => exact ⟨⟨failure, rfl⟩, rfl, rfl⟩
    | ok a =>
      cases (last.step t.advance (first.step t.advance t.world).world).outcome with
      | error failure => exact ⟨⟨failure, rfl⟩, rfl, rfl⟩
      | ok b =>
        simp only [Except.toOption, Option.bind_eq_bind, Option.bind_some]
        cases (increment.step t.advance
            (last.step t.advance (first.step t.advance t.world).world).world).outcome with
        | error failure => exact ⟨⟨failure, rfl⟩, rfl, rfl⟩
        | ok d =>
          by_cases hzero : d.value = 0
          · simp only [if_pos hzero, Option.bind_some]
            exact ⟨⟨_, rfl⟩, rfl, rfl⟩
          · simp only [if_neg hzero, Option.bind_some]
            exact ⟨trivial, rfl, rfl⟩
  | _ => cases h

/-- A sequence that gives a reading has seen its operands. -/
theorem At.turn_ok {c : Cell} {p : Progress} {r : Report} (h : c.At p r) {t : Turn} {x : Reading}
    (hx : (c.turn t).outcome = .ok x) :
    ∃ b, c.bounds? t = some b ∧ x = (p.advance r.ready b.first b.last b.increment).1 ∧
      (c.turn t).after.At (p.advance r.ready b.first b.last b.increment).2 (.ofReading x) := by
  have hturn := h.turn t
  rw [hx] at hturn
  split at hturn
  · obtain ⟨⟨failure, hfailure⟩, -⟩ := hturn
    cases hfailure
  · rename_i b hb
    obtain ⟨hmoved, hafter⟩ := hturn
    cases hmoved
    exact ⟨b, hb, rfl, hafter⟩

/-- Turns that fail do not move a sequence on. -/
theorem At.afterTurns {c : Cell} {p : Progress} {r : Report} (h : c.At p r) {turns : List Turn}
    (hfailed : ∀ o ∈ c.outcomes turns, ∃ failure, o = .error failure) :
    (c.afterTurns turns).At p r := by
  induction turns generalizing c with
  | nil => exact h
  | cons t rest ih =>
    rw [outcomes, List.forall_mem_cons] at hfailed
    obtain ⟨⟨failure, hfailure⟩, hrest⟩ := hfailed
    have hturn := h.turn t
    split at hturn
    · exact ih hturn.2 hrest
    · rw [hfailure] at hturn
      cases hturn.1

/-- The law of sequences. Over three literals with an increment that is not zero, from a new cell or
from a reset on, the values go round from the first value in steps of the size of the increment, in
the direction of the last value and as far as they do not lie beyond it; and the last of each round
is done. Over any operands, as they are seen in a turn that succeeds, the value does not lie beyond
the last one, and it is done exactly if the value one step behind it does. The next turn in which
the same operands are seen starts again at the first value if this one was done, and has the value
one step behind this one if not. -/
theorem sequence_law :
    (∀ first last increment : Int, increment ≠ 0 →
      ∀ (scope : Scope) (use : Scope.Use) (position? : Option Position),
        let b : Bounds := ⟨first, last, increment⟩
        ∃ c, scope.buildCell use position?
            (.sequence (.literal first) (.literal last) (.literal increment)) = .ok c ∧
          ∀ (runs : List (List Turn)) (turns : List Turn) (t : Turn),
            (((c.afterRuns runs).afterTurns turns).turn t).outcome =
              .ok ⟨first + b.direction * increment.natAbs * (turns.length % b.count : Nat),
                decide (turns.length % b.count + 1 = b.count)⟩) ∧
    ∀ (first last increment : Cell) (p : Progress) (r : Report) (t : Turn) (x : Reading),
      let c := sequence first last increment p r
      (c.turn t).outcome = .ok x →
        ∃ b, c.bounds? t = some b ∧ b.beyond x.value = false ∧
          x.done = b.beyond (b.behind x.value) ∧
          ∀ (turns : List Turn) (t' : Turn),
            (∀ o ∈ (c.turn t).after.outcomes turns, ∃ failure, o = .error failure) →
            ((c.turn t).after.afterTurns turns).bounds? t' = some b →
            ∃ y, (((c.turn t).after.afterTurns turns).turn t').outcome = .ok y ∧
              y.value = if x.done then b.first else b.behind x.value := by
  constructor
  · intro first last increment hincrement scope use position? b
    obtain ⟨c, hc, hstands⟩ : ∃ c, scope.buildCell use position?
        (.sequence (.literal first) (.literal last) (.literal increment)) = .ok c ∧
        Stands (scope.constant? use)
          (.sequence (.literal first) (.literal last) (.literal increment)) 0 c :=
      exists_build_of_closed (fun _ _ => bind_of_constant?)
        (.sequence (.literal first) (.literal last) (.literal increment))
    refine ⟨c, hc, fun runs turns t => ?_⟩
    rw [afterRuns_of_reset (reset_buildCell hc)]
    exact Stands.outcome_literals (b := b) hincrement hstands turns t
  · intro first last increment p r t x c hx
    have hat : c.At p r := ⟨rfl, rfl⟩
    obtain ⟨b, hb, rfl, hafter⟩ := hat.turn_ok hx
    refine ⟨b, hb, p.not_beyond_advance r.ready b, ?_, fun turns t' hfailed hb' => ?_⟩
    · rw [Progress.advance_eq]
    · have hnext := (hafter.afterTurns hfailed).turn t'
      rw [hb'] at hnext
      exact ⟨_, hnext.1, p.value_advance_advance r.ready b⟩

/-- A descending sequence that does not meet its last value, in its fifth step; and one whose last
value is given by a pattern, in its second. -/
theorem sequence_law_descending :
    (∃ c, ({} : Scope).buildCell {} none
        (.sequence (.literal 5) (.literal (-4)) (.literal 4)) = .ok c ∧
      ∀ t₀ t₁ t₂ t₃ t : Turn,
        ((c.afterTurns [t₀, t₁, t₂, t₃]).turn t).outcome = .ok ⟨1, false⟩) ∧
    let limits : Cell := choice (.pattern 0)
      [leaf (.literal 1) {}, leaf (.literal 1) {}, leaf (.literal (-9)) {}] {}
    let c : Cell := sequence (leaf (.literal 0) {}) limits (leaf (.literal 2) {}) {} {}
    ∀ t t' : Turn, (c.turn t).outcome = .ok ⟨0, true⟩ ∧
      ∃ y, ((c.turn t).after.turn t').outcome = .ok y ∧ y.value = 0 := by
  obtain ⟨hliterals, hoperands⟩ := sequence_law
  constructor
  · obtain ⟨c, hc, hlaw⟩ := hliterals 5 (-4) 4 (by decide) {} {} none
    have hcount : (⟨5, -4, 4⟩ : Bounds).count = 3 := by decide
    refine ⟨c, hc, fun t₀ t₁ t₂ t₃ t => ?_⟩
    simpa [hcount, Bounds.direction, afterRuns] using hlaw [] [t₀, t₁, t₂, t₃] t
  · intro limits c t t'
    refine ⟨rfl, ?_⟩
    obtain ⟨b, hb, -, -, hnext⟩ :=
      hoperands (leaf (.literal 0) {}) limits (leaf (.literal 2) {}) {} {} t ⟨0, true⟩ rfl
    cases hb
    exact hnext [] t' (by simp [outcomes]) rfl

end Cell

end Stimulus
