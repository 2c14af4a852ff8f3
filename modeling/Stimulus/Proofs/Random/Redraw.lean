import Mathlib.Logic.Function.Conjugate
import Stimulus.Proofs.Random.Counting
import Stimulus.Proofs.Random.Cycle
import Stimulus.Proofs.Random.Shares
import Stimulus.Proofs.Random.Stream

/-!
# Draws that end

A draw takes words until one is accepted. Every word comes up behind every place of a stream, and so
every draw ends. A source has given the value of the first word that was accepted, and stands behind
that word.
-/
namespace Stimulus.Random

namespace Generator

/-- The generator behind its next word. -/
def skip (g : Generator) : Generator := g.next.2

@[simp] theorem skip_philox (g : Philox) : skip (philox g) = philox g.skip := rfl

@[simp] theorem skip_pcg (g : Pcg) : skip (pcg g) = pcg g.step := rfl

theorem iterate_skip_philox (g : Philox) (n : Nat) :
    skip^[n] (philox g) = philox (Philox.skip^[n] g) := by
  induction n generalizing g with
  | zero => rfl
  | succ n ih => rw [Function.iterate_succ_apply, skip_philox, ih, Function.iterate_succ_apply]

theorem iterate_skip_pcg (g : Pcg) (n : Nat) : skip^[n] (pcg g) = pcg (Pcg.step^[n] g) := by
  induction n generalizing g with
  | zero => rfl
  | succ n ih => rw [Function.iterate_succ_apply, skip_pcg, ih, Function.iterate_succ_apply]

theorem exists_next_eq (g : Generator) (w : UInt64) : ∃ n, (skip^[n] g).next.1 = w := by
  cases g with
  | philox g =>
    obtain ⟨n, hn⟩ := g.exists_next_eq w
    exact ⟨n, by rw [iterate_skip_philox]; exact hn⟩
  | pcg g =>
    obtain ⟨n, hn⟩ := g.exists_next_eq w
    exact ⟨n, by rw [iterate_skip_pcg]; exact hn⟩

end Generator

namespace Source

/-- The source behind its next word of the given size. -/
def behind (size : WordSize) (s : Source) : Source := (s.word size).2

theorem generator_iterate_behind_full (s : Source) (n : Nat) :
    ((behind .full)^[n] s).position.generator = Generator.skip^[n] s.position.generator := by
  induction n generalizing s with
  | zero => rfl
  | succ n ih => exact ih (s.behind .full)

/-- Without a half that is left, two halves make up one word of the generator. -/
theorem iterate_behind_half_two {s : Source} (h : s.position.spare? = none) :
    (behind .half)^[2] s = { s with position := ⟨s.position.generator.skip, none⟩ } := by
  obtain ⟨seed, generator, spare?⟩ := s
  cases h
  rfl

theorem iterate_behind_half {s : Source} (h : s.position.spare? = none) (n : Nat) :
    (behind .half)^[2 * n] s =
      { s with position := ⟨Generator.skip^[n] s.position.generator, none⟩ } := by
  induction n generalizing s with
  | zero =>
    obtain ⟨seed, generator, spare?⟩ := s
    cases h
    rfl
  | succ n ih =>
    rw [Nat.mul_succ, Function.iterate_add_apply, iterate_behind_half_two h, ih rfl]
    rfl

theorem exists_spare_eq_none (s : Source) : ∃ n, ((behind .half)^[n] s).position.spare? = none := by
  obtain ⟨seed, generator, _ | spare⟩ := s
  · exact ⟨0, rfl⟩
  · exact ⟨1, rfl⟩

theorem exists_halfWord_eq (s : Source) {w : Nat} (hw : w < 1 <<< WordSize.half.bits) :
    ∃ n, (((behind .half)^[n] s).word .half).1 = w := by
  obtain ⟨n, hn⟩ := exists_spare_eq_none s
  obtain ⟨m, hm⟩ := Generator.exists_next_eq ((behind .half)^[n] s).position.generator (.ofNat w)
  refine ⟨2 * m + n, ?_⟩
  rw [Function.iterate_add_apply, iterate_behind_half hn]
  have hword : w < 2 ^ 64 := hw.trans (by decide)
  show ((Generator.skip^[m] _).next.1.toUInt32).toNat = w
  rw [hm, UInt64.toNat_toUInt32, UInt64.toNat_ofNat_of_lt' hword]
  exact Nat.mod_eq_of_lt hw

theorem exists_fullWord_eq (s : Source) {w : Nat} (hw : w < 1 <<< WordSize.full.bits) :
    ∃ n, (((behind .full)^[n] s).word .full).1 = w := by
  obtain ⟨n, hn⟩ := Generator.exists_next_eq s.position.generator (.ofNat w)
  refine ⟨n, ?_⟩
  show (((behind .full)^[n] s).position.generator.next.1).toNat = w
  rw [generator_iterate_behind_full, hn]
  exact UInt64.toNat_ofNat_of_lt' hw

/-- Every word comes up behind every place of every stream. -/
theorem exists_word_eq (size : WordSize) (s : Source) {w : Nat} (hw : w < 1 <<< size.bits) :
    ∃ n, (((behind size)^[n] s).word size).1 = w := by
  cases size with
  | half => exact exists_halfWord_eq s hw
  | full => exact exists_fullWord_eq s hw

/-- The first word of `s` that is accepted gives `v`, and `t` stands behind it. -/
inductive Yields (size : WordSize) (count : Nat) : Source → Nat → Source → Prop
  | accepted {s : Source} {v : Nat} (h : attempt size.bits count (s.word size).1 = some v) :
    Yields size count s v (s.behind size)
  | rejected {s t : Source} {v : Nat} (h : attempt size.bits count (s.word size).1 = none)
    (later : Yields size count (s.behind size) v t) : Yields size count s v t

theorem exists_yields_of_accepted {size : WordSize} {count n v : Nat} {s : Source}
    (h : attempt size.bits count (((behind size)^[n] s).word size).1 = some v) :
    ∃ v t, Yields size count s v t := by
  induction n generalizing s with
  | zero => exact ⟨v, _, .accepted h⟩
  | succ n ih =>
    cases hfirst : attempt size.bits count (s.word size).1 with
    | some first => exact ⟨first, _, .accepted hfirst⟩
    | none =>
      obtain ⟨later, t, hlater⟩ := ih h
      exact ⟨later, t, .rejected hfirst hlater⟩

/-- Every draw ends. -/
theorem exists_yields {size : WordSize} {count : Nat} (hpos : 0 < count)
    (hle : count ≤ 1 <<< size.bits) (s : Source) : ∃ v t, Yields size count s v t := by
  obtain ⟨word, hword, v, hv⟩ := exists_attempt_eq_some hpos hle
  obtain ⟨n, hn⟩ := exists_word_eq size s hword
  exact exists_yields_of_accepted (by rw [hn]; exact hv)

section

variable {size : WordSize} {count v : Nat} [Nonempty (Fin count)] {s : Source}

theorem attemptFrom_of_accepted (t : {t // s.Follows t})
    (h : attempt size.bits count (t.1.word size).1 = some v) :
    ∃ drawn, attemptFrom size count s t = .inr drawn ∧ drawn.value = v ∧
      drawn.source = t.1.behind size := by
  unfold attemptFrom
  split
  · rename_i other hother
    rw [h] at hother
    cases hother
    exact ⟨_, rfl, rfl, rfl⟩
  · rename_i hnone
    rw [h] at hnone
    cases hnone

theorem attemptFrom_of_rejected (t : {t // s.Follows t})
    (h : attempt size.bits count (t.1.word size).1 = none) :
    attemptFrom size count s t = .inl ⟨t.1.behind size, t.2.trans (follows_word size t.1)⟩ := by
  unfold attemptFrom
  split
  · rename_i other hother
    rw [h] at hother
    cases hother
  · rfl

theorem redraw_of_yields {t u : Source} (ht : s.Follows t) (h : Yields size count t v u) :
    (redraw size count s ⟨t, ht⟩).value = v ∧ (redraw size count s ⟨t, ht⟩).source = u := by
  induction h with
  | accepted h =>
    obtain ⟨drawn, hdrawn, hvalue, hsource⟩ := attemptFrom_of_accepted ⟨_, ht⟩ h
    rw [redraw_eq, hdrawn]
    exact ⟨hvalue, hsource⟩
  | rejected h _ ih =>
    rw [redraw_eq, attemptFrom_of_rejected ⟨_, ht⟩ h]
    exact ih _

theorem below_eq_redraw : s.below count = redraw (.fitting count) count s ⟨s, .refl s⟩ :=
  (redraw_eq (.fitting count) count s ⟨s, .refl s⟩).symm

theorem below_of_yields {t : Source} (h : Yields (.fitting count) count s v t) :
    (s.below count).value = v ∧ (s.below count).source = t := by
  rw [below_eq_redraw]
  exact redraw_of_yields _ h

end

end Source

end Stimulus.Random
