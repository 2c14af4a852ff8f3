import Mathlib.Data.BitVec
import Mathlib.Logic.Function.Iterate
import Mathlib.Tactic.Ring
import Stimulus.Random.Philox

/-!
# The blocks of the counter

The factors are odd and so a round can be taken back. The counter generator thus enciphers its
counts to all blocks, and as the counter runs through all counts, every word comes up again and
again.
-/
namespace Stimulus.Random.Philox

/-- The words that the factors take to one. -/
def firstInverse : UInt64 := 0x6C6D4A4B2DB9919B

def secondInverse : UInt64 := 0x17DF77E820BB6A67

theorem firstFactor_mul_inverse : firstFactor * firstInverse = 1 := by decide

theorem secondFactor_mul_inverse : secondFactor * secondInverse = 1 := by decide

theorem xor_xor_xor_cancel (x y z : UInt64) : x ^^^ (x ^^^ y ^^^ z) ^^^ z = y := by
  simp only [UInt64.xor_assoc, UInt64.xor_self, UInt64.xor_zero]
  rw [← UInt64.xor_assoc, UInt64.xor_self, UInt64.zero_xor]

/-- The factors give back the words that they have multiplied; with these the rest can be seen
through. -/
theorem round_surjective (key : UInt64 × UInt64) : Function.Surjective (round key) := by
  intro block
  have ha : firstFactor * (firstInverse * block.d) = block.d := by
    rw [← UInt64.mul_assoc, firstFactor_mul_inverse, UInt64.one_mul]
  have hc : secondFactor * (secondInverse * block.b) = block.b := by
    rw [← UInt64.mul_assoc, secondFactor_mul_inverse, UInt64.one_mul]
  refine ⟨⟨firstInverse * block.d,
    highWord secondFactor (secondInverse * block.b) ^^^ block.a ^^^ key.1,
    secondInverse * block.b,
    highWord firstFactor (firstInverse * block.d) ^^^ block.c ^^^ key.2⟩, ?_⟩
  simp only [round, ha, hc, xor_xor_xor_cancel]

theorem encipher_surjective (key : UInt64 × UInt64) (count : Nat) :
    Function.Surjective fun block => encipher key block count := by
  induction count generalizing key with
  | zero => exact fun block => ⟨block, rfl⟩
  | succ count ih => exact (ih (nextKey key)).comp (round_surjective key)

theorem ofCounter_append (a b c d : UInt64) :
    Block.ofCounter (d.toBitVec ++ (c.toBitVec ++ (b.toBitVec ++ a.toBitVec))) = ⟨a, b, c, d⟩ := by
  unfold Block.ofCounter
  congr
  · rw [BitVec.extractLsb'_append_eq_of_add_le (by omega),
      BitVec.extractLsb'_append_eq_of_add_le (by omega), BitVec.extractLsb'_append_eq_right]
  · rw [BitVec.extractLsb'_append_eq_of_add_le (by omega),
      BitVec.extractLsb'_append_eq_of_add_le (by omega), BitVec.extractLsb'_append_eq_left]
  · rw [BitVec.extractLsb'_append_eq_of_add_le (by omega), BitVec.extractLsb'_append_eq_left]
  · rw [BitVec.extractLsb'_append_eq_left]

theorem ofCounter_surjective : Function.Surjective Block.ofCounter :=
  fun ⟨a, b, c, d⟩ => ⟨_, ofCounter_append a b c d⟩

/-- The block of a count under a key. -/
def blockAt (key : UInt64 × UInt64) (counter : BitVec 256) : Block :=
  encipher key (Block.ofCounter counter) rounds

theorem blockAt_surjective (key : UInt64 × UInt64) : Function.Surjective (blockAt key) :=
  (encipher_surjective key rounds).comp ofCounter_surjective

/-- The generator behind its next word. -/
def skip (g : Philox) : Philox := g.next.2

/-- The words that are ready are handed out before the next count. -/
theorem exists_ready_eq_nil (g : Philox) : ∃ n, skip^[n] g = { g with ready := [] } := by
  obtain ⟨key, counter, ready⟩ := g
  induction ready with
  | nil => exact ⟨0, rfl⟩
  | cons word rest ih =>
    obtain ⟨n, hn⟩ := ih
    exact ⟨n + 1, hn⟩

theorem skip_four {g : Philox} (h : g.ready = []) :
    skip^[4] g = { g with counter := g.counter + 1 } := by
  obtain ⟨key, counter, ready⟩ := g
  cases h
  rfl

theorem skip_four_mul {g : Philox} (h : g.ready = []) (n : Nat) :
    skip^[4 * n] g = { g with counter := g.counter + BitVec.ofNat 256 n } := by
  induction n with
  | zero => simp
  | succ n ih =>
    have hready : (skip^[4 * n] g).ready = [] := by rw [ih, h]
    rw [Nat.mul_succ, Nat.add_comm, Function.iterate_add_apply, skip_four hready, ih]
    simp [BitVec.ofNat_add, BitVec.add_assoc]

theorem next_fst {g : Philox} (h : g.ready = []) :
    g.next.1 = (blockAt g.key (g.counter + 1)).a := by
  unfold next
  rw [h]
  rfl

/-- Every word comes up behind every state, as the first word of a block. -/
theorem exists_next_eq (g : Philox) (w : UInt64) : ∃ n, (skip^[n] g).next.1 = w := by
  obtain ⟨drained, hdrained⟩ := exists_ready_eq_nil g
  obtain ⟨counter, hcounter⟩ := blockAt_surjective g.key ⟨w, 0, 0, 0⟩
  have hcount : g.counter + BitVec.ofNat 256 (counter - 1 - g.counter).toNat + 1 = counter := by
    rw [BitVec.ofNat_toNat, BitVec.setWidth_eq]
    ring
  refine ⟨4 * (counter - 1 - g.counter).toNat + drained, ?_⟩
  rw [Function.iterate_add_apply, hdrained, skip_four_mul rfl, next_fst rfl]
  show (blockAt g.key (g.counter + BitVec.ofNat 256 (counter - 1 - g.counter).toNat + 1)).a = w
  rw [hcount, hcounter]

end Stimulus.Random.Philox
