import Stimulus.Proofs.Cell.Turns

/-!
# Samplers without replacement play rounds

Cut the list of completed play-outs of a sampler without replacement into blocks of the size of its
bag. Every full block is a round: it has each member as often as there are copies of it. The sampler
is done exactly when a block is full, and a turn that fails leaves the account as it was.
-/
namespace Stimulus

open Stimulus.Random Stimulus.Sampling

/-- The samplers without replacement, with the number of copies of each member. The total of weights
is a signed number of 64 bits. -/
inductive Expr.Depletes : Expr → List Nat → Prop
  | pool (members : List Expr) : Depletes (.pool members) (members.map fun _ => 1)
  | weightedPool (members : List (Int × Expr))
      (hfits : totalWeight (Expr.weights members) ≤ Source.greatestSigned) :
      Depletes (.weightedPool members) ((Expr.weights members).map Int.toNat)

namespace Cell

/-- The block of a list at a place, where all blocks but the last have the same size. -/
def block (size k : Nat) (played : List Nat) : List Nat := (played.drop (k * size)).take size

/-- The account of a sampler's turns, with the number of copies of each member. -/
structure InRounds (quotas : List Nat) (start : Cell) (turns : List Turn) : Prop where
  /-- A full block has each member as often as there are copies of it. -/
  full_block : ∀ k i, (k + 1) * quotas.sum ≤ (start.playedOut turns).length →
    (block quotas.sum k (start.playedOut turns)).count i = quotas.getD i 0
  /-- No block has a member more often. -/
  any_block : ∀ k i, (block quotas.sum k (start.playedOut turns)).count i ≤ quotas.getD i 0
  /-- What the open block lacks is owed. -/
  open_block : ∀ i,
    (block quotas.sum ((start.playedOut turns).length / quotas.sum)
      (start.playedOut turns)).count i + (start.afterTurns turns).owed.count i = quotas.getD i 0
  /-- The sampler is done in those turns that complete a block. -/
  done_iff : ∀ before t after, turns = before ++ t :: after →
    ((∃ x, ((start.afterTurns before).turn t).outcome = .ok x ∧ x.done = true) ↔
      (start.afterTurns before).playedOut? t ≠ none ∧
        quotas.sum ∣ (start.playedOut (before ++ [t])).length)
  /-- A member that has been drawn is stepped in every turn until it is done. -/
  pending : ∀ before t after, turns = before ++ t :: after →
    ∀ i, (start.afterTurns before).pending? = some i →
      (start.afterTurns before).selected? t = some i
  /-- A turn that fails plays nothing out; as much is owed as before it, and the member that it
  stepped stays selected. -/
  failed : ∀ before t after, turns = before ++ t :: after →
    ∀ failure, ((start.afterTurns before).turn t).outcome = .error failure →
      (start.afterTurns before).playedOut? t = none ∧
        ((start.afterTurns before).turn t).after.owed = (start.afterTurns before).owed ∧
        ((start.afterTurns before).turn t).after.pending? = (start.afterTurns before).selected? t

theorem selected?_of_pending? {c : Cell} {t : Turn} {i : Nat} (h : c.pending? = some i) :
    c.selected? t = some i := by
  cases c with
  | choice chooser members r =>
    obtain ⟨ticket, hticket, rfl⟩ := Option.map_eq_some_iff.mp h
    have hheld := Chooser.held?_of_ticket hticket
    rw [selected?, Chooser.select_of_held hheld]
    rfl
  | _ => cases h

/-- A sampler whose full bag is before it plays rounds. -/
theorem Fair.inRounds {c : Cell} {quotas : List Nat} (h : c.Fair (bag quotas))
    (howed : c.owed = bag quotas) (hbag : bag quotas ≠ 0) (turns : List Turn) :
    c.InRounds quotas turns := by
  have hrounds := h.rounds howed turns
  refine ⟨?_, ?_, ?_, ?_, fun _ _ _ _ _ hi => selected?_of_pending? hi, ?_⟩
  · intro k i hk
    rw [← card_bag] at hk ⊢
    rw [block, ← Multiset.coe_count, hrounds.block_eq_full hbag hk, count_bag]
  · intro k i
    rw [← card_bag, block, ← Multiset.coe_count, ← count_bag]
    exact Multiset.count_le_of_le i (hrounds.block_le_full hbag k)
  · intro i
    have hmod := Nat.mod_lt (c.playedOut turns).length (Multiset.card_pos.mpr hbag)
    have hdiv := Nat.div_add_mod' (c.playedOut turns).length (bag quotas).card
    rw [← card_bag, block, List.take_of_length_le, ← Multiset.coe_count, ← Multiset.count_add,
      hrounds.open_add_left hbag, count_bag]
    rw [List.length_drop]
    omega
  · intro before t after _
    rw [← card_bag]
    exact h.done_iff howed hbag before t
  · intro before t after _ failure hfailure
    have hfair := (h.deals before).2
    obtain ⟨hplayed, hpending⟩ := hfair.turn_failed t hfailure
    exact ⟨hplayed, (hfair.turn_pending t hplayed).2.1, hpending⟩

variable {bind : Identifier → Except Error Cell}

/-- A sampler without replacement is built with its full bag before it. -/
theorem fair_of_build {e : Expr} {quotas : List Nat} (he : e.Depletes quotas) {c : Cell}
    (hb : build bind e = .ok c) :
    bag quotas ≠ 0 ∧ ∃ chooser members, c = choice chooser members {} ∧
      chooser.reset = chooser ∧ chooser.Fair (bag quotas) ∧ chooser.owed = bag quotas := by
  cases he with
  | pool members =>
    obtain ⟨cells, hcells, hb⟩ := bind_eq_ok hb
    obtain ⟨chooser, hchooser, rfl⟩ := choose_eq_ok hb
    obtain ⟨hpos, rfl⟩ := Chooser.ofPool_eq_ok hchooser
    rw [List.map_const', (buildMembers_eq_ok hcells).length_eq]
    refine ⟨?_, _, cells, rfl, rfl, Chooser.fair_pool_full cells.length⟩
    rw [← Multiset.card_pos, card_bag, List.sum_replicate_nat]
    omega
  | weightedPool members hfits =>
    obtain ⟨cells, -, hb⟩ := bind_eq_ok hb
    obtain ⟨chooser, hchooser, rfl⟩ := choose_eq_ok hb
    obtain ⟨p, hp, rfl⟩ := Chooser.ofWeightedPool_eq_ok hchooser
    obtain ⟨hweights, -, htotal, rfl⟩ := WeightedPool.ofWeights_eq_ok hp
    exact ⟨htotal ∘ (copiesOf_eq_zero_iff hweights).mp, _, cells, rfl, rfl,
      Chooser.fair_weightedPool_full hweights hfits⟩

/-- A sampler without replacement plays rounds from when it is built, and anew after every reset. -/
theorem inRounds_of_build {e : Expr} {quotas : List Nat} (he : e.Depletes quotas) {c : Cell}
    (hb : build bind e = .ok c) (runs : List (List Turn)) (turns : List Turn) :
    (c.afterRuns runs).InRounds quotas turns := by
  obtain ⟨hbag, chooser, members, rfl, hreset, hfair, howed⟩ := fair_of_build he hb
  cases runs with
  | nil => exact Fair.inRounds (c := choice chooser members {}) hfair howed hbag turns
  | cons earlier rest =>
    rw [afterRuns_cons, reset, hreset]
    exact Fair.inRounds (c := choice chooser (resetMembers members) {}) hfair howed hbag turns

/-- Rounds of a bag with two copies of a literal, none of another one and one copy of a pattern
whose second member steps a variable; some of these steps fail. -/
theorem inRounds_of_build_pattern :
    let ref : Identifier := { path := "x", access? := some .next }
    let bind : Identifier → Except Error Cell := fun ref => .ok (.leaf (.next ref "x" 0) {})
    let members := [(2, .literal 5), (0, .literal 6), (1, .pattern [.literal 7, .reference ref])]
    let source := Source.ofSeed .philox 11
    let failing : Turn := ⟨fun _ w => (.error (.fault .negativeShift), w), { cells := #[], source }⟩
    let stepping : Turn := ⟨fun _ w => (.ok ⟨3, true⟩, w), { cells := #[], source }⟩
    (Expr.weightedPool members).Depletes [2, 0, 1] ∧
      ∃ c, build bind (.weightedPool members) = .ok c ∧
        (c.afterRuns [[stepping, failing]]).InRounds [2, 0, 1]
          [failing, failing, stepping, failing, stepping] := by
  intro ref bind members source failing stepping
  have he : (Expr.weightedPool members).Depletes [2, 0, 1] := .weightedPool members (by decide)
  have hb : build bind (.weightedPool members) = .ok _ := rfl
  exact ⟨he, _, hb, inRounds_of_build he hb _ _⟩

end Cell

end Stimulus
