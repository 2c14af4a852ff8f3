import Mathlib.Algebra.GroupWithZero.Nat
import Mathlib.Algebra.Order.Group.Multiset
import Mathlib.Data.Multiset.Replicate

/-!
# Rounds

A bag holds copies of members. Dealing takes them out one by one, in any order; with the last copy
a round ends, and the next one starts with the full bag. What has been dealt and what is still owed
add up to whole bags, and that fixes every round.
-/
namespace Stimulus.Sampling

/-- The bag with so many copies of each member, from member `first` on. -/
def bagFrom (first : Nat) : List Nat → Multiset Nat
  | [] => 0
  | quota :: rest => Multiset.replicate quota first + bagFrom (first + 1) rest

/-- The bag with so many copies of each member. -/
def bag (quotas : List Nat) : Multiset Nat := bagFrom 0 quotas

theorem count_bagFrom (first i : Nat) (quotas : List Nat) :
    (bagFrom first quotas).count i = if i < first then 0 else quotas.getD (i - first) 0 := by
  induction quotas generalizing first with
  | nil => simp [bagFrom]
  | cons quota rest ih =>
    rw [bagFrom, Multiset.count_add, Multiset.count_replicate, ih]
    obtain hlt | rfl | hgt := Nat.lt_trichotomy i first
    · rw [if_neg (by omega), if_pos (by omega), if_pos hlt]
    · simp
    · obtain ⟨d, rfl⟩ := Nat.exists_eq_add_of_lt hgt
      rw [if_neg (by omega), if_neg (by omega), if_neg (by omega)]
      rw [show first + d + 1 - (first + 1) = d by omega,
        show first + d + 1 - first = d + 1 by omega]
      simp

@[simp] theorem count_bag (quotas : List Nat) (i : Nat) :
    (bag quotas).count i = quotas.getD i 0 := by
  simp [bag, count_bagFrom]

theorem card_bagFrom (first : Nat) (quotas : List Nat) :
    (bagFrom first quotas).card = quotas.sum := by
  induction quotas generalizing first with
  | nil => rfl
  | cons quota rest ih => simp [bagFrom, ih]

@[simp] theorem card_bag (quotas : List Nat) : (bag quotas).card = quotas.sum :=
  card_bagFrom 0 quotas

/-- The bag with one copy of each member. -/
theorem bag_replicate_one (size : Nat) :
    bag (List.replicate size 1) = (List.range size : Multiset Nat) := by
  ext i
  rw [count_bag, Multiset.coe_count, List.count_range, List.getD_eq_getElem?_getD,
    List.getElem?_replicate]
  split <;> rfl

/-- What is owed after a member has been dealt; a new round owes the full bag. -/
def owedAfter (full owed : Multiset Nat) (i : Nat) : Multiset Nat :=
  if owed.erase i = 0 then full else owed.erase i

/-- A new round begins with the last copy of the old one, and only then. -/
theorem owedAfter_eq_full_iff {full owed : Multiset Nat} {i : Nat} (hi : i ∈ owed)
    (hle : owed ≤ full) : owedAfter full owed i = full ↔ owed.erase i = 0 := by
  unfold owedAfter
  split
  · exact iff_of_true rfl ‹_›
  · refine iff_of_false (fun hfull => ?_) ‹_›
    have hcard := Multiset.card_erase_lt_of_mem hi
    rw [hfull] at hcard
    exact absurd (Multiset.card_le_card hle) (Nat.not_le_of_lt hcard)

theorem owedAfter_le {full owed : Multiset Nat} (hle : owed ≤ full) (i : Nat) :
    owedAfter full owed i ≤ full := by
  unfold owedAfter
  split
  · exact le_rfl
  · exact (Multiset.erase_le i owed).trans hle

/-- Members that are dealt one after the other, each while it is owed, and what is owed then. -/
inductive Deals (full : Multiset Nat) : Multiset Nat → List Nat → Multiset Nat → Prop
  | nil {owed : Multiset Nat} : Deals full owed [] owed
  | cons {owed left : Multiset Nat} {i : Nat} {dealt : List Nat} (hi : i ∈ owed)
      (h : Deals full (owedAfter full owed i) dealt left) : Deals full owed (i :: dealt) left

namespace Deals

variable {full owed left : Multiset Nat} {dealt : List Nat}

/-- A dealing stops in the middle at what is still owed there. -/
theorem split {xs ys : List Nat} (h : Deals full owed (xs ++ ys) left) :
    ∃ mid, Deals full owed xs mid ∧ Deals full mid ys left := by
  induction xs generalizing owed with
  | nil => exact ⟨owed, .nil, h⟩
  | cons x xs ih =>
    cases h with
    | cons hi h =>
      obtain ⟨mid, hxs, hys⟩ := ih h
      exact ⟨mid, .cons hi hxs, hys⟩

theorem left_le (h : Deals full owed dealt left) (hle : owed ≤ full) : left ≤ full := by
  induction h with
  | nil => exact hle
  | cons _ _ ih => exact ih (owedAfter_le hle _)

theorem left_ne_zero (h : Deals full owed dealt left) (hfull : full ≠ 0) (howed : owed ≠ 0) :
    left ≠ 0 := by
  induction h with
  | nil => exact howed
  | cons _ _ ih =>
    refine ih ?_
    unfold owedAfter
    split
    · exact hfull
    · assumption

/-- What has been dealt and what is still owed make up what was owed at first and whole bags. -/
theorem conserved (h : Deals full owed dealt left) :
    ∃ rounds : Nat, (dealt : Multiset Nat) + left = owed + rounds • full := by
  induction h with
  | nil => exact ⟨0, by simp⟩
  | @cons owed left i dealt hi _ ih =>
    obtain ⟨rounds, hrounds⟩ := ih
    rw [← Multiset.cons_coe, Multiset.cons_add, hrounds, ← Multiset.cons_add]
    unfold owedAfter
    split
    · -- The last copy is dealt: the full bag that is owed from here on is one more whole bag.
      rename_i hlast
      refine ⟨rounds + 1, ?_⟩
      have howed : owed = {i} := by rw [← Multiset.cons_erase hi, hlast]; rfl
      rw [howed, ← Multiset.singleton_add, add_assoc, add_comm full, ← succ_nsmul]
    · exact ⟨rounds, by rw [Multiset.cons_erase hi]⟩

end Deals

/-! ## Dealing from the full bag -/

namespace Deals

variable {full left : Multiset Nat} {dealt : List Nat}

/-- What has been dealt and what is still owed make up whole bags. -/
theorem whole_bags (h : Deals full full dealt left) :
    ∃ rounds : Nat, (dealt : Multiset Nat) + left = full + rounds • full ∧
      dealt.length + left.card = full.card + rounds * full.card := by
  obtain ⟨rounds, hrounds⟩ := h.conserved
  refine ⟨rounds, hrounds, ?_⟩
  have hcard := congrArg Multiset.card hrounds
  rwa [Multiset.card_add, Multiset.coe_card, Multiset.card_add, Multiset.card_nsmul] at hcard

/-- The full bag is owed exactly after whole rounds. -/
theorem left_eq_full_iff (h : Deals full full dealt left) (hfull : full ≠ 0) :
    left = full ↔ full.card ∣ dealt.length := by
  obtain ⟨rounds, -, hlength⟩ := h.whole_bags
  constructor
  · rintro rfl
    exact ⟨rounds, by rw [Nat.mul_comm]; omega⟩
  · intro hdvd
    have htotal : full.card ∣ dealt.length + left.card :=
      ⟨1 + rounds, by rw [hlength, Nat.mul_add, Nat.mul_one, Nat.mul_comm rounds]⟩
    have hleft : full.card ∣ left.card := (Nat.dvd_add_right hdvd).mp htotal
    have hpos := Multiset.card_pos.mpr (h.left_ne_zero hfull hfull)
    exact Multiset.eq_of_le_of_card_le (h.left_le le_rfl) (Nat.le_of_dvd hpos hleft)

/-- Whole rounds can be left out of account. -/
theorem drop (h : Deals full full dealt left) (hfull : full ≠ 0) {k : Nat}
    (hk : k * full.card ≤ dealt.length) : Deals full full (dealt.drop (k * full.card)) left := by
  rw [← List.take_append_drop (k * full.card) dealt] at h
  obtain ⟨mid, hbefore, hafter⟩ := h.split
  have hlength : (dealt.take (k * full.card)).length = k * full.card := by
    rw [List.length_take, Nat.min_eq_left hk]
  have hmid := (hbefore.left_eq_full_iff hfull).mpr ⟨k, by rw [hlength, mul_comm]⟩
  rwa [hmid] at hafter

/-- Before a round has ended, what was dealt and what is owed make up the bag. -/
theorem add_left (h : Deals full full dealt left) (hlt : dealt.length < full.card) :
    (dealt : Multiset Nat) + left = full := by
  obtain ⟨rounds, hrounds, hlength⟩ := h.whole_bags
  have hle := Multiset.card_le_card (h.left_le le_rfl)
  have hzero : rounds = 0 := by
    by_contra hne
    have hmul := Nat.le_mul_of_pos_left full.card (Nat.pos_of_ne_zero hne)
    omega
  rw [hrounds, hzero, zero_nsmul, add_zero]

/-- A round deals the copies of the bag. -/
theorem eq_full (h : Deals full full dealt left) (hfull : full ≠ 0)
    (hround : dealt.length = full.card) : (dealt : Multiset Nat) = full := by
  obtain ⟨rounds, hrounds, hlength⟩ := h.whole_bags
  have hleft : left = full := (h.left_eq_full_iff hfull).mpr ⟨1, by rw [hround, Nat.mul_one]⟩
  have hone : rounds = 1 := by
    rw [hleft] at hlength
    refine Nat.eq_of_mul_eq_mul_right (Multiset.card_pos.mpr hfull) ?_
    omega
  rw [hleft, hone, one_nsmul] at hrounds
  exact add_right_cancel hrounds

/-- Every full block of a dealing is a round. -/
theorem block_eq_full (h : Deals full full dealt left) (hfull : full ≠ 0) {k : Nat}
    (hk : (k + 1) * full.card ≤ dealt.length) :
    ((dealt.drop (k * full.card)).take full.card : Multiset Nat) = full := by
  rw [Nat.succ_mul] at hk
  have hblock := h.drop hfull (by omega : k * full.card ≤ dealt.length)
  rw [← List.take_append_drop full.card (dealt.drop (k * full.card))] at hblock
  obtain ⟨mid, hround, -⟩ := hblock.split
  refine hround.eq_full hfull ?_
  rw [List.length_take, List.length_drop]
  omega

/-- What was dealt since the last full block and what is owed make up the bag. -/
theorem open_add_left (h : Deals full full dealt left) (hfull : full ≠ 0) :
    (dealt.drop (dealt.length / full.card * full.card) : Multiset Nat) + left = full := by
  refine (h.drop hfull (Nat.div_mul_le_self _ _)).add_left ?_
  have hmod := Nat.mod_lt dealt.length (Multiset.card_pos.mpr hfull)
  have hdiv := Nat.div_add_mod' dealt.length full.card
  rw [List.length_drop]
  omega

/-- No block of a dealing has more than the copies of the bag. -/
theorem block_le_full (h : Deals full full dealt left) (hfull : full ≠ 0) (k : Nat) :
    ((dealt.drop (k * full.card)).take full.card : Multiset Nat) ≤ full := by
  have hpos := Multiset.card_pos.mpr hfull
  by_cases hk : (k + 1) * full.card ≤ dealt.length
  · exact (h.block_eq_full hfull hk).le
  · have hopen := h.open_add_left hfull
    have hlast : dealt.length / full.card ≤ k := by
      rw [Nat.le_iff_lt_add_one, Nat.div_lt_iff_lt_mul hpos]
      omega
    have hsublist : ((dealt.drop (k * full.card)).take full.card).Sublist
        (dealt.drop (dealt.length / full.card * full.card)) := by
      refine (List.take_sublist _ _).trans ?_
      exact List.drop_sublist_drop_left dealt (Nat.mul_le_mul_right full.card hlast)
    calc ((dealt.drop (k * full.card)).take full.card : Multiset Nat)
        ≤ (dealt.drop (dealt.length / full.card * full.card) : Multiset Nat) :=
          Multiset.coe_le.mpr hsublist.subperm
      _ ≤ _ + left := Multiset.le_add_right _ left
      _ = full := hopen

end Deals

end Stimulus.Sampling
