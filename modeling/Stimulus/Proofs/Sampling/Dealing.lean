import Mathlib.Algebra.BigOperators.Group.Finset.Basic
import Mathlib.Data.Nat.Factorial.Basic
import Mathlib.Data.Set.Card
import Stimulus.Proofs.Sampling.Stock

/-!
# Dealing by choice

A draw from a bag comes down to a choice among its copies. A round of draws is then decided by a
sequence of choices, each among one copy fewer than the one before. If every copy is taken by one
choice, the sequences of choices share out equally: every arrangement of the bag comes from as many
of them as there are ways to exchange equal copies.
-/
namespace Stimulus.Sampling

open Stimulus.Random

/-! ## Choices -/

/-- The sequences of choices for a round of `count` draws. The first choice is among `count`, and
each further one among one fewer. -/
def choices (count : Nat) : Set (List Nat) :=
  {rs | rs.length = count ∧ ∀ k r, rs[k]? = some r → r < count - k}

/-- All sequences of choices, each once. -/
def choiceLists : Nat → List (List Nat)
  | 0 => [[]]
  | count + 1 => (List.range (count + 1)).flatMap fun r => (choiceLists count).map (r :: ·)

theorem nil_mem_choices : [] ∈ choices 0 := ⟨rfl, by simp⟩

theorem cons_mem_choices_iff {count r : Nat} {rs : List Nat} :
    r :: rs ∈ choices (count + 1) ↔ r < count + 1 ∧ rs ∈ choices count := by
  constructor
  · rintro ⟨hlength, hchoices⟩
    refine ⟨hchoices 0 r rfl, Nat.succ.inj hlength, fun k r' hr' => ?_⟩
    have hlater := hchoices (k + 1) r' hr'
    omega
  · rintro ⟨hr, hlength, hchoices⟩
    refine ⟨congrArg (· + 1) hlength, fun k r' hr' => ?_⟩
    cases k with
    | zero =>
      cases hr'
      exact hr
    | succ k =>
      have hlater := hchoices k r' hr'
      omega

theorem mem_choiceLists_iff {count : Nat} {rs : List Nat} :
    rs ∈ choiceLists count ↔ rs ∈ choices count := by
  induction count generalizing rs with
  | zero =>
    rw [choiceLists, List.mem_singleton]
    exact ⟨fun h => h ▸ nil_mem_choices, fun h => List.eq_nil_of_length_eq_zero h.1⟩
  | succ count ih =>
    cases rs with
    | nil => simp [choiceLists, choices]
    | cons r rs => simp [choiceLists, cons_mem_choices_iff, ih]

theorem nodup_choiceLists (count : Nat) : (choiceLists count).Nodup := by
  induction count with
  | zero => exact List.nodup_singleton _
  | succ count ih =>
    rw [choiceLists, List.nodup_flatMap]
    refine ⟨fun r _ => ih.map fun _ _ h => (List.cons.inj h).2, ?_⟩
    refine List.nodup_range.imp fun {r r'} hne rs hr hr' => hne ?_
    obtain ⟨_, _, rfl⟩ := List.mem_map.mp hr
    obtain ⟨_, _, heq⟩ := List.mem_map.mp hr'
    exact (List.cons.inj heq).1.symm

/-- Sequences of choices are counted by going through them. -/
theorem ncard_choices (count : Nat) (q : List Nat → Prop) [DecidablePred q] :
    {rs | rs ∈ choices count ∧ q rs}.ncard = (choiceLists count).countP (q ·) := by
  have hset : {rs | rs ∈ choices count ∧ q rs} =
      ((choiceLists count).filter (q ·)).toFinset := by
    ext rs
    simp [mem_choiceLists_iff]
  rw [hset, Set.ncard_coe_finset, List.toFinset_card_of_nodup ((nodup_choiceLists count).filter _),
    List.countP_eq_length_filter]

/-! ## Exchanges -/

/-- The number of ways to exchange equal copies of a bag among each other. -/
def exchanges (s : Multiset Nat) : Nat := ∏ i ∈ s.toFinset, (s.count i).factorial

/-- Any set of members that has those of a bag gives the number of its exchanges. -/
theorem exchanges_eq {s : Multiset Nat} {members : Finset Nat} (h : s.toFinset ⊆ members) :
    exchanges s = ∏ i ∈ members, (s.count i).factorial := by
  refine Finset.prod_subset h fun i _ hi => ?_
  rw [Multiset.mem_toFinset] at hi
  rw [Multiset.count_eq_zero_of_notMem hi, Nat.factorial_zero]

theorem exchanges_erase {s : Multiset Nat} {i : Nat} (hi : i ∈ s) :
    exchanges s = s.count i * exchanges (s.erase i) := by
  have hmem : i ∈ s.toFinset := Multiset.mem_toFinset.mpr hi
  have hsub : (s.erase i).toFinset ⊆ s.toFinset :=
    Multiset.toFinset_subset.mpr (Multiset.erase_subset i s)
  have hcount : s.count i ≠ 0 := (Multiset.count_pos.mpr hi).ne'
  have hothers : ∏ j ∈ s.toFinset.erase i, ((s.erase i).count j).factorial =
      ∏ j ∈ s.toFinset.erase i, (s.count j).factorial :=
    Finset.prod_congr rfl fun j hj => by
      rw [Multiset.count_erase_of_ne (Finset.ne_of_mem_erase hj)]
  rw [exchanges_eq hsub, exchanges, ← Finset.mul_prod_erase _ _ hmem,
    ← Finset.mul_prod_erase _ _ hmem, hothers, Multiset.count_erase_self, ← Nat.mul_assoc,
    Nat.mul_factorial_pred hcount]

theorem exchanges_of_nodup {s : Multiset Nat} (h : s.Nodup) : exchanges s = 1 := by
  refine Finset.prod_eq_one fun i hi => ?_
  rw [Multiset.count_eq_one_of_mem h (Multiset.mem_toFinset.mp hi), Nat.factorial_one]

/-! ## Dealing -/

section

variable {Pool : Type} (drawAt : Nat → Pool → Option (Ticket × Pool))

/-- The members that a sequence of choices deals, one after the other. -/
def dealt : Pool → List Nat → Option (List Nat)
  | _, [] => some []
  | p, r :: rs => do
    let (ticket, after) ← drawAt r p
    let rest ← dealt after rs
    return ticket.member :: rest

/-- Draws that take a copy by each choice, and every copy by one. -/
structure Evenly (Valid : Pool → Prop) (contents : Pool → Multiset Nat) : Prop where
  draws : ∀ {p r}, Valid p → r < (contents p).card → ∃ ticket after,
    drawAt r p = some (ticket, after) ∧ Valid after ∧ ticket.member ∈ contents p ∧
      contents after = (contents p).erase ticket.member
  counts : ∀ {p}, Valid p → ∀ i, (List.range (contents p).card).countP
    (fun r => (drawAt r p).map (·.1.member) = some i) = (contents p).count i

variable {drawAt} {Valid : Pool → Prop} {contents : Pool → Multiset Nat}

/-- A round of choices deals all copies. -/
theorem Evenly.exists_dealt (h : Evenly drawAt Valid contents) {p : Pool} (hp : Valid p)
    {rs : List Nat} (hrs : rs ∈ choices (contents p).card) :
    ∃ order, dealt drawAt p rs = some order ∧ (order : Multiset Nat) = contents p := by
  induction rs generalizing p with
  | nil =>
    have hempty : contents p = 0 := Multiset.card_eq_zero.mp hrs.1.symm
    exact ⟨[], rfl, hempty.symm⟩
  | cons r rs ih =>
    obtain ⟨count, hcount⟩ : ∃ count, (contents p).card = count + 1 := ⟨rs.length, hrs.1.symm⟩
    rw [hcount, cons_mem_choices_iff] at hrs
    obtain ⟨ticket, after, hdraw, hvalid, hmem, hafter⟩ := h.draws hp (hcount ▸ hrs.1)
    have hrest : (contents after).card = count := by
      rw [hafter, Multiset.card_erase_of_mem hmem, hcount, Nat.pred_succ]
    obtain ⟨order, horder, hcontents⟩ := ih hvalid (hrest ▸ hrs.2)
    refine ⟨ticket.member :: order, ?_, ?_⟩
    · simp [dealt, hdraw, horder]
    · rw [← Multiset.cons_coe, hcontents, hafter, Multiset.cons_erase hmem]

/-- A first choice takes a member, and the others deal what is behind it. -/
theorem dealt_cons_eq_iff {p after : Pool} {r i : Nat} {ticket : Ticket} {rs order : List Nat}
    (hdraw : drawAt r p = some (ticket, after)) :
    dealt drawAt p (r :: rs) = some (i :: order) ↔
      ticket.member = i ∧ dealt drawAt after rs = some order := by
  cases hrest : dealt drawAt after rs with
  | none => simp [dealt, hdraw, hrest]
  | some rest => simp [dealt, hdraw, hrest]

/-- Every arrangement of the copies is dealt by as many sequences of choices as there are exchanges
of equal ones. -/
theorem Evenly.countP_dealt (h : Evenly drawAt Valid contents) {p : Pool} (hp : Valid p)
    {order : List Nat} (horder : (order : Multiset Nat) = contents p) :
    (choiceLists order.length).countP (fun rs => dealt drawAt p rs = some order) =
      exchanges (contents p) := by
  induction order generalizing p with
  | nil =>
    rw [← horder]
    rfl
  | cons i order ih =>
    have hmem : i ∈ contents p := horder ▸ List.mem_cons_self
    have hcard : (contents p).card = order.length + 1 := by rw [← horder]; rfl
    have herase : (contents p).erase i = order := by
      rw [← horder, ← Multiset.cons_coe, Multiset.erase_cons_head]
    -- After a first choice of `i`, the others count as for the copies that are left.
    have hfirst : ∀ r ∈ List.range (order.length + 1),
        ((choiceLists order.length).map (r :: ·)).countP
            (fun rs => dealt drawAt p rs = some (i :: order)) =
          if (drawAt r p).map (·.1.member) = some i then exchanges ((contents p).erase i)
          else 0 := by
      intro r hr
      rw [List.mem_range, ← hcard] at hr
      obtain ⟨ticket, after, hdraw, hvalid, -, hafter⟩ := h.draws hp hr
      simp only [List.countP_map, Function.comp_def, dealt_cons_eq_iff hdraw, hdraw,
        Option.map_some, Option.some.injEq]
      split
      · rename_i hmember
        rw [hmember, herase] at hafter
        simp only [hmember, true_and]
        rw [ih hvalid hafter.symm, hafter, herase]
      · rename_i hmember
        simp [hmember]
    rw [List.length_cons, choiceLists, List.countP_flatMap, Function.comp_def,
      List.map_congr_left hfirst, exchanges_erase hmem, ← h.counts hp i, hcard,
      List.sum_map_ite, List.countP_eq_length_filter]
    simp

/-- The sequences of choices that deal an arrangement. -/
theorem Evenly.ncard_dealt (h : Evenly drawAt Valid contents) {p : Pool} (hp : Valid p)
    {order : List Nat} (horder : (order : Multiset Nat) = contents p) :
    {rs | rs ∈ choices order.length ∧ dealt drawAt p rs = some order}.ncard =
      exchanges (contents p) := by
  rw [ncard_choices, h.countP_dealt hp horder]

end

end Stimulus.Sampling
