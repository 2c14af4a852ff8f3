import Stimulus.Proofs.Sampling.Dealing
import Stimulus.Proofs.Sampling.Fault
import Stimulus.Proofs.Sampling.History

/-!
# Shuffles

A pool shuffles its members. Taking one moves the last one into its place, so what is left is in no
particular order; but whatever the order, each member is at one place, and a choice of a place is
the choice of a member.
-/
namespace Stimulus.Sampling

open Stimulus.Random

namespace Pool

/-- The draw of the member at a place. -/
def drawAt (place : Nat) (p : Pool) : Option (Ticket × Pool) := p.stocked.take? place

/-- The order in which places, chosen one after the other, deal the members of a pool. -/
def order (p : Pool) (places : List Nat) : Option (List Nat) := dealt drawAt p places

theorem refill?_draw (p : Pool) (s : Source) :
    (p.draw s).refill? = if p.remaining.isEmpty then some (.members p.size) else none := by
  unfold draw
  simp only
  split
  · rfl
  · split <;> rfl

/-- A draw starts with a refill exactly where the pool is empty. -/
theorem isSome_refill?_draw {p : Pool} {s : Source} :
    (p.draw s).refill?.isSome = true ↔ p.remaining = [] := by
  rw [refill?_draw]
  split <;> simp_all

theorem take?_eq {p : Pool} {place : Nat} (h : place < p.remaining.length) :
    p.take? place = some (⟨p.remaining[place], (swapRemove place p.remaining).isEmpty⟩,
      { p with remaining := swapRemove place p.remaining }) := by
  rw [take?, List.getElem?_eq_getElem h]
  rfl

/-- A draw with a source is the draw of the member at the place that the source gives. -/
theorem draw_of_uniformIndex {p : Pool} {s t : Source} {place : Nat}
    (h : s.uniformIndex p.stocked.remaining.length = .ok (place, t)) :
    place < p.stocked.remaining.length ∧
      ∃ ticket, p.drawAt place = some (ticket, (p.draw s).pool) ∧
        (p.draw s).outcome = .ok ticket := by
  have hplace : place < p.stocked.remaining.length := by
    have hlt := Source.uniformIndex_lt h
    omega
  obtain ⟨ticket, after, htake⟩ : ∃ ticket after, p.stocked.take? place = some (ticket, after) :=
    ⟨_, _, take?_eq hplace⟩
  refine ⟨hplace, ticket, ?_, ?_⟩
  · simp only [drawAt, draw, h, htake]
  · simp only [draw, h, htake]

/-- Where a pool has members, a draw takes one of them. -/
theorem drawAt_eq {p : Pool} {place : Nat} (h : place < p.remaining.length) :
    p.drawAt place = some (⟨p.remaining[place], (swapRemove place p.remaining).isEmpty⟩,
      { p with remaining := swapRemove place p.remaining }) := by
  have hstocked : p.stocked = p :=
    if_neg (by simpa using List.ne_nil_of_length_pos (Nat.zero_lt_of_lt h))
  rw [drawAt, hstocked, take?_eq h]

/-- A member of a list is at as many places as the list has copies of it. -/
theorem countP_getElem? (xs : List Nat) (i : Nat) :
    (List.range xs.length).countP (fun place => xs[place]? = some i) = xs.count i := by
  have hplaces : (List.range xs.length).map (xs[·]?) = xs.map some := by
    refine List.ext_getElem (by simp) fun place _ _ => ?_
    simp
  calc (List.range xs.length).countP (fun place => xs[place]? = some i)
      = ((List.range xs.length).map (xs[·]?)).countP (· = some i) := by
        rw [List.countP_map]
        rfl
    _ = xs.count i := by
        rw [hplaces, List.countP_map, List.count_eq_countP]
        refine List.countP_congr fun x _ => ?_
        simp

/-- Choices of places take the members of a pool, each by one place. -/
theorem evenly : Evenly drawAt (fun _ => True) contents where
  draws {p r} _ hr := by
    rw [contents, Multiset.coe_card] at hr
    have hperm := Multiset.coe_eq_coe.mpr (cons_swapRemove_perm (List.getElem?_eq_getElem hr))
    refine ⟨_, _, drawAt_eq hr, trivial, List.getElem_mem hr, ?_⟩
    rw [contents, contents, ← hperm, ← Multiset.cons_coe, Multiset.erase_cons_head]
  counts {p} _ i := by
    rw [contents, Multiset.coe_card, Multiset.coe_count, ← countP_getElem?]
    refine List.countP_congr fun r hr => ?_
    rw [List.mem_range] at hr
    rw [drawAt_eq hr, List.getElem?_eq_getElem hr]
    simp

/-- A draw takes from what a pool holds, or from all members if it starts with a refill. -/
theorem contents_stocked (p : Pool) (s : Source) : p.stocked.contents =
    if (p.draw s).refill?.isSome then (List.range p.size : Multiset Nat) else p.contents := by
  rw [refill?_draw, stocked]
  split <;> rfl

theorem bagged (count : Nat) : Bagged draw refill (Counts count) contents (List.range count) where
  refill hp := ⟨hp.refill, by rw [Pool.refill, hp.size]; rfl⟩
  draw {p} hp s := by
    have htakes := p.takesFrom_draw s
    rw [contents_stocked p s, hp.size] at htakes
    exact ⟨(hp.draw s).1, htakes⟩

/-- From any internal order of the members, one sequence of places deals each order of them. -/
theorem bijOn_order {p : Pool} {count : Nat} (hp : p.remaining.Perm (List.range count)) :
    Set.BijOn p.order (choices count) (some '' {order | order.Perm (List.range count)}) := by
  have hcontents : p.contents = (List.range count : Multiset Nat) := Multiset.coe_eq_coe.mpr hp
  have hcard : p.contents.card = count := by simp [hcontents]
  have hunique : ∀ order : List Nat, order.Perm (List.range count) →
      ∃ places, {rs | rs ∈ choices count ∧ p.order rs = some order} = {places} := by
    intro order horder
    have hmembers : (order : Multiset Nat) = p.contents :=
      (Multiset.coe_eq_coe.mpr horder).trans hcontents.symm
    have hnodup : p.contents.Nodup := by
      rw [hcontents]
      exact Multiset.coe_nodup.mpr List.nodup_range
    have hlength : order.length = count := by simpa using horder.length_eq
    have hone := evenly.ncard_dealt trivial hmembers
    rw [exchanges_of_nodup hnodup, hlength] at hone
    exact Set.ncard_eq_one.mp hone
  have horder : ∀ places ∈ choices count, ∃ order, p.order places = some order ∧
      order.Perm (List.range count) := by
    intro places hplaces
    obtain ⟨order, hdealt, hmembers⟩ := evenly.exists_dealt trivial (hcard.symm ▸ hplaces)
    exact ⟨order, hdealt, Multiset.coe_eq_coe.mp (hmembers.trans hcontents)⟩
  refine ⟨fun places hplaces => ?_, fun places hplaces others hothers heq => ?_, ?_⟩
  · obtain ⟨order, hdealt, hperm⟩ := horder places hplaces
    exact ⟨order, hperm, hdealt.symm⟩
  · obtain ⟨order, hdealt, hperm⟩ := horder places hplaces
    obtain ⟨only, honly⟩ := hunique order hperm
    have hfirst : places ∈ {rs | rs ∈ choices count ∧ p.order rs = some order} := ⟨hplaces, hdealt⟩
    have hsecond : others ∈ {rs | rs ∈ choices count ∧ p.order rs = some order} :=
      ⟨hothers, heq ▸ hdealt⟩
    rw [honly] at hfirst hsecond
    exact hfirst.trans hsecond.symm
  · rintro _ ⟨order, hperm, rfl⟩
    obtain ⟨only, honly⟩ := hunique order hperm
    obtain ⟨hchoices, hdealt⟩ :
        only ∈ {rs | rs ∈ choices count ∧ p.order rs = some order} := honly ▸ rfl
    exact ⟨only, hchoices, hdealt⟩

/-- A pool of a number of members is an exact shuffle. Under any refills and draws, with any
sources, what it holds is, in some order, the members that have not been drawn since the last
refill, which may have been one at the start of a draw. Such a refill takes place exactly in a draw
from an empty pool, and a draw tells of itself that it was the last one exactly if it has emptied
the pool. As far as members can be numbered by words, every draw succeeds, and takes the member at
the place that the source gives. From a full pool in any internal order, each sequence of places for
a round deals an order of the members, and each order comes from exactly one such sequence. -/
theorem shuffle_exact (count : Nat) (hcount : 1 ≤ count) :
    ofSize count = .ok (full count) ∧
    (∀ p drawn, History draw refill (full count) p drawn →
      (drawn ++ p.remaining).Perm (List.range count) ∧
      ∀ s : Source,
        ((p.draw s).refill?.isSome = true ↔ p.remaining = []) ∧
        (∀ ticket, (p.draw s).outcome = .ok ticket →
          (ticket.last = true ↔ (p.draw s).pool.remaining = [])) ∧
        (count ≤ Source.greatestUnsigned → ∃ place t,
          s.uniformIndex p.stocked.remaining.length = .ok (place, t) ∧
            place < p.stocked.remaining.length ∧
            ∃ ticket, p.drawAt place = some (ticket, (p.draw s).pool) ∧
              (p.draw s).outcome = .ok ticket)) ∧
    ∀ p : Pool, p.remaining.Perm (List.range count) →
      Set.BijOn p.order (choices count) (some '' {order | order.Perm (List.range count)}) := by
  refine ⟨?_, fun p drawn hp => ?_, fun p hp => bijOn_order hp⟩
  · rw [ofSize, if_neg (by omega), Int.toNat_natCast]
  · obtain ⟨hcounts, hbag⟩ := (bagged count).drawn_add_contents (Counts.full hcount) rfl hp
    refine ⟨Multiset.coe_eq_coe.mp hbag, fun s => ⟨isSome_refill?_draw, fun _ => last_draw, ?_⟩⟩
    intro hwords
    obtain ⟨hstocked, hpos⟩ := hcounts.stocked
    cases hindex : s.uniformIndex p.stocked.remaining.length with
    | error fault =>
      have hvast := (Source.uniformIndex_fault (by omega) hindex).1
      have hlength := hstocked.remaining_length
      omega
    | ok chosen => exact ⟨chosen.1, chosen.2, rfl, draw_of_uniformIndex hindex⟩

/-- The first draw from three members, and a round from them in another order. -/
theorem shuffle_exact_three :
    (∀ s : Source, ∃ ticket, ((full 3).draw s).outcome = .ok ticket ∧
      ([ticket.member] ++ ((full 3).draw s).pool.remaining).Perm (List.range 3)) ∧
    let p : Pool := ⟨3, [2, 0, 1]⟩
    p.order [1, 1, 0] = some [0, 1, 2] ∧
      Set.BijOn p.order (choices 3) (some '' {order | order.Perm (List.range 3)}) := by
  obtain ⟨-, hhistory, hround⟩ := shuffle_exact 3 (by decide)
  refine ⟨fun s => ?_, rfl, hround ⟨3, [2, 0, 1]⟩ (by decide)⟩
  obtain ⟨-, hdraw⟩ := hhistory (full 3) [] .start
  obtain ⟨_, _, -, -, ticket, -, hticket⟩ := (hdraw s).2.2 (by decide)
  obtain ⟨hafter, -⟩ := hhistory _ _ (.draw .start s)
  have hnone : ((full 3).draw s).refill? = none := refill?_draw (full 3) s
  refine ⟨ticket, hticket, ?_⟩
  simpa [Draw.drawn, hticket, hnone, Except.toOption] using hafter

end Pool

end Stimulus.Sampling
