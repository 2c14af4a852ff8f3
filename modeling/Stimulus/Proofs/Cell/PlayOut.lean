import Stimulus.Proofs.Cell.Sampler
import Stimulus.Proofs.Cell.Turns
import Stimulus.Proofs.Cell.WellFormed
import Stimulus.Proofs.Sampling.Exact

/-!
# Samplers play their members out

Whatever kind of sampler a cell is, it draws only in a turn that finds no member selected. The
member that is drawn is the only one stepped, turn after turn and also where turns fail, up to the
turn in which it is done. Its values are the values of the sampler.
-/
namespace Stimulus

open Stimulus.Random Stimulus.Sampling

namespace Cell

def chooser? : Cell → Option Chooser
  | choice chooser _ _ => some chooser
  | _ => none

/-- The member that a sampler's cell has selected. -/
def held? (c : Cell) : Option Nat := c.chooser?.bind Chooser.held?

def Closes (c : Cell) : Prop := ∃ chooser, c.chooser? = some chooser ∧ chooser.Closes

/-- The cell and the world in which the member of a turn is stepped: those behind the draw, if the
turn starts with one. -/
def drawn (t : Turn) : Cell → Cell × World
  | choice chooser members r =>
    let selected := chooser.select members.length t.world
    (choice selected.2.1 members r, selected.2.2)
  | c => (c, t.world)

/-- A turn in which the member at a place is stepped, and no other one. The sampler's value is the
value of the member. The sampler is done if the member is and the sampler closes with it, and the
member stays selected unless it is done. -/
structure StepsMember (c : Cell) (t : Turn) (i : Nat) (member : Cell) : Prop where
  mem : c.children[i]? = some member
  world : (c.turn t).world = (member.step t.advance (c.drawn t).2).world
  children : (c.turn t).after.children =
    c.children.set i (member.step t.advance (c.drawn t).2).after
  error : ∀ failure, (member.step t.advance (c.drawn t).2).outcome = .error failure →
    (c.turn t).outcome = .error failure ∧ c.playedOut? t = none ∧
      (c.turn t).after.held? = some i
  ok : ∀ x, (member.step t.advance (c.drawn t).2).outcome = .ok x →
    ∃ done, (c.turn t).outcome = .ok ⟨x.value, done⟩ ∧
      (done = true ↔ x.done = true ∧ (c.drawn t).1.Closes) ∧
      c.playedOut? t = (if x.done then some i else none) ∧
      (c.turn t).after.held? = if x.done then none else some i
  kept : c.playedOut? t = none → (c.turn t).after.chooser? = (c.drawn t).1.chooser?

/-- What a turn of a sampler does. -/
structure PlaysTurn (c : Cell) (t : Turn) : Prop where
  /-- Nothing is drawn while a member is selected, and this member is stepped. -/
  held : ∀ i, c.held? = some i → c.selected? t = some i ∧ c.drawn t = (c, t.world)
  /-- A draw changes no member. It selects the member that is stepped, if it succeeds. -/
  drawn : (c.drawn t).1.held? = c.selected? t ∧ (c.drawn t).1.children = c.children ∧
    t.world.Draws (c.drawn t).2
  /-- A turn whose draw fails ends with it. -/
  failed : c.selected? t = none →
    ∃ failure, c.turn t = ⟨.error failure, (c.drawn t).1, (c.drawn t).2⟩
  stepped : ∀ i, c.selected? t = some i → ∃ member, c.StepsMember t i member

/-- A cell that differs from another one in the cell of one member and in its report at most. -/
structure SameBut (i : Nat) (c other : Cell) : Prop where
  chooser : other.chooser? = c.chooser?
  others : ∀ j, j ≠ i → other.children[j]? = c.children[j]?

namespace SameBut

variable {i : Nat} {a b c : Cell}

theorem refl (i : Nat) (c : Cell) : c.SameBut i c := ⟨rfl, fun _ _ => rfl⟩

theorem trans (h : a.SameBut i b) (h' : b.SameBut i c) : a.SameBut i c :=
  ⟨h'.chooser.trans h.chooser, fun j hj => (h'.others j hj).trans (h.others j hj)⟩

theorem held? (h : a.SameBut i b) : b.held? = a.held? := by
  rw [Cell.held?, h.chooser, Cell.held?]

end SameBut

def IsSampler : Cell → Prop
  | choice chooser _ _ => chooser.IsSampler
  | _ => False

theorem isSampler_reset {c : Cell} : c.reset.IsSampler ↔ c.IsSampler := by
  cases c with
  | choice chooser members r => exact Chooser.isSampler_reset
  | _ => exact Iff.rfl

/-- A sampler's cell that keeps its invariants, with a ticket that tells the truth. -/
structure Sampler (c : Cell) : Prop where
  isSampler : c.IsSampler
  regular : c.Regular
  marked : c.ChooserHas fun _ chooser => chooser.Marked

variable {c : Cell} {t : Turn} {i : Nat}

section Selected

variable {chooser : Chooser} {members : List Cell} {r : Report} {member : Cell}
  (hmember : members[i]? = some member)
  (hselect : (chooser.select members.length t.world).1 = .ok i)
include hmember hselect

/-- A turn whose member fails keeps the member selected. -/
theorem turn_of_error {failure : Failure}
    (h : (member.step t.advance (chooser.select members.length t.world).2.2).outcome =
      .error failure) :
    let selected := chooser.select members.length t.world
    let s := member.step t.advance selected.2.2
    (choice chooser members r).playedOut? t = none ∧
      (choice chooser members r).turn t =
        ⟨.error failure, choice selected.2.1 (members.set i s.after) r, s.world⟩ := by
  simp only [playedOut?, turn, step, hselect, stepMember_eq, hmember, h, and_self]

/-- A turn whose member gives a reading settles. -/
theorem turn_of_ok {x : Reading}
    (h : (member.step t.advance (chooser.select members.length t.world).2.2).outcome = .ok x) :
    let selected := chooser.select members.length t.world
    let s := member.step t.advance selected.2.2
    let settled := selected.2.1.settle members.length x.done
    (choice chooser members r).playedOut? t = (if x.done then some i else none) ∧
      (choice chooser members r).turn t = ⟨.ok ⟨x.value, settled.1⟩,
        choice settled.2 (members.set i s.after) (.ofReading ⟨x.value, settled.1⟩), s.world⟩ := by
  simp only [playedOut?, turn, step, hselect, stepMember_eq, hmember, h, and_self]

theorem stepsMember_of_select (hsampler : chooser.IsSampler) (hmarked : chooser.Marked) :
    (choice chooser members r).StepsMember t i member := by
  have hheld := Chooser.held?_select hsampler members.length t.world
  have hmarked' := hmarked.select members.length t.world
  have hsampler' : (chooser.select members.length t.world).2.1.IsSampler := by
    rwa [← Chooser.isSampler_reset, Chooser.reset_select, Chooser.isSampler_reset]
  rw [hselect] at hheld
  cases houtcome : (member.step t.advance (chooser.select members.length t.world).2.2).outcome with
  | error failure =>
    obtain ⟨hplayed, hturn⟩ := turn_of_error (r := r) hmember hselect houtcome
    refine ⟨hmember, by rw [hturn, drawn], by rw [hturn, drawn]; rfl, fun failure' h => ?_,
      fun x h => ?_, fun _ => by rw [hturn, drawn]; rfl⟩
    · rw [hturn]
      exact ⟨houtcome ▸ h, hplayed, hheld⟩
    · exact absurd (houtcome.symm.trans h) (by simp)
  | ok x =>
    obtain ⟨hplayed, hturn⟩ := turn_of_ok (r := r) hmember hselect houtcome
    refine ⟨hmember, by rw [hturn, drawn], by rw [hturn, drawn]; rfl, fun failure h => ?_,
      fun y h => ?_, fun hnone => ?_⟩
    · exact absurd (houtcome.symm.trans h) (by simp)
    · obtain rfl : x = y := Except.ok.inj (houtcome.symm.trans h)
      rw [hturn]
      refine ⟨_, rfl, ?_, hplayed, ?_⟩
      · cases x.done with
        | false => simp [Chooser.settle_pending hsampler']
        | true =>
          rw [(Chooser.settle_done hsampler' hmarked' hheld _).1]
          simp [Closes, drawn, chooser?]
      · cases x.done with
        | false =>
          rw [Chooser.settle_pending hsampler']
          exact hheld
        | true => exact (Chooser.settle_done hsampler' hmarked' hheld _).2
    · have hpending : x.done = false := by simpa [hplayed] using hnone
      rw [hturn, hpending, Chooser.settle_pending hsampler', drawn]
      rfl

end Selected

namespace Sampler

/-- Every turn of a sampler keeps the discipline. -/
theorem playsTurn (h : c.Sampler) (t : Turn) : c.PlaysTurn t := by
  cases c with
  | choice chooser members r =>
    have hsampler : chooser.IsSampler := h.isSampler
    have hmarked := h.marked chooser members r rfl
    refine ⟨fun i hi => ?_, ⟨?_, rfl, chooser.draws_select _ _⟩, fun hnone => ?_, fun i hi => ?_⟩
    · have hselect := Chooser.select_of_held hi members.length t.world
      simp only [selected?, drawn, hselect]
      exact ⟨rfl, trivial⟩
    · exact Chooser.held?_select hsampler _ _
    · cases hselect : (chooser.select members.length t.world).1 with
      | ok i => simp [selected?, hselect, Except.toOption] at hnone
      | error failure =>
        refine ⟨failure, ?_⟩
        simp only [Cell.turn, step, hselect, drawn]
    · cases hselect : (chooser.select members.length t.world).1 with
      | error failure => simp [selected?, hselect, Except.toOption] at hi
      | ok j =>
        obtain rfl : j = i := by simpa [selected?, hselect, Except.toOption] using hi
        have hlt : j < members.length := by
          refine ((h.regular.fits chooser members r rfl).select t.world).2 j hselect ?_
          rintro ⟨cursor, rfl⟩
          cases hsampler
        exact ⟨members[j],
          stepsMember_of_select (List.getElem?_eq_getElem hlt) hselect hsampler hmarked⟩
  | _ => cases h.isSampler

theorem turn (h : c.Sampler) (t : Turn) : (c.turn t).after.Sampler where
  isSampler := by
    rw [← isSampler_reset, Cell.turn, reset_step, isSampler_reset]
    exact h.isSampler
  regular := lasting_regular.step t.advance t.world h.regular
  marked := (lasting_chooserHas Chooser.invariant_marked).step t.advance t.world h.marked

theorem reset (h : c.Sampler) : c.reset.Sampler where
  isSampler := isSampler_reset.mpr h.isSampler
  regular := lasting_regular.reset h.regular
  marked := (lasting_chooserHas Chooser.invariant_marked).reset h.marked

theorem afterTurns (h : c.Sampler) (turns : List Turn) : (c.afterTurns turns).Sampler := by
  induction turns generalizing c with
  | nil => exact h
  | cons t rest ih => exact ih (h.turn t)

theorem afterRuns (h : c.Sampler) (runs : List (List Turn)) : (c.afterRuns runs).Sampler := by
  induction runs generalizing c with
  | nil => exact h
  | cons turns rest ih => exact ih (h.afterTurns turns).reset

/-- A turn in which the selected member is not done keeps it selected and touches no other. -/
theorem sameBut_turn (h : c.Sampler) (hselected : c.selected? t = some i)
    (hpending : c.playedOut? t = none) : (c.drawn t).1.SameBut i (c.turn t).after := by
  have hplays := h.playsTurn t
  obtain ⟨member, hmember⟩ := hplays.stepped i hselected
  refine ⟨hmember.kept hpending, fun j hj => ?_⟩
  rw [hmember.children, hplays.drawn.2.1, List.getElem?_set_ne (Ne.symm hj)]

/-- A selected member stays selected through any turns in which it is not done. -/
theorem sameBut_turns (h : c.Sampler) (hheld : c.held? = some i) {turns : List Turn}
    (hpending : c.playedOut turns = []) : c.SameBut i (c.afterTurns turns) := by
  induction turns generalizing c with
  | nil => exact .refl i c
  | cons t rest ih =>
    rw [playedOut, List.append_eq_nil_iff, Option.toList_eq_nil_iff] at hpending
    -- The member is held before the turn, so nothing is drawn in it, and it is held behind it.
    obtain ⟨hselected, hdrawn⟩ := (h.playsTurn t).held i hheld
    have hturn := h.sameBut_turn hselected hpending.1
    rw [hdrawn] at hturn
    exact hturn.trans (ih (h.turn t) (hturn.held?.trans hheld) hpending.2)

/-- From the turn on in which a member is selected, it stays selected until it is done. -/
theorem sameBut_drawn (h : c.Sampler) (hselected : c.selected? t = some i) {between : List Turn}
    (hpending : c.playedOut (t :: between) = []) :
    (c.drawn t).1.SameBut i (c.afterTurns (t :: between)) ∧
      (c.afterTurns (t :: between)).held? = some i := by
  rw [playedOut, List.append_eq_nil_iff, Option.toList_eq_nil_iff] at hpending
  have hturn := h.sameBut_turn hselected hpending.1
  have hheld : (c.drawn t).1.held? = some i := (h.playsTurn t).drawn.1.trans hselected
  have hsame := hturn.trans ((h.turn t).sameBut_turns (hturn.held?.trans hheld) hpending.2)
  exact ⟨hsame, hsame.held?.trans hheld⟩

end Sampler

end Cell

/-- The four kinds of samplers. -/
def Expr.IsSampler : Expr → Prop
  | .sample _ | .pool _ | .weightedSample _ | .weightedPool _ => True
  | _ => False

namespace Cell

variable {bind : Identifier → Except Error Cell} {e : Expr} {c : Cell}

theorem sampler_of_build (he : e.IsSampler) (hb : build bind e = .ok c) :
    c.Sampler ∧ ∃ chooser, c.chooser? = some chooser ∧ e.Chooses chooser := by
  obtain ⟨ref, rfl, -⟩ | ⟨hstart, hcells⟩ := build_eq_ok hb
  · cases he
  · cases hstart with
    | @choice _ chooser members hchooser =>
      have hfresh : (choice chooser members {}).Fresh := ⟨hcells.length_eq ▸ hchooser.initial, rfl⟩
      refine ⟨⟨?_, lasting_regular.fresh hfresh,
        (lasting_chooserHas Chooser.invariant_marked).fresh hfresh⟩, chooser, rfl, hchooser⟩
      cases hchooser with
      | pattern => cases he
      | sample | weightedSample | pool | weightedPool => trivial
    | _ => cases he

theorem reset_afterRuns (c : Cell) (runs : List (List Turn)) :
    (c.afterRuns runs).reset = c.reset := by
  cases runs with
  | nil => rfl
  | cons turns rest => rw [afterRuns_cons, reset_reset]

/-- The total of a weighted pool is zero exactly if no copy is left. -/
theorem total_eq_zero_iff_of_build (he : e.IsSampler) (hb : build bind e = .ok c)
    (hfit : e.TotalsFit) {now : Cell} (hnow : now.Sampler) (hreset : now.reset = c.reset)
    {p : WeightedPool} {current? : Option Ticket}
    (hchooser : now.chooser? = some (.weightedPool p current?)) :
    p.total = 0 ↔ ∀ n ∈ p.remaining, n = 0 := by
  obtain ⟨-, chooser, hstart, hchooses⟩ := sampler_of_build he hb
  cases now with
  | choice other members r =>
    cases hchooser
    cases c with
    | choice chooser' members' r' =>
      cases hstart
      have hkind : (Chooser.weightedPool p current?).reset = chooser.reset := by
        simp only [Cell.reset, choice.injEq] at hreset
        exact hreset.1
      cases hchooses with
      | @weightedPool declared full hpool =>
        obtain ⟨-, -, -, rfl⟩ := WeightedPool.ofWeights_eq_ok hpool
        have hweights : p.weights = Expr.weights declared :=
          congrArg WeightedPool.weights (Chooser.weightedPool.inj hkind).1
        have hdepletes : (Chooser.weightedPool p current?).Depletes := by
          rw [Chooser.Depletes, hweights]
          exact hfit declared (.inr (Expr.mem_walk_self _))
        have hsound : p.Sound := (hnow.regular.balanced _ members r rfl hdepletes).fair.sound
        rw [hsound.total_eq, totalWeight_eq_zero_iff hsound.counts_nonneg]
      | _ => cases hkind
    | _ => cases hstart
  | _ => cases hchooser

/-- From when a sampler is built, through any turns and resets, each turn keeps the discipline. A
member that is selected in a turn is still selected after any turns in which it is not done, with
the pool that its draw has left, and no other member's cell has changed. Where the weights add up to
a signed number of 64 bits, the total of a weighted pool is zero when no copy is left. -/
theorem playsOut_of_build (he : e.IsSampler) (hb : build bind e = .ok c) (runs : List (List Turn))
    (before : List Turn) (t : Turn) :
    let now := (c.afterRuns runs).afterTurns before
    now.PlaysTurn t ∧
      (∀ i between, now.selected? t = some i → now.playedOut (t :: between) = [] →
        (now.drawn t).1.SameBut i (now.afterTurns (t :: between)) ∧
          (now.afterTurns (t :: between)).held? = some i) ∧
      ∀ p current?, now.chooser? = some (.weightedPool p current?) → e.TotalsFit →
        (p.total = 0 ↔ ∀ n ∈ p.remaining, n = 0) := by
  intro now
  have hsampler : now.Sampler := ((sampler_of_build he hb).1.afterRuns runs).afterTurns before
  have hreset : now.reset = c.reset := by rw [reset_afterTurns, reset_afterRuns]
  refine ⟨hsampler.playsTurn t, fun i between hselected hpending => ?_,
    fun p current? hchooser hfit => ?_⟩
  · exact hsampler.sameBut_drawn hselected hpending
  · exact total_eq_zero_iff_of_build he hb hfit hsampler hreset hchooser

/-- A weighted pool over a pattern that is not done in the first turn and fails in the second. -/
theorem playsOut_of_build_pattern :
    let ref : Identifier := { path := "x", access? := some .next }
    let bind : Identifier → Except Error Cell := fun ref => .ok (.leaf (.next ref "x" 0) {})
    let e : Expr := .weightedPool [(1, .pattern [.literal 7, .reference ref])]
    let w : World := { cells := #[], source := Source.ofSeed .philox 11 }
    let failing : Turn := ⟨fun _ w => (.error (.fault .negativeShift), w), w⟩
    e.IsSampler ∧ ∃ c, build bind e = .ok c ∧ c.PlaysTurn failing ∧
      c.selected? failing = some 0 ∧ c.playedOut [failing, failing] = [] ∧
      (c.drawn failing).1.SameBut 0 (c.afterTurns [failing, failing]) ∧
      (c.afterTurns [failing, failing]).held? = some 0 := by
  intro ref bind e w failing
  have he : e.IsSampler := trivial
  obtain ⟨c, hb, hselected, hpending⟩ : ∃ c, build bind e = .ok c ∧ c.selected? failing = some 0 ∧
      c.playedOut [failing, failing] = [] := ⟨_, rfl, by decide +kernel, by decide +kernel⟩
  obtain ⟨hturn, hplayOut, -⟩ := playsOut_of_build he hb [] [] failing
  exact ⟨he, c, hb, hturn, hselected, hpending, hplayOut 0 [failing] hselected hpending⟩

end Cell

end Stimulus
