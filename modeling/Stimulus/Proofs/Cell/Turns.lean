import Stimulus.Proofs.Cell.Build
import Stimulus.Proofs.Cell.Fair

/-!
# Rounds of turns

A cell is stepped turn after turn, each time in a world of its own. The members that a sampler
without replacement plays out are dealt in rounds, whatever the members do, wherever a turn fails
and whatever is drawn.
-/
namespace Stimulus

open Stimulus.Random Stimulus.Sampling

/-- What a step of a cell meets: a world, and a way to step other variables. -/
structure Turn where
  advance : Nat → World → Outcome × World
  world : World

namespace Cell

def turn (c : Cell) (t : Turn) : Stepped Cell := c.step t.advance t.world

def afterTurns (c : Cell) (turns : List Turn) : Cell :=
  turns.foldl (fun c t => (c.turn t).after) c

/-- The member that is stepped in a turn. -/
def selected? (t : Turn) : Cell → Option Nat
  | choice chooser members _ => (chooser.select members.length t.world).1.toOption
  | _ => none

/-- The member that says in a turn that it is done. -/
def playedOut? (t : Turn) : Cell → Option Nat
  | choice chooser members _ =>
    let selected := chooser.select members.length t.world
    match selected.1 with
    | .error _ => none
    | .ok i =>
      match (stepMember t.advance members i selected.2.2).outcome with
      | .error _ => none
      | .ok x => if x.done then some i else none
  | _ => none

/-- The members that are played out in some turns, one after the other. -/
def playedOut (c : Cell) : List Turn → List Nat
  | [] => []
  | t :: rest => (c.playedOut? t).toList ++ (c.turn t).after.playedOut rest

/-- The member that is in the middle of being played out. -/
def pending? : Cell → Option Nat
  | choice chooser _ _ => chooser.ticket?.map Ticket.member
  | _ => none

/-- The members that a sampler without replacement has yet to play out in this round. -/
def owed : Cell → Multiset Nat
  | choice chooser _ _ => chooser.owed
  | _ => 0

@[simp] theorem afterTurns_nil (c : Cell) : c.afterTurns [] = c := rfl

@[simp] theorem afterTurns_cons (c : Cell) (t : Turn) (rest : List Turn) :
    c.afterTurns (t :: rest) = (c.turn t).after.afterTurns rest := rfl

theorem afterTurns_append (c : Cell) (turns more : List Turn) :
    c.afterTurns (turns ++ more) = (c.afterTurns turns).afterTurns more := List.foldl_append

@[simp] theorem reset_afterTurns (c : Cell) (turns : List Turn) :
    (c.afterTurns turns).reset = c.reset := by
  induction turns generalizing c with
  | nil => rfl
  | cons t rest ih => rw [afterTurns_cons, ih, turn, reset_step]

/-- The cell after some runs of turns with a reset behind each of them. -/
def afterRuns (c : Cell) (runs : List (List Turn)) : Cell :=
  runs.foldl (fun c turns => (c.afterTurns turns).reset) c

/-- Nothing but the reset is left of runs that end with one. -/
theorem afterRuns_cons (c : Cell) (turns : List Turn) (runs : List (List Turn)) :
    c.afterRuns (turns :: runs) = c.reset := by
  induction runs generalizing c turns with
  | nil => exact reset_afterTurns c turns
  | cons more rest ih =>
    rw [afterRuns, List.foldl_cons]
    exact (ih (c.afterTurns turns).reset more).trans (by rw [reset_reset, reset_afterTurns])

/-- A sampler without replacement over a full bag. -/
def Fair (full : Multiset Nat) : Cell → Prop
  | choice chooser _ _ => chooser.Fair full
  | _ => False

variable {full : Multiset Nat} {c : Cell}

/-- A turn in which no member is done owes what was owed before it. -/
theorem Fair.turn_pending (h : c.Fair full) (t : Turn) (hpending : c.playedOut? t = none) :
    (c.turn t).after.Fair full ∧ (c.turn t).after.owed = c.owed ∧
      ∀ x, (c.turn t).outcome = .ok x → x.done = false := by
  cases c with
  | choice chooser members r =>
    obtain ⟨hfair, howed⟩ := Chooser.Fair.select h members.length t.world
    simp only [playedOut?] at hpending
    simp only [turn, step]
    split
    · exact ⟨hfair, howed, by simp⟩
    · rename_i i hi
      simp only [hi] at hpending
      split
      · exact ⟨hfair, howed, by simp⟩
      · rename_i x hx
        have hundone : x.done = false := by simpa [hx] using hpending
        simp only [hundone, Chooser.settle_pending hfair.sound.isSampler]
        refine ⟨hfair, howed, ?_⟩
        rintro _ ⟨⟩
        rfl
  | _ => cases h

/-- A turn in which a member is done takes the member off, and the sampler is done if nothing is
left in its round. -/
theorem Fair.turn_playedOut (h : c.Fair full) (t : Turn) {i : Nat}
    (hplayed : c.playedOut? t = some i) :
    i ∈ c.owed ∧ (c.turn t).after.Fair full ∧ (c.turn t).after.owed = owedAfter full c.owed i ∧
      ∃ x, (c.turn t).outcome = .ok x ∧ (x.done = true ↔ c.owed.erase i = 0) := by
  cases c with
  | choice chooser members r =>
    obtain ⟨hfair, howed⟩ := Chooser.Fair.select h members.length t.world
    have hticket := Chooser.Fair.ticket_select h members.length t.world
    simp only [playedOut?] at hplayed
    simp only [turn, step]
    split
    · rename_i failure hfailure
      simp [hfailure] at hplayed
    · rename_i j hj
      simp only [hj] at hplayed
      split
      · rename_i failure hfailure
        simp [hfailure] at hplayed
      · rename_i x hx
        simp only [hx, Option.ite_none_right_eq_some, Option.some.injEq] at hplayed
        obtain ⟨hdone, rfl⟩ := hplayed
        rw [hj] at hticket
        obtain ⟨ticket, hheld, rfl⟩ := Option.map_eq_some_iff.mp hticket
        obtain ⟨hlast, hsettled, hafter⟩ := hfair.settle_done hheld members.length
        have hmem : ticket.member ∈ chooser.owed := by
          rw [← howed, Chooser.owed_of_ticket hheld]
          exact Multiset.mem_cons_self _ _
        simp only [hdone]
        rw [howed] at hlast hafter
        exact ⟨hmem, hsettled, hafter, _, rfl, hlast⟩
  | _ => cases h

/-- Whatever happens in them, turns deal the members in rounds. -/
theorem Fair.deals (h : c.Fair full) (turns : List Turn) :
    Deals full c.owed (c.playedOut turns) (c.afterTurns turns).owed ∧
      (c.afterTurns turns).Fair full := by
  induction turns generalizing c with
  | nil => exact ⟨.nil, h⟩
  | cons t rest ih =>
    rw [afterTurns_cons, playedOut]
    cases hplayed : c.playedOut? t with
    | none =>
      obtain ⟨hfair, howed, -⟩ := h.turn_pending t hplayed
      rw [← howed]
      exact ih hfair
    | some i =>
      obtain ⟨hmem, hfair, howed, -⟩ := h.turn_playedOut t hplayed
      obtain ⟨hdeals, hafter⟩ := ih hfair
      rw [howed] at hdeals
      exact ⟨.cons hmem hdeals, hafter⟩

/-- From a full bag on, turns deal whole rounds. -/
theorem Fair.rounds (h : c.Fair full) (howed : c.owed = full) (turns : List Turn) :
    Deals full full (c.playedOut turns) (c.afterTurns turns).owed :=
  howed ▸ (h.deals turns).1

/-- From a full bag on, a sampler is done in those turns that complete a round. -/
theorem Fair.done_iff (h : c.Fair full) (howed : c.owed = full) (hfull : full ≠ 0)
    (before : List Turn) (t : Turn) :
    (∃ x, ((c.afterTurns before).turn t).outcome = .ok x ∧ x.done = true) ↔
      (c.afterTurns before).playedOut? t ≠ none ∧
        full.card ∣ (c.playedOut (before ++ [t])).length := by
  have hfair := (h.deals before).2
  have hle := (h.rounds howed before).left_le le_rfl
  have hclosed := (h.rounds howed (before ++ [t])).left_eq_full_iff hfull
  rw [← hclosed, afterTurns_append, afterTurns_cons, afterTurns_nil]
  cases hplayed : (c.afterTurns before).playedOut? t with
  | none =>
    obtain ⟨-, -, hundone⟩ := hfair.turn_pending t hplayed
    refine iff_of_false ?_ (fun h => h.1 rfl)
    rintro ⟨x, hx, hdone⟩
    rw [hundone x hx] at hdone
    cases hdone
  | some i =>
    obtain ⟨hmem, -, hafter, x, hx, hlast⟩ := hfair.turn_playedOut t hplayed
    rw [hafter, owedAfter_eq_full_iff hmem hle, ← hlast]
    constructor
    · rintro ⟨y, hy, hdone⟩
      rw [hx] at hy
      cases hy
      exact ⟨Option.some_ne_none i, hdone⟩
    · exact fun hdone => ⟨x, hx, hdone.2⟩

/-- A turn that fails plays no member out, and the member that it stepped stays selected. -/
theorem Fair.turn_failed (h : c.Fair full) (t : Turn) {failure : Failure}
    (hfailure : (c.turn t).outcome = .error failure) :
    c.playedOut? t = none ∧ (c.turn t).after.pending? = c.selected? t := by
  cases c with
  | choice chooser members r =>
    have hticket := Chooser.Fair.ticket_select h members.length t.world
    simp only [turn, step] at hfailure ⊢
    simp only [playedOut?, selected?]
    cases hselected : (chooser.select members.length t.world).1 with
    | error other =>
      rw [hselected] at hticket
      exact ⟨rfl, hticket⟩
    | ok i =>
      rw [hselected] at hticket
      simp only [hselected] at hfailure ⊢
      cases hmember : (stepMember t.advance members i
          (chooser.select members.length t.world).2.2).outcome with
      | error other => exact ⟨rfl, hticket⟩
      | ok x =>
        rw [hmember] at hfailure
        cases hfailure
  | _ => cases h

end Cell

end Stimulus
