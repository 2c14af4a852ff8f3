import Mathlib.Data.Int.CardIntervalMod
import Stimulus.Proofs.Cell.Binding
import Stimulus.Proofs.Cell.Turns
import Stimulus.Proofs.Expr.Stream

/-!
# Cells of closed expressions

The cells of a closed expression give its stream. Each cell stands at a place of the stream of its
own expression: the operands of a node move on whenever the node does, and a member of a pattern
only when it is its turn.
-/
namespace Stimulus

open Stimulus.Random

/-- One step of a progression, by its operands. -/
theorem Progress.advance_eq (p : Progress) (ready : Bool) (b : Bounds) :
    p.advance ready b.first b.last b.increment =
      let value :=
        if !ready || p.needsReset then b.first
        else if b.beyond (b.behind p.current) then b.first else b.behind p.current
      (⟨value, b.beyond (b.behind value)⟩,
        { current := value, ascending := b.first ≤ b.last, needsReset := false }) := by
  have hpassed (value : Int) : passed value b.last (b.first ≤ b.last) = b.beyond value := by
    unfold passed Bounds.beyond Bounds.direction
    by_cases hle : b.first ≤ b.last <;> simp [hle]
  have hstepped (value : Int) :
      stepped value b.increment.natAbs (b.first ≤ b.last) = b.behind value := by
    unfold stepped Bounds.behind Bounds.direction
    by_cases hle : b.first ≤ b.last
    · simp [hle]
    · simp [hle]
      omega
  simp only [advance, hpassed, hstepped]

/-- A progression that stands at a place: it is about to start, or it has the value of the place
before. -/
inductive Progress.Stands (bounds : Nat → Option Bounds) : Nat → Progress → Bool → Prop
  | start {p : Progress} {ready : Bool} (hreset : p.needsReset = true) : Stands bounds 0 p ready
  | next {k : Nat} {p : Progress} (hreset : p.needsReset = false)
      (hcurrent : progressionValue bounds k = some p.current) : Stands bounds (k + 1) p true

/-- A step of a progression that stands at a place gives the reading there. -/
theorem Progress.Stands.advance {bounds : Nat → Option Bounds} {k : Nat} {p : Progress}
    {ready : Bool} (h : p.Stands bounds k ready) {b : Bounds} (hb : bounds k = some b) :
    progression bounds k = some (p.advance ready b.first b.last b.increment).1 ∧
      (p.advance ready b.first b.last b.increment).2.Stands bounds (k + 1) true := by
  have hvalue : progressionValue bounds k =
      some (p.advance ready b.first b.last b.increment).1.value := by
    rw [advance_eq]
    cases h with
    | start hreset => simp [progressionValue, hb, hreset]
    | next hreset hcurrent => simp [progressionValue, hb, hreset, hcurrent]
  constructor
  · simp only [progression, hb, hvalue, bind, Option.bind]
    rw [advance_eq]
    rfl
  · exact .next rfl hvalue

namespace Cell

variable {constant : Identifier → Option Int}

/-- A cell that stands at a place of the stream of an expression: it has been stepped that often,
and so have the cells below it, except that the members of a pattern have taken turns. -/
inductive Stands (constant : Identifier → Option Int) : Expr → Nat → Cell → Prop
  | literal (value : Int) (k : Nat) (r : Report) :
      Stands constant (.literal value) k (leaf (.literal value) r)
  | item (name : String) (value : Int) (k : Nat) (r : Report) :
      Stands constant (.item name value) k (leaf (.item name value) r)
  | reference {ref : Identifier} {value : Int} (k : Nat) (r : Report)
      (href : constant ref = some value) :
      Stands constant (.reference ref) k (leaf (.constant ref value) r)
  | pattern {members : List Expr} {cells : List Cell} {k : Nat} (r : Report)
      (hlength : cells.length = members.length) (hne : members ≠ [])
      (hcells : ∀ i e c, members[i]? = some e → cells[i]? = some c →
        Stands constant e (Nat.count (· % members.length = i) k) c) :
      Stands constant (.pattern members) k (choice (.pattern (k % members.length)) cells r)
  | sequence {a b d : Expr} {k : Nat} {first last increment : Cell} {p : Progress} {r : Report}
      (hfirst : Stands constant a k first) (hlast : Stands constant b k last)
      (hincrement : Stands constant d k increment)
      (hprogress : p.Stands (Expr.bounds constant a b d) k r.ready) :
      Stands constant (.sequence a b d) k (sequence first last increment p r)
  | unary {op : UnaryOp} {e : Expr} {k : Nat} {operand : Cell} (r : Report)
      (hoperand : Stands constant e k operand) :
      Stands constant (.unary op e) k (unary op operand r)
  | binary {op : BinaryOp} {a b : Expr} {k : Nat} {left right : Cell} (r : Report)
      (hleft : Stands constant a k left) (hright : Stands constant b k right) :
      Stands constant (.binary op a b) k (binary op left right r)

/-- What a step gives that follows a stream: its element, or a failure where it has none. Nothing
but the cell changes. -/
structure Gives (reading? : Option Reading) (next : Cell → Prop) (w : World) (s : Stepped Cell) :
    Prop where
  world : s.world = w
  outcome : s.outcome.toOption = reading?
  next : ∀ x, s.outcome = .ok x → next s.after

theorem Gives.cases {reading? : Option Reading} {next : Cell → Prop} {w : World} {s : Stepped Cell}
    (h : Gives reading? next w s) :
    (∃ failure, s.outcome = .error failure ∧ reading? = none) ∨
      ∃ x, s.outcome = .ok x ∧ reading? = some x ∧ next s.after := by
  have houtcome := h.outcome
  cases hs : s.outcome with
  | error failure =>
    rw [hs] at houtcome
    exact .inl ⟨failure, rfl, houtcome.symm⟩
  | ok x =>
    rw [hs] at houtcome
    exact .inr ⟨x, rfl, houtcome.symm, h.next x hs⟩

theorem Gives.failed {next : Cell → Prop} {w : World} {c : Cell} {failure : Failure} :
    Gives none next w ⟨.error failure, c, w⟩ :=
  ⟨rfl, rfl, fun _ h => nomatch h⟩

theorem Gives.done {next : Cell → Prop} {w : World} {c : Cell} {x : Reading} (h : next c) :
    Gives (some x) next w ⟨.ok x, c, w⟩ :=
  ⟨rfl, rfl, fun _ _ => h⟩

variable {advance : Nat → World → Outcome × World}

/-- A member has been stepped once in every round of its pattern. -/
theorem count_turns {n : Nat} (hn : 0 < n) (k : Nat) :
    Nat.count (· % n = k % n) k = k / n := by
  have hcount := Nat.count_modEq_card k hn k
  rw [if_neg (Nat.lt_irrefl _), Nat.add_zero] at hcount
  exact hcount

/-- A step of a cell that stands at a place of a stream gives the element there, and then the cell
stands at the next place. -/
theorem Stands.step {e : Expr} {k : Nat} {c : Cell} (h : Stands constant e k c) (w : World) :
    Gives (e.stream constant k) (Stands constant e (k + 1)) w (c.step advance w) := by
  induction h generalizing w with
  | literal value k r => exact .done (.literal value (k + 1) _)
  | item name value k r => exact .done (.item name value (k + 1) _)
  | reference k r href =>
    rw [Expr.stream, href]
    exact .done (.reference (k + 1) _ href)
  | @pattern members cells k r hlength hne hcells ih =>
    have hn : 0 < members.length := List.length_pos_iff.mpr hne
    have hturn : k % members.length < members.length := Nat.mod_lt k hn
    obtain ⟨e, he⟩ : ∃ e, members[k % members.length]? = some e :=
      ⟨_, List.getElem?_eq_getElem hturn⟩
    obtain ⟨c, hc⟩ : ∃ c, cells[k % members.length]? = some c :=
      ⟨_, List.getElem?_eq_getElem (hlength ▸ hturn)⟩
    have hmember := ih _ e c he hc w
    rw [count_turns hn] at hmember
    simp only [Cell.step, Chooser.select, stepMember_eq, hc, hmember.world]
    rw [Expr.stream, Expr.memberStream_eq, he, Option.bind_some]
    obtain ⟨failure, hs, hnone⟩ | ⟨x, hs, hsome, hnext⟩ := hmember.cases
    · rw [hs, hnone]
      exact .failed
    · simp only [hs, hsome, Chooser.settle, Option.map_some, hlength]
      apply Gives.done
      rw [Nat.mod_add_mod]
      refine .pattern _ (by rw [List.length_set, hlength]) hne fun i e' c' he' hc' => ?_
      rw [Nat.count_succ]
      by_cases hi : k % members.length = i
      · subst hi
        rw [List.getElem?_set_self (hlength ▸ hturn)] at hc'
        cases hc'
        rw [he] at he'
        cases he'
        rw [count_turns hn, if_pos rfl]
        exact hnext
      · rw [List.getElem?_set_ne hi] at hc'
        rw [if_neg hi]
        exact hcells i e' c' he' hc'
  | @sequence a b d k first last increment p r hfirst hlast hincrement hprogress
      ihFirst ihLast ihIncrement =>
    have hs := ihFirst w
    have ht := ihLast w
    have hu := ihIncrement w
    rw [Expr.stream_sequence]
    simp only [Cell.step, hs.world]
    obtain ⟨failure, hs', hnone⟩ | ⟨x, hs', hx, hfirst'⟩ := hs.cases
    · simp only [hs', progression, Expr.bounds, Bounds.ofReadings?, hnone]
      exact .failed
    simp only [hs', ht.world]
    obtain ⟨failure, ht', hnone⟩ | ⟨y, ht', hy, hlast'⟩ := ht.cases
    · simp only [ht', progression, Expr.bounds, Bounds.ofReadings?, hx, hnone]
      exact .failed
    simp only [ht', hu.world]
    obtain ⟨failure, hu', hnone⟩ | ⟨z, hu', hz, hincrement'⟩ := hu.cases
    · simp only [hu', progression, Expr.bounds, Bounds.ofReadings?, hx, hy, hnone]
      exact .failed
    simp only [hu']
    by_cases hzero : z.value = 0
    · have hbounds : Expr.bounds constant a b d k = none := by
        simp only [Expr.bounds, Bounds.ofReadings?, hx, hy, hz, bind, Option.bind, if_pos hzero]
      simp only [if_pos hzero, progression, hbounds]
      exact .failed
    have hbounds : Expr.bounds constant a b d k = some ⟨x.value, y.value, z.value⟩ := by
      simp only [Expr.bounds, Bounds.ofReadings?, hx, hy, hz, bind, Option.bind, if_neg hzero]
    obtain ⟨hreading, hafter⟩ := hprogress.advance hbounds
    rw [if_neg hzero, hreading]
    exact .done (.sequence hfirst' hlast' hincrement' hafter)
  | @unary op e k operand r hoperand ih =>
    have hs := ih w
    simp only [Cell.step, hs.world]
    rw [Expr.stream]
    obtain ⟨failure, hs', hnone⟩ | ⟨x, hs', hx, hnext⟩ := hs.cases
    · rw [hs', hnone]
      exact .failed
    · rw [hs', hx]
      exact .done (.unary _ hnext)
  | @binary op a b k left right r hleft hright ihLeft ihRight =>
    have hs := ihLeft w
    have ht := ihRight w
    rw [Expr.stream]
    simp only [Cell.step, hs.world]
    obtain ⟨failure, hs', hnone⟩ | ⟨x, hs', hx, hleft'⟩ := hs.cases
    · simp only [hs', hnone]
      exact .failed
    simp only [hs', ht.world, hx]
    obtain ⟨failure, ht', hnone⟩ | ⟨y, ht', hy, hright'⟩ := ht.cases
    · simp only [ht', hnone]
      exact .failed
    simp only [ht', hy]
    cases happly : op.apply x.value y.value with
    | error failure =>
      simp only [happly, Except.map, Except.toOption, bind, Option.bind]
      exact .failed
    | ok value =>
      simp only [happly, Except.map, Except.toOption, bind, Option.bind]
      exact .done (.binary _ hleft' hright')

/-- What a cell gives in some turns, one after the other. -/
def outcomes (c : Cell) : List Turn → List Outcome
  | [] => []
  | t :: rest => (c.turn t).outcome :: (c.turn t).after.outcomes rest

/-- Turns that all succeed move a cell on by their number. -/
theorem Stands.afterTurns {e : Expr} {k : Nat} {c : Cell} (h : Stands constant e k c)
    {turns : List Turn} (hok : ∀ o ∈ c.outcomes turns, ∃ x, o = .ok x) :
    Stands constant e (k + turns.length) (c.afterTurns turns) := by
  induction turns generalizing c k with
  | nil => exact h
  | cons t rest ih =>
    rw [outcomes, List.forall_mem_cons] at hok
    obtain ⟨⟨x, hx⟩, hrest⟩ := hok
    have hnext : Stands constant e (k + 1) (c.turn t).after := (h.step t.world).next x hx
    rw [afterTurns_cons, List.length_cons, Nat.add_comm rest.length 1, ← Nat.add_assoc]
    exact ih hnext hrest

variable {bind : Identifier → Except Error Cell}

theorem exists_buildMembers {p : Expr → Cell → Prop} {members : List Expr}
    (h : ∀ e ∈ members, ∃ c, build bind e = .ok c ∧ p e c) :
    ∃ cells, buildMembers bind members = .ok cells ∧ List.Forall₂ p members cells := by
  induction members with
  | nil => exact ⟨[], rfl, .nil⟩
  | cons e rest ih =>
    rw [List.forall_mem_cons] at h
    obtain ⟨⟨c, hc, hp⟩, hrest⟩ := h
    obtain ⟨cells, hcells, hall⟩ := ih hrest
    refine ⟨c :: cells, ?_, .cons hp hall⟩
    simp only [buildMembers, hc, hcells]
    rfl

/-- A closed expression has cells, and these stand at the first place of its stream. -/
theorem exists_build_of_closed
    (hbind : ∀ ref value, constant ref = some value →
      bind ref = .ok (leaf (.constant ref value) {}))
    {e : Expr} (he : e.Closed constant) : ∃ c, build bind e = .ok c ∧ Stands constant e 0 c := by
  induction he with
  | literal value => exact ⟨_, rfl, .literal value 0 {}⟩
  | item name value => exact ⟨_, rfl, .item name value 0 {}⟩
  | reference href => exact ⟨_, hbind _ _ href, .reference 0 {} href⟩
  | @pattern members hne _ ih =>
    obtain ⟨cells, hcells, hall⟩ := exists_buildMembers ih
    refine ⟨choice (.pattern 0) cells {}, ?_, ?_⟩
    · simp only [build, hcells]
      rfl
    · have hplace : Stands constant (.pattern members) 0
          (choice (.pattern (0 % members.length)) cells {}) := by
        refine .pattern {} hall.length_eq.symm hne fun i e c he hc => ?_
        rw [Nat.count_zero]
        obtain ⟨hi, rfl⟩ := List.getElem?_eq_some_iff.mp he
        obtain ⟨hi', rfl⟩ := List.getElem?_eq_some_iff.mp hc
        exact hall.get hi hi'
      rwa [Nat.zero_mod] at hplace
  | sequence _ _ _ ihFirst ihLast ihIncrement =>
    obtain ⟨first, hfirst, ha⟩ := ihFirst
    obtain ⟨last, hlast, hb⟩ := ihLast
    obtain ⟨increment, hincrement, hd⟩ := ihIncrement
    refine ⟨sequence first last increment {} {}, ?_, .sequence ha hb hd (.start rfl)⟩
    simp only [build, hfirst, hlast, hincrement]
    rfl
  | @unary op e _ ih =>
    obtain ⟨operand, hoperand, h⟩ := ih
    refine ⟨unary op operand {}, ?_, .unary {} h⟩
    simp only [build, hoperand]
    rfl
  | @binary op a b _ _ ihLeft ihRight =>
    obtain ⟨left, hleft, ha⟩ := ihLeft
    obtain ⟨right, hright, hb⟩ := ihRight
    refine ⟨binary op left right {}, ?_, .binary {} ha hb⟩
    simp only [build, hleft, hright]
    rfl

end Cell

namespace Scope

/-- The value of a reference that stands for an item of an enumeration. -/
def constant? (scope : Scope) (use : Use) (ref : Identifier) : Option Int :=
  match scope.resolveTarget use ref with
  | .ok (.constant value) => some value
  | _ => none

theorem bind_of_constant? {scope : Scope} {use : Use} {body : Nat → Except Error Cell}
    {position? : Option Position} {ref : Identifier} {value : Int}
    (h : scope.constant? use ref = some value) :
    scope.bind use body position? ref = .ok (.leaf (.constant ref value) {}) := by
  unfold constant? at h
  split at h
  · rename_i other htarget
    cases h
    rw [bind_of_resolveTarget htarget]
    rfl
  · cases h

/-- A closed expression has cells, and from their first step on, or from a reset on, they give its
stream: as long as no step has failed, the next one gives the element of the stream that has the
number of steps before it, and fails if there is none. It leaves the world, and with it the source
of all draws, as it was. -/
theorem closed_gives_stream {scope : Scope} {use : Use} {e : Expr}
    (he : e.Closed (scope.constant? use)) (position? : Option Position) :
    ∃ c, scope.buildCell use position? e = .ok c ∧
      ∀ (runs : List (List Turn)) (turns : List Turn) (t : Turn),
        (∀ o ∈ (c.afterRuns runs).outcomes turns, ∃ x, o = .ok x) →
        (((c.afterRuns runs).afterTurns turns).turn t).outcome.toOption =
            e.stream (scope.constant? use) turns.length ∧
          (((c.afterRuns runs).afterTurns turns).turn t).world = t.world := by
  obtain ⟨c, hc, hstands⟩ : ∃ c, scope.buildCell use position? e = .ok c ∧
      Cell.Stands (scope.constant? use) e 0 c :=
    Cell.exists_build_of_closed (fun _ _ => bind_of_constant?) he
  refine ⟨c, hc, fun runs turns t hok => ?_⟩
  have hfresh : c.afterRuns runs = c := by
    cases runs with
    | nil => rfl
    | cons first rest => rw [Cell.afterRuns_cons, reset_buildCell hc]
  rw [hfresh] at hok ⊢
  have hafter := hstands.afterTurns hok
  rw [Nat.zero_add] at hafter
  have hgives : Cell.Gives _ _ t.world ((c.afterTurns turns).turn t) := hafter.step t.world
  exact ⟨hgives.outcome, hgives.world⟩

/-- A pattern of a sequence with a changing increment and an item, in its third step. -/
theorem closed_gives_stream_pattern :
    let scope : Scope := { enumerations := [⟨"E", [("A", 3)]⟩] }
    let e : Expr := .pattern
      [.sequence (.literal 0) (.literal 4) (.pattern [.literal 1, .literal 2]),
        .reference { path := "E.A" }]
    ∃ c, scope.buildCell {} none e = .ok c ∧ ∀ t₀ t₁ t : Turn,
      ((c.afterTurns [t₀, t₁]).turn t).outcome.toOption = some ⟨2, false⟩ ∧
        ((c.afterTurns [t₀, t₁]).turn t).world = t.world := by
  intro scope e
  have he : e.Closed (scope.constant? {}) := by
    have href : scope.constant? {} { path := "E.A" } = some 3 := by decide +kernel
    have hincrement : (Expr.pattern [.literal 1, .literal 2]).Closed (scope.constant? {}) := by
      refine .pattern (by decide) ?_
      simp only [List.forall_mem_cons]
      exact ⟨.literal 1, .literal 2, by simp⟩
    refine .pattern (by simp) ?_
    simp only [List.forall_mem_cons]
    exact ⟨.sequence (.literal 0) (.literal 4) hincrement, .reference href, by simp⟩
  have hthird : e.stream (scope.constant? {}) 2 = some ⟨2, false⟩ := by decide +kernel
  obtain ⟨c, hc, hstream⟩ := closed_gives_stream he none
  refine ⟨c, hc, fun t₀ t₁ t => ?_⟩
  have hok : c.outcomes [t₀, t₁] = [.ok ⟨0, false⟩, .ok ⟨3, true⟩] := by
    cases hc
    rfl
  rw [← hthird]
  apply hstream [] [t₀, t₁] t
  intro o ho
  rw [Cell.afterRuns, List.foldl_nil, hok] at ho
  simp only [List.mem_cons, List.not_mem_nil, or_false] at ho
  obtain rfl | rfl := ho
  · exact ⟨_, rfl⟩
  · exact ⟨_, rfl⟩

end Scope

end Stimulus
