import Stimulus.Proofs.Cell.Binding
import Stimulus.Proofs.Model.Stepping

/-!
# Sequences of calls

What a caller can do with a model, what every call answers, and the model after it. A call that
fails is answered too, and the calls behind it go on from what it has left. Evaluating an expression
once leaves nothing: of a sequence of calls, those that evaluate once can be left out.
-/
namespace Stimulus

open Stimulus.Random Stimulus.Sampling

/-- A call on a model. -/
inductive Call
  | advance
  | once (e : Expr)
  | seed (value : Int)
  | reset

/-- The answer to a call. A cycle answers its readings, also where it fails. -/
inductive Reply
  | cycle (outcome : Except Error Unit) (readings : List Reading) (refills : Array Refill)
  | value (outcome : Except Error Int) (refills : Array Refill)
  | seeded (outcome : Except Fault Unit)
  | reset

namespace Call

def isOnce : Call → Bool
  | once _ => true
  | _ => false

/-- A call with a mark is left out if it evaluates once. -/
def isKept (marked : Call × Bool) : Bool := !(marked.1.isOnce && marked.2)

theorem eq_once_of_not_isKept {marked : Call × Bool} (h : ¬isKept marked) :
    ∃ e, marked.1 = once e := by
  obtain ⟨call, mark⟩ := marked
  cases call with
  | once e => exact ⟨e, rfl⟩
  | advance | seed value | reset => simp [isKept, isOnce] at h

end Call

namespace Model

/-- The answer to a call, and the model after it. A refused seed changes nothing. -/
def perform (m : Model) : Call → Reply × Model
  | .advance =>
    let r := m.advance
    (.cycle r.outcome r.model.readings r.refills, r.model)
  | .once e =>
    let r := m.evaluateOnce e
    (.value r.outcome r.refills, r.model)
  | .seed value =>
    match m.reseed value with
    | .ok after => (.seeded (.ok ()), after)
    | .error fault => (.seeded (.error fault), m)
  | .reset => (.reset, m.reset)

/-- The answers to a sequence of calls, and the model after them. -/
def run (m : Model) : List Call → List Reply × Model
  | [] => ([], m)
  | call :: rest =>
    let first := m.perform call
    let more := first.2.run rest
    (first.1 :: more.1, more.2)

/-- The model after a sequence of calls. -/
def after (m : Model) (calls : List Call) : Model := (m.run calls).2

/-- The answers to a sequence of calls. -/
def replies (m : Model) (calls : List Call) : List Reply := (m.run calls).1

@[simp] theorem after_nil (m : Model) : m.after [] = m := rfl

@[simp] theorem after_cons (m : Model) (call : Call) (rest : List Call) :
    m.after (call :: rest) = (m.perform call).2.after rest := rfl

@[simp] theorem replies_nil (m : Model) : m.replies [] = [] := rfl

@[simp] theorem replies_cons (m : Model) (call : Call) (rest : List Call) :
    m.replies (call :: rest) = (m.perform call).1 :: (m.perform call).2.replies rest := rfl

theorem after_append (m : Model) (calls more : List Call) :
    m.after (calls ++ more) = (m.after calls).after more := by
  induction calls generalizing m with
  | nil => rfl
  | cons call rest ih => simp only [List.cons_append, after_cons, ih]

/-- A property that every call keeps holds after every sequence of calls. -/
theorem after_keeps {P : Model → Prop} (hcall : ∀ m call, P m → P (m.perform call).2) (m : Model)
    (calls : List Call) (hm : P m) : P (m.after calls) := by
  induction calls generalizing m with
  | nil => exact hm
  | cons call rest ih => exact ih _ (hcall m call hm)

/-- The cells of an expression that is evaluated once step no variable. -/
theorem next_not_mem_of_buildOnce {m : Model} {e : Expr} {c : Cell} (h : m.buildOnce e = .ok c)
    (ref : Identifier) (name : String) (index : Nat) : Leaf.next ref name index ∉ c.leaves := by
  obtain ⟨_, -, hbuild⟩ := bind_eq_ok h
  intro hmem
  have hbound := Scope.boundIn_of_buildCell hbuild _ hmem
  exact Bool.false_ne_true hbound.1

/-- Evaluating an expression once leaves the model as it was. -/
theorem model_evaluateOnce (m : Model) (e : Expr) : (m.evaluateOnce e).model = m := by
  unfold evaluateOnce
  split
  · rfl
  · rename_i c hc
    have hdraws : m.world.Draws (c.step (World.stepBelow m.cells.size) m.world).world := by
      refine c.step_keeps (I := m.world.Draws) (fun v v' hv hw => hw.trans hv) m.world ?_ (.refl _)
      intro ref name index hmem
      exact absurd hmem (next_not_mem_of_buildOnce hc ref name index)
    have hcells := hdraws.cells
    have hseed := hdraws.source.seed
    simp only [world] at hcells hseed
    simp only [world, Source.rewind, hcells, hseed]

theorem perform_once (m : Model) (e : Expr) :
    m.perform (.once e) = (.value (m.evaluateOnce e).outcome (m.evaluateOnce e).refills, m) := by
  rw [perform, model_evaluateOnce]

theorem after_replies_filter (m : Model) (calls : List (Call × Bool)) :
    m.after ((calls.filter Call.isKept).map Prod.fst) = m.after (calls.map Prod.fst) ∧
      m.replies ((calls.filter Call.isKept).map Prod.fst) =
        ((calls.zip (m.replies (calls.map Prod.fst))).filter (Call.isKept ·.1)).map Prod.snd := by
  induction calls generalizing m with
  | nil => exact ⟨rfl, rfl⟩
  | cons marked rest ih =>
    obtain ⟨hafter, hreplies⟩ := ih (m.perform marked.1).2
    by_cases hkept : Call.isKept marked
    · simp [hkept, hafter, hreplies]
    · obtain ⟨e, he⟩ := Call.eq_once_of_not_isKept hkept
      rw [he, perform_once] at hafter hreplies
      simp [hkept, he, perform_once, hafter, hreplies]

/-- Evaluating an expression once, whether it gives a value or fails, leaves the whole model as it
was. So in every sequence of calls, any of those that evaluate once may be left out: the others are
answered as before and the model at the end is the same. The same expression evaluated again gives
the same answer. -/
theorem evaluateOnce_invisible (m : Model) :
    (∀ e, (m.evaluateOnce e).model = m) ∧
      (∀ calls : List (Call × Bool),
        m.after ((calls.filter Call.isKept).map Prod.fst) = m.after (calls.map Prod.fst) ∧
          m.replies ((calls.filter Call.isKept).map Prod.fst) =
            ((calls.zip (m.replies (calls.map Prod.fst))).filter (Call.isKept ·.1)).map
              Prod.snd) ∧
      ∀ e, ∃ reply, m.replies [.once e, .once e] = [reply, reply] := by
  refine ⟨model_evaluateOnce m, after_replies_filter m, fun e => ?_⟩
  exact ⟨(m.perform (.once e)).1, by simp only [replies_cons, replies_nil, perform_once]⟩

end Model

end Stimulus
