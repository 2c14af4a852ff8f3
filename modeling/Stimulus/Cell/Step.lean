import Stimulus.Cell.Basic
import Stimulus.Word

/-!
# Stepping cells

A step of a cell gives a reading or a failure, and in both cases the cell and the world after it. A
failure leaves everything as far as it had come: an operand that was stepped has moved on, and a
member that was drawn stays selected; but no cell that failed changes its report.
-/
namespace Stimulus

open Stimulus.Random Stimulus.Sampling

abbrev Outcome := Except Failure Reading

/-- What the steps of all variables share: the variables' cells, the source, and the refills so
far. -/
structure World where
  cells : Array Cell
  source : Source
  refills : Array Refill := #[]

/-- The result of a step together with what it leaves behind. -/
structure Stepped (σ : Type) where
  outcome : Outcome
  after : σ
  world : World

namespace World

/-- The reading that a variable reports. -/
def read (w : World) (index : Nat) : Outcome :=
  match w.cells[index]? with
  | some cell => .ok cell.reading
  | none => .error (.fault (.outOfReach index))

/-- Draws one of some values. -/
def drawValue (w : World) (values : List Int) : Outcome × World :=
  match w.source.uniformIndex values.length with
  | .error fault => (.error (.fault fault), w)
  | .ok (i, source) =>
    match values[i]? with
    | some value => (.ok ⟨value, true⟩, { w with source })
    | none => (.error (.fault .noSuchMember), { w with source })

/-- Draws an integer between two bounds, which were read for a range. -/
def drawBetween (w : World) (range : Expr) (lo hi : Int) : Outcome × World :=
  if hi < lo then (.error (.cause (.reversedRange range lo hi)), w)
  else match w.source.uniformInt lo hi with
    | .error fault => (.error (.fault fault), w)
    | .ok (value, source) => (.ok ⟨value, true⟩, { w with source })

/-- Takes over the source of a draw from a pool and notes its refill. -/
def afterDraw {Pool : Type} (w : World) (d : Draw Pool) : World :=
  { w with source := d.source, refills := w.refills ++ d.refill?.toList.toArray }

end World

namespace Leaf

/-- One step of a leaf; `advance` steps a variable. -/
def step (advance : Nat → World → Outcome × World) (w : World) : Leaf → Outcome × World
  | literal value | item _ value | constant _ value => (.ok ⟨value, true⟩, w)
  | enumeration _ _ values => w.drawValue values
  | read _ _ index => (w.read index, w)
  | next _ _ index => advance index w

end Leaf

namespace Chooser

/-- The member to be stepped, among `count`. A sampler draws one if none is selected. -/
def select (count : Nat) (w : World) : Chooser → Except Failure Nat × Chooser × World
  | pattern cursor => (.ok cursor, pattern cursor, w)
  | sample none =>
    match w.source.uniformIndex count with
    | .error fault => (.error (.fault fault), sample none, w)
    | .ok (member, source) => (.ok member, sample (some member), { w with source })
  | weightedSample table none =>
    match table.draw w.source with
    | .error failure => (.error failure, weightedSample table none, w)
    | .ok (member, source) =>
      (.ok member, weightedSample table (some member), { w with source })
  | pool p none =>
    let d := p.draw w.source
    match d.outcome with
    | .error failure => (.error failure, pool d.pool none, w.afterDraw d)
    | .ok ticket => (.ok ticket.member, pool d.pool (some ticket), w.afterDraw d)
  | weightedPool p none =>
    let d := p.draw w.source
    match d.outcome with
    | .error failure => (.error failure, weightedPool d.pool none, w.afterDraw d)
    | .ok ticket => (.ok ticket.member, weightedPool d.pool (some ticket), w.afterDraw d)
  | sample (some member) => (.ok member, sample (some member), w)
  | weightedSample table (some member) => (.ok member, weightedSample table (some member), w)
  | pool p (some ticket) => (.ok ticket.member, pool p (some ticket), w)
  | weightedPool p (some ticket) => (.ok ticket.member, weightedPool p (some ticket), w)

/-- What follows from a member's reading: the done flag, and the chooser for the next step. A
pattern moves on with every step and is done at its last member; a sampler lets go of a member that
is done, and a pool is done with the member that emptied it. -/
def settle (count : Nat) (memberDone : Bool) : Chooser → Bool × Chooser
  | pattern cursor => (cursor + 1 == count, pattern ((cursor + 1) % count))
  | sample current? => (memberDone, sample (if memberDone then none else current?))
  | weightedSample table current? =>
    (memberDone, weightedSample table (if memberDone then none else current?))
  | pool p current? =>
    (memberDone && current?.any (·.last), pool p (if memberDone then none else current?))
  | weightedPool p current? =>
    (memberDone && current?.any (·.last), weightedPool p (if memberDone then none else current?))

end Chooser

namespace Cell

mutual

/-- One step of a cell; `advance` steps another variable. -/
def step (advance : Nat → World → Outcome × World) : Cell → World → Stepped Cell
  | leaf l r, w =>
    let taken := l.step advance w
    ⟨taken.1, leaf l (r.settle taken.1), taken.2⟩
  | copy ref name body r, w =>
    let s := body.step advance w
    ⟨s.outcome, copy ref name s.after (r.settle s.outcome), s.world⟩
  | range min max r, w =>
    let s := min.step advance w
    match s.outcome with
    | .error failure => ⟨.error failure, range s.after max r, s.world⟩
    | .ok lo =>
      let t := max.step advance s.world
      match t.outcome with
      | .error failure => ⟨.error failure, range s.after t.after r, t.world⟩
      | .ok hi =>
        let drawn := t.world.drawBetween (.range min.expr max.expr) lo.value hi.value
        ⟨drawn.1, range s.after t.after (r.settle drawn.1), drawn.2⟩
  | sequence first last increment p r, w =>
    let s := first.step advance w
    match s.outcome with
    | .error failure => ⟨.error failure, sequence s.after last increment p r, s.world⟩
    | .ok a =>
      let t := last.step advance s.world
      match t.outcome with
      | .error failure => ⟨.error failure, sequence s.after t.after increment p r, t.world⟩
      | .ok b =>
        let u := increment.step advance t.world
        match u.outcome with
        | .error failure => ⟨.error failure, sequence s.after t.after u.after p r, u.world⟩
        | .ok c =>
          if c.value = 0 then
            let cause := .zeroIncrement (.sequence first.expr last.expr increment.expr)
            ⟨.error (.cause cause), sequence s.after t.after u.after p r, u.world⟩
          else
            let moved := p.advance r.ready a.value b.value c.value
            ⟨.ok moved.1, sequence s.after t.after u.after moved.2 (.ofReading moved.1), u.world⟩
  | choice chooser members r, w =>
    let selected := chooser.select members.length w
    match selected.1 with
    | .error failure => ⟨.error failure, choice selected.2.1 members r, selected.2.2⟩
    | .ok i =>
      let s := stepMember advance members i selected.2.2
      match s.outcome with
      | .error failure => ⟨.error failure, choice selected.2.1 s.after r, s.world⟩
      | .ok x =>
        let settled := selected.2.1.settle members.length x.done
        let reading : Reading := ⟨x.value, settled.1⟩
        ⟨.ok reading, choice settled.2 s.after (.ofReading reading), s.world⟩
  | unary op operand r, w =>
    let s := operand.step advance w
    let outcome := s.outcome.map fun x => ⟨op.apply x.value, x.done⟩
    ⟨outcome, unary op s.after (r.settle outcome), s.world⟩
  | binary op left right r, w =>
    let s := left.step advance w
    match s.outcome with
    | .error failure => ⟨.error failure, binary op s.after right r, s.world⟩
    | .ok x =>
      let t := right.step advance s.world
      match t.outcome with
      | .error failure => ⟨.error failure, binary op s.after t.after r, t.world⟩
      | .ok y =>
        let outcome := (op.apply x.value y.value).map fun value => ⟨value, x.done || y.done⟩
        ⟨outcome, binary op s.after t.after (r.settle outcome), t.world⟩

/-- One step of the member at a place. -/
def stepMember (advance : Nat → World → Outcome × World) :
    List Cell → Nat → World → Stepped (List Cell)
  | [], _, w => ⟨.error (.fault .noSuchMember), [], w⟩
  | c :: rest, 0, w =>
    let s := c.step advance w
    ⟨s.outcome, s.after :: rest, s.world⟩
  | c :: rest, i + 1, w =>
    let s := stepMember advance rest i w
    ⟨s.outcome, c :: s.after, s.world⟩

end

end Cell

namespace World

/-- One step of the variable at `index`, which is below `bound`. Its cells may step variables
before it. -/
def stepBelow : (bound index : Nat) → World → Outcome × World
  | 0, index, w => (.error (.fault (.outOfReach index)), w)
  | bound + 1, index, w =>
    if index = bound then
      match w.cells[index]? with
      | none => (.error (.fault (.outOfReach index)), w)
      | some cell =>
        let s := cell.step (stepBelow bound) w
        (s.outcome, { s.world with cells := s.world.cells.setIfInBounds index s.after })
    else stepBelow bound index w

/-- One step of the variable at `index`. -/
def stepVariable (index : Nat) (w : World) : Outcome × World := stepBelow (index + 1) index w

end World

end Stimulus
