import Stimulus.Fault
import Stimulus.Random.Bounded
import Stimulus.Random.Pcg
import Stimulus.Random.Philox

/-!
# Sources

A seeded source of random numbers over one of two generators. All draws are exact integer draws:
a bounded draw takes words until one is accepted.
-/
namespace Stimulus.Random

inductive Backend
  | philox
  | pcg64
  deriving DecidableEq, Repr

namespace Backend

def all : List Backend := [philox, pcg64]

def name : Backend → String
  | philox => "philox"
  | pcg64 => "pcg64"

def ofName (s : String) : Except Fault Backend :=
  match all.find? (·.name == s) with
  | some backend => .ok backend
  | none => .error (.unknownBackend s)

end Backend

inductive Generator
  | philox (state : Philox)
  | pcg (state : Pcg)
  deriving DecidableEq, Repr

namespace Generator

def backend : Generator → Backend
  | philox _ => .philox
  | pcg _ => .pcg64

def ofSeed (backend : Backend) (seed : UInt64) : Generator :=
  match backend with
  | .philox => philox (.ofSeed seed)
  | .pcg64 => pcg (.ofSeed seed)

def next : Generator → UInt64 × Generator
  | philox g => let drawn := g.next; (drawn.1, philox drawn.2)
  | pcg g => let drawn := g.next; (drawn.1, pcg drawn.2)

@[simp] theorem backend_ofSeed (b : Backend) (seed : UInt64) : (ofSeed b seed).backend = b := by
  cases b <;> rfl

@[simp] theorem backend_next (g : Generator) : g.next.2.backend = g.backend := by
  cases g <;> simp only [next, backend]

end Generator

/-- The place of a source in its stream: the generator, and the half of a word that a draw of 32
bits has left for the next such draw. -/
structure StreamPosition where
  generator : Generator
  spare? : Option UInt32 := none
  deriving DecidableEq, Repr

structure Source where
  seed : UInt64
  position : StreamPosition
  deriving DecidableEq, Repr

namespace Source

def leastSigned : Int := -(1 <<< 63)

def greatestSigned : Int := (1 <<< 63) - 1

def greatestUnsigned : Int := (1 <<< 64) - 1

end Source

/-- A seed is a number of 64 bits. -/
def checkedSeed (seed : Int) : Except Fault UInt64 :=
  if seed < 0 || Source.greatestUnsigned < seed then .error (.seedOutOfRange seed)
  else .ok (UInt64.ofNat seed.toNat)

namespace Source

def ofSeed (backend : Backend) (seed : UInt64) : Source :=
  ⟨seed, ⟨.ofSeed backend seed, none⟩⟩

/-- A source by the name of its generator. -/
def create (backendName : String) (seed : Int) : Except Fault Source := do
  let backend ← Backend.ofName backendName
  return ofSeed backend (← checkedSeed seed)

def backend (s : Source) : Backend := s.position.generator.backend

/-- Starts the stream of another seed. -/
def reseed (s : Source) (seed : Int) : Except Fault Source := do
  return ofSeed s.backend (← checkedSeed seed)

/-- Puts the source back to a place of its stream. The seed it tells stays the same. -/
def rewind (s : Source) (position : StreamPosition) : Source := { s with position }

/-- The sizes of words that draws are made from. -/
inductive WordSize
  | half
  | full
  deriving DecidableEq, Repr

namespace WordSize

def bits : WordSize → Nat
  | half => 32
  | full => 64

/-- The smaller size that has at least `count` words. -/
def fitting (count : Nat) : WordSize := if count ≤ 1 <<< half.bits then half else full

end WordSize

def fullWord (s : Source) : UInt64 × Source :=
  let (word, generator) := s.position.generator.next
  (word, { s with position := { s.position with generator } })

/-- The half that is left from an earlier draw, or the low half of a new word. -/
def halfWord (s : Source) : UInt32 × Source :=
  match s.position.spare? with
  | some half => (half, { s with position := { s.position with spare? := none } })
  | none =>
    let (word, generator) := s.position.generator.next
    (word.toUInt32, { s with position := ⟨generator, some (word >>> 32).toUInt32⟩ })

/-- A word of the given size, as a number. -/
def word (size : WordSize) (s : Source) : Nat × Source :=
  match size with
  | .half => let (w, s) := s.halfWord; (w.toNat, s)
  | .full => let (w, s) := s.fullWord; (w.toNat, s)

theorem word_lt (size : WordSize) (s : Source) : (s.word size).1 < 1 <<< size.bits := by
  cases size
  · exact UInt32.toNat_lt _
  · exact UInt64.toNat_lt _

/-- A source further along the stream of another one. -/
structure Follows (s t : Source) : Prop where
  seed : t.seed = s.seed
  backend : t.backend = s.backend

@[simp] theorem Follows.refl (s : Source) : s.Follows s := ⟨rfl, rfl⟩

theorem Follows.trans {s t u : Source} (h : s.Follows t) (h' : t.Follows u) : s.Follows u :=
  ⟨h'.seed.trans h.seed, h'.backend.trans h.backend⟩

theorem follows_halfWord (s : Source) : s.Follows s.halfWord.2 := by
  unfold halfWord
  split
  · exact ⟨rfl, rfl⟩
  · exact ⟨rfl, Generator.backend_next _⟩

theorem follows_word (size : WordSize) (s : Source) : s.Follows (s.word size).2 := by
  cases size with
  | half => exact follows_halfWord s
  | full => exact ⟨rfl, Generator.backend_next _⟩

/-- A number below `count` that is drawn from a source, and the source behind the draw. -/
structure Below (count : Nat) (s : Source) where
  value : Nat
  source : Source
  lt : value < count
  follows : s.Follows source

instance (count : Nat) [numbers : Nonempty (Fin count)] (s : Source) : Nonempty (Below count s) :=
  numbers.elim fun i => ⟨⟨i, s, i.isLt, .refl s⟩⟩

section

variable (size : WordSize) (count : Nat) [numbers : Nonempty (Fin count)] (s : Source)

/-- One attempt, with the next word of a source that has come from `s`: the number drawn, or the
source behind a word that is rejected. -/
def attemptFrom (t : {t // s.Follows t}) : {t // s.Follows t} ⊕ Below count s :=
  have hfollows := t.2.trans (follows_word size t.1)
  match h : attempt size.bits count (t.1.word size).1 with
  | some v =>
    have hpos : 0 < count := numbers.elim fun i => i.pos
    .inr ⟨v, (t.1.word size).2, lt_of_attempt (word_lt size t.1) hpos h, hfollows⟩
  | none => .inl ⟨(t.1.word size).2, hfollows⟩

/-- Takes words until one is accepted. How many of them are rejected has no bound: it is decided by
the stream alone. -/
def redraw (t : {t // s.Follows t}) : Below count s :=
  (repeatM (m := Id) (fun t => pure (attemptFrom size count s t)) t).run

/-- The first attempt decides, or the draw goes on behind its word. -/
theorem redraw_eq (t : {t // s.Follows t}) :
    redraw size count s t =
      match attemptFrom size count s t with
      | .inr drawn => drawn
      | .inl t => redraw size count s t := by
  unfold redraw
  rw [repeatM_eq_of_monadTail, repeatM.body]
  cases attemptFrom size count s t with
  | inl later => simp only [pure_bind]
  | inr drawn => simp only [pure_bind, Id.run_pure]

end

/-- Draws a number below `count`. -/
def below (count : Nat) [Nonempty (Fin count)] (s : Source) : Below count s :=
  let size := WordSize.fitting count
  match attemptFrom size count s ⟨s, .refl s⟩ with
  | .inr drawn => drawn
  | .inl t => redraw size count s t

/-- The fault of bounds that are neither both signed nor both unsigned numbers of 64 bits. -/
def boundsFault? (lo hi : Int) : Option Fault :=
  if greatestSigned < hi && 0 ≤ lo then
    if greatestUnsigned < hi then some .highOutOfUnsignedBounds else none
  else if lo < leastSigned then some .lowOutOfBounds
  else if greatestSigned < hi then some .highOutOfSignedBounds
  else none

/-- Draws an integer between two bounds, which it may reach. Equal bounds take nothing from the
stream. -/
def uniformInt (lo hi : Int) (s : Source) : Except Fault (Int × Source) :=
  if hle : hi < lo then .error (.emptyRange lo hi)
  else match boundsFault? lo hi with
    | some fault => .error fault
    | none =>
      if lo = hi then .ok (lo, s)
      else
        have : Nonempty (Fin (hi - lo + 1).toNat) := ⟨0, by omega⟩
        let drawn := s.below (hi - lo + 1).toNat
        .ok (lo + drawn.value, drawn.source)

/-- Draws one of `count` indices. -/
def uniformIndex (count : Int) (s : Source) : Except Fault (Nat × Source) :=
  if count ≤ 0 then .error (.noIndices count)
  else (s.uniformInt 0 (count - 1)).map fun (v, s) => (v.toNat, s)

/-- Draws a multiple of `2 ^ -53` below one and gives the factor. -/
def uniformFraction (s : Source) : Nat × Source :=
  let (w, s) := s.fullWord
  ((w >>> 11).toNat, s)

end Source

end Stimulus.Random
