import Stimulus.Proofs.Cell.Renumber

/-!
# Events of a step

What a step does to the variables: which of them are stepped, and what is read where a leaf reads
one. A cell without a leaf that steps a variable changes no variable; so all that is read in its
step is what the variables report before it.
-/
namespace Stimulus

inductive Event
  /-- A variable is stepped, in the cycle's order or by a leaf of another one. -/
  | stepped (index : Nat)
  /-- A leaf reads a variable, with this outcome. -/
  | read (index : Nat) (outcome : Outcome)

/-- The variable that an event reads, with its reading, where it has one. -/
def Event.reading? : Event → Option (Nat × Reading)
  | read index (.ok reading) => some (index, reading)
  | _ => none

/-- What happens behind a step, in the world that it leaves: nothing, if it has failed. -/
def Stepped.andThen {σ : Type} (s : Stepped σ) (more : World → List Event) : List Event :=
  match s.outcome with
  | .ok _ => more s.world
  | .error _ => []

theorem Stepped.andThen_of_ok {σ : Type} {s : Stepped σ} {x : Reading} (h : s.outcome = .ok x)
    (more : World → List Event) : s.andThen more = more s.world := by
  rw [andThen, h]

theorem Stepped.mem_andThen {σ : Type} {s : Stepped σ} {more : World → List Event} {event : Event}
    (h : event ∈ s.andThen more) : event ∈ more s.world := by
  unfold andThen at h
  split at h
  · exact h
  · cases h

/-- A step that leaves a world with other variables. -/
def Stepped.withCells {σ : Type} (s : Stepped σ) (cells : Array Cell) : Stepped σ :=
  { s with world := { s.world with cells } }

/-- An event in which one of some leaves reads what a variable reports in a world. -/
def Event.ReadsIn (w : World) (leaves : List Leaf) (event : Event) : Prop :=
  ∃ ref name j, Leaf.read ref name j ∈ leaves ∧ event = .read j (w.read j)

/-- A world whose variables report what is read in some events. -/
def World.Reports (w : World) (events : List Event) : Prop :=
  ∀ j outcome, .read j outcome ∈ events → w.read j = outcome

theorem World.reports_append {w : World} {events more : List Event} :
    w.Reports (events ++ more) ↔ w.Reports events ∧ w.Reports more := by
  simp only [Reports, List.mem_append]
  constructor
  · exact fun h => ⟨fun j o hmem => h j o (.inl hmem), fun j o hmem => h j o (.inr hmem)⟩
  · exact fun h j o hmem => hmem.elim (h.1 j o) (h.2 j o)

/-- Whether a leaf steps a variable. -/
def Leaf.isNext : Leaf → Bool
  | next _ _ _ => true
  | _ => false

namespace Cell

section

variable (advance : Nat → World → Outcome × World) (log : Nat → World → List Event)

mutual

/-- The events of a step of a cell, in their order; `log` gives those of stepping another
variable. -/
def events : Cell → World → List Event
  | leaf (.read _ _ index) _, w => [.read index (w.read index)]
  | leaf (.next _ _ index) _, w => log index w
  | leaf (.literal _) _, _ | leaf (.item _ _) _, _ | leaf (.constant _ _) _, _
  | leaf (.enumeration _ _ _) _, _ => []
  | copy _ _ body _, w => body.events w
  | range min max _, w => min.events w ++ (min.step advance w).andThen fun v => max.events v
  | sequence first last increment _ _, w =>
    first.events w ++ (first.step advance w).andThen fun v =>
      last.events v ++ (last.step advance v).andThen fun u => increment.events u
  | choice chooser members _, w =>
    let selected := chooser.select members.length w
    match selected.1 with
    | .error _ => []
    | .ok i => memberEvents members i selected.2.2
  | unary _ operand _, w => operand.events w
  | binary _ left right _, w =>
    left.events w ++ (left.step advance w).andThen fun v => right.events v

/-- The events of a step of the member at a place. -/
def memberEvents : List Cell → Nat → World → List Event
  | [], _, _ => []
  | c :: _, 0, w => c.events w
  | _ :: rest, i + 1, w => memberEvents rest i w

end

end

/-- A cell none of whose leaves, those of copies included, steps a variable. -/
def StepsNone (c : Cell) : Prop := ∀ l ∈ c.leaves, l.isNext = false

instance (c : Cell) : Decidable c.StepsNone :=
  inferInstanceAs (Decidable (∀ l ∈ c.leaves, l.isNext = false))

theorem stepsNone_reset {c : Cell} : c.reset.StepsNone ↔ c.StepsNone := by
  simp only [StepsNone, leaves_reset]

theorem leaves_subset_of_child {c child : Cell} (h : child ∈ c.children) :
    child.leaves ⊆ c.leaves := by
  intro l hl
  cases c with
  | leaf => cases h
  | copy | unary =>
    obtain rfl := List.mem_singleton.mp h
    exact hl
  | range | binary =>
    simp only [children, List.mem_cons, List.not_mem_nil, or_false] at h
    obtain rfl | rfl := h <;> simp [leaves, hl]
  | sequence first last increment p r =>
    simp only [children, List.mem_cons, List.not_mem_nil, or_false] at h
    obtain rfl | rfl | rfl := h <;> simp [leaves, hl]
  | choice chooser members r =>
    rw [leaves, memberLeaves_eq_flatMap]
    exact List.mem_flatMap.mpr ⟨child, h, hl⟩

theorem StepsNone.child {c child : Cell} (h : c.StepsNone) (hchild : child ∈ c.children) :
    child.StepsNone :=
  fun l hl => h l (leaves_subset_of_child hchild hl)

/-- What a part of a cell reads behind some draws, the cell reads before them. -/
theorem readsIn_of_child {c child : Cell} (hchild : child ∈ c.children) {w v : World}
    (hdraws : w.Draws v) {event : Event} (h : event.ReadsIn v child.leaves) :
    event.ReadsIn w c.leaves := by
  obtain ⟨ref, name, j, hleaf, hevent⟩ := h
  rw [World.read, hdraws.cells] at hevent
  exact ⟨ref, name, j, leaves_subset_of_child hchild hleaf, hevent⟩

variable {advance : Nat → World → Outcome × World} {log : Nat → World → List Event}

theorem memberEvents_eq (members : List Cell) (i : Nat) (w : World) :
    memberEvents advance log members i w =
      match members[i]? with
      | none => []
      | some c => c.events advance log w := by
  induction members generalizing i with
  | nil => rfl
  | cons c rest ih =>
    cases i with
    | zero => rfl
    | succ i => exact ih i

/-- The step of a cell that steps no variable changes the world by draws only. -/
theorem StepsNone.draws {c : Cell} (h : c.StepsNone) (w : World) :
    w.Draws (c.step advance w).world := by
  refine c.step_keeps (I := w.Draws) (fun _ _ hdraws hw => hw.trans hdraws) w ?_ (.refl w)
  exact fun ref name index hleaf => absurd (h _ hleaf) (by simp [Leaf.isNext])

/-- A cell that steps no variable only reads some, and always what they report before its step. -/
theorem StepsNone.readsIn {c : Cell} (h : c.StepsNone) {w : World} {event : Event}
    (hevent : event ∈ c.events advance log w) : event.ReadsIn w c.leaves := by
  induction c generalizing w with
  | leaf l r =>
    cases l with
    | read ref name j => exact ⟨ref, name, j, by simp [leaves], by simpa [events] using hevent⟩
    | next ref name index =>
      exact absurd (h (.next ref name index) (by simp [leaves])) (by simp [Leaf.isNext])
    | literal | item | constant | enumeration => simp [events] at hevent
  | copy ref name body r ih => exact ih h (by simpa only [events] using hevent)
  | range min max r ihMin ihMax =>
    have hmin : min ∈ (range min max r).children := by simp [children]
    have hmax : max ∈ (range min max r).children := by simp [children]
    rw [events, List.mem_append] at hevent
    obtain hevent | hevent := hevent
    · exact readsIn_of_child hmin (.refl w) (ihMin (h.child hmin) hevent)
    · have hread := ihMax (h.child hmax) (Stepped.mem_andThen hevent)
      exact readsIn_of_child hmax ((h.child hmin).draws w) hread
  | sequence first last increment p r ihFirst ihLast ihIncrement =>
    have hfirst : first ∈ (sequence first last increment p r).children := by simp [children]
    have hlast : last ∈ (sequence first last increment p r).children := by simp [children]
    have hincrement : increment ∈ (sequence first last increment p r).children := by
      simp [children]
    rw [events, List.mem_append] at hevent
    obtain hevent | hevent := hevent
    · exact readsIn_of_child hfirst (.refl w) (ihFirst (h.child hfirst) hevent)
    · have hevent := Stepped.mem_andThen hevent
      have hdraws : w.Draws (first.step advance w).world := (h.child hfirst).draws w
      rw [List.mem_append] at hevent
      obtain hevent | hevent := hevent
      · exact readsIn_of_child hlast hdraws (ihLast (h.child hlast) hevent)
      · have hread := ihIncrement (h.child hincrement) (Stepped.mem_andThen hevent)
        exact readsIn_of_child hincrement (hdraws.trans ((h.child hlast).draws _)) hread
  | choice chooser members r ih =>
    simp only [events] at hevent
    split at hevent
    · cases hevent
    · rw [memberEvents_eq] at hevent
      split at hevent
      · cases hevent
      · rename_i c hc
        have hmem : c ∈ (choice chooser members r).children := List.mem_of_getElem? hc
        exact readsIn_of_child hmem (chooser.draws_select _ w) (ih c hmem (h.child hmem) hevent)
  | unary op operand r ih => exact ih h (by simpa only [events] using hevent)
  | binary op left right r ihLeft ihRight =>
    have hleft : left ∈ (binary op left right r).children := by simp [children]
    have hright : right ∈ (binary op left right r).children := by simp [children]
    rw [events, List.mem_append] at hevent
    obtain hevent | hevent := hevent
    · exact readsIn_of_child hleft (.refl w) (ihLeft (h.child hleft) hevent)
    · have hread := ihRight (h.child hright) (Stepped.mem_andThen hevent)
      exact readsIn_of_child hright ((h.child hleft).draws w) hread

/-- What a step reads is all by which other variables decide it: among variables that report the
same wherever it reads one, it is the same step. So no read is missing among the events. -/
theorem StepsNone.step_withCells {c : Cell} (h : c.StepsNone) {w : World} {cells : Array Cell}
    (hreads : ({ w with cells } : World).Reports (c.events advance log w)) :
    c.step advance { w with cells } = (c.step advance w).withCells cells := by
  induction c generalizing w with
  | leaf l r =>
    cases l with
    | read ref name j =>
      have hread := hreads j (w.read j) (by simp [events])
      simp only [step, Leaf.step, hread, Stepped.withCells]
    | next ref name index =>
      exact absurd (h (.next ref name index) (by simp [leaves])) (by simp [Leaf.isNext])
    | enumeration name index values =>
      simp only [step, Leaf.step, World.drawValue_cells, Stepped.withCells]
    | literal | item | constant => rfl
  | copy ref name body r ih =>
    have hbody := ih h (by simpa only [events] using hreads)
    simp only [step, hbody, Stepped.withCells]
  | range min max r ihMin ihMax =>
    rw [events, World.reports_append] at hreads
    obtain ⟨hreadsMin, hreadsMax⟩ := hreads
    have hmin := ihMin (h.child (by simp [children])) hreadsMin
    simp only [step, hmin, Stepped.withCells]
    cases hlo : (min.step advance w).outcome with
    | error failure => rfl
    | ok lo =>
      rw [Stepped.andThen_of_ok hlo] at hreadsMax
      have hmax : max.step advance { (min.step advance w).world with cells } = _ :=
        ihMax (h.child (by simp [children])) hreadsMax
      simp only [hmax, Stepped.withCells]
      cases (max.step advance (min.step advance w).world).outcome with
      | error failure => rfl
      | ok hi => simp only [World.drawBetween_cells]
  | sequence first last increment p r ihFirst ihLast ihIncrement =>
    rw [events, World.reports_append] at hreads
    obtain ⟨hreadsFirst, hreadsMore⟩ := hreads
    have hfirst := ihFirst (h.child (by simp [children])) hreadsFirst
    simp only [step, hfirst, Stepped.withCells]
    cases ha : (first.step advance w).outcome with
    | error failure => rfl
    | ok a =>
      rw [Stepped.andThen_of_ok ha, World.reports_append] at hreadsMore
      obtain ⟨hreadsLast, hreadsIncrement⟩ := hreadsMore
      have hlast : last.step advance { (first.step advance w).world with cells } = _ :=
        ihLast (h.child (by simp [children])) hreadsLast
      simp only [hlast, Stepped.withCells]
      cases hb : (last.step advance (first.step advance w).world).outcome with
      | error failure => rfl
      | ok b =>
        rw [Stepped.andThen_of_ok hb] at hreadsIncrement
        have hincrement : increment.step advance
            { (last.step advance (first.step advance w).world).world with cells } = _ :=
          ihIncrement (h.child (by simp [children])) hreadsIncrement
        simp only [hincrement, Stepped.withCells]
        split
        · rfl
        · split <;> rfl
  | choice chooser members r ih =>
    simp only [events] at hreads
    simp only [step, Chooser.select_cells, Stepped.withCells]
    cases hselected : (chooser.select members.length w).1 with
    | error failure => rfl
    | ok i =>
      rw [hselected] at hreads
      simp only [memberEvents_eq, stepMember_eq] at hreads ⊢
      cases hc : members[i]? with
      | none => rfl
      | some c =>
        have hmem : c ∈ members := List.mem_of_getElem? hc
        rw [hc] at hreads
        have hmember : c.step advance { (chooser.select members.length w).2.2 with cells } = _ :=
          ih c hmem (h.child hmem) hreads
        simp only [hmember, Stepped.withCells]
        split <;> rfl
  | unary op operand r ih =>
    have hoperand := ih h (by simpa only [events] using hreads)
    simp only [step, hoperand, Stepped.withCells]
  | binary op left right r ihLeft ihRight =>
    rw [events, World.reports_append] at hreads
    obtain ⟨hreadsLeft, hreadsRight⟩ := hreads
    have hleft := ihLeft (h.child (by simp [children])) hreadsLeft
    simp only [step, hleft, Stepped.withCells]
    cases hx : (left.step advance w).outcome with
    | error failure => rfl
    | ok x =>
      rw [Stepped.andThen_of_ok hx] at hreadsRight
      have hright : right.step advance { (left.step advance w).world with cells } = _ :=
        ihRight (h.child (by simp [children])) hreadsRight
      simp only [hright, Stepped.withCells]
      split <;> rfl

end Cell

end Stimulus
