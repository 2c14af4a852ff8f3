import Stimulus.Proofs.Model.Clone
import Stimulus.Proofs.Model.Reads

/-!
# Copies in lockstep

In a model that draws nothing and steps no variable out of turn, a private copy of a variable makes
the same steps as the variable. The two are stepped at different moments of a cycle, but in between
nothing moves that either of them reads: the variables before the original have been stepped
already, and they are not stepped again.
-/
namespace Stimulus

open Scope hiding bind

/-! ## Steps of still cells -/

namespace Cell

theorem Still.stepsNone {c : Cell} (h : c.Still) : c.StepsNone := by
  intro l hl
  obtain ⟨r, hr⟩ := exists_node_of_mem_leaves hl
  have hquiet := h _ hr
  cases l with
  | next => exact absurd hquiet id
  | literal | item | constant | enumeration | read => rfl

/-- A still cell makes the same step wherever the variables that it reads report the same. -/
theorem Still.step_eq {c : Cell} (h : c.Still) (advance advance' : Nat → World → Outcome × World)
    {w : World} {cells : Array Cell}
    (hreads : ∀ ref name j, .read ref name j ∈ c.leaves →
      ({ w with cells } : World).read j = w.read j) :
    (c.step advance' { w with cells }).outcome = (c.step advance w).outcome ∧
      (c.step advance' { w with cells }).after = (c.step advance w).after := by
  have hreports : ({ w with cells } : World).Reports (c.events advance (fun _ _ => []) w) := by
    intro j outcome hread
    obtain ⟨ref, name, k, hleaf, heq⟩ := h.stepsNone.readsIn hread
    cases heq
    exact hreads ref name j hleaf
  have hadvance : c.step advance' { w with cells } = c.step advance { w with cells } := by
    refine c.step_congr (I := fun _ => True) (fun _ _ _ _ => trivial) _ ?_ trivial
    rintro l hl ref name i rfl
    exact absurd (h.stepsNone _ hl) (by simp [Leaf.isNext])
  rw [hadvance, h.stepsNone.step_withCells hreports]
  exact ⟨rfl, rfl⟩

end Cell

/-! ## Cycles of still variables -/

namespace World

variable {w v : World} {i j : Nat} {declarations : List Declaration}

/-- A cycle that completes comes to every place on its way. -/
theorem exists_completes_of_stepAll (h : (stepAll i declarations w).1 = none) {k : Nat}
    (hk : k ≤ declarations.length) :
    ∃ v, Completes i w (i + k) v ∧
      stepAll i declarations w = stepAll (i + k) (declarations.drop k) v := by
  induction k generalizing i declarations w with
  | zero => exact ⟨w, .refl i w, rfl⟩
  | succ k ih =>
    cases declarations with
    | nil => simp at hk
    | cons d rest =>
      cases hstep : (stepVariable i w).1 with
      | error failure => simp [stepAll_cons_of_error hstep] at h
      | ok x =>
        rw [stepAll_cons_of_ok hstep] at h ⊢
        obtain ⟨v, hcompletes, heq⟩ := ih h (Nat.le_of_succ_le_succ hk)
        rw [Nat.add_assoc, Nat.add_comm 1 k] at hcompletes heq
        exact ⟨v, .step hstep hcompletes, heq⟩

theorem still_of_initialCells (h : v.initialCells = w.initialCells)
    (hw : ∀ c ∈ w.cells, c.Still) : ∀ c ∈ v.cells, c.Still := by
  intro c hc
  obtain ⟨k, hcell⟩ := Array.getElem?_of_mem hc
  obtain ⟨c', hcell', hreset⟩ := exists_cell_of_initialCells h hcell
  rw [← Cell.still_reset, ← hreset, Cell.still_reset]
  exact hw c' (Array.mem_of_getElem? hcell')

theorem stepNone_of_still (hw : ∀ c ∈ w.cells, c.Still) : StepNone w.cells :=
  fun c hc => (hw c hc).stepsNone

/-- Still variables change nothing but their own cells. -/
theorem Completes.eq_of_still (h : Completes i w j v) (hw : ∀ c ∈ w.cells, c.Still) :
    v = { w with cells := v.cells } := by
  induction h with
  | refl i w => rfl
  | @step i j w v x hstep hrest ih =>
    have hnext : (stepVariable i w).2 = { w with cells := (stepVariable i w).2.cells } := by
      cases hcell : w.cells[i]? with
      | none => simp [stepVariable, stepBelow, hcell]
      | some c =>
        rw [stepVariable_eq hcell, (hw c (Array.mem_of_getElem? hcell)).world_step]
        rfl
    have hv := ih (still_of_initialCells (initialCells_stepBelow (i + 1) i w) hw)
    rw [hnext] at hv
    exact hv

/-- Places that have been passed keep their variables. -/
theorem Completes.cells_of_lt (h : Completes i w j v) (hw : StepNone w.cells) {k : Nat}
    (hk : k < i) : v.cells[k]? = w.cells[k]? := by
  induction h with
  | refl i w => rfl
  | @step i j w v x hstep hrest ih =>
    rw [ih (stepNone_stepVariable hw) (by omega), cells_stepVariable_of_ne hw (by omega)]

/-- What becomes of a variable on the way to the end of a completed cycle: it is stepped once, in a
world in which the variables before it have been stepped, and it and those behind it have not. -/
theorem exists_step_of_stepAll (hw : ∀ c ∈ w.cells, c.Still)
    (h : (stepAll i declarations w).1 = none) {k : Nat} (hk : k < declarations.length) {c : Cell}
    (hcell : w.cells[i + k]? = some c) :
    ∃ v, Completes i w (i + k) v ∧
      stepAll i declarations w = stepAll (i + k) (declarations.drop k) v ∧
      (∃ x, (c.step (stepBelow (i + k)) v).outcome = .ok x) ∧
      (stepAll i declarations w).2.cells[i + k]? = some (c.step (stepBelow (i + k)) v).after := by
  obtain ⟨v, hcompletes, heq⟩ := exists_completes_of_stepAll h hk.le
  refine ⟨v, hcompletes, heq, ?_⟩
  have hreached : v.cells[i + k]? = some c := by rw [hcompletes.cells_of_le le_rfl, hcell]
  have hstill : ∀ c ∈ v.cells, c.Still := still_of_initialCells hcompletes.initialCells hw
  have hstep := stepVariable_eq hreached
  rw [heq, List.drop_eq_getElem_cons hk] at h ⊢
  cases houtcome : (c.step (stepBelow (i + k)) v).outcome with
  | error failure =>
    rw [houtcome] at hstep
    rw [stepAll_cons_of_error (congrArg Prod.fst hstep)] at h
    cases h
  | ok x =>
    rw [houtcome] at hstep
    refine ⟨⟨x, rfl⟩, ?_⟩
    have hnone : StepNone (stepVariable (i + k) v).2.cells :=
      stepNone_stepVariable (stepNone_of_still hstill)
    obtain ⟨hlt, -⟩ := Array.getElem?_eq_some_iff.mp hreached
    rw [stepAll_cons_of_ok (congrArg Prod.fst hstep),
      cells_stepAll_of_lt hnone _ (Nat.lt_succ_self _), hstep,
      (hstill c (Array.mem_of_getElem? hreached)).world_step, store,
      Array.getElem?_setIfInBounds_self_of_lt hlt]

end World

/-! ## Pairs -/

/-- A variable at `a` and, at `b`, a private copy of it in the same state. -/
def Paired (a b : Nat) (cells : Array Cell) : Prop :=
  ∃ ref name c, cells[a]? = some c ∧ cells[b]? = some (.copy ref name c c.report)

/-- A completed cycle keeps a pair together. -/
theorem Paired.stepAll {a b : Nat} {w : World} {declarations : List Declaration} (hlt : a < b)
    (h : Paired a b w.cells) (hstill : ∀ c ∈ w.cells, c.Still) (hback : Backward w.cells)
    (hsize : w.cells.size = declarations.length) (hok : (w.stepAll 0 declarations).1 = none) :
    Paired a b (w.stepAll 0 declarations).2.cells := by
  obtain ⟨ref, name, c, horiginal, hcopy⟩ := h
  obtain ⟨hb, -⟩ := Array.getElem?_eq_some_iff.mp hcopy
  rw [hsize] at hb
  -- The cycle on its way to the original, and from there to the copy.
  obtain ⟨v, hv, hfrom, -, hafter⟩ :=
    World.exists_step_of_stepAll hstill hok (hlt.trans hb) (by rwa [Nat.zero_add])
  rw [Nat.zero_add] at hv hfrom hafter
  have hstill' : ∀ c ∈ v.cells, c.Still := World.still_of_initialCells hv.initialCells hstill
  rw [hfrom] at hok hafter ⊢
  have hplace : a + (b - a) = b := by omega
  obtain ⟨u, hu, -, -, hcopied⟩ := World.exists_step_of_stepAll (k := b - a) hstill' hok
    (by rw [List.length_drop]; omega)
    (by rw [hplace, hv.cells_of_le hlt.le]; exact hcopy)
  rw [hplace] at hu hcopied
  -- In between, the variables before the original rest, so the copy reads what the original read.
  have hread : ∀ ref name j, .read ref name j ∈ c.leaves →
      ({ v with cells := u.cells } : World).read j = v.read j := by
    intro ref' name' j hleaf
    have hj : j < a := hback a c horiginal _ hleaf j rfl
    simp only [World.read, hu.cells_of_lt (World.stepNone_of_still hstill') hj]
  have hc : c.Still := hstill c (Array.mem_of_getElem? horiginal)
  obtain ⟨houtcome, hstate⟩ := hc.step_eq (World.stepBelow a) (World.stepBelow b) hread
  rw [← hu.eq_of_still hstill'] at houtcome hstate
  refine ⟨ref, name, (c.step (World.stepBelow a) v).after, hafter, ?_⟩
  rw [hcopied, Cell.step, houtcome, hstate, Cell.report_step]

namespace Model

/-! ## Runs without a failed cycle -/

variable {settings : Settings} {forest : Forest} {m n : Model} {a b : Nat}

/-- The models that a model becomes by calls without a failed cycle since the start or since the
last reset. -/
inductive Unbroken (m : Model) : Model → Prop
  | fresh : Unbroken m m
  | reset (calls : List Call) : Unbroken m (m.after calls).reset
  | call {n : Model} (h : Unbroken m n) (call : Call)
      (hok : call = .advance → n.advance.outcome = .ok ()) : Unbroken m (n.perform call).2

theorem Unbroken.exists_after (h : m.Unbroken n) : ∃ calls, n = m.after calls := by
  induction h with
  | fresh => exact ⟨[], rfl⟩
  | reset calls => exact ⟨calls ++ [.reset], by rw [after_append]; rfl⟩
  | call _ call _ ih =>
    obtain ⟨calls, rfl⟩ := ih
    exact ⟨calls ++ [call], by rw [after_append]; rfl⟩

theorem cells_reset_after (hm : compile settings forest = .ok m) (calls : List Call) :
    (m.after calls).reset.cells = m.cells := by
  rw [(m.sameOrigin_after calls).cells, cells_reset_of_compile hm]

/-- Without a failed cycle, a pair stays together. -/
theorem Unbroken.paired (hm : compile settings forest = .ok m) (hstill : ∀ c ∈ m.cells, c.Still)
    (hlt : a < b) (hpaired : Paired a b m.cells) (h : m.Unbroken n) : Paired a b n.cells := by
  induction h with
  | fresh => exact hpaired
  | reset calls => rwa [cells_reset_after hm]
  | @call n hn call hok ih =>
    obtain ⟨calls, rfl⟩ := hn.exists_after
    cases call with
    | advance =>
      obtain ⟨hsize, hback⟩ := backward_after hm calls
      have hstill' : ∀ c ∈ (m.after calls).world.cells, c.Still :=
        World.still_of_initialCells (w := m.world) (m.sameOrigin_after calls).cells hstill
      have hcompleted := hok rfl
      rw [outcome_advance] at hcompleted
      rw [perform, (m.after calls).model_advance.2.1]
      refine Paired.stepAll (w := (m.after calls).world) hlt ih hstill' hback hsize ?_
      split at hcompleted
      · cases hcompleted
      · assumption
    | once e => rwa [perform_once]
    | seed value =>
      rw [perform]
      split
      · rename_i after hreseed
        obtain ⟨word, -, rfl⟩ := reseed_eq_ok hreseed
        exact ih
      · exact ih
    | reset =>
      rw [perform, cells_reset_after hm]
      exact hpaired

/-- Where no name ends like an access, no declaration shadows a reference. -/
theorem unshadowed_of_names {declarations : List Declaration}
    (hnames : ∀ d ∈ declarations, ∀ base (access : Access), d.name ≠ base ++ "." ++ access.name) :
    Declaration.Unshadowed declarations := by
  have hnone : ∀ later ∈ declarations, ∀ d, ¬later.Shadows d := by
    rintro later hlater d ⟨ref, -, -, hsplit, hname⟩
    obtain ⟨⟨base, access⟩, hsplit⟩ := Option.isSome_iff_exists.mp hsplit
    obtain ⟨-, hpath⟩ := splitAccess?_eq_some_iff.mp hsplit
    exact hnames later hlater base access (hname.trans hpath)
  exact ⟨List.pairwise_iff_getElem.mpr fun _ _ _ hk _ => hnone _ (List.getElem_mem hk) _,
    fun d hd => hnone d hd d⟩

/-- A variable that is a copy of another one as a whole is compiled to a pair with it. -/
theorem paired_of_compile (hm : compile settings forest = .ok m)
    (hfree : Declaration.Unshadowed forest.declarations) {d : Declaration}
    (hd : forest.declarations[b]? = some d) {ref : Identifier} (hexpr : d.expr = .reference ref)
    {name : String} (hcopy : (m.scope.upTo b).resolveTarget { subject? := some d.name } ref =
      .ok (.copy name a)) :
    a < b ∧ Paired a b m.cells := by
  obtain ⟨hcompiled, hdeclarations, -⟩ := compile_eq_ok hm
  obtain ⟨cell, hcell, hbuilt⟩ := exists_cell_of_compile hm hd
  obtain ⟨-, -, hbuild⟩ := compileDeclaration_eq_ok hbuilt
  obtain ⟨-, ha⟩ : _ ∧ a < b := index?_eq_some_of_upTo (resolveTarget_boundIn hcopy)
  obtain ⟨hb, -⟩ := Array.getElem?_eq_some_iff.mp hcell
  rw [hcompiled.size] at hb
  obtain ⟨original, horiginal, -⟩ := hcompiled.cell a (ha.trans hb)
  rw [hexpr, buildCell, Cell.build, bind_of_resolveTarget hcopy] at hbuild
  obtain ⟨copied, hcopied, rfl⟩ := cellOf_copy_eq_ok hbuild
  rw [declarations] at hdeclarations
  rw [hcompiled.bodyBelow_eq_cell rfl hb.le (hdeclarations ▸ hfree.take b) ha horiginal
    (by simpa using ⟨ha, ha.trans hb⟩)] at hcopied
  cases hcopied
  refine ⟨ha, ref, name, original, horiginal, ?_⟩
  rw [hcell, ← hcompiled.reset_cell horiginal, Cell.report_reset]

/-- In a forest whose variables draw nothing and step no others, and none of which has a name that
ends like an access, a variable that is a copy of another one runs in lockstep with it: as long as
no cycle has failed since the start or the last reset, both report the same value and the same done
flag. -/
theorem copy_lockstep (hm : compile settings forest = .ok m) (hstill : ∀ c ∈ m.cells, c.Still)
    (hnames : ∀ d ∈ forest.declarations, ∀ base (access : Access),
      d.name ≠ base ++ "." ++ access.name)
    {d : Declaration} (hd : forest.declarations[b]? = some d) {ref : Identifier}
    (hexpr : d.expr = .reference ref) {name : String}
    (hcopy : (m.scope.upTo b).resolveTarget { subject? := some d.name } ref = .ok (.copy name a)) :
    ∀ n, m.Unbroken n → ∃ x, n.readings[a]? = some x ∧ n.readings[b]? = some x := by
  intro n hn
  obtain ⟨hlt, hpaired⟩ := paired_of_compile hm (unshadowed_of_names hnames) hd hexpr hcopy
  obtain ⟨ref', name', c, horiginal, hcopied⟩ := hn.paired hm hstill hlt hpaired
  refine ⟨c.reading, ?_, ?_⟩
  · rw [readings, List.getElem?_map, Array.getElem?_toList, horiginal, Option.map_some]
  · rw [readings, List.getElem?_map, Array.getElem?_toList, hcopied]
    rfl

/-- A copy of a variable that itself reads one variable and copies another. -/
theorem copy_lockstep_nested :
    let forest : Forest := { declarations := [
      ⟨"a", .pattern [.literal 1, .literal 4, .literal 2], none⟩,
      ⟨"b", .sequence (.literal 0) (.reference { path := "a" }) (.reference { path := "a.copy" }),
        none⟩,
      ⟨"c", .reference { path := "b", access? := some .copy }, none⟩] }
    ∃ m, compile {} forest = .ok m ∧
      (m.after [.advance, .reset, .advance, .seed 5, .advance]).readings =
        [⟨4, false⟩, ⟨4, true⟩, ⟨4, true⟩] ∧
      ∃ x, (m.after [.advance, .reset, .advance, .seed 5, .advance]).readings[1]? = some x ∧
        (m.after [.advance, .reset, .advance, .seed 5, .advance]).readings[2]? = some x := by
  intro forest
  obtain ⟨m, hm, hstill, hcopy, hfirst, hsecond, hreadings⟩ : ∃ m, compile {} forest = .ok m ∧
      (∀ c ∈ m.cells, c.Still) ∧
      (m.scope.upTo 2).resolveTarget { subject? := some "c" }
        { path := "b", access? := some .copy } = .ok (.copy "b" 1) ∧
      (m.after [.advance, .reset]).advance.outcome.toOption = some () ∧
      (m.after [.advance, .reset, .advance, .seed 5]).advance.outcome.toOption = some () ∧
      (m.after [.advance, .reset, .advance, .seed 5, .advance]).readings =
        [⟨4, false⟩, ⟨4, true⟩, ⟨4, true⟩] := by
    refine ⟨_, rfl, ?_, rfl, by decide +kernel, by decide +kernel, by decide +kernel⟩
    simp [Cell.Still, Cell.walk, Cell.walkMembers, Cell.Quiet]
  have hplain : ∀ d ∈ forest.declarations, '.' ∉ d.name.toList := by decide
  have hok (n : Model) (h : n.advance.outcome.toOption = some ()) : n.advance.outcome = .ok () := by
    cases houtcome : n.advance.outcome with
    | error e => simp [houtcome, Except.toOption] at h
    | ok => rfl
  have hunbroken : m.Unbroken (m.after [.advance, .reset, .advance, .seed 5, .advance]) :=
    .call (.call (.call (.reset [.advance]) .advance fun _ => hok _ hfirst) (.seed 5)
      fun hseed => by cases hseed) .advance fun _ => hok _ hsecond
  exact ⟨m, hm, hreadings, copy_lockstep hm hstill
    (fun d hd base access hname => hplain d hd (by simp [hname])) rfl rfl hcopy _ hunbroken⟩

end Model

end Stimulus
