import Stimulus.Proofs.Model.Calls
import Stimulus.Proofs.Model.Compiled

/-!
# Replaying a model

Whatever has been done with a model, a reset gives every variable the cells that it was compiled
with, and the stream of a seed starts anew. So a model that is reset and seeded cannot be told from
one that has just been compiled.
-/
namespace Stimulus

open Stimulus.Random

namespace Model

/-- Two models that a reset and a seed make equal. -/
structure SameOrigin (m n : Model) : Prop where
  scope : n.scope = m.scope
  cells : n.reset.cells = m.reset.cells
  backend : n.source.backend = m.source.backend

theorem SameOrigin.refl (m : Model) : m.SameOrigin m := ⟨rfl, rfl, rfl⟩

theorem SameOrigin.trans {m n k : Model} (h : m.SameOrigin n) (h' : n.SameOrigin k) :
    m.SameOrigin k :=
  ⟨h'.scope.trans h.scope, h'.cells.trans h.cells, h'.backend.trans h.backend⟩

theorem reset_reset (m : Model) : m.reset.reset = m.reset := by
  simp only [reset, Array.map_map]
  congr 1
  exact Array.map_congr_left fun c _ => c.reset_reset

/-- A cycle ends with the cells and the source that stepping all variables leaves. -/
theorem model_advance (m : Model) :
    m.advance.model.scope = m.scope ∧
      m.advance.model.cells = (m.world.stepAll 0 m.declarations).2.cells ∧
      m.advance.model.source = (m.world.stepAll 0 m.declarations).2.source := by
  unfold advance
  simp only
  split <;> exact ⟨rfl, rfl, rfl⟩

theorem sameOrigin_advance (m : Model) : m.SameOrigin m.advance.model := by
  obtain ⟨hscope, hcells, hsource⟩ := m.model_advance
  have hinitial : (m.world.stepAll 0 m.declarations).2.initialCells = m.world.initialCells :=
    World.stepAll_keeps (I := fun v => v.initialCells = m.world.initialCells)
      (fun index v hv => (World.initialCells_stepBelow (index + 1) index v).trans hv) _ 0 _ rfl
  have hfollows : m.world.source.Follows (m.world.stepAll 0 m.declarations).2.source :=
    World.stepAll_keeps (I := fun v => m.world.source.Follows v.source)
      (fun index v hv => hv.trans (World.follows_stepBelow (index + 1) index v)) _ 0 _ (.refl _)
  refine ⟨hscope, ?_, ?_⟩
  · simp only [reset, hcells]
    exact hinitial
  · rw [hsource]
    exact hfollows.backend

theorem reseed_of_checkedSeed (m : Model) {seed : Int} {word : UInt64}
    (h : checkedSeed seed = .ok word) :
    m.reseed seed = .ok { m with source := Source.ofSeed m.source.backend word } := by
  simp only [reseed, Source.reseed, h]
  rfl

/-- A model is seeded with a number of 64 bits only. -/
theorem reseed_eq_ok {m n : Model} {seed : Int} (h : m.reseed seed = .ok n) :
    ∃ word, checkedSeed seed = .ok word ∧
      n = { m with source := Source.ofSeed m.source.backend word } := by
  obtain ⟨source, hsource, h⟩ := bind_eq_ok h
  obtain ⟨word, hword, hsource⟩ := bind_eq_ok hsource
  cases hsource
  cases h
  exact ⟨word, hword, rfl⟩

theorem sameOrigin_perform (m : Model) (call : Call) : m.SameOrigin (m.perform call).2 := by
  cases call with
  | advance => exact m.sameOrigin_advance
  | once e =>
    rw [perform_once]
    exact .refl m
  | seed value =>
    simp only [perform]
    split
    · rename_i n hn
      obtain ⟨word, -, rfl⟩ := reseed_eq_ok hn
      exact ⟨rfl, rfl, Generator.backend_ofSeed _ _⟩
    · exact .refl m
  | reset => exact ⟨rfl, congrArg cells m.reset_reset, rfl⟩

theorem sameOrigin_after (m : Model) (calls : List Call) : m.SameOrigin (m.after calls) :=
  after_keeps (fun _ call hn => hn.trans (sameOrigin_perform _ call)) m calls (.refl m)

/-- A model before its first cycle has the cells that a reset gives. -/
theorem cells_reset_of_compile {settings : Settings} {forest : Forest} {m : Model}
    (h : compile settings forest = .ok m) : m.reset.cells = m.cells := by
  obtain ⟨hcompiled, -⟩ := compile_eq_ok h
  refine Array.ext_getElem? fun i => ?_
  simp only [reset, Array.getElem?_map]
  cases hcell : m.cells[i]? with
  | none => rfl
  | some c => rw [Option.map_some, hcompiled.reset_cell hcell]

end Model

namespace Settings

/-- The settings of a caller that asks for a seed only. -/
theorem override_seed (settings : Settings) {seed : Int} {word : UInt64}
    (h : checkedSeed seed = .ok word) :
    settings.override (some seed) none = .ok { settings with seed := word } := by
  have hname : Backend.ofName settings.backend.name = .ok settings.backend := by
    cases settings.backend <;> rfl
  simp only [override, ofNames, Option.getD_some, Option.getD_none, h, hname]
  rfl

end Settings

namespace Model

/-- Whatever calls a compiled model has answered, a reset puts every cell, those of copies included,
back to what it was when it was compiled. Reset and seeded, the model is the one that the forest is
compiled to with that seed: it gives the same answers and comes to the same states from there on. -/
theorem reset_seed_eq_compile {settings : Settings} {forest : Forest} {m : Model}
    (hm : compile settings forest = .ok m) (calls : List Call) {seed : Int} (hlo : 0 ≤ seed)
    (hhi : seed ≤ Source.greatestUnsigned) :
    (m.after calls).reset.cells = m.cells ∧ (m.after calls).reset.cycle = 0 ∧
      ∃ settings' fresh, settings.override (some seed) none = .ok settings' ∧
        compile settings' forest = .ok fresh ∧
        m.after (calls ++ [.reset, .seed seed]) = fresh ∧
        ∀ more, (m.after (calls ++ [.reset, .seed seed])).run more = fresh.run more := by
  have horigin := m.sameOrigin_after calls
  have hcells : (m.after calls).reset.cells = m.cells :=
    horigin.cells.trans (cells_reset_of_compile hm)
  obtain ⟨-, -, hsource, hcycle, hcompile⟩ := compile_eq_ok hm
  have hseed : checkedSeed seed = .ok (UInt64.ofNat seed.toNat) := by
    rw [checkedSeed, if_neg (by simp; omega)]
  have hafter : m.after (calls ++ [.reset, .seed seed]) =
      { m with source := { settings with seed := UInt64.ofNat seed.toNat }.source } := by
    have hbackend : (m.after calls).source.backend = settings.backend := by
      rw [horigin.backend, hsource]
      exact Generator.backend_ofSeed _ _
    rw [after_append, after_cons, after_cons, after_nil]
    simp only [perform, reseed_of_checkedSeed _ hseed]
    rw [mk.injEq]
    refine ⟨horigin.scope, hcells, ?_, hcycle.symm⟩
    simp only [reset, hbackend, Settings.source]
  refine ⟨hcells, rfl, _, _, settings.override_seed hseed, hcompile _, hafter, fun more => ?_⟩
  rw [hafter]

/-- A pool that is half used, a copy of a copy, and a cycle that fails part-way. -/
theorem reset_seed_eq_compile_copies :
    let forest : Forest := { declarations := [
      ⟨"a", .pool [.literal 1, .literal 0], none⟩,
      ⟨"b", .binary .div (.literal 6) (.reference { path := "a", access? := some .copy }), none⟩,
      ⟨"c", .pattern [.reference { path := "b", access? := some .copy },
        .reference { path := "a", access? := some .next }], none⟩] }
    let calls := [.advance, .once (.reference { path := "b" }), .seed 9, .advance, .reset, .advance]
    ∃ m, compile {} forest = .ok m ∧ (m.after calls).reset.cells = m.cells ∧
      ∃ fresh, compile { seed := 7 } forest = .ok fresh ∧
        ∀ more, (m.after (calls ++ [.reset, .seed 7])).run more = fresh.run more := by
  intro forest calls
  have hm : compile {} forest = .ok _ := rfl
  obtain ⟨hcells, -, settings, fresh, hsettings, hfresh, -, hrun⟩ :=
    reset_seed_eq_compile hm calls (by decide : (0 : Int) ≤ 7) (by decide)
  have hseven : settings = { seed := 7 } := (Except.ok.inj hsettings).symm
  rw [hseven] at hfresh
  exact ⟨_, hm, hcells, fresh, hfresh, hrun⟩

end Model

end Stimulus
