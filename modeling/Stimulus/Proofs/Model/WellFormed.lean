import Stimulus.Proofs.Cell.WellFormed
import Stimulus.Proofs.Model.Fault
import Stimulus.Proofs.Model.Nodes

/-!
# Well-formed models

However a model has been used, and wherever a call on it has failed, its cells are the ones that
were built when it was compiled, with the same nodes and the same bindings, and every node of them
is well formed. So whatever is drawn, a sampler steps one of its members.
-/
namespace Stimulus

/-- A cell that only its progress tells from the one that was built. -/
structure Cell.BuiltAs (built c : Cell) : Prop where
  reset_eq : c.reset = built
  walk : c.walk.map reset = built.walk
  expr : c.expr = built.expr
  leaves : c.leaves = built.leaves


namespace Model

variable {settings : Settings} {forest : Forest} {m : Model}

theorem Reaches.builtAs (hm : compile settings forest = .ok m) {w : World} (hw : m.Reaches w)
    {i : Nat} {c : Cell} (hcell : w.cells[i]? = some c) :
    ∃ built, m.cells[i]? = some built ∧ built.BuiltAs c := by
  obtain ⟨hcompiled, -⟩ := compile_eq_ok hm
  obtain ⟨built, hbuilt, hreset⟩ := World.exists_cell_of_initialCells hw.initialCells hcell
  rw [hcompiled.reset_cell hbuilt] at hreset
  subst hreset
  exact ⟨c.reset, hbuilt, rfl, c.walk_reset.symm, c.expr_reset.symm, c.leaves_reset.symm⟩

/-- Every node of a cell belongs to the expression of a declaration. -/
theorem Reaches.source (hm : compile settings forest = .ok m) {w : World} (hw : m.Reaches w)
    {i : Nat} {c : Cell} (hcell : w.cells[i]? = some c) {node : Cell} (hnode : node ∈ c.walk) :
    ∃ d ∈ forest.declarations, node.expr ∈ d.expr.walk := by
  obtain ⟨hcompiled, hdeclarations, -⟩ := compile_eq_ok hm
  rw [← hdeclarations]
  exact (hcompiled.declares_of_initialCells (w := m.world) (items_ne_nil_of_compile hm)
    hw.initialCells hcell hnode).source

/-- The nodes of an expression that is evaluated once have made no progress, and belong to it or to
the expression of a declaration. -/
theorem source_of_buildOnce (hm : compile settings forest = .ok m) (calls : List Call) {e : Expr}
    {c : Cell} (h : (m.after calls).buildOnce e = .ok c) {node : Cell} (hnode : node ∈ c.walk) :
    node.Fresh ∧ (node.expr ∈ e.walk ∨ ∃ d ∈ forest.declarations, node.expr ∈ d.expr.walk) := by
  obtain ⟨-, hdeclarations, -⟩ := compile_eq_ok hm
  obtain ⟨_, -, hbuild⟩ := bind_eq_ok h
  rw [(m.sameOrigin_after calls).scope] at hbuild
  rw [← hdeclarations]
  exact ⟨Scope.buildCell_keeps (Cell.hereditary_fresh _) hbuild node hnode,
    (Scope.source_of_mem_walk hbuild hnode).1⟩

/-- Wherever a compiled model comes to, each of its cells is the one that was built, with the same
nodes, expressions and bindings, and differs in its progress only; and if the weights of every
sampler add up to a signed number of 64 bits, every node of it is well formed. No sampler, and no
pattern with members, asks for a member that is not there. The same holds of the cells of an
expression that is evaluated once. -/
theorem wellFormed_of_reaches (hm : compile settings forest = .ok m)
    (hfit : ∀ d ∈ forest.declarations, d.expr.TotalsFit) :
    (∀ w, m.Reaches w → w.cells.size = m.cells.size ∧
      ∀ (i : Nat) (c : Cell), w.cells[i]? = some c →
        (∃ built, m.cells[i]? = some built ∧ built.BuiltAs c) ∧
          ∀ node ∈ c.walk, node.WellFormed ∧ node.Safe) ∧
      ∀ calls e c, (m.after calls).buildOnce e = .ok c → e.TotalsFit →
        ∀ node ∈ c.walk, node.WellFormed ∧ node.Safe := by
  constructor
  · intro w hw
    refine ⟨World.size_of_initialCells hw.initialCells, fun i c hcell => ?_⟩
    refine ⟨hw.builtAs hm hcell, fun node hnode => ?_⟩
    have hregular := hw.everywhere Cell.lasting_regular hm i c hcell node hnode
    obtain ⟨d, hd, hexpr⟩ := hw.source hm hcell hnode
    exact ⟨hregular.wellFormed hexpr (hfit d hd), hregular.safe⟩
  · intro calls e c hbuild he node hnode
    obtain ⟨hfresh, hexpr⟩ := source_of_buildOnce hm calls hbuild hnode
    have hregular := Cell.lasting_regular.fresh hfresh
    refine ⟨?_, hregular.safe⟩
    obtain hown | ⟨d, hd, hother⟩ := hexpr
    · exact hregular.wellFormed hown he
    · exact hregular.wellFormed hother (hfit d hd)

/-- A weighted pool that is copied and stepped by another variable, a sequence, and two cycles that
fail part-way. -/
theorem wellFormed_of_reaches_copies :
    let forest : Forest := { declarations := [
      ⟨"a", .weightedPool [(2, .literal 1), (0, .literal 0)], none⟩,
      ⟨"b", .pattern [.reference { path := "a", access? := some .copy },
        .reference { path := "a", access? := some .next }], none⟩,
      ⟨"c", .binary .div (.sequence (.literal 1) (.literal 3) (.literal 1)) (.literal 0), none⟩] }
    ∃ m, compile {} forest = .ok m ∧ (∀ d ∈ forest.declarations, d.expr.TotalsFit) ∧
      ∀ (i : Nat) (c : Cell), (m.after [.advance, .advance]).world.cells[i]? = some c →
        (∃ built, m.cells[i]? = some built ∧ built.BuiltAs c) ∧
          ∀ node ∈ c.walk, node.WellFormed ∧ node.Safe := by
  intro forest
  have hm : compile {} forest = .ok _ := rfl
  have hfit : ∀ d ∈ forest.declarations, d.expr.TotalsFit := by
    intro d hd members hmembers
    simp only [forest, List.mem_cons, List.not_mem_nil, or_false] at hd
    obtain rfl | rfl | rfl := hd
    · simp only [Expr.walk, Expr.walkWeighted, List.append_nil, List.mem_cons, List.cons_append,
        List.nil_append, reduceCtorEq, List.not_mem_nil, or_false, false_or,
        Expr.weightedPool.injEq] at hmembers
      subst hmembers
      decide
    · simp [Expr.walk, Expr.walkMembers] at hmembers
    · simp [Expr.walk] at hmembers
  exact ⟨_, hm, hfit, ((wellFormed_of_reaches hm hfit).1 _ (.called _)).2⟩

end Model

end Stimulus
