import Mathlib.Logic.Relation
import Stimulus.Proofs.Model.Stepping

/-!
# The steps within a step

A step of a cell makes steps of the cells below it, and a leaf may step another variable. Each of
them is a visit. A visit that fails hands its failure on as it is; so every failure is raised at one
visit, in which all steps below have succeeded.
-/
namespace Stimulus

/-- One step of a cell in a world. The cell may step the variables below a bound. -/
structure Visit where
  bound : Nat
  cell : Cell
  world : World

namespace Visit

def stepped (t : Visit) : Stepped Cell := t.cell.step (World.stepBelow t.bound) t.world

def outcome (t : Visit) : Outcome := t.stepped.outcome

/-- The visits that a visit makes itself. What comes behind another visit is made only if that one
succeeds, in the world that it leaves. -/
inductive Calls : Visit → Visit → Prop
  | next {bound i : Nat} {ref : Identifier} {name : String} {r : Report} {c : Cell} {w : World}
      (hi : i < bound) (hcell : w.cells[i]? = some c) :
      Calls ⟨bound, .leaf (.next ref name i) r, w⟩ ⟨i, c, w⟩
  | body {bound : Nat} {ref : Identifier} {name : String} {body : Cell} {r : Report} {w : World} :
      Calls ⟨bound, .copy ref name body r, w⟩ ⟨bound, body, w⟩
  | min {bound : Nat} {min max : Cell} {r : Report} {w : World} :
      Calls ⟨bound, .range min max r, w⟩ ⟨bound, min, w⟩
  | max {bound : Nat} {min max : Cell} {r : Report} {w : World} {lo : Reading}
      (hmin : (mk bound min w).outcome = .ok lo) :
      Calls ⟨bound, .range min max r, w⟩ ⟨bound, max, (mk bound min w).stepped.world⟩
  | first {bound : Nat} {first last increment : Cell} {p : Progress} {r : Report} {w : World} :
      Calls ⟨bound, .sequence first last increment p r, w⟩ ⟨bound, first, w⟩
  | last {bound : Nat} {first last increment : Cell} {p : Progress} {r : Report} {w : World}
      {a : Reading} (hfirst : (mk bound first w).outcome = .ok a) :
      Calls ⟨bound, .sequence first last increment p r, w⟩
        ⟨bound, last, (mk bound first w).stepped.world⟩
  | increment {bound : Nat} {first last increment : Cell} {p : Progress} {r : Report} {w v : World}
      {a b : Reading} (hfirst : (mk bound first w).outcome = .ok a)
      (hworld : v = (mk bound first w).stepped.world) (hlast : (mk bound last v).outcome = .ok b) :
      Calls ⟨bound, .sequence first last increment p r, w⟩
        ⟨bound, increment, (mk bound last v).stepped.world⟩
  | member {bound i : Nat} {chooser : Chooser} {members : List Cell} {r : Report} {c : Cell}
      {w : World} (hselect : (chooser.select members.length w).1 = .ok i)
      (hmember : members[i]? = some c) :
      Calls ⟨bound, .choice chooser members r, w⟩
        ⟨bound, c, (chooser.select members.length w).2.2⟩
  | operand {bound : Nat} {op : UnaryOp} {operand : Cell} {r : Report} {w : World} :
      Calls ⟨bound, .unary op operand r, w⟩ ⟨bound, operand, w⟩
  | left {bound : Nat} {op : BinaryOp} {left right : Cell} {r : Report} {w : World} :
      Calls ⟨bound, .binary op left right r, w⟩ ⟨bound, left, w⟩
  | right {bound : Nat} {op : BinaryOp} {left right : Cell} {r : Report} {w : World} {x : Reading}
      (hleft : (mk bound left w).outcome = .ok x) :
      Calls ⟨bound, .binary op left right r, w⟩ ⟨bound, right, (mk bound left w).stepped.world⟩

/-- A visit that fails although all visits that it makes succeed. -/
structure Raises (t : Visit) (failure : Failure) : Prop where
  outcome_eq : t.outcome = .error failure
  calls : ∀ u, t.Calls u → ∃ x, u.outcome = .ok x

variable {t u : Visit} {failure : Failure}

/-- The cell of a visit that another one makes is a part of its cell, or it is a variable's cell. -/
theorem Calls.cell (h : t.Calls u) : u.bound = t.bound ∧ u.cell ∈ t.cell.children ∨
    u.bound < t.bound ∧ t.world.cells[u.bound]? = some u.cell := by
  cases h with
  | next hi hcell => exact .inr ⟨hi, hcell⟩
  | member _ hmember => exact .inl ⟨rfl, List.mem_of_getElem? hmember⟩
  | _ => exact .inl ⟨rfl, by simp [Cell.children]⟩

/-- A visit fails as any visit does that it makes. -/
theorem Calls.error (h : t.Calls u) (hu : u.outcome = .error failure) :
    t.outcome = .error failure := by
  simp only [outcome, stepped] at hu ⊢
  cases h with
  | next hi hcell =>
    simp only [Cell.step, Leaf.step, World.stepBelow_of_lt hi, World.stepVariable_eq hcell]
    exact hu
  | body => exact hu
  | min | first | left => simp only [Cell.step, hu]
  | operand => simp only [Cell.step, hu, Except.map]
  | max hfirst | last hfirst | right hfirst =>
    simp only [outcome, stepped] at hfirst hu
    simp only [Cell.step, hfirst, hu]
  | increment hfirst hworld hlast =>
    subst hworld
    simp only [outcome, stepped] at hfirst hlast hu
    simp only [Cell.step, hfirst, hlast, hu]
  | member hselect hmember =>
    simp only [Cell.step, hselect, Cell.stepMember_eq, hmember, hu]

/-- Every failure is raised at one of the visits below it. -/
theorem exists_raises (h : t.outcome = .error failure) :
    ∃ u, Relation.ReflTransGen Calls t u ∧ u.Raises failure := by
  obtain ⟨bound, cell, world⟩ := t
  induction bound using Nat.strongRecOn generalizing cell world with
  | ind bound ihBound =>
    induction cell using Cell.induct_children generalizing world with
    | hcell c ihCell =>
      by_cases hfails : ∃ u other, Calls ⟨bound, c, world⟩ u ∧ u.outcome = .error other
      · obtain ⟨⟨_, cell, v⟩, other, hcalls, hother⟩ := hfails
        obtain rfl : other = failure := by
          rw [hcalls.error hother] at h
          exact Except.error.inj h
        -- The visit that fails is of a part of the cell, or of a variable with a lower bound.
        obtain ⟨u, hrun, hraises⟩ :
            ∃ u, Relation.ReflTransGen Calls ⟨_, cell, v⟩ u ∧ u.Raises other := by
          obtain ⟨rfl, hchild⟩ | ⟨hless, -⟩ := hcalls.cell
          · exact ihCell cell hchild v hother
          · exact ihBound _ hless cell v hother
        exact ⟨u, .head hcalls hrun, hraises⟩
      · refine ⟨_, .refl, h, fun u hu => ?_⟩
        cases houtcome : u.outcome with
        | ok x => exact ⟨x, rfl⟩
        | error other => exact absurd ⟨u, other, hu, houtcome⟩ hfails

/-- How a visit can fail where all visits that it makes succeed. -/
inductive Fails : Visit → Failure → Prop
  | outOfReach {bound i : Nat} {l : Leaf} {r : Report} {w : World} :
      Fails ⟨bound, .leaf l r, w⟩ (.fault (.outOfReach i))
  | enumeration {bound : Nat} {ref : Identifier} {name : String} {values : List Int} {r : Report}
      {w : World} {failure : Failure} (h : (w.drawValue values).1 = .error failure) :
      Fails ⟨bound, .leaf (.enumeration ref name values) r, w⟩ failure
  | range {bound : Nat} {min max : Cell} {r : Report} {w v u : World} {lo hi : Reading}
      {failure : Failure} (hmin : (mk bound min w).outcome = .ok lo)
      (hmax : (mk bound max v).outcome = .ok hi)
      (h : (u.drawBetween (.range min.expr max.expr) lo.value hi.value).1 = .error failure) :
      Fails ⟨bound, .range min max r, w⟩ failure
  | increment {bound : Nat} {first last increment : Cell} {p : Progress} {r : Report} {w v : World}
      {c : Reading} (h : (mk bound increment v).outcome = .ok c) (hzero : c.value = 0) :
      Fails ⟨bound, .sequence first last increment p r, w⟩
        (.cause (.zeroIncrement (.sequence first.expr last.expr increment.expr)))
  | select {bound : Nat} {chooser : Chooser} {members : List Cell} {r : Report} {w : World}
      {failure : Failure} (h : (chooser.select members.length w).1 = .error failure) :
      Fails ⟨bound, .choice chooser members r, w⟩ failure
  | member {bound i : Nat} {chooser : Chooser} {members : List Cell} {r : Report} {w : World}
      (h : (chooser.select members.length w).1 = .ok i) (hmember : members[i]? = none) :
      Fails ⟨bound, .choice chooser members r, w⟩ (.fault .noSuchMember)
  | operator {bound : Nat} {op : BinaryOp} {left right : Cell} {r : Report} {w : World} {x y : Int}
      {failure : Failure} (h : op.apply x y = .error failure) :
      Fails ⟨bound, .binary op left right r, w⟩ failure

theorem Raises.fails (h : t.Raises failure) : t.Fails failure := by
  obtain ⟨bound, cell, w⟩ := t
  obtain ⟨houtcome, hcalls⟩ := h
  simp only [outcome, stepped] at houtcome hcalls
  cases cell with
  | leaf l r =>
    cases l with
    | literal | item | constant => cases houtcome
    | enumeration ref name values => exact .enumeration houtcome
    | read ref name i =>
      simp only [Cell.step, Leaf.step, World.read] at houtcome
      split at houtcome <;> cases houtcome
      exact .outOfReach
    | next ref name i =>
      simp only [Cell.step, Leaf.step] at houtcome
      by_cases hi : i < bound
      · rw [World.stepBelow_of_lt hi] at houtcome
        cases hcell : w.cells[i]? with
        | none =>
          simp only [World.stepVariable, World.stepBelow, if_pos, hcell] at houtcome
          cases houtcome
          exact .outOfReach
        | some c =>
          obtain ⟨x, hx⟩ := hcalls _ (.next hi hcell)
          rw [World.stepVariable_eq hcell, hx] at houtcome
          cases houtcome
      · rw [World.stepBelow_of_le (by omega)] at houtcome
        cases houtcome
        exact .outOfReach
  | copy ref name body r =>
    obtain ⟨x, hx⟩ := hcalls _ .body
    simp only [Cell.step, hx] at houtcome
    cases houtcome
  | range min max r =>
    obtain ⟨lo, hlo⟩ := hcalls _ .min
    obtain ⟨hi, hhi⟩ := hcalls _ (.max hlo)
    simp only [Cell.step, hlo] at houtcome
    rw [stepped] at hhi
    simp only [hhi] at houtcome
    exact .range hlo hhi houtcome
  | sequence first last increment p r =>
    obtain ⟨a, ha⟩ := hcalls _ .first
    obtain ⟨b, hb⟩ := hcalls _ (.last ha)
    obtain ⟨c, hc⟩ := hcalls _ (.increment ha rfl hb)
    simp only [stepped] at hb hc
    simp only [Cell.step, ha, hb, hc] at houtcome
    split at houtcome <;> cases houtcome
    rename_i hzero
    exact .increment hc hzero
  | choice chooser members r =>
    simp only [Cell.step] at houtcome
    cases hselect : (chooser.select members.length w).1 with
    | error other =>
      simp only [hselect] at houtcome
      cases houtcome
      exact .select hselect
    | ok i =>
      simp only [hselect, Cell.stepMember_eq] at houtcome
      cases hmember : members[i]? with
      | none =>
        simp only [hmember] at houtcome
        cases houtcome
        exact .member hselect hmember
      | some c =>
        obtain ⟨x, hx⟩ := hcalls _ (.member hselect hmember)
        simp only [hmember, hx] at houtcome
        cases houtcome
  | unary op operand r =>
    obtain ⟨x, hx⟩ := hcalls _ .operand
    simp only [Cell.step, hx] at houtcome
    cases houtcome
  | binary op left right r =>
    obtain ⟨x, hx⟩ := hcalls _ .left
    obtain ⟨y, hy⟩ := hcalls _ (.right hx)
    rw [stepped] at hy
    simp only [Cell.step, hx, hy] at houtcome
    cases happly : op.apply x.value y.value with
    | error other =>
      rw [happly] at houtcome
      cases houtcome
      exact .operator happly
    | ok value =>
      rw [happly] at houtcome
      cases houtcome

/-- Visits go on in worlds that draws and steps of variables lead to. -/
theorem Calls.keeps {I : World → Prop} (hdraw : World.Robust I)
    (hstep : ∀ bound i v, I v → I (World.stepBelow bound i v).2) (h : t.Calls u) (ht : I t.world) :
    I u.world := by
  have hstepped (bound : Nat) (c : Cell) (v : World) (hv : I v) : I (mk bound c v).stepped.world :=
    c.step_keeps hdraw v (fun _ _ i _ v' hv' => hstep bound i v' hv') hv
  cases h with
  | max | last | right => exact hstepped _ _ _ ht
  | increment _ hworld => exact hstepped _ _ _ (hworld ▸ hstepped _ _ _ ht)
  | member => exact hdraw (Chooser.draws_select _ _ _) ht
  | _ => exact ht

/-- What holds of all nodes in the worlds of visits, holds of the nodes of each visit's cell. -/
theorem Calls.walk {Q : Cell → Prop} (h : t.Calls u) (ht : ∀ node ∈ t.cell.walk, Q node)
    (hworld : ∀ (i : Nat) (c : Cell), t.world.cells[i]? = some c → ∀ node ∈ c.walk, Q node) :
    ∀ node ∈ u.cell.walk, Q node := by
  obtain ⟨-, hchild⟩ | ⟨-, hcell⟩ := h.cell
  · exact fun node hnode => ht node (Cell.mem_walk_of_child hchild hnode)
  · exact hworld _ _ hcell

end Visit

end Stimulus
