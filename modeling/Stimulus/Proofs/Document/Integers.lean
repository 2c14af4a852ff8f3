import Stimulus.Document.Text
import Stimulus.Proofs.Document.Parts

/-!
# Integers of documents

A reader refuses an integer with too many digits, at whatever depth it stands. The integers of an
expression or a forest are those of its document, but for the increment of a sequence that states
none. So all integers of a forest that was read from a text may be written.
-/
namespace Stimulus

/-- The integers that a forest states may be written. -/
structure Forest.Writable (f : Forest) : Prop where
  item : ∀ e ∈ f.enums, ∀ item ∈ e.items, ∀ value, item.value? = some value →
    Text.Numeral.isWritable value
  expr : ∀ d ∈ f.declarations, d.expr.isWritable

theorem Expr.isWritable_iff {e : Expr} :
    e.isWritable ↔ ∀ n ∈ e.integers, Text.Numeral.isWritable n := by
  rw [isWritable, List.all_eq_true]

theorem Expr.integers_eq (e : Expr) : e.integers = e.ownIntegers ++ e.members.flatMap integers := by
  unfold integers
  rw [walk_eq, List.flatMap_cons, List.flatMap_assoc]

namespace Json

/-- The integers that a value holds may be written. -/
def Writable (value : Json) : Prop := ∀ n, value.Holds n → Text.Numeral.isWritable n

/-- The values that texts of at most the length of `s` begin with may be written. -/
def WritesBelow (s : List Char) : Prop :=
  ∀ (s' : List Char) (value : Json) (rest : { rest : List Char // rest.length < s'.length }),
    s'.length ≤ s.length → valueFrom s' = .ok (value, rest) → value.Writable

theorem WritesBelow.mono {s s' : List Char} (h : WritesBelow s) (hle : s'.length ≤ s.length) :
    WritesBelow s' :=
  fun s'' value rest hs => h s'' value rest (Nat.le_trans hs hle)

end Json

/-! ## Decoding -/

namespace Document

variable {d : Json}

theorem DenotesInteger.holds {n : Int} (h : DenotesInteger d n) : d.Holds n := by
  obtain ⟨⟩ := h
  exact .int n

theorem ByPart.holds {n : Int} (h : ByPart DenotesInteger d n) : d.Holds n := by
  obtain ⟨part, hpart, hholds⟩ := h
  exact hholds n hpart.holds

theorem DenotesWeighted.holds {w : Int} {e : Expr} (h : DenotesWeighted d (w, e)) : d.Holds w := by
  cases h with
  | pair hweight => exact .item (by simp) hweight.holds
  | obj _ hweight => exact hweight.byPart.holds

theorem DenotesExpr.holds_own {e : Expr} {n : Int} (h : DenotesExpr d e) (hn : n ∈ e.ownIntegers) :
    d.Holds n := by
  cases h with
  | int =>
    obtain rfl := List.mem_singleton.mp hn
    exact .int n
  | literal _ hvalue =>
    obtain rfl := List.mem_singleton.mp hn
    exact hvalue.byPart.holds
  | weightedSample _ hmembers | weightedPool _ hmembers =>
    obtain ⟨⟨w, e⟩, hmem, rfl⟩ := List.mem_map.mp hn
    obtain ⟨part, hpart, hholds⟩ := hmembers.byPart.trans fun _ h => h.byPart hmem
    exact hholds w hpart.holds
  | _ => cases hn

/-- The integers of an expression stand in its document, but for an increment that the document does
not state. -/
theorem DenotesExpr.holds {e : Expr} {n : Int} (h : DenotesExpr d e) (hn : n ∈ e.integers) :
    n = 1 ∨ d.Holds n := by
  induction e using Expr.induct_members generalizing d with
  | hexpr e ih =>
    rw [Expr.integers_eq, List.mem_append, List.mem_flatMap] at hn
    obtain hown | ⟨member, hmember, hn⟩ := hn
    · exact .inr (h.holds_own hown)
    · obtain rfl | ⟨part, hpart, hholds⟩ := h.byPart hmember
      · exact .inl (List.mem_singleton.mp hn)
      · exact (ih member hmember hpart hn).imp_right (hholds n)

theorem DenotesEnumItem.holds {item : EnumItem} {n : Int} (h : DenotesEnumItem d item)
    (hn : item.value? = some n) : d.Holds n := by
  cases h with
  | str => cases hn
  | obj _ _ hvalue =>
    cases hn
    exact hvalue.byPart.holds

/-- If the integers of a document may be written, then so may those of its forest. -/
theorem DenotesForest.writable {f : Forest} (h : DenotesForest d f) (hd : d.Writable) :
    f.Writable := by
  obtain ⟨-, henums, hdeclarations⟩ := h
  constructor
  · intro e he item hitem n hn
    obtain ⟨part, ⟨-, -, hitems, -⟩, hholds⟩ := henums.byPart he
    obtain ⟨inner, hinner, hholds'⟩ := hitems.byPart.trans fun _ h => h.byPart hitem
    exact hd n (hholds n (hholds' n (hinner.holds hn)))
  · intro declaration hdeclaration
    obtain ⟨part, ⟨-, -, hexpr, -⟩, hholds⟩ := hdeclarations.byPart hdeclaration
    obtain ⟨inner, hinner, hholds'⟩ := hexpr.byPart
    refine Expr.isWritable_iff.mpr fun n hn => ?_
    obtain rfl | hn := hinner.holds hn
    · decide
    · exact hd n (hholds n (hholds' n hn))

end Document

end Stimulus
