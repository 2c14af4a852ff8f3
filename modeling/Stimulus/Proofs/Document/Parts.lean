import Stimulus.Proofs.Document.Format
import Stimulus.Proofs.Expr.Walk

/-!
# Parts of documents

What a field or an element of a list denotes is denoted by a part of the document, and a part holds
no other integers than the whole. The members of an expression are denoted so.
-/
namespace Stimulus

/-- A value holds the integers that stand in it, at any depth. -/
inductive Json.Holds : Json → Int → Prop
  | int (n : Int) : Holds (.int n) n
  | item {items : List Json} {item : Json} {n : Int} (hitem : item ∈ items) (h : Holds item n) :
    Holds (.arr items) n
  | field {fields : List (String × Json)} {field : String × Json} {n : Int}
      (hfield : field ∈ fields) (h : Holds field.2 n) : Holds (.obj fields) n

namespace Document

variable {α : Type} {p : Json → α → Prop} {d : Json} {a : α}

/-- A value denotes something by a part of it, which holds no integers that the value does not
hold. -/
def ByPart (p : Json → α → Prop) (d : Json) (a : α) : Prop :=
  ∃ part, p part a ∧ ∀ n, part.Holds n → d.Holds n

theorem byPart_self (h : p d a) : ByPart p d a := ⟨d, h, fun _ => id⟩

theorem byPart_of_lookup {fields : List (String × Json)} {key : String} {value : Json}
    (hlookup : fields.lookup key = some value) (h : ByPart p value a) :
    ByPart p (.obj fields) a := by
  obtain ⟨before, after, rfl, -⟩ := List.lookup_eq_some_iff.mp hlookup
  have hfield : (key, value) ∈ before ++ (key, value) :: after := by simp
  obtain ⟨part, hpart, hholds⟩ := h
  exact ⟨part, hpart, fun n hn => .field hfield (hholds n hn)⟩

theorem Required.byPart {fields : List (String × Json)} {key : String}
    (h : Required p (fields.lookup key) a) : ByPart p (.obj fields) a := by
  generalize hlookup : fields.lookup key = found at h
  cases h with
  | present h => exact byPart_of_lookup hlookup (byPart_self h)

theorem Optionally.byPart {fields : List (String × Json)} {key : String}
    (h : Optionally p (fields.lookup key) (some a)) : ByPart p (.obj fields) a := by
  generalize hlookup : fields.lookup key = found at h
  cases h with
  | present h => exact byPart_of_lookup hlookup (byPart_self h)

theorem ByPart.trans {β : Type} {q : Json → β → Prop} {b : β} (h : ByPart q d b)
    (hq : ∀ part, q part b → ByPart p part a) : ByPart p d a := by
  obtain ⟨middle, hmiddle, hholds⟩ := h
  obtain ⟨part, hpart, hholds'⟩ := hq middle hmiddle
  exact ⟨part, hpart, fun n hn => hholds n (hholds' n hn)⟩

theorem Elementwise.byPart {values : List α} (h : Elementwise p d values) (ha : a ∈ values) :
    ByPart p d a := by
  obtain ⟨hall⟩ := h
  obtain ⟨hlength, hget⟩ := List.forall₂_iff_get.mp hall
  obtain ⟨i, hi, rfl⟩ := List.getElem_of_mem ha
  exact ⟨_, hget i (hlength ▸ hi) hi, fun n => .item (List.get_mem ..)⟩

theorem Listed.byPart {fields : List (String × Json)} {key : String} {values : List α}
    (h : Listed p (fields.lookup key) values) (ha : a ∈ values) : ByPart p (.obj fields) a := by
  generalize hlookup : fields.lookup key = found at h
  cases h with
  | absent => cases ha
  | present h => exact byPart_of_lookup hlookup (h.byPart ha)

theorem DenotesWeighted.byPart {w : Int} {e : Expr} (h : DenotesWeighted d (w, e)) :
    ByPart DenotesExpr d e := by
  cases h with
  | pair _ hexpr => exact ⟨_, hexpr, fun n => .item (by simp)⟩
  | obj _ _ hexpr => exact hexpr.byPart

/-- The members of an expression are denoted by parts of its document, but for an increment that the
document does not state. -/
theorem DenotesExpr.byPart {e member : Expr} (h : DenotesExpr d e) (hmember : member ∈ e.members) :
    member = .literal 1 ∨ ByPart DenotesExpr d member := by
  cases h with
  | int | str | literal | item | reference => cases hmember
  | range _ hmin hmax =>
    obtain rfl | rfl := List.mem_pair.mp hmember
    · exact .inr hmin.byPart
    · exact .inr hmax.byPart
  | pattern _ hmembers | sample _ hmembers | pool _ hmembers =>
    exact .inr (hmembers.byPart.trans fun _ h => h.byPart hmember)
  | @sequence _ _ _ increment? _ hfirst hlast hincrement =>
    simp only [Expr.members, List.mem_cons, List.not_mem_nil, or_false] at hmember
    obtain rfl | rfl | rfl := hmember
    · exact .inr hfirst.byPart
    · exact .inr hlast.byPart
    · cases increment? with
      | none => exact .inl rfl
      | some increment => exact .inr hincrement.byPart
  | weightedSample _ hmembers | weightedPool _ hmembers =>
    obtain ⟨⟨w, e⟩, hmem, rfl⟩ := List.mem_map.mp hmember
    exact .inr (hmembers.byPart.trans fun _ h => (h.byPart hmem).trans fun _ h => h.byPart)
  | unary _ _ hoperand =>
    obtain rfl := List.mem_singleton.mp hmember
    exact .inr hoperand.byPart
  | binary _ _ hleft hright =>
    obtain rfl | rfl := List.mem_pair.mp hmember
    · exact .inr hleft.byPart
    · exact .inr hright.byPart

end Document

end Stimulus
