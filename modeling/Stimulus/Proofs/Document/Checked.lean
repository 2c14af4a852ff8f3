import Mathlib.Data.List.Forall2
import Stimulus.Document.Decode

/-!
# Valid outcomes

When a check finds nothing wrong: an outcome that is put together of others is valid where all of
them are, and a field has the outcome of its value. A check that tells a relation between values and
results is lifted to fields and to lists, where it tells the relation of their parts.
-/
namespace Stimulus.Document

variable {α β γ : Type}

namespace Checked

@[simp] theorem refuse_ne_valid (problem : Problem) (value : α) : refuse problem ≠ valid value := by
  simp [refuse]

@[simp] theorem map_eq_valid_iff {f : α → β} {checked : Checked α} {b : β} :
    checked.map f = valid b ↔ ∃ a, checked = valid a ∧ f a = b := by
  cases checked <;> simp [map]

@[simp] theorem both_eq_valid_iff {f : α → β → γ} {a : Checked α} {b : Checked β} {c : γ} :
    a.both f b = valid c ↔ ∃ x y, a = valid x ∧ b = valid y ∧ f x y = c := by
  cases a <;> cases b <;> simp [both]

@[simp] theorem under_eq_valid_iff {step : Step} {checked : Checked α} {value : α} :
    checked.under step = valid value ↔ checked = valid value := by
  cases checked <;> simp [under]

theorem followedBy_eq_valid_iff {checked : Checked α} {more : List Issue} {value : α} :
    checked.followedBy more = valid value ↔ checked = valid value ∧ more = [] := by
  cases checked <;> cases more <;> simp [followedBy]

end Checked

/-- The elements of a list are checked one by one, in their order. -/
theorem collect_eq_valid_iff {start : Nat} {outcomes : List (Checked α)} {values : List α} :
    collect start outcomes = .valid values ↔ outcomes = values.map .valid := by
  induction outcomes generalizing start values with
  | nil => cases values <;> simp [collect]
  | cons first rest ih =>
    cases values with
    | nil => simp [collect]
    | cons value more => simp [collect, ih]

/-- At this value the check has the results that the relation gives it, and no others. -/
def ReadsAs (read : Json → Checked α) (p : Json → α → Prop) (d : Json) : Prop :=
  ∀ a, read d = .valid a ↔ p d a

/-! ## Lists -/

/-- A list whose elements denote the values, one by one. -/
inductive Elementwise (p : Json → α → Prop) : Json → List α → Prop
  | arr {items : List Json} {values : List α} (h : List.Forall₂ p items values) :
    Elementwise p (.arr items) values

theorem collect_map_eq_valid_iff {read : Json → Checked α} {p : Json → α → Prop}
    {items : List Json} (hread : ∀ item ∈ items, ReadsAs read p item) {start : Nat}
    {values : List α} :
    collect start (items.map read) = .valid values ↔ List.Forall₂ p items values := by
  rw [collect_eq_valid_iff]
  induction items generalizing values with
  | nil => cases values <;> simp
  | cons item rest ih =>
    have hrest := @ih (fun other hother => hread other (List.mem_cons_of_mem _ hother))
    cases values with
    | nil => simp
    | cons value more => simp [hread item (List.mem_cons_self ..) value, hrest]

theorem listOf_readsAs {read : Json → Checked α} {p : Json → α → Prop} {d : Json}
    (hread : ∀ items, d = .arr items → ∀ item ∈ items, ReadsAs read p item) :
    ReadsAs (listOf read) (Elementwise p) d := by
  intro values
  cases d with
  | arr items =>
    rw [listOf, collect_map_eq_valid_iff (hread items rfl)]
    constructor
    · exact .arr
    · rintro ⟨hall⟩
      exact hall
  | _ =>
    constructor
    · intro h
      exact absurd h (Checked.refuse_ne_valid _ values)
    · intro h
      cases h

/-! ## Fields -/

/-- A part of a document that must be there. -/
inductive Required (p : Json → α → Prop) : Option Json → α → Prop
  | present {value : Json} {a : α} (h : p value a) : Required p (some value) a

/-- A part of a document that may be absent or null. -/
inductive Optionally (p : Json → α → Prop) : Option Json → Option α → Prop
  | absent : Optionally p none none
  | null : Optionally p (some .null) none
  | present {value : Json} {a : α} (h : p value a) : Optionally p (some value) (some a)

/-- A list that may be absent, and then is empty. -/
inductive Listed (p : Json → α → Prop) : Option Json → List α → Prop
  | absent : Listed p none []
  | present {value : Json} {values : List α} (h : Elementwise p value values) :
    Listed p (some value) values

/-- An object with no other keys than the given ones. -/
def HasOnly (keys : List String) (fields : List (String × Json)) : Prop :=
  ∀ field ∈ fields, field.1 ∈ keys

section

variable {key : String} {read : Json → Checked α} {p : Json → α → Prop}
  {fields : List (String × Json)}

theorem required_eq_valid_iff
    (hread : ∀ value, fields.lookup key = some value → ReadsAs read p value) {a : α} :
    required key read fields = .valid a ↔ Required p (fields.lookup key) a := by
  unfold required
  cases hlookup : fields.lookup key with
  | none =>
    constructor
    · intro h
      simp [absent] at h
    · intro h
      cases h
  | some value =>
    rw [Checked.under_eq_valid_iff, hread value hlookup a]
    constructor
    · exact .present
    · rintro ⟨h⟩
      exact h

theorem optional_eq_valid_iff (hnull : ∀ a, ¬ p .null a)
    (hread : ∀ value, fields.lookup key = some value → ReadsAs read p value) {a? : Option α} :
    optional key read fields = .valid a? ↔ Optionally p (fields.lookup key) a? := by
  unfold optional
  constructor
  · intro h
    split at h
    · rename_i hlookup
      cases h
      rw [hlookup]
      exact .absent
    · rename_i hlookup
      cases h
      rw [hlookup]
      exact .null
    · rename_i value _ hlookup
      simp only [Checked.under_eq_valid_iff, Checked.map_eq_valid_iff] at h
      obtain ⟨a, ha, rfl⟩ := h
      rw [hlookup]
      exact .present ((hread value hlookup a).mp ha)
  · cases hlookup : fields.lookup key with
    | none =>
      rintro ⟨⟩
      rfl
    | some value =>
      intro h
      cases h with
      | null => rfl
      | @present _ a ha =>
        cases value with
        | null => exact absurd ha (hnull a)
        | _ => simp [(hread _ hlookup a).mpr ha]

theorem listField_eq_valid_iff
    (hread : ∀ value, fields.lookup key = some value → ReadsAs (listOf read) (Elementwise p) value)
    {values : List α} :
    listField key read fields = .valid values ↔ Listed p (fields.lookup key) values := by
  unfold listField
  cases hlookup : fields.lookup key with
  | none =>
    constructor
    · intro h
      cases h
      exact .absent
    · rintro ⟨⟩
      rfl
  | some value =>
    simp only [Checked.under_eq_valid_iff]
    rw [hread value hlookup values]
    constructor
    · exact .present
    · rintro ⟨⟩
      assumption

theorem closed_eq_valid_iff {known : List String} (hknown : ∀ key ∈ known, Text.hasHalf key = false)
    {checked : Checked α} {a : α} :
    closed known fields checked = .valid a ↔ HasOnly known fields ∧ checked = .valid a := by
  have hunknown : unknownKeys known fields = [] ↔ HasOnly known fields := by
    simp [unknownKeys, HasOnly]
  unfold closed
  split
  · rename_i hhalf
    -- A key with a lone surrogate is none of the known ones.
    rw [List.any_eq_true] at hhalf
    obtain ⟨⟨key, value⟩, hfield, hhalf⟩ := hhalf
    constructor
    · intro h
      exact absurd h (Checked.refuse_ne_valid _ a)
    · rintro ⟨honly, -⟩
      have hwhole : Text.hasHalf key = false := hknown key (honly _ hfield)
      exact absurd hhalf (by simp [hwhole])
  · rw [Checked.followedBy_eq_valid_iff, hunknown, and_comm]

end

theorem RecordForm.hasHalf_keys (form : RecordForm) :
    ∀ key ∈ form.keys, Text.hasHalf key = false := by
  cases form <;> decide +kernel

theorem ExprForm.hasHalf_keys (form : ExprForm) :
    ∀ key ∈ "type" :: form.keys, Text.hasHalf key = false := by
  cases form <;> decide +kernel

end Stimulus.Document
