import Stimulus.Proofs.Cell.Sound
import Stimulus.Proofs.Scope.Expansion
import Stimulus.Proofs.Scope.Resolution

/-!
# Accepted declarations

Which enumerations and variables are accepted behind others: enumerations with new names and with
items of distinct names and values that are not negative, and variables with new names and sound
expressions, in which every reference has a meaning among the enumerations and the variables before
it.
-/
namespace Stimulus

/-- An enumeration has items, with distinct names and values that are not negative. -/
structure EnumDecl.Consistent (d : EnumDecl) : Prop where
  nonempty : d.items ≠ []
  distinct : (d.items.map (·.name)).Nodup
  value : ∀ (i : Nat) (item : EnumItem), d.items[i]? = some item → 0 ≤ item.value?.getD i

/-- Success where a condition holds, and an error where it does not. -/
def Accepts {α : Type} (p : Prop) (x : Except Error α) : Prop :=
  (p ∧ ∃ a, x = .ok a) ∨ (¬p ∧ ∃ error, x = .error error)

section

variable {α β : Type} {p q : Prop}

theorem Accepts.iff {x : Except Error α} (h : Accepts p x) : (∃ a, x = .ok a) ↔ p := by
  obtain ⟨hp, ha⟩ | ⟨hp, error, rfl⟩ := h
  · exact iff_of_true ha hp
  · simp [hp]

theorem Accepts.error {x : Except Error α} (h : Accepts p x) (hp : ¬p) :
    ∃ error, x = .error error := by
  obtain ⟨hp', -⟩ | ⟨-, herror⟩ := h
  · exact absurd hp' hp
  · exact herror

theorem Accepts.congr {x : Except Error α} (h : Accepts p x) (hpq : p ↔ q) : Accepts q x := by
  rwa [propext hpq] at h

/-- Of two checks in sequence both have to succeed. -/
theorem Accepts.andThen {x : Except Error α} {f : α → Except Error β} (hx : Accepts p x)
    (hf : ∀ a, x = .ok a → Accepts q (f a)) : Accepts (p ∧ q) (x >>= f) := by
  obtain ⟨hp, a, rfl⟩ | ⟨hp, error, rfl⟩ := hx
  · exact (hf a rfl).congr (by simp [hp])
  · exact .inr ⟨fun h => hp h.1, error, rfl⟩

end

/-! ## Enumerations -/

namespace EnumDecl

theorem forall_mem_valuedFrom (start : Nat) (items : List EnumItem) :
    (∀ item ∈ valuedFrom start items, 0 ≤ item.2) ↔
      ∀ (i : Nat) (item : EnumItem), items[i]? = some item →
        (0 : Int) ≤ item.value?.getD ↑(start + i) := by
  induction items generalizing start with
  | nil => simp [valuedFrom]
  | cons item rest ih =>
    rw [valuedFrom, List.forall_mem_cons, ih]
    constructor
    · rintro ⟨hfirst, hrest⟩ i other hother
      cases i with
      | zero =>
        cases hother
        exact hfirst
      | succ i =>
        have h := hrest i other hother
        rwa [show start + 1 + i = start + (i + 1) by omega] at h
    · intro h
      refine ⟨h 0 item rfl, fun i other hother => ?_⟩
      rw [show start + 1 + i = start + (i + 1) by omega]
      exact h (i + 1) other hother

end EnumDecl

namespace Enumeration

theorem itemCause?_eq_none_iff {enum : String} {seen : List String} (hseen : seen.Nodup)
    {items : List (String × Int)} :
    itemCause? enum seen items = none ↔
      (seen ++ items.map Prod.fst).Nodup ∧ ∀ item ∈ items, 0 ≤ item.2 := by
  induction items generalizing seen with
  | nil => simp [itemCause?, hseen]
  | cons item rest ih =>
    obtain ⟨name, value⟩ := item
    rw [itemCause?]
    by_cases hname : name ∈ seen
    · have hrepeated : ¬(seen ++ List.map Prod.fst ((name, value) :: rest)).Nodup := by
        intro h
        exact (List.nodup_append.mp h).2.2 name hname name (List.mem_cons_self ..) rfl
      rw [if_pos (by simpa using hname)]
      simp only [reduceCtorEq, false_iff, not_and]
      exact fun h => absurd h hrepeated
    · rw [if_neg (by simpa using hname), List.map_cons, List.perm_middle.nodup_iff,
        List.forall_mem_cons]
      by_cases hvalue : value < 0
      · rw [if_pos hvalue]
        simp only [reduceCtorEq, false_iff, not_and]
        intro _ h
        omega
      · rw [if_neg hvalue, ih (List.nodup_cons.mpr ⟨hname, hseen⟩), List.cons_append]
        have hnonneg : 0 ≤ value := by omega
        simp [hnonneg]

theorem cause?_eq_none_iff {others : List Enumeration} {d : EnumDecl} :
    cause? others d = none ↔ (∀ other ∈ others, other.name ≠ d.name) ∧ d.Consistent := by
  have hvalues : (∀ item ∈ d.valuedItems, 0 ≤ item.2) ↔ ∀ (i : Nat) (item : EnumItem),
      d.items[i]? = some item → (0 : Int) ≤ item.value?.getD i := by
    have h := EnumDecl.forall_mem_valuedFrom 0 d.items
    simpa [EnumDecl.valuedItems] using h
  have hitems : itemCause? d.name [] d.valuedItems = none ↔ (d.items.map (·.name)).Nodup ∧
      ∀ (i : Nat) (item : EnumItem), d.items[i]? = some item → (0 : Int) ≤ item.value?.getD i := by
    rw [itemCause?_eq_none_iff List.nodup_nil, d.map_fst_valuedItems, hvalues, List.nil_append]
  unfold cause?
  by_cases hname : others.any (·.name == d.name) = true
  · have hnot : ¬∀ other ∈ others, other.name ≠ d.name := by simpa using hname
    simp [hname, hnot]
  · have hall : ∀ other ∈ others, other.name ≠ d.name := by simpa using hname
    rw [if_neg hname, Option.or_eq_none_iff, hitems]
    constructor
    · rintro ⟨⟨hdistinct, hvalue⟩, hempty⟩
      exact ⟨hall, by simpa using hempty, hdistinct, hvalue⟩
    · rintro ⟨-, hnonempty, hdistinct, hvalue⟩
      exact ⟨⟨hdistinct, hvalue⟩, by simpa using hnonempty⟩

/-- Declaring enumerations behind others adds them all, or finds one of them inconsistent. -/
theorem accepts_declareAll (others : List Enumeration) (hothers : (others.map (·.name)).Nodup)
    (enums : List EnumDecl) :
    ((others.map (·.name) ++ enums.map (·.name)).Nodup ∧ ∀ e ∈ enums, e.Consistent) ∧
        declareAll others enums = .ok (others ++ enums.map EnumDecl.enumeration) ∨
      ¬((others.map (·.name) ++ enums.map (·.name)).Nodup ∧ ∀ e ∈ enums, e.Consistent) ∧
        ∃ error, declareAll others enums = .error error := by
  induction enums generalizing others with
  | nil => simp [declareAll, hothers]
  | cons d rest ih =>
    cases hcause : cause? others d with
    | some cause =>
      refine .inr ⟨?_, _, by rw [declareAll, hcause]⟩
      rintro ⟨hnodup, hall⟩
      have hnone : cause? others d = none := by
        refine cause?_eq_none_iff.mpr ⟨fun other hother => ?_, hall d (List.mem_cons_self ..)⟩
        exact (List.nodup_append.mp hnodup).2.2 _ (List.mem_map_of_mem hother) _
          (List.mem_cons_self ..)
      rw [hcause] at hnone
      cases hnone
    | none =>
      obtain ⟨hapart, hd⟩ := cause?_eq_none_iff.mp hcause
      have hstep : declareAll others (d :: rest) = declareAll (others ++ [d.enumeration]) rest := by
        rw [declareAll, hcause]
        rfl
      have hmore : ((others ++ [d.enumeration]).map (·.name)).Nodup := by
        rw [List.map_append, List.nodup_append]
        refine ⟨hothers, by simp, ?_⟩
        intro name hname other hother
        obtain ⟨enumeration, hmem, rfl⟩ := List.mem_map.mp hname
        rw [List.map_singleton, List.mem_singleton] at hother
        rw [hother]
        exact hapart enumeration hmem
      have hnames : (others ++ [d.enumeration]).map (·.name) ++ rest.map (·.name) =
          others.map (·.name) ++ (d :: rest).map (·.name) := by
        simp [EnumDecl.enumeration]
      have hih := ih _ hmore
      rw [hnames, List.append_assoc, List.singleton_append, ← List.map_cons] at hih
      rw [hstep, List.forall_mem_cons]
      simpa [hd] using hih

end Enumeration

/-! ## Variables -/

theorem Expr.accepts_check (subject? : Option String) (position? : Option Position) (e : Expr) :
    Accepts e.Sound ((e.check subject? position?).mapError .ofConstruction) := by
  rw [check]
  cases hcause : e.cause? with
  | none => exact .inl ⟨cause?_eq_none_iff_sound.mp hcause, _, rfl⟩
  | some cause =>
    refine .inr ⟨fun h => ?_, _, rfl⟩
    rw [cause?_eq_none_iff_sound.mpr h] at hcause
    cases hcause

namespace Scope

variable {scope : Scope} {cells : Array Cell} {use : Use}

theorem Compiled.sound (hc : scope.Compiled cells) {j : Nat} {d : Declaration}
    (hd : scope.declarations[j]? = some d) : d.expr.Sound := by
  obtain ⟨hj, rfl⟩ := List.getElem?_eq_some_iff.mp hd
  obtain ⟨c, -, hbuilt⟩ := hc.cell j hj
  obtain ⟨-, hcheck, -⟩ := compileDeclaration_eq_ok hbuilt
  have haccepts := Expr.accepts_check (some scope.declarations[j].name)
    scope.declarations[j].position? scope.declarations[j].expr
  rw [hcheck] at haccepts
  exact haccepts.iff.mp ⟨_, rfl⟩

section

variable {enums : List EnumDecl} (henums : scope.enumerations = enums.map EnumDecl.enumeration)
  (hnames : (enums.map (·.name)).Nodup) (hitems : ∀ e ∈ enums, (e.items.map (·.name)).Nodup)

include henums

theorem nameCause?_eq_none_iff {d : Declaration} :
    scope.nameCause? d = none ↔ (∀ other ∈ scope.declarations, other.name ≠ d.name) ∧
      ∀ e ∈ enums, e.name ≠ d.name := by
  have hvariable : (scope.index? d.name).isSome ↔
      ∃ other ∈ scope.declarations, other.name = d.name := by
    rw [Option.isSome_iff_exists, index?_isSome_iff]
  have henum := enumValues?_isSome_iff henums d.name
  unfold nameCause?
  split
  · rename_i hused
    obtain ⟨other, hother, hname⟩ := hvariable.mp hused
    simp only [reduceCtorEq, false_iff, not_and]
    exact fun h => absurd hname (h other hother)
  · rename_i hfresh
    have hfresh' : ∀ other ∈ scope.declarations, other.name ≠ d.name :=
      fun other hother hname => hfresh (hvariable.mpr ⟨other, hother, hname⟩)
    split
    · rename_i hused
      obtain ⟨e, he, hname⟩ := henum.mp hused
      simp only [reduceCtorEq, false_iff, not_and]
      exact fun _ h => absurd hname (h e he)
    · rename_i hapart
      simp only [true_iff]
      exact ⟨hfresh', fun e he hname => hapart (henum.mpr ⟨e, he, hname⟩)⟩

include hnames hitems

end

end Scope

end Stimulus
