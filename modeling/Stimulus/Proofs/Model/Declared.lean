import Mathlib.Data.List.Pairwise
import Stimulus.Proofs.Model.Insertion

/-!
# Reaching what is declared

What the names of a forest are bound to where a variable is compiled. The items of enumerations come
before all else, by their full names and by their own; so an enumeration or a variable is reached by
its plain name exactly if no item takes that name. An access always goes to the variable.
-/
namespace Stimulus

/-- Whether a path names an item, by its full name or by its own. -/
def EnumDecl.IsItem (enums : List EnumDecl) (path : String) : Prop :=
  (∃ e ∈ enums, ∃ item ∈ e.items, path = e.name ++ "." ++ item.name) ∨
    ∃ e ∈ enums, e.HasItem path

/-- Whether an item has a full name that no item of another enumeration has. -/
def EnumDecl.SoleItem (enums : List EnumDecl) (e : EnumDecl) (item : EnumItem) : Prop :=
  ∀ other ∈ enums, ∀ item' ∈ other.items,
    other.name ++ "." ++ item'.name = e.name ++ "." ++ item.name → other = e

namespace EnumDecl

theorem getElem?_valuedFrom (start : Nat) (items : List EnumItem) (p : Nat) :
    (valuedFrom start items)[p]? =
      (items[p]?).map fun item => (item.name, item.value?.getD ↑(start + p)) := by
  induction items generalizing start p with
  | nil => rfl
  | cons item rest ih =>
    cases p with
    | zero => rfl
    | succ p =>
      have hplace : start + 1 + p = start + (p + 1) := by omega
      simp only [valuedFrom, List.getElem?_cons_succ, ih, hplace]

/-- The items of an enumeration with their values: the explicit one, or the item's place. -/
theorem getElem?_valuedItems (e : EnumDecl) (p : Nat) :
    e.valuedItems[p]? = (e.items[p]?).map fun item => (item.name, item.value?.getD p) := by
  have h := getElem?_valuedFrom 0 e.items p
  rwa [Nat.zero_add] at h

theorem values_enumeration (e : EnumDecl) :
    e.enumeration.values = e.items.mapIdx fun p item => item.value?.getD p := by
  refine List.ext_getElem? fun p => ?_
  rw [Enumeration.values, enumeration, List.getElem?_map, getElem?_valuedItems,
    List.getElem?_mapIdx, Option.map_map]
  rfl

end EnumDecl

namespace Scope

variable {scope : Scope} {use : Use}

/-- A key with one value in a list of pairs, wherever it stands. -/
theorem lookup_eq_some_of_unique {pairs : List (String × Int)} {key : String} {value : Int}
    (hmem : (key, value) ∈ pairs) (hunique : ∀ other, (key, other) ∈ pairs → other = value) :
    pairs.lookup key = some value := by
  have hsome : (pairs.lookup key).isSome :=
    List.lookup_isSome_iff.mpr ⟨_, hmem, beq_self_eq_true key⟩
  obtain ⟨found, hfound⟩ := Option.isSome_iff_exists.mp hsome
  obtain ⟨before, after, hpairs, -⟩ := List.lookup_eq_some_iff.mp hfound
  have hthere : (key, found) ∈ pairs := by simp [hpairs]
  rw [hfound, hunique found hthere]

section

variable {enums : List EnumDecl} (henums : scope.enumerations = enums.map EnumDecl.enumeration)

include henums

/-- The full names of all items, with the items' values. -/
theorem mem_fullNames_iff {path : String} {value : Int} :
    (path, value) ∈ scope.enumerations.flatMap Enumeration.fullNames ↔
      ∃ e ∈ enums, ∃ (p : Nat) (item : EnumItem), e.items[p]? = some item ∧
        path = e.name ++ "." ++ item.name ∧ value = item.value?.getD p := by
  rw [henums, List.flatMap_map, List.mem_flatMap]
  refine exists_congr fun e => and_congr_right fun _ => ?_
  rw [Enumeration.fullNames, List.mem_map]
  constructor
  · rintro ⟨⟨name, found⟩, hmem, heq⟩
    obtain ⟨p, hp⟩ := List.getElem?_of_mem hmem
    rw [EnumDecl.enumeration, EnumDecl.getElem?_valuedItems] at hp
    obtain ⟨item, hitem, hpair⟩ := Option.map_eq_some_iff.mp hp
    cases hpair
    cases heq
    exact ⟨p, item, hitem, rfl, rfl⟩
  · rintro ⟨p, item, hitem, rfl, rfl⟩
    have hp : e.valuedItems[p]? = some (item.name, item.value?.getD p) := by
      rw [EnumDecl.getElem?_valuedItems, hitem]
      rfl
    exact ⟨_, List.mem_of_getElem? hp, rfl⟩

/-- An item whose full name is no other enumeration's is reached by that name. -/
theorem itemValue?_of_soleItem (hitems : ∀ e ∈ enums, (e.items.map (·.name)).Nodup)
    {e : EnumDecl} (he : e ∈ enums) {p : Nat} {item : EnumItem} (hitem : e.items[p]? = some item)
    (hsole : EnumDecl.SoleItem enums e item) :
    scope.itemValue? (e.name ++ "." ++ item.name) = some (item.value?.getD p) := by
  rw [itemValue?]
  apply lookup_eq_some_of_unique
  · rw [List.mem_reverse, mem_fullNames_iff henums]
    exact ⟨e, he, p, item, hitem, rfl, rfl⟩
  · intro value hvalue
    rw [List.mem_reverse, mem_fullNames_iff henums] at hvalue
    obtain ⟨other, hother, q, item', hitem', hpath, rfl⟩ := hvalue
    obtain rfl := hsole other hother item' (List.mem_of_getElem? hitem') hpath.symm
    -- Within one enumeration, the name tells the place.
    have hname : item.name = item'.name := by simpa using hpath
    have hplace : p = q := by
      have hp : (other.items.map (·.name))[p]? = some item.name := by simp [hitem]
      have hq : (other.items.map (·.name))[q]? = some item.name := by simp [hitem', hname]
      obtain ⟨hlt, -⟩ := List.getElem?_eq_some_iff.mp hp
      exact (List.getElem?_inj hlt (hitems other hother)).mp (hp.trans hq.symm)
    subst hplace
    rw [hitem] at hitem'
    cases hitem'
    rfl

/-- A path that names an item is bound to a constant, or it is ambiguous. -/
theorem resolvePath_of_isItem {path : String} (h : EnumDecl.IsItem enums path) :
    (∃ value, scope.resolvePath use path = .ok (.constant value)) ∨
      ∃ names, scope.resolvePath use path = .error (.ambiguousItem path names) := by
  unfold resolvePath
  cases hfull : scope.itemValue? path with
  | some value => exact .inl ⟨value, rfl⟩
  | none =>
    match hbare : scope.bareItems path with
    | [(enum, value)] => exact .inl ⟨value, rfl⟩
    | first :: second :: more => exact .inr ⟨_, rfl⟩
    | [] =>
      have hnone := (bareItems_eq_nil_iff henums path).mp hbare
      obtain hspelled | ⟨e, he, hitem⟩ := h
      · have hsome := (itemValue?_isSome_iff henums path).mpr hspelled
        rw [hfull] at hsome
        cases hsome
      · exact absurd hitem (hnone e he)

theorem not_isItem_of_resolvePath {path : String} {target : Target}
    (h : scope.resolvePath use path = .ok target) (hne : ∀ value, target ≠ .constant value) :
    ¬EnumDecl.IsItem enums path := by
  intro hitem
  have hbound : (∃ value, scope.resolvePath use path = .ok (.constant value)) ∨
      ∃ names, scope.resolvePath use path = .error (.ambiguousItem path names) :=
    resolvePath_of_isItem henums hitem
  obtain ⟨value, hconstant⟩ | ⟨names, hambiguous⟩ := hbound
  · rw [h] at hconstant
    exact hne value (Except.ok.inj hconstant)
  · rw [h] at hambiguous
    cases hambiguous

/-- A path that names no item is bound to an enumeration, and behind these to a variable. -/
theorem resolvePath_of_not_isItem {path : String} (h : ¬EnumDecl.IsItem enums path) :
    (∀ values, scope.enumValues? path = some values →
      scope.resolvePath use path = .ok (.enumeration path values)) ∧
    ∀ i, scope.enumValues? path = none → scope.index? path = some i →
      scope.resolvePath use path = .ok (.read path i) := by
  have hfull : scope.itemValue? path = none := by
    rw [← Option.not_isSome_iff_eq_none, itemValue?_isSome_iff henums path]
    exact fun hspelled => h (.inl hspelled)
  have hbare : scope.bareItems path = [] := by
    rw [bareItems_eq_nil_iff henums path]
    exact fun e he hitem => h (.inr ⟨e, he, hitem⟩)
  constructor
  · intro values hvalues
    simp only [resolvePath, hfull, hbare, hvalues]
  · intro i hvalues hindex
    simp only [resolvePath, hfull, hbare, hvalues, hindex, resolveVariable]

theorem enumValues?_of_mem (hnames : (enums.map (·.name)).Nodup) {e : EnumDecl} (he : e ∈ enums) :
    scope.enumValues? e.name = some e.enumeration.values := by
  obtain ⟨found, hfound⟩ :=
    Option.isSome_iff_exists.mp ((enumValues?_isSome_iff henums e.name).mpr ⟨e, he, rfl⟩)
  rw [hfound]
  rw [enumValues?, henums, Option.map_eq_some_iff] at hfound
  obtain ⟨enumeration, hfind, rfl⟩ := hfound
  obtain ⟨other, hother, rfl⟩ := List.mem_map.mp (List.mem_of_find?_eq_some hfind)
  have hname : other.name = e.name := by simpa [EnumDecl.enumeration] using List.find?_some hfind
  rw [List.inj_on_of_nodup_map hnames hother he hname]

/-- An enumeration is reached by its name exactly if no item takes it. -/
theorem resolvePath_enum_iff (hnames : (enums.map (·.name)).Nodup) {e : EnumDecl} (he : e ∈ enums) :
    scope.resolvePath use e.name = .ok (.enumeration e.name e.enumeration.values) ↔
      ¬EnumDecl.IsItem enums e.name := by
  constructor
  · exact fun hok => not_isItem_of_resolvePath henums hok (by simp)
  · intro hfree
    exact (resolvePath_of_not_isItem henums hfree).1 _ (enumValues?_of_mem henums hnames he)

/-- A variable is reached by its name exactly if no item takes it. -/
theorem resolvePath_variable_iff {d : Declaration} (hapart : ∀ e ∈ enums, e.name ≠ d.name) {i : Nat}
    (hindex : scope.index? d.name = some i) :
    scope.resolvePath use d.name = .ok (.read d.name i) ↔ ¬EnumDecl.IsItem enums d.name := by
  constructor
  · exact fun hok => not_isItem_of_resolvePath henums hok (by simp)
  · intro hfree
    have henum : scope.enumValues? d.name = none := by
      rw [← Option.not_isSome_iff_eq_none, enumValues?_isSome_iff henums d.name]
      rintro ⟨e, he, hname⟩
      exact hapart e he hname
    exact (resolvePath_of_not_isItem henums hfree).2 i henum hindex

end

/-- The first variable of a name has the place of that name. -/
theorem index?_upTo_of_fresh {i k : Nat} (hik : i < k) {d : Declaration}
    (hd : scope.declarations[i]? = some d)
    (hfresh : ∀ other ∈ scope.declarations.take i, other.name ≠ d.name) :
    (scope.upTo k).index? d.name = some i := by
  obtain ⟨hi, rfl⟩ := List.getElem?_eq_some_iff.mp hd
  have hfirst : scope.index? scope.declarations[i].name = some i := by
    rw [index?, List.findIdx?_eq_some_iff_getElem]
    refine ⟨hi, beq_self_eq_true _, fun j hj => ?_⟩
    have hne := hfresh _ (List.mem_take_iff_getElem.mpr ⟨j, by omega, rfl⟩)
    simpa using hne
  rw [index?_upTo, hfirst, Option.filter_some, if_pos (by simpa using hik)]

/-- A path without an access is resolved as such, wherever it stands. -/
theorem resolve_path_eq_ok_iff {path : String} {position? : Option Position} {target : Target} :
    scope.resolve use ⟨path, none, position?⟩ = .ok target ↔
      scope.resolvePath use path = .ok target := by
  rw [resolve, resolveTarget]
  cases scope.resolvePath use path <;> simp [Except.mapError]

/-- The accesses of a variable, where it may be stepped. -/
theorem resolve_access {path : String} {i : Nat} (hindex : scope.index? path = some i)
    (hnext : use.allowNext = true) (position? : Option Position) :
    scope.resolve use ⟨path, some .prev, position?⟩ = .ok (.read path i) ∧
      scope.resolve use ⟨path, some .next, position?⟩ = .ok (.next path i) ∧
      scope.resolve use ⟨path, some .copy, position?⟩ = .ok (.copy path i) := by
  simp only [resolve, resolveTarget, resolveVariable, hindex, hnext, if_true, Except.mapError,
    and_self]

end Scope

/-- What the names of a forest are bound to in the scope of its first `k` variables, for a use that
may step them. -/
structure Forest.Reaches (forest : Forest) (scope : Scope) (use : Scope.Use) (k : Nat) : Prop where
  /-- An item has its own value, or its place, unless another enumeration has an item that is
  spelled the same. -/
  item : ∀ e ∈ forest.enums, ∀ (p : Nat) (item : EnumItem), e.items[p]? = some item →
    EnumDecl.SoleItem forest.enums e item → ∀ position?,
      scope.resolve use ⟨e.name ++ "." ++ item.name, none, position?⟩ =
        .ok (.constant (item.value?.getD p))
  enum : ∀ e ∈ forest.enums, ∀ position?,
    scope.resolve use ⟨e.name, none, position?⟩ =
        .ok (.enumeration e.name (e.items.mapIdx fun p item => item.value?.getD p)) ↔
      ¬EnumDecl.IsItem forest.enums e.name
  plain : ∀ (i : Nat) (d : Declaration), i < k → forest.declarations[i]? = some d → ∀ position?,
    scope.resolve use ⟨d.name, none, position?⟩ = .ok (.read d.name i) ↔
      ¬EnumDecl.IsItem forest.enums d.name
  access : ∀ (i : Nat) (d : Declaration), i < k → forest.declarations[i]? = some d → ∀ position?,
    scope.resolve use ⟨d.name, some .prev, position?⟩ = .ok (.read d.name i) ∧
      scope.resolve use ⟨d.name, some .next, position?⟩ = .ok (.next d.name i) ∧
      scope.resolve use ⟨d.name, some .copy, position?⟩ = .ok (.copy d.name i)

namespace Model

variable {settings : Settings} {forest : Forest} {m : Model}

theorem enums_of_compile (hm : compile settings forest = .ok m) :
    (forest.enums.map (·.name)).Nodup ∧ ∀ e ∈ forest.enums, e.Consistent := by
  obtain ⟨hok, -⟩ := scope_of_compile hm
  obtain ⟨h, -⟩ | ⟨-, error, herror⟩ :=
    Enumeration.accepts_declareAll [] List.nodup_nil forest.enums
  · simpa using h
  · rw [hok] at herror
    cases herror

/-- A declaration has a name of its own. -/
theorem fresh_of_compile (hm : compile settings forest = .ok m) {i : Nat} {d : Declaration}
    (hd : forest.declarations[i]? = some d) :
    (∀ other ∈ forest.declarations.take i, other.name ≠ d.name) ∧
      ∀ e ∈ forest.enums, e.name ≠ d.name := by
  obtain ⟨-, hscope⟩ := scope_of_compile hm
  obtain ⟨c, -, hbuilt⟩ := exists_cell_of_compile hm hd
  obtain ⟨hname, -, -⟩ := Scope.compileDeclaration_eq_ok hbuilt
  rw [hscope] at hname
  exact (Scope.nameCause?_eq_none_iff rfl).mp hname

/-- No two of the enumerations and variables have one name. -/
theorem distinct_of_compile (hm : compile settings forest = .ok m) :
    (forest.enums.map (·.name) ++ forest.declarations.map (·.name)).Nodup := by
  obtain ⟨hnames, -⟩ := enums_of_compile hm
  rw [List.nodup_append]
  refine ⟨hnames, ?_, ?_⟩
  · rw [List.Nodup, List.pairwise_map, List.pairwise_iff_getElem]
    intro j i hj hi hji
    refine (fresh_of_compile hm (List.getElem?_eq_getElem hi)).1 _ ?_
    exact List.mem_take_iff_getElem.mpr ⟨j, by omega, rfl⟩
  · intro name hname other hother
    obtain ⟨e, he, rfl⟩ := List.mem_map.mp hname
    obtain ⟨d, hd, rfl⟩ := List.mem_map.mp hother
    obtain ⟨i, hi⟩ := List.getElem?_of_mem hd
    exact (fresh_of_compile hm hi).2 e he

theorem reaches_upTo (hm : compile settings forest = .ok m) (k : Nat) {use : Scope.Use}
    (hnext : use.allowNext = true) : forest.Reaches (m.scope.upTo k) use k := by
  obtain ⟨-, hscope⟩ := scope_of_compile hm
  obtain ⟨hnames, hconsistent⟩ := enums_of_compile hm
  have henums : (m.scope.upTo k).enumerations = forest.enums.map EnumDecl.enumeration := by
    rw [hscope]
    rfl
  have hindex (i : Nat) (d : Declaration) (hik : i < k) (hd : forest.declarations[i]? = some d) :
      (m.scope.upTo k).index? d.name = some i := by
    rw [hscope]
    exact Scope.index?_upTo_of_fresh hik hd (fresh_of_compile hm hd).1
  constructor
  · intro e he p item hitem hsole position?
    have hvalue := Scope.itemValue?_of_soleItem henums
      (fun e he => (hconsistent e he).distinct) he hitem hsole
    rw [Scope.resolve_path_eq_ok_iff, Scope.resolvePath, hvalue]
  · intro e he position?
    rw [Scope.resolve_path_eq_ok_iff, ← e.values_enumeration]
    exact Scope.resolvePath_enum_iff henums hnames he
  · intro i d hik hd position?
    rw [Scope.resolve_path_eq_ok_iff]
    exact Scope.resolvePath_variable_iff henums (fresh_of_compile hm hd).2 (hindex i d hik hd)
  · intro i d hik hd position?
    exact Scope.resolve_access (hindex i d hik hd) hnext position?

/-- In a forest that compiles, enumerations and variables have names of their own. Every variable is
compiled in the scope of those before it, where each item of an enumeration, each enumeration and
each of these variables is reached by its name, as far as no item takes that name from it. -/
theorem declared_reached (hm : compile settings forest = .ok m) :
    (forest.enums.map (·.name) ++ forest.declarations.map (·.name)).Nodup ∧
      ∀ (k : Nat) (d : Declaration), forest.declarations[k]? = some d →
        (∃ c, m.cells[k]? = some c ∧ (m.scope.upTo k).buildCell { subject? := some d.name }
          d.position? d.expr = .ok c) ∧
        forest.Reaches (m.scope.upTo k) { subject? := some d.name } k := by
  refine ⟨distinct_of_compile hm, fun k d hd => ?_⟩
  obtain ⟨c, hc, hbuilt⟩ := exists_cell_of_compile hm hd
  obtain ⟨-, -, hbuild⟩ := Scope.compileDeclaration_eq_ok hbuilt
  exact ⟨⟨c, hc, hbuild⟩, reaches_upTo hm k rfl⟩

/-- A variable among enumerations with explicit values and with places, and one that has the name of
an item. -/
theorem declared_reached_items :
    let forest : Forest := {
      enums := [⟨"Color", [⟨"RED", none⟩, ⟨"BLUE", some 4⟩, ⟨"x", none⟩], none⟩]
      declarations := [⟨"a", .pattern [.literal 1, .literal 2], none⟩, ⟨"x", .literal 5, none⟩,
        ⟨"y", .reference { path := "x" }, none⟩] }
    ∃ m, compile {} forest = .ok m ∧
      (let resolve := (m.scope.upTo 2).resolve { subject? := some "y" }
      resolve { path := "Color" ++ "." ++ "BLUE" } = .ok (.constant 4) ∧
        resolve { path := "Color" } = .ok (.enumeration "Color" [0, 4, 2]) ∧
        resolve { path := "a" } = .ok (.read "a" 0) ∧
        resolve { path := "x" } ≠ .ok (.read "x" 1) ∧
        resolve { path := "x", access? := some .next } = .ok (.next "x" 1)) := by
  intro forest
  have hm : compile {} forest = .ok _ := rfl
  obtain ⟨-, hreached⟩ := declared_reached hm
  obtain ⟨-, hitem, henum, hplain, haccess⟩ := hreached 2 _ rfl
  have hcolor : forest.enums[0] ∈ forest.enums := List.getElem_mem _
  refine ⟨_, hm, hitem _ hcolor 1 _ rfl ?_ none, (henum _ hcolor none).mpr ?_,
    (hplain 0 _ (by omega) rfl none).mpr ?_, mt (hplain 1 _ (by omega) rfl none).mp ?_,
    (haccess 1 _ (by omega) rfl none).2.1⟩
  · simp [forest, EnumDecl.SoleItem]
  · simp [forest, EnumDecl.IsItem, EnumDecl.HasItem]
  · simp [forest, EnumDecl.IsItem, EnumDecl.HasItem]
  · simp [forest, EnumDecl.IsItem, EnumDecl.HasItem]

/-- A variable that is not reached by its name: an item has taken it, and the reference gives the
item's value. -/
theorem item_shadows_variable :
    let forest : Forest := {
      enums := [⟨"E", [⟨"x", none⟩], none⟩]
      declarations := [⟨"x", .literal 5, none⟩, ⟨"y", .reference { path := "x" }, none⟩] }
    ∃ m, compile {} forest = .ok m ∧
      (m.scope.upTo 1).resolve { subject? := some "y" } { path := "x" } = .ok (.constant 0) ∧
      m.advance.model.readings = [⟨5, true⟩, ⟨0, true⟩] := by
  intro forest
  exact ⟨_, rfl, rfl, by decide +kernel⟩

end Model

end Stimulus
