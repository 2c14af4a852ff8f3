import Mathlib.Data.List.Count
import Mathlib.Data.List.Nodup
import Stimulus.Proofs.Scope.Growth

/-!
# Names that resolve

Which references a scope resolves, told by the enumerations and variables alone: items come before
enumerations, and these before variables and their accesses.
-/
namespace Stimulus

namespace EnumDecl

def HasItem (d : EnumDecl) (name : String) : Prop := ∃ item ∈ d.items, item.name = name

instance (d : EnumDecl) (name : String) : Decidable (d.HasItem name) :=
  inferInstanceAs (Decidable (∃ item ∈ d.items, item.name = name))

/-- The enumeration that a declaration declares. -/
def enumeration (d : EnumDecl) : Enumeration := ⟨d.name, d.valuedItems⟩

theorem map_fst_valuedFrom (start : Nat) (items : List EnumItem) :
    (valuedFrom start items).map Prod.fst = items.map (·.name) := by
  induction items generalizing start with
  | nil => rfl
  | cons item rest ih => simp [valuedFrom, ih]

theorem map_fst_valuedItems (d : EnumDecl) : d.valuedItems.map Prod.fst = d.items.map (·.name) :=
  map_fst_valuedFrom 0 d.items

theorem hasItem_iff {d : EnumDecl} {name : String} :
    d.HasItem name ↔ name ∈ d.valuedItems.map Prod.fst := by
  rw [map_fst_valuedItems, List.mem_map, HasItem]

end EnumDecl

/-- What a path without an access may be, among enumerations and the variables before it. -/
inductive Names (enums : List EnumDecl) (earlier : List Declaration) : String → Prop
  | fullItem {e : EnumDecl} {item : EnumItem} (he : e ∈ enums) (hitem : item ∈ e.items) :
      Names enums earlier (e.name ++ "." ++ item.name)
  | bareItem {path : String} (h : ∃! e, e ∈ enums ∧ e.HasItem path) : Names enums earlier path
  | enum {e : EnumDecl} (he : e ∈ enums) (hfree : ∀ other ∈ enums, ¬other.HasItem e.name) :
      Names enums earlier e.name
  | variable {d : Declaration} (hd : d ∈ earlier) (hfree : ∀ e ∈ enums, ¬e.HasItem d.name) :
      Names enums earlier d.name
  /-- A variable without a name is not reached so. -/
  | access {d : Declaration} {access : Access} (hd : d ∈ earlier) (hname : d.name ≠ "")
      (hfree : ∀ e ∈ enums, ¬e.HasItem (d.name ++ "." ++ access.name)) :
      Names enums earlier (d.name ++ "." ++ access.name)

/-- A reference with an access is to a variable before it. -/
inductive Identifier.Resolves (enums : List EnumDecl) (earlier : List Declaration) :
    Identifier → Prop
  | path {ref : Identifier} (haccess : ref.access? = none) (h : Names enums earlier ref.path) :
      Resolves enums earlier ref
  | variable {ref : Identifier} {access : Access} (haccess : ref.access? = some access)
      {d : Declaration} (hd : d ∈ earlier) (hname : d.name = ref.path) :
      Resolves enums earlier ref

/-! ## Paths with an access -/

theorem Access.dot_notMem_name (access : Access) : '.' ∉ access.name.toList := by
  cases access <;> decide

theorem splitAccess?_eq_some_iff {path base : String} {access : Access} :
    splitAccess? path = some (base, access) ↔
      base ≠ "" ∧ path = base ++ "." ++ access.name := by
  have hword (access : Access) (base : List Char) :
      (access.name.toList.reverse ++ '.' :: base).takeWhile (· != '.') =
          access.name.toList.reverse ∧
        (access.name.toList.reverse ++ '.' :: base).dropWhile (· != '.') = '.' :: base := by
    have hall : ∀ c ∈ access.name.toList.reverse, (c != '.') = true := by
      intro c hc
      have hne : c ≠ '.' := by
        rintro rfl
        exact access.dot_notMem_name (List.mem_reverse.mp hc)
      simpa using hne
    rw [List.takeWhile_append_of_pos hall, List.dropWhile_append_of_pos hall]
    simp
  unfold splitAccess?
  constructor
  · intro h
    simp only at h
    split at h
    · rename_i c rest hdrop
      split at h
      · cases h
      · rename_i hbase
        obtain ⟨found, hfound, heq⟩ := Option.map_eq_some_iff.mp h
        cases heq
        have hname : access.name =
            String.ofList (path.toList.reverse.takeWhile (· != '.')).reverse := by
          simpa using List.find?_some hfound
        have hdot : c = '.' := by
          have hhead := List.head?_dropWhile_not (· != '.') path.toList.reverse
          rw [hdrop] at hhead
          simpa using hhead
        have hparts := List.takeWhile_append_dropWhile (p := (· != '.')) (l := path.toList.reverse)
        rw [hdrop, hdot] at hparts
        refine ⟨by simpa using hbase, ?_⟩
        apply String.toList_injective
        rw [← List.reverse_inj, ← hparts, hname]
        simp
    · cases h
  · rintro ⟨hne, rfl⟩
    have hreverse : (base ++ "." ++ access.name).toList.reverse =
        access.name.toList.reverse ++ '.' :: base.toList.reverse := by
      simp
    obtain ⟨htake, hdrop⟩ := hword access base.toList.reverse
    simp only [hreverse, htake, hdrop]
    simp [hne]

namespace Scope

variable {scope : Scope} {use : Use} {path : String}

theorem index?_isSome_iff {name : String} :
    (∃ k, scope.index? name = some k) ↔ ∃ d ∈ scope.declarations, d.name = name := by
  rw [← Option.isSome_iff_exists, index?, List.findIdx?_isSome]
  simp

section

variable {enums : List EnumDecl} (henums : scope.enumerations = enums.map EnumDecl.enumeration)
  (path : String)

include henums

theorem itemValue?_isSome_iff : (scope.itemValue? path).isSome ↔
    ∃ e ∈ enums, ∃ item ∈ e.items, path = e.name ++ "." ++ item.name := by
  have hitem (e : EnumDecl) : (∃ full ∈ e.enumeration.fullNames, path == full.1) ↔
      ∃ item ∈ e.items, path = e.name ++ "." ++ item.name := by
    have hnames : e.enumeration.fullNames.map Prod.fst =
        e.items.map fun item => e.name ++ "." ++ item.name := by
      have h := congrArg (List.map fun name => e.name ++ "." ++ name) e.map_fst_valuedItems
      simpa [Enumeration.fullNames, EnumDecl.enumeration, Function.comp_def] using h
    have hmem : path ∈ e.enumeration.fullNames.map Prod.fst ↔
        path ∈ e.items.map fun item => e.name ++ "." ++ item.name := by rw [hnames]
    simp only [List.mem_map, @eq_comm _ _ path] at hmem
    simpa only [beq_iff_eq] using hmem
  rw [itemValue?, henums, List.lookup_isSome_iff]
  simp only [List.mem_reverse, List.mem_flatMap, List.mem_map, ← hitem]
  constructor
  · rintro ⟨full, ⟨_, ⟨e, he, rfl⟩, hfull⟩, hpath⟩
    exact ⟨e, he, full, hfull, hpath⟩
  · rintro ⟨e, he, full, hfull, hpath⟩
    exact ⟨full, ⟨_, ⟨e, he, rfl⟩, hfull⟩, hpath⟩

theorem enumValues?_isSome_iff : (scope.enumValues? path).isSome ↔ ∃ e ∈ enums, e.name = path := by
  rw [enumValues?, henums]
  simp [EnumDecl.enumeration]

theorem bareItems_eq_nil_iff : scope.bareItems path = [] ↔ ∀ e ∈ enums, ¬e.HasItem path := by
  rw [bareItems, henums]
  simp only [List.flatMap_eq_nil_iff, List.forall_mem_map, List.map_eq_nil_iff,
    List.filter_eq_nil_iff]
  simp only [EnumDecl.hasItem_iff, List.mem_map, not_exists, not_and, beq_iff_eq]
  rfl

end

end Scope

end Stimulus
