import Stimulus.Document.Load
import Stimulus.Proofs.Document.Flaws

/-!
# Locations of issues

A refused document is told the location of its first issue. The location spells the whole path to a
flaw, with one exception: a key that should not be there, and that has the name of an expression
form, is taken for a mark of a union and is left out. So is an empty key of the document itself.
-/
namespace Stimulus.Document

/-- Continues a location by one step, whatever the name of a key is. -/
def spell (location : String) : Step → String
  | .index i => s!"{location}[{i}]"
  | .key name => if location.isEmpty then name else s!"{location}.{name}"

/-- The whole path behind the start: keys with points between them, indices in brackets. -/
def fullLocation (start : String) (path : List Step) : String :=
  if start.isEmpty ∧ path = [] then "document" else path.foldl spell start

/-- A path with names of expression forms put in between, as marks of a union. -/
inductive Tagged : List Step → List Step → Prop
  | nil : Tagged [] []
  | step {path raw : List Step} (s : Step) (h : Tagged path raw) : Tagged (s :: path) (s :: raw)
  | tag {path raw : List Step} (form : ExprForm) (h : Tagged path raw) :
    Tagged path (.key form.name :: raw)

/-- A document that a check refuses with a first issue. -/
inductive Rejects (document : Json) (first : Issue) (others : List Issue) : String → Prop
  | expr {start : String}
    (h : decodeExpr start document = .error (.rejected start first others)) :
    Rejects document first others start
  | forest (h : decodeForest document = .error (.rejected "" first others)) :
    Rejects document first others ""

/-- An issue whose last step the location leaves out. -/
inductive Issue.Hidden (start : String) : Issue → Prop
  | form {path : List Step} {key : String} (h : (ExprForm.ofName? key).isSome) :
    Hidden start ⟨path ++ [.key key], .unknownKey⟩
  | empty (h : start = "") : Hidden start ⟨[.key ""], .unknownKey⟩

theorem Issue.Hidden.problem_eq {start : String} {issue : Issue} (h : issue.Hidden start) :
    issue.problem = .unknownKey := by
  cases h <;> rfl

/-! ## Spelling -/

theorem spell_key_of_ne {location : String} (h : location ≠ "") (key : String) :
    spell location (.key key) = location ++ "." ++ key := by
  rw [spell, if_neg (by simpa using h)]
  rfl

theorem spell_ne_empty {step : Step} (h : step ≠ .key "") (location : String) :
    spell location step ≠ "" := by
  cases step with
  | index i => simp [spell]
  | key name =>
    have hname : name ≠ "" := fun hempty => h (by rw [hempty])
    by_cases hlocation : location = ""
    · simpa [spell, hlocation] using hname
    · simp [spell_key_of_ne hlocation, hname]

/-- Only names of forms are left out. -/
theorem foldl_extendLocation {path : List Step}
    (h : ∀ key, .key key ∈ path → ExprForm.ofName? key = none) (location : String) :
    path.foldl Issue.extendLocation location = path.foldl spell location := by
  induction path generalizing location with
  | nil => rfl
  | cons step rest ih =>
    have hstep : Issue.extendLocation location step = spell location step := by
      cases step with
      | index i => rfl
      | key name => simp [Issue.extendLocation, spell, h name List.mem_cons_self]
    rw [List.foldl_cons, List.foldl_cons, hstep]
    exact ih (fun key hkey => h key (List.mem_cons_of_mem _ hkey)) _

/-- All marks of a union are left out, wherever they stand. -/
theorem Tagged.foldl_extendLocation {path raw : List Step} (h : Tagged path raw)
    (location : String) :
    raw.foldl Issue.extendLocation location = path.foldl Issue.extendLocation location := by
  induction h generalizing location with
  | nil => rfl
  | step s _ ih => exact ih _
  | tag form _ ih =>
    rw [List.foldl_cons, ih]
    simp [Issue.extendLocation]

/-! ## Paths to flaws -/

/-- A path whose keys belong to the format. -/
def FieldNames (path : List Step) : Prop := ∀ key, .key key ∈ path → IsFieldName key

theorem FieldNames.key {path : List Step} {key : String} (hkey : IsFieldName key)
    (h : FieldNames path) : FieldNames (.key key :: path) := by
  intro other hother
  obtain heq | hmem := List.mem_cons.mp hother
  · cases heq
    exact hkey
  · exact h other hmem

theorem FieldNames.index {path : List Step} (i : Nat) (h : FieldNames path) :
    FieldNames (.index i :: path) := by
  intro key hkey
  exact h key (by simpa using hkey)

theorem FieldNames.nil : FieldNames [] := by simp [FieldNames]

/-- The keys on the way to a flaw belong to the format, but for the last one if it should not be
there. -/
theorem Flawed.fieldNames {d : Json} {path : List Step} {problem : Problem}
    (h : Flawed d path problem) :
    FieldNames path ∨
      problem = .unknownKey ∧ ∃ p key, path = p ++ [.key key] ∧ FieldNames p := by
  -- A step in front of a path of either kind leads to a path of this kind.
  have hbehind {step : Step} {path : List Step} {problem : Problem}
      (hstep : ∀ p, FieldNames p → FieldNames (step :: p))
      (ih : FieldNames path ∨
        problem = .unknownKey ∧ ∃ p key, path = p ++ [.key key] ∧ FieldNames p) :
      FieldNames (step :: path) ∨
        problem = .unknownKey ∧ ∃ p key, step :: path = p ++ [.key key] ∧ FieldNames p := by
    obtain hpath | ⟨hproblem, p, key, rfl, hp⟩ := ih
    · exact .inl (hstep path hpath)
    · exact .inr ⟨hproblem, step :: p, key, rfl, hstep p hp⟩
  induction h with
  | here => exact .inl .nil
  | missing hkey => exact .inl (.key hkey .nil)
  | unknown => exact .inr ⟨rfl, [], _, rfl, .nil⟩
  | field hkey _ _ ih => exact hbehind (fun _ => .key hkey) ih
  | element _ _ ih => exact hbehind (fun _ => .index _) ih
  | name => exact .inl (.key (by decide) .nil)
  | weight _ ih | weighted _ ih => exact hbehind (fun _ => .key (by decide)) ih

theorem foldl_spell_eq_empty_iff {path : List Step} (h : FieldNames path) {start : String} :
    path.foldl spell start = "" ↔ start = "" ∧ path = [] := by
  obtain rfl | ⟨p, step, rfl⟩ := List.eq_nil_or_concat' path
  · simp
  · have hstep : step ≠ .key "" := by
      rintro rfl
      exact (h "" (by simp)).ne_empty rfl
    simp [spell_ne_empty hstep]

/-! ## Locations -/

/-- A location is the whole path where all keys of the path belong to the format. -/
theorem location_of_fieldNames {path : List Step} (h : FieldNames path) (start : String)
    (problem : Problem) : Issue.location start ⟨path, problem⟩ = fullLocation start path := by
  simp only [Issue.location, fullLocation, foldl_extendLocation fun key hkey =>
    (h key hkey).no_form, String.isEmpty_iff, foldl_spell_eq_empty_iff h]

/-- A key that has the name of a form is left out. -/
theorem location_of_form {path : List Step} {key : String} (h : (ExprForm.ofName? key).isSome)
    (start : String) (problem : Problem) :
    Issue.location start ⟨path ++ [.key key], problem⟩ = Issue.location start ⟨path, problem⟩ := by
  simp [Issue.location, Issue.extendLocation, h]

theorem fullLocation_concat_ne {path : List Step} (hpath : FieldNames path) {key : String}
    (h : (ExprForm.ofName? key).isSome) (start : String) :
    fullLocation start path ≠ fullLocation start (path ++ [.key key]) := by
  have hdocument : key ≠ "document" := by
    rintro rfl
    cases h
  by_cases hempty : start = "" ∧ path = []
  · obtain ⟨rfl, rfl⟩ := hempty
    simpa [fullLocation, spell] using hdocument.symm
  · have hne : path.foldl spell start ≠ "" :=
      fun h => hempty ((foldl_spell_eq_empty_iff hpath).mp h)
    intro heq
    simp only [fullLocation, String.isEmpty_iff, if_neg hempty, List.append_eq_nil_iff,
      reduceCtorEq, and_false, if_false, List.foldl_append, List.foldl_cons, List.foldl_nil,
      spell_key_of_ne hne] at heq
    have hlength := congrArg String.length heq
    simp only [String.length_append] at hlength
    have hpoint : (".").length = 1 := rfl
    omega

/-- A key that should not be there, and that has no name of a form, is spelled, unless it is an
empty key of the document itself. -/
theorem location_of_unknown {path : List Step} (hpath : FieldNames path) {key : String}
    (h : ExprForm.ofName? key = none) (start : String) (problem : Problem) :
    Issue.location start ⟨path ++ [.key key], problem⟩ = fullLocation start (path ++ [.key key]) ↔
      ¬(start = "" ∧ path = [] ∧ key = "") := by
  have hnone : ∀ other, .key other ∈ path ++ [.key key] → ExprForm.ofName? other = none := by
    intro other hother
    obtain hmem | heq := List.mem_append.mp hother
    · exact (hpath other hmem).no_form
    · simp only [List.mem_singleton, Step.key.injEq] at heq
      rw [heq, h]
  have hempty : (path ++ [Step.key key]).foldl spell start = "" ↔
      start = "" ∧ path = [] ∧ key = "" := by
    rw [List.foldl_append, List.foldl_cons, List.foldl_nil]
    by_cases hstart : path.foldl spell start = ""
    · have hroot := (foldl_spell_eq_empty_iff hpath).mp hstart
      simp [spell, hroot]
    · rw [spell_key_of_ne hstart]
      simp only [String.append_eq_empty_iff, hstart, false_and, false_iff]
      rintro ⟨rfl, rfl, -⟩
      exact hstart rfl
  simp only [Issue.location, fullLocation, foldl_extendLocation hnone, String.isEmpty_iff,
    List.append_eq_nil_iff, reduceCtorEq, and_false, if_false]
  split
  · rename_i hspelled
    rw [hspelled]
    exact iff_of_false (by decide) (not_not_intro (hempty.mp hspelled))
  · rename_i hspelled
    exact iff_of_true rfl fun hroot => hspelled (hempty.mpr hroot)

theorem Rejects.flawed {document : Json} {first : Issue} {others : List Issue} {start : String}
    (h : Rejects document first others start) : Flawed document first.path first.problem := by
  have hfirst {α : Type} {checked : Checked α} (hflaws : FlawsOf document checked)
      (houtcome : outcome start checked = .error (.rejected start first others)) :
      Flawed document first.path first.problem := by
    cases checked with
    | valid value => cases houtcome
    | invalid found more =>
      cases houtcome
      exact hflaws _ List.mem_cons_self
  cases h with
  | expr h => exact hfirst (expression_flaws document) h
  | forest h => exact hfirst (forest_flaws document) h

/-- A location is the whole path exactly if its last step is not left out. -/
theorem Flawed.location_eq_iff {document : Json} {path : List Step} {problem : Problem}
    (h : Flawed document path problem) (start : String) :
    Issue.location start ⟨path, problem⟩ = fullLocation start path ↔
      ¬Issue.Hidden start ⟨path, problem⟩ := by
  obtain hpath | ⟨rfl, p, key, rfl, hp⟩ := h.fieldNames
  · refine iff_of_true (location_of_fieldNames hpath start problem) ?_
    intro hhidden
    cases hhidden with
    | form hform =>
      rw [(hpath _ (by simp)).no_form] at hform
      cases hform
    | empty => exact (hpath "" (by simp)).ne_empty rfl
  · cases hform : ExprForm.ofName? key with
    | some form =>
      have hsome : (ExprForm.ofName? key).isSome := by rw [hform]; rfl
      refine iff_of_false ?_ (not_not_intro (.form hsome))
      rw [location_of_form hsome, location_of_fieldNames hp]
      exact fullLocation_concat_ne hp hsome start
    | none =>
      rw [location_of_unknown hp hform, not_iff_not]
      constructor
      · rintro ⟨rfl, rfl, rfl⟩
        exact .empty rfl
      · intro hhidden
        generalize hissue : (⟨p ++ [.key key], .unknownKey⟩ : Issue) = issue at hhidden
        cases hhidden with
        | @form p' key' hkey' =>
          obtain ⟨-, hkeys⟩ := List.append_inj' (Issue.mk.inj hissue).1 rfl
          cases hkeys
          rw [hform] at hkey'
          cases hkey'
        | empty hstart =>
          have hpath : p ++ [.key key] = [] ++ [.key ""] := (Issue.mk.inj hissue).1
          obtain ⟨rfl, hkeys⟩ := List.append_inj' hpath rfl
          cases hkeys
          exact ⟨hstart, rfl, rfl⟩

/-- Every refused document is told of a flaw. The location is the whole path to it, unless the last
step is to a key that should not be there and has the name of an expression form, or is an empty key
of the document itself. In the first case the location is that of the object around the key. Marks
of unions on the path change nothing. -/
theorem location_of_rejected {document : Json} {first : Issue} {others : List Issue}
    {start : String} (h : Rejects document first others start) :
    Flawed document first.path first.problem ∧
    (∃ rest, (FormatError.rejected start first others).text =
      first.location start ++ ": " ++ rest) ∧
    (∀ raw, Tagged first.path raw →
      Issue.location start ⟨raw, first.problem⟩ = first.location start) ∧
    (first.location start = fullLocation start first.path ↔ ¬first.Hidden start) ∧
    ∀ path key, first.path = path ++ [.key key] → first.problem = .unknownKey →
      (ExprForm.ofName? key).isSome → first.location start = fullLocation start path := by
  have hflawed := h.flawed
  refine ⟨hflawed, ?_, fun raw hraw => ?_, hflawed.location_eq_iff start, ?_⟩
  · rw [FormatError.text, Issue.text]
    split
    · exact ⟨first.problem.text, rfl⟩
    · exact ⟨_, by simp only [toString, String.append_assoc]; rfl⟩
  · simp only [Issue.location, hraw.foldl_extendLocation]
  · obtain ⟨path, problem⟩ := first
    rintro p key rfl rfl hform
    rw [location_of_form hform]
    refine location_of_fieldNames ?_ start _
    obtain hall | ⟨-, p', key', heq, hp⟩ := hflawed.fieldNames
    · exact fun other hother => hall other (List.mem_append_left _ hother)
    · obtain ⟨rfl, -⟩ := List.append_inj' heq rfl
      exact hp

/-- A bound that is no expression, in front of one that is missing. -/
theorem location_of_rejected_bound :
    let document : Json := .obj [("variables", .arr [.obj [("name", .str "a"),
      ("expr", .obj [("type", .str "range"), ("min", .arr [])])]])]
    let first : Issue := ⟨[.key "variables", .index 0, .key "expr", .key "min"],
      .refused (.noExpression (.arr []))⟩
    ∃ others, Rejects document first others "" ∧ Flawed document first.path first.problem ∧
      first.location "" = "variables[0].expr.min" := by
  intro document first
  have h : Rejects document first [⟨[.key "variables", .index 0, .key "expr", .key "max"],
      .missing⟩] "" := .forest rfl
  obtain ⟨hflawed, -, -, hlocation, -⟩ := location_of_rejected h
  refine ⟨_, h, hflawed, hlocation.mpr fun hhidden => ?_⟩
  cases hhidden.problem_eq

/-- A key that should not be there and has the name of an expression form, in a variable: the
location is that of the variable. -/
theorem location_hides_key :
    ∃ first others, decodeForest (.obj [("variables", .arr [.obj [("name", .str "a"),
        ("expr", .int 1), ("range", .int 2)]])]) = .error (.rejected "" first others) ∧
      first.path = [.key "variables", .index 0, .key "range"] ∧ first.problem = .unknownKey ∧
      first.location "" = "variables[0]" ∧
      fullLocation "" first.path = "variables[0].range" :=
  ⟨_, _, rfl, rfl, rfl, rfl, rfl⟩

end Stimulus.Document
