import Stimulus.Cell.Step
import Stimulus.Proofs.Random.Redraw

/-!
# Uniform integers

An integer can be drawn between two bounds that are signed numbers of 64 bits, and between two
numbers of 64 bits without sign. Other bounds are refused, and then the stream stays where it is. A
draw ends, it gives an integer between the bounds, and every such integer has the same share of the
words.
-/
namespace Stimulus.Random.Source

/-- Both bounds are signed numbers of 64 bits, or both are such numbers without sign. -/
def FitWords (lo hi : Int) : Prop :=
  (leastSigned ≤ lo ∧ lo ≤ greatestSigned) ∧ (leastSigned ≤ hi ∧ hi ≤ greatestSigned) ∨
    (0 ≤ lo ∧ lo ≤ greatestUnsigned) ∧ (0 ≤ hi ∧ hi ≤ greatestUnsigned)

instance (lo hi : Int) : Decidable (FitWords lo hi) := by
  unfold FitWords
  infer_instance

theorem leastSigned_eq : leastSigned = -9223372036854775808 := rfl

theorem greatestSigned_eq : greatestSigned = 9223372036854775807 := rfl

theorem greatestUnsigned_eq : greatestUnsigned = 18446744073709551615 := rfl

theorem boundsFault?_eq_none_iff {lo hi : Int} (hle : lo ≤ hi) :
    boundsFault? lo hi = none ↔ FitWords lo hi := by
  have hleast := leastSigned_eq
  have hsigned := greatestSigned_eq
  have hunsigned := greatestUnsigned_eq
  unfold boundsFault? FitWords
  simp only [Bool.and_eq_true, decide_eq_true_eq]
  by_cases hwide : greatestSigned < hi ∧ 0 ≤ lo
  · rw [if_pos hwide]
    by_cases hbeyond : greatestUnsigned < hi
    · rw [if_pos hbeyond]
      exact iff_of_false nofun (by omega)
    · rw [if_neg hbeyond]
      exact iff_of_true rfl (by omega)
  · rw [if_neg hwide]
    by_cases hlow : lo < leastSigned
    · rw [if_pos hlow]
      exact iff_of_false nofun (by omega)
    rw [if_neg hlow]
    by_cases hhigh : greatestSigned < hi
    · rw [if_pos hhigh]
      exact iff_of_false nofun (by omega)
    · rw [if_neg hhigh]
      exact iff_of_true rfl (by omega)

theorem kind_of_boundsFault? {lo hi : Int} {fault : Fault} (h : boundsFault? lo hi = some fault) :
    fault.kind = .value := by
  unfold boundsFault? at h
  split at h
  · split at h <;> cases h
    rfl
  · split at h
    · cases h
      rfl
    · split at h <;> cases h
      rfl

/-- How many integers two bounds enclose. -/
def countBetween (lo hi : Int) : Nat := (hi - lo + 1).toNat

/-- The size of the words for a draw between two bounds. -/
def sizeBetween (lo hi : Int) : WordSize := .fitting (countBetween lo hi)

/-- How many words there are for a draw between two bounds. -/
def wordsBetween (lo hi : Int) : Nat := 1 <<< (sizeBetween lo hi).bits

theorem countBetween_pos {lo hi : Int} (hle : lo ≤ hi) : 0 < countBetween lo hi := by
  unfold countBetween
  omega

theorem wordsBetween_eq (lo hi : Int) :
    wordsBetween lo hi = if countBetween lo hi ≤ 2 ^ 32 then 2 ^ 32 else 2 ^ 64 := by
  have hhalf : 1 <<< WordSize.half.bits = 2 ^ 32 := rfl
  have hfull : 1 <<< WordSize.full.bits = 2 ^ 64 := rfl
  unfold wordsBetween sizeBetween WordSize.fitting
  rw [hhalf]
  by_cases h : countBetween lo hi ≤ 2 ^ 32
  · rw [if_pos h, if_pos h, hhalf]
  · rw [if_neg h, if_neg h, hfull]

theorem countBetween_le {lo hi : Int} (hfit : FitWords lo hi) :
    countBetween lo hi ≤ wordsBetween lo hi := by
  have hleast := leastSigned_eq
  have hsigned := greatestSigned_eq
  have hunsigned := greatestUnsigned_eq
  rw [wordsBetween_eq]
  unfold FitWords at hfit
  unfold countBetween
  split <;> omega

/-- The integer `v` is drawn between two bounds, by the first word of `s` that is accepted, and `t`
stands behind that word. Equal bounds need no word. -/
def Draws (lo hi : Int) (s : Source) (v : Int) (t : Source) : Prop :=
  if lo = hi then v = lo ∧ t = s
  else ∃ d : Nat, Yields (sizeBetween lo hi) (countBetween lo hi) s d t ∧ v = lo + d

theorem exists_draws {lo hi : Int} (hle : lo ≤ hi) (hfit : FitWords lo hi) (s : Source) :
    ∃ v t, Draws lo hi s v t := by
  unfold Draws
  by_cases heq : lo = hi
  · exact ⟨lo, s, by rw [if_pos heq]; exact ⟨rfl, rfl⟩⟩
  · obtain ⟨d, t, hd⟩ := exists_yields (countBetween_pos hle) (countBetween_le hfit) s
    exact ⟨lo + d, t, by rw [if_neg heq]; exact ⟨d, hd, rfl⟩⟩

theorem uniformInt_of_draws {lo hi v : Int} {s t : Source} (hle : lo ≤ hi) (hfit : FitWords lo hi)
    (h : Draws lo hi s v t) : s.uniformInt lo hi = .ok (v, t) := by
  unfold uniformInt
  rw [dif_neg (by omega), (boundsFault?_eq_none_iff hle).mpr hfit]
  unfold Draws at h
  simp only
  by_cases heq : lo = hi
  · rw [if_pos heq] at h ⊢
    rw [h.1, h.2]
  · rw [if_neg heq] at h ⊢
    obtain ⟨d, hd, rfl⟩ := h
    have : Nonempty (Fin (countBetween lo hi)) := ⟨0, countBetween_pos hle⟩
    obtain ⟨hvalue, hsource⟩ := below_of_yields hd
    show Except.ok (lo + ((s.below (countBetween lo hi)).value : Int), _) = _
    rw [hvalue, ← hsource]
    rfl

theorem uniformInt_eq_ok_iff {lo hi v : Int} {s t : Source} (hle : lo ≤ hi) :
    s.uniformInt lo hi = .ok (v, t) ↔ FitWords lo hi ∧ Draws lo hi s v t := by
  constructor
  · intro h
    have hfit : FitWords lo hi := by
      rw [← boundsFault?_eq_none_iff hle]
      cases hbounds : boundsFault? lo hi with
      | none => rfl
      | some fault =>
        unfold uniformInt at h
        rw [dif_neg (by omega), hbounds] at h
        cases h
    obtain ⟨v', t', hdraws⟩ := exists_draws hle hfit s
    have hdrawn := uniformInt_of_draws hle hfit hdraws
    rw [h] at hdrawn
    cases hdrawn
    exact ⟨hfit, hdraws⟩
  · rintro ⟨hfit, h⟩
    exact uniformInt_of_draws hle hfit h

theorem uniformInt_of_not_fitWords {lo hi : Int} (hle : lo ≤ hi) (hfit : ¬ FitWords lo hi)
    (s : Source) : ∃ fault, s.uniformInt lo hi = .error fault ∧ fault.kind = .value := by
  rw [← boundsFault?_eq_none_iff hle] at hfit
  obtain ⟨fault, hfault⟩ := Option.ne_none_iff_exists'.mp hfit
  refine ⟨fault, ?_, kind_of_boundsFault? hfault⟩
  unfold uniformInt
  rw [dif_neg (by omega), hfault]

/-- A range whose draw is refused fails and leaves the world as it was. -/
theorem drawBetween_of_error {lo hi : Int} {w : World} {fault : Fault} (hle : lo ≤ hi)
    (h : w.source.uniformInt lo hi = .error fault) (range : Expr) :
    w.drawBetween range lo hi = (.error (.fault fault), w) := by
  unfold World.drawBetween
  rw [if_neg (by omega), h]

/-- Bounds that fit one kind of words are drawn between, and other bounds are refused before the
stream moves. A draw that fits always ends. -/
theorem uniformInt_covers {lo hi : Int} (hle : lo ≤ hi) (s : Source) :
    ((∃ v t, s.uniformInt lo hi = .ok (v, t)) ↔ FitWords lo hi) ∧
    (¬ FitWords lo hi → ∃ fault, s.uniformInt lo hi = .error fault ∧ fault.kind = .value ∧
      ∀ w : World, w.source = s → ∀ range,
        w.drawBetween range lo hi = (.error (.fault fault), w)) ∧
    ∀ v t, s.uniformInt lo hi = .ok (v, t) →
      lo ≤ v ∧ v ≤ hi ∧ (lo = hi → t = s) ∧ Draws lo hi s v t := by
  refine ⟨⟨?_, ?_⟩, ?_, ?_⟩
  · rintro ⟨v, t, h⟩
    exact ((uniformInt_eq_ok_iff hle).mp h).1
  · intro hfit
    obtain ⟨v, t, hdraws⟩ := exists_draws hle hfit s
    exact ⟨v, t, uniformInt_of_draws hle hfit hdraws⟩
  · intro hfit
    obtain ⟨fault, hfault, hkind⟩ := uniformInt_of_not_fitWords hle hfit s
    refine ⟨fault, hfault, hkind, ?_⟩
    rintro w rfl range
    exact drawBetween_of_error hle hfault range
  · intro v t h
    obtain ⟨hlo, hhi⟩ := uniformInt_mem h
    obtain ⟨-, hdraws⟩ := (uniformInt_eq_ok_iff hle).mp h
    refine ⟨hlo, hhi, ?_, hdraws⟩
    intro heq
    unfold Draws at hdraws
    rw [if_pos heq] at hdraws
    exact hdraws.2

/-- Between the ends of the signed words everything can be drawn; one step further, together with
-1, nothing can. -/
theorem uniformInt_covers_signed :
    (∃ v t, (ofSeed .pcg64 7).uniformInt leastSigned greatestSigned = .ok (v, t)) ∧
      ∃ fault, (ofSeed .pcg64 7).uniformInt (-1) (greatestSigned + 1) = .error fault ∧
        fault.kind = .value :=
  have hwhole := uniformInt_covers (show leastSigned ≤ greatestSigned by decide) (ofSeed .pcg64 7)
  have hmixed := uniformInt_covers (show -1 ≤ greatestSigned + 1 by decide) (ofSeed .pcg64 7)
  have ⟨fault, hfault, hkind, _⟩ := hmixed.2.1 (by decide)
  ⟨hwhole.1.mpr (by decide), fault, hfault, hkind⟩

/-- What a draw between two bounds gives for a word, or `none` if it draws again. -/
def attemptBetween (lo hi : Int) (word : Nat) : Option Int :=
  (attempt (sizeBetween lo hi).bits (countBetween lo hi) word).map fun (d : Nat) => lo + d

theorem attemptBetween_eq_none_iff {lo hi : Int} {word : Nat} :
    attemptBetween lo hi word = none ↔
      attempt (sizeBetween lo hi).bits (countBetween lo hi) word = none := Option.map_eq_none_iff

theorem attemptBetween_eq_some_iff {lo hi v : Int} (hlo : lo ≤ v) {word : Nat} :
    attemptBetween lo hi word = some v ↔
      attempt (sizeBetween lo hi).bits (countBetween lo hi) word = some (v - lo).toNat := by
  unfold attemptBetween
  rw [Option.map_eq_some_iff]
  constructor
  · rintro ⟨d, hd, rfl⟩
    rw [hd, Option.some_inj]
    omega
  · intro h
    exact ⟨_, h, by omega⟩

/-- The first word decides, if it is accepted. -/
theorem uniformInt_of_accepted {lo hi v : Int} (hlt : lo < hi) (hfit : FitWords lo hi) {s : Source}
    (h : attemptBetween lo hi (s.word (sizeBetween lo hi)).1 = some v) :
    s.uniformInt lo hi = .ok (v, s.behind (sizeBetween lo hi)) := by
  obtain ⟨d, hd, rfl⟩ := Option.map_eq_some_iff.mp h
  apply uniformInt_of_draws hlt.le hfit
  unfold Draws
  rw [if_neg hlt.ne]
  exact ⟨d, .accepted hd, rfl⟩

/-- A word that is rejected might as well not have been there. -/
theorem uniformInt_of_rejected {lo hi : Int} (hlt : lo < hi) (hfit : FitWords lo hi) {s : Source}
    (h : attemptBetween lo hi (s.word (sizeBetween lo hi)).1 = none) :
    s.uniformInt lo hi = (s.behind (sizeBetween lo hi)).uniformInt lo hi := by
  obtain ⟨v, t, hdraws⟩ := exists_draws hlt.le hfit (s.behind (sizeBetween lo hi))
  rw [uniformInt_of_draws hlt.le hfit hdraws]
  apply uniformInt_of_draws hlt.le hfit
  unfold Draws at hdraws ⊢
  rw [if_neg hlt.ne] at hdraws ⊢
  obtain ⟨d, hd, rfl⟩ := hdraws
  exact ⟨d, .rejected (attemptBetween_eq_none_iff.mp h) hd, rfl⟩

/-- Every integer between the bounds has the same number of words; the words left over, fewer than
there are integers, are rejected, and the next word is taken in their place. -/
theorem uniformInt_unbiased {lo hi : Int} (hlt : lo < hi) (hfit : FitWords lo hi) :
    wordsBetween lo hi = (if countBetween lo hi ≤ 2 ^ 32 then 2 ^ 32 else 2 ^ 64) ∧
    (∀ v, lo ≤ v → v ≤ hi →
      ((Finset.range (wordsBetween lo hi)).filter (attemptBetween lo hi · = some v)).card =
        wordsBetween lo hi / countBetween lo hi) ∧
    ((Finset.range (wordsBetween lo hi)).filter (attemptBetween lo hi · = none)).card =
      wordsBetween lo hi % countBetween lo hi ∧
    ∀ s : Source,
      (s.word (sizeBetween lo hi)).1 < wordsBetween lo hi ∧
      (∀ v, attemptBetween lo hi (s.word (sizeBetween lo hi)).1 = some v →
        s.uniformInt lo hi = .ok (v, s.behind (sizeBetween lo hi))) ∧
      (attemptBetween lo hi (s.word (sizeBetween lo hi)).1 = none →
        s.uniformInt lo hi = (s.behind (sizeBetween lo hi)).uniformInt lo hi) := by
  have hpos := countBetween_pos hlt.le
  have hcount := countBetween_le hfit
  refine ⟨wordsBetween_eq lo hi, ?_, ?_, fun s => ⟨word_lt _ s, ?_, ?_⟩⟩
  · intro v hlo hhi
    have hv : (v - lo).toNat < countBetween lo hi := by
      unfold countBetween
      omega
    simp only [attemptBetween_eq_some_iff hlo]
    exact card_attempt_eq_some hpos hcount hv
  · simp only [attemptBetween_eq_none_iff]
    exact card_attempt_eq_none hpos hcount
  · exact fun v h => uniformInt_of_accepted hlt hfit h
  · exact fun h => uniformInt_of_rejected hlt hfit h

/-- Three integers share the words of 32 bits, and one word is left over. -/
theorem uniformInt_unbiased_three :
    (∀ v : Int, -1 ≤ v → v ≤ 1 →
      ((Finset.range (2 ^ 32)).filter (attemptBetween (-1) 1 · = some v)).card = 1431655765) ∧
    ((Finset.range (2 ^ 32)).filter (attemptBetween (-1) 1 · = none)).card = 1 :=
  have h := uniformInt_unbiased (show (-1 : Int) < 1 by decide) (by decide)
  ⟨h.2.1, h.2.2.1⟩

end Stimulus.Random.Source
