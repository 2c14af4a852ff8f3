import Stimulus.Proofs.Trace.Dump

/-!
# What a dump shows

A dump tells only what has changed, and only at the times at which something has. The signals have
codes of their own; so whatever is written for one leaves the others as they are, and at the time of
a sample every signal shows the reading of that sample, however long ago it was written.
-/
namespace Stimulus.Trace

variable {t : Trace} {period place moment : Nat}

/-- The lines at later times are not read yet. -/
theorem replay_flatMap_of_lt {columns : List (Signal × Array Reading)} {moment : Nat}
    {shown : String → Option Wire} {places : List Nat}
    (h : ∀ place ∈ places, moment < place * period) :
    DumpLine.replay moment shown (places.flatMap (linesAt columns period)) = shown := by
  induction places with
  | nil => rfl
  | cons place rest ih =>
    have hrest := ih fun other hother => h other (List.mem_cons_of_mem _ hother)
    rw [List.flatMap_cons]
    by_cases hempty : linesAt columns period place = []
    · rw [hempty, List.nil_append, hrest]
    · simp only [linesAt] at hempty ⊢
      split at hempty
      · exact absurd rfl hempty
      · rename_i hne
        rw [if_neg hne, List.cons_append]
        exact DumpLine.replay_of_lt (h place List.mem_cons_self)

theorem time_le_of_mem_flatMap (hnodup : t.names.Nodup) (h : place * period ≤ moment) {time : Nat}
    (hmem : .time time ∈ (List.range (place + 1)).flatMap (linesAt t.dumpColumns period)) :
    time ≤ moment := by
  obtain ⟨other, hother, hline⟩ := List.mem_flatMap.mp hmem
  rw [time_mem_linesAt hnodup hline]
  have hle : other ≤ place := by
    rw [List.mem_range] at hother
    omega
  exact Nat.le_trans (Nat.mul_le_mul_right period hle) h

/-- The lines at one time set the signals whose parts have changed, and leave the others. So if they
have shown the readings of the sample before, all of them show those of this sample. -/
theorem replay_linesAt (hnodup : t.names.Nodup) (hmoment : place * period ≤ moment)
    {shown : String → Option Wire} {i : Nat} {name : String} (hname : t.names[i / 2]? = some name)
    {now : Reading} (hnow : (t.history name)[place]? = some now)
    (hshown : ∀ before, 0 < place → (t.history name)[place - 1]? = some before →
      shown (symbol i) = some (wireOf i before)) :
    DumpLine.replay moment shown (linesAt t.dumpColumns period place) (symbol i) =
      some (wireOf i now) := by
  -- A code belongs to one signal only, so a line with this code can only tell this reading.
  have hone : ∀ wire, .change (symbol i) wire ∈ linesAt t.dumpColumns period place →
      wire = wireOf i now := by
    intro wire hmem
    obtain h | h := mem_linesAt hmem
    · cases h
    · obtain ⟨j, other, now', hother, hnow', hline⟩ := exists_signal_of_mem_changeLines hnodup h
      obtain ⟨hsymbol, rfl⟩ := DumpLine.change.inj hline
      obtain rfl := symbol_injective hsymbol
      obtain rfl : name = other := Option.some.inj (hname.symm.trans hother)
      rw [Option.some.inj (hnow.symm.trans hnow')]
  by_cases hmem : .change (symbol i) (wireOf i now) ∈ linesAt t.dumpColumns period place
  · refine DumpLine.replay_of_mem (fun time htime => ?_) hmem hone
    rwa [time_mem_linesAt hnodup htime]
  · have hchanges : .change (symbol i) (wireOf i now) ∉ changeLines t.dumpColumns place := by
      intro hmem'
      refine hmem ?_
      simp only [linesAt]
      rw [if_neg (by simpa using List.ne_nil_of_mem hmem')]
      exact List.mem_cons_of_mem _ hmem'
    obtain ⟨hplace, before, hbefore, heq⟩ :=
      wireOf_eq_of_not_mem_changeLines hnodup hname hnow hchanges
    -- Values are compared before they are wrapped, and equal ones give equal words.
    rw [DumpLine.replay_of_not_mem fun wire hwire => hmem (hone wire hwire ▸ hwire),
      hshown before hplace hbefore, heq]

/-- After the lines up to a place every signal shows the reading of that place. -/
theorem replay_range (hnodup : t.names.Nodup) (hmoment : place * period ≤ moment) {i : Nat}
    {name : String} (hname : t.names[i / 2]? = some name) {now : Reading}
    (hnow : (t.history name)[place]? = some now) :
    DumpLine.replay moment (fun _ => none)
      ((List.range (place + 1)).flatMap (linesAt t.dumpColumns period)) (symbol i) =
        some (wireOf i now) := by
  induction place generalizing now with
  | zero =>
    rw [List.range_succ, List.flatMap_append]
    simp only [List.range_zero, List.flatMap_nil, List.nil_append, List.flatMap_singleton]
    exact replay_linesAt hnodup hmoment hname hnow fun _ h => absurd h (Nat.lt_irrefl 0)
  | succ place ih =>
    have hbefore : place * period ≤ moment :=
      Nat.le_trans (Nat.mul_le_mul_right period (Nat.le_succ place)) hmoment
    rw [List.range_succ, List.flatMap_append, List.flatMap_singleton,
      DumpLine.replay_append fun time htime => time_le_of_mem_flatMap hnodup hbefore htime]
    exact replay_linesAt hnodup hmoment hname hnow fun before _ h => ih hbefore h

/-- At the time of a sample every signal shows the reading of the sample. -/
theorem replay_lines (hnodup : t.names.Nodup) (hperiod : 0 < period) {i : Nat} {name : String}
    (hname : t.names[i / 2]? = some name) {now : Reading} (hplace : place < t.size)
    (hnow : (t.history name)[place]? = some now) :
    DumpLine.replay (place * period) (fun _ => none) (t.lines period) (symbol i) =
      some (wireOf i now) := by
  have hsplit : List.range t.size = List.range (place + 1) ++
      (List.range (t.size - (place + 1))).map (place + 1 + ·) := by
    rw [← List.range_add, Nat.add_sub_cancel' hplace]
  rw [lines, hsplit, List.flatMap_append,
    DumpLine.replay_append fun time htime => time_le_of_mem_flatMap hnodup (Nat.le_refl _) htime,
    replay_flatMap_of_lt, replay_range hnodup (Nat.le_refl _) hname hnow]
  intro later hlater
  obtain ⟨k, -, rfl⟩ := List.mem_map.mp hlater
  exact Nat.mul_lt_mul_of_pos_right (by omega) hperiod

end Stimulus.Trace
