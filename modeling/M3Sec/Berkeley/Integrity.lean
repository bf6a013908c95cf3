import M3Sec.Berkeley.Lockstep
import M3Sec.Berkeley.Records

/-! # The triples that are collected

A triple is spread over three databases and put together again by position. An insertion
that was cut short leaves some of them shorter than the others, and the next insertion
shifts what follows. As long as no record is put after a part of an insertion, the `j`-th
record of each database belongs to the same triple.
-/

namespace M3Sec.Berkeley

open Fallible Scripts

variable {f : Faults} {w t : World} {fk : Vfs.Fusekit} {i : Input} {h : Part} {n : ℕ}
  {is : List Input}

def inserted : List (Str × Str × Str) := triples (values .s) (values .p) (values .o)

/-- What an insertion that repeats for ever puts as the `j`-th value. -/
def value (h : Part) (j : ℕ) : Str := (values h).getD (j % 3) []

def whole (h : Part) (n : ℕ) : List Record := (List.range n).map fun j => record h (value h j)

theorem value_add (hn : 3 ∣ n) (h : Part) (j : ℕ) : value h (n + j) = value h j := by
  unfold value
  rw [Nat.add_mod, Nat.mod_eq_zero_of_dvd hn, Nat.zero_add, Nat.mod_mod]

theorem value_mem (h : Part) (j : ℕ) : value h j ∈ values h := by
  have hj : j % 3 = 0 ∨ j % 3 = 1 ∨ j % 3 = 2 := by omega
  unfold value
  rcases hj with hj | hj | hj <;> rw [hj] <;> cases h <;> decide

theorem value_mem_inserted (j : ℕ) : (value .s j, value .p j, value .o j) ∈ inserted := by
  have hj : j % 3 = 0 ∨ j % 3 = 1 ∨ j % 3 = 2 := by omega
  unfold value
  rcases hj with hj | hj | hj <;> rw [hj] <;> decide

theorem text_record (h : Part) (j : ℕ) : (record h (value h j)).text = value h j := by
  have hfree : ∀ s ∈ values h, 0 ∉ s := by cases h <;> decide
  exact text_terminate (hfree _ (value_mem h j))

theorem values_eq_whole (h : Part) : (values h).map (record h) = whole h 3 := by
  cases h <;> rfl

theorem take_whole (h : Part) {k : ℕ} (hk : k ≤ n) : (whole h n).take k = whole h k := by
  rw [whole, ← List.map_take, List.take_range, Nat.min_eq_left hk, whole]

theorem whole_add (hn : 3 ∣ n) (h : Part) (m : ℕ) : whole h n ++ whole h m = whole h (n + m) := by
  simp only [whole, List.range_add, List.map_append, List.map_map, Function.comp_def,
    value_add hn]

theorem whole_append (hn : 3 ∣ n) {rs : List Record}
    (hrs : rs <+: (values h).map (record h)) : whole h n ++ rs = whole h (n + rs.length) := by
  rw [values_eq_whole] at hrs
  have hlen : rs.length ≤ 3 := by simpa [whole] using hrs.length_le
  rw [← whole_add hn, List.prefix_iff_eq_take.mp hrs, take_whole h hlen]
  simp [whole]

/-! ## The invariant -/

/-- The databases hold nothing but insertions one after the other, the last one possibly
cut short, and whatever was collected for one position belongs to one triple. -/
structure World.Aligned (w : World) : Prop where
  stored : ∀ h, (w.db h).records = whole h (w.db h).records.length
  collected : ∃ js : List ℕ, ∀ h, w.vector h = js.map (value h)

/-- An insertion puts records only into databases that hold whole insertions. -/
def PutsOnWhole (w : World) (i : Input) : Prop :=
  Command.ofKey i.key = some .insertDbData →
    ∀ h, inserts i.faults w h ≠ [] → 3 ∣ (w.db h).records.length

theorem foldl_insertDup_whole {rs : List Record} (hrs : rs <+: (values h).map (record h)) :
    rs.foldl (fun l r => insertDup r l) (whole h n) = whole h n ++ rs := by
  have hkeys : ∀ r ∈ rs, r.key = key h := by
    intro r hr
    obtain ⟨v, -, rfl⟩ := List.mem_map.mp (hrs.subset hr)
    rfl
  have hwhole : ∀ r ∈ whole h n, r.key = key h := by
    intro r hr
    obtain ⟨j, -, rfl⟩ := List.mem_map.mp hr
    rfl
  clear hrs
  generalize whole h n = l at hwhole
  induction rs generalizing l with
  | nil => simp
  | cons r rs ih =>
    have hr := hkeys r (List.mem_cons_self ..)
    rw [List.foldl_cons, insertDup_of_keys fun x hx => (hwhole x hx).trans hr.symm, ih]
    · simp
    · exact fun x hx => hkeys x (List.mem_cons_of_mem _ hx)
    · intro x hx
      rcases List.mem_append.mp hx with hx | hx
      · exact hwhole x hx
      · rw [List.mem_singleton.mp hx, hr]

theorem World.Aligned.create (hw : w.Aligned) (f : Faults) :
    (Command.createDb.leaves f w).Aligned := by
  constructor
  case stored =>
    intro h
    rcases records_createDb f w h with hr | hr
    · rw [hr]
      rfl
    · rw [hr]
      exact hw.stored h
  case collected =>
    rw [vector_leaves (by simp)]
    exact hw.collected

theorem World.Aligned.close (hw : w.Aligned) (f : Faults) :
    (Command.closeDb.leaves f w).Aligned := by
  constructor
  case stored =>
    intro h
    rw [records_leaves (by simp) (by simp)]
    exact hw.stored h
  case collected =>
    rw [vector_leaves (by simp)]
    exact hw.collected

theorem World.Aligned.insert (hw : w.Aligned)
    (hguard : ∀ h, inserts f w h ≠ [] → 3 ∣ (w.db h).records.length) :
    (Command.insertDbData.leaves f w).Aligned := by
  constructor
  case stored =>
    intro h
    rw [records_insertDbData, length_foldl_insertDup]
    by_cases hrs : inserts f w h = []
    · rw [hrs]
      exact hw.stored h
    · rw [hw.stored h, foldl_insertDup_whole (inserts_initial f w h),
        whole_append (hguard h hrs) (inserts_initial f w h)]
      simp [whole]
  case collected =>
    rw [vector_leaves (by simp)]
    exact hw.collected

theorem World.Aligned.print (hw : w.Aligned) (f : Faults) :
    (Command.printDbData.leaves f w).Aligned := by
  obtain ⟨js, hjs⟩ := hw.collected
  obtain ⟨k, hle, -, hk⟩ := vector_printDbData f w
  constructor
  case stored =>
    intro h
    rw [records_leaves (by simp) (by simp)]
    exact hw.stored h
  case collected =>
    refine ⟨js ++ List.range k, fun h => ?_⟩
    have htake : (w.db h).records.take k = whole h k := by
      rw [hw.stored h, take_whole h (hle h)]
    rw [hk, hjs, htake, whole, List.map_map, List.map_append]
    simp only [Function.comp_def, text_record]

theorem World.Aligned.prompt (hw : w.Aligned) (hguard : PutsOnWhole w i)
    (ht : prompt fk w i = some t) : t.Aligned := by
  obtain ⟨-, rfl⟩ | ⟨c, fs, hkey, -, rfl⟩ := prompt_cases ht
  · exact hw
  · have hw' : World.Aligned { w with fs := fs } := ⟨hw.stored, hw.collected⟩
    cases c with
    | createDb => exact hw'.create i.faults
    | insertDbData => exact hw'.insert (hguard hkey)
    | printDbData => exact hw'.print i.faults
    | closeDb => exact hw'.close i.faults
    | createDbVfs => exact hw'.close i.faults

theorem aligned_start : World.start.Aligned := ⟨fun _ => rfl, [], fun _ => rfl⟩

theorem World.Aligned.triples_inserted (hw : w.Aligned) :
    ∀ x ∈ triples (w.vector .s) (w.vector .p) (w.vector .o), x ∈ inserted := by
  obtain ⟨js, hjs⟩ := hw.collected
  intro x hx
  rw [hjs, hjs, hjs, triples, List.zip_map', List.zip_map'] at hx
  obtain ⟨j, -, rfl⟩ := List.mem_map.mp hx
  exact value_mem_inserted j

/-- In a run that never puts a record after a part of an insertion, whatever throws, the
triples that are collected are triples that were inserted. -/
theorem collected_triples_inserted
    (hguard : Runs.Along (prompt fk) PutsOnWhole .start is)
    (hrun : Runs.run (prompt fk) .start is = some t) :
    ∀ x ∈ triples (t.vector .s) (t.vector .p) (t.vector .o), x ∈ inserted := by
  apply World.Aligned.triples_inserted
  exact Runs.invariant_along World.Aligned (fun w i t hw hi ht => hw.prompt hi ht) aligned_start
    hguard hrun

/-- An insertion that is cut short in the middle of the objects, then a print. -/
theorem collected_after_cut : ∃ t, Runs.run (prompt ⟨.keep, .keep⟩) .start
    [.fine 1, .failing 2 (.put .o (record .o (str "a sister."))), .fine 3] = some t ∧
    triples (t.vector .s) (t.vector .p) (t.vector .o) ≠ [] ∧
    ∀ x ∈ triples (t.vector .s) (t.vector .p) (t.vector .o), x ∈ inserted := by
  have hrun : Runs.run (prompt ⟨.keep, .keep⟩) .start
      [.fine 1, .failing 2 (.put .o (record .o (str "a sister."))), .fine 3] = some _ := rfl
  refine ⟨_, hrun, by decide, collected_triples_inserted ?_ hrun⟩
  rw [Runs.along_cons]
  constructor
  · intro hkey
    cases hkey
  · intro t ht
    obtain rfl := Option.some.inj ht
    rw [Runs.along_cons]
    constructor
    · rintro - h -
      cases h <;> exact ⟨0, rfl⟩
    · intro u hu
      rw [Runs.along_cons]
      constructor
      · intro hkey
        cases hkey
      · exact fun _ _ => Runs.along_nil

/-- The insertion after one that was cut short pairs parts of different triples. -/
theorem collected_mixture : ∃ t, Runs.run (prompt ⟨.keep, .keep⟩) .start
    [.fine 1, .failing 2 (.put .s (record .s (str "Kirill"))), .fine 2, .fine 3] = some t ∧
    ∃ x ∈ triples (t.vector .s) (t.vector .p) (t.vector .o), x ∉ inserted := by
  refine ⟨_, rfl, (str "I", str "has", str "a sister."), ?_, ?_⟩
  · decide
  · decide

end M3Sec.Berkeley
