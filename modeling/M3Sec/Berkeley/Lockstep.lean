import M3Sec.Berkeley.Calls

/-! # The three vectors

Only the rounds of the print loop push, and each round pushes a value to all three
vectors. They are of one length at every prompt, whatever the databases hold and
wherever a print is cut short.
-/

namespace M3Sec.Berkeley

open Fallible Scripts

variable {f : Faults} {w t : World} {h : Part} {fk : Vfs.Fusekit}

def Record.text (r : Record) : Str := r.value.text

theorem vector_calls {as : List Act} (has : ∀ s p o, .push s p o ∉ as) (w : World) :
    (perform effects (Act.fails f) w as).vector = w.vector := by
  apply perform_invariant (fun t : World => t.vector = w.vector)
  · rintro (c | ⟨s, p, o⟩) ha t ht
    · exact ht
    · exact absurd ha (has s p o)
  · rintro (c | ⟨s, p, o⟩) _ t ht <;> exact ht
  · rfl

/-- Some rounds of the loop push a record of each part, and when the loop ends one of the
databases is at its end. -/
theorem vector_rounds (f : Faults) (w : World) (n : ℕ) (cur_s cur_p cur_o : List Record) :
    ∃ k, (∀ h, k ≤ (Part.pick cur_s cur_p cur_o h).length) ∧
      (Completes (Act.fails f) (rounds n cur_s cur_p cur_o) →
        ∃ h, (Part.pick cur_s cur_p cur_o h).length ≤ k) ∧
      ∀ h, (perform effects (Act.fails f) w (rounds n cur_s cur_p cur_o)).vector h =
        w.vector h ++ ((Part.pick cur_s cur_p cur_o h).take k).map Record.text := by
  fun_induction rounds n cur_s cur_p cur_o generalizing w with
  | case1 n => exact ⟨0, by simp, fun _ => ⟨.s, le_rfl⟩, by simp [vector_calls]⟩
  | case2 n => exact ⟨0, by simp, fun _ => ⟨.p, le_rfl⟩, by simp [vector_calls]⟩
  | case3 n => exact ⟨0, by simp, fun _ => ⟨.o, le_rfl⟩, by simp [vector_calls]⟩
  | case4 n s cur_s p cur_p o cur_o ih =>
    let gets : List Act := [.call (.get .s n), .call (.get .p n), .call (.get .o n)]
    have hgets : (perform effects (Act.fails f) w gets).vector = w.vector :=
      vector_calls (by simp [gets]) w
    change ∃ k, _ ∧ (Completes _ (gets ++ .push s p o :: rounds (n + 1) cur_s cur_p cur_o) → _) ∧
      ∀ h, (perform _ _ w (gets ++ .push s p o :: rounds (n + 1) cur_s cur_p cur_o)).vector h = _
    by_cases hc : Completes (Act.fails f) gets
    · obtain ⟨k, hle, hend, hk⟩ := ih ((perform effects (Act.fails f) w gets).push s p o)
      refine ⟨k + 1, fun h => ?_, fun hdone => ?_, fun h => ?_⟩
      · have := hle h
        cases h <;> exact Nat.succ_le_succ this
      · obtain ⟨h, hh⟩ := hend (completes_cons.mp (completes_append.mp hdone).2).2
        refine ⟨h, ?_⟩
        cases h <;> exact Nat.succ_le_succ hh
      · rw [perform_append, if_pos hc, perform_cons]
        refine (hk h).trans ?_
        cases h <;> simp [World.push, hgets, Part.pick, Record.text]
    · refine ⟨0, fun h => Nat.zero_le _, fun hdone => absurd (completes_append.mp hdone).1 hc,
        fun h => ?_⟩
      rw [perform_append, if_neg hc, hgets]
      simp

theorem vector_printDbData (f : Faults) (w : World) :
    ∃ k, (∀ h, k ≤ (w.db h).records.length) ∧
      (Command.printDbData.Succeeds f w → ∃ h, (w.db h).records.length ≤ k) ∧
      ∀ h, (Command.printDbData.leaves f w).vector h =
        w.vector h ++ ((w.db h).records.take k).map Record.text := by
  have hcursor : (perform effects (Act.fails f) w (eachPart .cursor)).vector = w.vector :=
    vector_calls (by simp [eachPart]) w
  have hleaves : (Command.printDbData.leaves f w).vector =
      (perform effects (Act.fails f) w (eachPart .cursor ++ w.rounds)).vector := by
    rw [Command.leaves, Command.script, perform_append]
    split
    · exact vector_calls (by simp [eachPart]) _
    · rfl
  rw [hleaves, perform_append]
  by_cases hc : Completes (Act.fails f) (eachPart .cursor)
  · obtain ⟨k, hle, hend, hk⟩ := vector_rounds f (perform effects (Act.fails f) w
      (eachPart .cursor)) 0 (w.db .s).records (w.db .p).records (w.db .o).records
    simp only [Part.pick_self fun h => (w.db h).records] at hle hend hk
    refine ⟨k, hle, fun hdone => hend ?_, fun h => ?_⟩
    · exact (completes_append.mp (completes_append.mp hdone).1).2
    · rw [if_pos hc, ← hcursor]
      exact hk h
  · refine ⟨0, fun h => Nat.zero_le _, fun hdone => ?_, fun h => ?_⟩
    · exact absurd (completes_append.mp (completes_append.mp hdone).1).1 hc
    · rw [if_neg hc, hcursor]
      simp

theorem vector_leaves {c : Command} (hc : c ≠ .printDbData) (f : Faults) (w : World) :
    (c.leaves f w).vector = w.vector := by
  apply vector_calls
  cases c with
  | printDbData => exact absurd rfl hc
  | createDb | insertDbData | closeDb | createDbVfs => simp [Command.script, eachPart, puts]

/-! ## Lockstep -/

def World.Lockstep (w : World) : Prop := ∃ n, ∀ h, (w.vector h).length = n

theorem World.Lockstep.leaves (hw : w.Lockstep) (c : Command) (f : Faults) :
    (c.leaves f w).Lockstep := by
  obtain ⟨n, hn⟩ := hw
  by_cases hc : c = .printDbData
  · subst hc
    obtain ⟨k, hle, -, hk⟩ := vector_printDbData f w
    refine ⟨n + k, fun h => ?_⟩
    simp [hk, hn, Nat.min_eq_left (hle h)]
  · exact ⟨n, fun h => by rw [vector_leaves hc, hn]⟩

theorem World.Lockstep.prompt (hw : w.Lockstep) (i : Input) :
    ∃ t, prompt fk w i = some t ∧ t.Lockstep := by
  obtain ⟨n, hn⟩ := id hw
  obtain ⟨t, ht⟩ := prompt_isSome fk i (by rw [hn, hn])
  refine ⟨t, ht, ?_⟩
  obtain ⟨-, rfl⟩ | ⟨c, fs, -, -, rfl⟩ := prompt_cases ht
  · exact hw
  · exact World.Lockstep.leaves (w := { w with fs := fs }) hw c i.faults

theorem exists_run (fk : Vfs.Fusekit) (is : List Input) :
    ∃ t, Runs.run (prompt fk) .start is = some t ∧ t.Lockstep := by
  induction is using List.reverseRecOn with
  | nil => exact ⟨_, rfl, 0, fun _ => rfl⟩
  | append_singleton is i ih =>
    obtain ⟨u, hu, hlock⟩ := ih
    obtain ⟨t, ht, hlock'⟩ := hlock.prompt i
    exact ⟨t, Runs.run_snoc_eq_some.mpr ⟨u, hu, ht⟩, hlock'⟩

abbrev Contents := Part → List Record

def World.hold (w : World) (records : Contents) : World :=
  { w with db := fun h => { w.db h with records := records h } }

/-- A prompt after which the databases hold whatever they hold. -/
def promptWith (fk : Vfs.Fusekit) (w : World) (i : Contents × Input) : Option World :=
  prompt fk (w.hold i.1) i.2

/-- A print appends the first `k` records of each database, for one `k`; it is the
smallest of the three counts when the print returns `0`. -/
def PrintsFirst (fk : Vfs.Fusekit) (w : World) (i : Contents × Input) : Prop :=
  Command.ofKey i.2.key = some .printDbData → ∃ v t k,
    exec (printDbData i.2.faults) (w.hold i.1) = (.ok v, t) ∧ promptWith fk w i = some t ∧
    (∀ h, k ≤ (i.1 h).length) ∧
    (v = 0 → k = min (i.1 .s).length (min (i.1 .p).length (i.1 .o).length)) ∧
    ∀ h, t.vector h = w.vector h ++ ((i.1 h).take k).map Record.text

theorem printsFirst (fk : Vfs.Fusekit) (w : World) (i : Contents × Input) :
    PrintsFirst fk w i := by
  intro hkey
  obtain ⟨k, hle, hend, hk⟩ := vector_printDbData i.2.faults (w.hold i.1)
  refine ⟨_, _, k, exec_printDbData _ _, ?_, hle, fun hv => ?_, hk⟩
  · unfold promptWith prompt
    simp only [hkey, exec_execute fk i.2.faults (w.hold i.1) (c := .printDbData) (by simp)]
  · obtain ⟨h, hh⟩ := hend (by simpa using hv)
    have hs := hle .s
    have hp := hle .p
    have ho := hle .o
    simp only [World.hold] at hs hp ho hh
    cases h <;> omega

/-- At every prompt the vectors are in lockstep, every print appends equally many records
of each database, and no exception ends the program, whatever the databases hold and
whichever calls throw. -/
theorem lockstep_at_every_prompt (fk : Vfs.Fusekit) (is : List (Contents × Input)) :
    (∃ t, Runs.run (promptWith fk) .start is = some t ∧ t.Lockstep) ∧
      Runs.Along (promptWith fk) (PrintsFirst fk) .start is := by
  constructor
  · induction is using List.reverseRecOn with
    | nil => exact ⟨_, rfl, 0, fun _ => rfl⟩
    | append_singleton is i ih =>
      obtain ⟨u, hu, hlock⟩ := ih
      obtain ⟨t, ht, hlock'⟩ := World.Lockstep.prompt (w := u.hold i.1) hlock i.2
      exact ⟨t, Runs.run_snoc_eq_some.mpr ⟨u, hu, ht⟩, hlock'⟩
  · rintro pre i t - -
    exact printsFirst fk t i

end M3Sec.Berkeley
