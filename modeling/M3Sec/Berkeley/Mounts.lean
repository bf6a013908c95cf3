import M3Sec.Berkeley.Lockstep
import M3Sec.Berkeley.Records
import M3Sec.Vfs.Remounting

/-! # What `bdb_vfs` mounts in the course of a run

`createDbVfs` returns to the menu, so it may build again on the daemon that it has filled
before, with vectors that have grown. Whatever failed in between, the tree then shows the
predicates of the vector, and these are predicates that were inserted.
-/

namespace M3Sec.Berkeley

open Fallible Scripts

variable {f : Faults} {w t : World} {fk : Vfs.Fusekit} {i : Input} {h : Part}

def Inserted (h : Part) (r : Record) : Prop := ∃ v ∈ values h, r = record h v

theorem Inserted.text_mem {r : Record} (hr : Inserted h r) : r.text ∈ values h := by
  obtain ⟨v, hv, rfl⟩ := hr
  have hfree : ∀ s ∈ values h, 0 ∉ s := by cases h <;> decide
  have htext : (record h v).text = v := text_terminate (hfree v hv)
  rwa [htext]

theorem mem_insertDup {r x : Record} {l : List Record} (hx : x ∈ insertDup r l) :
    x = r ∨ x ∈ l := by
  unfold insertDup at hx
  rcases List.mem_append.mp hx with hx | hx
  · exact .inr (List.takeWhile_subset _ hx)
  · rcases List.mem_cons.mp hx with rfl | hx
    · exact .inl rfl
    · exact .inr (List.dropWhile_subset _ hx)

/-- The databases hold inserted records only, and the vectors their values. -/
structure World.Filled (w : World) : Prop where
  stored : ∀ h, ∀ r ∈ (w.db h).records, Inserted h r
  collected : ∀ h, ∀ v ∈ w.vector h, v ∈ values h

theorem World.Filled.leaves (hw : w.Filled) (c : Command) (f : Faults) : (c.leaves f w).Filled := by
  constructor
  case stored =>
    intro h
    by_cases hopen : c = .createDb
    · subst hopen
      rcases records_createDb f w h with hr | hr
      · simp [hr]
      · rw [hr]
        exact hw.stored h
    by_cases hput : c = .insertDbData
    · subst hput
      rw [records_insertDbData]
      have hrs : ∀ r ∈ inserts f w h, Inserted h r := by
        intro r hr
        obtain ⟨v, hv, rfl⟩ := List.mem_map.mp ((inserts_initial f w h).subset hr)
        exact ⟨v, hv, rfl⟩
      refine List.foldlRecOn (motive := fun l => ∀ r ∈ l, Inserted h r) _ _ (hw.stored h) ?_
      intro l hl r hr x hx
      rcases mem_insertDup hx with rfl | hx
      · exact hrs x hr
      · exact hl x hx
    · rw [records_leaves hopen hput]
      exact hw.stored h
  case collected =>
    intro h
    by_cases hprint : c = .printDbData
    · subst hprint
      obtain ⟨k, -, -, hk⟩ := vector_printDbData f w
      rw [hk]
      intro v hv
      rcases List.mem_append.mp hv with hv | hv
      · exact hw.collected h v hv
      · obtain ⟨r, hr, rfl⟩ := List.mem_map.mp hv
        exact (hw.stored h r (List.take_subset _ _ hr)).text_mem
    · rw [vector_leaves hprint]
      exact hw.collected h

/-! ## The daemon -/

theorem fs_perform (f : Faults) (w : World) (as : List Act) :
    (perform effects (Act.fails f) w as).fs = w.fs := by
  apply perform_invariant (fun t : World => t.fs = w.fs)
  · rintro (c | ⟨s, p, o⟩) - t ht <;> exact ht
  · rintro (c | ⟨s, p, o⟩) - t ht <;> exact ht
  · rfl

theorem fs_leaves (c : Command) (f : Faults) (w : World) : (c.leaves f w).fs = w.fs :=
  fs_perform f w (c.script w)

theorem fs_prompt (hi : Command.ofKey i.key ≠ some .createDbVfs) (ht : prompt fk w i = some t) :
    t.fs = w.fs := by
  obtain ⟨-, rfl⟩ | ⟨c, fs, hkey, hfs, rfl⟩ := prompt_cases ht
  · rfl
  · rw [fs_leaves]
    apply hfs
    rintro rfl
    exact hi hkey

theorem build_of_prompt (hi : Command.ofKey i.key = some .createDbVfs)
    (ht : prompt fk w i = some t) :
    exec (Vfs.Program.build .bdbVfs fk (w.vector .s) (w.vector .p) (w.vector .o)) w.fs =
      (.ok ⟨⟩, t.fs) ∧ t.vector = w.vector := by
  unfold prompt at ht
  rw [hi] at ht
  rcases hb : exec (Vfs.Program.build .bdbVfs fk (w.vector .s) (w.vector .p) (w.vector .o)) w.fs
    with ⟨e | ⟨⟨⟩⟩, fs⟩
  · have hx : exec (createDbVfs fk i.faults) w = (.error e, { w with fs := fs }) := by
      unfold createDbVfs buildOn
      rw [exec_bind_error]
      rw [exec_bind_ok (exec_get w), hb]
      rfl
    simp only [Command.execute, hx] at ht
    cases ht
  · have hx : exec (createDbVfs fk i.faults) w =
        (.ok ⟨⟩, Command.closeDb.leaves i.faults { w with fs := fs }) := by
      unfold createDbVfs
      rw [exec_bind_ok (t := { w with fs := fs }), exec_bind_ok (exec_closeDb _ _)]
      · rfl
      · unfold buildOn
        rw [exec_bind_ok (exec_get w), hb]
        rfl
    simp only [Command.execute, hx] at ht
    obtain rfl := Option.some.inj ht
    rw [fs_leaves, vector_leaves (by decide)]
    exact ⟨rfl, rfl⟩

/-- The vectors hold inserted values, and the daemon shows predicates of the vector, if it shows
anything. -/
structure World.Shown (fk : Vfs.Fusekit) (w : World) : Prop extends w.Filled where
  mounted : w.fs = Vfs.Fs.fresh ∨ ∃ names, names ⊆ w.vector .p ∧ Vfs.Mounted fk names w.fs

theorem vector_subset_prompt (ht : prompt fk w i = some t) (h : Part) :
    w.vector h ⊆ t.vector h := by
  obtain ⟨-, rfl⟩ | ⟨c, fs, -, -, rfl⟩ := prompt_cases ht
  · exact fun _ => id
  · by_cases hprint : c = .printDbData
    · subst hprint
      obtain ⟨k, -, -, hk⟩ := vector_printDbData i.faults { w with fs := fs }
      rw [hk]
      exact List.subset_append_left _ _
    · rw [vector_leaves hprint]
      exact fun _ => id

theorem World.Shown.mount (hw : w.Shown fk) (hi : Command.ofKey i.key = some .createDbVfs)
    (ht : prompt fk w i = some t) : Vfs.Mounted fk (w.vector .p) t.fs := by
  have hfree : ∀ p ∈ w.vector .p, 0 ∉ p := by
    intro p hp
    have hvalues : ∀ v ∈ values .p, 0 ∉ v := by decide
    exact hvalues p (hw.collected .p p hp)
  obtain ⟨hbuild, -⟩ := build_of_prompt hi ht
  rcases hw.mounted with hfresh | ⟨names, hsub, hmounted⟩
  · rw [hfresh] at hbuild
    exact Vfs.mounted_build hfree hbuild
  · exact hmounted.build hsub hfree hbuild

theorem World.Shown.prompt (hw : w.Shown fk) (ht : prompt fk w i = some t) : t.Shown fk := by
  constructor
  case toFilled =>
    obtain ⟨-, rfl⟩ | ⟨c, fs, -, -, rfl⟩ := prompt_cases ht
    · exact hw.toFilled
    · exact World.Filled.leaves (w := { w with fs := fs }) ⟨hw.stored, hw.collected⟩ c i.faults
  case mounted =>
    have hgrown := vector_subset_prompt ht .p
    by_cases hi : Command.ofKey i.key = some .createDbVfs
    · exact .inr ⟨w.vector .p, hgrown, hw.mount hi ht⟩
    · rw [fs_prompt hi ht]
      rcases hw.mounted with hfresh | ⟨names, hsub, hmounted⟩
      · exact .inl hfresh
      · exact .inr ⟨names, List.Subset.trans hsub hgrown, hmounted⟩

theorem shown_run {is : List Input} (hrun : Runs.run (prompt fk) .start is = some t) :
    t.Shown fk := by
  have hstart : World.start.Shown fk := ⟨⟨fun _ _ hr => absurd hr List.not_mem_nil,
    fun _ _ hv => absurd hv List.not_mem_nil⟩, .inl rfl⟩
  exact Runs.invariant_along (A := fun _ _ => True) (World.Shown fk)
    (fun _ _ _ hw _ ht => hw.prompt ht) hstart (fun _ _ _ _ _ => trivial) hrun

/-- Whatever was entered and whatever threw: since the last `createDbVfs` of a run, the mounted
tree shows the predicates that were collected when it was entered, and all of them are inserted
ones. -/
theorem look_of_run {pre post : List Input}
    (hrun : Runs.run (prompt fk) .start (pre ++ i :: post) = some t)
    (hi : Command.ofKey i.key = some .createDbVfs)
    (hpost : ∀ j ∈ post, Command.ofKey j.key ≠ some .createDbVfs) :
    ∃ u, Runs.run (prompt fk) .start pre = some u ∧ (∀ p ∈ u.vector .p, p ∈ values .p) ∧
      ∀ path, t.fs.look Vfs.root path = Vfs.storeTree (· ∈ u.vector .p) path := by
  obtain ⟨u, hu, hrest⟩ := Runs.run_append_eq_some.mp hrun
  obtain ⟨v, hv, hpost'⟩ := Runs.run_cons_eq_some.mp hrest
  have hshown : u.Shown fk := shown_run hu
  have hfs : t.fs = v.fs := by
    refine Runs.invariant_along (A := fun _ j => j ∈ post) (fun w : World => w.fs = v.fs) ?_ rfl
      ?_ hpost'
    · intro w j w' hw hj hw'
      rw [fs_prompt (hpost j hj) hw', hw]
    · intro pre j w hpre _
      exact hpre.subset (by simp)
  refine ⟨u, hu, hshown.collected .p, fun path => ?_⟩
  rw [hfs]
  exact (hshown.mount hi hv).shows path

/-- Two builds, one after the other. -/
theorem look_of_run_twice : ∃ t, Runs.run (prompt ⟨.replace, .keep⟩) .start
    ([.fine 1, .fine 2, .fine 3, .fine 5] ++ .fine 5 :: [.fine 4]) = some t ∧
    t.fs.look Vfs.root [str "predicates", str "am"] = some (.file (str "am")) := by
  obtain ⟨t, ht, -⟩ := exists_run ⟨.replace, .keep⟩
    ([.fine 1, .fine 2, .fine 3, .fine 5] ++ .fine 5 :: [.fine 4])
  obtain ⟨u, hu, -, hlook⟩ := look_of_run ht rfl (by decide)
  refine ⟨t, ht, ?_⟩
  have hvector : u.vector .p = values .p := by
    have hrun : Runs.run (prompt ⟨.replace, .keep⟩) .start
      [.fine 1, .fine 2, .fine 3, .fine 5] = some _ := rfl
    obtain rfl := Option.some.inj (hrun.symm.trans hu)
    decide
  rw [hlook, hvector]
  decide

end M3Sec.Berkeley
