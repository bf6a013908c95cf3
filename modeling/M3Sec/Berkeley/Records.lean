import M3Sec.Berkeley.Calls

/-! # The records of the databases

Opening a database empties it, an insertion puts some first part of its list of records
into each of them, and no other command changes a record.
-/

namespace M3Sec.Berkeley

open Scripts

variable {f : Faults} {w : World} {h : Part}

theorem insertDup_of_keys {r : Record} {l : List Record} (hl : ∀ x ∈ l, x.key = r.key) :
    insertDup r l = l ++ [r] := by
  have hle : ∀ x ∈ l, decide (x.key ≤ r.key) = true := by
    intro x hx
    rw [hl x hx]
    simp
  unfold insertDup
  rw [List.takeWhile_eq_self_iff.mpr hle, List.dropWhile_eq_nil_iff.mpr hle]

theorem length_insertDup (r : Record) (l : List Record) :
    (insertDup r l).length = l.length + 1 := by
  have hl := congrArg List.length
    (List.takeWhile_append_dropWhile (p := fun x => decide (x.key ≤ r.key)) (l := l))
  simp only [List.length_append] at hl
  simp only [insertDup, List.length_append, List.length_cons]
  omega

theorem length_foldl_insertDup (rs l : List Record) :
    (rs.foldl (fun l r => insertDup r l) l).length = l.length + rs.length := by
  induction rs generalizing l with
  | nil => rfl
  | cons r rs ih =>
    rw [List.foldl_cons, ih, length_insertDup, List.length_cons]
    omega

/-- A failed `createDb` may have emptied some of the databases. -/
theorem records_createDb (f : Faults) (w : World) (h : Part) :
    ((Command.createDb.leaves f w).db h).records = [] ∨
      ((Command.createDb.leaves f w).db h).records = (w.db h).records := by
  refine perform_invariant (fun t : World => (t.db h).records = [] ∨
    (t.db h).records = (w.db h).records) ?_ ?_ (.inr rfl)
  · rintro (c | ⟨s, p, o⟩) ha t ht
    · cases c with
      | openDb h' =>
        by_cases hh : h = h'
        · exact .inl (by simp [effects, Call.handle, Db.done, hh])
        · simpa [effects, Call.handle, hh] using ht
      | setFlags h' => simpa [effects, Db.done] using ht
      | put | cursor | get | closeCursor | close =>
        simp [Command.script, eachPart] at ha
    · exact ht
  · rintro (c | ⟨s, p, o⟩) - t ht
    · simp only [effects, records_failed]
      exact ht
    · exact ht

theorem records_createDb_of_succeeds (hc : Command.createDb.Succeeds f w) (h : Part) :
    ((Command.createDb.leaves f w).db h).records = [] := by
  rw [Command.leaves, perform_of_completes hc]
  cases h <;> rfl

theorem puts_insertDbData (w : World) (h : Part) :
    (Command.insertDbData.script w).filterMap (Act.putOn h) = (values h).map (record h) := by
  cases h <;> rfl

def inserts (f : Faults) (w : World) (h : Part) : List Record :=
  (performed (Act.fails f) (Command.insertDbData.script w)).filterMap (Act.putOn h)

theorem inserts_initial (f : Faults) (w : World) (h : Part) :
    inserts f w h <+: (values h).map (record h) := by
  rw [← puts_insertDbData w]
  exact (performed_initial _ _).filterMap _

theorem inserts_of_succeeds (hc : Command.insertDbData.Succeeds f w) (h : Part) :
    inserts f w h = (values h).map (record h) := by
  rw [inserts, performed_of_completes hc, puts_insertDbData]

theorem records_insertDbData (f : Faults) (w : World) (h : Part) :
    ((Command.insertDbData.leaves f w).db h).records =
      (inserts f w h).foldl (fun l r => insertDup r l) (w.db h).records :=
  records_perform (by simp [Command.script, puts]) w h

theorem records_leaves {c : Command} (hopen : c ≠ .createDb) (hput : c ≠ .insertDbData)
    (f : Faults) (w : World) (h : Part) :
    ((c.leaves f w).db h).records = (w.db h).records := by
  apply records_perform_of_reads
  intro d hd
  cases c with
  | createDb => exact absurd rfl hopen
  | insertDbData => exact absurd rfl hput
  | closeDb | createDbVfs =>
    obtain ⟨k, rfl⟩ := call_mem_eachPart.mp hd
    rfl
  | printDbData =>
    obtain ⟨k, rfl⟩ | ⟨k, m, rfl⟩ | ⟨k, rfl⟩ := call_mem_printDbData hd <;> rfl

end M3Sec.Berkeley
