import M3Sec.Berkeley.Lockstep
import M3Sec.Berkeley.Records

/-! # The vectors and the store

Without failures the three databases always hold equally many records, and a print
appends all of them. The vectors are never cleared, so they mirror the store after a
print exactly when they were empty before it.
-/

namespace M3Sec.Berkeley

open Fallible Scripts

variable {f : Faults} {w t : World} {fk : Vfs.Fusekit} {i : Input}

/-- The vectors list the records of the databases, each of them once. -/
def World.Mirrors (w : World) : Prop := ∀ h, w.vector h = (w.db h).records.map Record.text

def World.Even (w : World) : Prop := ∃ n, ∀ h, (w.db h).records.length = n

theorem succeeds_of_noFaults (hf : ∀ c, f c = false) (c : Command) (w : World) :
    c.Succeeds f w := by
  rintro (c | ⟨s, p, o⟩) -
  · exact hf c
  · rfl

theorem World.Even.leaves (hw : w.Even) (hf : ∀ c, f c = false) (c : Command) :
    (c.leaves f w).Even := by
  obtain ⟨n, hn⟩ := hw
  have hsucceeds := succeeds_of_noFaults hf
  cases c with
  | createDb => exact ⟨0, fun h => by rw [records_createDb_of_succeeds (hsucceeds _ w)]; rfl⟩
  | insertDbData =>
    refine ⟨n + 3, fun h => ?_⟩
    rw [records_insertDbData, length_foldl_insertDup, inserts_of_succeeds (hsucceeds _ w), hn]
    cases h <;> rfl
  | printDbData | closeDb | createDbVfs =>
    exact ⟨n, fun h => by rw [records_leaves (by simp) (by simp), hn]⟩

theorem World.Even.prompt (hw : w.Even) (hf : ∀ c, i.faults c = false)
    (ht : prompt fk w i = some t) : t.Even := by
  obtain ⟨-, rfl⟩ | ⟨c, fs, -, -, rfl⟩ := prompt_cases ht
  · exact hw
  · exact World.Even.leaves (w := { w with fs := fs }) hw hf c

theorem World.Even.print (hw : w.Even) (hf : ∀ c, f c = false) (h : Part) :
    (Command.printDbData.leaves f w).vector h =
      w.vector h ++ (w.db h).records.map Record.text := by
  obtain ⟨n, hn⟩ := hw
  obtain ⟨k, hle, hend, hk⟩ := vector_printDbData f w
  obtain ⟨h', hh'⟩ := hend (succeeds_of_noFaults hf _ w)
  have hkn : (w.db h).records.length ≤ k := by rw [hn h, ← hn h']; exact hh'
  rw [hk, List.take_of_length_le hkn]

/-! ## Runs without failures -/

def faultless (fk : Vfs.Fusekit) (w : World) (key : ℤ) : Option World :=
  prompt fk w (.fine key)

/-- When a print has returned `0`, the vectors mirror the three databases, which are
equally long. -/
def MirrorsAfterPrint (fk : Vfs.Fusekit) (w : World) (key : ℤ) : Prop :=
  Command.ofKey key = some .printDbData → ∃ t,
    exec (printDbData fun _ => false) w = (.ok 0, t) ∧ faultless fk w key = some t ∧
    t.Mirrors ∧ t.Even

def EmptyBeforePrint (w : World) (key : ℤ) : Prop :=
  Command.ofKey key = some .printDbData → ∀ h, w.vector h = []

theorem faultless_print {key : ℤ} (hkey : Command.ofKey key = some .printDbData) :
    faultless fk w key = some (Command.printDbData.leaves (fun _ => false) w) := by
  unfold faultless prompt
  simp only [Input.fine, hkey, exec_execute fk _ w (c := .printDbData) (by simp)]

theorem mirrorsAfterPrint_iff (hw : w.Even) (key : ℤ) :
    MirrorsAfterPrint fk w key ↔ EmptyBeforePrint w key := by
  apply forall_congr'
  intro hkey
  have hprint := World.Even.print hw (f := fun _ => false) (fun _ => rfl)
  have hrecords := records_leaves (c := .printDbData) (by simp) (by simp) (fun _ => false) w
  rw [faultless_print hkey, exec_printDbData, if_pos (succeeds_of_noFaults (fun _ => rfl) _ w)]
  constructor
  · rintro ⟨t, ht, -, hmirrors, -⟩ h
    obtain ⟨-, rfl⟩ := Prod.mk.inj ht
    have hm := hmirrors h
    rwa [hprint, hrecords, List.append_left_eq_self] at hm
  · intro hempty
    refine ⟨_, rfl, rfl, fun h => ?_, hw.leaves (fun _ => rfl) .printDbData⟩
    rw [hprint, hempty, hrecords, List.nil_append]

/-- In every run without failures, the prints after which the vectors mirror the store are
those that find the vectors empty. -/
theorem mirrors_along_iff (fk : Vfs.Fusekit) (keys : List ℤ) :
    Runs.Along (faultless fk) (MirrorsAfterPrint fk) .start keys ↔
      Runs.Along (faultless fk) EmptyBeforePrint .start keys := by
  apply Runs.along_congr World.Even
  · exact fun w key hw => mirrorsAfterPrint_iff hw key
  · exact fun w key t hw _ ht => hw.prompt (fun _ => rfl) ht
  · exact ⟨0, fun _ => rfl⟩

/-- The second of two prints appends the store once more. -/
theorem second_print_not_mirrors :
    ¬ Runs.Along (faultless ⟨.keep, .keep⟩) (MirrorsAfterPrint ⟨.keep, .keep⟩) .start
      [1, 2, 3, 3] := by
  intro h
  obtain ⟨t, -, ht, hm, -⟩ := h [1, 2, 3] 3 _ List.prefix_rfl rfl rfl
  obtain rfl := Option.some.inj ht
  exact absurd (congrArg List.length (hm .s)) (by decide)

end M3Sec.Berkeley
