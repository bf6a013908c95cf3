import M3Sec.TestFs.Bounds

/-! # The tree of `test_fs`

A walk from the root, from directory to directory by the names that `test_readdir` fills in,
finds exactly the paths that `test_getattr` knows, and `test_open` opens those of them that are
regular files, for reading only. The directory that is found there cannot be listed.
-/

namespace M3Sec.TestFs

open Fallible

def eacces : ℤ := 13
def oRdonly : UInt32 := 0

def root : CString := ⟨str "/", by decide⟩
def dot : CString := ⟨str ".", by decide⟩
def dotdot : CString := ⟨str "..", by decide⟩

def behind (path : CString) : CString :=
  ⟨path.val.tail, fun h => path.property (List.mem_of_mem_tail h)⟩

/-- `test_readdir`: what it returns, and the names that the filler is called with, whatever the
filler returns. -/
def testReaddir (path : CString) : ℤ × List CString :=
  if path ≠ root then (-enoent, [])
  else (0, [dot, dotdot, behind file1, dot, dotdot, behind file2, dot, dotdot, behind file3,
    dot, dotdot, behind slink1, dot, dotdot, behind dir1])

def testOpen (path : CString) (flags : UInt32) : ℤ :=
  if path ≠ file1 ∧ path ≠ file2 ∧ path ≠ file3 then -enoent
  else if (path = file1 ∨ path = file2 ∨ path = file3) ∧ flags &&& 3 ≠ oRdonly then -eacces
  else 0

def entryPath (dir name : CString) : CString :=
  if dir = root then ⟨root.val ++ name.val, by simp [root.property, name.property]⟩
  else ⟨dir.val ++ root.val ++ name.val, by simp [dir.property, root.property, name.property]⟩

/-- What is found by listing directories, from the root on. -/
inductive Found : CString → Prop
  | root : Found root
  | entry {dir name : CString} (hdir : Found dir) (hlist : (testReaddir dir).1 = 0)
      (hname : name ∈ (testReaddir dir).2) (hdot : name ≠ dot) (hdotdot : name ≠ dotdot) :
      Found (entryPath dir name)

variable {path : CString}

theorem readdir_eq_zero_iff : (testReaddir path).1 = 0 ↔ path = root := by
  unfold testReaddir
  split_ifs with h
  · exact iff_of_false (by decide) h
  · exact iff_of_true rfl (not_not.mp h)

theorem mem_names {name : CString} (hname : name ∈ (testReaddir root).2) (hdot : name ≠ dot)
    (hdotdot : name ≠ dotdot) :
    ∃ path ∈ [file1, file2, file3, slink1, dir1], entryPath root name = path := by
  simp only [testReaddir, ne_eq, not_true_eq_false, if_false, List.mem_cons, hdot, hdotdot, false_or,
    List.not_mem_nil, or_false] at hname
  rcases hname with rfl | rfl | rfl | rfl | rfl
  · exact ⟨file1, by simp, by decide⟩
  · exact ⟨file2, by simp, by decide⟩
  · exact ⟨file3, by simp, by decide⟩
  · exact ⟨slink1, by simp, by decide⟩
  · exact ⟨dir1, by simp, by decide⟩

theorem getattr_eq_zero_iff :
    (testGetattr path).1 = 0 ↔ path = root ∨ path ∈ [file1, file2, file3, slink1, dir1] := by
  simp only [List.mem_cons, List.not_mem_nil, or_false]
  constructor
  · intro hzero
    by_contra hnot
    simp only [not_or] at hnot
    obtain ⟨hroot, h1, h2, h3, hlink, hdir⟩ := hnot
    have hslash : path.val ≠ str "/" := fun h => hroot (Subtype.ext h)
    simp only [testGetattr, hslash, hdir, h1, h2, h3, hlink, if_false] at hzero
    exact absurd hzero (by decide)
  · rintro (rfl | rfl | rfl | rfl | rfl | rfl) <;> rfl

theorem found_iff (path : CString) : Found path ↔ (testGetattr path).1 = 0 := by
  rw [getattr_eq_zero_iff]
  constructor
  · rintro (_ | ⟨hdir, hlist, hname, hdot, hdotdot⟩)
    · exact Or.inl rfl
    · obtain rfl := readdir_eq_zero_iff.mp hlist
      obtain ⟨path, hpath, rfl⟩ := mem_names hname hdot hdotdot
      exact Or.inr hpath
  · have hentry : ∀ name ∈ (testReaddir root).2, name ≠ dot → name ≠ dotdot →
        Found (entryPath root name) := fun name => .entry .root rfl
    rintro (rfl | hpath)
    · exact .root
    · simp only [List.mem_cons, List.not_mem_nil, or_false] at hpath
      rcases hpath with rfl | rfl | rfl | rfl | rfl
      · exact hentry (behind file1) (by decide) (by decide) (by decide)
      · exact hentry (behind file2) (by decide) (by decide) (by decide)
      · exact hentry (behind file3) (by decide) (by decide) (by decide)
      · exact hentry (behind slink1) (by decide) (by decide) (by decide)
      · exact hentry (behind dir1) (by decide) (by decide) (by decide)

theorem regular_iff :
    (testGetattr path).2.type = .reg ↔ path = file1 ∨ path = file2 ∨ path = file3 := by
  constructor
  · intro hreg
    by_contra hnot
    rw [not_or, not_or] at hnot
    unfold testGetattr at hreg
    simp only [hnot, if_false] at hreg
    split_ifs at hreg
    cases hreg
  · rintro (rfl | rfl | rfl) <;> rfl

theorem testOpen_eq (path : CString) (flags : UInt32) : testOpen path flags =
    if (testGetattr path).2.type = .reg then
      if flags &&& 3 = oRdonly then 0 else -eacces
    else -enoent := by
  unfold testOpen
  simp only [regular_iff]
  by_cases hreg : path = file1 ∨ path = file2 ∨ path = file3
  · have hname : ¬ (path ≠ file1 ∧ path ≠ file2 ∧ path ≠ file3) :=
      fun ⟨h1, h2, h3⟩ => hreg.elim h1 fun h => h.elim h2 h3
    rw [if_neg hname, if_pos hreg]
    by_cases hflags : flags &&& 3 = oRdonly
    · rw [if_pos hflags, if_neg fun h => h.2 hflags]
    · rw [if_neg hflags, if_pos ⟨hreg, hflags⟩]
  · rw [if_neg hreg]
    rw [not_or, not_or] at hreg
    exact if_pos hreg

theorem exec_testRead_of_not_regular (h : (testGetattr path).2.type ≠ .reg) (size : UInt64)
    (offset : Int64) (s : Process) : exec (testRead path size offset) s = (.ok (-enoent), s) := by
  rw [Ne, regular_iff, not_or, not_or] at h
  unfold testRead
  rw [if_pos h]
  rfl

/-- The operations agree on the tree: listing leads to every path with attributes and to no
other, the regular files among them can be opened, and nothing else can be read. -/
theorem tree_operations (path : CString) (flags : UInt32) (size : UInt64) (offset : Int64)
    (s : Process) :
    (Found path ↔ (testGetattr path).1 = 0) ∧
      testOpen path flags = (if (testGetattr path).2.type = .reg then
        if flags &&& 3 = oRdonly then 0 else -eacces
      else -enoent) ∧
      ((testGetattr path).2.type = .reg ∨
        exec (testRead path size offset) s = (.ok (-enoent), s)) := by
  refine ⟨found_iff path, testOpen_eq path flags, ?_⟩
  by_cases hreg : (testGetattr path).2.type = .reg
  · exact Or.inl hreg
  · exact Or.inr (exec_testRead_of_not_regular hreg size offset s)

end M3Sec.TestFs
