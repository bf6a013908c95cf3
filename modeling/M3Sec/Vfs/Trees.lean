import M3Sec.Vfs.Views

/-! # The tree of a set of names

What the builder mounts for predicates without NULs is a tree of three levels, the same
for every choice of fusekit. It shows a name in each of the three directories or in none
of them, and a file of `predicates` contains its own name.
-/

namespace M3Sec.Vfs

open Directories Fallible

variable {fk : Fusekit} {prog : Program} {P : List Str} {g g' : Fs}

def storeTree (names : Str → Prop) [DecidablePred names] : List Str → Option (View Str)
  | [] => some .directory
  | [dir] =>
    if dir = str "objects" ∨ dir = str "subjects" ∨ dir = str "predicates" then some .directory
    else none
  | [dir, name] =>
    if ¬ names name then none
    else if dir = str "predicates" then some (.file name)
    else if dir = str "objects" ∨ dir = str "subjects" then some .directory
    else none
  | _ => none

theorem storeTree_congr {names names' : Str → Prop} [DecidablePred names] [DecidablePred names']
    (h : ∀ n, names n ↔ names' n) : storeTree names = storeTree names' := by
  ext path : 1
  unfold storeTree
  split <;> simp only [h]

theorem mountedView_eq_storeTree (fk : Fusekit) (hP : ∀ p ∈ P, 0 ∉ p) :
    mountedView fk P = storeTree (· ∈ P) := by
  have hnames := map_cstr_of_nulFree hP
  have hfiles : ∀ n, files fk P n = if n ∈ P then some n else none := files_of_nulFree hP
  have hop : str "objects" ≠ str "predicates" := by decide
  have hsp : str "subjects" ≠ str "predicates" := by decide
  ext path : 1
  match path with
  | [] => rfl
  | [dir] =>
    simp only [mountedView, dirsView, filesView, storeTree]
    split_ifs <;> simp_all
  | [dir, name] =>
    simp only [mountedView, dirsView, filesView, storeTree, hnames, hfiles]
    split_ifs <;> simp_all
  | dir :: name :: below :: path =>
    simp only [mountedView, dirsView, filesView, storeTree]
    split_ifs <;> simp_all

theorem ensures_const {α : Type} {c : Prop} (x : Fallible Fs Exception α) :
    Ensures (fun _ => c) x (fun _ _ => c) fun _ _ => True := by
  intro g hc
  split
  · exact hc
  · trivial

theorem at'_inside {α : Type} {c : Prop} {v : List α} {i : ℕ} :
    Ensures (fun _ => c) (at' v i : Fallible Fs Exception α) (fun _ _ => c ∧ i < v.length)
      fun _ _ => True := by
  intro g hc
  unfold at'
  cases hi : v[i]? with
  | none => trivial
  | some a => exact ⟨hc, (List.getElem?_eq_some_iff.mp hi).1⟩

theorem length_copies (subjects_dir : ℕ) : Ensures (fun _ => True) (P.mapM fun it => do
      let _ ← addDirectory fk subjects_dir it
      let dir ← addDirectory fk subjects_dir it
      copyDirectory dir)
    (fun dirs _ => dirs.length = P.length) fun _ _ => True := by
  refine (Ensures.mapM (I := fun pre dirs _ => dirs.length = pre.length)
    fun pre p dirs _ => ?_).weaken (fun _ _ => rfl) (fun _ _ => id) fun _ _ => id
  exact (ensures_const _).weaken (fun _ => id) (fun _ _ h => by simpa using h) fun _ _ => id

/-- Unless the size is made an `int`, the loop over the objects returns only if there are
as many of them as predicates. -/
theorem length_le_of_build {subj pred obj : List Str} (hprog : prog ≠ .bdbVfs)
    (hg : exec (prog.build fk subj pred obj) g = (.ok ⟨⟩, g')) : pred.length ≤ obj.length := by
  have hcount : prog.count pred.length = pred.length := by
    cases prog with
    | bdbVfs => exact absurd rfl hprog
    | sqlite | testfs => rfl
  have hloop : ∀ dirs : List ℕ, Ensures (fun _ => True)
      ((List.range pred.length).forM fun i => do
        let dir ← at' dirs i
        let name ← at' obj i
        addFile fk dir name name)
      (fun _ _ => ∀ i ∈ List.range pred.length, i < obj.length) fun _ _ => True := by
    intro dirs
    refine (Ensures.forM (I := fun pre _ => ∀ i ∈ pre, i < obj.length) fun pre i _ => ?_).weaken
      (fun _ _ => by simp) (fun _ _ => id) fun _ _ => id
    refine (ensures_const _).bind fun dir => at'_inside.bind fun name => ?_
    refine (ensures_const _).weaken (fun _ => id) (fun _ _ h => ?_) fun _ _ => id
    simpa [or_imp, forall_and] using h
  have hle : Ensures (fun _ => True) (prog.build fk subj pred obj)
      (fun _ _ => pred.length ≤ obj.length) fun _ _ => True := by
    refine (ensures_const _).bind fun o => (ensures_const _).bind fun s =>
      (ensures_const _).bind fun p => (length_copies s).bind fun dirs => ?_
    intro g hdirs
    rw [hdirs, hcount]
    refine (hloop dirs).bind (fun _ => (ensures_const _).weaken (fun _ hi => ?_)
      (fun _ _ => id) fun _ _ => id) g trivial
    by_contra hlt
    exact Nat.lt_irrefl _ (hi obj.length (List.mem_range.mpr (by omega)))
  exact hle.ok trivial hg

end M3Sec.Vfs
