import Mathlib.Data.List.Zip
import M3Sec.Vfs.Mounted

/-! # The views of a mounted triple store

The mounted tree shows the predicates and nothing else. So it tells two stores with
different predicates apart, but not two stores that pair the same subjects and objects
differently, and a directory of the subject view shows no object.
-/

namespace M3Sec.Vfs

open Directories Fallible

variable {fk : Fusekit} {prog : Program} {S P O S' P' O' : List Str} {p o : Str}

def Program.tree (prog : Program) (fk : Fusekit) (S P O : List Str) (path : List Str) :
    Option (View Str) :=
  (exec (prog.build fk S P O) Fs.fresh).2.look root path

/-- A string that can name an entry: not empty, free of NUL and of `/`. -/
def IsName (s : Str) : Prop := s ≠ [] ∧ 0 ∉ s ∧ 47 ∉ s

instance (s : Str) : Decidable (IsName s) := inferInstanceAs (Decidable (_ ∧ _))

structure Vectors (S P O : List Str) : Prop where
  subjects : S.length = P.length
  objects : P.length = O.length
  names : ∀ x ∈ S ++ P ++ O, IsName x

theorem Vectors.predicates (h : Vectors S P O) : ∀ p ∈ P, 0 ∉ p :=
  fun p hp => (h.names p (by simp [hp])).2.1

theorem tree_eq_mountedView (h : P.length ≤ O.length) :
    prog.tree fk S P O = mountedView fk P := by
  obtain ⟨g, hg, hlook⟩ : ∃ g, exec (prog.build fk S P O) Fs.fresh = (.ok ⟨⟩, g) ∧
      ∀ path, g.look root path = mountedView fk P path := build_mounted prog h
  ext path : 1
  rw [Program.tree, hg]
  exact hlook path

theorem map_cstr_of_nulFree (hP : ∀ p ∈ P, 0 ∉ p) : P.map cstr = P :=
  (List.map_congr_left fun p hp => cstr_of_nulFree (hP p hp)).trans (List.map_id P)

theorem mountedView_congr (hP : ∀ p ∈ P, 0 ∉ p) (hP' : ∀ p ∈ P', 0 ∉ p)
    (h : ∀ p, p ∈ P ↔ p ∈ P') : mountedView fk P = mountedView fk P' := by
  have hdirs : dirsView P = dirsView P' := by
    ext path : 1
    cases path with
    | nil => rfl
    | cons n path => simp only [dirsView, map_cstr_of_nulFree hP, map_cstr_of_nulFree hP', h]
  have hfiles : files fk P = files fk P' := by
    ext n : 1
    simp only [files_of_nulFree hP, files_of_nulFree hP', h]
  ext path : 1
  cases path with
  | nil => rfl
  | cons n path => simp only [mountedView, hdirs, hfiles]

structure Columns (S P O : List Str) : Prop where
  subjects : S.length = P.length
  objects : P.length = O.length
  nulFree : ∀ x ∈ S ++ P ++ O, 0 ∉ x

theorem Columns.predicates (h : Columns S P O) : ∀ p ∈ P, 0 ∉ p :=
  fun p hp => h.nulFree p (by simp [hp])

theorem Columns.mem_iff (h : Columns S P O) (p : Str) :
    p ∈ P ↔ ∃ t ∈ triples S P O, t.2.1 = p := by
  have hmap : (triples S P O).map (fun t => t.2.1) = P := by
    have hzip : (P.zip O).length ≤ S.length := by simp [h.subjects]
    calc (triples S P O).map (fun t => t.2.1)
        = ((S.zip (P.zip O)).map Prod.snd).map Prod.fst := List.map_map.symm
      _ = P := by rw [List.map_snd_zip hzip, List.map_fst_zip h.objects.le]
  rw [← List.mem_map, hmap]

/-- The tree depends on the set of the triples only. -/
theorem tree_congr (h : Columns S P O) (h' : Columns S' P' O')
    (hset : ∀ t, t ∈ triples S P O ↔ t ∈ triples S' P' O') :
    prog.tree fk S P O = prog.tree fk S' P' O' := by
  rw [tree_eq_mountedView h.objects.le, tree_eq_mountedView h'.objects.le]
  apply mountedView_congr h.predicates h'.predicates
  intro p
  rw [h.mem_iff, h'.mem_iff]
  simp only [hset]

/-- Two triples, turned round and one of them repeated. -/
theorem tree_congr_small :
    Program.tree .bdbVfs ⟨.replace, .keep⟩ [str "s", str "t"] [str "p", str "q"]
        [str "o", str "o"] =
      Program.tree .bdbVfs ⟨.replace, .keep⟩ [str "t", str "s", str "t"]
        [str "q", str "p", str "q"] [str "o", str "o", str "o"] := by
  have h : Columns [str "s", str "t"] [str "p", str "q"] [str "o", str "o"] :=
    ⟨by simp, by simp, by decide⟩
  have h' : Columns [str "t", str "s", str "t"] [str "q", str "p", str "q"]
      [str "o", str "o", str "o"] := ⟨by simp, by simp, by decide⟩
  have hsub : triples [str "s", str "t"] [str "p", str "q"] [str "o", str "o"] ⊆
      triples [str "t", str "s", str "t"] [str "q", str "p", str "q"] [str "o", str "o", str "o"] := by
    decide
  have hsub' : triples [str "t", str "s", str "t"] [str "q", str "p", str "q"]
      [str "o", str "o", str "o"] ⊆
        triples [str "s", str "t"] [str "p", str "q"] [str "o", str "o"] := by
    decide
  exact tree_congr h h' fun t => ⟨@hsub t, @hsub' t⟩

theorem tree_subjects_iff (h : P.length ≤ O.length) (hP : ∀ p ∈ P, 0 ∉ p) (p : Str) :
    prog.tree fk S P O [str "subjects", p] = some .directory ↔ p ∈ P := by
  rw [tree_eq_mountedView h]
  simp [mountedView, dirsView, subjects_ne_objects, map_cstr_of_nulFree hP]

theorem tree_subjects_below (h : P.length ≤ O.length) (p o : Str) :
    prog.tree fk S P O [str "subjects", p, o] = none := by
  rw [tree_eq_mountedView h]
  simp [mountedView, dirsView, subjects_ne_objects]

/-! ## What the tree determines -/

def Lossless (prog : Program) (fk : Fusekit) : Prop :=
  ∀ S P O S' P' O', Vectors S P O → Vectors S' P' O' →
    prog.tree fk S P O = prog.tree fk S' P' O' →
    ∀ t, t ∈ triples S P O ↔ t ∈ triples S' P' O'

/-- A predicate that is shared by two triples loses which subject goes with which object. -/
theorem not_lossless : ¬ ∃ prog fk, Lossless prog fk := by
  rintro ⟨prog, fk, h⟩
  have hst : Vectors [str "s", str "t"] [str "p", str "p"] [str "o", str "q"] :=
    ⟨by simp, by simp, by decide⟩
  have hts : Vectors [str "s", str "t"] [str "p", str "p"] [str "q", str "o"] :=
    ⟨by simp, by simp, by decide⟩
  have htree : prog.tree fk [str "s", str "t"] [str "p", str "p"] [str "o", str "q"] =
      prog.tree fk [str "s", str "t"] [str "p", str "p"] [str "q", str "o"] := by
    rw [tree_eq_mountedView hst.objects.le, tree_eq_mountedView hts.objects.le]
  have hpair : (str "s", str "p", str "o") ∈ triples [str "s", str "t"] [str "p", str "p"]
      [str "q", str "o"] := (h _ _ _ _ _ _ hst hts htree _).mp (by decide)
  exact absurd hpair (by decide)

/-- The mounted tree determines the predicates. -/
theorem predicates_of_tree (h : Vectors S P O) (h' : Vectors S' P' O')
    (htree : prog.tree fk S P O = prog.tree fk S' P' O') (p : Str) : p ∈ P ↔ p ∈ P' := by
  rw [← tree_subjects_iff h.objects.le h.predicates, htree,
    tree_subjects_iff h'.objects.le h'.predicates]

theorem predicates_of_tree_repeated :
    Program.tree .sqlite ⟨.keep, .replace⟩ [str "s"] [str "p"] [str "o"] =
      Program.tree .sqlite ⟨.keep, .replace⟩ [str "t", str "s"] [str "p", str "p"]
        [str "o", str "q"] ∧
    (str "p" ∈ [str "p"] ↔ str "p" ∈ [str "p", str "p"]) := by
  have h : Vectors [str "s"] [str "p"] [str "o"] := ⟨by simp, by simp, by decide⟩
  have h' : Vectors [str "t", str "s"] [str "p", str "p"] [str "o", str "q"] :=
    ⟨by simp, by simp, by decide⟩
  have htree : Program.tree .sqlite ⟨.keep, .replace⟩ [str "s"] [str "p"] [str "o"] =
      Program.tree .sqlite ⟨.keep, .replace⟩ [str "t", str "s"] [str "p", str "p"]
        [str "o", str "q"] := by
    rw [tree_eq_mountedView h.objects.le, tree_eq_mountedView h'.objects.le]
    exact mountedView_congr h.predicates h'.predicates (by simp)
  exact ⟨htree, predicates_of_tree h h' htree (str "p")⟩

/-! ## The subject view -/

/-- The predicates are the directories under `subjects`, and the files in the directory of
a predicate are the objects that it is paired with. -/
structure SubjectView (tree : List Str → Option (View Str)) (P O : List Str) : Prop where
  directories : ∀ p, tree [str "subjects", p] = some .directory ↔ p ∈ P
  files : ∀ p, tree [str "subjects", p] = some .directory → ∀ o : Str,
    (∃ content, tree [str "subjects", p, o] = some (.file content)) ↔
      ∃ i : ℕ, P[i]? = some p ∧ O[i]? = some o

/-- The subject view is right exactly for a store without triples. -/
theorem subjectView_iff (S : List Str) (hlen : P.length = O.length)
    (hnames : ∀ x ∈ P ++ O, IsName x) :
    SubjectView (prog.tree fk S P O) P O ↔ P = [] := by
  have hP : ∀ p ∈ P, 0 ∉ p := fun p hp => (hnames p (by simp [hp])).2.1
  have hdirs : ∀ p, prog.tree fk S P O [str "subjects", p] = some .directory ↔ p ∈ P :=
    tree_subjects_iff hlen.le hP
  constructor
  · intro h
    by_contra hne
    obtain ⟨p, P, rfl⟩ := List.exists_cons_of_ne_nil hne
    obtain ⟨o, O, rfl⟩ := List.exists_cons_of_length_pos (l := O) (by
      rw [← hlen, List.length_cons]
      omega)
    have hmem : p ∈ p :: P := List.mem_cons_self ..
    obtain ⟨content, hfile⟩ := (h.files p ((hdirs p).mpr hmem) o).mpr ⟨0, rfl, rfl⟩
    rw [tree_subjects_below hlen.le] at hfile
    cases hfile
  · rintro rfl
    refine ⟨hdirs, fun p hp => ?_⟩
    cases (hdirs p).mp hp

/-- No triple, and one. -/
theorem subjectView_empty_single :
    SubjectView (Program.tree .testfs ⟨.keep, .keep⟩ [] [] []) [] [] ∧
      ¬ SubjectView (Program.tree .testfs ⟨.keep, .keep⟩ [str "s"] [str "p"] [str "o"])
        [str "p"] [str "o"] := by
  have hnames : ∀ x ∈ [str "p"] ++ [str "o"], IsName x := by decide
  have hsingle : SubjectView (Program.tree .testfs ⟨.keep, .keep⟩ [str "s"] [str "p"] [str "o"])
      [str "p"] [str "o"] ↔ [str "p"] = [] := subjectView_iff [str "s"] (by simp) hnames
  exact ⟨(subjectView_iff [] rfl (by simp)).mpr rfl,
    fun h => List.cons_ne_nil _ _ (hsingle.mp h)⟩

/-- One triple is mounted without its object. -/
theorem not_subjectView_single : ¬ ∃ prog fk, SubjectView
    (Program.tree prog fk [str "s"] [str "p"] [str "o"]) [str "p"] [str "o"] := by
  rintro ⟨prog, fk, h⟩
  have hdir : prog.tree fk [str "s"] [str "p"] [str "o"] [str "subjects", str "p"] =
      some .directory := (tree_subjects_iff (by simp) (by decide) _).mpr (by simp)
  obtain ⟨content, hfile⟩ := (h.files _ hdir (str "o")).mpr ⟨0, rfl, rfl⟩
  rw [tree_subjects_below (by simp)] at hfile
  cases hfile

end M3Sec.Vfs
