import M3Sec.Vfs.Mounted

/-! # Looking up a predicate by its path

The text of a predicate is the name of its file, cut at a NUL and not escaped. The path of
the file is read component by component, so a `/` in the name makes it unreachable.
-/

namespace M3Sec.Vfs

open Directories Fallible

variable {fk : Fusekit} {prog : Program} {S P O : List Str} {g : Fs} {skip : Bool} {p n c : Str}

/-- The components of a name or of a path without the `/` in front of it. A lookup may skip
empty components. -/
def components (skip : Bool) (s : Str) : List Str :=
  if skip then (s.splitOn 47).filter (· ≠ []) else s.splitOn 47

def Fs.lookup (g : Fs) (skip : Bool) (path : Str) : Option (View Str) :=
  g.look root (components skip (cstr path).tail)

def predicatePath (p : Str) : Str := str "/predicates/" ++ p

/-- Each predicate is the content of the file at its path, and the paths of two predicates
lead to two files. -/
structure ReachedByPath (lookup : Str → Option (View Str)) (P : List Str) : Prop where
  content : ∀ p ∈ P, lookup (predicatePath p) = some (.file p)
  apart : ∀ p ∈ P, ∀ q ∈ P, p ≠ q → lookup (predicatePath p) ≠ lookup (predicatePath q)

/-- As C strings, the predicates are single components, and different ones. -/
structure Addressable (skip : Bool) (P : List Str) : Prop where
  slashFree : ∀ p ∈ P, 47 ∉ cstr p
  nonempty : skip = true → ∀ p ∈ P, cstr p ≠ []
  injective : ∀ p ∈ P, ∀ q ∈ P, cstr p = cstr q → p = q

/-! ## Components -/

theorem not_mem_of_mem_splitOn {a : UInt8} {s w : Str} (h : w ∈ s.splitOn a) : a ∉ w := by
  by_cases ha : a ∈ s
  · obtain ⟨first, rest, hs, hfirst⟩ := List.eq_append_cons_of_mem ha
    rw [hs, List.splitOn_append_cons_self_of_not_mem hfirst] at h
    rcases List.mem_cons.mp h with rfl | hw
    · exact hfirst
    · exact not_mem_of_mem_splitOn hw
  · rw [List.splitOn_eq_singleton ha] at h
    obtain rfl := List.mem_singleton.mp h
    exact ha
termination_by s.length
decreasing_by
  rw [hs, List.length_append, List.length_cons]
  omega

theorem mem_splitOn_of_mem_components {s w : Str} (h : w ∈ components skip s) :
    w ∈ s.splitOn 47 ∧ (skip = true → w ≠ []) := by
  unfold components at h
  split_ifs at h with hskip
  · obtain ⟨hw, hne⟩ := List.mem_filter.mp h
    exact ⟨hw, fun _ => by simpa using hne⟩
  · exact ⟨h, fun h => absurd h hskip⟩

theorem components_eq_singleton_iff {s : Str} :
    components skip s = [s] ↔ 47 ∉ s ∧ (skip = true → s ≠ []) := by
  constructor
  · rintro h
    obtain ⟨hmem, hne⟩ := mem_splitOn_of_mem_components (h ▸ List.mem_singleton_self s)
    exact ⟨not_mem_of_mem_splitOn hmem, hne⟩
  · rintro ⟨hslash, hne⟩
    unfold components
    rw [List.splitOn_eq_singleton hslash]
    split_ifs with hskip
    · simp [hne hskip]
    · rfl

theorem cstr_predicatePath (p : Str) : cstr (predicatePath p) = str "/predicates/" ++ cstr p := by
  have hnul : cstr (str "/predicates/") = str "/predicates/" := by decide
  unfold predicatePath cstr at *
  rw [List.takeWhile_append, hnul]
  simp

theorem components_predicatePath (skip : Bool) (p : Str) :
    components skip (cstr (predicatePath p)).tail =
      str "predicates" :: components skip (cstr p) := by
  have htail : (cstr (predicatePath p)).tail = str "predicates" ++ 47 :: cstr p := by
    rw [cstr_predicatePath]
    rfl
  have hslash : 47 ∉ str "predicates" := by decide
  have hne : str "predicates" ≠ [] := by decide
  unfold components
  rw [htail, List.splitOn_append_cons_self_of_not_mem hslash]
  split_ifs
  · rw [List.filter_cons_of_pos (by simpa using hne)]
  · rfl

/-! ## The files -/

theorem cstr_of_files (h : files fk P n = some c) : c ∈ P ∧ cstr c = n := by
  induction P using List.reverseRecOn generalizing n c with
  | nil => cases h
  | append_singleton P p ih =>
    by_cases hk : fk.file = .keep ∧ ∃ c, files fk P (cstr p) = some c
    · obtain ⟨hk, c', hc'⟩ := hk
      rw [files_snoc_of_keep hk hc'] at h
      exact ⟨List.mem_append_left _ (ih h).1, (ih h).2⟩
    · rw [files_snoc_of_bind hk, Function.update_apply] at h
      split_ifs at h with hn
      · obtain rfl := Option.some.inj h
        exact ⟨by simp, hn.symm⟩
      · exact ⟨List.mem_append_left _ (ih h).1, (ih h).2⟩

variable (fk) in
theorem exists_files (h : p ∈ P) : ∃ c, files fk P (cstr p) = some c := by
  induction P using List.reverseRecOn with
  | nil => cases h
  | append_singleton P q ih =>
    by_cases hk : fk.file = .keep ∧ ∃ c, files fk P (cstr q) = some c
    · obtain ⟨hk, c, hc⟩ := hk
      rw [files_snoc_of_keep hk hc]
      rcases List.mem_append.mp h with hp | hp
      · exact ih hp
      · obtain rfl := List.mem_singleton.mp hp
        exact ⟨c, hc⟩
    · rw [files_snoc_of_bind hk, Function.update_apply]
      split_ifs with hn
      · exact ⟨q, rfl⟩
      · rcases List.mem_append.mp h with hp | hp
        · exact ih hp
        · obtain rfl := List.mem_singleton.mp hp
          exact absurd rfl hn

/-! ## Lookup -/

theorem lookup_predicatePath (hg : exec (prog.build fk S P O) Fs.fresh = (.ok ⟨⟩, g)) (p : Str) :
    g.lookup skip (predicatePath p) = filesView (files fk P) (components skip (cstr p)) := by
  have hpo : str "predicates" ≠ str "objects" := by decide
  have hps : str "predicates" ≠ str "subjects" := by decide
  unfold Fs.lookup
  rw [components_predicatePath, look_of_build hg]
  simp only [mountedView, hpo, hps, if_false, if_true]

theorem filesView_eq_file_iff {m : Str → Option Str} {path : List Str} :
    filesView m path = some (.file c) ↔ ∃ n, path = [n] ∧ m n = some c := by
  cases path with
  | nil => simp [filesView]
  | cons n path => simp [filesView]

theorem lookup_eq_file_iff (hg : exec (prog.build fk S P O) Fs.fresh = (.ok ⟨⟩, g)) :
    g.lookup skip (predicatePath p) = some (.file p) ↔
      components skip (cstr p) = [cstr p] ∧ files fk P (cstr p) = some p := by
  rw [lookup_predicatePath hg, filesView_eq_file_iff]
  constructor
  · rintro ⟨n, hn, hp⟩
    obtain rfl : cstr p = n := (cstr_of_files hp).2
    exact ⟨hn, hp⟩
  · exact fun ⟨hn, hp⟩ => ⟨_, hn, hp⟩

theorem addressable_of_reachedByPath (hg : exec (prog.build fk S P O) Fs.fresh = (.ok ⟨⟩, g))
    (h : ReachedByPath (g.lookup skip) P) : Addressable skip P := by
  have hfile := fun p hp => (lookup_eq_file_iff hg).mp (h.content p hp)
  have hsingle := fun p hp => components_eq_singleton_iff.mp (hfile p hp).1
  constructor
  · exact fun p hp => (hsingle p hp).1
  · exact fun hskip p hp => (hsingle p hp).2 hskip
  · rintro p hp q hq he
    have hpq : some p = some q := by
      rw [← (hfile p hp).2, he, (hfile q hq).2]
    exact Option.some.inj hpq

theorem reachedByPath_of_addressable (hg : exec (prog.build fk S P O) Fs.fresh = (.ok ⟨⟩, g))
    (h : Addressable skip P) : ReachedByPath (g.lookup skip) P := by
  have hcontent : ∀ p ∈ P, g.lookup skip (predicatePath p) = some (.file p) := by
    rintro p hp
    apply (lookup_eq_file_iff hg).mpr
    obtain ⟨c, hc⟩ := exists_files fk hp
    obtain ⟨hmem, hcp⟩ := cstr_of_files hc
    refine ⟨components_eq_singleton_iff.mpr ⟨h.slashFree p hp, fun hs => h.nonempty hs p hp⟩, ?_⟩
    rw [hc, h.injective c hmem p hp hcp]
  refine ⟨hcontent, ?_⟩
  rintro p hp q hq hne he
  rw [hcontent p hp, hcontent q hq] at he
  exact hne (View.file.inj (Option.some.inj he))

/-- After the builder, the predicates can be looked up by path exactly if their C strings are
different single components. -/
theorem reachedByPath_iff (hg : exec (prog.build fk S P O) Fs.fresh = (.ok ⟨⟩, g)) :
    ReachedByPath (g.lookup skip) P ↔ Addressable skip P :=
  ⟨addressable_of_reachedByPath hg, reachedByPath_of_addressable hg⟩

theorem reachedByPath_small :
    ReachedByPath ((exec (Program.build .sqlite ⟨.keep, .keep⟩ [str "s", str "t"]
      [str "knows", str "."] [str "o", str "o"]) Fs.fresh).2.lookup true) [str "knows", str "."] := by
  obtain ⟨g, hg, -⟩ : ∃ g, exec (Program.build .sqlite ⟨.keep, .keep⟩ [str "s", str "t"]
      [str "knows", str "."] [str "o", str "o"]) Fs.fresh = (.ok ⟨⟩, g) ∧ ∀ path,
        g.look root path = mountedView ⟨.keep, .keep⟩ _ path := build_mounted .sqlite le_rfl
  rw [hg]
  exact (reachedByPath_iff hg).mpr ⟨by decide, by decide, by decide⟩

/-- The URI of a predicate has a `/`. -/
theorem uri_not_reachedByPath :
    ¬ ∀ (prog : Program) (fk : Fusekit) (skip : Bool) (S P O : List Str) (g : Fs),
      exec (prog.build fk S P O) Fs.fresh = (.ok ⟨⟩, g) → ReachedByPath (g.lookup skip) P := by
  intro h
  obtain ⟨g, hg, -⟩ : ∃ g, exec (Program.build .sqlite ⟨.keep, .keep⟩ [str "s"]
      [str "http://m3/knows"] [str "o"]) Fs.fresh = (.ok ⟨⟩, g) ∧ ∀ path,
        g.look root path = mountedView ⟨.keep, .keep⟩ _ path := build_mounted .sqlite le_rfl
  have hslash := (addressable_of_reachedByPath hg (h _ _ true _ _ _ _ hg)).slashFree _
    (List.mem_singleton_self _)
  exact hslash (by decide)

end M3Sec.Vfs
