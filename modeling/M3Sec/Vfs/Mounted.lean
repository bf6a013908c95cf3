import M3Sec.Vfs.Builder

/-! # What the builder mounts

Whatever the subjects and objects are, the tree under the root is the same: an empty
directory for each predicate under `subjects` and under `objects`, and a file for each
predicate under `predicates`. The files named after the objects are in the copies, and
no name leads to a copy.
-/

namespace M3Sec.Vfs

open Directories Directories.Objects Fallible

variable {fk : Fusekit} {g : Fs} {dirs : ℕ → Set Str} {preds : List Str} {copies : List ℕ}
  {d : ℕ} {name content n : Str} {E : Exception → Fs → Prop}

/-! ## The tree as seen from the root -/

/-- The contents of the files that adding `p` for each `p` of the list makes, by name. -/
def bindFile (fk : Fusekit) (m : Str → Option Str) (p : Str) : Str → Option Str :=
  match fk.file, m (cstr p) with
  | .keep, some _ => m
  | _, _ => Function.update m (cstr p) (some p)

def files (fk : Fusekit) (l : List Str) : Str → Option Str :=
  l.foldl (bindFile fk) fun _ => none

theorem files_snoc_of_keep (hk : fk.file = .keep) (hm : files fk preds (cstr name) = some content) :
    files fk (preds ++ [name]) = files fk preds := by
  have hsnoc : files fk (preds ++ [name]) = bindFile fk (files fk preds) name := by simp [files]
  rw [hsnoc, bindFile, hk, hm]

theorem files_snoc_of_bind (h : ¬(fk.file = .keep ∧ ∃ c, files fk preds (cstr name) = some c)) :
    files fk (preds ++ [name]) = Function.update (files fk preds) (cstr name) (some name) := by
  have hsnoc : files fk (preds ++ [name]) = bindFile fk (files fk preds) name := by simp [files]
  rw [hsnoc, bindFile]
  split
  case h_1 content hk hm => exact absurd ⟨hk, content, hm⟩ h
  case h_2 => rfl

/-- Whatever happens to a name that is bound already, a file holds its own name. -/
theorem files_of_nulFree {P : List Str} (hP : ∀ p ∈ P, 0 ∉ p) (n : Str) :
    files fk P n = if n ∈ P then some n else none := by
  induction P using List.reverseRecOn generalizing n with
  | nil => rfl
  | append_singleton P p ih =>
    have hP' : ∀ p ∈ P, 0 ∉ p := fun p hp => hP p (List.mem_append_left _ hp)
    have hp : cstr p = p := cstr_of_nulFree (hP p (by simp))
    by_cases hk : fk.file = .keep ∧ ∃ c, files fk P (cstr p) = some c
    · obtain ⟨hk, c, hc⟩ := hk
      have hmem : p ∈ P := by
        by_contra hmem
        rw [hp, ih hP', if_neg hmem] at hc
        cases hc
      have hiff : n ∈ P ++ [p] ↔ n ∈ P := by
        rw [List.mem_append, List.mem_singleton]
        exact or_iff_left_of_imp fun hn => hn ▸ hmem
      rw [files_snoc_of_keep hk hc, ih hP']
      simp only [hiff]
    · rw [files_snoc_of_bind hk, hp, Function.update_apply, ih hP']
      by_cases hn : n = p <;> simp [hn]

def dirsView (P : List Str) : List Str → Option (View Str)
  | [] => some .directory
  | n :: path => if n ∈ P.map cstr ∧ path = [] then some .directory else none

def filesView (m : Str → Option Str) : List Str → Option (View Str)
  | [] => some .directory
  | n :: path => if path = [] then (m n).map .file else none

def mountedView (fk : Fusekit) (P : List Str) : List Str → Option (View Str)
  | [] => some .directory
  | n :: path =>
    if n = str "objects" then dirsView P path
    else if n = str "subjects" then dirsView P path
    else if n = str "predicates" then filesView (files fk P) path
    else none

/-! ## The directory objects while the tree is built -/

def top : Str → Option (Entry Str) :=
  Function.update (Function.update (Function.update (fun _ => none)
    (str "objects") (some (.directory 1)))
    (str "subjects") (some (.directory 2)))
    (str "predicates") (some (.directory 3))

theorem subjects_ne_objects : str "subjects" ≠ str "objects" := by decide

theorem top_apply (n : Str) : top n =
    if n = str "objects" then some (.directory 1)
    else if n = str "subjects" then some (.directory 2)
    else if n = str "predicates" then some (.directory 3)
    else none := by
  have hos := subjects_ne_objects.symm
  have hop : str "objects" ≠ str "predicates" := by decide
  have hsp : str "subjects" ≠ str "predicates" := by decide
  simp only [top, Function.update_apply]
  grind

/-- Directories for the names `dirs d` are bound in `objects` (1) and `subjects` (2),
all of them empty and none of them a copy; files for `preds` in `predicates` (3). -/
structure Building (fk : Fusekit) (dirs : ℕ → Set Str) (preds : List Str) (copies : List ℕ)
    (g : Fs) : Prop where
  atRoot : g.entries 0 = top
  room : 4 ≤ g.next
  listed : ∀ d ∈ [1, 2], ∀ n ∈ dirs d, ∃ r, g.entries d n = some (.directory r) ∧
    4 ≤ r ∧ r < g.next ∧ r ∉ copies ∧ g.entries r = fun _ => none
  unlisted : ∀ d ∈ [1, 2], ∀ n ∉ dirs d, g.entries d n = none
  filed : ∀ n, g.entries 3 n = (files fk preds n).map .file
  apart : ∀ c ∈ copies, 4 ≤ c ∧ c < g.next

theorem ref_of_mem (hd : d ∈ [1, 2]) : d ≠ 0 ∧ d ≠ 3 ∧ d < 4 := by
  rcases List.mem_pair.mp hd with rfl | rfl <;> simp

/-- Nothing is seen of what happens to copies only. -/
theorem Building.hidden {copies' : List ℕ} {g' : Fs} (h : Building fk dirs preds copies g)
    (hkeep : ∀ r < g.next, r ∉ copies → g'.entries r = g.entries r) (hnext : g.next ≤ g'.next)
    (hcopies : ∀ c ∈ copies', c ∈ copies ∨ g.next ≤ c ∧ c < g'.next) :
    Building fk dirs preds copies' g' := by
  have hroom := h.room
  have hlow : ∀ r < 4, g'.entries r = g.entries r := by
    intro r hr
    refine hkeep r (by omega) fun hc => ?_
    have := h.apart r hc
    omega
  have hd4 : ∀ d ∈ [1, 2], d < 4 := fun d hd => (ref_of_mem hd).2.2
  constructor
  case atRoot =>
    rw [hlow 0 (by omega), h.atRoot]
  case room =>
    exact hroom.trans hnext
  case listed =>
    intro d hd n hn
    obtain ⟨r, he, hr4, hhigh, hr, hempty⟩ := h.listed d hd n hn
    have hr' : r ∉ copies' := by
      intro hr'
      rcases hcopies r hr' with hc | hc
      · exact hr hc
      · omega
    exact ⟨r, by rw [hlow d (hd4 d hd), he], hr4, by omega, hr', by rw [hkeep r hhigh hr, hempty]⟩
  case unlisted =>
    intro d hd n hn
    rw [hlow d (hd4 d hd)]
    exact h.unlisted d hd n hn
  case filed =>
    intro n
    rw [hlow 3 (by omega)]
    exact h.filed n
  case apart =>
    intro c hc
    rcases hcopies c hc with hc | hc
    · have := h.apart c hc
      omega
    · omega

theorem Building.copy (h : Building fk dirs preds copies g) (r : ℕ) :
    Building fk dirs preds (copies ++ [g.next]) (g.create (g.entries r)) := by
  refine h.hidden (fun r' hr' _ => entries_create_of_ne (by omega)) (by simp) fun c hc => ?_
  rcases List.mem_append.mp hc with hc | hc
  · exact .inl hc
  · obtain rfl := List.mem_singleton.mp hc
    exact .inr (by simp)

theorem Building.bind_copy {c : ℕ} {e : Entry Str} (h : Building fk dirs preds copies g)
    (hc : c ∈ copies) : Building fk dirs preds copies (g.bind c n e) := by
  refine h.hidden (fun r _ hr => entries_bind_of_ne ?_) (by simp) fun _ => .inl
  rintro rfl
  exact hr hc

theorem Building.bind_new (h : Building fk dirs preds copies g) (hd : d ∈ [1, 2]) :
    Building fk (Function.update dirs d (insert n (dirs d))) preds copies
      ((g.create fun _ => none).bind d n (.directory g.next)) := by
  have hroom := h.room
  have hd4 := ref_of_mem hd
  have hself : ((g.create fun _ => none).bind d n (.directory g.next)).entries d =
      Function.update (g.entries d) n (some (.directory g.next)) := by
    rw [entries_bind_self, entries_create_of_ne (by omega)]
  have hother : ∀ r ≠ d, r ≠ g.next →
      ((g.create fun _ => none).bind d n (.directory g.next)).entries r = g.entries r := by
    intro r hrd hrn
    rw [entries_bind_of_ne hrd, entries_create_of_ne hrn]
  have hnew : ((g.create fun _ => none).bind d n (.directory g.next)).entries g.next =
      fun _ => none := by
    rw [entries_bind_of_ne (by omega), entries_create_self]
  have hold : ∀ d' ∈ [1, 2], ∀ n' ∈ dirs d', ∃ r, g.entries d' n' = some (.directory r) ∧
      4 ≤ r ∧ r < g.next + 1 ∧ r ∉ copies ∧
      ((g.create fun _ => none).bind d n (.directory g.next)).entries r = fun _ => none := by
    intro d' hd' n' hn'
    obtain ⟨r, he, hlow, hhigh, hc, hempty⟩ := h.listed d' hd' n' hn'
    exact ⟨r, he, hlow, by omega, hc, by rw [hother r (by omega) (by omega), hempty]⟩
  constructor
  case atRoot =>
    rw [hother 0 (by omega) (by omega), h.atRoot]
  case room =>
    exact hroom.trans (Nat.le_succ _)
  case listed =>
    intro d' hd' n' hn'
    by_cases hdd : d' = d
    · subst hdd
      rw [hself]
      by_cases hnn : n' = n
      · subst hnn
        exact ⟨g.next, by simp, hroom, by simp, fun hc => by have := (h.apart _ hc).2; omega, hnew⟩
      · have hn'' : n' ∈ dirs d' := by simpa [hnn] using hn'
        rw [Function.update_of_ne hnn]
        exact hold d' hd' n' hn''
    · rw [Function.update_of_ne hdd] at hn'
      have hd'4 := ref_of_mem hd'
      rw [hother d' hdd (by omega)]
      exact hold d' hd' n' hn'
  case unlisted =>
    intro d' hd' n' hn'
    by_cases hdd : d' = d
    · subst hdd
      obtain ⟨hnn, hn''⟩ : n' ≠ n ∧ n' ∉ dirs d' := by simpa using hn'
      rw [hself, Function.update_of_ne hnn]
      exact h.unlisted d' hd' n' hn''
    · rw [Function.update_of_ne hdd] at hn'
      have hd'4 := ref_of_mem hd'
      rw [hother d' hdd (by omega)]
      exact h.unlisted d' hd' n' hn'
  case filed =>
    intro n'
    rw [hother 3 (by omega) (by omega)]
    exact h.filed n'
  case apart =>
    intro c hc
    obtain ⟨hlow, hhigh⟩ := h.apart c hc
    exact ⟨hlow, hhigh.trans (Nat.lt_succ_self _)⟩

theorem Building.refile {preds' : List Str} {g' : Fs} (h : Building fk dirs preds copies g)
    (hkeep : ∀ r ≠ 3, g'.entries r = g.entries r) (hnext : g'.next = g.next)
    (hfiled : ∀ n, g'.entries 3 n = (files fk preds' n).map .file) :
    Building fk dirs preds' copies g' := by
  constructor
  case atRoot => rw [hkeep 0 (by omega), h.atRoot]
  case room => exact hnext ▸ h.room
  case listed =>
    intro d hd n hn
    have hd3 : d ≠ 3 := (ref_of_mem hd).2.1
    obtain ⟨r, he, hr4, hhigh, hr, hempty⟩ := h.listed d hd n hn
    exact ⟨r, by rw [hkeep d hd3, he], hr4, hnext ▸ hhigh, hr, by rw [hkeep r (by omega), hempty]⟩
  case unlisted =>
    intro d hd n hn
    have hd3 : d ≠ 3 := (ref_of_mem hd).2.1
    rw [hkeep d hd3]
    exact h.unlisted d hd n hn
  case filed => exact hfiled
  case apart => exact hnext ▸ h.apart

/-! ## The operations -/

theorem addDirectory_cases (fk : Fusekit) (g : Fs) (d : ℕ) (name : Str) :
    (∃ r, g.entries d (cstr name) = some (.directory r) ∧
      exec (addDirectory fk d name) g = (.ok r, g)) ∨
    exec (addDirectory fk d name) g =
      (.ok g.next, (g.create fun _ => none).bind d (cstr name) (.directory g.next)) := by
  unfold addDirectory
  rw [exec_bind, exec_get]
  dsimp only
  split
  case h_1 r _ he => exact .inl ⟨r, he, rfl⟩
  case h_2 => exact .inr rfl

theorem addFile_cases (fk : Fusekit) (g : Fs) (d : ℕ) (name content : Str) :
    (fk.file = .keep ∧ (∃ e, g.entries d (cstr name) = some e) ∧
      exec (addFile fk d name content) g = (.ok ⟨⟩, g)) ∨
    (¬(fk.file = .keep ∧ ∃ e, g.entries d (cstr name) = some e) ∧
      exec (addFile fk d name content) g = (.ok ⟨⟩, g.bind d (cstr name) (.file content))) := by
  unfold addFile
  rw [exec_bind, exec_get]
  dsimp only
  split
  case h_1 e hk he => exact .inl ⟨hk, ⟨e, he⟩, rfl⟩
  case h_2 hne => exact .inr ⟨fun ⟨hk, e, he⟩ => hne e hk he, rfl⟩

theorem addDirectory_ensures (hd : d ∈ [1, 2]) :
    Ensures (Building fk dirs preds copies) (addDirectory fk d name)
      (fun _ => Building fk (Function.update dirs d (insert (cstr name) (dirs d))) preds copies)
      E := by
  intro g h
  rcases addDirectory_cases fk g d name with ⟨r, he, hx⟩ | hx
  · have hn : cstr name ∈ dirs d := by
      by_contra hn
      rw [h.unlisted d hd _ hn] at he
      cases he
    rw [hx, Set.insert_eq_of_mem hn, Function.update_eq_self]
    exact h
  · rw [hx]
    exact h.bind_new hd

theorem copyDirectory_ensures (r : ℕ) :
    Ensures (Building fk dirs preds copies) (copyDirectory r)
      (fun c => Building fk dirs preds (copies ++ [c])) E :=
  fun _ h => h.copy r

theorem addFile_copy_ensures {c : ℕ} (hc : c ∈ copies) :
    Ensures (Building fk dirs preds copies) (addFile fk c name content)
      (fun _ => Building fk dirs preds copies) E := by
  intro g h
  rcases addFile_cases fk g c name content with ⟨-, -, hx⟩ | ⟨-, hx⟩
  · rw [hx]
    exact h
  · rw [hx]
    exact h.bind_copy hc

theorem addFile_predicates_ensures :
    Ensures (Building fk dirs preds copies) (addFile fk 3 name name)
      (fun _ => Building fk dirs (preds ++ [name]) copies) E := by
  intro g h
  have hfile : (∃ e, g.entries 3 (cstr name) = some e) ↔
      ∃ c, files fk preds (cstr name) = some c := by
    simp [h.filed]
  rcases addFile_cases fk g 3 name name with ⟨hk, he, hx⟩ | ⟨hne, hx⟩
  · obtain ⟨c, hc⟩ := hfile.mp he
    rw [hx]
    refine h.refile (fun _ _ => rfl) rfl fun n => ?_
    rw [files_snoc_of_keep hk hc, h.filed]
  · rw [hfile] at hne
    rw [hx]
    refine h.refile (fun _ hr => entries_bind_of_ne hr) rfl fun n => ?_
    rw [files_snoc_of_bind hne, entries_bind_self, Function.update_apply, Function.update_apply,
      h.filed]
    split <;> rfl

/-! ## The builder returns -/

theorem addDirectory_returns : Returns (addDirectory fk d name) fun _ => True := by
  intro g
  rcases addDirectory_cases fk g d name with ⟨r, -, hx⟩ | hx <;> exact ⟨_, _, hx, trivial⟩

theorem addFile_returns : Returns (addFile fk d name content) fun _ => True := by
  intro g
  rcases addFile_cases fk g d name content with ⟨-, -, hx⟩ | ⟨-, hx⟩ <;> exact ⟨_, _, hx, trivial⟩

theorem copyDirectory_returns : Returns (copyDirectory d) fun _ => True :=
  fun _ => ⟨_, _, rfl, trivial⟩

theorem toInt_le (size : ℕ) : toInt size ≤ size := by
  have hmod : (size : ℤ) % (2 ^ 32 : ℕ) ≤ size := by exact_mod_cast Nat.mod_le size (2 ^ 32)
  unfold toInt
  rw [Int.bmod_eq_emod]
  split <;> omega

theorem Program.count_le (prog : Program) (size : ℕ) : prog.count size ≤ size := by
  cases prog with
  | sqlite => exact le_rfl
  | testfs => exact le_rfl
  | bdbVfs =>
    change (toInt size).toNat ≤ size
    exact Int.toNat_le.mpr (toInt_le size)

theorem build_returns {subj pred obj : List Str} (prog : Program) (h : pred.length ≤ obj.length) :
    Returns (prog.build fk subj pred obj) fun _ => True := by
  refine addDirectory_returns.bind fun objects_dir _ => addDirectory_returns.bind
    fun subjects_dir _ => addDirectory_returns.bind fun predicates_dir _ =>
    (Returns.mapM fun p _ => ?copied).bind fun predicates_dirs hdirs =>
    (Returns.forM fun i hi => ?filled).bind fun _ _ =>
    (Returns.forM fun p _ => addFile_returns).bind fun _ _ =>
    Returns.forM fun p _ => addDirectory_returns.bind fun _ _ => .pure trivial
  case copied =>
    exact addDirectory_returns.bind fun _ _ => addDirectory_returns.bind fun _ _ =>
      copyDirectory_returns
  case filled =>
    have hcount := prog.count_le predicates_dirs.length
    have hi := List.mem_range.mp hi
    rw [at'_eq_pure (List.getElem?_eq_getElem (by omega : i < predicates_dirs.length)),
      at'_eq_pure (List.getElem?_eq_getElem (by omega : i < obj.length)), pure_bind, pure_bind]
    exact addFile_returns

/-! ## What is mounted -/

def listed (objects subjects : List Str) (d : ℕ) : Set Str :=
  if d = 1 then {n | n ∈ objects.map cstr}
  else if d = 2 then {n | n ∈ subjects.map cstr}
  else ∅

theorem listed_object (objects subjects : List Str) (p : Str) :
    Function.update (listed objects subjects) 1 (insert (cstr p) (listed objects subjects 1)) =
      listed (objects ++ [p]) subjects := by
  ext d n
  by_cases hd : d = 1
  · subst hd
    simp [listed, or_comm]
  · simp [listed, hd]

theorem listed_subject (objects subjects : List Str) (p : Str) :
    Function.update (listed objects subjects) 2 (insert (cstr p) (listed objects subjects 2)) =
      listed objects (subjects ++ [p]) := by
  ext d n
  by_cases hd : d = 2
  · subst hd
    simp [listed, or_comm]
  · simp [listed, hd]

theorem look_listed (h : Building fk dirs preds copies g) (hd : d ∈ [1, 2]) {P : List Str}
    (hP : dirs d = {n | n ∈ P.map cstr}) (path : List Str) : g.look d path = dirsView P path := by
  cases path with
  | nil => rfl
  | cons n path =>
    by_cases hn : n ∈ dirs d
    · obtain ⟨r, he, -, -, -, hempty⟩ := h.listed d hd n hn
      have hn' : n ∈ P.map cstr := by rwa [hP] at hn
      rw [look_of_directory he, look_of_empty hempty]
      simp only [dirsView, hn', true_and]
    · have hn' : n ∉ P.map cstr := by rwa [hP] at hn
      rw [look_of_none (h.unlisted d hd n hn)]
      simp only [dirsView, hn', false_and, if_false]

theorem look_predicates (h : Building fk dirs preds copies g) (path : List Str) :
    g.look 3 path = filesView (files fk preds) path := by
  cases path with
  | nil => rfl
  | cons n path =>
    have he := h.filed n
    cases hm : files fk preds n with
    | none =>
      rw [look_of_none (by rw [he, hm]; rfl)]
      simp [filesView, hm]
    | some content =>
      rw [look_of_file (by rw [he, hm]; rfl)]
      simp [filesView, hm]

theorem look_root {P : List Str} (h : Building fk (listed P P) P copies g)
    (path : List Str) : g.look root path = mountedView fk P path := by
  cases path with
  | nil => rfl
  | cons n path =>
    have htop : g.entries root n = top n := congrFun h.atRoot n
    simp only [mountedView]
    split_ifs with hobj hsub hpred
    · rw [look_of_directory (by rw [htop, top_apply, if_pos hobj]), look_listed h (by simp) rfl]
    · rw [look_of_directory (by rw [htop, top_apply, if_neg hobj, if_pos hsub]),
        look_listed h (by simp) rfl]
    · rw [look_of_directory (by rw [htop, top_apply, if_neg hobj, if_neg hsub, if_pos hpred]),
        look_predicates h]
    · rw [look_of_none (by rw [htop, top_apply, if_neg hobj, if_neg hsub, if_neg hpred])]

theorem exec_addDirectory_root (h : g.entries root (cstr name) = none) :
    exec (addDirectory fk root name) g =
      (.ok g.next, (g.create fun _ => none).bind root (cstr name) (.directory g.next)) := by
  rcases addDirectory_cases fk g root name with ⟨r, he, -⟩ | hx
  · rw [h] at he
    cases he
  · exact hx

theorem building_top (h : g.entries = fun r => if r = 0 then top else fun _ => none)
    (hnext : g.next = 4) : Building fk (listed [] []) [] [] g := by
  constructor
  case atRoot => simp [h]
  case room => exact hnext.ge
  case listed =>
    intro d hd n hn
    rcases List.mem_pair.mp hd with rfl | rfl <;> simp [listed] at hn
  case unlisted =>
    intro d hd n _
    rcases List.mem_pair.mp hd with rfl | rfl <;> simp [h]
  case filed =>
    intro n
    simp [h, files]
  case apart => simp

theorem exec_buildVfs_fresh (count : ℕ → ℕ) (fk : Fusekit) (pred obj : List Str) :
    ∃ g, Building fk (listed [] []) [] [] g ∧
      exec (buildVfs count fk pred obj) Fs.fresh = exec (fillVfs count fk pred obj 1 2 3) g := by
  unfold buildVfs
  refine ⟨_, ?_, by rw [exec_bind_ok (exec_addDirectory_root rfl),
    exec_bind_ok (exec_addDirectory_root (by decide)),
    exec_bind_ok (exec_addDirectory_root (by decide))]; rfl⟩
  refine building_top ?_ rfl
  funext r
  match r with
  | 0 => rfl
  | 1 => rfl
  | 2 => rfl
  | 3 => rfl
  | r + 4 => rfl

theorem at'_ensures {α : Type} {P : Fs → Prop} {v : List α} {i : ℕ} :
    Ensures P (at' v i) (fun a g => P g ∧ a ∈ v) fun _ _ => True := by
  intro g hg
  unfold at'
  cases ha : v[i]? with
  | none => trivial
  | some a => exact ⟨hg, List.mem_of_getElem? ha⟩

theorem predicates_dirs_ensures {pred : List Str} :
    Ensures (Building fk (listed [] []) [] []) (pred.mapM fun it => do
        let _ ← addDirectory fk 2 it
        let dir ← addDirectory fk 2 it
        copyDirectory dir)
      (fun copies => Building fk (listed [] pred) [] copies) E := by
  refine Ensures.mapM (I := fun pre copies => Building fk (listed [] pre) [] copies)
    fun pre p copies _ => ?_
  refine (addDirectory_ensures (by simp)).bind fun _ => ?_
  refine (addDirectory_ensures (by simp)).bind fun dir => ?_
  refine (copyDirectory_ensures dir).weaken (fun g h => ?_) (fun _ _ => id) (fun _ _ => id)
  rwa [Function.update_idem, Function.update_self, Set.insert_idem, listed_subject] at h

theorem fill_ensures {obj : List Str} (is : List ℕ) :
    Ensures (Building fk dirs preds copies) (is.forM fun i => do
        let dir ← at' copies i
        let name ← at' obj i
        addFile fk dir name name)
      (fun _ => Building fk dirs preds copies) fun _ _ => True := by
  refine Ensures.forM (I := fun _ => Building fk dirs preds copies) fun _ i _ => ?_
  refine at'_ensures.bind fun c => at'_ensures.bind fun o => ?_
  intro g ⟨⟨h, hc⟩, _⟩
  exact addFile_copy_ensures hc g h

theorem predicates_files_ensures {pred : List Str} :
    Ensures (Building fk dirs [] copies) (pred.forM fun it => addFile fk 3 it it)
      (fun _ => Building fk dirs pred copies) E :=
  Ensures.forM (I := fun pre => Building fk dirs pre copies) fun _ _ _ => addFile_predicates_ensures

theorem objects_dirs_ensures {pred subj : List Str} :
    Ensures (Building fk (listed [] subj) preds copies) (pred.forM fun it => do
        let _ ← addDirectory fk 1 it)
      (fun _ => Building fk (listed pred subj) preds copies) E := by
  refine Ensures.forM (I := fun pre => Building fk (listed pre subj) preds copies)
    fun pre p _ => ?_
  refine (addDirectory_ensures (by simp)).bind fun _ => .pure fun g h => ?_
  rwa [listed_object] at h

theorem fillVfs_ensures (count : ℕ → ℕ) (pred obj : List Str) :
    Ensures (Building fk (listed [] []) [] []) (fillVfs count fk pred obj 1 2 3)
      (fun _ g => ∃ copies, Building fk (listed pred pred) pred copies g) fun _ _ => True := by
  refine predicates_dirs_ensures.bind fun copies => ?_
  refine (fill_ensures _).bind fun _ => predicates_files_ensures.bind fun _ => ?_
  exact objects_dirs_ensures.weaken (fun _ => id) (fun _ _ h => ⟨copies, h⟩) fun _ _ => id

theorem look_of_build {subj pred obj : List Str} {prog : Program}
    (hg : exec (prog.build fk subj pred obj) Fs.fresh = (.ok ⟨⟩, g)) (path : List Str) :
    g.look root path = mountedView fk pred path := by
  obtain ⟨g₀, hg₀, htop⟩ := exec_buildVfs_fresh prog.count fk pred obj
  obtain ⟨copies, hbuilt⟩ := (fillVfs_ensures prog.count pred obj).ok hg₀ (htop ▸ hg)
  exact look_root hbuilt path

/-- From a fresh daemon the builder makes the tree for the predicates. -/
theorem build_mounted {subj pred obj : List Str} (prog : Program) (h : pred.length ≤ obj.length) :
    ∃ g, exec (prog.build fk subj pred obj) Fs.fresh = (.ok ⟨⟩, g) ∧
      ∀ path, g.look root path = mountedView fk pred path := by
  obtain ⟨⟨⟩, g, hg, -⟩ := build_returns prog h Fs.fresh
  exact ⟨g, hg, look_of_build hg⟩

end M3Sec.Vfs
