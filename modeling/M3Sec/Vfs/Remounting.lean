import Mathlib.Logic.Equiv.Basic
import M3Sec.Library.Renamings
import M3Sec.Vfs.Trees

/-! # Building a second time

`bdb_vfs` may build on a daemon that it has filled before. Where fusekit keeps the entry of
a name that is bound already, the old directories are filled further. Where it replaces it,
new directories are filled, which differ from those of a fresh daemon in their references
only.
-/

namespace M3Sec.Vfs

open Directories Directories.Objects Fallible

variable {fk : Fusekit} {f : Equiv.Perm ℕ} {g h : Fs} {d : ℕ} {name content : Str}

/-! ## The builder under a renaming -/

/-- The objects are the same, with `f r` called `r`; the references to come are kept. -/
def Renames (f : Equiv.Perm ℕ) (g h : Fs) : Prop :=
  g = h.renamed f ∧ ∀ r, h.next ≤ r → f r = r

theorem exec_addDirectory_kept {r : ℕ} (hk : fk.directory = .keep)
    (he : g.entries d (cstr name) = some (.directory r)) :
    exec (addDirectory fk d name) g = (.ok r, g) := by
  unfold addDirectory
  rw [exec_bind, exec_get]
  simp only [hk, he]
  rfl

theorem exec_addDirectory_new
    (hne : ¬(fk.directory = .keep ∧ ∃ r, g.entries d (cstr name) = some (.directory r))) :
    exec (addDirectory fk d name) g =
      (.ok g.next, (g.create fun _ => none).bind d (cstr name) (.directory g.next)) := by
  unfold addDirectory
  rw [exec_bind, exec_get]
  dsimp only
  split
  case h_1 r hk he => exact absurd ⟨hk, r, he⟩ hne
  case h_2 => rfl

theorem Renames.create (hR : Renames f g h) (m : Str → Option (Entry Str)) :
    Renames f (g.create fun n => (m n).map (Entry.rename f.symm)) (h.create m) := by
  obtain ⟨rfl, hf⟩ := hR
  exact ⟨(renamed_create (hf _ le_rfl)).symm, fun r hr => hf r (Nat.le_of_succ_le hr)⟩

theorem Renames.bind (hR : Renames f g h) (d : ℕ) (n : Str) (e : Entry Str) :
    Renames f (g.bind d n (e.rename f.symm)) (h.bind (f d) n e) := by
  obtain ⟨rfl, hf⟩ := hR
  exact ⟨renamed_bind.symm, hf⟩

theorem Renames.directory_iff (hR : Renames f g h) {n : Str} :
    (∃ r, g.entries d n = some (.directory r)) ↔ ∃ r, h.entries (f d) n = some (.directory r) := by
  obtain ⟨rfl, -⟩ := hR
  rcases he : h.entries (f d) n with _ | content | r <;> simp [renamed, he, Entry.rename]

theorem addDirectory_couples (d : ℕ) (name : Str) : Couples (Renames f) (addDirectory fk d name)
    (addDirectory fk (f d) name) fun r r' => r' = f r := by
  intro g h hR
  have hiff := hR.directory_iff (d := d) (n := cstr name)
  by_cases hk : fk.directory = .keep ∧ ∃ r, h.entries (f d) (cstr name) = some (.directory r)
  · obtain ⟨hk, r', hr'⟩ := hk
    obtain ⟨r, hr⟩ := hiff.mpr ⟨r', hr'⟩
    have hrr : r' = f r := by
      obtain ⟨rfl, -⟩ := hR
      simpa [renamed, hr', Entry.rename, Equiv.symm_apply_eq] using hr
    rw [exec_addDirectory_kept hk hr, exec_addDirectory_kept hk hr']
    exact ⟨hR, hrr⟩
  · have hnext : g.next = h.next := by
      obtain ⟨rfl, -⟩ := hR
      rfl
    have hfix : f h.next = h.next := hR.2 _ le_rfl
    have hk' : ¬(fk.directory = .keep ∧ ∃ r, g.entries d (cstr name) = some (.directory r)) := by
      rwa [hiff]
    rw [exec_addDirectory_new hk', exec_addDirectory_new hk, hnext]
    refine ⟨?_, hfix.symm⟩
    have hbound := (hR.create fun _ => none).bind d (cstr name) (.directory h.next)
    rwa [Entry.rename, f.symm_apply_eq.mpr hfix.symm] at hbound

theorem addFile_couples (d : ℕ) (name content : Str) : Couples (Renames f)
    (addFile fk d name content) (addFile fk (f d) name content) fun _ _ => True := by
  intro g h hR
  have hiff : (∃ e, g.entries d (cstr name) = some e) ↔
      ∃ e, h.entries (f d) (cstr name) = some e := by
    obtain ⟨rfl, -⟩ := hR
    simp [renamed]
  rcases addFile_cases fk g d name content with ⟨hk, he, hx⟩ | ⟨hne, hx⟩ <;>
    rcases addFile_cases fk h (f d) name content with ⟨hk', he', hy⟩ | ⟨hne', hy⟩
  · rw [hx, hy]
    exact ⟨hR, trivial⟩
  · exact absurd ⟨hk, hiff.mp he⟩ hne'
  · exact absurd ⟨hk', hiff.mpr he'⟩ hne
  · rw [hx, hy]
    exact ⟨hR.bind d (cstr name) (.file content), trivial⟩

theorem copyDirectory_couples (d : ℕ) : Couples (Renames f) (copyDirectory d)
    (copyDirectory (f d)) fun r r' => r' = f r := by
  intro g h hR
  have hcreate := hR.create (h.entries (f d))
  obtain ⟨rfl, hf⟩ := hR
  exact ⟨hcreate, (hf h.next le_rfl).symm⟩

theorem at'_couples {α β : Type} {Q : α → β → Prop} {v : List α} {w : List β}
    (h : List.Forall₂ Q v w) (i : ℕ) : Couples (Renames f) (at' v i) (at' w i) Q := by
  unfold at'
  induction h generalizing i with
  | nil => exact .throw _
  | cons hab _ ih =>
    cases i with
    | zero => exact .pure hab
    | succ i => simpa using ih i

theorem fillVfs_couples (count : ℕ → ℕ) (pred obj : List Str) (o s p : ℕ) :
    Couples (Renames f) (fillVfs count fk pred obj o s p)
      (fillVfs count fk pred obj (f o) (f s) (f p)) fun _ _ => True := by
  refine (Couples.mapM (S := fun r r' => r' = f r) fun it _ => ?_).bind fun dirs dirs' hdirs => ?_
  · refine (addDirectory_couples s it).bind fun _ _ _ => ?_
    refine (addDirectory_couples s it).bind ?_
    rintro dir _ rfl
    exact copyDirectory_couples dir
  · rw [← hdirs.length_eq]
    refine (Couples.forM fun i _ => ?_).bind fun _ _ _ => ?_
    · refine (at'_couples hdirs i).bind ?_
      rintro dir _ rfl
      refine (at'_couples (List.forall₂_same.mpr fun name _ => (rfl : name = name)) i).bind ?_
      rintro name _ rfl
      exact addFile_couples dir name name
    · refine (Couples.forM fun it _ => addFile_couples p it it).bind fun _ _ _ => ?_
      exact Couples.forM fun it _ => (addDirectory_couples o it).bind fun _ _ _ => .pure trivial

/-! ## On the directories of the last build -/

section Keep

variable {P pred obj : List Str} {copies : List ℕ}

theorem Building.forget {dirs : ℕ → Set Str} (h : Building fk dirs P copies g) :
    Building fk dirs P [] g :=
  h.hidden (fun _ _ _ => rfl) le_rfl fun _ hc => absurd hc List.not_mem_nil

theorem fillVfs_again_ensures (count : ℕ → ℕ) (pred obj : List Str) :
    Ensures (Building fk (listed P P) P []) (fillVfs count fk pred obj 1 2 3)
      (fun _ g => ∃ copies, Building fk (listed (P ++ pred) (P ++ pred)) (P ++ pred) copies g)
      fun _ _ => True := by
  have hdirs : Ensures (Building fk (listed P P) P []) (pred.mapM fun it => do
        let _ ← addDirectory fk 2 it
        let dir ← addDirectory fk 2 it
        copyDirectory dir)
      (fun copies => Building fk (listed P (P ++ pred)) P copies) fun _ _ => True := by
    refine (Ensures.mapM (I := fun pre copies => Building fk (listed P (P ++ pre)) P copies)
      fun pre p copies _ => ?_).weaken (fun _ h => by simpa using h) (fun _ _ => id) fun _ _ => id
    refine (addDirectory_ensures (by simp)).bind fun _ => ?_
    refine (addDirectory_ensures (by simp)).bind fun dir => ?_
    refine (copyDirectory_ensures dir).weaken (fun g h => ?_) (fun _ _ => id) fun _ _ => id
    rwa [Function.update_idem, Function.update_self, Set.insert_idem, listed_subject,
      List.append_assoc] at h
  refine hdirs.bind fun copies => (fill_ensures _).bind fun _ => Ensures.bind (Q :=
    fun _ => Building fk (listed P (P ++ pred)) (P ++ pred) copies) ?_ fun _ => ?_
  · exact (Ensures.forM (I := fun pre => Building fk (listed P (P ++ pred)) (P ++ pre) copies)
      fun pre p _ => addFile_predicates_ensures.weaken (fun _ => id)
        (fun _ _ h => by rwa [List.append_assoc] at h) fun _ _ => id).weaken
      (fun _ h => by simpa using h) (fun _ _ => id) fun _ _ => id
  · refine (Ensures.forM (I := fun pre =>
      Building fk (listed (P ++ pre) (P ++ pred)) (P ++ pred) copies) fun pre p _ => ?_).weaken
      (fun _ h => by simpa using h) (fun _ _ h => ⟨copies, h⟩) fun _ _ => id
    refine (addDirectory_ensures (by simp)).bind fun _ => .pure fun g h => ?_
    rwa [listed_object, List.append_assoc] at h

theorem exec_buildVfs_kept {dirs : ℕ → Set Str} (count : ℕ → ℕ) (hk : fk.directory = .keep)
    (h : Building fk dirs P copies g) :
    exec (buildVfs count fk pred obj) g = exec (fillVfs count fk pred obj 1 2 3) g := by
  have htop : ∀ n, g.entries root n = top n := congrFun h.atRoot
  have hnul : ∀ n ∈ [str "objects", str "subjects", str "predicates"], cstr n = n := by decide
  have hat : ∀ n ∈ [str "objects", str "subjects", str "predicates"], ∀ r,
      top n = some (.directory r) → exec (addDirectory fk root n) g = (.ok r, g) := by
    intro n hn r hr
    exact exec_addDirectory_kept hk (by rw [hnul n hn, htop, hr])
  unfold buildVfs
  rw [exec_bind_ok (hat _ (by simp) 1 rfl), exec_bind_ok (hat _ (by simp) 2 rfl),
    exec_bind_ok (hat _ (by simp) 3 rfl)]

end Keep

/-! ## On new directories -/

section Replace

variable {P pred obj : List Str}

/-- The renaming under which three new directories are those of a fresh daemon. -/
def shift (k : ℕ) : Equiv.Perm ℕ :=
  (Equiv.swap 3 (k + 2)).trans ((Equiv.swap 2 (k + 1)).trans (Equiv.swap 1 k))

theorem shift_first {k : ℕ} (hk : 4 ≤ k) :
    shift k 0 = 0 ∧ shift k 1 = k ∧ shift k 2 = k + 1 ∧ shift k 3 = k + 2 := by
  simp only [shift, Equiv.trans_apply, Equiv.swap_apply_def]
  refine ⟨?_, ?_, ?_, ?_⟩ <;> split_ifs <;> omega

theorem shift_of_le {k r : ℕ} (hk : 4 ≤ k) (hr : k + 3 ≤ r) : shift k r = r := by
  simp only [shift, Equiv.trans_apply, Equiv.swap_apply_def]
  split_ifs <;> omega

def Fs.addTop (g : Fs) (name : Str) : Fs :=
  (g.create fun _ => none).bind root name (.directory g.next)

@[simp] theorem Fs.next_addTop : (g.addTop name).next = g.next + 1 := rfl

theorem Fs.entries_addTop_root (hroom : 0 < g.next) : (g.addTop name).entries root =
    Function.update (g.entries root) name (some (.directory g.next)) := by
  have hne : root ≠ g.next := hroom.ne
  rw [addTop, entries_bind_self, entries_create_of_ne hne]

theorem Fs.entries_addTop_new (hroom : 0 < g.next) :
    (g.addTop name).entries g.next = fun _ => none := by
  have hne : g.next ≠ root := hroom.ne'
  rw [addTop, entries_bind_of_ne hne, entries_create_self]

theorem Fs.entries_addTop_of_ne {r : ℕ} (hr : r ≠ root) (hn : r ≠ g.next) :
    (g.addTop name).entries r = g.entries r := by
  rw [addTop, entries_bind_of_ne hr, entries_create_of_ne hn]

theorem exec_addTop (hk : fk.directory = .replace) (hname : cstr name = name) :
    exec (addDirectory fk root name) g = (.ok g.next, g.addTop name) := by
  rw [exec_addDirectory_new (by simp [hk]), hname]
  rfl

def Fs.renewed (g : Fs) : Fs :=
  ((g.addTop (str "objects")).addTop (str "subjects")).addTop (str "predicates")

theorem exec_buildVfs_replaced (count : ℕ → ℕ) (hk : fk.directory = .replace) :
    exec (buildVfs count fk pred obj) g =
      exec (fillVfs count fk pred obj g.next (g.next + 1) (g.next + 2)) g.renewed := by
  unfold buildVfs
  rw [exec_bind_ok (exec_addTop hk (by decide)), exec_bind_ok (exec_addTop hk (by decide)),
    exec_bind_ok (exec_addTop hk (by decide))]
  rfl

theorem entries_renewed_root (hroom : 4 ≤ g.next) (n : Str) : g.renewed.entries root n =
    if n = str "objects" then some (.directory g.next)
    else if n = str "subjects" then some (.directory (g.next + 1))
    else if n = str "predicates" then some (.directory (g.next + 2))
    else g.entries root n := by
  have hos := subjects_ne_objects.symm
  have hop : str "objects" ≠ str "predicates" := by decide
  have hsp : str "subjects" ≠ str "predicates" := by decide
  unfold Fs.renewed
  rw [Fs.entries_addTop_root (by simp), Fs.entries_addTop_root (by simp),
    Fs.entries_addTop_root (by omega)]
  simp only [Function.update_apply, Fs.next_addTop]
  grind

theorem entries_renewed_new (hroom : 4 ≤ g.next) {r : ℕ} (hr : g.next ≤ r) (hlt : r < g.next + 3) :
    g.renewed.entries r = fun _ => none := by
  have hroot : r ≠ root := by
    unfold root
    omega
  unfold Fs.renewed
  obtain rfl | rfl | rfl : r = g.next ∨ r = g.next + 1 ∨ r = g.next + 2 := by omega
  · rw [Fs.entries_addTop_of_ne hroot (by simp; omega),
      Fs.entries_addTop_of_ne hroot (by simp), Fs.entries_addTop_new (by omega)]
  · rw [Fs.entries_addTop_of_ne hroot (by simp)]
    exact Fs.entries_addTop_new (by simp)
  · exact Fs.entries_addTop_new (by simp)

theorem building_renewed (hroom : 4 ≤ g.next)
    (honly : ∀ n, top n = none → g.entries root n = none) :
    Building fk (listed [] []) [] [] (g.renewed.renamed (shift g.next)) := by
  obtain ⟨h0, h1, h2, h3⟩ := shift_first hroom
  have hempty : ∀ r, g.next ≤ shift g.next r → shift g.next r < g.next + 3 →
      (g.renewed.renamed (shift g.next)).entries r = fun _ => none := by
    intro r hle hlt
    ext n : 1
    simp [renamed, entries_renewed_new hroom hle hlt]
  have htwo : ∀ d ∈ [1, 2], (g.renewed.renamed (shift g.next)).entries d = fun _ => none := by
    intro d hd
    rcases List.mem_pair.mp hd with rfl | rfl <;> exact hempty _ (by omega) (by omega)
  constructor
  case atRoot =>
    ext n : 1
    have hroot : shift g.next root = root := h0
    have hobj : (shift g.next).symm g.next = 1 := (Equiv.symm_apply_eq _).mpr h1.symm
    have hsub : (shift g.next).symm (g.next + 1) = 2 := (Equiv.symm_apply_eq _).mpr h2.symm
    have hpred : (shift g.next).symm (g.next + 2) = 3 := (Equiv.symm_apply_eq _).mpr h3.symm
    change (g.renewed.entries (shift g.next root) n).map _ = top n
    rw [hroot, entries_renewed_root hroom]
    have htop := honly n
    rw [top_apply] at htop ⊢
    split_ifs at htop ⊢ with ho hs hp
    · simp [Entry.rename, hobj]
    · simp [Entry.rename, hsub]
    · simp [Entry.rename, hpred]
    · rw [htop rfl]
      rfl
  case room => exact hroom.trans (Nat.le_add_right _ 3)
  case listed =>
    intro d hd n hn
    rcases List.mem_pair.mp hd with rfl | rfl <;> simp [listed] at hn
  case unlisted =>
    intro d hd n _
    rw [htwo d hd]
  case filed =>
    intro n
    rw [hempty 3 (by omega) (by omega)]
    rfl
  case apart => simp

end Replace

/-! ## One build after the other -/

section Rebuild

variable {P names subj pred obj : List Str} {copies : List ℕ} {prog : Program} {g' : Fs}

/-- The tree shows these names, and the next build will find the daemon as it needs it. -/
structure Mounted (fk : Fusekit) (names : List Str) (g : Fs) : Prop where
  shows : ∀ path, g.look root path = storeTree (· ∈ names) path
  room : 4 ≤ g.next
  only : ∀ n, top n = none → g.entries root n = none
  kept : fk.directory = .keep → ∃ P copies, (∀ p, p ∈ P ↔ p ∈ names) ∧
    Building fk (listed P P) P copies g

theorem mounted_of_building (h : Building fk (listed P P) P copies g)
    (hnames : ∀ p, p ∈ P ↔ p ∈ names) (hP : ∀ p ∈ names, 0 ∉ p) : Mounted fk names g := by
  have hP' : ∀ p ∈ P, 0 ∉ p := fun p hp => hP p ((hnames p).mp hp)
  constructor
  case shows =>
    intro path
    rw [look_root h, mountedView_eq_storeTree fk hP', storeTree_congr hnames]
  case room => exact h.room
  case only =>
    intro n hn
    rwa [← congrFun h.atRoot n] at hn
  case kept => exact fun _ => ⟨P, copies, hnames, h⟩

theorem mounted_build (hP : ∀ p ∈ pred, 0 ∉ p)
    (hg : exec (prog.build fk subj pred obj) Fs.fresh = (.ok ⟨⟩, g)) : Mounted fk pred g := by
  obtain ⟨g₀, hg₀, htop⟩ := exec_buildVfs_fresh prog.count fk pred obj
  obtain ⟨copies, hbuilt⟩ := (fillVfs_ensures prog.count pred obj).ok hg₀ (htop ▸ hg)
  exact mounted_of_building hbuilt (fun _ => Iff.rfl) hP

/-- Nothing is left of an earlier build but what the later one shows too. -/
theorem Mounted.build (h : Mounted fk names g) (hsub : names ⊆ pred) (hP : ∀ p ∈ pred, 0 ∉ p)
    (hg : exec (prog.build fk subj pred obj) g = (.ok ⟨⟩, g')) : Mounted fk pred g' := by
  change exec (buildVfs prog.count fk pred obj) g = (.ok ⟨⟩, g') at hg
  cases hk : fk.directory with
  | keep =>
    obtain ⟨P, copies, hnames, hbuilding⟩ := h.kept hk
    rw [exec_buildVfs_kept prog.count hk hbuilding] at hg
    obtain ⟨copies', hbuilt⟩ :=
      (fillVfs_again_ensures prog.count pred obj).ok hbuilding.forget hg
    refine mounted_of_building hbuilt (fun p => ?_) hP
    rw [List.mem_append, hnames]
    exact or_iff_right_of_imp fun hp => hsub hp
  | replace =>
    obtain ⟨h0, h1, h2, h3⟩ := shift_first h.room
    have hR : Renames (shift g.next) (g.renewed.renamed (shift g.next)) g.renewed :=
      ⟨rfl, fun r hr => shift_of_le h.room hr⟩
    have hcouples : Couples (Renames (shift g.next)) (fillVfs prog.count fk pred obj 1 2 3)
        (fillVfs prog.count fk pred obj (shift g.next 1) (shift g.next 2) (shift g.next 3))
        fun _ _ => True := fillVfs_couples prog.count pred obj 1 2 3
    rw [h1, h2, h3] at hcouples
    rw [exec_buildVfs_replaced prog.count hk] at hg
    obtain ⟨⟨⟩, t, ht, -, hrenames⟩ := hcouples.ok hR hg
    obtain ⟨copies, hbuilt⟩ :=
      (fillVfs_ensures prog.count pred obj).ok (building_renewed h.room h.only) ht
    have hmounted := mounted_of_building hbuilt (fun _ => Iff.rfl) hP
    have hroot : shift g.next root = root := h0
    obtain ⟨rfl, -⟩ := hrenames
    constructor
    case shows =>
      intro path
      rw [← hmounted.shows, look_renamed, hroot]
    case room => exact hmounted.room
    case only =>
      intro n hn
      have hnone : (g'.entries (shift g.next root) n).map _ = none := hmounted.only n hn
      rwa [hroot, Option.map_eq_none_iff] at hnone
    case kept => exact fun h => absurd (hk.symm.trans h) (by decide)

end Rebuild

end M3Sec.Vfs
