import M3Sec.Library.Leases
import M3Sec.Library.Runs
import M3Sec.Afsfuse.Remote

/-! # Open files

The descriptor that an open gets on the server is kept in the `fuse_file_info` of the client.
`xmp_release` does not send it: the assignments are commented out, and what it sends is
whatever the local variable holds.
-/

namespace M3Sec.Afsfuse

open Fallible Leases

variable {σ : Type} {os : Os σ} {t : Transport}

/-- The descriptors that are open on a machine. A close frees its descriptor even if it fails. -/
structure Descriptors (os : Os σ) where
  opened : σ → Finset ℕ
  open_ok : ∀ {path flags m fd m'}, os.perform (.openFile path flags) m = (.ok fd, m') →
    fd.val ∉ opened m ∧ opened m' = insert fd.val (opened m)
  open_error : ∀ {path flags m e m'}, os.perform (.openFile path flags) m = (.error e, m') →
    opened m' = opened m
  close : ∀ (fd : ℕ) m, opened (os.perform (.close fd) m).2 = (opened m).erase fd

structure Session (σ : Type) where
  server : Server σ
  files : List MyFileInfo

inductive FileCall where
  | openFile (path : CString) (fi : MyFileInfo)
  | release (i : ℕ) (path : CString) (mfi : MyFileInfo)

namespace Session

def client (s : Session σ) : Client (Server σ) := ⟨s.server, [], .untouched fun _ => 0⟩

/-- Only an open that returns 0 opens a file for FUSE. -/
def opened (s : Session σ) : Except Goto (ℤ × MyFileInfo) → List MyFileInfo
  | .ok (ret, fi) => if ret = 0 then s.files ++ [fi] else s.files
  | .error _ => s.files

def step (os : Os σ) (t : Transport) (s : Session σ) : FileCall → Option (Session σ)
  | .openFile path fi =>
    let (r, c) := exec (xmpOpen (overServer os t) path fi) s.client
    some ⟨c.outside, s.opened r⟩
  | .release i path mfi =>
    s.files[i]?.map fun fi =>
      ⟨(exec (xmpRelease (overServer os t) path fi mfi) s.client).2.outside, s.files.eraseIdx i⟩

def held (s : Session σ) : List ℕ := s.files.map fun fi => fi.fh.toNat

end Session

/-- After the step, the descriptors that are open are those of the start and those that were
returned and not released yet. -/
def Tracks (d : Descriptors os) (t : Transport) (base : Finset ℕ) (s : Session σ) (c : FileCall) :
    Prop :=
  ∀ s', s.step os t c = some s' → d.opened s'.server.os = base ∪ s'.held.toFinset

/-- A release finds the handle of its file in its uninitialised variable, where it is not taken
for none, and its path can be sent. -/
def FindsHandle (s : Session σ) : FileCall → Prop
  | .openFile .. => True
  | .release i path mfi => ∀ fi, s.files[i]? = some fi →
    path.val.length ≤ mymaxpath ∧ mfi.fh = fi.fh ∧ fi.fh ≠ 0

/-! ## The server -/

section Server

variable (d : Descriptors os) (path : CString) (s : Server σ)

theorem callServer_open_cases (flags : ℤ) :
    (∃ fd : {fd : ℕ // fd < 2 ^ 31}, fd.val ∉ d.opened s.os ∧
      (callServer os (.rxcOpen path flags) s).1 = .ok (.ofNat fd) ∧
      d.opened (callServer os (.rxcOpen path flags) s).2.os = insert fd.val (d.opened s.os)) ∨
    ∃ f, (callServer os (.rxcOpen path flags) s).1 = .error f ∧
      d.opened (callServer os (.rxcOpen path flags) s).2.os = d.opened s.os := by
  by_cases hq : (Request.rxcOpen path flags).Marshals
  · let c : Syscall := .openFile (translatePath path) flags
    rcases hopen : os.perform c s.os with ⟨e | fd, m⟩
    · have hrun : exec (serve os .deliver (.rxcOpen path flags)) s.begin =
          (.ok (-(e : ℕ), -1), s.begin.record os c) := by
        rw [serve, rxcRxcOpen, exec_bind_ok (exec_sys_of (s := s.begin) os hopen)]
        dsimp only
        rw [exec_bind_ok exec_minusErrno, exec_pure, errno_record (s := s.begin) os hopen]
      have hos : (s.begin.record os c).os = m := os_record_of (s := s.begin) os hopen
      right
      rw [callServer_error hq (by simp) hrun]
      exact ⟨_, rfl, by rw [hos, d.open_error hopen]⟩
    · have hrun : exec (serve os .deliver (.rxcOpen path flags)) s.begin =
          (.ok (0, .ofNat fd), s.begin.record os c) := by
        rw [serve, rxcRxcOpen, exec_bind_ok (exec_sys_of (s := s.begin) os hopen)]
        rfl
      have hos : (s.begin.record os c).os = m := os_record_of (s := s.begin) os hopen
      obtain ⟨hfresh, hopened⟩ := d.open_ok hopen
      left
      rw [callServer_ok hq hrun]
      exact ⟨fd, hfresh, rfl, by rw [hos, hopened]⟩
  · right
    rw [callServer_not_marshals hq]
    exact ⟨_, rfl, rfl⟩

variable (os) in
theorem os_attempt (c : Syscall) (s : Server σ) :
    ∃ code, exec (attempt os c minusErrno) s = (.ok code, s.record os c) := by
  rcases h : os.perform c s.os with ⟨e | r, m⟩
  · exact ⟨_, exec_attemptElse_error os h⟩
  · exact ⟨_, exec_attemptElse_ok os h⟩

theorem os_callServer {q : Request} {a : ℤ × q.Out} {s' : Server σ} (hq : q.Marshals)
    (h : exec (serve os .deliver q) s.begin = (.ok a, s')) : (callServer os q s).2 = s' := by
  rw [callServer, if_pos hq]
  exact (after_eq (i := ⟨q, .deliver⟩) os h).2

/-- `close`, which has no effect on a negative descriptor. -/
theorem opened_close (fh : UInt32) (m : σ) :
    d.opened (os.perform (.close fh.toInt32.toInt) m).2 =
      if fh.toNat < 2 ^ 31 then (d.opened m).erase fh.toNat else d.opened m := by
  split_ifs with h
  · rw [toInt_toInt32 h]
    exact d.close _ _
  · have hneg : fh.toInt32.toInt < 0 := toInt_toInt32_neg (Nat.not_lt.mp h)
    obtain ⟨e, he⟩ := os.badf (.close fh.toInt32.toInt) _ m rfl hneg
    rw [he]

theorem opened_callServer_release (mfi : MyFileInfo) :
    d.opened (callServer os (.rxcRelease path mfi) s).2.os =
      if path.val.length ≤ mymaxpath ∧ mfi.fh ≠ 0 ∧ mfi.fh.toNat < 2 ^ 31 then
        (d.opened s.os).erase mfi.fh.toNat else d.opened s.os := by
  have hmarshals : (Request.rxcRelease path mfi).Marshals ↔ path.val.length ≤ mymaxpath :=
    Request.marshals_iff rfl
  by_cases hq : (Request.rxcRelease path mfi).Marshals
  · by_cases hfh : mfi.fh = 0
    · have hrun : exec (serve os .deliver (.rxcRelease path mfi)) s.begin =
          (.ok (0, ()), s.begin) := by
        simp [serve, codeOnly, rxcRxcRelease, hfh]
      rw [os_callServer s hq hrun]
      simp [hfh]
    · obtain ⟨code, hcode⟩ := os_attempt os (.close mfi.fh.toInt32.toInt) s.begin
      have hproc : exec (rxcRxcRelease os path mfi) s.begin = _ :=
        (congrArg (exec · s.begin) (if_pos hfh)).trans hcode
      have hrun : exec (serve os .deliver (.rxcRelease path mfi)) s.begin = _ := exec_codeOnly hproc
      rw [os_callServer s hq hrun, os_record, os_begin, opened_close]
      simp [← hmarshals, hq, hfh]
  · rw [callServer_not_marshals hq, if_neg]
    rw [← hmarshals]
    exact fun h => hq h.1

end Server

/-! ## Sessions -/

variable {d : Descriptors os} {base : Finset ℕ} {s s' : Session σ}

variable (os t) in
theorem exec_xmpOpen (path : CString) (fi : MyFileInfo) (c : Client (Server σ)) :
    ∃ c', exec (xmpOpen (overServer os t) path fi) c =
        (.ok ((callServer os (.rxcOpen path fi.flags) c.outside).1.code,
          (callServer os (.rxcOpen path fi.flags) c.outside).1.received.elim fi
            fun hd => { fi with fh := hd }), c') ∧
      c'.outside = (callServer os (.rxcOpen path fi.flags) c.outside).2 := by
  rw [xmpOpen, exec_bind_ok (exec_remote _ _), exec_pure]
  exact ⟨_, rfl, rfl⟩

theorem outside_xmpRelease (path : CString) (fi mfi : MyFileInfo) (c : Client (Server σ)) :
    (exec (xmpRelease (overServer os t) path fi mfi) c).2.outside =
      (callServer os (.rxcRelease path mfi) c.outside).2 := by
  rw [xmpRelease, exec_status]
  rfl

theorem step_openFile (d : Descriptors os) {path : CString} {fi : MyFileInfo}
    (h : s.step os t (.openFile path fi) = some s') :
    (∃ fd : {fd : ℕ // fd < 2 ^ 31}, fd.val ∉ d.opened s.server.os ∧
      s'.held = s.held ++ [fd.val] ∧
      d.opened s'.server.os = insert fd.val (d.opened s.server.os)) ∨
    s'.held = s.held ∧ d.opened s'.server.os = d.opened s.server.os := by
  obtain ⟨c, hc, hout⟩ := exec_xmpOpen os t path fi s.client
  rw [Session.step, hc] at h
  obtain rfl := Option.some.inj h
  rcases callServer_open_cases d path s.server fi.flags with
    ⟨fd, hfresh, hreply, hopened⟩ | ⟨f, hreply, hopened⟩
  · left
    refine ⟨fd, hfresh, ?_, by rw [← hopened, hout]; rfl⟩
    have hfd : (UInt32.ofNat fd).toNat = fd := by
      have hlt := fd.property
      simp
      omega
    simp [Session.held, Session.opened, Session.client, hreply, Reply.code, Reply.received, hfd]
  · right
    refine ⟨?_, by rw [← hopened, hout]; rfl⟩
    simp [Session.held, Session.opened, Session.client, hreply, Reply.code, f.code.property]

theorem step_release (d : Descriptors os) {i : ℕ} {path : CString} {mfi : MyFileInfo}
    (h : s.step os t (.release i path mfi) = some s') :
    ∃ fi, s.files[i]? = some fi ∧ s'.held = s.held.eraseIdx i ∧
      d.opened s'.server.os =
        if path.val.length ≤ mymaxpath ∧ mfi.fh ≠ 0 ∧ mfi.fh.toNat < 2 ^ 31 then
          (d.opened s.server.os).erase mfi.fh.toNat else d.opened s.server.os := by
  obtain ⟨fi, hi, rfl⟩ := Option.map_eq_some_iff.mp h
  refine ⟨fi, hi, (List.eraseIdx_map ..).symm, ?_⟩
  rw [outside_xmpRelease]
  exact opened_callServer_release d path s.server mfi

structure Settled (d : Descriptors os) (base : Finset ℕ) (s : Session σ) : Prop where
  accounts : Accounts base s.held (d.opened s.server.os)
  lt : ∀ fd ∈ s.held, fd < 2 ^ 31

theorem Settled.step {c : FileCall} (hs : Settled d base s) (hc : Tracks d t base s c)
    (h : s.step os t c = some s') : Settled d base s' := by
  cases c with
  | openFile path fi =>
    rcases step_openFile d h with ⟨fd, hfresh, hheld, hopened⟩ | ⟨hheld, hopened⟩
    · constructor
      · rw [hheld, hopened]
        exact hs.accounts.grant hfresh
      · rw [hheld]
        intro x hx
        rcases List.mem_append.mp hx with hx | hx
        · exact hs.lt x hx
        · obtain rfl := List.mem_singleton.mp hx
          exact fd.property
    · exact ⟨by rw [hheld, hopened]; exact hs.accounts, by rw [hheld]; exact hs.lt⟩
  | release i path mfi =>
    obtain ⟨fi, hi, hheld, -⟩ := step_release d h
    have hget : s.held[i]? = some fi.fh.toNat := by simp [Session.held, hi]
    have hopened := hc s' h
    constructor
    · rw [hopened, hheld, hs.accounts.union_eraseIdx hget]
      exact hs.accounts.giveUp hget
    · rw [hheld]
      exact fun x hx => hs.lt x (List.mem_of_mem_eraseIdx hx)

theorem tracks_iff_findsHandle {c : FileCall} (hs : Settled d base s) :
    Tracks d t base s c ↔ FindsHandle s c := by
  cases c with
  | openFile path fi =>
    refine iff_of_true ?_ trivial
    intro s' h
    rcases step_openFile d h with ⟨fd, hfresh, hheld, hopened⟩ | ⟨hheld, hopened⟩
    · rw [hheld, hopened]
      exact (hs.accounts.grant hfresh).opened_eq
    · rw [hheld, hopened]
      exact hs.accounts.opened_eq
  | release i path mfi =>
    have hget : ∀ fi, s.files[i]? = some fi → s.held[i]? = some fi.fh.toNat := by
      intro fi hi
      simp [Session.held, hi]
    constructor
    · intro htracks fi hi
      obtain ⟨s', hs'⟩ : ∃ s', s.step os t (.release i path mfi) = some s' := by
        simp [Session.step, hi]
      obtain ⟨-, -, hheld, hopened⟩ := step_release d hs'
      have heq := htracks s' hs'
      rw [hopened, hheld] at heq
      split_ifs at heq with hsent
      · obtain ⟨hpath, hzero, -⟩ := hsent
        have hfh := UInt32.toNat_inj.mp ((hs.accounts.erase_eq_iff (hget fi hi)).mp heq)
        exact ⟨hpath, hfh, hfh ▸ hzero⟩
      · exact absurd heq (hs.accounts.ne_union_eraseIdx (hget fi hi))
    · intro hfinds s' h
      obtain ⟨fi, hi, hheld, hopened⟩ := step_release d h
      obtain ⟨hpath, hfh, hzero⟩ := hfinds fi hi
      have hlt : fi.fh.toNat < 2 ^ 31 := hs.lt _ (List.mem_of_getElem? (hget fi hi))
      rw [hopened, hheld, hfh, if_pos ⟨hpath, hzero, hlt⟩]
      exact (hs.accounts.erase_eq_iff (hget fi hi)).mpr rfl

/-- Through a run of opens and releases the server has exactly those descriptors open that it
returned and that were not released, exactly if each release finds its handle. -/
theorem tracks_along_iff (d : Descriptors os) (t : Transport) (s : Server σ) (cs : List FileCall) :
    Runs.Along (Session.step os t) (Tracks d t (d.opened s.os)) ⟨s, []⟩ cs ↔
      Runs.Along (Session.step os t) FindsHandle ⟨s, []⟩ cs := by
  apply Runs.along_congr (Settled d (d.opened s.os))
  · rintro s c hs
    exact tracks_iff_findsHandle hs
  · rintro s c s' hs hc h
    exact hs.step hc h
  · exact ⟨.start _, fun _ h => absurd h List.not_mem_nil⟩

/-! ## A leak -/

theorem Disk.lt_fresh {m : Disk} {fd : ℕ} (h : fd ∈ m.table.map Prod.fst) : fd < m.fresh := by
  unfold Disk.fresh
  generalize m.table.map Prod.fst = keys at h ⊢
  induction keys with
  | nil => cases h
  | cons x xs ih =>
    rw [List.foldr_cons]
    rcases List.mem_cons.mp h with rfl | h
    · omega
    · have hx := ih h
      omega

theorem Disk.not_mem_of_behind {m : Disk} {fd : ℕ} (h : m.behind fd = none) :
    fd ∉ m.table.map Prod.fst := by
  rw [Disk.behind, if_pos (Int.natCast_nonneg fd), Int.toNat_natCast] at h
  intro hmem
  obtain ⟨e, he, rfl⟩ := List.mem_map.mp hmem
  exact absurd (List.lookup_eq_none_iff.mp h e he) (by simp)

def Disk.descriptors (limit : ℕ) : Descriptors (Disk.os limit) where
  opened m := (m.table.map Prod.fst).toFinset
  open_ok := by
    intro path flags m fd m' h
    simp only [Disk.os, Disk.perform] at h
    split_ifs at h with hfile
    · obtain ⟨hfd, rfl⟩ := Prod.mk.inj h
      obtain rfl := Except.ok.inj hfd
      constructor
      · rw [List.mem_toFinset]
        exact fun hmem => Nat.lt_irrefl _ (Disk.lt_fresh hmem)
      · rw [List.map_cons, List.toFinset_cons]
    · cases (Prod.mk.inj h).1
  open_error := by
    intro path flags m e m' h
    simp only [Disk.os, Disk.perform] at h
    split_ifs at h
    · cases (Prod.mk.inj h).1
    · obtain ⟨-, rfl⟩ := Prod.mk.inj h
      rfl
  close := by
    intro fd m
    simp only [Disk.os, Disk.perform]
    split
    · rename_i hbehind
      have hmem := Disk.not_mem_of_behind hbehind
      rw [Finset.erase_eq_of_notMem (by rwa [List.mem_toFinset])]
    · ext x
      simp only [Int.toNat_natCast, List.mem_toFinset, Finset.mem_erase, List.mem_map,
        List.mem_filter, decide_eq_true_eq]
      constructor
      · rintro ⟨e, ⟨he, hne⟩, rfl⟩
        exact ⟨hne, e, he, rfl⟩
      · rintro ⟨hne, e, he, rfl⟩
        exact ⟨e, ⟨he, hne⟩, rfl⟩

/-- A file is opened and released, and its descriptor is still open. -/
theorem release_leaks : ¬ ∀ (t : Transport) (s : Server Disk) (cs : List FileCall),
    Runs.Along (Session.step (Disk.os 0) t)
      (Tracks (Disk.descriptors 0) t ((Disk.descriptors 0).opened s.os)) ⟨s, []⟩ cs := by
  intro h
  let path : CString := ⟨str "/a", by decide⟩
  let calls : List FileCall := [.openFile path ⟨0, 0, 0⟩, .release 0 path ⟨0, 0, 0⟩]
  have htracks := h (.sound 0) (.start ⟨[(translatePath path, [])], [], []⟩ 0) calls
    [.openFile path ⟨0, 0, 0⟩] _ _ List.prefix_rfl rfl _ rfl
  exact absurd htracks (by decide)

end M3Sec.Afsfuse
