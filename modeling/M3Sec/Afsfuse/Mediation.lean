import M3Sec.Library.Runs
import M3Sec.Afsfuse.Disk

/-! # The path check

`IsAllowedPath` is meant to stand between the clients and the file system. Only
`rxc_getattr` calls it; of the other procedures those that use their paths at all make a
system call on them whatever they are.
-/

namespace M3Sec.Afsfuse

open Fallible

variable {σ α β : Type} {os : Os σ} {wire : Wire} {s t : Server σ} {q : Request} {c : Syscall}
  {P : Syscall → Prop}

def Syscall.Allowed (c : Syscall) : Prop := ∀ path ∈ c.paths, isAllowedPath path = true

def Request.Allowed (q : Request) : Prop :=
  ∀ path ∈ q.paths, isAllowedPath (translatePath path) = true

/-- No call was made on a path that is not allowed, and if the request has such a path it
returns an error and leaves the machine as it was. -/
def Mediated (os : Os σ) (s : Server σ) (i : Incoming) : Prop :=
  (∀ c ∈ (s.after os i).issued, c.Allowed) ∧
    (¬ i.request.Allowed → s.code os i ≠ 0 ∧ (s.after os i).os = s.os)

def ReleaseFails (os : Os σ) (s : Server σ) : Request → Prop
  | .rxcRelease _ fi => fi.fh ≠ 0 ∧
    ∃ e, os.perform (.close fi.fh.toInt32.toInt) s.os = (.error e, s.os)
  | _ => False

def Request.IsGetattr : Request → Prop
  | .rxcGetattr .. => True
  | _ => False

/-- The procedure makes a call on its paths whatever they are. -/
def Request.Trusting : Request → Prop
  | .rxcGetattr .. | .rxcRelease .. | .rxcFsync .. | .rxcFlush .. => False
  | _ => True

/-- The paths of the request are allowed, unless its procedure checks them or is a release
that fails. -/
def Guarded (os : Os σ) (s : Server σ) (i : Incoming) : Prop :=
  i.request.Allowed ∨ i.request.IsGetattr ∨ ReleaseFails os s i.request

/-! ## The calls that are made -/

def Issues (P : Syscall → Prop) (s t : Server σ) : Prop :=
  ∃ new, t.issued = s.issued ++ new ∧ ∀ c ∈ new, P c

instance : Std.Refl (Issues P (σ := σ)) where
  refl _ := ⟨[], by simp⟩

instance : IsTrans (Server σ) (Issues P) where
  trans s t u := by
    rintro ⟨new, hn, hP⟩ ⟨new', hn', hP'⟩
    refine ⟨new ++ new', by rw [hn', hn, List.append_assoc], ?_⟩
    rintro c hc
    rcases List.mem_append.mp hc with hc | hc
    · exact hP c hc
    · exact hP' c hc

theorem Issues.mem (h : Issues P s t) (hc : c ∈ s.issued) : c ∈ t.issued := by
  obtain ⟨new, hn, -⟩ := h
  rw [hn]
  exact List.mem_append_left _ hc

theorem Issues.forall_issued (h : Issues P s t) (hs : ∀ c ∈ s.issued, P c) :
    ∀ c ∈ t.issued, P c := by
  obtain ⟨new, hn, hP⟩ := h
  intro c hc
  rw [hn] at hc
  rcases List.mem_append.mp hc with hc | hc
  · exact hs c hc
  · exact hP c hc

/-- The call `c` was made first, and then calls that satisfy `P`. -/
def Reaches (os : Os σ) (c : Syscall) (P : Syscall → Prop) (s t : Server σ) : Prop :=
  Issues P (s.record os c) t

theorem reaches_bind {x : Serve σ α} {f : α → Serve σ β} (hx : Moves (Reaches os c P) x)
    (hf : ∀ a, Moves (Issues P) (f a)) : Moves (Reaches os c P) (x >>= f) :=
  fun s => trans_of (Issues P) (hx s) (Moves.bind_from hf s)

theorem issues_of_reaches {x : Serve σ α} (hx : Moves (Reaches os c P) x) (hc : P c) :
    Moves (Issues P) x := by
  intro s
  have hfirst : Issues P s (s.record os c) := ⟨[c], rfl, by simpa using hc⟩
  exact trans_of (Issues P) hfirst (hx s)

theorem reaches_sys : Moves (Reaches os c P) (sys os c) := fun _ => refl_of (Issues P) _

theorem issues_minusErrno : Moves (Issues P (σ := σ)) minusErrno := fun s => refl_of (Issues P) s

theorem reaches_attempt {failure : Serve σ ℤ} {error : ℤ} (hf : Moves (Issues P) failure) :
    Moves (Reaches os c P) (attemptElse os c failure error) := by
  refine reaches_bind reaches_sys fun r => ?_
  cases r with
  | error e => exact hf
  | ok a => exact .pure _

theorem reaches_openOrMinusOne {path : CString} {flags : ℤ} :
    Moves (Reaches os (.openFile path flags) P) (openOrMinusOne os path flags) := by
  refine reaches_bind reaches_sys fun r => ?_
  cases r <;> exact .pure _

theorem issues_closeIfPositive {fd : ℤ} (hc : P (.close fd)) :
    Moves (Issues P) (closeIfPositive os fd) :=
  .ite ((issues_of_reaches reaches_sys hc).bind fun _ => .pure _) (.pure _)

theorem issues_xdrLong (value : ℤ) : Moves (Issues P (σ := σ)) (xdrLong wire value) :=
  .ite (Moves.bind (fun s => refl_of (Issues P) s) fun _ => .pure _) (.pure _)

theorem issues_rxWrite (data : Str) : Moves (Issues P (σ := σ)) (rxWrite wire data) :=
  Moves.bind (fun s => refl_of (Issues P) s) fun _ => .pure _

theorem reaches_codeOnly {x : Serve σ ℤ} (hx : Moves (Reaches os c P) x) :
    Moves (Reaches os c P) (codeOnly x) := reaches_bind hx fun _ => .pure _

theorem reaches_rxcRxcRead {path : CString} {size offset : UInt32}
    (hfd : ∀ c : Syscall, c.paths = [] → P c) :
    Moves (Reaches os (.openFile (translatePath path) oRdonly) P)
      (rxcRxcRead os wire path size offset) := by
  refine reaches_bind reaches_openOrMinusOne fun fd => Moves.bind ?pread
    fun ⟨nbytes, buffer, error⟩ => (Moves.ite ?write (.pure _)).bind fun _ =>
      (issues_closeIfPositive (hfd _ rfl)).bind fun _ => .pure _
  case pread =>
    refine (issues_of_reaches reaches_sys (hfd _ rfl)).bind fun r => ?_
    cases r with
    | error e => exact issues_minusErrno.bind fun _ => .pure _
    | ok data => exact .pure _
  case write => exact (issues_xdrLong _).bind fun _ => (issues_rxWrite _).bind fun _ => .pure _

theorem reaches_rxcRxcWrite {path : CString} {offset : UInt32}
    (hfd : ∀ c : Syscall, c.paths = [] → P c) :
    Moves (Reaches os (.openFile (translatePath path) oWronly) P)
      (rxcRxcWrite os wire path offset) := by
  refine reaches_bind reaches_openOrMinusOne fun fd =>
    (Moves.ite issues_minusErrno (.pure _)).bind fun _ => Moves.bind ?pwrite
      fun _ => (issues_closeIfPositive (hfd _ rfl)).bind fun _ => .pure _
  case pwrite => exact issues_of_reaches (reaches_attempt issues_minusErrno) (hfd _ rfl)

/-- The calls that a procedure may make: on no other path than those of its request. -/
def Request.Within (q : Request) (c : Syscall) : Prop := c.paths ⊆ q.paths.map translatePath

theorem Request.within_of_nil (h : c.paths = []) : q.Within c := by
  unfold Request.Within
  rw [h]
  exact List.nil_subset _

/-- A procedure that does not look at its paths makes a call on them first. -/
theorem reaches_serve (os : Os σ) (wire : Wire) (hq : q.Trusting) :
    ∃ c, c.paths = q.paths.map translatePath ∧
      Moves (Reaches os c q.Within) (serve os wire q) := by
  cases q with
  | rxcGetattr | rxcRelease | rxcFsync | rxcFlush => exact hq.elim
  | rxcRead => exact ⟨_, rfl, reaches_codeOnly (reaches_rxcRxcRead fun _ => Request.within_of_nil)⟩
  | rxcWrite =>
    exact ⟨_, rfl, reaches_codeOnly (reaches_rxcRxcWrite fun _ => Request.within_of_nil)⟩
  | rxcChmod | rxcChown | rxcUtime =>
    exact ⟨_, rfl, reaches_codeOnly (reaches_attempt (.pure _))⟩
  | rxcMknod | rxcMkdir | rxcUnlink | rxcRmdir | rxcTruncate | rxcRename | rxcSymlink | rxcLink =>
    exact ⟨_, rfl, reaches_codeOnly (reaches_attempt issues_minusErrno)⟩
  | rxcOpen | rxcStatfs | rxcReadlink =>
    refine ⟨_, rfl, reaches_bind reaches_sys fun r => ?_⟩
    cases r with
    | error e => exact issues_minusErrno.bind fun _ => .pure _
    | ok a => exact .pure _
  | rxcGetdirWrapper path =>
    refine ⟨_, rfl, reaches_bind (reaches_bind reaches_sys fun counted => ?_) fun _ => .pure _⟩
    cases counted with
    | error e => exact .pure _
    | ok counted =>
      have hopen : (Request.rxcGetdirWrapper path).Within (.opendir (translatePath path)) :=
        List.Subset.refl _
      refine (issues_of_reaches reaches_sys hopen).bind fun entries => ?_
      cases entries <;> exact .pure _

theorem issues_serve (os : Os σ) (wire : Wire) (q : Request) :
    Moves (Issues q.Within) (serve os wire q) := by
  by_cases hq : q.Trusting
  · obtain ⟨c, hc, h⟩ := reaches_serve os wire hq
    exact issues_of_reaches h (by rw [Request.Within, hc]; exact List.Subset.refl _)
  · cases q with
    | rxcGetattr path _ =>
      refine Moves.bind (.ite (.pure _) ((issues_of_reaches reaches_sys ?_).bind fun r => ?_))
        fun _ => .pure _
      · exact List.Subset.refl _
      · cases r with
        | error e => exact issues_minusErrno
        | ok stemp =>
          exact (issues_xdrLong _).bind fun _ => (issues_rxWrite _).bind fun _ => .pure _
    | rxcRelease =>
      refine Moves.bind (.ite ?_ (.pure _)) fun _ => .pure _
      exact issues_of_reaches (reaches_attempt issues_minusErrno) (Request.within_of_nil rfl)
    | rxcFsync | rxcFlush => exact Moves.bind (.pure _) fun _ => .pure _
    | _ => exact absurd trivial hq

/-! ## Mediation -/

theorem Request.allowed_within (hq : q.Allowed) (hc : q.Within c) : c.Allowed := by
  intro path hp
  obtain ⟨path', hp', rfl⟩ := List.mem_map.mp (hc hp)
  exact hq path' hp'

theorem mediated_of_allowed {i : Incoming} (hs : ∀ c ∈ s.issued, c.Allowed)
    (hi : i.request.Allowed) : Mediated os s i := by
  refine ⟨?_, fun h => absurd hi h⟩
  obtain ⟨new, hn, hP⟩ := issues_serve os i.wire i.request s.begin
  exact Issues.forall_issued ⟨new, hn, fun c hc => Request.allowed_within hi (hP c hc)⟩ hs

theorem not_mediated_of_trusting {i : Incoming} (hi : ¬ i.request.Allowed)
    (hq : i.request.Trusting) : ¬ Mediated os s i := by
  rintro ⟨hissued, -⟩
  obtain ⟨c, hc, h⟩ := reaches_serve os i.wire hq
  have hmem : c ∈ (s.after os i).issued := (h s.begin).mem (by simp [Server.record])
  apply hi
  intro path hp
  exact hissued c hmem _ (hc ▸ List.mem_map_of_mem hp)

theorem mediated_iff_of_exec {code : ℤ} {i : Incoming} {a : i.request.Out}
    (hi : ¬ i.request.Allowed)
    (h : exec (serve os i.wire i.request) s.begin = (.ok (code, a), t)) :
    Mediated os s i ↔ (∀ c ∈ t.issued, c.Allowed) ∧ code ≠ 0 ∧ t.os = s.os := by
  obtain ⟨hanswer, hafter⟩ := after_eq os h
  rw [Mediated, Server.code, hanswer, hafter]
  exact and_congr_right fun _ => ⟨fun h => h hi, fun h _ => h⟩

theorem mediated_getattr {path : CString} {dummy : ℤ} (hs : ∀ c ∈ s.issued, c.Allowed)
    (hi : ¬ (Request.rxcGetattr path dummy).Allowed) :
    Mediated os s ⟨.rxcGetattr path dummy, wire⟩ := by
  have hdenied : isAllowedPath (translatePath path) = false := by
    simpa [Request.Allowed, Request.paths] using hi
  have hrun : exec (serve os wire (.rxcGetattr path dummy)) s.begin =
      (.ok (-1, ()), s.begin) := by
    simp [serve, codeOnly, rxcRxcGetattr, hdenied]
  rw [mediated_iff_of_exec hi hrun]
  exact ⟨hs, by decide, rfl⟩

theorem mediated_rxcRelease_iff {path : CString} {fi : MyFileInfo}
    (hs : ∀ c ∈ s.issued, c.Allowed) (hi : ¬ (Request.rxcRelease path fi).Allowed) :
    Mediated os s ⟨.rxcRelease path fi, wire⟩ ↔ ReleaseFails os s (.rxcRelease path fi) := by
  by_cases hfh : fi.fh = 0
  · have hrun : exec (serve os wire (.rxcRelease path fi)) s.begin = (.ok (0, ()), s.begin) := by
      simp [serve, codeOnly, rxcRxcRelease, hfh]
    rw [mediated_iff_of_exec hi hrun]
    simp [ReleaseFails, hfh]
  · have hproc : rxcRxcRelease os path fi =
        attempt os (.close fi.fh.toInt32.toInt) minusErrno := if_pos hfh
    have hissued : ∀ c ∈ (s.begin.record os (.close fi.fh.toInt32.toInt)).issued, c.Allowed := by
      intro c hc
      rcases List.mem_append.mp hc with hc | hc
      · exact hs c hc
      · obtain rfl := List.mem_singleton.mp hc
        simp [Syscall.Allowed, Syscall.paths]
    rcases hclose : os.perform (.close fi.fh.toInt32.toInt) s.os with ⟨e | r, m⟩
    · have hrun : exec (serve os wire (.rxcRelease path fi)) s.begin =
          (.ok (-(e : ℕ), ()), s.begin.record os (.close fi.fh.toInt32.toInt)) :=
        exec_codeOnly (hproc ▸ exec_attemptElse_error os hclose)
      rw [mediated_iff_of_exec hi hrun]
      have hos : (s.begin.record os (.close fi.fh.toInt32.toInt)).os = m :=
        os_record_of (s := s.begin) os hclose
      constructor
      · rintro ⟨-, -, hm⟩
        exact ⟨hfh, e, by rw [hclose, ← hos, hm]⟩
      · rintro ⟨-, e', he'⟩
        rw [hclose] at he'
        exact ⟨hissued, by simp, hos.trans (congrArg Prod.snd he')⟩
    · have hrun : exec (serve os wire (.rxcRelease path fi)) s.begin =
          (.ok (0, ()), s.begin.record os (.close fi.fh.toInt32.toInt)) :=
        exec_codeOnly (hproc ▸ exec_attemptElse_ok os hclose)
      rw [mediated_iff_of_exec hi hrun]
      simp [ReleaseFails, hclose]

theorem not_mediated_of_idle {i : Incoming} {a : i.request.Out} (hi : ¬ i.request.Allowed)
    (h : exec (serve os i.wire i.request) s.begin = (.ok (0, a), t)) : ¬ Mediated os s i := by
  rw [mediated_iff_of_exec hi h]
  exact fun h => h.2.1 rfl

theorem mediated_iff_guarded {i : Incoming} (hs : ∀ c ∈ s.issued, c.Allowed) :
    Mediated os s i ↔ Guarded os s i := by
  by_cases hi : i.request.Allowed
  · exact iff_of_true (mediated_of_allowed hs hi) (Or.inl hi)
  rw [Guarded, or_iff_right hi]
  obtain ⟨q, wire⟩ := i
  cases q with
  | rxcGetattr => exact iff_of_true (mediated_getattr hs hi) (Or.inl trivial)
  | rxcRelease =>
    rw [mediated_rxcRelease_iff hs hi]
    exact (or_iff_right id).symm
  | rxcFsync | rxcFlush =>
    exact iff_of_false (not_mediated_of_idle hi rfl) (by rintro (h | h) <;> exact h)
  | _ => exact iff_of_false (not_mediated_of_trusting hi trivial) (by rintro (h | h) <;> exact h)

/-- A run keeps the paths that are not allowed away from the file system exactly if each of its
requests names allowed paths only, or is for the one procedure that checks them, or to close a
descriptor, which fails. -/
theorem mediated_along_iff (os : Os σ) (m : σ) (errno : ℕ) (is : List Incoming) :
    Runs.Along (fun s i => some (s.after os i)) (Mediated os) (.start m errno) is ↔
      Runs.Along (fun s i => some (s.after os i)) (Guarded os) (.start m errno) is := by
  apply Runs.along_congr fun s => ∀ c ∈ s.issued, c.Allowed
  · rintro s i hs
    exact mediated_iff_guarded hs
  · rintro s i t - hm ht
    obtain rfl := Option.some.inj ht
    exact hm.1
  · simp [Server.start]

/-- A client removes `/etc`: the server calls `rmdir` on `/afs/etc`, which is not allowed. -/
theorem rmdir_not_mediated : ¬ ∀ (m : Disk) (errno : ℕ) (is : List Incoming),
    Runs.Along (fun s i => some (s.after (Disk.os 0) i)) (Mediated (Disk.os 0))
      (.start m errno) is := by
  intro h
  have hm := h ⟨[], [], []⟩ 0 [⟨.rxcRmdir ⟨str "/etc", by decide⟩, ⟨true, 0, none, [], 0, 0, 0⟩⟩]
    [] _ _ List.prefix_rfl rfl
  have hc := hm.1 (.rmdir (translatePath ⟨str "/etc", by decide⟩)) (List.mem_singleton.mpr rfl)
  exact absurd (hc _ (List.mem_singleton.mpr rfl)) (by decide)

end M3Sec.Afsfuse
