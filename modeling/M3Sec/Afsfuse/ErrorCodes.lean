import M3Sec.Afsfuse.Mediation
import M3Sec.Afsfuse.Remote

/-! # The error of a system call

A procedure that wraps a system call returns `-errno` if the call fails, but for three that
return -1. The client passes the code on, and what it passes on as success is success.
-/

namespace M3Sec.Afsfuse

open Fallible

variable {σ : Type} {os : Os σ} {t : Transport} {s : Server σ} {op : Operation} {q : Request}
  {c : Syscall} {e : ℕ+} {m : σ}

/-- The remote procedure of an operation, and the system call that it wraps. -/
def Operation.wraps : Operation → Option (Request × Syscall)
  | getattr path => some (.rxcGetattr path 100, .lstat (translatePath path))
  | readlink path _ => some (.rxcReadlink path 512, .readlink (translatePath path) (512 - 1))
  | mknod path mode rdev =>
    some (.rxcMknod path mode (.ofNat rdev), .mknod (translatePath path) mode (.ofNat rdev))
  | mkdir path mode => some (.rxcMkdir path mode, .mkdir (translatePath path) mode)
  | symlink source target =>
    some (.rxcSymlink source target, .symlink (translatePath source) (translatePath target))
  | unlink path => some (.rxcUnlink path, .unlink (translatePath path))
  | rmdir path => some (.rxcRmdir path, .rmdir (translatePath path))
  | rename source target =>
    some (.rxcRename source target, .rename (translatePath source) (translatePath target))
  | link source target =>
    some (.rxcLink source target, .link (translatePath source) (translatePath target))
  | chmod path mode => some (.rxcChmod path mode, .chmod (translatePath path) mode)
  | chown path uid gid => some (.rxcChown path uid gid, .lchown (translatePath path) uid gid)
  | truncate path size =>
    some (.rxcTruncate path (.ofNat size), .truncate (translatePath path) (.ofNat size))
  | utime path actime modtime =>
    some (.rxcUtime path actime modtime, .utime (translatePath path) actime modtime)
  | openFile path fi => some (.rxcOpen path fi.flags, .openFile (translatePath path) fi.flags)
  | statfs path _ => some (.rxcStatfs path, .statfs (translatePath path))
  | getdir .. | read .. | write .. | release .. | fsync .. | flush .. => none

/-- The procedures that return -1 whatever the error is. -/
def Operation.returnsMinusOne : Operation → Bool
  | chmod .. | chown .. | utime .. => true
  | _ => false

def eperm : ℕ+ := 1

def Operation.failure (op : Operation) (e : ℕ+) : ℤ :=
  if op.returnsMinusOne then -1 else -(e : ℕ)

theorem failure_ne_zero (op : Operation) (e : ℕ+) : op.failure e ≠ 0 := by
  unfold Operation.failure
  split_ifs
  · decide
  · simp

/-! ## The procedures -/

theorem exec_attemptElse_minusOne {error : ℤ} (h : os.perform c s.os = (.error e, m)) :
    exec (attemptElse os c (pure (-1)) error) s = (.ok (-1), s.record os c) := by
  rw [attemptElse, exec_bind_ok (exec_sys_of os h)]
  rfl

theorem exec_serve_of_error (hw : op.wraps = some (q, c))
    (hc : ∀ path, op = .getattr path → isAllowedPath (translatePath path) = true)
    (h : os.perform c s.os = (.error e, m)) :
    ∃ out, exec (serve os .deliver q) s = (.ok (op.failure e, out), s.record os c) := by
  cases op with
  | getdir | read | write | release | fsync | flush => cases hw
  | chmod | chown | utime =>
    cases hw
    exact ⟨_, exec_codeOnly (exec_attemptElse_minusOne h)⟩
  | mknod | mkdir | symlink | unlink | rmdir | rename | link | truncate =>
    cases hw
    exact ⟨_, exec_codeOnly (exec_attemptElse_error os h)⟩
  | getattr path =>
    cases hw
    have hallowed : isAllowedPath (translatePath path) = true := hc path rfl
    have hproc : exec (rxcRxcGetattr os .deliver path) s =
        (.ok (-(e : ℕ)), s.record os (.lstat (translatePath path))) := by
      rw [← errno_record os h]
      simp only [rxcRxcGetattr, hallowed, Bool.not_true, Bool.false_eq_true, if_false]
      rw [exec_bind_ok (exec_sys_of os h)]
      rfl
    exact ⟨_, exec_codeOnly hproc⟩
  | readlink | openFile | statfs =>
    cases hw
    rw [Operation.failure, ← errno_record os h]
    exact ⟨_, (exec_bind_ok (exec_sys_of os h)).trans rfl⟩

theorem code_of_error (hw : op.wraps = some (q, c)) (hc : c.Allowed)
    (h : os.perform c s.os = (.error e, m)) : s.code os ⟨q, .deliver⟩ = op.failure e := by
  have hpath : ∀ path, op = .getattr path → isAllowedPath (translatePath path) = true := by
    rintro path rfl
    cases hw
    exact hc _ (List.mem_singleton_self _)
  obtain ⟨out, hrun⟩ := exec_serve_of_error (s := s.begin) hw hpath h
  rw [Server.code, (after_eq (i := ⟨q, .deliver⟩) os hrun).1]

theorem code_ne_zero (hw : op.wraps = some (q, c)) (h : os.perform c s.os = (.error e, m)) :
    s.code os ⟨q, .deliver⟩ ≠ 0 := by
  by_cases hpath : ∀ path, op = .getattr path → isAllowedPath (translatePath path) = true
  · obtain ⟨out, hrun⟩ := exec_serve_of_error (s := s.begin) hw hpath h
    rw [Server.code, (after_eq (i := ⟨q, .deliver⟩) os hrun).1]
    exact failure_ne_zero op e
  · push Not at hpath
    obtain ⟨path, rfl, hdenied⟩ := hpath
    cases hw
    have hrun : exec (serve os .deliver (.rxcGetattr path 100)) s.begin =
        (.ok (-1, ()), s.begin) := by
      simp [serve, codeOnly, rxcRxcGetattr, hdenied]
    rw [Server.code, (after_eq (i := ⟨_, .deliver⟩) os hrun).1]
    exact (by decide : (-1 : ℤ) ≠ 0)

/-! ## The operations -/

/-- What comes back for a request: the code of its procedure, or that it was not sent. -/
def remoteCode (os : Os σ) (s : Server σ) (q : Request) : ℤ :=
  if q.Marshals then s.code os ⟨q, .deliver⟩ else rxgenCcMarshal

theorem code_callServer (q : Request) (s : Server σ) :
    (callServer os q s).1.code = remoteCode os s q := by
  unfold callServer remoteCode
  split_ifs with hq
  · dsimp only
    split_ifs with hcode
    · exact hcode.symm
    · rfl
  · rfl

theorem ret_getattrOutcome {call : Call} (h : call.start ≠ 0 ∨ call.header = none) :
    (getattrOutcome call).ret = call.error := by
  unfold getattrOutcome
  split_ifs with hstart
  · rfl
  · rw [h.resolve_left hstart]
    rfl

theorem download_of_remoteCode (h : remoteCode os s q ≠ 0) :
    let call := (download os t q s).1
    (call.start ≠ 0 ∨ call.header = none) ∧ call.error = remoteCode os s q := by
  unfold remoteCode download at *
  split_ifs at h ⊢ with hq
  · exact ⟨Or.inr (if_neg h), rfl⟩
  · exact ⟨Or.inl h, rfl⟩

theorem ret_remote {ρ α : Type} {env : Environment ρ} (q : Request) (g : Reply q.Out → α)
    (c : Client ρ) : (exec (do
      let (ret, _) ← (do
        let reply ← remote env q
        return (reply.code, g reply))
      return ret) c).1 = .ok (env.call q c.outside).1.code := by
  simp [exec_bind, exec_remote, -bind_pure_comp]

theorem exec_run_of_remoteCode (hw : op.wraps = some (q, c)) (h : remoteCode os s q ≠ 0)
    (tr : List Event) (buffer : Memory.Region UInt8) :
    (exec (op.run (overServer os t)) ⟨s, tr, buffer⟩).1 = .ok (remoteCode os s q) := by
  cases op with
  | getdir | read | write | release | fsync | flush => cases hw
  | getattr path =>
    cases hw
    obtain ⟨hlost, herror⟩ := download_of_remoteCode (t := t) h
    have hret := congrArg Prod.fst (@performs_xmpGetattr _ (overServer os t) path ⟨s, tr, buffer⟩)
    refine hret.trans ?_
    rw [← herror]
    exact congrArg Except.ok (ret_getattrOutcome hlost)
  | readlink path size =>
    cases hw
    rw [← code_callServer]
    exact congrArg Prod.fst (exec_xmpReadlink _ _ _)
  | openFile | statfs =>
    cases hw
    rw [← code_callServer]
    exact ret_remote _ _ _
  | _ =>
    cases hw
    rw [← code_callServer]
    exact congrArg Prod.fst (exec_status _ _)

/-! ## Error codes -/

def Operation.returned (os : Os σ) (t : Transport) (s : Server σ) (op : Operation) :
    Except Goto ℤ :=
  (exec (op.run (overServer os t)) ⟨s, [], .untouched fun _ => 0⟩).1

/-- A failure of the system call comes back as `-errno`, and only its success as 0. -/
structure CodeSurvives (os : Os σ) (t : Transport) (s : Server σ) (op : Operation) (q : Request)
    (c : Syscall) : Prop where
  failure : q.Marshals → c.Allowed → ∀ e m, os.perform c s.os = (.error e, m) →
    op.returned os t s = .ok (-(e : ℕ))
  success : op.returned os t s = .ok 0 → ∃ r m, os.perform c s.os = (.ok r, m)

theorem returned_of_error (hw : op.wraps = some (q, c)) (hq : q.Marshals) (hc : c.Allowed)
    (h : os.perform c s.os = (.error e, m)) : op.returned os t s = .ok (op.failure e) := by
  have hcode : remoteCode os s q = op.failure e := by
    rw [remoteCode, if_pos hq, code_of_error hw hc h]
  have hne : remoteCode os s q ≠ 0 := by
    rw [hcode]
    exact failure_ne_zero op e
  rw [← hcode]
  exact exec_run_of_remoteCode hw hne _ _

theorem returned_ne_zero (hw : op.wraps = some (q, c)) (h : os.perform c s.os = (.error e, m)) :
    op.returned os t s ≠ .ok 0 := by
  have hne : remoteCode os s q ≠ 0 := by
    unfold remoteCode
    split_ifs
    · exact code_ne_zero hw h
    · decide
  have hret : op.returned os t s = .ok (remoteCode os s q) := exec_run_of_remoteCode hw hne _ _
  rw [hret]
  exact fun h => hne (Except.ok.inj h)

theorem failure_eq_iff : op.failure e = -(e : ℕ) ↔ (op.returnsMinusOne = true → e = eperm) := by
  unfold Operation.failure
  split_ifs with hop
  · rw [imp_iff_right hop, neg_inj, ← PNat.coe_inj]
    exact ⟨fun h => by exact_mod_cast h.symm, fun h => by exact_mod_cast h.symm⟩
  · exact iff_of_true rfl fun h => absurd h hop

/-- The errors of the system calls survive exactly if those that are returned as -1 are `EPERM`. -/
theorem codeSurvives_iff (os : Os σ) (t : Transport) (s : Server σ) (op : Operation) :
    (∀ q c, op.wraps = some (q, c) → CodeSurvives os t s op q c) ↔
      ∀ q c, op.wraps = some (q, c) → op.returnsMinusOne = true → q.Marshals → c.Allowed →
        ∀ e m, os.perform c s.os = (.error e, m) → e = eperm := by
  constructor
  · rintro h q c hw hop hq hc e m he
    have hret := (h q c hw).failure hq hc e m he
    rw [returned_of_error hw hq hc he] at hret
    exact failure_eq_iff.mp (Except.ok.inj hret) hop
  · rintro h q c hw
    constructor
    · rintro hq hc e m he
      rw [returned_of_error hw hq hc he, failure_eq_iff.mpr fun hop => h q c hw hop hq hc e m he]
    · rintro hzero
      rcases hr : os.perform c s.os with ⟨e | r, m⟩
      · exact absurd hzero (returned_ne_zero hw hr)
      · exact ⟨r, m, rfl⟩

/-- `chmod` fails with `ENOSYS`, and the client returns -1. -/
theorem chmod_not_codeSurvives : ¬ ∀ (t : Transport) (s : Server Disk) (op : Operation)
    (q : Request) (c : Syscall), op.wraps = some (q, c) → CodeSurvives (Disk.os 0) t s op q c := by
  intro h
  have hallowed : (Syscall.chmod (translatePath ⟨str "/a", by decide⟩) 0).Allowed := by
    rintro path hpath
    obtain rfl := List.mem_singleton.mp hpath
    decide
  have hsurvives := h (.sound 0) (.start ⟨[], [], []⟩ 0) (.chmod ⟨str "/a", by decide⟩ 0) _ _ rfl
  have hret := hsurvives.failure (by decide) hallowed 38 _ rfl
  exact absurd (Except.ok.inj hret) (by decide)

end M3Sec.Afsfuse
