import M3Sec.Afsfuse.Connection
import M3Sec.Afsfuse.ErrorCodes
import M3Sec.Afsfuse.PathBuffers

/-! # Sessions

Most operations come down to one system call on the server. A session of such operations does
to the server's machine what these calls do when they are made on it directly, one after the
other, and each operation returns what tells how its call went.
-/

namespace M3Sec.Afsfuse

open Fallible

variable {σ : Type}

namespace Operation

/-- The operations that come down to at most one system call. -/
def Plain : Operation → Prop
  | read .. | write .. | getdir .. => False
  | _ => True

def call : Operation → Option Syscall
  | release _ _ mfi => if mfi.fh ≠ 0 then some (.close mfi.fh.toInt32.toInt) else none
  | op => op.wraps.map Prod.snd

/-- Only `rxc_getattr` checks its path. -/
def passes : Operation → Bool
  | getattr path => isAllowedPath (translatePath path)
  | _ => true

/-- The server has room for the translated paths. -/
def Contained (op : Operation) : Prop := ∀ path ∈ op.request.paths, TranslatesInside path

theorem Contained.marshals {op : Operation} (h : op.Contained) : op.request.Marshals :=
  fun path hpath => (translatesInside_iff.mp (h path hpath)).trans (by decide)

instance (op : Operation) : Decidable op.Contained :=
  decidable_of_iff (∀ path ∈ op.request.paths, path.val.length ≤ 507)
    (forall₂_congr fun _ _ => translatesInside_iff.symm)

/-- The operation on the machine itself: what it returns, the machine, and the calls made. -/
def perform (os : Os σ) (op : Operation) (u : σ × List Syscall) : ℤ × (σ × List Syscall) :=
  if ¬ op.passes then (-1, u)
  else match op.call with
    | none => (0, u)
    | some c =>
      match os.perform c u.1 with
      | (.error e, m) => (op.failure e, (m, u.2 ++ [c]))
      | (.ok _, m) => (0, (m, u.2 ++ [c]))

end Operation

def Server.Is (s : Server σ) (u : σ × List Syscall) : Prop := s.os = u.1 ∧ s.issued = u.2

variable {os : Os σ} {t : Transport} {env : Environment (Server σ)} {s s' : Server σ}
  {op : Operation} {q : Request} {c : Syscall}
  {m : σ} {u : σ × List Syscall}

/-! ## The server -/

theorem is_record {r : Except ℕ+ c.Ret} (h : s.Is u) (hc : os.perform c u.1 = (r, m)) :
    (s.record os c).Is (m, u.2 ++ [c]) := by
  obtain ⟨hos, hissued⟩ := h
  constructor
  · exact os_record_of os (hos ▸ hc)
  · exact congrArg (· ++ [c]) hissued

theorem exec_rxcRxcGetattr_ok {path : CString} {stemp : {bytes : Str // bytes.length = sizeofStat}}
    (hpath : isAllowedPath (translatePath path) = true)
    (h : os.perform (.lstat (translatePath path)) s.os = (.ok stemp, m)) :
    exec (rxcRxcGetattr os .deliver path) s = (.ok 0, { s.record os (.lstat (translatePath path)) with
      sent := ⟨some sizeofStat, s.sent.data ++ stemp.val⟩ }) := by
  have htake : stemp.val.take Wire.deliver.accepts = stemp.val :=
    List.take_of_length_le (stemp.property.trans_le (by decide))
  have hmin : min stemp.val.length Wire.deliver.accepts = sizeofStat := by
    rw [stemp.property]
    decide
  have hcode : ∀ x : Server σ, exec (xdrLong Wire.deliver sizeofStat : Serve σ Bool) x =
      (.ok true, { x with sent := { x.sent with header := some sizeofStat } }) := fun _ => rfl
  have hwrite : ∀ x : Server σ, exec (rxWrite Wire.deliver stemp.val : Serve σ ℕ) x =
      (.ok (min stemp.val.length Wire.deliver.accepts), { x with
        sent := { x.sent with
          data := x.sent.data ++ stemp.val.take Wire.deliver.accepts } }) := fun _ => rfl
  simp only [rxcRxcGetattr, hpath, Bool.not_true, Bool.false_eq_true, if_false]
  rw [exec_bind_ok (exec_sys_of os h)]
  dsimp only
  rw [exec_bind_ok (hcode _), exec_bind_ok (hwrite _), hmin, htake]
  rfl

theorem exec_serve_of_ok (hw : op.wraps = some (q, c)) (hpasses : op.passes = true) {r : c.Ret}
    (h : os.perform c s.os = (.ok r, m)) : ∃ out sent,
      exec (serve os .deliver q) s = (.ok (0, out), { s.record os c with sent := sent }) ∧
        ((∃ path, op = .getattr path) → sent.header = some (sizeofStat : ℤ) ∧ sent.data ≠ []) := by
  cases op with
  | getdir | read | write | release | fsync | flush => cases hw
  | getattr path =>
    cases hw
    refine ⟨_, _, exec_codeOnly (exec_rxcRxcGetattr_ok hpasses h), fun _ => ⟨rfl, ?_⟩⟩
    apply List.append_ne_nil_of_right_ne_nil
    apply List.ne_nil_of_length_pos
    rw [r.property]
    decide
  | readlink | openFile | statfs =>
    cases hw
    exact ⟨_, _, (exec_bind_ok (exec_sys_of os h)).trans rfl, nofun⟩
  | _ =>
    cases hw
    exact ⟨_, _, exec_codeOnly (exec_attemptElse_ok os h), nofun⟩

theorem request_of_wraps (hw : op.wraps = some (q, c)) : op.request = q ∧ op.call = some c := by
  cases op with
  | getdir | read | write | release | fsync | flush => cases hw
  | _ =>
    cases hw
    exact ⟨rfl, rfl⟩

theorem perform_of_error {e : ℕ+} (hpasses : op.passes = true) (hc : op.call = some c)
    (h : os.perform c u.1 = (.error e, m)) :
    op.perform os u = (op.failure e, (m, u.2 ++ [c])) := by
  simp [Operation.perform, hpasses, hc, h]

theorem perform_of_ok {r : c.Ret} (hpasses : op.passes = true) (hc : op.call = some c)
    (h : os.perform c u.1 = (.ok r, m)) : op.perform os u = (0, (m, u.2 ++ [c])) := by
  simp [Operation.perform, hpasses, hc, h]

structure Serves (os : Os σ) (s : Server σ) (op : Operation) (u : σ × List Syscall)
    (out : op.request.Out) (s' : Server σ) : Prop where
  exec_eq : exec (serve os .deliver op.request) s = (.ok ((op.perform os u).1, out), s')
  is : s'.Is (op.perform os u).2
  sent : (∃ path, op = .getattr path) → (op.perform os u).1 = 0 →
    s'.sent.header = some (sizeofStat : ℤ) ∧ s'.sent.data ≠ []

theorem serves_of_wraps (hw : op.wraps = some (q, c)) (hpasses : op.passes = true) (h : s.Is u) :
    ∃ out s', Serves os s op u out s' := by
  obtain ⟨rfl, hc⟩ := request_of_wraps hw
  have hpath : ∀ path, op = .getattr path → isAllowedPath (translatePath path) = true := by
    rintro path rfl
    exact hpasses
  rcases hr : os.perform c u.1 with ⟨e | r, m⟩
  · have hperform := perform_of_error hpasses hc hr
    obtain ⟨out, hexec⟩ := exec_serve_of_error hw hpath (h.1 ▸ hr)
    refine ⟨out, s.record os c, ?_, ?_, fun _ hzero => ?_⟩
    · rw [hperform]
      exact hexec
    · rw [hperform]
      exact is_record h hr
    · rw [hperform] at hzero
      exact absurd hzero (failure_ne_zero op e)
  · have hperform := perform_of_ok hpasses hc hr
    obtain ⟨out, sent, hexec, hsent⟩ := exec_serve_of_ok hw hpasses (h.1 ▸ hr)
    refine ⟨out, { s.record os c with sent := sent }, ?_, ?_, fun hgetattr _ => hsent hgetattr⟩
    · rw [hperform]
      exact hexec
    · rw [hperform]
      exact is_record h hr

theorem serves_of_plain (hp : op.Plain) (h : s.Is u) : ∃ out s', Serves os s op u out s' := by
  cases op with
  | read | write | getdir => exact hp.elim
  | fsync | flush => exact ⟨(), s, rfl, h, nofun⟩
  | release path fi mfi =>
    by_cases hfh : mfi.fh = 0
    · have hperform : (Operation.release path fi mfi).perform os u = (0, u) := by
        simp [Operation.perform, Operation.passes, Operation.call, hfh]
      refine ⟨(), s, ?_, hperform ▸ h, nofun⟩
      rw [hperform]
      simp [Operation.request, serve, codeOnly, rxcRxcRelease, hfh]
    · have hcall : (Operation.release path fi mfi).call =
          some (.close mfi.fh.toInt32.toInt) := if_pos hfh
      rcases hr : os.perform (.close mfi.fh.toInt32.toInt) u.1 with ⟨e | r, m⟩
      · have hperform : (Operation.release path fi mfi).perform os u = _ :=
          perform_of_error rfl hcall hr
        refine ⟨(), s.record os (.close mfi.fh.toInt32.toInt), ?_, ?_, nofun⟩
        · rw [hperform]
          refine exec_codeOnly ?_
          rw [rxcRxcRelease, if_pos hfh]
          exact exec_attemptElse_error os (h.1 ▸ hr)
        · rw [hperform]
          exact is_record h hr
      · have hperform : (Operation.release path fi mfi).perform os u = _ :=
          perform_of_ok rfl hcall hr
        refine ⟨(), s.record os (.close mfi.fh.toInt32.toInt), ?_, ?_, nofun⟩
        · rw [hperform]
          refine exec_codeOnly ?_
          rw [rxcRxcRelease, if_pos hfh]
          exact exec_attemptElse_ok os (h.1 ▸ hr)
        · rw [hperform]
          exact is_record h hr
  | getattr path =>
    by_cases hpasses : isAllowedPath (translatePath path) = true
    · exact serves_of_wraps rfl hpasses h
    · have hperform : (Operation.getattr path).perform os u = (-1, u) := if_pos hpasses
      refine ⟨(), s, ?_, hperform ▸ h, fun _ hzero => ?_⟩
      · rw [hperform]
        simp [Operation.request, serve, codeOnly, rxcRxcGetattr, hpasses]
      · have hne : (-1 : ℤ) ≠ 0 := by decide
        rw [hperform] at hzero
        exact absurd hzero hne
  | _ => exact serves_of_wraps rfl rfl h

/-! ## The client -/

theorem served_of_plain (henv : env.Reliable os t) (hp : op.Plain) (s : Server σ) :
    op.served env s = if op.request.Marshals then s.after os ⟨op.request, .deliver⟩ else s := by
  have hcall : ∀ q : Request, (env.call q s).2 =
      if q.Marshals then s.after os ⟨q, .deliver⟩ else s := by
    intro q
    rw [henv.call]
    unfold callServer
    split_ifs <;> rfl
  cases op with
  | read | write | getdir => exact hp.elim
  | getattr path =>
    change (env.split _ none s).2 = _
    rw [henv.download]
    unfold download
    split_ifs <;> rfl
  | _ => exact hcall _

theorem ret_getattrOutcome_of_data {call : Call} {length : ℤ} (hstart : call.start = 0)
    (hheader : call.header = some length) (hdata : getattrData call length ≠ []) :
    (getattrOutcome call).ret = 0 := by
  unfold getattrOutcome
  rw [if_neg (not_not_intro hstart), hheader]
  exact congrArg Outcome.ret (if_neg hdata)

theorem ret_getattr {path : CString} (hq : (Request.rxcGetattr path 100).Marshals)
    (hcode : s.code os ⟨.rxcGetattr path 100, .deliver⟩ = 0)
    (hheader : (s.after os ⟨.rxcGetattr path 100, .deliver⟩).sent.header = some (sizeofStat : ℤ))
    (hdata : (s.after os ⟨.rxcGetattr path 100, .deliver⟩).sent.data ≠ []) :
    (getattrOutcome (download os t (.rxcGetattr path 100) s).1).ret = 0 := by
  have hbytes : (download os t (.rxcGetattr path 100) s).1.bytes =
      (s.after os ⟨.rxcGetattr path 100, .deliver⟩).sent.data := by
    have hchunks : (download os t (.rxcGetattr path 100) s).1.chunks =
        t.cut (s.after os ⟨.rxcGetattr path 100, .deliver⟩).sent.data := by
      unfold download
      rw [if_pos hq]
      exact if_pos hcode
    rw [Call.bytes, hchunks, t.cut_flatMap]
  have hne : getattrData (download os t (.rxcGetattr path 100) s).1 sizeofStat ≠ [] := by
    rw [getattrData, hbytes, rxCount_natCast, Ne, List.take_eq_nil_iff, not_or]
    exact ⟨by decide, hdata⟩
  refine ret_getattrOutcome_of_data ?_ ?_ hne
  · unfold download
    rw [if_pos hq]
  · unfold download
    rw [if_pos hq]
    exact (if_pos hcode).trans hheader

theorem ret_of_plain (henv : env.Reliable os t) (hp : op.Plain) (c : Client (Server σ))
    (hgetattr : ∀ path, op = .getattr path → remoteCode os c.outside op.request = 0 →
      (c.outside.after os ⟨op.request, .deliver⟩).sent.header = some (sizeofStat : ℤ) ∧
        (c.outside.after os ⟨op.request, .deliver⟩).sent.data ≠ []) :
    (exec (op.run env) c).1 = .ok (remoteCode os c.outside op.request) := by
  have hcode : ∀ q : Request, (env.call q c.outside).1.code = remoteCode os c.outside q := by
    intro q
    rw [henv.call, code_callServer]
  cases op with
  | read | write | getdir => exact hp.elim
  | getattr path =>
    have hret := congrArg Prod.fst (@performs_xmpGetattr _ env path c)
    rw [henv.download] at hret
    refine hret.trans (congrArg Except.ok ?_)
    by_cases hcode : remoteCode os c.outside (.rxcGetattr path 100) = 0
    · obtain ⟨hheader, hdata⟩ := hgetattr path rfl hcode
      by_cases hq : (Request.rxcGetattr path 100).Marshals
      · have hzero := hcode
        rw [remoteCode, if_pos hq] at hzero
        exact (ret_getattr hq hzero hheader hdata).trans hcode.symm
      · rw [remoteCode, if_neg hq] at hcode
        exact absurd hcode (by decide)
    · obtain ⟨hlost, herror⟩ := download_of_remoteCode (t := t) hcode
      exact (ret_getattrOutcome hlost).trans herror
  | readlink path size =>
    exact (congrArg Prod.fst (exec_xmpReadlink path size c)).trans (congrArg Except.ok (hcode _))
  | openFile | statfs => exact (ret_remote _ _ _).trans (congrArg Except.ok (hcode _))
  | _ => exact (congrArg Prod.fst (exec_status _ c)).trans (congrArg Except.ok (hcode _))

theorem simulates_run (henv : env.Reliable os t) (hp : op.Plain) (hpaths : op.Contained) :
    Simulates (fun (c : Client (Server σ)) u => c.outside.Is u) (op.run env) (op.perform os) := by
  intro c u hc
  obtain ⟨buffer, hfollows⟩ := follows_run env op c
  have houtside : (exec (op.run env) c).2.outside = _ :=
    (congrArg (Client.outside ∘ Prod.snd) hfollows).trans (served_of_plain henv hp c.outside)
  obtain ⟨out, s', hserves⟩ := serves_of_plain (s := c.outside.begin) hp hc
  obtain ⟨hanswer, hafter⟩ := after_eq (i := ⟨op.request, .deliver⟩) os hserves.exec_eq
  have hcode : remoteCode os c.outside op.request = (op.perform os u).1 :=
    (if_pos hpaths.marshals).trans (congrArg Prod.fst hanswer)
  have hret : (exec (op.run env) c).1 = .ok (op.perform os u).1 := by
    rw [← hcode]
    apply ret_of_plain henv hp c
    intro path hpath hzero
    rw [hafter]
    exact hserves.sent ⟨path, hpath⟩ (hcode.symm.trans hzero)
  refine ⟨(exec (op.run env) c).2, Prod.ext hret rfl, ?_⟩
  change (exec (op.run env) c).2.outside.Is (op.perform os u).2
  rw [houtside, if_pos hpaths.marshals, hafter]
  exact hserves.is

/-- Over a transport that loses nothing, a session does what the system calls do when they are
made on the server's machine directly: the same machine is left, the same calls are made, in the
same order and each once, and every operation returns how its call went. -/
theorem session_direct (os : Os σ) (t : Transport) (env : Environment (Server σ))
    (henv : env.Reliable os t) (ops : List Operation)
    (hops : ∀ op ∈ ops, op.Plain ∧ op.Contained) (c : Client (Server σ)) :
    ∃ c', exec (ops.mapM (Operation.run env)) c =
        (.ok (inTurn (Operation.perform os) ops (c.outside.os, c.outside.issued)).1, c') ∧
      c'.outside.Is (inTurn (Operation.perform os) ops (c.outside.os, c.outside.issued)).2 :=
  Simulates.mapM (fun op hop => simulates_run henv (hops op hop).1 (hops op hop).2) c _ ⟨rfl, rfl⟩

/-- A link is made twice, and a file is removed, which the machine does not do. -/
theorem session_direct_links : ∃ c', exec ([.symlink ⟨str "/a", by decide⟩ ⟨str "/b", by decide⟩,
    .symlink ⟨str "/a", by decide⟩ ⟨str "/b", by decide⟩, .unlink ⟨str "/b", by decide⟩].mapM
      (Operation.run (overServer (Disk.os 0) (.sound 0))))
        ⟨.start ⟨[], [], []⟩ 0, [], .untouched fun _ => 0⟩ = (.ok [0, -17, -38], c') := by
  obtain ⟨c', hrun, -⟩ := session_direct (Disk.os 0) (.sound 0) (overServer (Disk.os 0) (.sound 0))
    (overServer_reliable _ _)
    [.symlink ⟨str "/a", by decide⟩ ⟨str "/b", by decide⟩,
      .symlink ⟨str "/a", by decide⟩ ⟨str "/b", by decide⟩, .unlink ⟨str "/b", by decide⟩]
    (List.forall_mem_cons.mpr ⟨⟨trivial, by decide⟩, List.forall_mem_cons.mpr ⟨⟨trivial, by decide⟩,
      List.forall_mem_singleton.mpr ⟨trivial, by decide⟩⟩⟩)
    ⟨.start ⟨[], [], []⟩ 0, [], .untouched fun _ => 0⟩
  refine ⟨c', hrun.trans (Prod.ext (congrArg Except.ok ?_) rfl)⟩
  decide

end M3Sec.Afsfuse
