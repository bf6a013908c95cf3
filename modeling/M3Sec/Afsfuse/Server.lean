import Mathlib.Data.PNat.Basic
import M3Sec.Library.Fallible
import M3Sec.Afsfuse.Requests

/-! # The file server

Each procedure translates its paths and makes system calls with them. What the calls
return, and what they do to the machine, is for the operating system; every call is
recorded. The three split procedures exchange data with the client through the Rx call.
-/

namespace M3Sec.Afsfuse

open Fallible

structure Dirent where
  d_name : CString
  d_type : UInt8
  d_ino : ℕ

/-- The system calls of the server. `opendir` stands for the whole pass over a directory:
it returns the entries that `readdir` goes through until it returns null. -/
inductive Syscall where
  | lstat (path : CString)
  | opendir (path : CString)
  | rmdir (path : CString)
  | openFile (path : CString) (flags : ℤ)
  | pread (fd : ℤ) (size offset : ℕ)
  | pwrite (fd : ℤ) (data : Str) (offset : ℕ)
  | close (fd : ℤ)
  | chmod (path : CString) (mode : UInt32)
  | mknod (path : CString) (mode rdev : UInt32)
  | lchown (path : CString) (uid gid : UInt32)
  | utime (path : CString) (actime modtime : UInt32)
  | mkdir (path : CString) (mode : UInt32)
  | unlink (path : CString)
  | truncate (path : CString) (size : UInt32)
  | statfs (path : CString)
  | readlink (path : CString) (size : ℕ)
  | symlink (source target : CString)
  | rename (source target : CString)
  | link (source target : CString)
  deriving DecidableEq

namespace Syscall

abbrev Ret : Syscall → Type
  | lstat _ => {bytes : Str // bytes.length = sizeofStat}
  | opendir _ => List Dirent
  | openFile .. => {fd : ℕ // fd < 2 ^ 31}
  | pread _ size _ => {data : Str // data.length ≤ size}
  | pwrite _ data _ => {nbytes : ℕ // nbytes ≤ data.length}
  | statfs _ => Statfs ℕ
  | readlink _ size => {contents : Str // contents.length ≤ size}
  | _ => Unit

def paths : Syscall → List CString
  | lstat path | opendir path | rmdir path | openFile path _ | chmod path _ | mknod path ..
  | lchown path .. | utime path .. | mkdir path _ | unlink path | truncate path _ | statfs path
  | readlink path _ => [path]
  | symlink source target | rename source target | link source target => [source, target]
  | pread .. | pwrite .. | close _ => []

def descriptor : Syscall → Option ℤ
  | pread fd .. | pwrite fd .. | close fd => some fd
  | _ => none

end Syscall

/-- An operating system: what its calls return, or the `errno` with which they fail, and
what they make of the state of the machine. -/
structure Os (σ : Type) where
  perform : (c : Syscall) → σ → Except ℕ+ c.Ret × σ
  /-- No descriptor is negative. -/
  badf : ∀ c fd s, c.descriptor = some fd → fd < 0 → ∃ e, perform c s = (.error e, s)

structure Sent where
  header : Option ℤ
  data : Str

/-- The machine, `errno`, the calls made so far, and what was written to the Rx call. -/
structure Server (σ : Type) where
  os : σ
  errno : ℕ
  issued : List Syscall
  sent : Sent

structure Wire where
  /-- `xdr_long` encodes. -/
  encodes : Bool
  /-- `rx_Write` takes at most this many bytes. -/
  accepts : ℕ
  /-- What `xdr_long` decodes. -/
  header : Option ℤ
  /-- What `rx_Read` can read. -/
  data : Str
  /-- What it takes a negative count for. -/
  negative : ℕ
  /-- `rx_Error`. -/
  error : ℤ
  /-- What `length` holds before it is assigned. -/
  uninitialised : ℤ

abbrev Serve (σ α : Type) := Fallible (Server σ) Empty α

section Server

variable {σ : Type} (os : Os σ) (wire : Wire)

def Server.record (s : Server σ) (c : Syscall) : Server σ where
  os := (os.perform c s.os).2
  errno := match (os.perform c s.os).1 with
    | .error e => e
    | .ok _ => s.errno
  issued := s.issued ++ [c]
  sent := s.sent

def sys (c : Syscall) : Serve σ (Except ℕ+ c.Ret) := do
  let s ← get
  modify fun s => s.record os c
  return (os.perform c s.os).1

def minusErrno : Serve σ ℤ := do
  let s ← get
  return -s.errno

def xdrLong (value : ℤ) : Serve σ Bool := do
  if wire.encodes then
    modify fun s => { s with sent := { s.sent with header := some value } }
    return true
  else return false

def rxWrite (data : Str) : Serve σ ℕ := do
  modify fun s => { s with sent := { s.sent with data := s.sent.data ++ data.take wire.accepts } }
  return min data.length wire.accepts

/-- A system call, what to return when it fails, and what otherwise. -/
def attemptElse (c : Syscall) (failure : Serve σ ℤ) (error : ℤ) : Serve σ ℤ := do
  match ← sys os c with
  | .error _ => failure
  | .ok _ => return error

def attempt (c : Syscall) (failure : Serve σ ℤ) : Serve σ ℤ := attemptElse os c failure 0

def openOrMinusOne (path : CString) (flags : ℤ) : Serve σ ℤ := do
  match ← sys os (.openFile path flags) with
  | .error _ => return -1
  | .ok fd => return fd

def closeIfPositive (fd : ℤ) : Serve σ Unit := do
  if 0 < fd then
    let _ ← sys os (.close fd)

/-! ## The procedures -/

def rxcRxcGetattr (path : CString) : Serve σ ℤ := do
  let lbuff := translatePath path
  if !isAllowedPath lbuff then
    return -1
  match ← sys os (.lstat lbuff) with
  | .error _ => minusErrno
  | .ok stemp => do
    let encoded ← xdrLong wire sizeofStat
    let nbytes ← rxWrite wire stemp.val
    let error : ℤ := if encoded then 0 else -1
    return if nbytes ≠ sizeofStat then -1 else error

/-- The array that `rxc_getdirWrapper` fills, and for how many elements it has room. -/
structure Bulkmydirhandles where
  len : ℕ
  val : List MyDirhandle
  room : ℕ

def Dirent.handle (de : Dirent) : MyDirhandle where
  type := de.d_type.toUInt32
  inode := UInt32.ofNat de.d_ino
  name := de.d_name

def Bulkmydirhandles.fill (handles : Bulkmydirhandles) (de : Dirent) : Bulkmydirhandles where
  len := handles.len + 1
  val := handles.val ++ [de.handle]
  room := handles.room

def rxcRxcGetdirWrapper (path : CString) : Serve σ (ℤ × Bulkmydirhandles) := do
  let lbuff := translatePath path
  match ← sys os (.opendir lbuff) with
  | .error _ => return (1, ⟨0, [], 0⟩)
  | .ok counted => do
    let no := counted.length
    match ← sys os (.opendir lbuff) with
    | .error _ => return (1, ⟨0, [], no + 1⟩)
    | .ok entries => return (0, entries.foldl Bulkmydirhandles.fill ⟨0, [], no + 1⟩)

def rxcRxcRmdir (path : CString) : Serve σ ℤ := attempt os (.rmdir (translatePath path)) minusErrno

def oWronly : ℤ := 1

def oRdonly : ℤ := 0

def rxcRxcWrite (path : CString) (offset : UInt32) : Serve σ ℤ := do
  let lbuff := translatePath path
  let error : ℤ := if wire.header.isSome then 0 else 1
  let length := wire.header.getD wire.uninitialised
  let buffer := wire.data.take (rxCount wire.negative length)
  let error : ℤ := if (buffer.length : ℤ) ≠ length then wire.error else error
  let fd ← openOrMinusOne os lbuff oWronly
  let error ← (if fd = 0 then minusErrno else pure error)
  let error ← attemptElse os (.pwrite fd buffer offset.toNat) minusErrno error
  closeIfPositive os fd
  return error

def rxcRxcChmod (path : CString) (mode : UInt32) : Serve σ ℤ :=
  attempt os (.chmod (translatePath path) mode) (pure (-1))

def rxcRxcMknod (path : CString) (mode rdev : UInt32) : Serve σ ℤ :=
  attempt os (.mknod (translatePath path) mode rdev) minusErrno

def rxcRxcChown (path : CString) (uid gid : UInt32) : Serve σ ℤ :=
  attempt os (.lchown (translatePath path) uid gid) (pure (-1))

def rxcRxcUtime (path : CString) (actime modtime : UInt32) : Serve σ ℤ :=
  attempt os (.utime (translatePath path) actime modtime) (pure (-1))

def rxcRxcMkdir (path : CString) (mode : UInt32) : Serve σ ℤ :=
  attempt os (.mkdir (translatePath path) mode) minusErrno

def rxcRxcUnlink (path : CString) : Serve σ ℤ :=
  attempt os (.unlink (translatePath path)) minusErrno

def rxcRxcTruncate (path : CString) (size : UInt32) : Serve σ ℤ :=
  attempt os (.truncate (translatePath path) size) minusErrno

def rxcRxcStatfs (path : CString) : Serve σ (ℤ × MyStatfs) := do
  match ← sys os (.statfs (translatePath path)) with
  | .error _ => return (← minusErrno, ⟨0, 0, 0, 0, 0, 0, 0, 0, 0, 0, fun _ => 0⟩)
  | .ok st => return (0, st.map UInt32.ofNat)

def rxcRxcFlush (_path : CString) (_fi : MyFileInfo) : Serve σ ℤ := pure 0

def rxcRxcRelease (_path : CString) (fi : MyFileInfo) : Serve σ ℤ := do
  if fi.fh ≠ 0 then
    attempt os (.close fi.fh.toInt32.toInt) minusErrno
  else return 0

def rxcRxcFsync (_path : CString) (_isdatasync : ℤ) (_fi : MyFileInfo) : Serve σ ℤ := pure 0

def rxcRxcReadlink (path : CString) : Serve σ (ℤ × CString) := do
  match ← sys os (.readlink (translatePath path) (512 - 1)) with
  | .error _ => return (← minusErrno, ⟨[], by simp⟩)
  | .ok data => return (0, toCString data.val)

def rxcRxcSymlink (source target : CString) : Serve σ ℤ :=
  attempt os (.symlink (translatePath source) (translatePath target)) minusErrno

def rxcRxcRename (source target : CString) : Serve σ ℤ :=
  attempt os (.rename (translatePath source) (translatePath target)) minusErrno

def rxcRxcLink (source target : CString) : Serve σ ℤ :=
  attempt os (.link (translatePath source) (translatePath target)) minusErrno

def rxcRxcRead (path : CString) (size offset : UInt32) : Serve σ ℤ := do
  let lbuff := translatePath path
  let fd ← openOrMinusOne os lbuff oRdonly
  let error : ℤ := if fd = 0 then 1 else 0
  -- `nbytes = pread(...) == -1` assigns the result of the comparison
  let (nbytes, buffer, error) ← (show Serve σ (ℕ × Str × ℤ) from do
    match ← sys os (.pread fd size.toNat offset.toNat) with
    | .error _ => return (1, [], ← minusErrno)
    | .ok data => return (0, data.val, error))
  let error ← (if error = 0 then do
      let encoded ← xdrLong wire nbytes
      let error : ℤ := if encoded then 0 else 1
      let written ← rxWrite wire (buffer.take nbytes)
      return if written ≠ nbytes then 1 else error
    else pure error)
  closeIfPositive os fd
  return error

def rxcRxcOpen (path : CString) (flags : ℤ) : Serve σ (ℤ × UInt32) := do
  match ← sys os (.openFile (translatePath path) flags) with
  | .error _ => return (← minusErrno, -1)
  | .ok fd => return (0, UInt32.ofNat fd)

def codeOnly (x : Serve σ ℤ) : Serve σ (ℤ × Unit) := do
  return (← x, ())

/-- `rxc_ExecuteRequest`. -/
def serve : (q : Request) → Serve σ (ℤ × q.Out)
  | .rxcGetattr mypath _ => codeOnly (rxcRxcGetattr os wire mypath)
  | .rxcGetdirWrapper path => do
    let (error, handles) ← rxcRxcGetdirWrapper os path
    return (error, handles.val.take handles.len)
  | .rxcRead path size offset _ => codeOnly (rxcRxcRead os wire path size offset)
  | .rxcOpen path flags => rxcRxcOpen os path flags
  | .rxcWrite path _ offset _ => codeOnly (rxcRxcWrite os wire path offset)
  | .rxcChmod path mode => codeOnly (rxcRxcChmod os path mode)
  | .rxcChown path uid gid => codeOnly (rxcRxcChown os path uid gid)
  | .rxcUtime path actime modtime => codeOnly (rxcRxcUtime os path actime modtime)
  | .rxcMknod path mode rdev => codeOnly (rxcRxcMknod os path mode rdev)
  | .rxcMkdir path mode => codeOnly (rxcRxcMkdir os path mode)
  | .rxcUnlink path => codeOnly (rxcRxcUnlink os path)
  | .rxcRmdir path => codeOnly (rxcRxcRmdir os path)
  | .rxcRename source target => codeOnly (rxcRxcRename os source target)
  | .rxcTruncate path size => codeOnly (rxcRxcTruncate os path size)
  | .rxcRelease path fi => codeOnly (rxcRxcRelease os path fi)
  | .rxcReadlink path _ => rxcRxcReadlink os path
  | .rxcSymlink source target => codeOnly (rxcRxcSymlink os source target)
  | .rxcLink source target => codeOnly (rxcRxcLink os source target)
  | .rxcStatfs path => rxcRxcStatfs os path
  | .rxcFsync path isdatasync fi => codeOnly (rxcRxcFsync path isdatasync fi)
  | .rxcFlush path fi => codeOnly (rxcRxcFlush path fi)

structure Incoming where
  request : Request
  wire : Wire

namespace Server

def start (m : σ) (errno : ℕ) : Server σ := ⟨m, errno, [], ⟨none, []⟩⟩

def begin (s : Server σ) : Server σ := { s with sent := ⟨none, []⟩ }

def answer (s : Server σ) (i : Incoming) : ℤ × i.request.Out :=
  result (serve os i.wire i.request) s.begin

def code (s : Server σ) (i : Incoming) : ℤ := (s.answer os i).1

def after (s : Server σ) (i : Incoming) : Server σ :=
  (exec (serve os i.wire i.request) s.begin).2

end Server

variable {c : Syscall} {s t : Server σ} {e : ℕ+} {m : σ}

theorem exec_sys : exec (sys os c) s = (.ok (os.perform c s.os).1, s.record os c) := rfl

theorem exec_sys_of {r : Except ℕ+ c.Ret} (h : os.perform c s.os = (r, m)) :
    exec (sys os c) s = (.ok r, s.record os c) := by
  rw [exec_sys, h]

@[simp] theorem os_begin : s.begin.os = s.os := rfl

@[simp] theorem os_record : (s.record os c).os = (os.perform c s.os).2 := rfl

theorem os_record_of {r : Except ℕ+ c.Ret} (h : os.perform c s.os = (r, m)) :
    (s.record os c).os = m := congrArg Prod.snd h

@[simp] theorem exec_minusErrno :
    exec (minusErrno : Serve σ ℤ) s = (.ok (-s.errno), s) := rfl

theorem errno_record (h : os.perform c s.os = (.error e, m)) : (s.record os c).errno = e := by
  simp only [Server.record, h]

theorem exec_attemptElse_error {error : ℤ} (h : os.perform c s.os = (.error e, m)) :
    exec (attemptElse os c minusErrno error) s = (.ok (-(e : ℕ)), s.record os c) := by
  rw [attemptElse, exec_bind_ok (exec_sys_of os h), ← errno_record os h]
  rfl

theorem exec_attemptElse_ok {r : c.Ret} {failure : Serve σ ℤ} {error : ℤ}
    (h : os.perform c s.os = (.ok r, m)) :
    exec (attemptElse os c failure error) s = (.ok error, s.record os c) := by
  rw [attemptElse, exec_bind_ok (exec_sys_of os h)]
  rfl

theorem after_eq {i : Incoming} {a : ℤ × i.request.Out}
    (h : exec (serve os i.wire i.request) s.begin = (.ok a, t)) :
    s.answer os i = a ∧ s.after os i = t := by
  unfold Server.answer Server.after result
  rw [h]
  exact ⟨rfl, rfl⟩

theorem exec_codeOnly {x : Serve σ ℤ} {error : ℤ} (h : exec x s = (.ok error, t)) :
    exec (codeOnly x) s = (.ok (error, ()), t) := by
  rw [codeOnly, exec_bind_ok h]
  rfl

/-! ## Invariants -/

section Invariant

variable {I : Server σ → Prop} {E : Empty → Server σ → Prop} {fd flags value : ℤ} {path : CString}

theorem minusErrno_ensures : Ensures I minusErrno (fun _ => I) E := fun _ hs => hs

theorem openOrMinusOne_ensures (h : ∀ s, I s → I (s.record os (.openFile path flags))) :
    Ensures I (openOrMinusOne os path flags) (fun _ => I) E := by
  have hsys : Ensures I (sys os (.openFile path flags)) (fun _ => I) E := h
  refine hsys.bind fun r => ?_
  cases r <;> exact .pure fun _ hs => hs

theorem closeIfPositive_ensures (h : ∀ s, I s → I (s.record os (.close fd))) :
    Ensures I (closeIfPositive os fd) (fun _ => I) E := by
  have hsys : Ensures I (sys os (.close fd)) (fun _ => I) E := h
  exact .ite (hsys.bind fun _ => .pure fun _ hs => hs) (.pure fun _ hs => hs)

theorem xdrLong_ensures
    (h : ∀ s, I s → I { s with sent := { s.sent with header := some value } }) :
    Ensures I (xdrLong wire value) (fun _ => I) E :=
  .ite (Ensures.bind (.modify h) fun _ => .pure fun _ hs => hs) (.pure fun _ hs => hs)

theorem rxWrite_ensures {data : Str}
    (h : ∀ s, I s →
      I { s with sent := { s.sent with data := s.sent.data ++ data.take wire.accepts } }) :
    Ensures I (rxWrite wire data) (fun _ => I) E :=
  Ensures.bind (.modify h) fun _ => .pure fun _ hs => hs

end Invariant

end Server

end M3Sec.Afsfuse
