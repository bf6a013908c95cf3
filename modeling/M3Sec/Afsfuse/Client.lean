import M3Sec.Library.Memory
import M3Sec.Afsfuse.Requests

/-! # The client

The operations in `xmp_oper`. Each works between `getconnection` and `relconnection`, most
of them with a single remote call; the three split calls are made of several calls of the
Rx library, with a `goto` where one of them fails. What happens is recorded. The outside
decides how often a wait for the semaphore is interrupted (it fails in no other way) and how
the calls turn out.
-/

namespace M3Sec.Afsfuse

open Fallible Memory

/-- A stub that failed: its code, and what it had unmarshalled. -/
structure Failure (out : Type) where
  code : {c : ℤ // c ≠ 0}
  left : Option out

abbrev Reply (out : Type) := Except (Failure out) out

def Reply.code {out : Type} : Reply out → ℤ
  | .ok _ => 0
  | .error f => f.code

def Reply.received {out : Type} : Reply out → Option out
  | .ok a => some a
  | .error f => f.left

theorem zero_nonpos : (0 : ℤ) ≤ 0 := Int.le_refl 0

/-- How the Rx calls of a split call turn out. -/
structure Call where
  /-- What the start of the call returns. -/
  start : ℤ
  encodes : Bool
  header : Option ℤ
  /-- What the calls of `rx_Read` read, one after the other, -/
  chunks : List {bs : Str // bs ≠ [] ∧ bs.length ≤ 1024}
  /-- and what it returns when nothing is left. -/
  last : {nbytes : ℤ // nbytes ≤ 0}
  /-- What `rx_Read` takes a negative count for. -/
  negative : ℕ
  written : ℤ
  error : ℤ
  ended : ℤ

structure Environment (ρ : Type) where
  interrupts : ρ → ℕ
  call : (q : Request) → ρ → Reply q.Out × ρ
  /-- A split call, with the length and the data that are sent in it. -/
  split : Request → Option (ℤ × Str) → ρ → Call × ρ

inductive Event where
  | interrupted
  | acquired
  | released
  | rpc (q : Request)
  | newCall
  | start (q : Request)
  | xdrLong
  | rxRead (nbytes : ℤ)
  | rxWrite (nbytes : ℤ)
  | rxError
  | endCall (error : ℤ)
  /-- An element of the array of handles is used. -/
  | element (iter : ℕ)
  | filler (name : CString) (type : ℤ)

/-- The outside, what happened, and the memory from the caller's buffer on. -/
structure Client (ρ : Type) where
  outside : ρ
  trace : List Event
  buffer : Region UInt8

inductive Goto where
  | throwerror

abbrev Op (ρ α : Type) := Fallible (Client ρ) Goto α

section Client

variable {ρ : Type} (env : Environment ρ)

def event (e : Event) : Op ρ Unit := modify fun s => { s with trace := s.trace ++ [e] }

def store (p : ℕ) (bs : Str) : Op ρ Unit := modify fun s => { s with buffer := s.buffer.store p bs }

def gotoIf (c : Bool) : Op ρ Unit := if c then throw .throwerror else pure ()

def getconnection : Op ρ Unit := do
  let s ← get
  (List.replicate (env.interrupts s.outside) Event.interrupted).forM event
  event .acquired

def relconnection : Op ρ Unit := event .released

/-! ## Calls -/

def ask {α : Type} (f : ρ → α × ρ) : Op ρ α := do
  let s ← get
  modify fun s => { s with outside := (f s.outside).2 }
  return (f s.outside).1

def rpc (q : Request) : Op ρ (Reply q.Out) := do
  event (.rpc q)
  ask (env.call q)

def start (q : Request) (upload : Option (ℤ × Str)) : Op ρ Call := do
  event .newCall
  event (.start q)
  ask (env.split q upload)

def decodeLong (call : Call) : Op ρ ℤ := do
  event .xdrLong
  match call.header with
  | none => throw .throwerror
  | some length => return length

/-- `rx_Read`, which waits until it has as many bytes as asked for, or no more are coming. -/
def rxRead (call : Call) (length : ℤ) : Op ρ ℤ := do
  let data := (call.chunks.flatMap Subtype.val).take (rxCount call.negative length)
  let nbytes := if data = [] then call.last.val else data.length
  event (.rxRead nbytes)
  store 0 data
  return nbytes

/-! ## The operations -/

def xmpGetattr (path : CString) : Op ρ ℤ := do
  -- `mypath`, the copy that is sent, has room for 511 characters
  getconnection env
  let call ← start env (.rxcGetattr path 100) none
  try
    gotoIf (call.start ≠ 0)
    let length ← decodeLong call
    let nbytes ← rxRead call length
    if nbytes ≤ 0 then do
      -- `sizeof(stbuf)`: the size of the pointer
      store 0 (List.replicate sizeofPointer 0)
      throw .throwerror
    else do
      event (.endCall 0)
      relconnection
      pure 0
  catch _ =>
    event .rxError
    event (.endCall call.error)
    relconnection
    pure call.error

/-- The loop of `xmp_getdir`, for the rounds from `iter` on. -/
def xmpGetdirLoop (handles : List MyDirhandle) (beyond : MyDirhandle) (fillerp : ℕ → ℤ) :
    (rounds iter : ℕ) → Op ρ Unit
  | 0, _ => pure ()
  | n + 1, iter => do
    let h := handles.getD iter beyond
    event (.element iter)
    event (.filler h.name h.type.toInt32.toInt)
    if fillerp iter ≠ 0 then pure () else xmpGetdirLoop handles beyond fillerp n (iter + 1)

/-- `fillerp` is what the calls of the filler return, `beyond` what lies behind the array. -/
def xmpGetdir (path : CString) (fillerp : ℕ → ℤ) (beyond : MyDirhandle) : Op ρ ℤ := do
  getconnection env
  match ← rpc env (.rxcGetdirWrapper path) with
  | .error _ => do
    relconnection
    return -1
  | .ok handles => do
    -- the loop runs up to `iter <= handles.bulkmydirhandles_len`
    xmpGetdirLoop handles beyond fillerp (handles.length + 1) 0
    relconnection
    return 0

def remote (q : Request) : Op ρ (Reply q.Out) := do
  getconnection env
  let reply ← rpc env q
  relconnection
  return reply

def status (q : Request) : Op ρ ℤ := do
  let reply ← remote env q
  return reply.code

def xmpOpen (path : CString) (fi : MyFileInfo) : Op ρ (ℤ × MyFileInfo) := do
  let reply ← remote env (.rxcOpen path fi.flags)
  return (reply.code, reply.received.elim fi fun hd => { fi with fh := hd })

/-- `st` is the uninitialised `mystatfs`. -/
def xmpStatfs (path : CString) (st : MyStatfs) : Op ρ (ℤ × Statfs ℕ) := do
  let reply ← remote env (.rxcStatfs path)
  return (reply.code, (reply.received.getD st).map UInt32.toNat)

/-- The loop of `xmp_read`, which only the end of the data leaves: `error` is 0 until then. -/
def xmpReadLoop (call : Call) :
    List {bs : Str // bs ≠ [] ∧ bs.length ≤ 1024} → (t : ℕ) → (readbytes : ℤ) → Op ρ (ℤ × ℤ)
  | [], _, readbytes => do
    event (.rxRead call.last.val)
    event .rxError
    return (readbytes + call.last.val, if call.error ≠ 0 then 1 else 0)
  | bs :: chunks, t, readbytes => do
    event (.rxRead bs.val.length)
    store t bs.val
    xmpReadLoop call chunks (t + bs.val.length) (readbytes + bs.val.length)

def xmpRead (path : CString) (size offset : ℕ) (fi : MyFileInfo) : Op ρ ℤ := do
  let msize := UInt32.ofNat size
  let moffset := UInt32.ofNat offset
  getconnection env
  let call ← start env (.rxcRead path msize moffset fi) none
  try
    gotoIf (call.start ≠ 0)
    let _length ← decodeLong call
    let (readbytes, error) ← xmpReadLoop call call.chunks 0 0
    event (.endCall error)
    relconnection
    pure readbytes
  catch _ =>
    relconnection
    pure 0

def xmpWrite (path : CString) (buffer : Str) (offset : ℕ) (fi : MyFileInfo) : Op ρ ℤ := do
  let msize := UInt32.ofNat buffer.length
  let moffset := UInt32.ofNat offset
  let length := msize.toInt32.toInt
  getconnection env
  let call ← start env (.rxcWrite path msize moffset fi) (some (length, buffer.take length.toNat))
  try
    gotoIf (call.start ≠ 0)
    event .xdrLong
    gotoIf (!call.encodes)
    event (.rxWrite call.written)
    gotoIf (call.written ≤ 0)
    event (.endCall 0)
    gotoIf (call.ended ≠ 0)
    relconnection
    pure length
  catch _ =>
    event .rxError
    relconnection
    pure call.error

def xmpChmod (path : CString) (mode : UInt32) : Op ρ ℤ := status env (.rxcChmod path mode)

def xmpChown (path : CString) (uid gid : UInt32) : Op ρ ℤ := status env (.rxcChown path uid gid)

def xmpUtime (path : CString) (actime modtime : UInt32) : Op ρ ℤ :=
  status env (.rxcUtime path actime modtime)

def xmpMknod (path : CString) (mode : UInt32) (rdev : ℕ) : Op ρ ℤ :=
  status env (.rxcMknod path mode (UInt32.ofNat rdev))

/-- A stub fills `buffer`, and all of its 511 bytes are copied to `buf`. -/
def xmpReadlink (path : CString) (size : ℕ) : Op ρ ℤ := do
  store 0 (List.replicate size 0)
  let reply ← remote env (.rxcReadlink path 512)
  let buffer : Str := reply.received.elim [] Subtype.val
  store 0 ((buffer ++ List.replicate 511 0).take (512 - 1))
  return reply.code

def xmpMkdir (path : CString) (mode : UInt32) : Op ρ ℤ := status env (.rxcMkdir path mode)

def xmpUnlink (path : CString) : Op ρ ℤ := status env (.rxcUnlink path)

def xmpRmdir (path : CString) : Op ρ ℤ := status env (.rxcRmdir path)

def xmpSymlink (source target : CString) : Op ρ ℤ := status env (.rxcSymlink source target)

def xmpRename (source target : CString) : Op ρ ℤ := status env (.rxcRename source target)

def xmpLink (source target : CString) : Op ρ ℤ := status env (.rxcLink source target)

def xmpTruncate (path : CString) (size : ℕ) : Op ρ ℤ :=
  status env (.rxcTruncate path (UInt32.ofNat size))

/-- `mfi` is not initialised: the assignments from `fi` are commented out. -/
def xmpRelease (path : CString) (_fi mfi : MyFileInfo) : Op ρ ℤ := status env (.rxcRelease path mfi)

def xmpFsync (path : CString) (isdatasync : ℤ) (_fi mfi : MyFileInfo) : Op ρ ℤ :=
  status env (.rxcFsync path isdatasync mfi)

def xmpFlush (path : CString) (_fi mfi : MyFileInfo) : Op ρ ℤ := status env (.rxcFlush path mfi)

/-- `xmp_oper`, with the arguments of each operation and what its uninitialised variables hold. -/
inductive Operation where
  | getattr (path : CString)
  | readlink (path : CString) (size : ℕ)
  | getdir (path : CString) (fillerp : ℕ → ℤ) (beyond : MyDirhandle)
  | mknod (path : CString) (mode : UInt32) (rdev : ℕ)
  | mkdir (path : CString) (mode : UInt32)
  | symlink (source target : CString)
  | unlink (path : CString)
  | rmdir (path : CString)
  | rename (source target : CString)
  | link (source target : CString)
  | chmod (path : CString) (mode : UInt32)
  | chown (path : CString) (uid gid : UInt32)
  | truncate (path : CString) (size : ℕ)
  | utime (path : CString) (actime modtime : UInt32)
  | openFile (path : CString) (fi : MyFileInfo)
  | read (path : CString) (size offset : ℕ) (fi : MyFileInfo)
  | write (path : CString) (buffer : Str) (offset : ℕ) (fi : MyFileInfo)
  | statfs (path : CString) (st : MyStatfs)
  | release (path : CString) (fi mfi : MyFileInfo)
  | fsync (path : CString) (isdatasync : ℤ) (fi mfi : MyFileInfo)
  | flush (path : CString) (fi mfi : MyFileInfo)

def Operation.run : Operation → Op ρ ℤ
  | getattr path => xmpGetattr env path
  | readlink path size => xmpReadlink env path size
  | getdir path fillerp beyond => xmpGetdir env path fillerp beyond
  | mknod path mode rdev => xmpMknod env path mode rdev
  | mkdir path mode => xmpMkdir env path mode
  | symlink source target => xmpSymlink env source target
  | unlink path => xmpUnlink env path
  | rmdir path => xmpRmdir env path
  | rename source target => xmpRename env source target
  | link source target => xmpLink env source target
  | chmod path mode => xmpChmod env path mode
  | chown path uid gid => xmpChown env path uid gid
  | truncate path size => xmpTruncate env path size
  | utime path actime modtime => xmpUtime env path actime modtime
  | openFile path fi => do
    let (ret, _) ← xmpOpen env path fi
    return ret
  | read path size offset fi => xmpRead env path size offset fi
  | write path buffer offset fi => xmpWrite env path buffer offset fi
  | statfs path st => do
    let (res, _) ← xmpStatfs env path st
    return res
  | release path fi mfi => xmpRelease env path fi mfi
  | fsync path isdatasync fi mfi => xmpFsync env path isdatasync fi mfi
  | flush path fi mfi => xmpFlush env path fi mfi

/-- The server is down: every wait is interrupted once, and every call fails. -/
def down : Environment Unit where
  interrupts _ := 1
  call _ _ := (.error ⟨⟨-1, by decide⟩, none⟩, ())
  split _ _ _ := (⟨-1, false, none, [], ⟨0, zero_nonpos⟩, 0, 0, -1, -1⟩, ())

end Client

end M3Sec.Afsfuse
