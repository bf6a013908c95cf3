import M3Sec.Afsfuse.Paths

/-! # The remote procedures

The procedures of `afsfuse.xg`, with their parameters. `GetIpAddress` ends the client
unless a `u_long` has four bytes, so the program runs on machines whose `int`, `long` and
pointers have 32 bits.
-/

namespace M3Sec.Afsfuse

def sizeofPointer : ℕ := 4

/-- `sizeof(struct stat)`, with 64-bit offsets. -/
def sizeofStat : ℕ := 96

def mymaxpath : ℕ := 512

/-- How many bytes `rx_Read` is asked for. What it takes a negative count for is left open. -/
def rxCount (negative : ℕ) (nbytes : ℤ) : ℕ := if nbytes < 0 then negative else nbytes.toNat

@[simp] theorem rxCount_natCast (negative n : ℕ) : rxCount negative n = n :=
  if_neg (Int.not_lt.mpr (Int.natCast_nonneg n))

structure MyFileInfo where
  flags : ℤ
  fh : UInt32
  writepage : ℤ
  deriving DecidableEq

structure MyDirhandle where
  type : UInt32
  inode : UInt32
  name : CString
  deriving DecidableEq

/-- `struct mystatfs`, or `struct statfs`, whose counts may be wider. -/
structure Statfs (count : Type) where
  f_type : count
  f_bsize : count
  f_blocks : count
  f_bfree : count
  f_bavail : count
  f_files : count
  f_ffree : count
  f_fsid1 : count
  f_fsid2 : count
  f_namelen : count
  f_spare : Fin 6 → count

def Statfs.map {α β : Type} (g : α → β) (st : Statfs α) : Statfs β where
  f_type := g st.f_type
  f_bsize := g st.f_bsize
  f_blocks := g st.f_blocks
  f_bfree := g st.f_bfree
  f_bavail := g st.f_bavail
  f_files := g st.f_files
  f_ffree := g st.f_ffree
  f_fsid1 := g st.f_fsid1
  f_fsid2 := g st.f_fsid2
  f_namelen := g st.f_namelen
  f_spare i := g (st.f_spare i)

abbrev MyStatfs := Statfs UInt32

/-- The procedures 1 to 21. -/
inductive Request where
  | rxcGetattr (mypath : CString) (dummy : ℤ)
  | rxcGetdirWrapper (path : CString)
  | rxcRead (path : CString) (size offset : UInt32) (fi : MyFileInfo)
  | rxcOpen (path : CString) (flags : ℤ)
  | rxcWrite (path : CString) (size offset : UInt32) (fi : MyFileInfo)
  | rxcChmod (path : CString) (mode : UInt32)
  | rxcChown (path : CString) (uid gid : UInt32)
  | rxcUtime (path : CString) (actime modtime : UInt32)
  | rxcMknod (path : CString) (mode rdev : UInt32)
  | rxcMkdir (path : CString) (mode : UInt32)
  | rxcUnlink (path : CString)
  | rxcRmdir (path : CString)
  | rxcRename (source target : CString)
  | rxcTruncate (path : CString) (size : UInt32)
  | rxcRelease (path : CString) (fi : MyFileInfo)
  | rxcReadlink (path : CString) (size : UInt32)
  | rxcSymlink (source target : CString)
  | rxcLink (source target : CString)
  | rxcStatfs (path : CString)
  | rxcFsync (path : CString) (isdatasync : ℤ) (fi : MyFileInfo)
  | rxcFlush (path : CString) (fi : MyFileInfo)
  deriving DecidableEq

namespace Request

def paths : Request → List CString
  | rxcGetattr path _ | rxcGetdirWrapper path | rxcRead path .. | rxcOpen path _
  | rxcWrite path .. | rxcChmod path _ | rxcChown path .. | rxcUtime path .. | rxcMknod path ..
  | rxcMkdir path _ | rxcUnlink path | rxcRmdir path | rxcTruncate path _ | rxcRelease path _
  | rxcReadlink path _ | rxcStatfs path | rxcFsync path .. | rxcFlush path _ => [path]
  | rxcRename source target | rxcSymlink source target | rxcLink source target => [source, target]

abbrev Out : Request → Type
  | rxcGetdirWrapper _ => List MyDirhandle
  | rxcOpen .. => UInt32
  | rxcReadlink .. => CString
  | rxcStatfs _ => MyStatfs
  | _ => Unit

/-- The strings keep the bounds of the definition, else they are not put on the wire. -/
def Marshals (q : Request) : Prop := ∀ path ∈ q.paths, path.val.length ≤ mymaxpath

instance (q : Request) : Decidable q.Marshals :=
  inferInstanceAs (Decidable (∀ path ∈ q.paths, path.val.length ≤ mymaxpath))

theorem marshals_iff {q : Request} {path : CString} (h : q.paths = [path]) :
    q.Marshals ↔ path.val.length ≤ mymaxpath := by
  unfold Marshals
  rw [h, List.forall_mem_singleton]

end Request

end M3Sec.Afsfuse
