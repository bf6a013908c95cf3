import Mathlib.Data.Int.Init
import M3Sec.Library.Directories
import M3Sec.Basic

/-! # Building the file system

The three programs mount a triple store in the same way. They add directories
`objects`, `subjects` and `predicates` to the root of the daemon, a directory for
each predicate under `subjects` and `objects`, and a file for each predicate under
`predicates`. The objects become files in `predicates_dirs`, a vector of directory
objects that `push_back` copies.
-/

namespace M3Sec.Vfs

open Directories Fallible

abbrev Fs := Objects Str Str

/-- What adding an entry does when its name is bound already. -/
inductive Rebinding | keep | replace
  deriving DecidableEq, Repr

/-- The choices of fusekit that the programs do not depend on. -/
structure Fusekit where
  directory : Rebinding
  file : Rebinding

/-- `daemon.root()`, an object that is there from the start. -/
def root : ℕ := 0

def Fs.fresh : Fs where
  entries _ _ := none
  next := 1

/-- `add_directory(name, make_default_directory())`: a reference to the directory that
the name is bound to afterwards. -/
def addDirectory (fk : Fusekit) (dir : ℕ) (name : Str) : Fallible Fs Exception ℕ := do
  let g ← get
  match fk.directory, g.entries dir (cstr name) with
  | .keep, some (.directory r) => return r
  | _, _ =>
    modify fun g => (g.create fun _ => none).bind dir (cstr name) (.directory g.next)
    return g.next

def addFile (fk : Fusekit) (dir : ℕ) (name content : Str) : Fallible Fs Exception PUnit := do
  let g ← get
  match fk.file, g.entries dir (cstr name) with
  | .keep, some _ => return
  | _, _ => modify fun g => g.bind dir (cstr name) (.file content)

/-- `push_back` of a directory: the vector gets an object of its own with the same map. -/
def copyDirectory (dir : ℕ) : Fallible Fs Exception ℕ := do
  let g ← get
  modify fun g => g.create (g.entries dir)
  return g.next

/-- The loops of the three programs. `count` is what the comparison with the loop index
makes of `predicates_dirs.size()`. -/
def fillVfs (count : ℕ → ℕ) (fk : Fusekit) (pred obj : List Str)
    (objects_dir subjects_dir predicates_dir : ℕ) : Fallible Fs Exception PUnit := do
  let predicates_dirs ← pred.mapM fun it => do
    let _ ← addDirectory fk subjects_dir it
    let dir ← addDirectory fk subjects_dir it
    copyDirectory dir
  (List.range (count predicates_dirs.length)).forM fun i => do
    let dir ← at' predicates_dirs i
    let name ← at' obj i
    addFile fk dir name name
  pred.forM fun it => addFile fk predicates_dir it it
  pred.forM fun it => do
    let _ ← addDirectory fk objects_dir it

def buildVfs (count : ℕ → ℕ) (fk : Fusekit) (pred obj : List Str) :
    Fallible Fs Exception PUnit := do
  let objects_dir ← addDirectory fk root (str "objects")
  let subjects_dir ← addDirectory fk root (str "subjects")
  let predicates_dir ← addDirectory fk root (str "predicates")
  fillVfs count fk pred obj objects_dir subjects_dir predicates_dir

inductive Program | sqlite | bdbVfs | testfs
  deriving DecidableEq, Repr

def toInt (size : ℕ) : ℤ := Int.bmod size (2 ^ 32)

/-- `bdb_vfs` converts the size to `int`, the others compare the index with it. -/
def Program.count : Program → ℕ → ℕ
  | .bdbVfs, size => (toInt size).toNat
  | _, size => size

/-- What a program makes of its three vectors; the subjects are only printed. -/
def Program.build (prog : Program) (fk : Fusekit) (_subj pred obj : List Str) :
    Fallible Fs Exception PUnit :=
  buildVfs prog.count fk pred obj

end M3Sec.Vfs
