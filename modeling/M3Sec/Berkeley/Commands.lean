import M3Sec.Berkeley.Store

/-! # The commands of `bdb_vfs`

Every command but the last makes its calls inside a `try` block that turns any exception
into the return value `-1`. The menu ignores the return values, so the next command runs
in whatever state the last one left. Only `createDbVfs` can end the program, by an
exception out of the loops that build the file system.
-/

namespace M3Sec.Berkeley

open Fallible

def call (f : Faults) (c : Call) : Fallible World Exception PUnit := do
  if f c then
    modify (·.failed c)
    throw .dbException
  else
    modify (·.done c)

/-- A `try` block whose handlers only print. -/
def guarded (x : Fallible World Exception ℤ) : Fallible World Exception ℤ :=
  tryCatch x fun _ => pure (-1)

def createDb (f : Faults) : Fallible World Exception ℤ := guarded do
  call f (.setFlags .s)
  call f (.setFlags .p)
  call f (.setFlags .o)
  -- only create
  call f (.openDb .s)
  call f (.openDb .p)
  call f (.openDb .o)
  return 0

def closeDb (f : Faults) : Fallible World Exception ℤ := guarded do
  call f (.close .s)
  call f (.close .p)
  call f (.close .o)
  return 0

def key : Part → Str
  | .s => str "subject"
  | .p => str "predicate"
  | .o => str "object"

/-- The values of the inserted records, in the order of the triples. -/
def values : Part → List Str
  | .s => [str "I", str "Kirill", str "Katya"]
  | .p => [str "am", str "has", str "sister of"]
  | .o => [str "Kirill.", str "a sister.", str "Kirill"]

def record (h : Part) (value : Str) : Record := ⟨key h, terminate value⟩

/-- The check that the databases are open is only announced in a comment. -/
def insertDbData (f : Faults) : Fallible World Exception ℤ := guarded do
  (values .s).forM fun value => call f (.put .s (record .s value))
  (values .p).forM fun value => call f (.put .p (record .p value))
  (values .o).forM fun value => call f (.put .o (record .o value))
  return 0

/-- The loop of `printDbData`, from the `n`-th get on, with the records that the three
cursors have still to walk. A get at the end of a cursor returns something else than 0. -/
def walk (f : Faults) (n : ℕ) : (cur_s cur_p cur_o : List Record) → Fallible World Exception PUnit
  | [], _, _ => call f (.get .s n)
  | _ :: _, [], _ => do
    call f (.get .s n)
    call f (.get .p n)
  | _ :: _, _ :: _, [] => do
    call f (.get .s n)
    call f (.get .p n)
    call f (.get .o n)
  | data_s :: cur_s, data_p :: cur_p, data_o :: cur_o => do
    call f (.get .s n)
    call f (.get .p n)
    call f (.get .o n)
    modify (·.push data_s data_p data_o)
    walk f (n + 1) cur_s cur_p cur_o

def printDbData (f : Faults) : Fallible World Exception ℤ := guarded do
  call f (.cursor .s)
  call f (.cursor .p)
  call f (.cursor .o)
  let w ← get
  walk f 0 (w.db .s).records (w.db .p).records (w.db .o).records
  call f (.closeCursor .s)
  call f (.closeCursor .p)
  call f (.closeCursor .o)
  return 0

def buildOn (fk : Vfs.Fusekit) : Fallible World Exception PUnit := do
  let w ← get
  match exec (Vfs.Program.build .bdbVfs fk (w.vector .s) (w.vector .p) (w.vector .o)) w.fs with
  | (.ok _, fs) => modify fun w => { w with fs := fs }
  | (.error e, fs) =>
    modify fun w => { w with fs := fs }
    throw e

/-- The result of `daemon.run` is returned to the menu, which ignores it. -/
def createDbVfs (fk : Vfs.Fusekit) (f : Faults) : Fallible World Exception PUnit := do
  buildOn fk
  let _ ← closeDb f

/-! ## The menu -/

inductive Command | createDb | insertDbData | printDbData | closeDb | createDbVfs
  deriving DecidableEq, Repr

/-- `switch (key)`; any other key is answered with `Wrong key!!!`. -/
def Command.ofKey : ℤ → Option Command
  | 1 => some .createDb
  | 2 => some .insertDbData
  | 3 => some .printDbData
  | 4 => some .closeDb
  | 5 => some .createDbVfs
  | _ => none

/-- What is entered at a prompt, and which calls throw until the next prompt. -/
structure Input where
  key : ℤ
  faults : Faults

def Input.fine (key : ℤ) : Input := { key := key, faults := fun _ => false }

def Input.failing (key : ℤ) (c : Call) : Input := { key := key, faults := fun c' => c' = c }

def Command.execute (fk : Vfs.Fusekit) (f : Faults) : Command → Fallible World Exception PUnit
  | .createDb => do let _ ← Berkeley.createDb f
  | .insertDbData => do let _ ← Berkeley.insertDbData f
  | .printDbData => do let _ ← Berkeley.printDbData f
  | .closeDb => do let _ ← Berkeley.closeDb f
  | .createDbVfs => Berkeley.createDbVfs fk f

/-- The state at the next prompt; there is none when an exception ends the program. -/
def prompt (fk : Vfs.Fusekit) (w : World) (i : Input) : Option World :=
  match Command.ofKey i.key with
  | none => some w
  | some c =>
    match exec (c.execute fk i.faults) w with
    | (.ok _, t) => some t
    | (.error _, _) => none

end M3Sec.Berkeley
