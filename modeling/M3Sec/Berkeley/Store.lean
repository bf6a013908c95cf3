import M3Sec.Library.Scripts
import M3Sec.Vfs.Builder

/-! # The databases of `bdb_vfs`

Each part of the triples has a B-tree database of its own, with a global handle. A call
of Berkeley DB either returns or throws a `DbException`, and it is for the environment to
choose which calls throw. Berkeley DB does not define what a call does that the phase of
its handle forbids; here it may return or throw like any other.
-/

namespace M3Sec.Berkeley

open Fallible Scripts

inductive Phase | created | opened | closed
  deriving DecidableEq, Repr

/-- A key with one of its values. The values are stored with the terminating NUL. -/
structure Record where
  key : Str
  value : Terminated
  deriving DecidableEq

structure Db where
  phase : Phase
  records : List Record
  cursors : ℕ

/-- The calls on the handle of a part and on its cursor. The gets are numbered from the
opening of the cursor. -/
inductive Call
  | setFlags (h : Part)
  | openDb (h : Part)
  | put (h : Part) (r : Record)
  | cursor (h : Part)
  | get (h : Part) (n : ℕ)
  | closeCursor (h : Part)
  | close (h : Part)
  deriving DecidableEq

def Call.handle : Call → Part
  | setFlags h | openDb h | put h _ | cursor h | get h _ | closeCursor h | close h => h

/-- With `DB_DUP`, a put adds the record after the duplicates of its key. -/
def insertDup (r : Record) (l : List Record) : List Record :=
  l.takeWhile (·.key ≤ r.key) ++ r :: l.dropWhile (·.key ≤ r.key)

/-- What a call that returns does to the handle. `DB_TRUNCATE` empties the database. -/
def Db.done : Call → Db → Db
  | .openDb _, d => { d with phase := .opened, records := [] }
  | .put _ r, d => { d with records := insertDup r d.records }
  | .cursor _, d => { d with cursors := d.cursors + 1 }
  | .closeCursor _, d => { d with cursors := d.cursors - 1 }
  | .close _, d => { d with phase := .closed, cursors := 0 }
  | .setFlags _, d | .get _ _, d => d

/-- What a call that throws does to the handle: `close` takes the handle or the cursor
away whether it throws or not. -/
def Db.failed : Call → Db → Db
  | .closeCursor _, d => { d with cursors := d.cursors - 1 }
  | .close _, d => { d with phase := .closed, cursors := 0 }
  | _, d => d

structure Issue where
  call : Call
  phase : Phase
  deriving DecidableEq

/-- The globals `db_s`, `db_p`, `db_o` and `subj_vector`, `pred_vector`, `obj_vector`, the
objects of the daemon, and the calls issued so far. -/
structure World where
  db : Part → Db
  vector : Part → List Str
  fs : Vfs.Fs
  issued : List Issue

def World.start : World where
  db _ := { phase := .created, records := [], cursors := 0 }
  vector _ := []
  fs := Vfs.Fs.fresh
  issued := []

namespace World

def onDb (w : World) (h : Part) (g : Db → Db) : World :=
  { w with db := Function.update w.db h (g (w.db h)) }

def issue (w : World) (c : Call) : World :=
  { w with issued := w.issued ++ [⟨c, (w.db c.handle).phase⟩] }

def done (w : World) (c : Call) : World := (w.issue c).onDb c.handle (Db.done c)

def failed (w : World) (c : Call) : World := (w.issue c).onDb c.handle (Db.failed c)

def push (w : World) (s p o : Record) : World :=
  { w with vector := fun h => w.vector h ++ [(Part.pick s p o h).value.text] }

end World

abbrev Faults := Call → Bool

end M3Sec.Berkeley
