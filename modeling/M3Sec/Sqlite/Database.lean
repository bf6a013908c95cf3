import Mathlib.Data.List.FinRange
import M3Sec.Basic

/-! # The SQLite reader

Class `DB` keeps one connection pointer and the vectors `S`, `P`, `O`. What SQLite
answers while a statement runs is an `Execution`: whether it prepares, how many
columns it has, and what each `sqlite3_step` returns until the first result other
than `SQLITE_ROW`. Every call made on a connection is recorded with what became of
the connection before the call.
-/

namespace M3Sec.Sqlite

open Fallible

/-- What `sqlite3_column_text` points to: nothing for NULL, otherwise the cell's bytes
and a NUL. -/
abbrev Cell := Option Str

/-- How stepping ends: `SQLITE_DONE`, or any other code than `SQLITE_ROW`. -/
inductive Code | done | failure
  deriving DecidableEq, Repr

inductive Steps (cols : ℕ) where
  | row (cells : Fin cols → Cell) (rest : Steps cols)
  | stop (code : Code)

structure Execution where
  prepared : Bool
  cols : ℕ
  steps : Steps cols

/-- How `sqlite3_open` ends; out of memory it stores a null pointer. -/
inductive OpenResult | ok | error | noMemory
  deriving DecidableEq, Repr

inductive SqliteCall where
  | openDb
  | prepare
  | columnCount
  | step
  | columnText
  | finalize
  | errmsg
  | close
  deriving DecidableEq, Repr

inductive Pointer | null | live | closed
  deriving DecidableEq, Repr

structure Issue where
  call : SqliteCall
  pointer : Pointer
  deriving DecidableEq, Repr

/-- A `DB` object and the connections of the process, numbered as they are opened. -/
structure State where
  database : Option ℕ
  vec : Part → List Str
  opened : ℕ
  closed : List ℕ
  /-- Statements prepared and not finalized on each connection. -/
  pending : ℕ → ℕ
  issued : List Issue

namespace State

def S (db : State) : List Str := db.vec .s
def P (db : State) : List Str := db.vec .p
def O (db : State) : List Str := db.vec .o

def fresh : State where
  database := none
  vec _ := []
  opened := 0
  closed := []
  pending _ := 0
  issued := []

def pointer (db : State) : Pointer :=
  match db.database with
  | none => .null
  | some c => if c ∈ db.closed then .closed else .live

def issue (call : SqliteCall) (db : State) : State :=
  { db with issued := db.issued ++ [⟨call, db.pointer⟩] }

def push (k : Part) (text : Str) (db : State) : State :=
  { db with vec := Function.update db.vec k (db.vec k ++ [text]) }

/-- Count a statement of the current connection in (`+ 1`) or out (`- 1`). -/
def count (change : ℕ → ℕ) (db : State) : State :=
  match db.database with
  | none => db
  | some c => { db with pending := Function.update db.pending c (change (db.pending c)) }

/-- Point `database` to what `sqlite3_open` stores: a new connection, also on an error. -/
def connect (r : OpenResult) (db : State) : State :=
  match r with
  | .noMemory => { db with database := none }
  | _ => { db with database := some db.opened, opened := db.opened + 1 }

/-- `sqlite3_close` ignores a null pointer, and refuses (`SQLITE_BUSY`) a connection
with statements that are not finalized. -/
def disconnect (db : State) : State :=
  match db.database with
  | none => db
  | some c => if db.pending c = 0 then { db with closed := c :: db.closed } else db

end State

def touch (call : SqliteCall) : Fallible State Exception PUnit := modify (State.issue call)

/-- `string(char*)`: the bytes before the first NUL, and no string for a null pointer. -/
def columnString : Cell → Fallible State Exception Str
  | some bytes => pure (cstr bytes)
  | none => throw .logicError

/-- The `while(true)` of `DB::query`: a vector for each row, until a step returns no row. -/
def fetch {cols : ℕ} :
    Steps cols → List (List Str) → Fallible State Exception (List (List Str))
  | .stop _, results => do
    touch .step
    return results
  | .row cells rest, results => do
    touch .step
    let values ← (List.finRange cols).mapM fun col => do
      touch .columnText
      columnString (cells col)
    fetch rest (results ++ [values])

def stepThrough (e : Execution) : Fallible State Exception (List (List Str)) := do
  modify (State.count (· + 1))
  touch .columnCount
  let results ← fetch e.steps []
  touch .finalize
  modify (State.count (· - 1))
  return results

/-- `DB::query`. An error message is only printed. -/
def query (e : Execution) : Fallible State Exception (List (List Str)) := do
  touch .prepare
  let results ← (if e.prepared then stepThrough e else pure [])
  touch .errmsg
  return results

def openDb (r : OpenResult) : Fallible State Exception Bool := do
  touch .openDb
  modify (State.connect r)
  return r == .ok

def construct (r : OpenResult) : Fallible State Exception PUnit := do
  modify fun db => { db with database := none }
  let _ ← openDb r

/-- `DB::close`: the pointer keeps its value. -/
def close : Fallible State Exception PUnit := do
  touch .close
  modify State.disconnect

/-- The body of the nested loop of `DB::getAllTriplesText`. -/
def resolve (triples str : List Str) : Fallible State Exception PUnit := do
  let id ← at' str 0
  if (← at' triples 0) = id then
    modify (State.push .s (← at' str 1))
  else do
    if (← at' triples 1) = id then
      modify (State.push .p (← at' str 1))
    else do
      if (← at' triples 2) = id then
        modify (State.push .o (← at' str 1))

/-- `DB::getAllTriplesText(this)` up to its `db->close()`, given what SQLite answers to
its two queries. -/
def loadTriples (triple node : Execution) : Fallible State Exception PUnit := do
  let triples ← query triple
  let nodes_id_str ← query node
  triples.forM fun it => nodes_id_str.forM fun it_str => resolve it it_str

def getAllTriplesText (triple node : Execution) : Fallible State Exception PUnit := do
  loadTriples triple node
  close

end M3Sec.Sqlite
