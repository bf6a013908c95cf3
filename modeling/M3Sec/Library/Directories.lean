import Mathlib.Data.Set.Insert
import Mathlib.Logic.Function.Basic

/-! # Directory objects

Directories are objects with a map of their own from names to entries, and an entry
is a file or a reference to a directory object. A copy of a directory is a new object
with the same map: a name bound in the copy is not bound in the original. What a
path leads to from a directory is found by following the maps.
-/

namespace Directories

variable {ν φ : Type}

inductive Entry (φ : Type) where
  | file (content : φ)
  | directory (ref : ℕ)

/-- The maps of the directory objects; the references below `next` are taken. -/
structure Objects (ν φ : Type) where
  entries : ℕ → ν → Option (Entry φ)
  next : ℕ

inductive View (φ : Type) where
  | file (content : φ)
  | directory
  deriving DecidableEq, Repr

namespace Objects

def create (g : Objects ν φ) (entries : ν → Option (Entry φ)) : Objects ν φ where
  entries := Function.update g.entries g.next entries
  next := g.next + 1

def bind [DecidableEq ν] (g : Objects ν φ) (r : ℕ) (n : ν) (e : Entry φ) : Objects ν φ :=
  { g with entries := Function.update g.entries r (Function.update (g.entries r) n (some e)) }

def look (g : Objects ν φ) (r : ℕ) : List ν → Option (View φ)
  | [] => some .directory
  | n :: path =>
    match g.entries r n with
    | none => none
    | some (.file content) => if path = [] then some (.file content) else none
    | some (.directory r') => g.look r' path

variable {g : Objects ν φ} {r : ℕ} {n : ν} {e : Entry φ} {m : ν → Option (Entry φ)}

@[simp] theorem next_create : (g.create m).next = g.next + 1 := rfl

@[simp] theorem entries_create_self : (g.create m).entries g.next = m := by
  simp [create]

theorem entries_create_of_ne (h : r ≠ g.next) : (g.create m).entries r = g.entries r :=
  Function.update_of_ne h _ _

theorem look_of_none (h : g.entries r n = none) (path : List ν) : g.look r (n :: path) = none := by
  simp [look, h]

theorem look_of_file {content : φ} (h : g.entries r n = some (.file content)) (path : List ν) :
    g.look r (n :: path) = if path = [] then some (.file content) else none := by
  simp [look, h]

theorem look_of_directory {r' : ℕ} (h : g.entries r n = some (.directory r')) (path : List ν) :
    g.look r (n :: path) = g.look r' path := by
  simp [look, h]

theorem look_of_empty (h : g.entries r = fun _ => none) (path : List ν) :
    g.look r path = if path = [] then some .directory else none := by
  cases path with
  | nil => rfl
  | cons n path => rw [look_of_none (congrFun h n)]; simp

variable [DecidableEq ν]

@[simp] theorem next_bind : (g.bind r n e).next = g.next := rfl

@[simp] theorem entries_bind_self :
    (g.bind r n e).entries r = Function.update (g.entries r) n (some e) := by
  simp [bind]

theorem entries_bind_of_ne {r' : ℕ} (h : r' ≠ r) : (g.bind r n e).entries r' = g.entries r' :=
  Function.update_of_ne h _ _

end Objects

end Directories
