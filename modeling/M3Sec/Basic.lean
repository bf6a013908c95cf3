import Mathlib.Data.List.TakeWhile
import Mathlib.Data.Fintype.Defs
import Mathlib.Algebra.Group.Int.Defs
import Mathlib.Algebra.GroupWithZero.Nat
import M3Sec.Library.Fallible

/-! # Strings, vectors and triples

A `std::string` is its list of bytes. `cstr` is what remains of it when only its
`c_str()` is handed on: the bytes before the first NUL. A buffer that holds a NUL
can be read back as a C string without leaving it. `at` is the checked access of
`std::vector`.
-/

namespace M3Sec

/-- The bytes of a `std::string`, embedded NULs included. -/
abbrev Str := List UInt8

def str (literal : String) : Str := literal.toList.map fun c => c.toNat.toUInt8

/-- The C string at the start of a buffer: the bytes before the first NUL. -/
def cstr (s : Str) : Str := s.takeWhile (· ≠ 0)

theorem cstr_of_nulFree {s : Str} (h : 0 ∉ s) : cstr s = s :=
  List.takeWhile_eq_self_iff.mpr fun _ hb => decide_eq_true (fun he => h (he ▸ hb))

theorem zero_not_mem_cstr (s : Str) : 0 ∉ cstr s := by
  intro h
  simpa using List.mem_takeWhile_imp h

theorem cstr_eq_self_iff {s : Str} : cstr s = s ↔ 0 ∉ s :=
  ⟨fun h => h ▸ zero_not_mem_cstr s, cstr_of_nulFree⟩

/-- What a `char *` that is used as a string points to: the bytes before the NUL. -/
abbrev CString := {s : Str // 0 ∉ s}

def toCString (s : Str) : CString := ⟨cstr s, zero_not_mem_cstr s⟩

/-- A buffer in which a C string can be read: it holds a NUL. -/
abbrev Terminated := {bytes : Str // 0 ∈ bytes}

/-- The `size() + 1` bytes at `data()`: the string and its terminating NUL. -/
def terminate (s : Str) : Terminated := ⟨s ++ [0], by simp⟩

def Terminated.text (b : Terminated) : Str := cstr b.val

theorem text_terminate {s : Str} (h : 0 ∉ s) : (terminate s).text = s := by
  have hs : cstr s = s := cstr_of_nulFree h
  unfold Terminated.text terminate cstr at *
  rw [List.takeWhile_append, hs]
  simp

/-! ## Integers -/

theorem toInt_toInt32 {x : UInt32} (h : x.toNat < 2 ^ 31) : x.toInt32.toInt = x.toNat := by
  have hx : 2 * x.toBitVec.toNat < 2 ^ 32 := by
    rw [UInt32.toNat_toBitVec]
    omega
  exact BitVec.toInt_eq_toNat_of_lt hx

theorem toInt_toInt32_neg {x : UInt32} (h : 2 ^ 31 ≤ x.toNat) : x.toInt32.toInt < 0 := by
  have hx : 2 ^ 32 ≤ 2 * x.toBitVec.toNat := by
    rw [UInt32.toNat_toBitVec]
    omega
  exact BitVec.toInt_neg_iff.mpr hx

/-! ## Triples -/

/-- The three parts of a triple, and so the three vectors and the three databases. -/
inductive Part | s | p | o
  deriving DecidableEq, Repr

instance : Fintype Part where
  elems := ⟨[Part.s, Part.p, Part.o], by decide⟩
  complete := by rintro ⟨⟩ <;> decide

def Part.column : Part → ℕ
  | .s => 0
  | .p => 1
  | .o => 2

def Part.pick {α : Type} (s p o : α) : Part → α
  | .s => s
  | .p => p
  | .o => o

@[simp] theorem Part.pick_self {α : Type} (g : Part → α) (k : Part) :
    Part.pick (g .s) (g .p) (g .o) k = g k := by
  cases k <;> rfl

theorem Part.forall_iff {A : Part → Prop} : (∀ k, A k) ↔ A .s ∧ A .p ∧ A .o :=
  ⟨fun h => ⟨h _, h _, h _⟩, fun ⟨hs, hp, ho⟩ k => by cases k <;> assumption⟩

def triples (S P O : List Str) : List (Str × Str × Str) := S.zip (P.zip O)

inductive Exception where
  | logicError
  | outOfRange
  | dbException
  deriving DecidableEq, Repr

/-- `std::vector::at`. -/
def at' {σ α : Type} (v : List α) (i : ℕ) : Fallible σ Exception α :=
  match v[i]? with
  | some a => pure a
  | none => throw .outOfRange

theorem at'_eq_pure {σ α : Type} {v : List α} {i : ℕ} {a : α} (h : v[i]? = some a) :
    (at' v i : Fallible σ Exception α) = pure a := by
  simp [at', h]

end M3Sec
