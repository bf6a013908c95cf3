import M3Sec.Afsfuse.Client
import M3Sec.Library.CStrings

/-! # The buffers for paths

A path of 512 characters can be sent. With `/afs` before it and the NUL behind it, what fits
into the buffer of a procedure is 507 characters, and the copy that `xmp_getattr` makes has
room for 511. Neither is checked.
-/

namespace M3Sec.Afsfuse

open Fallible Memory

variable {path : CString} {behind : ℕ → UInt8} {n : ℕ}

def bufferSize : ℕ := 512

def zeroed (behind : ℕ → UInt8) : Region UInt8 :=
  .untouched fun i => if i < bufferSize then 0 else behind i

/-- `translatePath` in memory, where strings are searched for their end in `n` bytes. -/
def translatePathIn (n : ℕ) (path : CString) (lbuff : Region UInt8) : Option (Region UInt8) := do
  let lbuff ← lbuff.strcat 0 n 0 (str "/afs")
  let lbuff ← lbuff.strcat 0 n 4 path.val
  let len ← lbuff.strlen 0 n 0
  return lbuff.store len [0]

/-- What `xmp_getattr` begins with. -/
def copyPath (path : CString) (mypath : Region UInt8) : Region UInt8 := mypath.strcpy 0 0 path.val

theorem cells_zeroed (h : n < bufferSize) : (zeroed behind).cells n = 0 := if_pos h

theorem length_translatePath (path : CString) :
    (translatePath path).val.length = path.val.length + 4 := by
  rw [translatePath, List.length_append, Nat.add_comm]
  rfl

variable (behind) in
theorem translatePathIn_eq (hn : path.val.length + 4 < n) :
    translatePathIn n path (zeroed behind) =
      some ((zeroed behind).strcpy 0 0 (translatePath path).val) := by
  have hfirst : (zeroed behind).strcat 0 n 0 (str "/afs") =
      some ((zeroed behind).strcpy 0 0 (str "/afs")) :=
    Region.strcat_of_nul (cells_zeroed (by decide)) (by omega)
  have hend : ((zeroed behind).strcpy 0 0 (str "/afs")).cells 4 = 0 :=
    Region.cells_store (show 4 < (str "/afs" ++ [(0 : UInt8)]).length by decide)
  have hsecond : ((zeroed behind).strcpy 0 0 (str "/afs")).strcat 0 n 4 path.val =
      some ((zeroed behind).strcpy 0 0 (translatePath path).val) :=
    (Region.strcat_of_nul hend (by omega)).trans (congrArg some Region.strcpy_strcpy)
  have hlength := length_translatePath path
  have hlen : ((zeroed behind).strcpy 0 0 (translatePath path).val).strlen 0 n 0 =
      some (translatePath path).val.length :=
    Region.strlen_strcpy (translatePath path).property (by omega)
  have hlast : ((zeroed behind).strcpy 0 0 (translatePath path).val).store
      (translatePath path).val.length [0] =
        (zeroed behind).strcpy 0 0 (translatePath path).val := by
    have hterminate : ((zeroed behind).strcpy 0 0 (translatePath path).val).store
        (0 + (translatePath path).val.length) [0] = _ := Region.strcpy_terminate
    rwa [Nat.zero_add] at hterminate
  unfold translatePathIn
  rw [hfirst, Option.bind_eq_bind, Option.bind_some, hsecond, Option.bind_eq_bind, Option.bind_some,
    hlen, Option.bind_some, hlast]
  rfl

theorem reach_strcpy_zeroed (s : Str) : ((zeroed behind).strcpy 0 0 s).reach = s.length + 1 := by
  unfold Region.strcpy
  rw [Region.reach_store_zero, List.length_append]
  exact Nat.zero_max _

/-- Within the buffer, `translatePath` leaves `/afs`, the path and the NUL. -/
def TranslatesInside (path : CString) : Prop := ∀ behind n, path.val.length + 4 < n →
  ∃ lbuff, translatePathIn n path (zeroed behind) = some lbuff ∧ lbuff.reach ≤ bufferSize ∧
    lbuff.read 0 (path.val.length + 5) = str "/afs" ++ path.val ++ [0]

/-- Within the buffer, `xmp_getattr` copies the path, unless it fails. -/
def CopiesInside {ρ : Type} (env : Environment ρ) (c : Client ρ) (path : CString) : Prop :=
  ∀ behind, (copyPath path (zeroed behind)).reach ≤ bufferSize ∧
    ((copyPath path (zeroed behind)).read 0 (path.val.length + 1) = path.val ++ [0] ∨
      (exec (xmpGetattr env path) c).1 ≠ .ok 0)

theorem translatesInside_iff : TranslatesInside path ↔ path.val.length ≤ 507 := by
  have hlength : (translatePath path).val.length = path.val.length + 4 := length_translatePath path
  constructor
  · intro h
    obtain ⟨lbuff, hlbuff, hreach, -⟩ := h (fun _ => 0) _ (Nat.lt_succ_self _)
    rw [translatePathIn_eq _ (Nat.lt_succ_self _)] at hlbuff
    obtain rfl := Option.some.inj hlbuff
    rw [reach_strcpy_zeroed, hlength, bufferSize] at hreach
    omega
  · intro h behind n hn
    refine ⟨_, translatePathIn_eq behind hn, ?_, ?_⟩
    · rw [reach_strcpy_zeroed, hlength, bufferSize]
      omega
    · exact Region.read_store (by rw [List.length_append, hlength]; rfl)

theorem copiesInside_iff {ρ : Type} {env : Environment ρ} {c : Client ρ} :
    CopiesInside env c path ↔ path.val.length ≤ 511 := by
  constructor
  · intro h
    have hreach := (h fun _ => 0).1
    rw [copyPath, reach_strcpy_zeroed, bufferSize] at hreach
    omega
  · intro h behind
    constructor
    · rw [copyPath, reach_strcpy_zeroed, bufferSize]
      omega
    · exact Or.inl (Region.read_store (by simp))

/-- The buffers hold the paths up to these lengths, and overflow from then on. -/
theorem pathBuffers_iff (path : CString) :
    (TranslatesInside path ↔ path.val.length ≤ 507) ∧
      ∀ (ρ : Type) (env : Environment ρ) (c : Client ρ),
        CopiesInside env c path ↔ path.val.length ≤ 511 :=
  ⟨translatesInside_iff, fun _ _ _ => copiesInside_iff⟩

def longPath (n : ℕ) : CString :=
  ⟨List.replicate n 97, fun h => absurd (List.eq_of_mem_replicate h) (by decide)⟩

theorem length_longPath : (longPath n).val.length = n := List.length_replicate

/-- A path of 508 characters can be sent, and its NUL is written behind the buffer. -/
theorem longPath_not_inside : ¬ ∀ path : CString,
    (path.val.length ≤ mymaxpath → TranslatesInside path) ∧ (path.val.length ≤ 4095 →
      ∀ (ρ : Type) (env : Environment ρ) (c : Client ρ), CopiesInside env c path) := by
  intro h
  have hinside : TranslatesInside (longPath 508) := (h _).1 (by rw [length_longPath]; decide)
  rw [translatesInside_iff, length_longPath] at hinside
  exact absurd hinside (by decide)

end M3Sec.Afsfuse
