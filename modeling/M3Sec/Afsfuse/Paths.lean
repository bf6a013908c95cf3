import M3Sec.Basic
import M3Sec.Library.LexicalPaths

/-! # The paths of the file server

The server puts `/afs` before every path that a client sends. `IsAllowedPath` looks at
the characters up to the third `/` of the translated path. It lets `.` pass, so it is no
obstacle to a `..` that leaves `/afs`.
-/

namespace M3Sec.Afsfuse

open LexicalPaths

variable {path : CString} {p : Str} {n backCount : ℕ}

/-- The `case` labels of `IsAllowedPath` after the one for `/`. -/
def labels : Str := str "puneibmcoafs."

/-- The loop of `IsAllowedPath`: `n` rounds are left, `p` is what the pointer points to. -/
def isAllowedPathLoop : (n : ℕ) → (p : Str) → (backCount : ℕ) → Bool
  | 0, _, _ => true
  | n + 1, p, backCount =>
    let c := p.headD 0
    if c = 47 then
      -- falls through to the other labels
      if backCount + 1 = 3 then true else isAllowedPathLoop n p.tail (backCount + 1)
    else if c ∈ labels then
      if backCount = 3 then true else isAllowedPathLoop n p.tail backCount
    else if backCount < 3 then false
    else isAllowedPathLoop n p backCount

def isAllowedPath (path : CString) : Bool := isAllowedPathLoop path.val.length path.val 0

/-- The C string in a zeroed buffer after `translatePath`. The 512 characters of `lbuff` are too
few for a path of more than 507: what the overflow does to other memory is not described here,
and every result about an operation of the server leaves it out. -/
def translatePath (path : CString) : CString :=
  ⟨str "/afs" ++ path.val, by
    rw [List.mem_append, not_or]
    exact ⟨by decide, path.property⟩⟩

/-- Every character before the slash that ends the loop is a label. -/
def LabelsUntil (p : Str) (backCount : ℕ) : Prop := ∀ (i : ℕ) (c : UInt8), p[i]? = some c →
  (p.take i).count 47 + backCount < 3 → c = 47 ∨ c ∈ labels

theorem labelsUntil_cons {a : UInt8} (h : backCount < 3) : LabelsUntil (a :: p) backCount ↔
    (a = 47 ∨ a ∈ labels) ∧ LabelsUntil p (backCount + if a = 47 then 1 else 0) := by
  constructor
  · rintro hall
    refine ⟨hall 0 a rfl (by simpa using h), fun i c hc hcount => ?_⟩
    apply hall (i + 1) c hc
    rw [List.take_succ_cons, List.count_cons]
    simp only [beq_iff_eq]
    omega
  · rintro ⟨ha, hall⟩ i c hc hcount
    cases i with
    | zero =>
      obtain rfl : a = c := by simpa using hc
      exact ha
    | succ i =>
      apply hall i c hc
      rw [List.take_succ_cons, List.count_cons] at hcount
      simp only [beq_iff_eq] at hcount
      omega

theorem labelsUntil_three : LabelsUntil p 3 := by
  rintro i c - hcount
  omega

theorem isAllowedPathLoop_iff (h : backCount < 3) :
    isAllowedPathLoop p.length p backCount = true ↔ LabelsUntil p backCount := by
  induction p generalizing backCount with
  | nil => simp [isAllowedPathLoop, LabelsUntil]
  | cons a p ih =>
    rw [labelsUntil_cons h]
    simp only [List.length_cons, isAllowedPathLoop, List.headD_cons, List.tail_cons]
    split_ifs with hslash hthird hlabel hthird
    · rw [hthird]
      exact iff_of_true rfl ⟨Or.inl hslash, labelsUntil_three⟩
    · rw [and_iff_right (Or.inl hslash)]
      exact ih (by omega)
    · omega
    · rw [and_iff_right (Or.inr hlabel)]
      exact ih h
    · simp [hslash, hlabel]

/-- The check fails at a character before the third `/` that is no label. -/
def Stopped (path : CString) : Prop := ∃ (i : ℕ) (c : UInt8), path.val[i]? = some c ∧
  (path.val.take i).count 47 < 3 ∧ c ≠ 47 ∧ c ∉ labels

theorem isAllowedPath_eq_false_iff : isAllowedPath path = false ↔ Stopped path := by
  rw [← Bool.not_eq_true, isAllowedPath, isAllowedPathLoop_iff (by decide)]
  unfold Stopped LabelsUntil
  push Not
  rfl

/-! ## Confinement -/

def component (name : Str) : Step Str :=
  if name = [] ∨ name = str "." then .stay
  else if name = str ".." then .up
  else .down name

def components (path : CString) : List (Step Str) := (path.val.splitOn 47).map component

/-- The path resolves to a place at or below `/afs`. -/
def Confined (path : CString) : Prop := (resolve (components path)).head? = some (str "afs")

instance (path : CString) : Decidable (Confined path) := inferInstanceAs (Decidable (_ = _))

/-- The path comes by the root, enters `afs` from there, and has from then on never more
`..` than names. -/
def EntersAfs (path : CString) : Prop := ∃ pre post,
  components path = pre ++ .down (str "afs") :: post ∧ resolve pre = [] ∧ StaysBelow post

/-- A path that the check accepts is confined exactly if it enters `/afs` and does not
climb out. -/
theorem accepted_confined_iff (path : CString) :
    (isAllowedPath (translatePath path) = true → Confined (translatePath path)) ↔
      Stopped (translatePath path) ∨ EntersAfs (translatePath path) := by
  rw [← isAllowedPath_eq_false_iff, Confined, head?_resolve_iff, ← Bool.not_eq_true,
    ← imp_iff_not_or]
  rfl

/-- The check accepts `/afs/../etc`. -/
theorem dotdot_accepted_not_confined :
    ¬ ∀ path, isAllowedPath (translatePath path) = true → Confined (translatePath path) := by
  intro h
  exact absurd (h ⟨str "/../etc", by decide⟩ (by decide)) (by decide)

end M3Sec.Afsfuse
