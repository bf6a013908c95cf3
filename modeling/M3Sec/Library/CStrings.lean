import M3Sec.Library.Memory

/-! # Strings in memory

A string in memory ends before the first cell that holds the terminator. Its length is
searched for in a given number of cells, and copying it takes the terminator along: nothing
looks at the size of the object that is written to.
-/

namespace Memory.Region

variable {β : Type} {nul : β} {m : Region β} {n p : ℕ} {s t : List β}

variable (nul) in
def strcpy (m : Region β) (p : ℕ) (s : List β) : Region β := m.store p (s ++ [nul])

theorem strcpy_strcpy :
    (m.strcpy nul p s).strcpy nul (p + s.length) t = m.strcpy nul p (s ++ t) := by
  have hterminated : m.store p (s ++ [nul]) = (m.store p s).store (p + s.length) [nul] :=
    store_append.symm
  have hle : [nul].length ≤ (t ++ [nul]).length := by simp
  unfold strcpy
  rw [hterminated, store_store hle, store_append, List.append_assoc]

theorem strcpy_terminate :
    (m.strcpy nul p s).store (p + s.length) [nul] = m.strcpy nul p s := by
  have hempty : (m.strcpy nul p s).strcpy nul (p + s.length) [] = m.strcpy nul p (s ++ []) :=
    strcpy_strcpy
  rwa [List.append_nil] at hempty

variable [DecidableEq β]

section Definitions

variable (nul)

/-- The length of the string at an address, if it ends in the next `n` cells. -/
def strlen (m : Region β) : (n p : ℕ) → Option ℕ
  | 0, _ => none
  | n + 1, p => if m.cells p = nul then some 0 else (strlen m n (p + 1)).map (· + 1)

/-- Write a string and the terminator behind the string at an address. -/
def strcat (m : Region β) (n p : ℕ) (s : List β) : Option (Region β) :=
  (m.strlen nul n p).map fun len => m.strcpy nul (p + len) s

end Definitions

theorem strlen_of_read (hs : nul ∉ s) (hn : s.length < n)
    (h : m.read p (s.length + 1) = s ++ [nul]) : m.strlen nul n p = some s.length := by
  induction s generalizing n p with
  | nil =>
    cases n with
    | zero => exact absurd hn (Nat.not_lt_zero _)
    | succ n =>
      rw [List.length_nil, read_succ] at h
      exact if_pos (List.cons.inj h).1
  | cons b s ih =>
    cases n with
    | zero => exact absurd hn (Nat.not_lt_zero _)
    | succ n =>
      rw [List.length_cons, read_succ] at h
      obtain ⟨hb, htail⟩ := List.cons.inj h
      have hne : m.cells p ≠ nul := by
        rw [hb]
        exact fun he => hs (he ▸ List.mem_cons_self)
      have hlen := ih (fun hmem => hs (List.mem_cons_of_mem _ hmem)) (Nat.lt_of_succ_lt_succ hn)
        htail
      rw [strlen, if_neg hne, hlen]
      rfl

theorem strlen_strcpy (hs : nul ∉ s) (hn : s.length < n) :
    (m.strcpy nul p s).strlen nul n p = some s.length :=
  strlen_of_read hs hn (read_store (by simp))

theorem strcat_of_nul (h : m.cells p = nul) (hn : 0 < n) :
    m.strcat nul n p s = some (m.strcpy nul p s) := by
  have hlen : m.strlen nul n p = some 0 := by
    cases n with
    | zero => exact absurd hn (Nat.lt_irrefl _)
    | succ n => exact if_pos h
  rw [strcat, hlen]
  rfl

end Memory.Region
