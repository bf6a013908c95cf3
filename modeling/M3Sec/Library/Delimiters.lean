import Mathlib.Data.List.Basic

/-! # Delimited text

Text is cut at the first delimiter. Cutting until there is none left splits the text; taking
one part after the other, the last part comes back again and again. Strings that are packed
each with its terminator are unpacked to what they were exactly if none contains the
terminator.
-/

namespace Delimiters

variable {α : Type} {d : α} {n : ℕ} {s t rest : List α} {ss : List (List α)}

/-- Put the strings behind each other, each with its terminator. -/
def pack (d : α) (ss : List (List α)) : List α := ss.flatMap (· ++ [d])

theorem pack_cons : pack d (s :: ss) ++ rest = s ++ d :: (pack d ss ++ rest) := by
  simp [pack]

variable [DecidableEq α]

section Definitions

variable (d : α)

/-- What comes before the first delimiter, and what is behind it, if there is one. -/
def cut : List α → List α × Option (List α)
  | [] => ([], none)
  | a :: s => if a = d then ([], some s) else (a :: (cut s).1, (cut s).2)

/-- The next part, and the text that is left. Without a delimiter the text stays. -/
def next (s : List α) : List α × List α := ((cut d s).1, (cut d s).2.getD s)

def nexts : ℕ → List α → List (List α)
  | 0, _ => []
  | n + 1, s => (next d s).1 :: nexts n (next d s).2

/-- The parts of the text one after the other, the last one over and over. -/
def part (s : List α) (i : ℕ) : List α :=
  (s.splitOn d).getD i ((s.splitOn d).getLastD [])

/-- Take so many terminated strings. There is nothing if the text ends before. -/
def unpack : ℕ → List α → Option (List (List α) × List α)
  | 0, s => some ([], s)
  | n + 1, s => (cut d s).2.bind fun rest =>
    (unpack n rest).map fun r => ((cut d s).1 :: r.1, r.2)

end Definitions

/-! ## Cutting -/

theorem not_mem_cut : d ∉ (cut d s).1 := by
  induction s with
  | nil => exact List.not_mem_nil
  | cons a s ih =>
    rw [cut]
    split_ifs with ha
    · exact List.not_mem_nil
    · intro h
      rcases List.mem_cons.mp h with rfl | h
      · exact ha rfl
      · exact ih h

theorem cut_of_not_mem (h : d ∉ s) : cut d s = (s, none) := by
  induction s with
  | nil => rfl
  | cons a s ih =>
    have ha : a ≠ d := fun he => h (he ▸ List.mem_cons_self)
    rw [cut, if_neg ha, ih fun hs => h (List.mem_cons_of_mem _ hs)]

theorem cut_append (h : d ∉ s) : cut d (s ++ d :: rest) = (s, some rest) := by
  induction s with
  | nil => simp [cut]
  | cons a s ih =>
    have ha : a ≠ d := fun he => h (he ▸ List.mem_cons_self)
    rw [List.cons_append, cut, if_neg ha, ih fun hs => h (List.mem_cons_of_mem _ hs)]

theorem append_of_cut (h : (cut d s).2 = some rest) : (cut d s).1 ++ d :: rest = s := by
  induction s with
  | nil => cases h
  | cons a s ih =>
    rw [cut] at h ⊢
    split_ifs at h ⊢ with ha
    · obtain rfl := Option.some.inj h
      rw [ha, List.nil_append]
    · rw [List.cons_append, ih h]

theorem eq_of_cut (h : (cut d s).2 = none) : (cut d s).1 = s := by
  induction s with
  | nil => rfl
  | cons a s ih =>
    rw [cut] at h ⊢
    split_ifs at h ⊢ with ha
    rw [ih h]

theorem splitOn_eq :
    s.splitOn d = (cut d s).1 :: (cut d s).2.elim [] fun rest => rest.splitOn d := by
  cases hc : (cut d s).2 with
  | none =>
    have hs : d ∉ s := eq_of_cut hc ▸ not_mem_cut
    rw [List.splitOn_eq_singleton hs, cut_of_not_mem hs]
    rfl
  | some rest =>
    conv_lhs => rw [← append_of_cut hc]
    exact List.splitOn_append_cons_self_of_not_mem not_mem_cut rest

theorem not_mem_of_mem_splitOn (h : t ∈ s.splitOn d) : d ∉ t := by
  induction hn : s.length using Nat.strongRecOn generalizing s with
  | _ n ih =>
    rw [splitOn_eq] at h
    cases hc : (cut d s).2 with
    | none =>
      rw [hc, Option.elim_none, List.mem_singleton] at h
      exact h ▸ not_mem_cut
    | some rest =>
      rw [hc, Option.elim_some] at h
      rcases List.mem_cons.mp h with rfl | h
      · exact not_mem_cut
      · refine ih rest.length ?_ h rfl
        rw [← hn, ← append_of_cut hc]
        simp
        omega

theorem mem_of_mem_splitOn {a : α} (h : t ∈ s.splitOn d) (ha : a ∈ t) : a ∈ s := by
  induction hn : s.length using Nat.strongRecOn generalizing s with
  | _ n ih =>
    rw [splitOn_eq] at h
    cases hc : (cut d s).2 with
    | none =>
      rw [hc, Option.elim_none, List.mem_singleton] at h
      exact eq_of_cut hc ▸ h ▸ ha
    | some rest =>
      rw [hc, Option.elim_some] at h
      have happend := append_of_cut hc
      rw [← happend]
      rcases List.mem_cons.mp h with rfl | h
      · exact List.mem_append_left _ ha
      · have hlt : rest.length < n := by
          rw [← hn, ← happend]
          simp
          omega
        exact List.mem_append_right _ (List.mem_cons_of_mem _ (ih rest.length hlt h rfl))

/-! ## Taking parts -/

theorem part_zero : part d s 0 = (cut d s).1 := by
  rw [part, splitOn_eq]
  rfl

theorem part_succ (i : ℕ) : part d s (i + 1) = part d (next d s).2 i := by
  rw [part, part, next]
  cases hc : (cut d s).2 with
  | none =>
    have hs : d ∉ s := eq_of_cut hc ▸ not_mem_cut
    cases i <;> simp [List.splitOn_eq_singleton hs]
  | some rest =>
    have hsplit : s.splitOn d = (cut d s).1 :: rest.splitOn d := by
      rw [splitOn_eq, hc]
      rfl
    obtain ⟨t, ts, hts⟩ := List.exists_cons_of_ne_nil (List.splitOn_ne_nil d rest)
    simp [hsplit, hts]

/-- What is taken are the parts of the text, then the last part over and over. -/
theorem nexts_eq : nexts d n s = (List.range n).map (part d s) := by
  induction n generalizing s with
  | zero => rfl
  | succ n ih =>
    rw [nexts, ih, List.range_succ_eq_map, List.map_cons, List.map_map, part_zero]
    congr 1
    apply List.map_congr_left
    intro i _
    exact (part_succ i).symm

theorem mem_of_mem_part {a : α} {i : ℕ} (h : a ∈ part d s i) : a ∈ s := by
  have hsplit : part d s i ∈ s.splitOn d := by
    rw [part, List.getD_eq_getElem?_getD]
    cases hi : (s.splitOn d)[i]? with
    | none =>
      obtain ⟨t, ts, hts⟩ := List.exists_cons_of_ne_nil (List.splitOn_ne_nil d s)
      rw [hts, List.getLastD_cons]
      exact List.getLastD_mem_cons
    | some t => exact List.mem_of_getElem? hi
  exact mem_of_mem_splitOn hsplit h

/-! ## Terminated strings -/

theorem unpack_pack (h : ∀ s ∈ ss, d ∉ s) :
    unpack d ss.length (pack d ss ++ rest) = some (ss, rest) := by
  induction ss with
  | nil => rfl
  | cons s ss ih =>
    have hcut : cut d (pack d (s :: ss) ++ rest) = (s, some (pack d ss ++ rest)) := by
      rw [pack_cons, cut_append (h s List.mem_cons_self)]
    rw [List.length_cons, unpack, hcut, Option.bind_some,
      ih fun t ht => h t (List.mem_cons_of_mem _ ht)]
    rfl

theorem not_mem_of_unpack {r : List (List α) × List α} (h : unpack d n s = some r) :
    ∀ t ∈ r.1, d ∉ t := by
  induction n generalizing s r with
  | zero =>
    obtain rfl := Option.some.inj h
    exact fun t ht => absurd ht List.not_mem_nil
  | succ n ih =>
    obtain ⟨rest, -, h⟩ := Option.bind_eq_some_iff.mp h
    obtain ⟨r', hr', rfl⟩ := Option.map_eq_some_iff.mp h
    intro t ht
    rcases List.mem_cons.mp ht with rfl | ht
    · exact not_mem_cut
    · exact ih hr' t ht

end Delimiters
