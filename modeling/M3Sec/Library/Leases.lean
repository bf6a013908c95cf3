import Mathlib.Data.Finset.Basic
import Mathlib.Data.List.Nodup
import Mathlib.Data.Finset.Dedup

/-! # Leases

Some handles are open from the start, the others are held by somebody. As long as a grant is
of a handle that was closed, and a holder gives up what it holds, the open handles are those
of the start and those that are held.
-/

namespace Leases

variable {α : Type} [DecidableEq α] {base opened : Finset α} {held : List α} {x y : α} {i : ℕ}

/-- The open handles are those of the start and those that are held, each of these once. -/
structure Accounts (base : Finset α) (held : List α) (opened : Finset α) : Prop where
  opened_eq : opened = base ∪ held.toFinset
  nodup : held.Nodup
  disjoint : ∀ x ∈ held, x ∉ base

namespace Accounts

theorem start (base : Finset α) : Accounts base [] base where
  opened_eq := by simp
  nodup := List.nodup_nil
  disjoint _ h := absurd h List.not_mem_nil

theorem grant (h : Accounts base held opened) (hx : x ∉ opened) :
    Accounts base (held ++ [x]) (insert x opened) := by
  rw [h.opened_eq, Finset.mem_union, List.mem_toFinset, not_or] at hx
  constructor
  · ext y
    rw [h.opened_eq]
    simp only [Finset.mem_insert, Finset.mem_union, List.mem_toFinset, List.mem_append,
      List.mem_singleton]
    tauto
  · rw [← List.concat_eq_append]
    exact h.nodup.concat hx.2
  · intro y hy
    rcases List.mem_append.mp hy with hy | hy
    · exact h.disjoint y hy
    · obtain rfl := List.mem_singleton.mp hy
      exact hx.1

theorem mem_opened (h : Accounts base held opened) (hi : held[i]? = some x) : x ∈ opened := by
  rw [h.opened_eq]
  exact Finset.mem_union_right _ (List.mem_toFinset.mpr (List.mem_of_getElem? hi))

theorem union_eraseIdx (h : Accounts base held opened) (hi : held[i]? = some x) :
    base ∪ (held.eraseIdx i).toFinset = opened.erase x := by
  obtain ⟨hlt, rfl⟩ := List.getElem?_eq_some_iff.mp hi
  ext y
  rw [← h.nodup.erase_getElem i hlt, h.opened_eq]
  simp only [Finset.mem_union, Finset.mem_erase, List.mem_toFinset, h.nodup.mem_erase_iff]
  constructor
  · rintro (hy | ⟨hne, hy⟩)
    · refine ⟨?_, Or.inl hy⟩
      rintro rfl
      exact h.disjoint _ (List.getElem_mem hlt) hy
    · exact ⟨hne, Or.inr hy⟩
  · rintro ⟨hne, hy | hy⟩
    · exact Or.inl hy
    · exact Or.inr ⟨hne, hy⟩

theorem giveUp (h : Accounts base held opened) (hi : held[i]? = some x) :
    Accounts base (held.eraseIdx i) (opened.erase x) where
  opened_eq := (h.union_eraseIdx hi).symm
  nodup := h.nodup.eraseIdx i
  disjoint y hy := h.disjoint y (List.mem_of_mem_eraseIdx hy)

/-- Only closing the handle that is given up closes what is no longer held and nothing else. -/
theorem erase_eq_iff (h : Accounts base held opened) (hi : held[i]? = some x) :
    opened.erase y = base ∪ (held.eraseIdx i).toFinset ↔ y = x := by
  rw [h.union_eraseIdx hi]
  constructor
  · intro he
    by_contra hne
    have hx : x ∈ opened.erase y := Finset.mem_erase.mpr ⟨Ne.symm hne, h.mem_opened hi⟩
    rw [he] at hx
    exact Finset.notMem_erase x opened hx
  · rintro rfl
    rfl

theorem ne_union_eraseIdx (h : Accounts base held opened) (hi : held[i]? = some x) :
    opened ≠ base ∪ (held.eraseIdx i).toFinset := by
  rw [h.union_eraseIdx hi]
  exact (Finset.erase_ne_self.mpr (h.mem_opened hi)).symm

end Accounts

end Leases
