import Mathlib.Data.List.Pairwise
import Mathlib.Data.List.Perm.Basic
import Mathlib.Order.Defs.Unbundled

/-! # Sorted maps

A map as the list of its records, in the order of the keys. Whatever is done to it, the
keys stay in order, so a walk over the records meets each key once. Two maps with the same
records are the same map.
-/

variable {K V : Type} {lt : K → K → Prop}

structure SortedMap (lt : K → K → Prop) (V : Type) where
  records : List (K × V)
  sorted : records.Pairwise fun a b => lt a.1 b.1

namespace SortedMap

def empty (lt : K → K → Prop) (V : Type) : SortedMap lt V := ⟨[], .nil⟩

variable {m : SortedMap lt V} {a b : K × V} {k k' : K} {v : V} {l : List (K × V)}

section Strict

variable [IsStrictOrder K lt]

theorem ne_of_lt {k k' : K} (h : lt k k') : k ≠ k' := by
  rintro rfl
  exact irrefl_of lt k h

theorem eq_of_key (hl : l.Pairwise fun a b => lt a.1 b.1) (ha : a ∈ l) (hb : b ∈ l)
    (h : a.1 = b.1) : a = b := by
  induction hl with
  | nil => cases ha
  | @cons c l hc _ ih =>
    rcases List.mem_cons.mp ha with rfl | ha' <;> rcases List.mem_cons.mp hb with rfl | hb'
    · rfl
    · exact absurd h (ne_of_lt (hc b hb'))
    · exact absurd h.symm (ne_of_lt (hc a ha'))
    · exact ih ha' hb'

/-- A list in strict order is determined by its elements. -/
theorem eq_of_mem_iff {α : Type} {r : α → α → Prop} [IsStrictOrder α r] {l l' : List α}
    (hl : l.Pairwise r) (hl' : l'.Pairwise r) (h : ∀ a, a ∈ l ↔ a ∈ l') : l = l' := by
  have hne : ∀ {a b}, r a b → a ≠ b := by
    rintro a b hab rfl
    exact irrefl_of r a hab
  have hperm : l.Perm l' :=
    (List.perm_ext_iff_of_nodup (hl.imp hne) (hl'.imp hne)).mpr h
  exact hperm.eq_of_pairwise (fun a b _ _ hab hba => absurd (trans_of r hab hba) (irrefl_of r a))
    hl hl'

end Strict

variable [DecidableEq K]

def get (m : SortedMap lt V) (k : K) : Option V := m.records.lookup k

def erase (m : SortedMap lt V) (k : K) : SortedMap lt V where
  records := m.records.filter (·.1 ≠ k)
  sorted := m.sorted.filter _

@[simp] theorem mem_erase : a ∈ (m.erase k).records ↔ a ∈ m.records ∧ a.1 ≠ k := by
  simp [erase]

theorem get_eq_none_iff : m.get k = none ↔ ∀ a ∈ m.records, a.1 ≠ k := by
  simp only [get, List.lookup_eq_none_iff, bne_iff_ne, ne_comm]

theorem get_eq_some_iff [IsStrictOrder K lt] : m.get k = some v ↔ (k, v) ∈ m.records := by
  constructor
  · intro h
    obtain ⟨pre, post, hl, -⟩ := List.lookup_eq_some_iff.mp h
    rw [hl]
    exact List.mem_append_right _ List.mem_cons_self
  · intro h
    cases hget : m.get k with
    | none => exact absurd rfl (get_eq_none_iff.mp hget _ h)
    | some w =>
      obtain ⟨pre, post, hl, -⟩ := List.lookup_eq_some_iff.mp hget
      have hw : (k, w) ∈ m.records := by
        rw [hl]
        exact List.mem_append_right _ List.mem_cons_self
      exact congrArg (fun a => some a.2) (eq_of_key m.sorted hw h rfl)

/-! ## Putting -/

section Put

variable [DecidableRel lt]

/-- Put a record in its place, over the record of the same key. -/
def place (lt : K → K → Prop) [DecidableRel lt] (k : K) (v : V) : List (K × V) → List (K × V)
  | [] => [(k, v)]
  | a :: l =>
    if lt k a.1 then (k, v) :: a :: l
    else if k = a.1 then (k, v) :: l
    else a :: place lt k v l

variable [IsStrictTotalOrder K lt]

theorem mem_place (hl : l.Pairwise fun a b => lt a.1 b.1) :
    a ∈ place lt k v l ↔ a = (k, v) ∨ a ∈ l ∧ a.1 ≠ k := by
  induction l with
  | nil => simp [place]
  | cons b l ih =>
    obtain ⟨hb, hl⟩ := List.pairwise_cons.mp hl
    have hbehind : a ∈ l → lt b.1 a.1 := hb a
    rw [place]
    split_ifs with hlt heq
    · have hne : a ∈ b :: l → a.1 ≠ k := by
        intro ha he
        rcases List.mem_cons.mp ha with rfl | ha
        · exact ne_of_lt hlt he.symm
        · exact ne_of_lt (trans_of lt hlt (hbehind ha)) he.symm
      rw [List.mem_cons (a := a) (b := (k, v))]
      exact or_congr Iff.rfl ⟨fun ha => ⟨ha, hne ha⟩, And.left⟩
    · subst heq
      have hne : a ∈ l → a.1 ≠ b.1 := fun ha he => ne_of_lt (hbehind ha) he.symm
      rw [List.mem_cons, List.mem_cons]
      constructor
      · rintro (rfl | ha)
        · exact Or.inl rfl
        · exact Or.inr ⟨Or.inr ha, hne ha⟩
      · rintro (rfl | ⟨rfl | ha, h⟩)
        · exact Or.inl rfl
        · exact absurd rfl h
        · exact Or.inr ha
    · rw [List.mem_cons, ih hl, List.mem_cons]
      constructor
      · rintro (rfl | rfl | ⟨ha, h⟩)
        · exact Or.inr ⟨Or.inl rfl, fun he => heq he.symm⟩
        · exact Or.inl rfl
        · exact Or.inr ⟨Or.inr ha, h⟩
      · rintro (rfl | ⟨rfl | ha, h⟩)
        · exact Or.inr (Or.inl rfl)
        · exact Or.inl rfl
        · exact Or.inr (Or.inr ⟨ha, h⟩)

theorem pairwise_place (hl : l.Pairwise fun a b => lt a.1 b.1) :
    (place lt k v l).Pairwise fun a b => lt a.1 b.1 := by
  induction l with
  | nil => exact List.pairwise_singleton _ _
  | cons b l ih =>
    obtain ⟨hb, hl'⟩ := List.pairwise_cons.mp hl
    rw [place]
    split_ifs with hlt heq
    · refine hl.cons fun a ha => ?_
      rcases List.mem_cons.mp ha with rfl | ha
      · exact hlt
      · exact trans_of lt hlt (hb a ha)
    · subst heq
      exact hl'.cons hb
    · refine (ih hl').cons fun a ha => ?_
      rcases (mem_place hl').mp ha with rfl | ⟨ha, -⟩
      · by_contra hbk
        exact heq (Std.Trichotomous.trichotomous k b.1 hlt hbk)
      · exact hb a ha

def put (m : SortedMap lt V) (k : K) (v : V) : SortedMap lt V :=
  ⟨place lt k v m.records, pairwise_place m.sorted⟩

theorem mem_put : a ∈ (m.put k v).records ↔ a = (k, v) ∨ a ∈ m.records ∧ a.1 ≠ k :=
  mem_place m.sorted

@[simp] theorem get_put_self : (m.put k v).get k = some v :=
  get_eq_some_iff.mpr (mem_put.mpr (Or.inl rfl))

theorem get_put_of_ne (h : k' ≠ k) : (m.put k v).get k' = m.get k' := by
  ext w
  rw [get_eq_some_iff, get_eq_some_iff, mem_put]
  constructor
  · rintro (he | ⟨hm, -⟩)
    · exact absurd (congrArg Prod.fst he) h
    · exact hm
  · exact fun hm => Or.inr ⟨hm, h⟩

theorem get_put : (m.put k v).get k' = if k' = k then some v else m.get k' := by
  split_ifs with h
  · rw [h, get_put_self]
  · exact get_put_of_ne h

end Put

end SortedMap
