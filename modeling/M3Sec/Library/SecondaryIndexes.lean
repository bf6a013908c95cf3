import Mathlib.Data.Prod.Basic
import M3Sec.Library.SortedMaps

/-! # Secondary indexes

A primary map, and an index of it by a key that is extracted from the values. The index
holds pairs of a secondary and a primary key, sorted by the first and then by the second.
Each put brings the index up to date, so a walk over the duplicates of a secondary key finds
what a scan of the primary map finds, in the same order.
-/

variable {K S V : Type} {ltK : K → K → Prop} {ltS : S → S → Prop}

structure IndexedMap (ltK : K → K → Prop) (ltS : S → S → Prop) (V : Type) where
  primary : SortedMap ltK V
  secondary : SortedMap (Prod.Lex ltS ltK) Unit

namespace IndexedMap

open SortedMap

instance [IsStrictTotalOrder S ltS] [IsStrictTotalOrder K ltK] :
    IsStrictTotalOrder (S × K) (Prod.Lex ltS ltK) where
  trichotomous := by
    rintro ⟨s, k⟩ ⟨s', k'⟩ h h'
    rw [Prod.lex_def, not_or, not_and] at h h'
    obtain rfl : s = s' := Std.Trichotomous.trichotomous s s' h.1 h'.1
    obtain rfl : k = k' := Std.Trichotomous.trichotomous k k' (h.2 rfl) (h'.2 rfl)
    rfl
  irrefl := by
    rintro ⟨s, k⟩ h
    rcases Prod.lex_def.mp h with h | ⟨-, h⟩
    · exact irrefl_of ltS s h
    · exact irrefl_of ltK k h
  trans := by
    rintro ⟨s, k⟩ ⟨s', k'⟩ ⟨s'', k''⟩ h h'
    rw [Prod.lex_def] at h h' ⊢
    rcases h with h | ⟨rfl, h⟩ <;> rcases h' with h' | ⟨rfl, h'⟩
    · exact Or.inl (trans_of ltS h h')
    · exact Or.inl h
    · exact Or.inl h'
    · exact Or.inr ⟨rfl, trans_of ltK h h'⟩

def empty (ltK : K → K → Prop) (ltS : S → S → Prop) (V : Type) : IndexedMap ltK ltS V :=
  ⟨.empty _ _, .empty _ _⟩

variable (extract : V → Option S)

/-- The index holds exactly the pairs that the primary map gives rise to. -/
def Consistent [DecidableEq K] (d : IndexedMap ltK ltS V) : Prop :=
  ∀ s k, ((s, k), ()) ∈ d.secondary.records ↔ ∃ v, d.primary.get k = some v ∧ extract v = some s

theorem consistent_empty [DecidableEq K] : Consistent extract (empty ltK ltS V) := by
  intro s k
  simp [empty, SortedMap.empty, SortedMap.get]

/-- The primary keys of a secondary key, as a cursor meets them: it is set to the first
record with that key and moves on from duplicate to duplicate. -/
def duplicates [DecidableEq S] (d : IndexedMap ltK ltS V) (s : S) : List K :=
  ((d.secondary.records.dropWhile (·.1.1 ≠ s)).takeWhile (·.1.1 = s)).map (·.1.2)

def select [DecidableEq K] [DecidableEq S] (d : IndexedMap ltK ltS V) (s : S) : List V :=
  (d.duplicates s).filterMap d.primary.get

def scan [DecidableEq S] (d : IndexedMap ltK ltS V) (s : S) : List (K × V) :=
  d.primary.records.filter fun a => extract a.2 = some s

/-! ## Puts -/

section Put

variable [DecidableEq K] [DecidableEq S] {d : IndexedMap ltK ltS V} {k : K} {v : V} {s : S}

variable {extract} in
theorem mem_dropped {a : (S × K) × Unit} :
    a ∈ (((d.primary.get k).bind extract).elim d.secondary
      fun s => d.secondary.erase (s, k)).records ↔
    a ∈ d.secondary.records ∧ ∀ s, (d.primary.get k).bind extract = some s → a.1 ≠ (s, k) := by
  cases (d.primary.get k).bind extract with
  | none => simp
  | some s => simp

variable [DecidableRel ltK] [DecidableRel ltS] [IsStrictTotalOrder K ltK]
  [IsStrictTotalOrder S ltS]

/-- Put a record, and update the index: the pair of the record before goes, that of the new
one comes. -/
def put (d : IndexedMap ltK ltS V) (k : K) (v : V) : IndexedMap ltK ltS V where
  primary := d.primary.put k v
  secondary :=
    let dropped := ((d.primary.get k).bind extract).elim d.secondary fun s => d.secondary.erase (s, k)
    (extract v).elim dropped fun s => dropped.put (s, k) ()

variable {extract}

@[simp] theorem primary_put : (d.put extract k v).primary = d.primary.put k v := rfl

theorem mem_secondary_put {a : (S × K) × Unit} : a ∈ (d.put extract k v).secondary.records ↔
    (∃ s, extract v = some s ∧ a.1 = (s, k)) ∨ a ∈ d.secondary.records ∧
      (∀ s, (d.primary.get k).bind extract = some s → a.1 ≠ (s, k)) ∧
      ∀ s, extract v = some s → a.1 ≠ (s, k) := by
  unfold put
  cases extract v with
  | none => simp [mem_dropped]
  | some s =>
    simp only [Option.elim_some, mem_put, mem_dropped, Option.some.injEq, exists_eq_left',
      forall_eq', and_assoc, Prod.ext_iff, and_true]

theorem Consistent.put (h : Consistent extract d) : Consistent extract (d.put extract k v) := by
  intro s k'
  rw [mem_secondary_put, primary_put, get_put, h s k']
  by_cases hk : k' = k
  · subst hk
    simp only [Prod.mk.injEq, and_true, if_true, Option.some.injEq, exists_eq_left', ne_eq]
    constructor
    · rintro (⟨s', hs', rfl⟩ | ⟨⟨w, hw, hs⟩, hold, -⟩)
      · exact hs'
      · exact absurd rfl (hold s (by rw [hw]; exact hs))
    · exact fun hs => Or.inl ⟨s, hs, rfl⟩
  · simp only [Prod.mk.injEq, hk, and_false, exists_false, false_or, if_false, not_false_eq_true,
      implies_true, and_true, ne_eq]

end Put

/-! ## Walks -/

section Walk

variable [DecidableEq S] [IsStrictTotalOrder S ltS] {d : IndexedMap ltK ltS V}
  {l : List ((S × K) × Unit)} {s : S} {k : K}

theorem takeWhile_eq_filter (hl : l.Pairwise fun a b => Prod.Lex ltS ltK a.1 b.1)
    (hs : ∀ a ∈ l, ltS s a.1.1 ∨ s = a.1.1) :
    l.takeWhile (·.1.1 = s) = l.filter (·.1.1 = s) := by
  induction hl with
  | nil => rfl
  | @cons a l ha _ ih =>
    rcases hs a List.mem_cons_self with hlt | heq
    · have hgone : ∀ b ∈ a :: l, b.1.1 ≠ s := by
        rintro b hb rfl
        rcases List.mem_cons.mp hb with rfl | hb
        · exact irrefl_of ltS _ hlt
        · rcases Prod.lex_def.mp (ha b hb) with hab | ⟨hab, -⟩
          · exact irrefl_of ltS _ (trans_of ltS hlt hab)
          · exact ne_of_lt hlt hab.symm
      have hempty : (a :: l).filter (·.1.1 = s) = [] := by
        rw [List.filter_eq_nil_iff]
        exact fun b hb => by simpa using hgone b hb
      rw [hempty, List.takeWhile_cons_of_neg (by simpa using hgone a List.mem_cons_self)]
    · rw [List.takeWhile_cons_of_pos (by simpa using heq.symm),
        List.filter_cons_of_pos (by simpa using heq.symm),
        ih fun b hb => hs b (List.mem_cons_of_mem _ hb)]

theorem takeWhile_dropWhile_eq_filter (hl : l.Pairwise fun a b => Prod.Lex ltS ltK a.1 b.1) :
    (l.dropWhile (·.1.1 ≠ s)).takeWhile (·.1.1 = s) = l.filter (·.1.1 = s) := by
  induction hl with
  | nil => rfl
  | @cons a l ha hl ih =>
    by_cases hs : a.1.1 = s
    · subst hs
      rw [List.dropWhile_cons_of_neg (by simp)]
      refine takeWhile_eq_filter (hl.cons ha) fun b hb => ?_
      rcases List.mem_cons.mp hb with rfl | hb
      · exact Or.inr rfl
      · exact (Prod.lex_def.mp (ha b hb)).imp id And.left
    · rw [List.dropWhile_cons_of_pos (by simpa using hs), List.filter_cons_of_neg (by simpa using hs),
        ih]

theorem mem_duplicates : k ∈ d.duplicates s ↔ ((s, k), ()) ∈ d.secondary.records := by
  rw [duplicates, takeWhile_dropWhile_eq_filter d.secondary.sorted]
  simp only [List.mem_map, List.mem_filter, decide_eq_true_eq]
  constructor
  · rintro ⟨⟨⟨s', k'⟩, ⟨⟩⟩, ⟨ha, rfl⟩, rfl⟩
    exact ha
  · exact fun h => ⟨_, ⟨h, rfl⟩, rfl⟩

theorem pairwise_duplicates : (d.duplicates s).Pairwise ltK := by
  rw [duplicates, takeWhile_dropWhile_eq_filter d.secondary.sorted, List.pairwise_map]
  refine (d.secondary.sorted.filter _).imp_of_mem fun {a b} ha hb hab => ?_
  have hsa : a.1.1 = s := by simpa using (List.mem_filter.mp ha).2
  have hsb : b.1.1 = s := by simpa using (List.mem_filter.mp hb).2
  rcases Prod.lex_def.mp hab with h | ⟨-, h⟩
  · exact absurd (hsa.trans hsb.symm) (ne_of_lt h)
  · exact h

variable [DecidableEq K] [IsStrictTotalOrder K ltK] {extract : V → Option S}

theorem duplicates_eq_scan (h : Consistent extract d) :
    d.duplicates s = (d.scan extract s).map Prod.fst := by
  refine eq_of_mem_iff pairwise_duplicates ?_ fun k => ?_
  · exact List.pairwise_map.mpr (d.primary.sorted.filter _)
  · rw [mem_duplicates, h s k]
    simp only [scan, List.mem_map, List.mem_filter, decide_eq_true_eq, get_eq_some_iff]
    constructor
    · rintro ⟨v, hv, hs⟩
      exact ⟨(k, v), ⟨hv, hs⟩, rfl⟩
    · rintro ⟨⟨k', v⟩, ⟨hv, hs⟩, rfl⟩
      exact ⟨v, hv, hs⟩

/-- Looking up by the index is scanning the primary map. -/
theorem select_eq_scan (h : Consistent extract d) :
    d.select s = (d.scan extract s).map Prod.snd := by
  rw [select, duplicates_eq_scan h, List.filterMap_map, ← List.filterMap_eq_map]
  apply List.filterMap_congr
  intro a ha
  have hmem : a ∈ d.primary.records := (List.mem_filter.mp ha).1
  exact get_eq_some_iff.mpr hmem

end Walk

end IndexedMap
