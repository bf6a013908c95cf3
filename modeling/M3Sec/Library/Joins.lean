import Mathlib.Data.List.Nodup

/-! # Nested loop joins

A nested loop over two tables appends, for each row of the outer one, what the rows
of the inner one contribute. When the inner table has unique keys and only the row
with the wanted key contributes, each outer row appends at most one value; the join
then has as many values as there are outer rows exactly when each of them appends one,
and it is the same for every order of the inner rows.
-/

namespace Joins

variable {ρ κ β τ : Type} {rows : List ρ} {key : ρ → κ} {f : ρ → Option β}

theorem filterMap_eq_singleton (hn : (rows.map key).Nodup) {r : ρ} {v : β} (hr : r ∈ rows)
    (hv : f r = some v) (hf : ∀ r' ∈ rows, f r' ≠ none → key r' = key r) :
    rows.filterMap f = [v] := by
  induction rows with
  | nil => simp at hr
  | cons a rows ih =>
    obtain ⟨hna, hn⟩ := List.nodup_cons.mp hn
    rcases List.mem_cons.mp hr with rfl | hr'
    · have hrest : rows.filterMap f = [] := by
        apply List.filterMap_eq_nil_iff.mpr
        intro r' hr'
        by_contra hne
        exact hna (List.mem_map.mpr ⟨r', hr', hf r' (List.mem_cons_of_mem _ hr') hne⟩)
      rw [List.filterMap_cons_some hv, hrest]
    · have hne : f a = none := by
        by_contra hne
        have he := hf a (List.mem_cons_self ..) hne
        exact hna (he ▸ List.mem_map_of_mem hr')
      rw [List.filterMap_cons_none hne]
      exact ih hn hr' fun r' h => hf r' (List.mem_cons_of_mem _ h)

/-- If all rows that contribute have one key, their order is irrelevant. -/
theorem filterMap_eq_of_perm {rows' : List ρ} (hp : rows.Perm rows') (hn : (rows.map key).Nodup)
    (hf : ∀ r ∈ rows, ∀ r' ∈ rows, f r ≠ none → f r' ≠ none → key r' = key r) :
    rows.filterMap f = rows'.filterMap f := by
  rcases hnone : rows.filterMap f with _ | ⟨v, l⟩
  · have hnil : ([] : List β).Perm (rows'.filterMap f) := hnone ▸ hp.filterMap f
    exact hnil.nil_eq
  · have hv : v ∈ rows.filterMap f := hnone ▸ List.mem_cons_self ..
    obtain ⟨r, hr, hrv⟩ := List.mem_filterMap.mp hv
    have hne : f r ≠ none := Option.ne_none_iff_exists'.mpr ⟨v, hrv⟩
    have hleft : rows.filterMap f = [v] :=
      filterMap_eq_singleton hn hr hrv fun r' hr' hne' => hf r hr r' hr' hne hne'
    have hright : rows'.filterMap f = [v] :=
      filterMap_eq_singleton ((hp.map key).nodup_iff.mp hn) (hp.subset hr) hrv
        fun r' hr' hne' => hf r hr r' (hp.symm.subset hr') hne hne'
    rw [← hnone, hleft, hright]

variable {outer : List τ} {g : τ → List β}

theorem length_flatMap_le (hg : ∀ t ∈ outer, (g t).length ≤ 1) :
    (outer.flatMap g).length ≤ outer.length := by
  induction outer with
  | nil => simp
  | cons t outer ih =>
    have ht := hg t (List.mem_cons_self ..)
    have := ih fun u hu => hg u (List.mem_cons_of_mem _ hu)
    simp only [List.flatMap_cons, List.length_append, List.length_cons]
    omega

theorem length_flatMap_eq_iff (hg : ∀ t ∈ outer, (g t).length ≤ 1) :
    (outer.flatMap g).length = outer.length ↔ ∀ t ∈ outer, (g t).length = 1 := by
  induction outer with
  | nil => simp
  | cons t outer ih =>
    have ht := hg t (List.mem_cons_self ..)
    have hg' : ∀ u ∈ outer, (g u).length ≤ 1 := fun u hu => hg u (List.mem_cons_of_mem _ hu)
    have hle := length_flatMap_le hg'
    simp only [List.flatMap_cons, List.length_append, List.length_cons, List.mem_cons,
      forall_eq_or_imp, ← ih hg']
    omega

theorem length_flatMap_eq_countP {p : τ → Bool}
    (hg : ∀ t ∈ outer, (g t).length = if p t then 1 else 0) :
    (outer.flatMap g).length = outer.countP p := by
  induction outer with
  | nil => rfl
  | cons t outer ih =>
    have ht := hg t (List.mem_cons_self ..)
    have hrest := ih fun u hu => hg u (List.mem_cons_of_mem _ hu)
    rw [List.flatMap_cons, List.length_append, ht, hrest, List.countP_cons, Nat.add_comm]

theorem getElem?_flatMap (hg : ∀ t ∈ outer, (g t).length = 1) (i : ℕ) :
    (outer.flatMap g)[i]? = outer[i]?.bind fun t => (g t)[0]? := by
  induction outer generalizing i with
  | nil => simp
  | cons t outer ih =>
    obtain ⟨v, hv⟩ := List.length_eq_one_iff.mp (hg t (List.mem_cons_self ..))
    have hi := ih fun u hu => hg u (List.mem_cons_of_mem _ hu)
    rw [List.flatMap_cons, hv, List.singleton_append]
    cases i with
    | zero => simp [hv]
    | succ i => simpa using hi i

end Joins
