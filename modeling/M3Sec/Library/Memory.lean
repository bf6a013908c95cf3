import Mathlib.Data.List.Basic
import Mathlib.Order.Lattice

/-! # A region of memory

The memory from an address on, by offset. A store writes consecutive cells, and `reach`
is how far the stores went: no cell at or behind it was written. Stores one behind the
other are one store.
-/

namespace Memory

/-- The cells from an address on, and the end of what was written to them. -/
@[ext]
structure Region (β : Type) where
  cells : ℕ → β
  reach : ℕ

namespace Region

variable {β : Type} {m : Region β} {p n i : ℕ} {bs cs : List β}

def untouched (cells : ℕ → β) : Region β := ⟨cells, 0⟩

def store (m : Region β) (p : ℕ) (bs : List β) : Region β where
  cells i := if p ≤ i then (bs[i - p]?).getD (m.cells i) else m.cells i
  reach := if bs.length = 0 then m.reach else max m.reach (p + bs.length)

def read (m : Region β) (p n : ℕ) : List β := (List.range n).map fun i => m.cells (p + i)

@[simp] theorem store_nil : m.store p [] = m := by
  simp [store]

theorem cells_store (h : i < bs.length) : (m.store p bs).cells (p + i) = bs[i] := by
  simp [store, List.getElem?_eq_getElem h]

theorem reach_store (h : bs ≠ []) : (m.store p bs).reach = max m.reach (p + bs.length) :=
  if_neg (mt List.eq_nil_of_length_eq_zero h)

theorem reach_store_zero : (m.store 0 bs).reach = max m.reach bs.length := by
  by_cases h : bs = []
  · simp [h]
  · rw [reach_store h, Nat.zero_add]

theorem store_append : (m.store p bs).store (p + bs.length) cs = m.store p (bs ++ cs) := by
  ext i
  · by_cases hp : p ≤ i
    · by_cases hb : p + bs.length ≤ i
      · have hi : bs.length ≤ i - p := by omega
        have hsub : i - (p + bs.length) = i - p - bs.length := by omega
        simp [store, hp, hb, List.getElem?_append_right hi, hsub, List.getElem?_eq_none hi]
      · have hi : i - p < bs.length := by omega
        simp [store, hp, hb, List.getElem?_append_left hi]
    · have hb : ¬ p + bs.length ≤ i := by omega
      simp [store, hp, hb]
  · simp only [store, List.length_append]
    split_ifs <;> omega

theorem store_store (h : bs.length ≤ cs.length) : (m.store p bs).store p cs = m.store p cs := by
  ext i
  · simp only [store]
    split_ifs with hp
    · rcases Nat.lt_or_ge (i - p) cs.length with hi | hi
      · rw [List.getElem?_eq_getElem hi]
        rfl
      · rw [List.getElem?_eq_none hi, List.getElem?_eq_none (h.trans hi)]
        rfl
    · rfl
  · simp only [store]
    split_ifs <;> omega

theorem read_succ : m.read p (n + 1) = m.cells p :: m.read (p + 1) n := by
  unfold read
  rw [List.range_succ_eq_map, List.map_cons, List.map_map, Nat.add_zero]
  congr 1
  apply List.map_congr_left
  intro i _
  simp only [Function.comp_apply]
  congr 1
  omega

theorem read_snoc : m.read p (n + 1) = m.read p n ++ [m.cells (p + n)] := by
  simp [read, List.range_succ]

theorem getElem?_read (h : i < n) : (m.read p n)[i]? = some (m.cells (p + i)) := by
  simp [read, h]

theorem read_store (h : bs.length = n) : (m.store p bs).read p n = bs := by
  subst h
  ext i : 1
  by_cases h : i < bs.length
  · rw [getElem?_read h, cells_store h, List.getElem?_eq_getElem h]
  · simp [read, h]

theorem read_store_of_le (h : i + n ≤ bs.length) :
    (m.store p bs).read (p + i) n = (bs.drop i).take n := by
  apply List.ext_getElem
  · simp only [read, List.length_map, List.length_range, List.length_take, List.length_drop]
    omega
  · intro j hj hj'
    have hread : j < n := by simpa [read] using hj
    have hcell : (m.store p bs).cells (p + (i + j)) = bs[i + j] := cells_store (by omega)
    simpa [read, Nat.add_assoc] using hcell

end Region

/-! ## Files -/

section Splice

variable {β : Type} {pad : β} {f bs : List β} {p k i : ℕ}

/-- A file after the values were written at an offset: a gap is filled with `pad`. -/
def splice (pad : β) (f : List β) (p : ℕ) (bs : List β) : List β :=
  if bs.length = 0 then f
  else (f ++ List.replicate (p - f.length) pad).take p ++ bs ++ f.drop (p + bs.length)

theorem getElem?_splice (h : bs ≠ []) : (splice pad f p bs)[i]? =
    if i < p then some (f[i]?.getD pad) else if i < p + bs.length then bs[i - p]? else f[i]? := by
  have hlen : ((f ++ List.replicate (p - f.length) pad).take p).length = p := by
    simp only [List.length_take, List.length_append, List.length_replicate]
    omega
  rw [splice, if_neg (mt List.eq_nil_of_length_eq_zero h), List.append_assoc]
  split_ifs with hp hb
  · rw [List.getElem?_append_left (by rw [hlen]; exact hp), List.getElem?_take_of_lt hp]
    by_cases hf : i < f.length
    · simp [List.getElem?_append_left hf, hf]
    · have hr : i - f.length < p - f.length := by omega
      simp [List.getElem?_append_right (Nat.not_lt.mp hf), hf, hr]
  · rw [List.getElem?_append_right (by omega), hlen, List.getElem?_append_left (by omega)]
  · rw [List.getElem?_append_right (by omega), hlen, List.getElem?_append_right (by omega),
      List.getElem?_drop]
    congr 1
    omega

theorem splice_nil : splice pad f p [] = f := rfl

theorem getElem?_splice_of_le (h : p + bs.length ≤ i) : (splice pad f p bs)[i]? = f[i]? := by
  by_cases hb : bs = []
  · rw [hb, splice_nil]
  · rw [getElem?_splice hb, if_neg (by omega), if_neg (by omega)]

/-- A write that was cut off leaves the same file exactly if the rest was there before. -/
theorem splice_take_iff : splice pad f p (bs.take k) = splice pad f p bs ↔
    ∀ i, k ≤ i → i < bs.length → f[p + i]? = bs[i]? := by
  constructor
  · intro h i hk hi
    have hbs : bs ≠ [] := List.ne_nil_of_length_pos (by omega)
    have hcut : p + (bs.take k).length ≤ p + i := by
      rw [List.length_take]
      omega
    rw [← getElem?_splice_of_le hcut, h, getElem?_splice hbs, if_neg (by omega), if_pos (by omega),
      Nat.add_sub_cancel_left]
  · intro h
    by_cases hbs : bs = []
    · simp [hbs]
    have hthere : ∀ j, p + k ≤ j → j < p + bs.length → f[j]? = bs[j - p]? := by
      intro j hk hj
      have hj' := h (j - p) (by omega) (by omega)
      rwa [Nat.add_sub_cancel' (by omega)] at hj'
    ext j : 1
    rw [getElem?_splice hbs]
    rcases Nat.eq_zero_or_pos k with rfl | hk
    · rw [List.take_zero, splice_nil]
      split_ifs with hp hb
      · have hpos : 0 < bs.length := List.length_pos_iff.mpr hbs
        have hlast := hthere p (by omega) (by omega)
        have hlen : p < f.length := by
          by_contra hf
          rw [List.getElem?_eq_none (by omega)] at hlast
          simp [hbs] at hlast
        simp [List.getElem?_eq_getElem (hp.trans hlen)]
      · exact hthere j (by omega) hb
      · rfl
    · rw [getElem?_splice (by simp [hbs, hk.ne']), List.length_take, List.getElem?_take]
      split_ifs <;> first | rfl | omega | exact hthere j (by omega) (by omega)

end Splice

end Memory
