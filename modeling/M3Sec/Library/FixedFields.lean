import M3Sec.Library.CStrings

/-! # Scanning into fields of fixed size

A structure of character arrays, one behind the other, is filled by `sscanf` with a format
that reads at most as many characters into an array as it has. The terminator comes behind
them. Fields that are not empty are read back from the structure exactly if each leaves room
for its terminator.
-/

namespace FixedFields

open Memory

variable {β : Type}

/-- A directive of a format: characters other than `stop`, at least one and at most as many
as the width, or a character that must be next. -/
inductive Directive (β : Type) where
  | chars (width : ℕ) (stop : β) (dest : ℕ)
  | literal (c : β)

def format (sep last : β) : (p : ℕ) → (sizes : List ℕ) → List (Directive β)
  | _, [] => []
  | p, [n] => [.chars n last p]
  | p, n :: ns => .chars n sep p :: .literal sep :: format sep last (p + n) ns

def extent (p : ℕ) (sizes : List ℕ) : ℕ := sizes.foldl (· + ·) p

variable {nul sep last stop : β} {m m' : Region β} {p n k e i : ℕ} {ns : List ℕ}
  {f g rest input : List β} {fs gs : List (List β)} {ds : List (Directive β)}

/-! ## Memory -/

theorem take_ne_nil (hn : 0 < n) (hf : f ≠ []) : f.take n ≠ [] := by
  rw [Ne, List.take_eq_nil_iff, not_or]
  exact ⟨hn.ne', hf⟩

theorem read_eq_iff : m.read p f.length = f ↔ ∀ i (h : i < f.length), m.cells (p + i) = f[i] := by
  constructor
  · intro h i hi
    have hread := Region.getElem?_read (m := m) (p := p) hi
    rw [h, List.getElem?_eq_getElem hi] at hread
    exact (Option.some.inj hread).symm
  · intro h
    apply List.ext_getElem?
    intro i
    by_cases hi : i < f.length
    · rw [Region.getElem?_read hi, h i hi, List.getElem?_eq_getElem hi]
    · simp [Region.read, hi]

theorem cells_strcpy_of_lt (h : i < p) : (m.strcpy nul p f).cells i = m.cells i :=
  if_neg (Nat.not_le.mpr h)

theorem cells_strcpy_of_gt (h : p + f.length < i) : (m.strcpy nul p f).cells i = m.cells i := by
  have hnone : (f ++ [nul])[i - p]? = none := List.getElem?_eq_none (by simp; omega)
  simp [Region.strcpy, Region.store, hnone]

theorem cells_strcpy (h : i < f.length) : (m.strcpy nul p f).cells (p + i) = f[i] := by
  have hi : i < (f ++ [nul]).length := by
    rw [List.length_append]
    omega
  have hcell : (m.store p (f ++ [nul])).cells (p + i) = (f ++ [nul])[i] := Region.cells_store hi
  exact hcell.trans (List.getElem_append_left h)

theorem cells_strcpy_length : (m.strcpy nul p f).cells (p + f.length) = nul := by
  have hi : f.length < (f ++ [nul]).length := by simp
  have hcell : (m.store p (f ++ [nul])).cells (p + f.length) = (f ++ [nul])[f.length] :=
    Region.cells_store hi
  exact hcell.trans (by simp)

theorem cells_strcpy_take (hn : 0 < n) (hf : f ≠ []) (hnul : nul ∉ f) :
    (m.strcpy nul p (f.take n)).cells p ≠ nul := by
  have hpos : 0 < (f.take n).length := List.length_pos_iff.mpr (take_ne_nil hn hf)
  have hcell : (m.strcpy nul p (f.take n)).cells (p + 0) = (f.take n)[0] := cells_strcpy hpos
  rw [Nat.add_zero] at hcell
  rw [hcell]
  exact fun he => hnul (he ▸ List.mem_of_mem_take (List.getElem_mem hpos))

theorem reach_strcpy : (m.strcpy nul p f).reach = max m.reach (p + (f.length + 1)) := by
  have hne : f ++ [nul] ≠ [] := by simp
  have hreach := Region.reach_store (m := m) (p := p) hne
  rwa [List.length_append, List.length_singleton] at hreach

/-! ## Layout -/

theorem intercalate_cons (hgs : gs ≠ []) :
    [sep].intercalate (f :: gs) = f ++ sep :: [sep].intercalate gs := by
  rw [List.intercalate_cons_of_ne_nil hgs, List.append_assoc, List.singleton_append]

theorem not_mem_intercalate (h : ∀ f ∈ fs, nul ∉ f) (hsep : nul ≠ sep) :
    nul ∉ [sep].intercalate fs := by
  induction fs with
  | nil => exact List.not_mem_nil
  | cons f fs ih =>
    have hf := h f List.mem_cons_self
    have hfs := ih fun g hg => h g (List.mem_cons_of_mem _ hg)
    by_cases hne : fs = []
    · rwa [hne, List.intercalate_singleton]
    · rw [intercalate_cons hne, List.mem_append, List.mem_cons, not_or, not_or]
      exact ⟨hf, hsep, hfs⟩

theorem format_cons (hns : ns ≠ []) : format sep last p (n :: ns) =
    .chars n sep p :: .literal sep :: format sep last (p + n) ns := by
  cases ns with
  | nil => exact absurd rfl hns
  | cons n' ns => rfl

theorem le_extent : p ≤ extent p ns := by
  induction ns generalizing p with
  | nil => exact le_rfl
  | cons n ns ih => exact (Nat.le_add_right p n).trans ih

/-- The fields before the last one are scanned, and the last one leaves no room. -/
def Overruns : List (List β) → List ℕ → Prop
  | [f], [n] => n ≤ f.length
  | f :: g :: fs, n :: ns => f.length ≤ n ∧ Overruns (g :: fs) ns
  | _, _ => False

theorem not_overruns (h : List.Forall₂ (fun f n => f.length < n) fs ns) : ¬ Overruns fs ns := by
  induction h with
  | nil => exact id
  | @cons f n fs ns hlt hrest ih =>
    cases hrest with
    | nil => exact Nat.not_le.mpr hlt
    | cons => exact fun ho => ih ho.2

/-! ## Scanning and reading -/

variable [DecidableEq β]

section Definitions

variable (nul)

def sscanf : List (Directive β) → (input : List β) → Region β → Region β
  | [], _, m => m
  | .chars width stop dest :: ds, input, m =>
    let field := (input.takeWhile (· ≠ stop)).take width
    if field = [] then m else sscanf ds (input.drop field.length) (m.strcpy nul dest field)
  | .literal c :: ds, input, m => if input.head? = some c then sscanf ds input.tail m else m

/-- The string at an offset, if it ends before the end of the structure. -/
def stringAt (m : Region β) (p stop : ℕ) : Option (List β) :=
  (m.strlen nul (stop - p) p).map (m.read p)

def strings (m : Region β) (stop : ℕ) : (p : ℕ) → (sizes : List ℕ) → List (Option (List β))
  | _, [] => []
  | p, n :: ns => stringAt nul m p stop :: strings m stop (p + n) ns

end Definitions

/-! ## Strings -/

theorem strlen_eq_some_iff : m.strlen nul n p = some k ↔
    k < n ∧ m.cells (p + k) = nul ∧ ∀ i < k, m.cells (p + i) ≠ nul := by
  induction n generalizing p k with
  | zero => simp [Region.strlen]
  | succ n ih =>
    rw [Region.strlen]
    split_ifs with hp
    · constructor
      · intro h
        obtain rfl := Option.some.inj h
        exact ⟨Nat.succ_pos n, hp, fun i hi => absurd hi (Nat.not_lt_zero i)⟩
      · rintro ⟨-, -, hbefore⟩
        cases k with
        | zero => rfl
        | succ k => exact absurd hp (hbefore 0 (Nat.succ_pos k))
    · cases k with
      | zero => simpa using hp
      | succ k =>
        have hshift : ∀ i, p + 1 + i = p + (i + 1) := fun i => by omega
        simp only [Option.map_eq_some_iff, Nat.add_right_cancel_iff, exists_eq_right, ih, hshift]
        constructor
        · rintro ⟨hk, hnul, hbefore⟩
          refine ⟨Nat.succ_lt_succ hk, hnul, fun i hi => ?_⟩
          cases i with
          | zero => exact hp
          | succ i => exact hbefore i (Nat.lt_of_succ_lt_succ hi)
        · rintro ⟨hk, hnul, hbefore⟩
          exact ⟨Nat.lt_of_succ_lt_succ hk, hnul, fun i hi => hbefore (i + 1) (Nat.succ_lt_succ hi)⟩

theorem stringAt_eq_some_iff (hf : nul ∉ f) : stringAt nul m p e = some f ↔
    p + f.length < e ∧ m.read p f.length = f ∧ m.cells (p + f.length) = nul := by
  unfold stringAt
  simp only [Option.map_eq_some_iff, strlen_eq_some_iff]
  constructor
  · rintro ⟨k, ⟨hk, hnul, -⟩, rfl⟩
    have hlen : (m.read p k).length = k := by simp [Region.read]
    rw [hlen]
    exact ⟨by omega, rfl, hnul⟩
  · rintro ⟨hlt, hread, hnul⟩
    refine ⟨f.length, ⟨by omega, hnul, fun i hi he => hf ?_⟩, hread⟩
    rw [← he, read_eq_iff.mp hread i hi]
    exact List.getElem_mem hi

theorem strings_cleared (hns : ∀ n ∈ ns, 0 < n) (hm : ∀ i < extent p ns, m.cells i = nul) :
    strings nul m (extent p ns) p ns = List.replicate ns.length (some []) := by
  suffices hstop : ∀ stop, extent p ns ≤ stop → (∀ i < stop, m.cells i = nul) →
      strings nul m stop p ns = List.replicate ns.length (some []) from hstop _ le_rfl hm
  intro stop hle hcells
  clear hm
  induction ns generalizing p with
  | nil => rfl
  | cons n ns ih =>
    have hn : 0 < n := hns n List.mem_cons_self
    have hnext : p + n ≤ stop := le_extent.trans hle
    have hfirst : stringAt nul m p stop = some [] := by
      refine (stringAt_eq_some_iff List.not_mem_nil).mpr ⟨?_, rfl, hcells _ ?_⟩
      · simp only [List.length_nil]
        omega
      · simp only [List.length_nil]
        omega
    rw [strings, hfirst, ih (fun k hk => hns k (List.mem_cons_of_mem _ hk)) hle]
    rfl

/-! ## Scanning -/

theorem cells_sscanf_of_lt (h : i < p) :
    (sscanf nul (format sep last p ns) input m).cells i = m.cells i := by
  induction ns generalizing p input m with
  | nil => rfl
  | cons n ns ih =>
    cases ns with
    | nil =>
      simp only [format, sscanf]
      split_ifs
      · rfl
      · exact cells_strcpy_of_lt h
    | cons n' ns =>
      simp only [format, sscanf]
      split_ifs
      · rfl
      · rw [ih (by omega), cells_strcpy_of_lt h]
      · exact cells_strcpy_of_lt h

theorem sscanf_chars (hf : stop ∉ f) (hrest : rest = [] ∨ rest.head? = some stop) :
    sscanf nul (.chars n stop p :: ds) (f ++ rest) m =
      if f.take n = [] then m
      else sscanf nul ds (f.drop n ++ rest) (m.strcpy nul p (f.take n)) := by
  have hfield : (f ++ rest).takeWhile (· ≠ stop) = f := by
    have hpos : ∀ b ∈ f, decide (b ≠ stop) = true := fun b hb =>
      decide_eq_true fun he => hf (he ▸ hb)
    rw [List.takeWhile_append_of_pos hpos]
    rcases hrest with rfl | hrest
    · simp
    · obtain ⟨r, rfl⟩ := List.head?_eq_some_iff.mp hrest
      simp
  have hdrop : (f ++ rest).drop (f.take n).length = f.drop n ++ rest := by
    rw [List.length_take]
    rcases Nat.le_total n f.length with hn | hn
    · rw [Nat.min_eq_left hn, List.drop_append_of_le_length hn]
    · rw [Nat.min_eq_right hn, List.drop_left, List.drop_eq_nil_of_le hn, List.nil_append]
  rw [sscanf, hfield, hdrop]

/-- A field that does not fit ends the scan, with as much of it as there is room for. -/
theorem sscanf_long (hf : sep ∉ f) (hn : 0 < n) (hlong : n < f.length)
    (hrest : rest = [] ∨ rest.head? = some sep) :
    sscanf nul (.chars n sep p :: .literal sep :: ds) (f ++ rest) m =
      m.strcpy nul p (f.take n) := by
  have hne : f.take n ≠ [] := List.ne_nil_of_length_pos (by rw [List.length_take]; omega)
  have hhead : (f.drop n ++ rest).head? ≠ some sep := by
    rw [List.drop_eq_getElem_cons hlong, List.cons_append, List.head?_cons]
    exact fun he => hf (Option.some.inj he ▸ List.getElem_mem hlong)
  rw [sscanf_chars hf hrest, if_neg hne, sscanf, if_neg hhead]

theorem sscanf_short (hf : sep ∉ f) (hne : f ≠ []) (hshort : f.length ≤ n) :
    sscanf nul (.chars n sep p :: .literal sep :: ds) (f ++ sep :: rest) m =
      sscanf nul ds rest (m.strcpy nul p f) := by
  rw [sscanf_chars hf (Or.inr List.head?_cons), List.take_of_length_le hshort, if_neg hne,
    List.drop_eq_nil_of_le hshort, List.nil_append, sscanf, List.head?_cons, if_pos rfl,
    List.tail_cons]

/-! ## Reading back -/

/-- A string that can be scanned into a field. -/
structure Scannable (nul sep last : β) (f : List β) : Prop where
  ne_nil : f ≠ []
  nul_not_mem : nul ∉ f
  sep_not_mem : sep ∉ f
  last_not_mem : last ∉ f

instance decidableScannable (nul sep last : β) (f : List β) :
    Decidable (Scannable nul sep last f) :=
  decidable_of_iff (f ≠ [] ∧ nul ∉ f ∧ sep ∉ f ∧ last ∉ f)
    ⟨fun ⟨h, hnul, hsep, hlast⟩ => ⟨h, hnul, hsep, hlast⟩,
      fun h => ⟨h.ne_nil, h.nul_not_mem, h.sep_not_mem, h.last_not_mem⟩⟩

theorem stringAt_of_cells (hf : nul ∉ f) (he : p + f.length < e)
    (h : ∀ i, i ≤ p + f.length → m'.cells i = (m.strcpy nul p f).cells i) :
    stringAt nul m' p e = some f := by
  refine (stringAt_eq_some_iff hf).mpr ⟨he, read_eq_iff.mpr fun i hi => ?_, ?_⟩
  · rw [h (p + i) (by omega)]
    exact cells_strcpy hi
  · rw [h _ le_rfl]
    exact cells_strcpy_length

theorem stringAt_ne_of_cell (hf : nul ∉ f) (h : m.cells (p + f.length) ≠ nul) :
    stringAt nul m p e ≠ some f := fun hs => h ((stringAt_eq_some_iff hf).mp hs).2.2

theorem stringAt_ne_of_nul (hf : nul ∉ f) (hi : i < f.length) (h : m.cells (p + i) = nul) :
    stringAt nul m p e ≠ some f := by
  intro hs
  have hread := read_eq_iff.mp ((stringAt_eq_some_iff hf).mp hs).2.1 i hi
  exact hf (h ▸ hread ▸ List.getElem_mem hi)

theorem sscanf_last (hf : last ∉ f) (hne : f.take n ≠ []) :
    sscanf nul (format sep last p [n]) f m = m.strcpy nul p (f.take n) := by
  have hscan : sscanf nul [.chars n last p] (f ++ []) m = _ := sscanf_chars hf (Or.inl rfl)
  rw [List.append_nil, if_neg hne] at hscan
  exact hscan

theorem cells_sscanf_start (hlen : ns.length = gs.length) (hn : 0 < n)
    (hg : Scannable nul sep last g) :
    (sscanf nul (format sep last p (n :: ns)) ([sep].intercalate (g :: gs)) m).cells p ≠ nul := by
  have hstart := cells_strcpy_take (m := m) (p := p) hn hg.ne_nil hg.nul_not_mem
  by_cases hns : ns = []
  · subst hns
    obtain rfl : gs = [] := List.eq_nil_of_length_eq_zero hlen.symm
    rw [List.intercalate_singleton, sscanf_last hg.last_not_mem (take_ne_nil hn hg.ne_nil)]
    exact hstart
  · have hgs : gs ≠ [] := fun he => hns (List.eq_nil_of_length_eq_zero (by rw [hlen, he]; rfl))
    rw [intercalate_cons hgs, format_cons hns]
    rcases Nat.lt_or_ge n g.length with hlong | hshort
    · rw [sscanf_long hg.sep_not_mem hn hlong (Or.inr List.head?_cons)]
      exact hstart
    · rw [sscanf_short hg.sep_not_mem hg.ne_nil hshort, cells_sscanf_of_lt (by omega)]
      rwa [List.take_of_length_le hshort] at hstart

/-- A field is read back exactly if it leaves room for its terminator. -/
theorem stringAt_sscanf_iff (hlen : ns.length = gs.length) (hn : 0 < n) (hns : ∀ n ∈ ns, 0 < n)
    (hf : Scannable nul sep last f) (hgs : ∀ g ∈ gs, Scannable nul sep last g) :
    stringAt nul (sscanf nul (format sep last p (n :: ns)) ([sep].intercalate (f :: gs)) m) p
      (extent p (n :: ns)) = some f ↔ f.length < n := by
  cases ns with
  | nil =>
    obtain rfl : gs = [] := List.eq_nil_of_length_eq_zero hlen.symm
    have hend : extent p [n] = p + n := rfl
    rw [List.intercalate_singleton, sscanf_last hf.last_not_mem (take_ne_nil hn hf.ne_nil), hend]
    constructor
    · intro h
      have := ((stringAt_eq_some_iff hf.nul_not_mem).mp h).1
      omega
    · intro hlt
      rw [List.take_of_length_le hlt.le]
      exact stringAt_of_cells hf.nul_not_mem (by omega) fun _ _ => rfl
  | cons n' ns =>
    obtain ⟨g, gs, rfl⟩ := List.exists_cons_of_length_eq_add_one hlen.symm
    have hend : p + n ≤ extent p (n :: n' :: ns) := le_extent
    rw [intercalate_cons (List.cons_ne_nil g gs), format_cons (List.cons_ne_nil n' ns)]
    rcases Nat.lt_trichotomy f.length n with hlt | heq | hgt
    · refine iff_of_true ?_ hlt
      rw [sscanf_short hf.sep_not_mem hf.ne_nil hlt.le]
      apply stringAt_of_cells hf.nul_not_mem (by omega)
      intro i hi
      exact cells_sscanf_of_lt (by omega)
    · refine iff_of_false (stringAt_ne_of_cell hf.nul_not_mem ?_) (by omega)
      rw [sscanf_short hf.sep_not_mem hf.ne_nil heq.le, heq]
      exact cells_sscanf_start (Nat.succ.inj hlen) (hns n' List.mem_cons_self)
        (hgs g List.mem_cons_self)
    · refine iff_of_false (stringAt_ne_of_nul hf.nul_not_mem hgt ?_) (by omega)
      rw [sscanf_long hf.sep_not_mem hn hgt (Or.inr List.head?_cons)]
      have hcell : (m.strcpy nul p (f.take n)).cells (p + (f.take n).length) = nul :=
        cells_strcpy_length
      rwa [List.length_take, Nat.min_eq_left hgt.le] at hcell

theorem strings_sscanf_iff (hlen : ns.length = fs.length) (hns : ∀ n ∈ ns, 0 < n)
    (hfs : ∀ f ∈ fs, Scannable nul sep last f) :
    strings nul (sscanf nul (format sep last p ns) ([sep].intercalate fs) m) (extent p ns) p ns =
      fs.map some ↔ List.Forall₂ (fun f n => f.length < n) fs ns := by
  induction ns generalizing p fs m with
  | nil =>
    obtain rfl : fs = [] := List.eq_nil_of_length_eq_zero hlen.symm
    exact iff_of_true rfl .nil
  | cons n ns ih =>
    obtain ⟨f, gs, rfl⟩ := List.exists_cons_of_length_eq_add_one hlen.symm
    have hlen' : ns.length = gs.length := Nat.succ.inj hlen
    have hf := hfs f List.mem_cons_self
    have hn := hns n List.mem_cons_self
    have hns' : ∀ n ∈ ns, 0 < n := fun k hk => hns k (List.mem_cons_of_mem _ hk)
    have hgs' : ∀ g ∈ gs, Scannable nul sep last g := fun g hg => hfs g (List.mem_cons_of_mem _ hg)
    have hfirst := stringAt_sscanf_iff (m := m) (p := p) hlen' hn hns' hf hgs'
    rw [strings, List.map_cons, List.cons_eq_cons, List.forall₂_cons, hfirst]
    apply and_congr_right
    intro hlt
    by_cases hne : ns = []
    · subst hne
      obtain rfl : gs = [] := List.eq_nil_of_length_eq_zero hlen'.symm
      exact iff_of_true rfl .nil
    · have hgs : gs ≠ [] := fun he => hne (List.eq_nil_of_length_eq_zero (by rw [hlen', he]; rfl))
      rw [intercalate_cons hgs, format_cons hne, sscanf_short hf.sep_not_mem hf.ne_nil hlt.le]
      exact ih hlen' hns' hgs'

/-! ## Bounds -/

/-- Only the terminator of the last field can be written behind the structure. -/
theorem reach_sscanf_iff (hlen : ns.length = fs.length) (hns : ∀ n ∈ ns, 0 < n)
    (hfs : ∀ f ∈ fs, Scannable nul sep last f) (hm : m.reach ≤ extent p ns) :
    extent p ns < (sscanf nul (format sep last p ns) ([sep].intercalate fs) m).reach ↔
      Overruns fs ns := by
  induction ns generalizing p fs m with
  | nil =>
    obtain rfl : fs = [] := List.eq_nil_of_length_eq_zero hlen.symm
    exact iff_of_false (Nat.not_lt.mpr hm) id
  | cons n ns ih =>
    obtain ⟨f, gs, rfl⟩ := List.exists_cons_of_length_eq_add_one hlen.symm
    have hlen' : ns.length = gs.length := Nat.succ.inj hlen
    have hf := hfs f List.mem_cons_self
    have hn := hns n List.mem_cons_self
    cases ns with
    | nil =>
      obtain rfl : gs = [] := List.eq_nil_of_length_eq_zero hlen'.symm
      have hend : extent p [n] = p + n := rfl
      rw [List.intercalate_singleton, sscanf_last hf.last_not_mem (take_ne_nil hn hf.ne_nil),
        reach_strcpy, List.length_take, hend]
      rw [hend] at hm
      simp only [Overruns]
      omega
    | cons n' ns =>
      obtain ⟨g, gs, rfl⟩ := List.exists_cons_of_length_eq_add_one hlen'.symm
      have hn' := hns n' (List.mem_cons_of_mem _ List.mem_cons_self)
      have hend : p + n + n' ≤ extent p (n :: n' :: ns) := le_extent
      rw [intercalate_cons (List.cons_ne_nil g gs), format_cons (List.cons_ne_nil n' ns), Overruns]
      rcases Nat.lt_or_ge n f.length with hlong | hshort
      · rw [sscanf_long hf.sep_not_mem hn hlong (Or.inr List.head?_cons), reach_strcpy,
          List.length_take]
        refine iff_of_false (by omega) fun h => ?_
        omega
      · rw [sscanf_short hf.sep_not_mem hf.ne_nil hshort, and_iff_right hshort]
        apply ih hlen' (fun k hk => hns k (List.mem_cons_of_mem _ hk)) fun k hk =>
          hfs k (List.mem_cons_of_mem _ hk)
        rw [reach_strcpy]
        change max m.reach (p + (f.length + 1)) ≤ extent p (n :: n' :: ns)
        omega

theorem sscanf_nothing (h : (input.takeWhile (· ≠ stop)).take n = []) :
    sscanf nul (.chars n stop p :: ds) input m = m := by
  rw [sscanf]
  exact if_pos h

theorem cells_sscanf_head {b : β} (h : (input.takeWhile (· ≠ sep)).take n = b :: f)
    (hns : ns ≠ []) : (sscanf nul (format sep last p (n :: ns)) input m).cells p = b := by
  have hn : 0 < n := by
    by_contra h0
    simp [Nat.eq_zero_of_not_pos h0] at h
  have hcell : (m.strcpy nul p (b :: f)).cells (p + 0) = b := cells_strcpy (Nat.succ_pos _)
  rw [Nat.add_zero] at hcell
  rw [format_cons hns, sscanf, h]
  simp only [reduceCtorEq, if_false, sscanf]
  split_ifs
  · rw [cells_sscanf_of_lt (by omega), hcell]
  · exact hcell

theorem reach_le_sscanf : m.reach ≤ (sscanf nul ds input m).reach := by
  induction ds generalizing input m with
  | nil => exact le_rfl
  | cons dir ds ih =>
    cases dir with
    | chars n stop p =>
      simp only [sscanf]
      split_ifs
      · exact le_rfl
      · exact (reach_strcpy ▸ le_max_left _ _).trans ih
    | literal c =>
      simp only [sscanf]
      split_ifs
      · exact ih
      · exact le_rfl

theorem cells_sscanf_end (hm : m.cells e = nul) (h : (sscanf nul ds input m).reach ≤ e + 1) :
    (sscanf nul ds input m).cells e = nul := by
  induction ds generalizing input m with
  | nil => exact hm
  | cons dir ds ih =>
    cases dir with
    | chars n stop p =>
      simp only [sscanf] at h ⊢
      generalize (input.takeWhile (· ≠ stop)).take n = f at h ⊢
      split_ifs at h ⊢ with hf
      · exact hm
      · have hreach := reach_le_sscanf.trans h
        rw [reach_strcpy] at hreach
        refine ih ?_ h
        rcases Nat.lt_or_ge (p + f.length) e with hlt | hge
        · exact (cells_strcpy_of_gt hlt).trans hm
        · obtain rfl : e = p + f.length := by omega
          exact cells_strcpy_length
    | literal c =>
      simp only [sscanf] at h ⊢
      split_ifs at h ⊢ with hc
      · exact ih hm h
      · exact hm

theorem strlen_zero (h : m.cells p = nul) (hn : 0 < n) : m.strlen nul n p = some 0 :=
  strlen_eq_some_iff.mpr ⟨hn, h, fun i hi => absurd hi (Nat.not_lt_zero i)⟩

theorem exists_strlen (hi : i < n) (h : m.cells (p + i) = nul) :
    ∃ k, m.strlen nul n p = some k := by
  induction n generalizing p i with
  | zero => exact absurd hi (Nat.not_lt_zero _)
  | succ n ih =>
    rw [Region.strlen]
    split_ifs with hp
    · exact ⟨0, rfl⟩
    · cases i with
      | zero => exact absurd h hp
      | succ i =>
        have hshift : m.cells (p + 1 + i) = nul := by
          rw [← h]
          congr 1
          omega
        obtain ⟨k, hk⟩ := ih (Nat.lt_of_succ_lt_succ hi) hshift
        exact ⟨k + 1, by rw [hk]; rfl⟩

/-! ## Copies -/

theorem strings_congr (h : ∀ i < e, m'.cells i = m.cells i) :
    strings nul m' e p ns = strings nul m e p ns := by
  induction ns generalizing p with
  | nil => rfl
  | cons n ns ih =>
    have hlen : m'.strlen nul (e - p) p = m.strlen nul (e - p) p := by
      ext k
      rw [strlen_eq_some_iff, strlen_eq_some_iff]
      refine and_congr_right fun hk => and_congr ?_ (forall₂_congr fun i hi => ?_)
      · rw [h _ (by omega)]
      · rw [h _ (by omega)]
    have hstring : stringAt nul m' p e = stringAt nul m p e := by
      unfold stringAt
      rw [hlen]
      apply Option.map_congr
      intro k hk
      have hlt := (strlen_eq_some_iff.mp hk).1
      apply List.map_congr_left
      intro i hi
      have hi' := List.mem_range.mp hi
      exact h _ (by omega)
    rw [strings, strings, hstring, ih]

end FixedFields
