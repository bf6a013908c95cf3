import M3Sec.TestFs.Reading

/-! # Where a read goes

A read of a constant content keeps to its bounds unless the sum of offset and size wraps. The
branch of `file3` copies as many bytes as the content is long, whatever the size and the
offset are, and writes a newline in front of a content without a length.
-/

namespace M3Sec.TestFs

open Fallible Memory

variable {path : CString} {content : Str} {size offset count : ℕ} {random : ℕ → ℕ} {s : Process}

def Process.fresh (random : ℕ → ℕ) (around cells : ℕ → UInt8) : Process :=
  ⟨random, around, .untouched cells, []⟩

def served (path : CString) (random : ℕ → ℕ) : Str :=
  if path = file1 then file1Content.val
  else if path = file2 then file2Content.val
  else
    let file3Len := random 0 % file3Size
    (letters (fun i => random (i + 1)) file3Len).set (file3Len - 1) 10

def available (content : Str) (size offset : ℕ) : ℕ := min size (content.length - offset)

/-- A read delivers what there is, and neither leaves the content nor writes behind that. -/
structure StaysInside (content : Str) (size offset : ℕ) (r : Except Empty ℤ × Process) : Prop where
  ret : r.1 = .ok (available content size offset : ℤ)
  reach : r.2.buf.reach ≤ available content size offset
  bytes : r.2.buf.read 0 (available content size offset) =
    (content.drop offset).take (available content size offset)
  touched : ∀ i ∈ r.2.touched, i < content.length

/-- The sum of offset and size matters where there is something to read, and the size is not
looked at by the copy of `file3`. -/
def Fits (path : CString) (len size offset : ℕ) : Prop :=
  if path = file3 then 0 < len ∧ (len ≤ offset ∨ offset = 0 ∧ len ≤ size)
  else len ≤ offset ∨ offset + size < 2 ^ 64

instance (path : CString) (len size offset : ℕ) : Decidable (Fits path len size offset) :=
  inferInstanceAs (Decidable (if path = file3 then _ else _))

/-! ## Copies -/

theorem mem_touched_copied {i : ℕ} : i ∈ (s.copied content offset count).touched ↔
    i ∈ s.touched ∨ offset ≤ i ∧ i < offset + count := by
  simp only [Process.copied, List.mem_append, List.mem_map, List.mem_range]
  refine or_congr_right ⟨?_, fun h => ⟨i - offset, by omega, by omega⟩⟩
  rintro ⟨j, hj, rfl⟩
  omega

theorem reach_copied (content : Str) (h : s.buf.reach = 0) :
    (s.copied content offset count).buf.reach = count := by
  simp [Process.copied, Process.bytes, Region.reach_store_zero, h]

theorem staysInside_copied (rest : Str) (hle : offset ≤ content.length)
    (hcount : count = available content size offset) (hreach : s.buf.reach = 0)
    (htouched : ∀ i ∈ s.touched, i < content.length) :
    StaysInside content size offset (.ok count, s.copied (content ++ rest) offset count) := by
  have hinside : offset + count ≤ content.length := by
    rw [hcount, available]
    omega
  have hlen : ((content.drop offset).take count).length = count := by
    rw [List.length_take, List.length_drop]
    omega
  subst hcount
  refine ⟨rfl, ?_, ?_, fun i hi => ?_⟩
  · exact (reach_copied _ hreach).le
  · simp only [Process.copied, bytes_inside rest hinside, Region.read_store hlen]
  · rcases mem_touched_copied.mp hi with hi | hi
    · exact htouched i hi
    · omega

theorem staysInside_end (hle : content.length ≤ offset) (hreach : s.buf.reach = 0)
    (htouched : ∀ i ∈ s.touched, i < content.length) :
    StaysInside content size offset (.ok 0, s) := by
  have hcount : available content size offset = 0 := by
    rw [available]
    omega
  refine ⟨?_, ?_, ?_, htouched⟩
  · rw [hcount]
    rfl
  · rw [hreach, hcount]
  · rw [hcount]
    rfl

theorem StaysInside.end_le {r : Except Empty ℤ} {rest : Str} (hlt : offset < content.length)
    (h : StaysInside content size offset (r, s.copied rest offset count)) :
    offset + count ≤ content.length := by
  by_contra hn
  have hlast := h.touched (offset + count - 1)
    (mem_touched_copied.mpr (Or.inr ⟨by omega, by omega⟩))
  omega

/-! ## Constant contents -/

theorem clip_of_wraps {size offset len : UInt64} (h : offset.toNat < len.toNat)
    (hsum : 2 ^ 64 ≤ offset.toNat + size.toNat) : clip size offset len = size := by
  have hsize := size.toNat_lt
  have hadd : (offset + size).toNat < offset.toNat := by
    rw [UInt64.toNat_add]
    omega
  unfold clip
  rw [if_neg]
  rw [UInt64.lt_iff_toNat_lt]
  omega

theorem staysInside_constant_iff {content : CString} (hc : Constant path content) (size : UInt64)
    (offset : Int64) (hoffset : 0 ≤ offset) (around cells : ℕ → UInt8) :
    StaysInside content.val size.toNat offset.toNatClampNeg
        (exec (testRead path size offset) (.fresh random around cells)) ↔
      content.val.length ≤ offset.toNatClampNeg ∨ offset.toNatClampNeg + size.toNat < 2 ^ 64 := by
  have hlen := hc.length_lt
  have hexec := exec_readConstant (s := .fresh random around cells) size offset.toUInt64 hlen
  rw [hc.testRead]
  rw [← Int64.toNat_toUInt64_of_le hoffset]
  rcases Nat.lt_or_ge offset.toUInt64.toNat content.val.length with hlt | hge
  · rw [if_pos hlt] at hexec
    have hlt' : offset.toUInt64.toNat < (UInt64.ofNat content.val.length).toNat := by
      rwa [toNat_ofNat hlen]
    constructor
    · intro h
      refine Or.inr (Nat.lt_of_not_le fun hwraps => ?_)
      rw [exec_bind_ok hexec, clip_of_wraps hlt' hwraps] at h
      have hend := StaysInside.end_le hlt h
      omega
    · intro h
      have hclip := toNat_clip hlt' (h.resolve_left (Nat.not_le.mpr hlt))
      rw [toNat_ofNat hlen] at hclip
      rw [exec_testRead hexec (by omega)]
      exact staysInside_copied [0] hlt.le hclip rfl (by simp [Process.fresh])
  · rw [if_neg (Nat.not_lt.mpr hge)] at hexec
    refine iff_of_true ?_ (Or.inl hge)
    rw [exec_testRead hexec (by decide)]
    exact staysInside_end hge rfl (by simp [Process.fresh])

/-! ## The random content -/

theorem length_letters (n : ℕ) : (letters random n).length = n := by
  simp [letters]

variable (random) in
theorem length_served_file3 : (served file3 random).length = random 0 % file3Size := by
  change (List.set (letters _ _) _ _).length = _
  rw [List.length_set, length_letters]

theorem toNat_last (h : 0 < count) (hlen : count < 2 ^ 31) :
    (UInt64.ofNat count - 1).toNat = count - 1 := by
  have hle : 1 ≤ UInt64.ofNat count := by
    rw [UInt64.le_iff_toNat_le, toNat_ofNat hlen]
    exact h
  rw [UInt64.toNat_sub_of_le _ _ hle, toNat_ofNat hlen]
  rfl

variable (random) in
theorem length_served_file3_lt : (served file3 random).length < 2 ^ 31 := by
  rw [length_served_file3]
  exact (length_lt _).trans (by decide)

/-- A newline is written in front of the content if there is no length. -/
theorem touched_filled_lt_iff (random : ℕ → ℕ) (around cells : ℕ → UInt8) :
    (∀ i ∈ (Process.fresh random around cells).filled.touched, i < (served file3 random).length) ↔
      0 < (served file3 random).length := by
  have hlen := length_served_file3_lt random
  simp only [Process.filled, Process.fresh, List.nil_append, List.mem_append, List.mem_range,
    List.mem_singleton, ← length_served_file3]
  constructor
  · intro h
    exact Nat.zero_lt_of_lt (h _ (Or.inr rfl))
  · rintro hpos i (hi | rfl)
    · exact hi
    · rw [toNat_last hpos hlen]
      omega

theorem exec_readRandom_fresh (random : ℕ → ℕ) (around cells : ℕ → UInt8)
    (size offset : UInt64) :
    exec (readRandom size offset) (.fresh random around cells) =
      if offset.toNat < (served file3 random).length then
        (.ok (clip size offset (.ofNat (served file3 random).length)),
          (Process.fresh random around cells).filled.copied (served file3 random) offset.toNat
            (served file3 random).length)
      else (.ok 0, (Process.fresh random around cells).filled) := by
  have hlen := length_served_file3_lt random
  have hrandom : (Process.fresh random around cells).random = random := rfl
  rw [exec_readRandom, hrandom, ← length_served_file3]
  split_ifs with hlt
  · have hcontent : (letters (fun i => random (i + 1)) (served file3 random).length).set
        (UInt64.ofNat (served file3 random).length - 1).toNat 10 = served file3 random := by
      rw [toNat_last (Nat.zero_lt_of_lt hlt) hlen, length_served_file3]
      rfl
    rw [hcontent]
  · rfl

theorem staysInside_file3_iff (size : UInt64) (offset : Int64) (hoffset : 0 ≤ offset)
    (around cells : ℕ → UInt8) :
    StaysInside (served file3 random) size.toNat offset.toNatClampNeg
        (exec (testRead file3 size offset) (.fresh random around cells)) ↔
      0 < (served file3 random).length ∧
        ((served file3 random).length ≤ offset.toNatClampNeg ∨
          offset.toNatClampNeg = 0 ∧ (served file3 random).length ≤ size.toNat) := by
  have hlen := length_served_file3_lt random
  have hexec := exec_readRandom_fresh random around cells size offset.toUInt64
  have htouched := touched_filled_lt_iff random around cells
  change StaysInside _ _ _ (exec (do
    let size ← readRandom size offset.toUInt64
    return size.toUInt32.toInt32.toInt) _) ↔ _
  rw [← Int64.toNat_toUInt64_of_le hoffset]
  generalize served file3 random = content at hlen hexec htouched ⊢
  rcases Nat.lt_or_ge offset.toUInt64.toNat content.length with hlt | hge
  · rw [if_pos hlt] at hexec
    constructor
    · intro h
      rw [exec_bind_ok hexec, exec_pure] at h
      have hzero : offset.toUInt64.toNat = 0 := by
        have hend := StaysInside.end_le hlt h
        omega
      have hreach : content.length ≤ _ := (reach_copied content rfl).ge.trans h.reach
      rw [available] at hreach
      exact ⟨Nat.zero_lt_of_lt hlt, Or.inr ⟨hzero, by omega⟩⟩
    · rintro ⟨hpos, h⟩
      obtain ⟨hzero, hsize⟩ := h.resolve_left (Nat.not_le.mpr hlt)
      have hsum : offset.toUInt64.toNat + size.toNat < 2 ^ 64 := by
        have hsize := size.toNat_lt
        omega
      have hclip := toNat_clip (by rwa [toNat_ofNat hlen]) hsum
      rw [toNat_ofNat hlen] at hclip
      have hall : (clip size offset.toUInt64 (.ofNat content.length)).toNat = content.length := by
        omega
      rw [exec_testRead hexec (by omega), hall]
      have hcount : content.length = available content size.toNat offset.toUInt64.toNat := by
        rw [available]
        omega
      have hcopied := staysInside_copied [] hlt.le hcount rfl (htouched.mpr hpos)
      rwa [List.append_nil] at hcopied
  · rw [if_neg (Nat.not_lt.mpr hge)] at hexec
    rw [exec_testRead hexec (by decide)]
    constructor
    · intro h
      exact ⟨htouched.mp h.touched, Or.inl hge⟩
    · rintro ⟨hpos, -⟩
      exact staysInside_end hge rfl (htouched.mpr hpos)

/-- Whatever `rand` returns. -/
theorem testRead_staysInside_iff (hpath : path = file1 ∨ path = file2 ∨ path = file3)
    (size : UInt64) (offset : Int64) (hoffset : 0 ≤ offset) (random : ℕ → ℕ)
    (around cells : ℕ → UInt8) :
    StaysInside (served path random) size.toNat offset.toNatClampNeg
        (exec (testRead path size offset) (.fresh random around cells)) ↔
      Fits path (served path random).length size.toNat offset.toNatClampNeg := by
  unfold Fits
  rcases hpath with rfl | rfl | rfl
  · exact staysInside_constant_iff .file1 size offset hoffset around cells
  · exact staysInside_constant_iff .file2 size offset hoffset around cells
  · exact staysInside_file3_iff size offset hoffset around cells

/-- Five letters, all of them asked for. -/
theorem testRead_staysInside_five : StaysInside (served file3 fun _ => 5) 10 0
    (exec (testRead file3 10 0) (.fresh (fun _ => 5) (fun _ => 0) fun _ => 0)) :=
  (testRead_staysInside_iff (.inr (.inr rfl)) 10 0 (by decide) _ _ _).mpr (by decide)

/-- Five letters, and a single byte is asked for. -/
theorem file3_not_staysInside : ¬ ∀ (path : CString) (size : UInt64) (offset : Int64)
    (random : ℕ → ℕ) (around cells : ℕ → UInt8), path = file1 ∨ path = file2 ∨ path = file3 →
    0 ≤ offset → StaysInside (served path random) size.toNat offset.toNatClampNeg
      (exec (testRead path size offset) (.fresh random around cells)) := by
  intro h
  have hreach := (h file3 1 0 (fun _ => 5) (fun _ => 0) (fun _ => 0) (.inr (.inr rfl))
    (by decide)).reach
  exact absurd hreach (by decide)

end M3Sec.TestFs
