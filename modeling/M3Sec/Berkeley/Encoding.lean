import M3Sec.Berkeley.Commands

/-! # How strings are stored

A `Dbt` is made from the data of a string and a number of bytes: `size()` for a key and
`size() + 1` for a value, which takes the terminating NUL along. All of them are read as C
strings, and only a stored NUL keeps this inside the record.
-/

namespace M3Sec.Berkeley

variable {d : Dbt} {s : Str} {t : CString}

/-- `Dbt(data, size)`, where `size` is a `u_int32_t`. -/
structure Dbt where
  data : Str
  size : UInt32

def Dbt.stored (d : Dbt) : Str := d.data.take d.size.toNat

inductive Field | key | value
  deriving DecidableEq, Repr

def Field.size : Field → ℕ → ℕ
  | key, size => size
  | value, size => size + 1

/-- The `Dbt` of `insertDbData` and of `testfs` for a string, whose data end with a NUL. -/
def Field.dbt (field : Field) (s : CString) : Dbt :=
  ⟨s.val ++ [0], .ofNat (field.size s.val.length)⟩

/-- Read a C string: the bytes before the NUL, and the number of bytes that were looked at. -/
def readCString : Str → Str × ℕ
  | [] => ([], 0)
  | b :: memory =>
    if b = 0 then ([], 1)
    else
      let (s, read) := readCString memory
      (b :: s, read + 1)

/-- Read back from a record, the string is the one that was stored, and no byte behind the
record is looked at, whatever is there. -/
def RoundTrips (d : Dbt) (s : Str) : Prop :=
  ∀ behind, (readCString (d.stored ++ behind)).1 = s ∧
    (readCString (d.stored ++ behind)).2 ≤ d.stored.length

theorem readCString_terminated (h : 0 ∉ s) (behind : Str) :
    readCString (s ++ 0 :: behind) = (s, s.length + 1) := by
  induction s with
  | nil => rfl
  | cons b s ih =>
    obtain ⟨hb, hs⟩ : b ≠ 0 ∧ 0 ∉ s := by simpa [eq_comm] using h
    rw [List.cons_append, readCString, if_neg hb, ih hs]
    rfl

/-- Without a NUL in the record the reader goes on behind it. -/
theorem not_roundTrips_of_nulFree (h : 0 ∉ d.stored) : ¬ RoundTrips d s := by
  intro hread
  have hle := (hread [0]).2
  rw [readCString_terminated h] at hle
  omega

theorem roundTrips_of_stored (h : d.stored = t.val ++ [0]) : RoundTrips d t.val := by
  intro behind
  have hread : readCString (d.stored ++ behind) = (t.val, t.val.length + 1) := by
    rw [h, List.append_assoc]
    exact readCString_terminated t.property behind
  rw [hread, h]
  simp

theorem stored_dbt (field : Field) (s : CString) :
    (field = .value ∧ s.val.length + 1 < 2 ^ 32 ∧ (field.dbt s).stored = s.val ++ [0]) ∨
      (¬(field = .value ∧ s.val.length + 1 < 2 ^ 32) ∧ 0 ∉ (field.dbt s).stored) := by
  have hsize : (field.dbt s).size.toNat = field.size s.val.length % 2 ^ 32 := UInt32.toNat_ofNat'
  by_cases h : field = .value ∧ s.val.length + 1 < 2 ^ 32
  · obtain ⟨rfl, hlt⟩ := h
    refine Or.inl ⟨rfl, hlt, ?_⟩
    have hall : (s.val ++ [0]).length ≤ (Field.value.dbt s).size.toNat := by
      rw [hsize, Field.size, Nat.mod_eq_of_lt hlt]
      simp
    exact List.take_of_length_le hall
  · refine Or.inr ⟨h, ?_⟩
    have hcut : (field.dbt s).size.toNat ≤ s.val.length := by
      rw [hsize]
      cases field with
      | key => exact Nat.mod_le _ _
      | value =>
        simp only [true_and, not_lt] at h
        have := Nat.mod_lt (s.val.length + 1) (Nat.two_pow_pos 32)
        simp only [Field.size]
        omega
    unfold Dbt.stored Field.dbt at *
    rw [List.take_append_of_le_length hcut]
    exact fun hmem => s.property (List.mem_of_mem_take hmem)

/-- Values are read back as they were stored, and keys are not. -/
theorem roundTrips_dbt_iff (field : Field) (s : CString) :
    RoundTrips (field.dbt s) s.val ↔ field = .value ∧ s.val.length + 1 < 2 ^ 32 := by
  rcases stored_dbt field s with ⟨hvalue, hlt, hstored⟩ | ⟨hnot, hnul⟩
  · exact iff_of_true (roundTrips_of_stored hstored) ⟨hvalue, hlt⟩
  · exact iff_of_false (not_roundTrips_of_nulFree hnul) hnot

/-- The key of the subjects. -/
theorem subject_not_roundTrips :
    ¬ ∀ (field : Field) (s : CString), RoundTrips (field.dbt s) s.val := by
  intro h
  have hkey : 0 ∉ (Field.key.dbt ⟨str "subject", by decide⟩).stored := by decide
  exact not_roundTrips_of_nulFree hkey (h .key _)

end M3Sec.Berkeley
