import M3Sec.Library.FixedFields
import M3Sec.TripleDb.Loading

/-! # Vendors

A vendor is a structure of eight character arrays, which `sscanf` fills from a line of
`vendors.txt`. The widths in the format are the sizes of the arrays, which leaves no room for
the terminator. Every line is put into the database, the one behind the last newline too.
-/

namespace M3Sec.TripleDb

open Fallible Memory FixedFields

/-- The arrays of `VENDOR`: name, street, city, state, zipcode, phone number, sales
representative and their phone number. -/
def vendorSizes : List ℕ := [20, 20, 20, 3, 6, 13, 20, 20]

def sizeofVendor : ℕ := 122

def vendorFormat : List (Directive UInt8) := [
  .chars 20 pound 0, .literal pound, .chars 20 pound 20, .literal pound,
  .chars 20 pound 40, .literal pound, .chars 3 pound 60, .literal pound,
  .chars 6 pound 63, .literal pound, .chars 13 pound 69, .literal pound,
  .chars 20 pound 82, .literal pound, .chars 20 newline 102]

theorem vendorFormat_eq : vendorFormat = format pound newline 0 vendorSizes := rfl

theorem extent_vendorSizes : extent 0 vendorSizes = sizeofVendor := rfl

def zeroedVendor (before : ℕ → UInt8) : Region UInt8 :=
  (Region.untouched before).store 0 (List.replicate sizeofVendor 0)

def scanVendor (before : ℕ → UInt8) (stringBuf : Str) : Region UInt8 :=
  sscanf 0 vendorFormat (cstr stringBuf) (zeroedVendor before)

def vendorNameLength (my_vendor : Region UInt8) : Option ℕ := my_vendor.strlen 0 sizeofVendor 0

section Load

variable (overrun : Fallible Databases Stop PUnit) (before : ℕ → UInt8)

/-- A round of the loop of `loadVendorDB`. -/
def loadVendor (stringBuf : Str) : Fallible Databases Stop PUnit :=
  let my_vendor := scanVendor before stringBuf
  if sizeofVendor < my_vendor.reach then overrun
  else match vendorNameLength my_vendor with
    | none => overrun
    | some n => modify fun d => { d with
        vendors := d.vendors.put (my_vendor.read 0 (n + 1)) (my_vendor.read 0 sizeofVendor) }

def loadVendorDB (vendorFile : Option Str) : Fallible Databases Stop PUnit :=
  match vendorFile with
  | none => throw .cannotOpen
  | some inFile => (lines inFile).forM (loadVendor overrun before)

end Load

/-- `my_vendor` after `get`, which leaves it as it was if there is no such vendor. -/
def getVendor (d : Databases) (before : ℕ → UInt8) (vendor : Str) : Region UInt8 :=
  match d.vendors.get (cstr vendor ++ [0]) with
  | none => .untouched before
  | some data => (Region.untouched before).store 0 data

/-- The strings that `show_vendor` prints: all but the name. A string that does not end in the
structure is read beyond it. -/
def showVendor (d : Databases) (before : ℕ → UInt8) (vendor : Str) : List (Option Str) :=
  (strings 0 (getVendor d before vendor) sizeofVendor 0 vendorSizes).tail

variable {overrun : Fallible Databases Stop PUnit} {before leftover : ℕ → UInt8}
  {line inFile : Str} {fs : List Str} {d : Databases}

/-- The eight fields of a line. None is empty, and none contains a pound sign, a newline or a
NUL. -/
structure VendorFields (fs : List Str) : Prop where
  length_eq : fs.length = 8
  scannable : ∀ f ∈ fs, Scannable 0 pound newline f

instance decidableVendorFields (fs : List Str) : Decidable (VendorFields fs) :=
  decidable_of_iff (fs.length = 8 ∧ ∀ f ∈ fs, Scannable 0 pound newline f)
    ⟨fun ⟨hlen, hfs⟩ => ⟨hlen, hfs⟩, fun h => ⟨h.length_eq, h.scannable⟩⟩

def vendorLine (fs : List Str) : Str := [pound].intercalate fs

theorem vendorSizes_pos : ∀ n ∈ vendorSizes, 0 < n := by decide

theorem reach_zeroedVendor : (zeroedVendor before).reach = sizeofVendor := by
  rw [zeroedVendor, Region.reach_store_zero, List.length_replicate]
  rfl

theorem VendorFields.nul_not_mem (h : VendorFields fs) : 0 ∉ vendorLine fs :=
  not_mem_intercalate (fun f hf => (h.scannable f hf).nul_not_mem) (by decide)

theorem VendorFields.scanVendor_eq (h : VendorFields fs) : scanVendor before (vendorLine fs) =
    sscanf 0 (format pound newline 0 vendorSizes) ([pound].intercalate fs) (zeroedVendor before) := by
  rw [scanVendor, cstr_of_nulFree h.nul_not_mem]
  rfl

/-- Scanning a vendor writes beyond the structure exactly if the last field has at least 20
characters, and none before it more than its array. -/
theorem VendorFields.reach_scanVendor_iff (h : VendorFields fs) (before : ℕ → UInt8) :
    sizeofVendor < (scanVendor before (vendorLine fs)).reach ↔ Overruns fs vendorSizes := by
  rw [h.scanVendor_eq, ← extent_vendorSizes]
  refine reach_sscanf_iff h.length_eq.symm vendorSizes_pos h.scannable ?_
  exact reach_zeroedVendor.le

/-- A phone number of 20 digits at the end of the line. -/
theorem VendorFields.reach_scanVendor_iff_long : sizeofVendor < (scanVendor (fun _ => 7) (vendorLine
    [[86], [83], [67], [67, 65], [57], [53], [82], List.replicate 20 49])).reach :=
  (VendorFields.reach_scanVendor_iff (by decide) _).mpr (by simp [Overruns, vendorSizes])

def vendorRecord (before : ℕ → UInt8) (line : Str) : Str :=
  (scanVendor before line).read 0 sizeofVendor

theorem cells_store_read {m m' : Region UInt8} {i n : ℕ} (h : i < n) :
    (m'.store 0 (m.read 0 n)).cells i = m.cells i := by
  have hi : i < (m.read 0 n).length := by simpa [Region.read] using h
  have hcell : (m'.store 0 (m.read 0 n)).cells (0 + i) = (m.read 0 n)[i] := Region.cells_store hi
  rw [Nat.zero_add] at hcell
  rw [hcell]
  simp [Region.read]

/-- The record of a vendor gives the eight fields back exactly if each is shorter than its
array. -/
theorem VendorFields.strings_record_iff (h : VendorFields fs) (before leftover : ℕ → UInt8) :
    strings 0 ((Region.untouched leftover).store 0 (vendorRecord before (vendorLine fs)))
      sizeofVendor 0 vendorSizes = fs.map some ↔
        List.Forall₂ (fun f n => f.length < n) fs vendorSizes := by
  have hcopy : strings 0 ((Region.untouched leftover).store 0 (vendorRecord before (vendorLine fs)))
      sizeofVendor 0 vendorSizes =
        strings 0 (scanVendor before (vendorLine fs)) sizeofVendor 0 vendorSizes :=
    strings_congr fun i hi => cells_store_read hi
  rw [hcopy, h.scanVendor_eq, ← extent_vendorSizes]
  exact strings_sscanf_iff h.length_eq.symm vendorSizes_pos h.scannable

theorem VendorFields.strings_record_iff_short : strings 0 ((Region.untouched fun _ => 7).store 0
    (vendorRecord (fun _ => 7) (vendorLine [[86], [83], [67], [67, 65], [57], [53], [82], [49]])))
      sizeofVendor 0 vendorSizes =
        [[86], [83], [67], [67, 65], [57], [53], [82], [49]].map some :=
  (VendorFields.strings_record_iff (by decide) _ _).mpr (by simp [vendorSizes])

/-! ## Loading -/

/-- The scan of the line stays inside the structure. -/
def VendorFits (before : ℕ → UInt8) (line : Str) : Prop :=
  (scanVendor before line).reach ≤ sizeofVendor

instance (line : Str) : Decidable (VendorFits before line) := inferInstanceAs (Decidable (_ ≤ _))

def vendorKey (before : ℕ → UInt8) (line : Str) : Str :=
  (scanVendor before line).read 0 ((vendorNameLength (scanVendor before line)).getD 0 + 1)

theorem cells_zeroedVendor {i : ℕ} (h : i < sizeofVendor) : (zeroedVendor before).cells i = 0 := by
  have hi : i < (List.replicate sizeofVendor (0 : UInt8)).length := by simpa using h
  have hcell : (zeroedVendor before).cells (0 + i) = (List.replicate sizeofVendor 0)[i] :=
    Region.cells_store hi
  rw [Nat.zero_add] at hcell
  rw [hcell, List.getElem_replicate]

theorem VendorFits.exists_length (h : VendorFits before line) :
    ∃ n, vendorNameLength (scanVendor before line) = some n := by
  have hlast : (scanVendor before line).cells 121 = 0 :=
    cells_sscanf_end (cells_zeroedVendor (by decide)) h
  have hlast' : (scanVendor before line).cells (0 + 121) = 0 := by rwa [Nat.zero_add]
  exact exists_strlen (by decide) hlast'

def Databases.putVendor (before : ℕ → UInt8) (d : Databases) (line : Str) : Databases :=
  { d with vendors := d.vendors.put (vendorKey before line) (vendorRecord before line) }

theorem exec_loadVendor (hfits : VendorFits before line) (d : Databases) :
    exec (loadVendor overrun before line) d = (.ok ⟨⟩, d.putVendor before line) := by
  obtain ⟨n, hn⟩ := hfits.exists_length
  have hinside : ¬ sizeofVendor < (scanVendor before line).reach := Nat.not_lt.mpr hfits
  unfold loadVendor Databases.putVendor vendorRecord vendorKey
  simp [hinside, hn]

theorem exec_loadVendorDB (hfits : ∀ line ∈ lines inFile, VendorFits before line) (d : Databases) :
    exec (loadVendorDB overrun before (some inFile)) d =
      (.ok ⟨⟩, (lines inFile).foldl (Databases.putVendor before) d) :=
  exec_forM (fun line hline => exec_loadVendor (hfits line hline)) d

theorem vendors_foldl (ls : List Str) (d : Databases) (k : Str) :
    (ls.foldl (Databases.putVendor before) d).vendors.get k =
      ((ls.reverse.find? (vendorKey before · = k)).map (vendorRecord before)).or
        (d.vendors.get k) := by
  induction ls generalizing d with
  | nil => rfl
  | cons line ls ih =>
    rw [List.foldl_cons, ih, List.reverse_cons, List.find?_append, Option.map_or, Option.or_assoc]
    congr 1
    by_cases hk : vendorKey before line = k
    · simp [Databases.putVendor, hk]
    · have hk' : k ≠ vendorKey before line := Ne.symm hk
      simp [Databases.putVendor, SortedMap.get_put, hk, hk']

/-! ## Blank lines -/

def Blank (line : Str) : Prop := cstr line = [] ∨ (cstr line).head? = some pound

instance (line : Str) : Decidable (Blank line) := inferInstanceAs (Decidable (_ ∨ _))

theorem blank_iff : Blank line ↔ ((cstr line).takeWhile (· ≠ pound)).take 20 = [] := by
  unfold Blank
  cases cstr line with
  | nil => simp
  | cons b s => by_cases hb : b = pound <;> simp [hb]

theorem scanVendor_of_blank (h : Blank line) : scanVendor before line = zeroedVendor before :=
  sscanf_nothing (blank_iff.mp h)

theorem cells_scanVendor_of_not_blank (h : ¬ Blank line) : (scanVendor before line).cells 0 ≠ 0 := by
  obtain ⟨b, f, hbf⟩ := List.exists_cons_of_ne_nil (mt blank_iff.mpr h)
  have hcell : (scanVendor before line).cells 0 = b := by
    rw [scanVendor, vendorFormat_eq]
    exact cells_sscanf_head hbf (by decide)
  have hb : b ∈ cstr line := by
    have hmem : b ∈ ((cstr line).takeWhile (· ≠ pound)).take 20 := hbf ▸ List.mem_cons_self
    exact (List.takeWhile_sublist _).subset (List.mem_of_mem_take hmem)
  rw [hcell]
  exact fun h0 => zero_not_mem_cstr line (h0 ▸ hb)

theorem vendorKey_eq_nul_iff (line : Str) : vendorKey before line = [0] ↔ Blank line := by
  unfold vendorKey
  rw [Region.read_succ]
  constructor
  · intro hkey
    by_contra hblank
    exact cells_scanVendor_of_not_blank hblank (List.cons.inj hkey).1
  · intro hblank
    have hcell : (zeroedVendor before).cells 0 = 0 := cells_zeroedVendor (by decide)
    rw [scanVendor_of_blank hblank, vendorNameLength, strlen_zero hcell (by decide), hcell]
    rfl

theorem vendorRecord_of_blank (h : Blank line) :
    vendorRecord before line = List.replicate sizeofVendor 0 := by
  rw [vendorRecord, scanVendor_of_blank h]
  exact Region.read_store List.length_replicate

/-- If no scan leaves the structure, loading a file of vendors leaves a record without a name
exactly if there was one before or some line is blank, and the record of a blank line is all
zeros. -/
theorem get_unnamed (overrun : Fallible Databases Stop PUnit) (before : ℕ → UInt8) (inFile : Str)
    (d : Databases) (h : ∀ line ∈ lines inFile, VendorFits before line) :
    (exec (loadVendorDB overrun before (some inFile)) d).2.vendors.get [0] =
      if ∃ line ∈ lines inFile, Blank line then some (List.replicate sizeofVendor 0)
      else d.vendors.get [0] := by
  rw [exec_loadVendorDB h, vendors_foldl]
  split_ifs with hblank
  · obtain ⟨line, hline, hb⟩ := hblank
    obtain ⟨last, hlast⟩ : ∃ last,
        (lines inFile).reverse.find? (vendorKey before · = [0]) = some last := by
      rw [← Option.isSome_iff_exists, List.find?_isSome]
      exact ⟨line, List.mem_reverse.mpr hline, decide_eq_true ((vendorKey_eq_nul_iff line).mpr hb)⟩
    have hkey : vendorKey before last = [0] := by simpa using List.find?_some hlast
    rw [hlast, Option.map_some, vendorRecord_of_blank ((vendorKey_eq_nul_iff last).mp hkey)]
    rfl
  · have hnone : (lines inFile).reverse.find? (vendorKey before · = [0]) = none := by
      rw [List.find?_eq_none]
      intro line hline hkey
      exact hblank ⟨line, List.mem_reverse.mp hline,
        (vendorKey_eq_nul_iff line).mp (of_decide_eq_true hkey)⟩
    rw [hnone]
    rfl

/-- `V#S`, and the end of the file behind the newline. -/
theorem get_unnamed_newline :
    (exec (loadVendorDB (pure ⟨⟩) (fun _ => 7) (some [86, 35, 83, 10])) .empty).2.vendors.get [0] =
      some (List.replicate sizeofVendor 0) :=
  (get_unnamed (pure ⟨⟩) (fun _ => 7) [86, 35, 83, 10] .empty (by decide +kernel)).trans
    (if_pos (by decide))

end M3Sec.TripleDb
