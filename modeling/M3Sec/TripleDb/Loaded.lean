import M3Sec.TripleDb.Showing

/-! # Loading and showing

The two programs run one after the other: what is shown is determined by the two text files.
Of the lines with the same SKU or with the same vendor's name, the last one counts.
-/

namespace M3Sec.TripleDb

open Fallible Delimiters Memory FixedFields

/-- `main` of the program that loads: the inventory comes first. -/
def loadDatabases (strtod : Str → UInt64) (overrun : Fallible Databases Stop PUnit)
    (databuf my_vendor : ℕ → UInt8) (inventoryFile vendorFile : Option Str) :
    Fallible Databases Stop PUnit := do
  loadInventoryDB strtod overrun databuf inventoryFile
  loadVendorDB overrun my_vendor vendorFile

/-- `main` of the program that reads: without the name of an item, all records are shown. -/
def readDatabases (d : Databases) (before : InventoryData → ℕ → UInt8) (itemName : Str) :
    Option (List Shown) :=
  if itemName = [] then showAllRecords d before else showItem d before itemName

/-- The fields of a vendor's line. They are all empty if the line is. -/
def vendorFields (line : Str) : List Str :=
  if line = [] then List.replicate 8 [] else line.splitOn pound

/-- The line is empty, or its eight fields are shorter than their arrays. -/
def VendorLine (line : Str) : Prop := line ≠ [] → VendorFields (line.splitOn pound) ∧
  List.Forall₂ (fun f n => f.length < n) (line.splitOn pound) vendorSizes

/-- What the lines say behind the name of a vendor. -/
def addressOf (vendorLines : List Str) (vendor : Str) : Option (List Str) :=
  (vendorLines.reverse.find? fun line => (vendorFields line).headD [] = vendor).map
    fun line => (vendorFields line).tail

/-- The item of the last line with a SKU. -/
def itemOf (strtod : Str → UInt64) (inventoryLines : List Str) (sku : Str) : Option InventoryData :=
  (items strtod inventoryLines).reverse.find? (·.sku = sku)

/-- What is printed of a vendor: what the lines say, or else the strings that are in
`my_vendor`. -/
def printedAddress (vendorLines : List Str) (leftover : ℕ → UInt8) (vendor : Str) :
    List (Option Str) :=
  match addressOf vendorLines vendor with
  | some address => address.map some
  | none => (strings 0 (.untouched leftover) sizeofVendor 0 vendorSizes).tail

variable {before leftover my_vendor databuf : ℕ → UInt8} {line vendor inventory vendors : Str}
  {ls : List Str} {d : Databases} {strtod : Str → UInt64} {overrun : Fallible Databases Stop PUnit}

/-! ## Vendors -/

theorem blank_nil : Blank [] := Or.inl rfl

theorem vendorLine_splitOn (line : Str) : vendorLine (line.splitOn pound) = line :=
  List.intercalate_splitOn pound

theorem VendorLine.fits (h : VendorLine line) : VendorFits before line := by
  by_cases hl : line = []
  · subst hl
    rw [VendorFits, scanVendor_of_blank blank_nil, reach_zeroedVendor]
  · obtain ⟨hfields, hshort⟩ := h hl
    have hinside := mt (hfields.reach_scanVendor_iff before).mp (not_overruns hshort)
    rw [vendorLine_splitOn] at hinside
    exact Nat.not_lt.mp hinside

theorem VendorLine.strings_scanVendor (h : VendorLine line) :
    strings 0 (scanVendor before line) sizeofVendor 0 vendorSizes =
      (vendorFields line).map some := by
  rw [vendorFields]
  split_ifs with hl
  · subst hl
    rw [scanVendor_of_blank blank_nil, ← extent_vendorSizes, strings_cleared vendorSizes_pos
      fun i hi => cells_zeroedVendor hi]
    rfl
  · obtain ⟨hfields, hshort⟩ := h hl
    have hlen : vendorSizes.length = (line.splitOn pound).length := hfields.length_eq.symm
    have hstrings := (strings_sscanf_iff (m := zeroedVendor before) (p := 0) hlen vendorSizes_pos
      hfields.scannable).mpr hshort
    rwa [← hfields.scanVendor_eq, vendorLine_splitOn, extent_vendorSizes] at hstrings

theorem VendorLine.strings_record (h : VendorLine line) :
    strings 0 ((Region.untouched leftover).store 0 (vendorRecord before line)) sizeofVendor 0
      vendorSizes = (vendorFields line).map some :=
  (strings_congr fun _ hi => cells_store_read hi).trans h.strings_scanVendor

theorem VendorLine.exists_name (h : VendorLine line) : ∃ name address,
    vendorFields line = name :: address ∧ 0 ∉ name := by
  rw [vendorFields]
  split_ifs with hl
  · exact ⟨[], List.replicate 7 [], rfl, List.not_mem_nil⟩
  · obtain ⟨hfields, -⟩ := h hl
    obtain ⟨name, address, hline⟩ := List.exists_cons_of_length_eq_add_one hfields.length_eq
    refine ⟨name, address, hline, (hfields.scannable name ?_).nul_not_mem⟩
    rw [hline]
    exact List.mem_cons_self

theorem VendorLine.key_eq (h : VendorLine line) :
    vendorKey before line = (vendorFields line).headD [] ++ [0] := by
  obtain ⟨name, address, hline, hnul⟩ := h.exists_name
  have hstrings : strings 0 (scanVendor before line) sizeofVendor 0 vendorSizes = _ :=
    h.strings_scanVendor
  rw [hline, List.map_cons] at hstrings
  have hname : stringAt 0 (scanVendor before line) 0 sizeofVendor = some name :=
    (List.cons.inj hstrings).1
  obtain ⟨k, hk, hread⟩ := Option.map_eq_some_iff.mp hname
  have hlen : vendorNameLength (scanVendor before line) = some k := hk
  have hend : (scanVendor before line).cells (0 + k) = 0 := (strlen_eq_some_iff.mp hk).2.1
  rw [hline, List.headD_cons, vendorKey, hlen, Option.getD_some, Region.read_snoc, hread, hend]

theorem showVendor_foldl (hls : ∀ line ∈ ls, VendorLine line)
    (hnone : d.vendors.get (vendor ++ [0]) = none) (hvendor : 0 ∉ vendor) :
    showVendor (ls.foldl (Databases.putVendor before) d) leftover vendor =
      printedAddress ls leftover vendor := by
  have hfind : ls.reverse.find? (vendorKey before · = vendor ++ [0]) =
      ls.reverse.find? fun line => (vendorFields line).headD [] = vendor := by
    rw [← List.head?_filter, ← List.head?_filter]
    apply congrArg List.head?
    apply List.filter_congr
    intro line hline
    have hkey : vendorKey before line = _ := (hls line (List.mem_reverse.mp hline)).key_eq
    simp only [hkey, List.append_left_inj]
  rw [showVendor, getVendor, cstr_of_nulFree hvendor, vendors_foldl, hnone, Option.or_none, hfind,
    printedAddress, addressOf]
  cases hlast : ls.reverse.find? fun line => (vendorFields line).headD [] = vendor with
  | none => rfl
  | some line =>
    have hline : VendorLine line := hls line (List.mem_reverse.mp (List.mem_of_find?_eq_some hlast))
    simp only [Option.map_some]
    rw [hline.strings_record, List.map_tail]

/-! ## Loading -/

theorem inventory_foldl_putVendor (ls : List Str) (d : Databases) :
    (ls.foldl (Databases.putVendor before) d).inventory = d.inventory := by
  induction ls generalizing d with
  | nil => rfl
  | cons line ls ih => exact ih _

theorem vendors_foldl_putLine (ls : List Str) (d : Databases) :
    (ls.foldl (Databases.putLine strtod) d).vendors = d.vendors := by
  induction ls generalizing d with
  | nil => rfl
  | cons line ls ih =>
    rw [List.foldl_cons, ih, Databases.putLine]
    split_ifs <;> rfl

theorem exec_loadDatabases (hinventory : ∀ line ∈ lines inventory, Fits strtod line)
    (hvendors : ∀ line ∈ lines vendors, VendorFits my_vendor line) :
    exec (loadDatabases strtod overrun databuf my_vendor (some inventory) (some vendors)) d =
      (.ok ⟨⟩, (lines vendors).foldl (Databases.putVendor my_vendor)
        ((lines inventory).foldl (Databases.putLine strtod) d)) := by
  rw [loadDatabases, exec_bind_ok (exec_loadInventoryDB hinventory d), exec_loadVendorDB hvendors]

theorem nul_not_mem_field {i : ℕ} (h : 0 ∉ line) : 0 ∉ field line i := fun hmem =>
  h (mem_of_mem_part hmem)

theorem nulFree_ofLine (h : 0 ∉ line) : (InventoryData.ofLine strtod line).NulFree := by
  rw [ofLine_eq]
  intro s hs
  simp only [List.mem_cons, List.not_mem_nil, or_false] at hs
  rcases hs with rfl | rfl | rfl | rfl <;> exact nul_not_mem_field h

def catalogueOf (strtod : Str → UInt64) (ls : List Str) : Catalogue :=
  ls.foldl (Catalogue.addLine strtod) .empty

theorem item_catalogueOf (ls : List Str) (sku : Str) :
    (catalogueOf strtod ls).item sku = itemOf strtod ls sku := by
  rw [catalogueOf, item_foldl_addLine]
  exact Option.or_none

theorem nulFree_catalogueOf (h : 0 ∉ inventory) :
    (catalogueOf strtod (lines inventory)).NulFree := by
  intro sku item hitem
  rw [item_catalogueOf] at hitem
  have hmem : item ∈ items strtod (lines inventory) :=
    List.mem_reverse.mp (List.mem_of_find?_eq_some hitem)
  obtain ⟨line, hline, rfl⟩ := List.mem_map.mp hmem
  have hline' : line ∈ inventory.splitOn newline := List.mem_of_mem_filter hline
  exact nulFree_ofLine fun hnul => h (mem_of_mem_splitOn hline' hnul)

/-- What the second program shows after the first one has loaded two files: of each SKU the
item of its last line, in the order of the SKUs, if no name is given or it is the item's name.
With it comes what the last line of its vendor says. -/
theorem readDatabases_loaded (strtod : Str → UInt64) (overrun : Fallible Databases Stop PUnit)
    (databuf my_vendor : ℕ → UInt8) (leftover : InventoryData → ℕ → UInt8)
    (inventory vendors itemName : Str) (hnul : 0 ∉ inventory)
    (hinventory : ∀ line ∈ lines inventory, Fits strtod line)
    (hvendors : ∀ line ∈ lines vendors, VendorLine line) :
    ∃ d shown,
      exec (loadDatabases strtod overrun databuf my_vendor (some inventory) (some vendors)) .empty =
        (.ok ⟨⟩, d) ∧
      readDatabases d leftover itemName = some shown ∧
      shown.Pairwise (fun s t => s.item.sku ++ [0] < t.item.sku ++ [0]) ∧
      (∀ item, (∃ s ∈ shown, s.item = item) ↔
        itemOf strtod (lines inventory) item.sku = some item ∧
          (itemName = [] ∨ item.name = itemName)) ∧
      ∀ s ∈ shown,
        s.address = printedAddress (lines vendors) (leftover s.item) s.item.vendor := by
  set loaded := (lines inventory).foldl (Databases.putLine strtod) .empty with hloaded
  set d := (lines vendors).foldl (Databases.putVendor my_vendor) loaded with hd
  set c := catalogueOf strtod (lines inventory) with hc
  have hfits : ∀ line ∈ lines vendors, VendorFits my_vendor line := fun line hline =>
    (hvendors line hline).fits
  have hload : exec (loadDatabases strtod overrun databuf my_vendor (some inventory)
      (some vendors)) .empty =
      (.ok ⟨⟩, d) := exec_loadDatabases hinventory hfits
  have hloadedRep : loaded.Represents c := represents_foldl represents_empty _
  have hrep : d.Represents c := by
    have hinv : d.inventory = loaded.inventory := inventory_foldl_putVendor _ _
    exact ⟨hinv ▸ hloadedRep.consistent, hinv ▸ hloadedRep.records⟩
  have hnulFree : c.NulFree := nulFree_catalogueOf hnul
  have hshows : ∃ shown, readDatabases d leftover itemName = some shown ∧
      Shows d leftover (fun item => c.item item.sku = some item ∧
        (itemName = [] ∨ item.name = itemName)) shown := by
    unfold readDatabases
    split_ifs with hname
    · obtain ⟨shown, hshown, hs⟩ := showAllRecords_shows hrep hnulFree leftover
      refine ⟨shown, hshown, hs.sorted, fun item => ?_, hs.addressed⟩
      rw [hs.mem_iff, and_iff_left (Or.inl hname)]
    · obtain ⟨shown, hshown, hs⟩ := showItem_shows hrep hnulFree leftover itemName
      refine ⟨shown, hshown, hs.sorted, fun item => ?_, hs.addressed⟩
      rw [hs.mem_iff, or_iff_right hname]
  obtain ⟨shown, hshown, hs⟩ := hshows
  refine ⟨d, shown, hload, hshown, hs.sorted, fun item => ?_, fun s hmem => ?_⟩
  · rw [hs.mem_iff, item_catalogueOf]
  · have hitem : c.item s.item.sku = some s.item := ((hs.mem_iff s.item).mp ⟨s, hmem, rfl⟩).1
    have hvendor : 0 ∉ s.item.vendor := hnulFree hitem _ (by simp)
    have hnone : loaded.vendors.get (s.item.vendor ++ [0]) = none := by
      rw [hloaded, vendors_foldl_putLine]
      rfl
    rw [hs.addressed s hmem]
    exact showVendor_foldl hvendors hnone hvendor

/-- One item, `Ox#b#0#1#c#V`, and its vendor, `V#S#C#CA#9#5#R#1` after an empty line. -/
theorem readDatabases_loaded_ox : ∃ d shown,
    exec (loadDatabases (fun _ => 0) (pure ⟨⟩) (fun _ => 7) (fun _ => 7)
      (some [79, 120, 35, 98, 35, 48, 35, 49, 35, 99, 35, 86, 10])
      (some [10, 86, 35, 83, 35, 67, 35, 67, 65, 35, 57, 35, 53, 35, 82, 35, 49])) .empty =
        (.ok ⟨⟩, d) ∧
      readDatabases d (fun _ _ => 7) [79, 120] = some shown ∧
      ∃ s ∈ shown, s.item.sku = [98] ∧ s.address =
        [some [83], some [67], some [67, 65], some [57], some [53], some [82], some [49]] := by
  have hvendors : ∀ line ∈ lines [10, 86, 35, 83, 35, 67, 35, 67, 65, 35, 57, 35, 53, 35, 82, 35, 49],
      VendorLine line := by
    intro line hline hne
    have hlines : lines [10, 86, 35, 83, 35, 67, 35, 67, 65, 35, 57, 35, 53, 35, 82, 35, 49] =
        [[], [86, 35, 83, 35, 67, 35, 67, 65, 35, 57, 35, 53, 35, 82, 35, 49]] := by decide
    rw [hlines, List.mem_cons, List.mem_singleton] at hline
    obtain rfl := hline.resolve_left hne
    have hfields : [86, 35, 83, 35, 67, 35, 67, 65, 35, 57, 35, 53, 35, 82, 35, 49].splitOn pound =
        [[86], [83], [67], [67, 65], [57], [53], [82], [49]] := by decide
    rw [hfields]
    exact ⟨by decide, by simp [vendorSizes]⟩
  obtain ⟨d, shown, hload, hshown, -, hmem, haddress⟩ :=
    readDatabases_loaded (fun _ => 0) (pure ⟨⟩) (fun _ => 7) (fun _ => 7) (fun _ _ => 7)
      [79, 120, 35, 98, 35, 48, 35, 49, 35, 99, 35, 86, 10]
      [10, 86, 35, 83, 35, 67, 35, 67, 65, 35, 57, 35, 53, 35, 82, 35, 49] [79, 120]
      (by decide) (by decide) hvendors
  obtain ⟨s, hs, hitem⟩ := (hmem (InventoryData.ofLine (fun _ => 0)
    [79, 120, 35, 98, 35, 48, 35, 49, 35, 99, 35, 86])).mpr ⟨by decide, by decide⟩
  refine ⟨d, shown, hload, hshown, s, hs, by rw [hitem]; decide, ?_⟩
  rw [haddress s hs, hitem]
  decide

end M3Sec.TripleDb
