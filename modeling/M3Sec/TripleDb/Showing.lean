import M3Sec.TripleDb.Vendors

/-! # Showing the inventory

`show_item` looks an item name up in the index, and `show_all_records` goes through the
inventory; both show the address of the vendor with each item. What they show after a load is
determined by the two text files.
-/

namespace M3Sec.TripleDb

open Fallible Memory FixedFields

structure Shown where
  item : InventoryData
  address : List (Option Str)

section Show

variable (d : Databases) (before : InventoryData → ℕ → UInt8)

/-- Print the item of a record, with what `my_vendor` holds before its vendor is looked up. -/
def showRecord (data : Str) : Option Shown :=
  (InventoryData.ofBuffer data).map fun item => ⟨item, showVendor d (before item) item.vendor⟩

/-- The cursor is set to the name, and walks over its duplicates. -/
def showItem (itemName : Str) : Option (List Shown) :=
  (d.inventory.select (itemName ++ [0])).mapM (showRecord d before)

def showAllRecords : Option (List Shown) :=
  (d.inventory.primary.records.map Prod.snd).mapM (showRecord d before)

end Show

variable {d : Databases} {c : Catalogue} {before : InventoryData → ℕ → UInt8} {name line : Str}
  {l : List (Str × Str)} {strtod : Str → UInt64}

def InventoryData.entry (item : InventoryData) : Str × Str := (item.sku ++ [0], item.layout)

def Catalogue.NulFree (c : Catalogue) : Prop := ∀ {sku item}, c.item sku = some item → item.NulFree

theorem mapM_showRecord {items : List InventoryData} (hitems : ∀ item ∈ items, item.NulFree) :
    ((items.map InventoryData.entry).map Prod.snd).mapM (showRecord d before) =
      some (items.map fun item => ⟨item, showVendor d (before item) item.vendor⟩) := by
  induction items with
  | nil => rfl
  | cons item items ih =>
    have hread : InventoryData.ofBuffer item.layout = some item := by
      have := InventoryData.ofBuffer_layout (r := []) (hitems item List.mem_cons_self)
      rwa [List.append_nil] at this
    rw [List.map_cons, List.map_cons, List.mapM_cons,
      ih fun i hi => hitems i (List.mem_cons_of_mem _ hi)]
    simp [InventoryData.entry, showRecord, hread]

theorem exists_items {P : InventoryData → Prop} (hl : ∀ r ∈ l, ∃ item, P item ∧ item.entry = r) :
    ∃ items : List InventoryData, items.map InventoryData.entry = l ∧ ∀ item ∈ items, P item := by
  induction l with
  | nil => exact ⟨[], rfl, fun item hitem => absurd hitem List.not_mem_nil⟩
  | cons r l ih =>
    obtain ⟨item, hitem, rfl⟩ := hl r List.mem_cons_self
    obtain ⟨items, rfl, hitems⟩ := ih fun r hr => hl r (List.mem_cons_of_mem _ hr)
    refine ⟨item :: items, rfl, fun i hi => ?_⟩
    rcases List.mem_cons.mp hi with rfl | hi
    · exact hitem
    · exact hitems i hi

/-- What is shown: the items with a property in the order of their SKUs, each with what
`show_vendor` finds. -/
structure Shows (d : Databases) (before : InventoryData → ℕ → UInt8) (p : InventoryData → Prop)
    (shown : List Shown) : Prop where
  sorted : shown.Pairwise fun s t => s.item.sku ++ [0] < t.item.sku ++ [0]
  mem_iff : ∀ item, (∃ s ∈ shown, s.item = item) ↔ p item
  addressed : ∀ s ∈ shown, s.address = showVendor d (before s.item) s.item.vendor

theorem shows_of_records (h : d.Represents c) (hn : c.NulFree) {p : InventoryData → Prop}
    (hl : l.Sublist d.inventory.primary.records)
    (hp : ∀ item, c.item item.sku = some item →
      (item.entry ∈ l ↔ item.entry ∈ d.inventory.primary.records ∧ p item)) :
    ∃ shown, (l.map Prod.snd).mapM (showRecord d before) = some shown ∧
      Shows d before (fun item => c.item item.sku = some item ∧ p item) shown := by
  have hcatalogue : ∀ r ∈ l, ∃ item, c.item item.sku = some item ∧ item.entry = r := by
    rintro ⟨k, v⟩ hr
    obtain ⟨item, hitem, hk, hv⟩ := (h.records k v).mp (hl.subset hr)
    exact ⟨item, hitem, Prod.ext hk hv⟩
  obtain ⟨items, rfl, hitems⟩ := exists_items hcatalogue
  refine ⟨_, mapM_showRecord fun item hitem => hn (hitems item hitem), ?_, fun item => ?_, ?_⟩
  · rw [List.pairwise_map]
    have hsorted := d.inventory.primary.sorted.sublist hl
    rwa [List.pairwise_map] at hsorted
  · constructor
    · rintro ⟨s, hs, rfl⟩
      obtain ⟨item, hitem, rfl⟩ := List.mem_map.mp hs
      exact ⟨hitems item hitem, ((hp item (hitems item hitem)).mp (List.mem_map_of_mem hitem)).2⟩
    · rintro ⟨hitem, hpi⟩
      have hrecord : item.entry ∈ d.inventory.primary.records :=
        (h.records _ _).mpr ⟨item, hitem, rfl, rfl⟩
      obtain ⟨item', hitem', hentry⟩ := List.mem_map.mp ((hp item hitem).mpr ⟨hrecord, hpi⟩)
      have hsku : item'.sku = item.sku := List.append_cancel_right (Prod.ext_iff.mp hentry).1
      have heq : item' = item := by
        have hfound := hitems item' hitem'
        rw [hsku, hitem] at hfound
        exact (Option.some.inj hfound).symm
      subst heq
      exact ⟨_, List.mem_map_of_mem hitem', rfl⟩
  · intro s hs
    obtain ⟨item, -, rfl⟩ := List.mem_map.mp hs
    rfl

theorem showItem_shows (h : d.Represents c) (hn : c.NulFree) (before : InventoryData → ℕ → UInt8)
    (name : Str) : ∃ shown, showItem d before name = some shown ∧
      Shows d before (fun item => c.item item.sku = some item ∧ item.name = name) shown := by
  rw [showItem, IndexedMap.select_eq_scan h.consistent]
  refine shows_of_records h hn List.filter_sublist fun item hitem => ?_
  have hname : getItemName item.entry.2 = some (item.name ++ [0]) := by
    rw [InventoryData.entry, getItemName_layout, cstr_of_nulFree (hn hitem _ List.mem_cons_self)]
  rw [IndexedMap.scan, List.mem_filter, hname, decide_eq_true_eq, Option.some.injEq,
    List.append_left_inj]

theorem showAllRecords_shows (h : d.Represents c) (hn : c.NulFree)
    (before : InventoryData → ℕ → UInt8) : ∃ shown, showAllRecords d before = some shown ∧
      Shows d before (fun item => c.item item.sku = some item) shown := by
  have hall : ∀ item, c.item item.sku = some item → (item.entry ∈ d.inventory.primary.records ↔
      item.entry ∈ d.inventory.primary.records ∧ True) := fun _ _ => (iff_of_eq (and_true _)).symm
  obtain ⟨shown, hshown, hshows⟩ := shows_of_records h hn (List.Sublist.refl _) hall
  exact ⟨shown, hshown, hshows.sorted, fun item => by simpa using hshows.mem_iff item,
    hshows.addressed⟩

end M3Sec.TripleDb
