import M3Sec.Basic
import M3Sec.Library.CStrings
import M3Sec.Library.Delimiters
import M3Sec.Library.LittleEndian

/-! # Inventory records

The class `InventoryData` packs its members into a buffer of 500 bytes: the price and the
quantity as they are in memory, then the four strings, each with its NUL. Nothing compares
what is packed with the size of the buffer. A constructor unpacks a record, and
`get_item_name` looks for the item's name where it was packed.
-/

namespace M3Sec.TripleDb

open Memory Delimiters

/-- The members of `InventoryData`. A `double` is its 64 bits: nothing is computed with it. -/
structure InventoryData where
  category : Str
  name : Str
  vendor : Str
  sku : Str
  price : UInt64
  quantity : Int64
  deriving DecidableEq

structure Buffer where
  databuf : Region UInt8
  bufLen : ℕ

def sizeofDatabuf : ℕ := 500

def wordBytes (x : UInt64) : Str := LittleEndian.bytes 8 x.toNat

def wordAt (buffer : Str) (p : ℕ) : UInt64 :=
  UInt64.ofNat (LittleEndian.value ((buffer.drop p).take 8))

/-- The terminator is copied too. -/
def packString (b : Buffer) (theString : Str) : Buffer where
  databuf := b.databuf.store b.bufLen (theString ++ [0])
  bufLen := b.bufLen + (theString.length + 1)

namespace InventoryData

def getBuffer (d : InventoryData) (before : ℕ → UInt8) : Buffer :=
  let databuf := (Region.untouched before).store 0 (List.replicate sizeofDatabuf 0)
  let b : Buffer := ⟨databuf.store 0 (wordBytes d.price), 8⟩
  let b : Buffer := ⟨b.databuf.store b.bufLen (wordBytes d.quantity.toUInt64), b.bufLen + 8⟩
  packString (packString (packString (packString b d.name) d.sku) d.category) d.vendor

/-- The bytes that are handed to the database. What they are after a write beyond `databuf_` is
left open. -/
def record (d : InventoryData) (before : ℕ → UInt8) (overrun : Str) : Str :=
  let b := d.getBuffer before
  if sizeofDatabuf < b.databuf.reach then overrun else b.databuf.read 0 b.bufLen

/-- The constructor from a buffer. A string that is not terminated is read beyond the record:
then there is no result. -/
def ofBuffer (buffer : Str) : Option InventoryData :=
  if buffer.length < 16 then none
  else match unpack 0 4 (buffer.drop 16) with
    | some ([name, sku, category, vendor], _) => some {
        category := category
        name := name
        vendor := vendor
        sku := sku
        price := wordAt buffer 0
        quantity := (wordAt buffer 8).toInt64 }
    | _ => none

def layout (d : InventoryData) : Str :=
  wordBytes d.price ++ wordBytes d.quantity.toUInt64 ++
    pack 0 [d.name, d.sku, d.category, d.vendor]

end InventoryData

/-- `get_item_name`: the secondary key of a record, unless the record is too short. A name
that is not terminated is taken up to the end of the record. -/
def getItemName (pdata : Str) : Option Str :=
  let offset := 16
  if offset > pdata.length then none
  else some (cstr (pdata.drop offset) ++ [0])

variable {x : UInt64} {b : Buffer} {s p r : Str} {d : InventoryData} {before : ℕ → UInt8}
  {m : Region UInt8}

@[simp] theorem length_wordBytes : (wordBytes x).length = 8 := LittleEndian.length_bytes

theorem wordAt_wordBytes : wordAt (p ++ (wordBytes x ++ r)) p.length = x := by
  have hx : x.toNat < 256 ^ 8 := x.toNat_lt
  have htake : (wordBytes x ++ r).take 8 = wordBytes x := List.take_left' length_wordBytes
  unfold wordAt
  rw [List.drop_left, htake, wordBytes, LittleEndian.value_bytes hx, UInt64.ofNat_toNat]

namespace InventoryData

/-! ## Packing -/

theorem length_layout : d.layout.length =
    20 + (d.name.length + d.sku.length + d.category.length + d.vendor.length) := by
  simp only [layout, pack, List.flatMap_cons, List.flatMap_nil, List.length_append,
    length_wordBytes, List.length_singleton, List.length_nil]
  omega

theorem packString_store (h : b = ⟨m.store 0 p, p.length⟩) :
    packString b s = ⟨m.store 0 (p ++ (s ++ [0])), (p ++ (s ++ [0])).length⟩ := by
  subst h
  have hstore : (m.store 0 p).store (0 + p.length) (s ++ [0]) = m.store 0 (p ++ (s ++ [0])) :=
    Region.store_append
  rw [Nat.zero_add] at hstore
  simp [packString, hstore]

theorem getBuffer_eq : d.getBuffer before =
    ⟨((Region.untouched before).store 0 (List.replicate sizeofDatabuf 0)).store 0 d.layout,
      d.layout.length⟩ := by
  set m := (Region.untouched before).store 0 (List.replicate sizeofDatabuf 0)
  have hwords : (⟨(m.store 0 (wordBytes d.price)).store 8 (wordBytes d.quantity.toUInt64), 8 + 8⟩ :
      Buffer) = ⟨m.store 0 (wordBytes d.price ++ wordBytes d.quantity.toUInt64),
        (wordBytes d.price ++ wordBytes d.quantity.toUInt64).length⟩ := by
    have hstore : (m.store 0 (wordBytes d.price)).store (0 + (wordBytes d.price).length)
        (wordBytes d.quantity.toUInt64) = _ := Region.store_append
    rw [length_wordBytes] at hstore
    simp [hstore]
  have hpacked := packString_store (packString_store (packString_store (packString_store hwords
    (s := d.name)) (s := d.sku)) (s := d.category)) (s := d.vendor)
  refine hpacked.trans ?_
  simp [layout, pack]

/-- Packing stays inside `databuf_` exactly if the four strings have at most 480 bytes. -/
theorem reach_getBuffer_le_iff (d : InventoryData) (before : ℕ → UInt8) :
    (d.getBuffer before).databuf.reach ≤ sizeofDatabuf ↔
      d.name.length + d.sku.length + d.category.length + d.vendor.length ≤ 480 := by
  rw [getBuffer_eq, Region.reach_store_zero, Region.reach_store_zero, List.length_replicate,
    length_layout]
  simp only [Region.untouched, sizeofDatabuf]
  omega

theorem read_getBuffer : (d.getBuffer before).databuf.read 0 (d.getBuffer before).bufLen =
    d.layout := by
  rw [getBuffer_eq]
  exact Region.read_store rfl

theorem record_eq (h : d.name.length + d.sku.length + d.category.length + d.vendor.length ≤ 480)
    (before : ℕ → UInt8) (overrun : Str) : d.record before overrun = d.layout := by
  have hinside : ¬ sizeofDatabuf < (d.getBuffer before).databuf.reach :=
    Nat.not_lt.mpr ((d.reach_getBuffer_le_iff before).mpr h)
  rw [record, if_neg hinside, read_getBuffer]

/-! ## Unpacking -/

def NulFree (d : InventoryData) : Prop := ∀ s ∈ [d.name, d.sku, d.category, d.vendor], 0 ∉ s

theorem drop_layout : (d.layout ++ r).drop 16 =
    pack 0 [d.name, d.sku, d.category, d.vendor] ++ r := by
  rw [layout, List.append_assoc]
  exact List.drop_left' (by simp)

theorem ofBuffer_layout (h : d.NulFree) : ofBuffer (d.layout ++ r) = some d := by
  have hlong : ¬ (d.layout ++ r).length < 16 := by
    rw [List.length_append, length_layout]
    omega
  have hunpack : unpack 0 4 ((d.layout ++ r).drop 16) =
      some ([d.name, d.sku, d.category, d.vendor], r) := by
    rw [drop_layout]
    exact unpack_pack h
  have hprice : wordAt (d.layout ++ r) 0 = d.price := by
    unfold layout
    simp only [List.append_assoc]
    exact wordAt_wordBytes (p := [])
  have hquantity : wordAt (d.layout ++ r) 8 = d.quantity.toUInt64 := by
    unfold layout
    simp only [List.append_assoc]
    exact length_wordBytes (x := d.price) ▸ wordAt_wordBytes
  rw [ofBuffer, if_neg hlong, hunpack, hprice, hquantity]
  rfl

theorem nulFree_of_ofBuffer {buffer : Str} (h : ofBuffer buffer = some d) : d.NulFree := by
  unfold ofBuffer at h
  split_ifs at h
  split at h
  · rename_i name sku category vendor r hr
    obtain rfl := Option.some.inj h
    exact not_mem_of_unpack hr
  · cases h

/-- If the strings fit into the buffer, the record gives the item back exactly if none of them
contains a NUL, whatever follows the record in memory. -/
theorem ofBuffer_record_iff (d : InventoryData)
    (h : d.name.length + d.sku.length + d.category.length + d.vendor.length ≤ 480)
    (before : ℕ → UInt8) (overrun r : Str) :
    ofBuffer (d.record before overrun ++ r) = some d ↔ d.NulFree := by
  rw [record_eq h]
  exact ⟨nulFree_of_ofBuffer, ofBuffer_layout⟩

/-- An `Ox` of the vendor `V`, with a byte behind its record. -/
theorem ofBuffer_record_iff_ox :
    ofBuffer ((⟨[99], [79, 120], [86], [98], 0, 1⟩ : InventoryData).record (fun _ => 7) [] ++ [7]) =
      some ⟨[99], [79, 120], [86], [98], 0, 1⟩ :=
  (ofBuffer_record_iff _ (by decide) _ _ _).mpr (by simp [NulFree])

end InventoryData

/-! ## The secondary key -/

theorem cstr_append_nul : cstr (s ++ 0 :: r) = cstr s := by
  unfold cstr
  induction s with
  | nil => simp
  | cons b s ih =>
    by_cases hb : b = 0
    · simp [hb]
    · rw [List.cons_append, List.takeWhile_cons_of_pos (by simpa using hb),
        List.takeWhile_cons_of_pos (by simpa using hb), ih]

theorem getItemName_layout : getItemName d.layout = some (cstr d.name ++ [0]) := by
  have hlong : ¬ 16 > d.layout.length := by
    rw [InventoryData.length_layout]
    omega
  have hdrop : d.layout.drop 16 = d.name ++ 0 :: pack 0 [d.sku, d.category, d.vendor] := by
    have hname := InventoryData.drop_layout (d := d) (r := [])
    rwa [List.append_nil, pack_cons, List.append_nil] at hname
  rw [getItemName, if_neg hlong, hdrop, cstr_append_nul]

end M3Sec.TripleDb
