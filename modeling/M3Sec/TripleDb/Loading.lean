import M3Sec.Library.SecondaryIndexes
import M3Sec.TripleDb.Inventory

/-! # Loading the inventory

Each line of `inventory.txt` is an item: six fields between pound signs. The items are put
under their SKUs, and Berkeley DB keeps an index by what `get_item_name` extracts from them.
The databases represent a catalogue, in which an item replaces the one with its SKU.
-/

namespace M3Sec.TripleDb

open Fallible Delimiters

/-! ## Lines -/

def newline : UInt8 := 10

def pound : UInt8 := 35

/-- The lines that `while (!inFile.eof()) std::getline(inFile, stringBuf)` goes through. The
last one ends at the end of the file, and is empty if a newline comes before it. -/
def lines (inFile : Str) : List Str := inFile.splitOn newline

structure Pound where
  pos : Option ℕ
  substring : Str
  theString : Str

/-- The next field. If there is no pound sign, `pos` is `npos`, and `npos + 1` is 0: the string
stays as it is. -/
def getNextPound (theString : Str) : Pound :=
  match (cut pound theString).2 with
  | some rest => ⟨some (cut pound theString).1.length, (cut pound theString).1, rest⟩
  | none => ⟨none, theString, theString⟩

def isspace (b : UInt8) : Bool := b = 32 || 9 ≤ b && b ≤ 13

def isdigit (b : UInt8) : Bool := 48 ≤ b && b ≤ 57

/-- `strtol` with base 10: the nearest `long` if the value does not fit. -/
def strtol (s : Str) : Int64 :=
  let s := s.dropWhile isspace
  let digits := if s.head? = some 45 ∨ s.head? = some 43 then s.tail else s
  let n : ℤ := (digits.takeWhile isdigit).foldl (fun n b => 10 * n + (b.toNat - 48)) 0
  Int64.ofInt (max (-9223372036854775808)
    (min 9223372036854775807 (if s.head? = some 45 then -n else n)))

/-- The item of a line. What `strtod` makes of a string is left open. -/
def InventoryData.ofLine (strtod : Str → UInt64) (stringBuf : Str) : InventoryData :=
  let name := getNextPound stringBuf
  let sku := getNextPound name.theString
  let price := getNextPound sku.theString
  let quantity := getNextPound price.theString
  let category := getNextPound quantity.theString
  let vendor := getNextPound category.theString
  { category := category.substring
    name := name.substring
    vendor := vendor.substring
    sku := sku.substring
    price := strtod (cstr price.substring)
    quantity := strtol (cstr quantity.substring) }

/-- The part of a line between two pound signs, or its last part if there are not so many. -/
def field (line : Str) (i : ℕ) : Str := part pound line i

/-! ## The databases -/

instance byteOrder : IsStrictTotalOrder UInt8 (· < ·) where
  trichotomous _ _ h h' := UInt8.le_antisymm (UInt8.not_lt.mp h') (UInt8.not_lt.mp h)
  irrefl _ := UInt8.lt_irrefl _
  trans _ _ _ := UInt8.lt_trans

/-- Keys are compared byte by byte, and a key that goes on is greater. -/
instance keyOrder : IsStrictTotalOrder Str (· < ·) where
  trichotomous _ _ h h' := Std.Trichotomous.trichotomous (r := (· < ·)) _ _ h h'
  irrefl _ := List.lt_irrefl _
  trans _ _ _ := List.lt_trans

abbrev Btree := SortedMap (K := Str) (· < ·) Str

/-- `inventorydb.db` with its index `itemname.sdb`, and `vendordb.db`. -/
structure Databases where
  inventory : IndexedMap (K := Str) (S := Str) (· < ·) (· < ·) Str
  vendors : Btree

def Databases.empty : Databases := ⟨.empty _ _ _, .empty _ _⟩

inductive Stop | cannotOpen
  deriving DecidableEq

section Load

-- what happens after a write beyond a buffer is left open
variable (strtod : Str → UInt64) (overrun : Fallible Databases Stop PUnit) (before : ℕ → UInt8)

/-- A round of the loop of `loadInventoryDB`, with what `databuf_` held before. -/
def loadInventory (stringBuf : Str) : Fallible Databases Stop PUnit := do
  if stringBuf = [] then return
  let inventoryData := InventoryData.ofLine strtod stringBuf
  let b := inventoryData.getBuffer before
  if sizeofDatabuf < b.databuf.reach then overrun
  else modify fun d => { d with
    inventory := d.inventory.put getItemName (inventoryData.sku ++ [0])
      (b.databuf.read 0 b.bufLen) }

def loadInventoryDB (inventoryFile : Option Str) : Fallible Databases Stop PUnit :=
  match inventoryFile with
  | none => throw .cannotOpen
  | some inFile => (lines inFile).forM (loadInventory strtod overrun before)

end Load

variable {strtod : Str → UInt64} {overrun : Fallible Databases Stop PUnit} {before : ℕ → UInt8}
  {line inFile : Str} {d : Databases}

/-! ## Fields -/

theorem getNextPound_eq (s : Str) : (getNextPound s).substring = (next pound s).1 ∧
    (getNextPound s).theString = (next pound s).2 := by
  unfold getNextPound next
  cases hc : (cut pound s).2 with
  | none => exact ⟨(eq_of_cut hc).symm, rfl⟩
  | some rest => exact ⟨rfl, rfl⟩

theorem ofLine_eq (strtod : Str → UInt64) (line : Str) : InventoryData.ofLine strtod line =
    { category := field line 4
      name := field line 0
      vendor := field line 5
      sku := field line 1
      price := strtod (cstr (field line 2))
      quantity := strtol (cstr (field line 3)) } := by
  have hfields : nexts pound 6 line = (List.range 6).map (field line) := nexts_eq
  obtain ⟨hname, hsku, hprice, hquantity, hcategory, hvendor⟩ :
      _ = field line 0 ∧ _ = field line 1 ∧ _ = field line 2 ∧ _ = field line 3 ∧
        _ = field line 4 ∧ _ = field line 5 := by
    simpa [nexts, List.range_succ] using hfields
  simp only [InventoryData.ofLine, getNextPound_eq, hname, hsku, hprice, hquantity, hcategory,
    hvendor]

/-! ## Catalogues -/

/-- What the database is for: at most one item for each SKU. -/
structure Catalogue where
  item : Str → Option InventoryData
  keyed : ∀ {sku d}, item sku = some d → d.sku = sku

namespace Catalogue

def empty : Catalogue := ⟨fun _ => none, nofun⟩

def add (c : Catalogue) (item : InventoryData) : Catalogue where
  item := Function.update c.item item.sku (some item)
  keyed {sku d} h := by
    by_cases hs : sku = item.sku
    · subst hs
      rw [Function.update_self] at h
      exact congrArg InventoryData.sku (Option.some.inj h).symm
    · rw [Function.update_of_ne hs] at h
      exact c.keyed h

def addLine (strtod : Str → UInt64) (c : Catalogue) (line : Str) : Catalogue :=
  if line = [] then c else c.add (.ofLine strtod line)

end Catalogue

def items (strtod : Str → UInt64) (ls : List Str) : List InventoryData :=
  (ls.filter (· ≠ [])).map (InventoryData.ofLine strtod)

theorem item_foldl_addLine (c : Catalogue) (ls : List Str) (sku : Str) :
    (ls.foldl (Catalogue.addLine strtod) c).item sku =
      ((items strtod ls).reverse.find? (·.sku = sku)).or (c.item sku) := by
  induction ls generalizing c with
  | nil => rfl
  | cons line ls ih =>
    rw [List.foldl_cons, ih, Catalogue.addLine]
    by_cases hl : line = []
    · simp [items, hl]
    · by_cases hs : (InventoryData.ofLine strtod line).sku = sku
      · simp [items, hl, hs, Catalogue.add, List.find?_append]
      · have hs' : sku ≠ (InventoryData.ofLine strtod line).sku := Ne.symm hs
        simp [items, hl, hs, hs', Catalogue.add, List.find?_append]

/-- The records are those of the items, and the index is consistent. -/
structure Databases.Represents (d : Databases) (c : Catalogue) : Prop where
  consistent : d.inventory.Consistent getItemName
  records : ∀ k v, (k, v) ∈ d.inventory.primary.records ↔
    ∃ item, c.item item.sku = some item ∧ item.sku ++ [0] = k ∧ item.layout = v

theorem represents_empty : Databases.empty.Represents .empty :=
  ⟨IndexedMap.consistent_empty _, fun k v => by simp [Databases.empty, IndexedMap.empty,
    SortedMap.empty, Catalogue.empty]⟩

/-! ## Loading -/

/-- The buffer has room for the item of the line. -/
def Fits (strtod : Str → UInt64) (line : Str) : Prop :=
  line ≠ [] → (InventoryData.ofLine strtod line).layout.length ≤ sizeofDatabuf

instance (line : Str) : Decidable (Fits strtod line) := inferInstanceAs (Decidable (_ → _))

def Databases.putLine (strtod : Str → UInt64) (d : Databases) (line : Str) : Databases :=
  if line = [] then d
  else { d with
    inventory := d.inventory.put getItemName ((InventoryData.ofLine strtod line).sku ++ [0])
      (InventoryData.ofLine strtod line).layout }

theorem Databases.Represents.putLine {c : Catalogue} (h : d.Represents c) (line : Str) :
    (d.putLine strtod line).Represents (c.addLine strtod line) := by
  unfold Databases.putLine Catalogue.addLine
  split_ifs with hl
  · exact h
  · generalize InventoryData.ofLine strtod line = new
    refine ⟨h.consistent.put, fun k v => ?_⟩
    rw [IndexedMap.primary_put, SortedMap.mem_put, h.records]
    simp only [Catalogue.add, Prod.mk.injEq]
    constructor
    · rintro (⟨rfl, rfl⟩ | ⟨⟨item, hitem, rfl, rfl⟩, hne⟩)
      · exact ⟨new, Function.update_self .., rfl, rfl⟩
      · have hsku : item.sku ≠ new.sku := fun he => hne (by rw [he])
        exact ⟨item, by rwa [Function.update_of_ne hsku], rfl, rfl⟩
    · rintro ⟨item, hitem, rfl, rfl⟩
      by_cases hsku : item.sku = new.sku
      · rw [hsku, Function.update_self] at hitem
        obtain rfl := Option.some.inj hitem
        exact Or.inl ⟨rfl, rfl⟩
      · rw [Function.update_of_ne hsku] at hitem
        exact Or.inr ⟨⟨item, hitem, rfl, rfl⟩, fun he => hsku (List.append_cancel_right he)⟩

theorem exec_loadInventory (hfits : Fits strtod line) (d : Databases) :
    exec (loadInventory strtod overrun before line) d = (.ok ⟨⟩, d.putLine strtod line) := by
  unfold loadInventory Databases.putLine
  by_cases hl : line = []
  · simp [hl]
  · have hlayout := hfits hl
    generalize InventoryData.ofLine strtod line = item at hlayout ⊢
    have hinside : ¬ sizeofDatabuf < (item.getBuffer before).databuf.reach := by
      rw [item.length_layout, sizeofDatabuf] at hlayout
      exact Nat.not_lt.mpr ((item.reach_getBuffer_le_iff before).mpr (by omega))
    simp [hl, hinside, InventoryData.read_getBuffer]

theorem represents_foldl {c : Catalogue} (h : d.Represents c) (ls : List Str) :
    (ls.foldl (Databases.putLine strtod) d).Represents (ls.foldl (Catalogue.addLine strtod) c) := by
  induction ls generalizing d c with
  | nil => exact h
  | cons line ls ih => exact ih (h.putLine line)

theorem exec_loadInventoryDB (hfits : ∀ line ∈ lines inFile, Fits strtod line) (d : Databases) :
    exec (loadInventoryDB strtod overrun before (some inFile)) d =
      (.ok ⟨⟩, (lines inFile).foldl (Databases.putLine strtod) d) :=
  exec_forM (fun line hline => exec_loadInventory (hfits line hline)) d

/-- A file whose lines fit into the buffer is loaded as a whole. The databases then represent the
catalogue with its items, and the index is consistent. -/
theorem loadInventoryDB_represents (strtod : Str → UInt64)
    (overrun : Fallible Databases Stop PUnit) (before : ℕ → UInt8) (inFile : Str)
    (hfits : ∀ line ∈ lines inFile, Fits strtod line) (d : Databases) (c : Catalogue)
    (h : d.Represents c) :
    ∃ d', exec (loadInventoryDB strtod overrun before (some inFile)) d = (.ok ⟨⟩, d') ∧
      d'.Represents ((lines inFile).foldl (Catalogue.addLine strtod) c) :=
  ⟨_, exec_loadInventoryDB hfits d, represents_foldl h _⟩

/-- `Ox#b#0#1#c#V`, and an empty line. -/
theorem loadInventoryDB_represents_ox : ∃ d', exec (loadInventoryDB (fun _ => 0) (pure ⟨⟩)
    (fun _ => 7) (some [79, 120, 35, 98, 35, 48, 35, 49, 35, 99, 35, 86, 10])) .empty =
      (.ok ⟨⟩, d') ∧ d'.Represents ((lines [79, 120, 35, 98, 35, 48, 35, 49, 35, 99, 35, 86,
        10]).foldl (Catalogue.addLine fun _ => 0) .empty) :=
  loadInventoryDB_represents (fun _ => 0) (pure ⟨⟩) (fun _ => 7) _ (by decide) .empty .empty
    represents_empty

end M3Sec.TripleDb
