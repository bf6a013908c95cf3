import M3Sec.Basic
import M3Sec.Library.Memory

/-! # The files of `test_fs`

Two files have constant contents. The third one gets a new content with every read, of a
random length below the size that is reported for it, so no read delivers all of it.
-/

namespace M3Sec.TestFs

open Fallible Memory

/-- The results of the calls of `rand` to come, what is in the memory around a content, the
buffer of the caller, and the indices at which contents were read or written. -/
structure Process where
  random : ℕ → ℕ
  around : ℕ → UInt8
  buf : Region UInt8
  touched : List ℕ

abbrev Reading (α : Type) := Fallible Process Empty α

def file1 : CString := ⟨str "/file1", by decide⟩
def file1Content : CString := ⟨str "Hello World!\n", by decide⟩
def file2 : CString := ⟨str "/file2", by decide⟩
def file2Content : CString := ⟨str "Hello Hell!\n", by decide⟩
def file3 : CString := ⟨str "/file3", by decide⟩
def slink1 : CString := ⟨str "/link1", by decide⟩
def dir1 : CString := ⟨str "/dir1", by decide⟩
def file3Size : ℕ := 20
def alphabet : ℕ := 26

def enoent : ℤ := 2

/-! ## Attributes -/

inductive FileType | none | dir | reg | lnk
  deriving DecidableEq, Repr

structure Stat where
  type : FileType
  permissions : ℕ
  nlink : ℕ
  size : ℕ
  deriving DecidableEq

def Stat.zero : Stat := ⟨.none, 0, 0, 0⟩

/-- `test_getattr`: what it returns, and `stbuf`. -/
def testGetattr (path : CString) : ℤ × Stat :=
  if path.val = str "/" then (0, ⟨.dir, 0o755, 2, 0⟩)
  else if path = dir1 then (0, ⟨.dir, 0o755, 1, 0⟩)
  else if path = file1 then (0, ⟨.reg, 0o775, 1, file1Content.val.length⟩)
  else if path = file2 then (0, ⟨.reg, 0o444, 1, file2Content.val.length⟩)
  else if path = file3 then (0, ⟨.reg, 0o444, 1, file3Size⟩)
  else if path = slink1 then (0, ⟨.lnk, 0o755, 1, 0⟩)
  else (-enoent, .zero)

/-! ## Reads -/

def rand : Reading ℕ := do
  let s ← get
  modify fun s => { s with random := fun i => s.random (i + 1) }
  return s.random 0

def touch (indices : List ℕ) : Reading Unit :=
  modify fun s => { s with touched := s.touched ++ indices }

def Process.bytes (s : Process) (content : Str) (indices : List ℕ) : Str :=
  indices.map fun i => content.getD i (s.around i)

def memcpy (content : Str) (offset count : UInt64) : Reading Unit := do
  let indices := (List.range count.toNat).map (offset.toNat + ·)
  touch indices
  modify fun s => { s with buf := s.buf.store 0 (s.bytes content indices) }

/-- The size that is left once it is bounded by the length: `offset + size` may wrap. -/
def clip (size offset len : UInt64) : UInt64 :=
  if len < offset + size then len - offset else size

/-- The branches of `file1` and `file2`. -/
def readConstant (content : CString) (size offset : UInt64) : Reading UInt64 := do
  let len := UInt64.ofNat content.val.length
  if offset < len then
    let size := clip size offset len
    memcpy (content.val ++ [0]) offset size
    return size
  else return 0

/-- The branch of `file3`. -/
def readRandom (size offset : UInt64) : Reading UInt64 := do
  let file3Len := (← rand) % file3Size
  let len := UInt64.ofNat file3Len
  let randString ← (List.range file3Len).mapM fun i => do
    let randChar := (← rand) % alphabet
    touch [i]
    return UInt8.ofNat (randChar + 65)
  -- behind the content if the length is 0
  touch [(len - 1).toNat]
  let randString := randString.set (len - 1).toNat 10
  if offset < len then
    let size := clip size offset len
    memcpy randString offset len
    return size
  else return 0

/-- `test_read`. An `off_t` is compared and added as a `size_t`, and the size is returned as an
`int`. -/
def testRead (path : CString) (size : UInt64) (offset : Int64) : Reading ℤ := do
  if path ≠ file1 ∧ path ≠ file2 ∧ path ≠ file3 then
    return -enoent
  let size ← (if path = file1 then readConstant file1Content size offset.toUInt64
    else if path = file2 then readConstant file2Content size offset.toUInt64
    else if path = file3 then readRandom size offset.toUInt64
    else pure size)
  return size.toUInt32.toInt32.toInt

/-! ## Constant contents -/

variable {path content : CString} {size offset n : ℕ} {sizes : List ℕ} {s t : Process}

theorem bytes_inside {content : Str} (rest : Str) (h : offset + size ≤ content.length) :
    s.bytes (content ++ rest) ((List.range size).map (offset + ·)) =
      (content.drop offset).take size := by
  ext i : 1
  unfold Process.bytes
  rw [List.map_map, List.getElem?_map]
  by_cases hi : i < size
  · have hlt : offset + i < content.length := by omega
    simp [hi, List.getElem?_append_left hlt, List.getElem?_eq_getElem hlt]
  · rw [List.getElem?_take, if_neg hi]
    simp [hi]

theorem toNat_ofNat (h : n < 2 ^ 31) : (UInt64.ofNat n).toNat = n := by
  rw [UInt64.toNat_ofNat']
  omega

theorem toInt_size {size : UInt64} (h : size.toNat < 2 ^ 31) :
    size.toUInt32.toInt32.toInt = size.toNat := by
  have hsize : size.toUInt32.toNat = size.toNat := by
    rw [UInt64.toNat_toUInt32]
    omega
  rw [toInt_toInt32 (hsize ▸ h), hsize]

def Process.copied (s : Process) (content : Str) (offset count : ℕ) : Process := { s with
  touched := s.touched ++ (List.range count).map (offset + ·)
  buf := s.buf.store 0 (s.bytes content ((List.range count).map (offset + ·))) }

@[simp] theorem exec_memcpy (content : Str) (offset count : UInt64) :
    exec (memcpy content offset count) s =
      (.ok (), s.copied content offset.toNat count.toNat) := rfl

theorem toNat_clip {size offset len : UInt64} (h : offset.toNat < len.toNat)
    (hsum : offset.toNat + size.toNat < 2 ^ 64) :
    (clip size offset len).toNat = min size.toNat (len.toNat - offset.toNat) := by
  have hadd : (offset + size).toNat = offset.toNat + size.toNat := by
    rw [UInt64.toNat_add]
    omega
  unfold clip
  split_ifs with hlt
  · rw [UInt64.lt_iff_toNat_lt, hadd] at hlt
    rw [UInt64.toNat_sub_of_le _ _ (UInt64.le_iff_toNat_le.mpr h.le)]
    omega
  · rw [UInt64.lt_iff_toNat_lt, hadd] at hlt
    omega

theorem exec_readConstant {content : CString} (size offset : UInt64)
    (hlen : content.val.length < 2 ^ 31) : exec (readConstant content size offset) s =
      if offset.toNat < content.val.length then
        (.ok (clip size offset (.ofNat content.val.length)), s.copied (content.val ++ [0])
          offset.toNat (clip size offset (.ofNat content.val.length)).toNat)
      else (.ok 0, s) := by
  unfold readConstant
  simp only [UInt64.lt_iff_toNat_lt, toNat_ofNat hlen]
  split_ifs
  · rw [exec_bind_ok (exec_memcpy _ _ _)]
    rfl
  · rfl

theorem exec_testRead {x : Reading UInt64} {r : UInt64} {t : Process} (hx : exec x s = (.ok r, t))
    (hr : r.toNat < 2 ^ 31) : exec (do
      let size ← x
      return size.toUInt32.toInt32.toInt) s = (.ok (r.toNat : ℤ), t) := by
  rw [exec_bind_ok hx, toInt_size hr]
  rfl

/-! ## Files in pieces -/

/-- A read: what it returns and so many bytes of the buffer, and the process afterwards. -/
def call (path : CString) (size offset : ℕ) (s : Process) : (ℤ × Str) × Process :=
  match exec (testRead path (.ofNat size) (.ofNat offset)) s with
  | (.ok r, t) => ((r, t.buf.read 0 r.toNat), t)
  | (.error e, _) => e.elim

def pieces (path : CString) : ℕ → List ℕ → Process → List (ℤ × Str)
  | _, [], _ => []
  | offset, size :: sizes, s =>
    (call path size offset s).1 :: pieces path (offset + size) sizes (call path size offset s).2

/-- The pieces have the sizes that were asked for, and together they are what one read, made in
any state of the process, delivers. -/
structure ReadsWhole (path : CString) (sizes : List ℕ) (s t : Process) : Prop where
  full : (pieces path 0 sizes s).map Prod.fst = sizes.map fun n : ℕ => (n : ℤ)
  same : ((pieces path 0 sizes s).map Prod.snd).flatten = (call path sizes.sum 0 t).1.2

/-- However the size reported for a regular file is cut, the pieces are read. -/
def BehavesAsFile (path : CString) (s t : Process) : Prop :=
  (testGetattr path).2.type = .reg → ∀ sizes : List ℕ, (∀ n ∈ sizes, 0 < n) →
    sizes.sum = (testGetattr path).2.size → ReadsWhole path sizes s t

inductive Constant : CString → CString → Prop
  | file1 : Constant file1 file1Content
  | file2 : Constant file2 file2Content

theorem Constant.length_lt (hc : Constant path content) : content.val.length < 2 ^ 31 := by
  cases hc <;> decide

theorem Constant.testRead (hc : Constant path content) (size : UInt64) (offset : Int64) :
    testRead path size offset = (do
      let size ← readConstant content size offset.toUInt64
      return size.toUInt32.toInt32.toInt) := by
  cases hc <;> rfl

theorem call_of_exec {r : ℤ}
    (h : exec (testRead path (.ofNat size) (.ofNat offset)) s = (.ok r, t)) :
    call path size offset s = ((r, t.buf.read 0 r.toNat), t) := by
  unfold call
  rw [h]

theorem call_constant (hc : Constant path content) (h : offset + size ≤ content.val.length)
    (hpos : 0 < size) : (call path size offset s).1 =
      ((size : ℤ), (content.val.drop offset).take size) := by
  have hlen := hc.length_lt
  have hsize : (UInt64.ofNat size).toNat = size := toNat_ofNat (by omega)
  have hoffset : (UInt64.ofNat offset).toNat = offset := toNat_ofNat (by omega)
  have hclip : (clip (.ofNat size) (.ofNat offset) (.ofNat content.val.length)).toNat = size := by
    rw [toNat_clip, hsize, hoffset, toNat_ofNat hlen]
    · omega
    · rw [hoffset, toNat_ofNat hlen]
      omega
    · rw [hoffset, hsize]
      omega
  have hexec := exec_readConstant (s := s) (.ofNat size) (.ofNat offset) hlen
  rw [hoffset, if_pos (by omega), hclip] at hexec
  have hread : exec (testRead path (.ofNat size) (.ofNat offset)) s =
      (.ok (size : ℤ), s.copied (content.val ++ [0]) offset size) := by
    rw [hc.testRead, Int64.toUInt64_ofNat', exec_testRead hexec (by omega), hclip]
  have hcount : ((content.val.drop offset).take size).length = size := by
    rw [List.length_take, List.length_drop]
    omega
  rw [call_of_exec hread, Int.toNat_natCast]
  simp only [Process.copied, bytes_inside [0] h, Region.read_store hcount]

theorem pieces_constant (hc : Constant path content) (hpos : ∀ n ∈ sizes, 0 < n) (offset : ℕ)
    (s : Process) (h : offset + sizes.sum ≤ content.val.length) :
    (pieces path offset sizes s).map Prod.fst = sizes.map (fun n : ℕ => (n : ℤ)) ∧
      ((pieces path offset sizes s).map Prod.snd).flatten =
        (content.val.drop offset).take sizes.sum := by
  induction sizes generalizing offset s with
  | nil => exact ⟨rfl, rfl⟩
  | cons size sizes ih =>
    rw [List.sum_cons] at h ⊢
    have hcall := call_constant (s := s) hc (show offset + size ≤ content.val.length by omega)
      (hpos size (List.mem_cons_self ..))
    obtain ⟨hfull, hsame⟩ := ih (fun n hn => hpos n (List.mem_cons_of_mem _ hn)) (offset + size)
      (call path size offset s).2 (by omega)
    constructor
    · rw [pieces, List.map_cons, List.map_cons, hfull, hcall]
    · rw [pieces, List.map_cons, List.flatten_cons, hsame, hcall, List.take_add, List.drop_drop]

theorem readsWhole_constant (hc : Constant path content) (hpos : ∀ n ∈ sizes, 0 < n)
    (hsum : sizes.sum = content.val.length) (hlen : 0 < content.val.length) (s t : Process) :
    ReadsWhole path sizes s t := by
  obtain ⟨hfull, hsame⟩ := pieces_constant hc hpos 0 s (by omega)
  refine ⟨hfull, ?_⟩
  rw [hsame, call_constant hc (by omega) (by omega)]

/-! ## The random content -/

theorem length_lt (r : ℕ) : r % file3Size < file3Size := Nat.mod_lt _ (by decide)

theorem toNat_length (r : ℕ) : (UInt64.ofNat (r % file3Size)).toNat = r % file3Size :=
  toNat_ofNat ((length_lt r).trans (by decide))

def letters (random : ℕ → ℕ) (n : ℕ) : Str :=
  (List.range n).map fun i => UInt8.ofNat (random i % alphabet + 65)

theorem exec_rand : exec rand s =
    (.ok (s.random 0), { s with random := fun i => s.random (i + 1) }) := rfl

theorem exec_touch (indices : List ℕ) : exec (touch indices) s =
    (.ok (), { s with touched := s.touched ++ indices }) := rfl

theorem exec_letters (l : List ℕ) (s : Process) : exec (l.mapM fun i => do
      let randChar := (← rand) % alphabet
      touch [i]
      return UInt8.ofNat (randChar + 65)) s = (.ok (letters s.random l.length), { s with
        random := fun i => s.random (i + l.length)
        touched := s.touched ++ l }) := by
  induction l generalizing s with
  | nil => simp [letters]
  | cons i l ih =>
    simp only [List.mapM_cons, exec_bind, exec_rand, exec_touch, exec_pure, ih]
    have hletters : UInt8.ofNat (s.random 0 % alphabet + 65) ::
        letters (fun i => s.random (i + 1)) l.length = letters s.random (l.length + 1) := by
      simp [letters, List.range_succ_eq_map, Function.comp_def]
    rw [hletters]
    simp [Nat.add_assoc]

def Process.filled (s : Process) : Process :=
  let file3Len := s.random 0 % file3Size
  { s with
    random := fun i => s.random (i + file3Len + 1)
    touched := s.touched ++ List.range file3Len ++ [(UInt64.ofNat file3Len - 1).toNat] }

theorem exec_readRandom (size offset : UInt64) (s : Process) : exec (readRandom size offset) s =
    if offset.toNat < s.random 0 % file3Size then
      (.ok (clip size offset (.ofNat (s.random 0 % file3Size))), s.filled.copied
        ((letters (fun i => s.random (i + 1)) (s.random 0 % file3Size)).set
          (UInt64.ofNat (s.random 0 % file3Size) - 1).toNat 10)
        offset.toNat (s.random 0 % file3Size))
    else (.ok 0, s.filled) := by
  unfold readRandom
  simp only [exec_bind, exec_rand, exec_letters, exec_touch, UInt64.lt_iff_toNat_lt, toNat_length,
    List.length_range]
  split_ifs
  · rw [exec_bind_ok (exec_memcpy _ _ _), toNat_length]
    rfl
  · rfl

theorem call_file3_ne (s : Process) : (call file3 file3Size 0 s).1.1 ≠ file3Size := by
  have hlt := length_lt (s.random 0)
  have hlen := toNat_length (s.random 0)
  obtain ⟨r, t, ht, hr⟩ : ∃ r t, exec (readRandom (.ofNat file3Size) (.ofNat 0)) s = (.ok r, t) ∧
      r.toNat < file3Size := by
    rw [exec_readRandom]
    split_ifs with hpos
    · refine ⟨_, _, rfl, ?_⟩
      rw [toNat_clip (by rwa [hlen]) (by decide), hlen]
      omega
    · exact ⟨_, _, rfl, by decide⟩
  have hread : exec (testRead file3 (.ofNat file3Size) (.ofNat 0)) s = (.ok (r.toNat : ℤ), t) :=
    exec_testRead ht (hr.trans (by decide))
  rw [call_of_exec hread]
  exact fun he => hr.ne (Int.ofNat.inj he)

/-! ## Which files are files -/

theorem constant_of_regular (hreg : (testGetattr path).2.type = .reg) (hne : path ≠ file3) :
    ∃ content, Constant path content ∧ (testGetattr path).2.size = content.val.length := by
  unfold testGetattr at hreg ⊢
  split_ifs at hreg ⊢ with hroot hdir h1 h2
  · exact ⟨_, h1 ▸ .file1, rfl⟩
  · exact ⟨_, h2 ▸ .file2, rfl⟩
  · cases hreg

/-- Whatever `rand` returns, a file can be read in pieces exactly if it is not the third. -/
theorem behavesAsFile_iff (path : CString) (s t : Process) :
    BehavesAsFile path s t ↔ path ≠ file3 := by
  constructor
  · rintro h rfl
    have hfull := (h rfl [file3Size] (by decide) rfl).full
    exact call_file3_ne s (List.cons.inj hfull).1
  · rintro hne hreg sizes hpos hsum
    obtain ⟨content, hc, hsize⟩ := constant_of_regular hreg hne
    have hlen : 0 < content.val.length := by
      cases hc <;> decide
    exact readsWhole_constant hc hpos (hsum.trans hsize) hlen s t

/-- The results of `rand` are all 19. -/
theorem file3_not_behavesAsFile : ¬ ∀ (path : CString) (s t : Process), BehavesAsFile path s t := by
  intro h
  have hfull := (h file3 ⟨fun _ => 19, fun _ => 0, .untouched fun _ => 0, []⟩
    ⟨fun _ => 19, fun _ => 0, .untouched fun _ => 0, []⟩ rfl [file3Size] (by decide) rfl).full
  exact absurd hfull (by decide)

end M3Sec.TestFs
