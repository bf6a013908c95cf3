import M3Sec.Afsfuse.Split
import M3Sec.Library.Loops

/-! # How a read is put together

The condition of the loop in `xmp_read` stays true: only the end of the data leaves it, after
one round for each piece that comes in and one more. The total is a `long` of 32 bits.
-/

namespace M3Sec.Afsfuse

open Fallible Memory

variable {ρ : Type} {env : Environment ρ} {path : CString} {size offset n : ℕ} {fi : MyFileInfo}
  {call : Call} {length : ℤ} {c : Client ρ} {d : Str}

/-- The pieces to come, and the variables of the loop. -/
structure Assembling where
  chunks : List {bs : Str // bs ≠ [] ∧ bs.length ≤ 1024}
  t : ℕ
  readbytes : Int32
  error : ℤ

/-- `rx_Read` of 1024 bytes: how many came, and the pieces left. -/
def rxReadPiece (call : Call) (v : Assembling) :
    Op ρ (ℤ × List {bs : Str // bs ≠ [] ∧ bs.length ≤ 1024}) :=
  match v.chunks with
  | [] => do
    event (.rxRead call.last.val)
    return (call.last.val, [])
  | bs :: chunks => do
    event (.rxRead bs.val.length)
    store v.t bs.val
    return (bs.val.length, chunks)

def xmpReadRound (call : Call) (length : ℤ) (size : ℕ) (v : Assembling) :
    Op ρ (Round Assembling (Int32 × ℤ)) :=
  if v.error = 0 ∨ UInt32.ofInt length ≠ UInt32.ofNat size then do
    let (nbytes, chunks) ← rxReadPiece call v
    let readbytes := v.readbytes + Int32.ofInt nbytes
    if nbytes ≤ 0 then do
      event .rxError
      return .done (readbytes, if call.error ≠ 0 then 1 else v.error)
    else return .next ⟨chunks, v.t + nbytes.toNat, readbytes, v.error⟩
  else return .done (v.readbytes, v.error)

/-- `xmp_read`, with at most `n` rounds of its loop. -/
def xmpReadRounds (env : Environment ρ) (n : ℕ) (path : CString) (size offset : ℕ)
    (fi : MyFileInfo) : Op ρ (Option ℤ) := do
  let msize := UInt32.ofNat size
  let moffset := UInt32.ofNat offset
  getconnection env
  let call ← start env (.rxcRead path msize moffset fi) none
  try
    gotoIf (call.start ≠ 0)
    let length ← decodeLong call
    match ← loop (xmpReadRound call length size) n ⟨call.chunks, 0, 0, 0⟩ with
    | none => pure none
    | some (readbytes, error) => do
      event (.endCall error)
      relconnection
      pure (some readbytes.toInt)
  catch _ =>
    relconnection
    pure (some 0)

/-! ## The rounds -/

theorem exec_xmpReadRound_nil (t : ℕ) (readbytes : Int32) (s : Client ρ) :
    exec (xmpReadRound call length size ⟨[], t, readbytes, 0⟩) s =
      (.ok (.done (readbytes + Int32.ofInt call.last.val, if call.error ≠ 0 then 1 else 0)),
        { s with trace := s.trace ++ [.rxRead call.last.val, .rxError] }) := by
  have hlast : call.last.val ≤ 0 := call.last.property
  simp [xmpReadRound, rxReadPiece, exec_bind, hlast, -bind_pure_comp]

theorem exec_xmpReadRound_cons (bs : {bs : Str // bs ≠ [] ∧ bs.length ≤ 1024})
    (chunks : List {bs : Str // bs ≠ [] ∧ bs.length ≤ 1024}) (t : ℕ) (readbytes : Int32)
    (s : Client ρ) :
    exec (xmpReadRound call length size ⟨bs :: chunks, t, readbytes, 0⟩) s =
      (.ok (.next ⟨chunks, t + bs.val.length, readbytes + Int32.ofInt bs.val.length, 0⟩), { s with
        trace := s.trace ++ [.rxRead bs.val.length]
        buffer := s.buffer.store t bs.val }) := by
  simp [xmpReadRound, rxReadPiece, exec_bind, bs.property.1, -bind_pure_comp]

theorem exec_loop_xmpReadRound (chunks : List {bs : Str // bs ≠ [] ∧ bs.length ≤ 1024})
    (hn : chunks.length < n) (t : ℕ) (readbytes : ℤ) (s : Client ρ) :
    exec (loop (xmpReadRound call length size) n ⟨chunks, t, Int32.ofInt readbytes, 0⟩) s =
      ((exec (xmpReadLoop call chunks t readbytes) s).1.map fun r => some (Int32.ofInt r.1, r.2),
        (exec (xmpReadLoop call chunks t readbytes) s).2) := by
  induction chunks generalizing n t readbytes s with
  | nil =>
    obtain ⟨n, rfl⟩ := Nat.exists_eq_succ_of_ne_zero hn.ne'
    rw [exec_loop_done (exec_xmpReadRound_nil _ _ _), exec_xmpReadLoop, ← Int32.ofInt_add]
    simp [Except.map]
  | cons bs chunks ih =>
    obtain ⟨n, rfl⟩ := Nat.exists_eq_succ_of_ne_zero (Nat.ne_of_gt (Nat.zero_lt_of_lt hn))
    have hloop : ∀ s : Client ρ, exec (xmpReadLoop call (bs :: chunks) t readbytes) s =
        exec (xmpReadLoop call chunks (t + bs.val.length) (readbytes + bs.val.length)) { s with
          trace := s.trace ++ [.rxRead bs.val.length]
          buffer := s.buffer.store t bs.val } := by
      intro s
      rw [xmpReadLoop, exec_bind_ok (exec_event _), exec_bind_ok (exec_store _ _)]
    rw [exec_loop_next (exec_xmpReadRound_cons _ _ _ _ _), ← Int32.ofInt_add,
      ih (Nat.lt_of_succ_lt_succ hn), hloop]

theorem exec_xmpReadRounds
    (hn : (env.split (.rxcRead path (.ofNat size) (.ofNat offset) fi) none
      c.outside).1.chunks.length < n) :
    exec (xmpReadRounds env n path size offset fi) c =
      ((exec (xmpRead env path size offset fi) c).1.map fun r => some (Int32.ofInt r).toInt,
        (exec (xmpRead env path size offset fi) c).2) := by
  unfold xmpReadRounds xmpRead start
  simp only [exec_bind, exec_getconnection, exec_event, exec_ask, exec_tryCatch, exec_gotoIf]
  generalize env.split (.rxcRead path (.ofNat size) (.ofNat offset) fi) none c.outside = s at hn ⊢
  obtain ⟨call, outside⟩ := s
  by_cases hstart : call.start = 0
  · cases hheader : call.header with
    | none => simp [decodeLong, exec_bind, hstart, hheader, Except.map, -bind_pure_comp]
    | some length =>
      have hloop : ∀ s : Client ρ,
          exec (loop (xmpReadRound call length size) n ⟨call.chunks, 0, 0, 0⟩) s = _ :=
        exec_loop_xmpReadRound call.chunks hn 0 0
      simp [decodeLong, exec_bind, hstart, hheader, hloop, exec_xmpReadLoop, Except.map,
        -bind_pure_comp]
  · simp [hstart, Except.map]

/-! ## The reply -/

/-- The call is started, there is a header, and the data comes in to its end. -/
structure Call.Delivers (call : Call) (d : Str) : Prop where
  start : call.start = 0
  header : call.header.isSome
  bytes : call.bytes = d
  last : call.last.val = 0

theorem readOutcome_of_delivers (h : call.Delivers d) :
    (readOutcome call).ret = d.length ∧ (readOutcome call).data = d := by
  obtain ⟨length, hheader⟩ := Option.isSome_iff_exists.mp h.header
  simp [readOutcome, h.start, hheader, h.bytes, h.last]

theorem length_chunks_le (chunks : List {bs : Str // bs ≠ [] ∧ bs.length ≤ 1024}) :
    chunks.length ≤ (chunks.flatMap Subtype.val).length := by
  induction chunks with
  | nil => exact Nat.le_refl 0
  | cons bs chunks ih =>
    have hpos : 0 < bs.val.length := List.length_pos_iff.mpr bs.property.1
    rw [List.flatMap_cons, List.length_append, List.length_cons]
    omega

/-- The loop ends, and the data is in the buffer however it was cut into pieces, whatever the
header says. -/
theorem xmpRead_assembles (hsize : d.length ≤ size) (hd : d.length < 2 ^ 31)
    (hcall : (env.split (.rxcRead path (.ofNat size) (.ofNat offset) fi) none
      c.outside).1.Delivers d) (hn : d.length < n) :
    ∃ c', exec (xmpReadRounds env n path size offset fi) c = (.ok (some d.length), c') ∧
      c'.buffer.read 0 d.length = d ∧
      (∀ i, d.length ≤ i → c'.buffer.cells i = c.buffer.cells i) ∧
      c'.buffer.reach ≤ max c.buffer.reach size := by
  have hrounds : (env.split (.rxcRead path (.ofNat size) (.ofNat offset) fi) none
      c.outside).1.chunks.length < n := by
    refine lt_of_le_of_lt (length_chunks_le _) ?_
    change (Call.bytes _).length < n
    rwa [hcall.bytes]
  obtain ⟨hret, hdata⟩ := readOutcome_of_delivers hcall
  have hlong : (Int32.ofInt d.length).toInt = d.length :=
    Int32.toInt_ofInt_of_le (by omega) (by omega)
  rw [exec_xmpReadRounds hrounds, performs_xmpRead path size offset fi c, hret, hdata]
  refine ⟨_, by rw [Except.map, hlong], Region.read_store rfl, fun i hi => ?_, ?_⟩
  · simp [Region.store, List.getElem?_eq_none hi]
  · rw [Region.reach_store_zero]
    omega

/-- Three bytes come in two pieces, and the header says a hundred. -/
theorem xmpRead_assembles_two_pieces :
    let call : Call := ⟨0, true, some 100, [⟨[7], by decide⟩, ⟨[8, 9], by decide⟩],
      ⟨0, zero_nonpos⟩, 0, 0, 0, 0⟩
    ∃ c', exec (xmpReadRounds { down with split := fun _ _ _ => (call, ()) } 4
        ⟨str "/", by decide⟩ 4 0 ⟨0, 0, 0⟩) ⟨(), [], .untouched fun _ => 1⟩ = (.ok (some 3), c') ∧
      c'.buffer.read 0 3 = [7, 8, 9] ∧ (∀ i, 3 ≤ i → c'.buffer.cells i = 1) ∧
      c'.buffer.reach ≤ 4 :=
  xmpRead_assembles (d := [7, 8, 9]) (by decide) (by decide) ⟨rfl, rfl, rfl, rfl⟩ (by decide)

end M3Sec.Afsfuse
