import M3Sec.Basic
import M3Sec.Library.Loops

/-! # Bulk transfers

`bulk_SendFile` copies a file into a call, and `bulk_ReceiveFile` copies what comes out of the
call into a file. The header does not tell how much that is: the loops end where nothing is
left, and only `ferror` and `rx_Error` tell this from a failure. The sender learns nothing
from the receiver, so what comes out is what was sent, whenever it is read.
-/

namespace M3Sec.Afsfuse

open Fallible

/-- How a read or a write turns out, and how many bytes it handles. -/
structure Attempt where
  fails : Bool
  items : ℕ

/-- One end of the call: what is left to read, if an error of reading is reported, what was
written, and how the reads and the writes to come turn out. -/
structure Side where
  rest : Str
  reported : Bool
  reads : ℕ → Attempt
  written : Str
  writes : ℕ → Attempt

abbrev Copying (α : Type) := Fallible Side Empty α

variable {P : Prop} {d : Str} {error : ℤ} {n : ℕ} {s t : Side}

/-! ## Reads and writes -/

/-- `fread` at the sender and `rx_Read` at the receiver: without an error they return nothing
only at the end. -/
def readPiece (count : ℕ) : Copying Str := do
  let s ← get
  let attempt := s.reads 0
  let items := min (if attempt.fails then attempt.items else max attempt.items 1) count
  modify fun s => { s with
    rest := s.rest.drop items
    reported := s.reported || attempt.fails
    reads := fun i => s.reads (i + 1) }
  return s.rest.take items

/-- `ferror` and `rx_Error`. -/
def errorReported : Copying Bool := do
  let s ← get
  return s.reported

/-- `rx_Write` at the sender and `fwrite` at the receiver: one that fails may have written some
of the bytes. -/
def writePiece (bs : Str) : Copying ℕ := do
  let s ← get
  let attempt := s.writes 0
  let items := if attempt.fails then min attempt.items bs.length else bs.length
  modify fun s => { s with
    written := s.written ++ bs.take items
    writes := fun i => s.writes (i + 1) }
  return items

def longBytes (length : UInt32) : Str :=
  [(length >>> 24).toUInt8, (length >>> 16).toUInt8, (length >>> 8).toUInt8, length.toUInt8]

/-- `xdr_long`, encoding. -/
def putLong (length : UInt32) : Copying Bool := do
  let items ← writePiece (longBytes length)
  return items = (longBytes length).length

/-- `xdr_long`, decoding: all of the bytes have to come. Nothing depends on the length. -/
def getLong : Copying Bool := do
  let s ← get
  let attempt := s.reads 0
  modify fun s => { s with
    rest := s.rest.drop 4
    reported := s.reported || attempt.fails
    reads := fun i => s.reads (i + 1) }
  return !attempt.fails && 4 ≤ s.rest.length

structure Side.Calm (s : Side) : Prop where
  reported : s.reported = false
  reads : ∀ i, (s.reads i).fails = false
  writes : ∀ i, (s.writes i).fails = false

/-- What a read does. Nothing is left out, and what comes back empty is the end, or an error that
is reported. -/
structure Side.Reads (s : Side) (bs : Str) (t : Side) : Prop where
  rest : bs ++ t.rest = s.rest
  written : t.written = s.written
  ended : bs = [] → t.reported = true ∨ t.rest = []
  calm : s.Calm → t.Calm

structure Side.Writes (s : Side) (bs : Str) (items : ℕ) (t : Side) : Prop where
  written : t.written = s.written ++ bs.take items
  rest : t.rest = s.rest
  calm : s.Calm → items = bs.length ∧ t.Calm

theorem exec_readPiece {count : ℕ} (hcount : 0 < count) (s : Side) :
    ∃ bs t, exec (readPiece count) s = (.ok bs, t) ∧ s.Reads bs t := by
  refine ⟨_, _, rfl, List.take_append_drop _ _, rfl, fun hbs => ?_, fun hcalm => ⟨?_, ?_, ?_⟩⟩
  · cases hfails : (s.reads 0).fails with
    | true => exact Or.inl (by simp)
    | false =>
      have hrest : s.rest = [] := by
        refine (List.take_eq_nil_iff.mp hbs).resolve_left ?_
        simp only [hfails, Bool.false_eq_true, if_false]
        omega
      exact Or.inr (by simp [hrest])
  · simp [hcalm.reported, hcalm.reads 0]
  · exact fun i => hcalm.reads (i + 1)
  · exact hcalm.writes

theorem exec_writePiece (bs : Str) (s : Side) :
    ∃ items t, exec (writePiece bs) s = (.ok items, t) ∧ s.Writes bs items t := by
  refine ⟨_, _, rfl, rfl, rfl, fun hcalm => ⟨?_, hcalm.reported, hcalm.reads, ?_⟩⟩
  · simp [hcalm.writes 0]
  · exact fun i => hcalm.writes (i + 1)

theorem exec_getLong (s : Side) : ∃ t,
    exec getLong s = (.ok (!(s.reads 0).fails && 4 ≤ s.rest.length), t) ∧
      t.rest = s.rest.drop 4 ∧ t.written = s.written ∧ (s.Calm → t.Calm) := by
  refine ⟨_, rfl, rfl, rfl, fun hcalm => ⟨?_, fun i => hcalm.reads (i + 1), hcalm.writes⟩⟩
  simp [hcalm.reported, hcalm.reads 0]

/-! ## The two functions -/

/-- A round of their loops, which leaves them with `error`. -/
def copyRound (error : ℤ) : Copying (Round ℤ ℤ) :=
  if error = 0 then do
    let buffer ← readPiece 1024
    if buffer.length ≤ 0 then
      let reported ← errorReported
      return .done (if reported then 1 else error)
    else
      let nbytes ← writePiece buffer
      return if nbytes ≠ buffer.length then .done 1 else .next error
  else return .done error

/-- `bulk_SendFile`, with at most `n` rounds. -/
def bulkSendFile (n : ℕ) : Copying (Option ℤ) := do
  let encoded ← putLong 1024
  loop copyRound n (if encoded then 0 else 1)

/-- `bulk_ReceiveFile`, with at most `n` rounds. -/
def bulkReceiveFile (n : ℕ) : Copying (Option ℤ) := do
  let decoded ← getLong
  if decoded then loop copyRound n 0 else return some 1

/-! ## One end -/

/-- What was written is the beginning of the data, and unless there was an error the rest of it
is still to be read. There is none if `P` keeps the calls from failing. -/
structure Side.Under (P : Prop) (d : Str) (error : ℤ) (s : Side) : Prop where
  inOrder : s.written <+: d
  whole : error = 0 → s.written ++ s.rest = d
  calm : P → error = 0 ∧ s.Calm

/-- What was written is the beginning of the data, and unless there was an error all of it. -/
structure Side.Through (P : Prop) (d : Str) (error : ℤ) (s : Side) : Prop where
  inOrder : s.written <+: d
  whole : error = 0 → s.written = d
  calm : P → error = 0

section Round

variable {bs : Str} {items : ℕ} {u : Side}

theorem Side.Under.ended (hs : s.Under P d 0) (hread : s.Reads [] t) :
    t.Through P d (if t.reported then 1 else 0) := by
  refine ⟨hread.written ▸ hs.inOrder, fun hret => ?_, fun h => ?_⟩
  · have hreported : t.reported ≠ true := by
      intro h
      simp [h] at hret
    have hrest : s.rest = [] := by
      rw [← hread.rest, (hread.ended rfl).resolve_left hreported, List.append_nil]
    rw [hread.written, ← hs.whole rfl, hrest, List.append_nil]
  · simp [(hread.calm (hs.calm h).2).reported]

theorem Side.Under.split (hs : s.Under P d 0) (hread : s.Reads bs t)
    (hwrite : t.Writes bs items u) : d = u.written ++ (bs.drop items ++ u.rest) := by
  rw [hwrite.written, hwrite.rest, hread.written, List.append_assoc,
    ← List.append_assoc (bs.take _), List.take_append_drop, hread.rest, hs.whole rfl]

theorem Side.Under.failed (hs : s.Under P d 0) (hread : s.Reads bs t)
    (hwrite : t.Writes bs items u) (hitems : items ≠ bs.length) : u.Through P d 1 where
  inOrder := ⟨_, (hs.split hread hwrite).symm⟩
  whole h := absurd h (by decide)
  calm h := absurd (hwrite.calm (hread.calm (hs.calm h).2)).1 hitems

theorem Side.Under.next (hs : s.Under P d 0) (hread : s.Reads bs t)
    (hwrite : t.Writes bs bs.length u) : u.Under P d 0 where
  inOrder := ⟨_, (hs.split hread hwrite).symm⟩
  whole _ := by simpa using (hs.split hread hwrite).symm
  calm h := ⟨rfl, (hwrite.calm (hread.calm (hs.calm h).2)).2⟩

/-- A round writes what it has read, or it is the last one. -/
theorem copyRound_ensures (error : ℤ) (k : ℕ) :
    Ensures (fun s => s.Under P d error ∧ s.rest.length = k) (copyRound error)
      (fun r t => r.Holds (fun error => t.Under P d error ∧ t.rest.length < k)
        fun error => t.Through P d error) fun _ _ => False := by
  rintro s ⟨hs, rfl⟩
  by_cases herror : error = 0
  · subst herror
    obtain ⟨bs, t, hbs, hread⟩ := exec_readPiece (show 0 < 1024 by decide) s
    simp only [copyRound, if_true]
    rw [exec_bind_ok hbs]
    rcases Nat.eq_zero_or_pos bs.length with hlen | hpos
    · obtain rfl := List.eq_nil_of_length_eq_zero hlen
      exact hs.ended hread
    · obtain ⟨items, u, hitems, hwrite⟩ := exec_writePiece bs t
      simp only [Nat.not_le.mpr hpos, if_false]
      rw [exec_bind_ok hitems]
      split_ifs with hall
      · exact hs.failed hread hwrite hall
      · obtain rfl := not_ne_iff.mp hall
        refine ⟨hs.next hread hwrite, ?_⟩
        rw [hwrite.rest, ← hread.rest, List.length_append]
        omega
  · simp only [copyRound, if_neg herror]
    exact ⟨hs.inOrder, fun h => absurd h herror, fun h => (hs.calm h).1⟩

end Round

theorem loop_copyRound (hs : s.Under P d error) (hn : s.rest.length < n) : ∃ ret t,
    exec (loop copyRound n error) s = (.ok (some ret), t) ∧ t.Through P d ret := by
  obtain ⟨r, t, ht, ret, rfl, hthrough⟩ :=
    (Ensures.loop (fun _ s => s.rest.length) copyRound_ensures n error).returns ⟨hs, hn⟩
  exact ⟨ret, t, ht, hthrough⟩

structure Bulk where
  content : Str
  freads : ℕ → Attempt
  rxWrites : ℕ → Attempt
  rxReads : ℕ → Attempt
  fwrites : ℕ → Attempt

namespace Bulk

def send (x : Bulk) (n : ℕ) : Except Empty (Option ℤ) × Side :=
  exec (bulkSendFile n) ⟨x.content, false, x.freads, [], x.rxWrites⟩

def receive (x : Bulk) (n : ℕ) : Except Empty (Option ℤ) × Side :=
  exec (bulkReceiveFile n) ⟨(x.send n).2.written, false, x.rxReads, [], x.fwrites⟩

end Bulk

/-! ## Both ends -/

theorem length_longBytes (length : UInt32) : (longBytes length).length = 4 := rfl

theorem exec_bulkSendFile (hs : s.written = []) (hP : P → s.Calm) (hn : s.rest.length < n) :
    ∃ ret t, exec (bulkSendFile n) s = (.ok (some ret), t) ∧
      t.Through P (longBytes 1024 ++ s.rest) ret := by
  obtain ⟨items, t, hwrite, hwritten, hrest, hcalm⟩ := exec_writePiece (longBytes 1024) s
  have hput : exec (putLong 1024) s = (.ok (decide (items = (longBytes 1024).length)), t) := by
    rw [putLong, exec_bind_ok hwrite]
    rfl
  rw [hs, List.nil_append] at hwritten
  rw [bulkSendFile, exec_bind_ok hput]
  refine loop_copyRound ⟨?_, fun herror => ?_, fun h => ?_⟩ (hrest ▸ hn)
  · rw [hwritten]
    exact (List.take_prefix _ _).trans (List.prefix_append _ _)
  · have hitems : items = (longBytes 1024).length := by simpa using herror
    rw [hwritten, hrest, hitems, List.take_length]
  · obtain ⟨hitems, ht⟩ := hcalm (hP h)
    exact ⟨by simp [hitems], ht⟩

theorem exec_bulkReceiveFile (hs : s.written = []) (hP : P → s.Calm ∧ 4 ≤ s.rest.length)
    (hn : s.rest.length < n + 4) : ∃ ret t,
    exec (bulkReceiveFile n) s = (.ok (some ret), t) ∧ t.Through P (s.rest.drop 4) ret := by
  obtain ⟨t, hget, hrest, hwritten, hcalm⟩ := exec_getLong s
  have hinOrder : t.written <+: s.rest.drop 4 := by
    rw [hwritten, hs]
    exact List.nil_prefix
  rw [bulkReceiveFile, exec_bind_ok hget]
  split_ifs with hdecoded
  · simp only [Bool.and_eq_true, decide_eq_true_eq] at hdecoded
    refine loop_copyRound ⟨hinOrder, fun _ => ?_, fun h => ⟨rfl, hcalm (hP h).1⟩⟩ ?_
    · rw [hwritten, hs, hrest, List.nil_append]
    · rw [hrest, List.length_drop]
      omega
  · refine ⟨1, t, rfl, hinOrder, fun h => absurd h (by decide), fun h => absurd ?_ hdecoded⟩
    simp [(hP h).1.reads 0, (hP h).2]

namespace Bulk

variable (x : Bulk)

structure Smooth : Prop where
  freads : ∀ i, (x.freads i).fails = false
  rxWrites : ∀ i, (x.rxWrites i).fails = false
  rxReads : ∀ i, (x.rxReads i).fails = false
  fwrites : ∀ i, (x.fwrites i).fails = false

/-- However the data is cut into pieces and whatever fails, both functions return. If both return
0, what the receiver wrote is what the sender read, and they do if nothing fails. -/
theorem round_trip (hn : x.content.length < n) : ∃ sent received,
    (x.send n).1 = .ok (some sent) ∧ (x.receive n).1 = .ok (some received) ∧
      (sent = 0 → received = 0 → (x.receive n).2.written = x.content) ∧
      (x.Smooth → sent = 0 ∧ received = 0) := by
  obtain ⟨sent, s, hsend, hout⟩ := exec_bulkSendFile (P := x.Smooth) (n := n)
    (s := ⟨x.content, false, x.freads, [], x.rxWrites⟩) rfl
    (fun h => ⟨rfl, h.freads, h.rxWrites⟩) hn
  have hlen : s.written.length ≤ 4 + x.content.length := by
    simpa [length_longBytes] using hout.inOrder.length_le
  have hstart : x.Smooth → s.written = longBytes 1024 ++ x.content := fun h =>
    hout.whole (hout.calm h)
  obtain ⟨received, r, hreceive, hin⟩ := exec_bulkReceiveFile (P := x.Smooth) (n := n)
    (s := ⟨s.written, false, x.rxReads, [], x.fwrites⟩) rfl
    (fun h => ⟨⟨rfl, h.rxReads, h.fwrites⟩, by simp [hstart h, length_longBytes]⟩)
    (show s.written.length < n + 4 by omega)
  have hsent : x.send n = (.ok (some sent), s) := hsend
  have hreceived : x.receive n = (.ok (some received), r) := by
    rw [receive, hsent]
    exact hreceive
  rw [hsent, hreceived]
  refine ⟨sent, received, rfl, rfl, fun h h' => ?_, fun h => ⟨hout.calm h, hin.calm h⟩⟩
  rw [hin.whole h', hout.whole h]
  rfl

/-- The sender reads single bytes, the receiver two at a time. -/
theorem round_trip_three_bytes :
    let x : Bulk := ⟨[1, 2, 3], fun _ => ⟨false, 1⟩, fun _ => ⟨false, 0⟩, fun _ => ⟨false, 2⟩,
      fun _ => ⟨false, 0⟩⟩
    (x.send 4).1 = .ok (some 0) ∧ (x.receive 4).1 = .ok (some 0) ∧
      (x.receive 4).2.written = [1, 2, 3] := by
  intro x
  obtain ⟨sent, received, hsend, hreceive, hsame, hsmooth⟩ := round_trip x (show 3 < 4 by decide)
  obtain ⟨rfl, rfl⟩ := hsmooth ⟨fun _ => rfl, fun _ => rfl, fun _ => rfl, fun _ => rfl⟩
  exact ⟨hsend, hreceive, hsame rfl rfl⟩

end Bulk

end M3Sec.Afsfuse
