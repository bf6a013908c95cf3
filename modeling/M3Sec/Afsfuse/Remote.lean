import M3Sec.Afsfuse.Disk
import M3Sec.Afsfuse.Split

/-! # Client and server

The outside of a client is a server. The stubs reach it, and what it writes to a split call
arrives in some pieces, unless a string of the request is too long for the wire. What a
client writes to a split call may get lost on the way, in part or as a whole, and each Rx
call may then report it, with a code that is not positive.
-/

namespace M3Sec.Afsfuse

open Fallible

/-- An error code of Rx, or 0. -/
abbrev RxCode := {code : ℤ // code ≤ 0}

/-- How a call turns out in which the client sends data. -/
structure Upload where
  start : ℤ
  encodes : Bool
  written : ℤ
  /-- How much of the data the server can read. -/
  received : ℕ
  /-- `rx_Error` on the server. -/
  serverError : RxCode
  /-- `rx_Error` on the client, before the end of the call. -/
  clientError : RxCode
  /-- What `rx_EndCall` reports if the procedure has returned 0. -/
  finish : RxCode
  /-- What `length` holds on the server before it is assigned. -/
  uninitialised : ℤ
  /-- What `rx_Read` takes a negative count for. -/
  negative : ℕ

structure Transport where
  interrupts : ℕ
  /-- The pieces in which data reaches the client. -/
  cut : Str → List {bs : Str // bs ≠ [] ∧ bs.length ≤ 1024}
  cut_flatMap : ∀ data, (cut data).flatMap Subtype.val = data
  upload : Upload

/-- Nothing fails: data comes byte by byte, and up to `n` bytes can be sent. -/
def Transport.sound (n : ℕ) : Transport where
  interrupts := 0
  cut data := data.map fun b => ⟨[b], by simp⟩
  cut_flatMap data := by
    induction data with
    | nil => rfl
    | cons b data ih => rw [List.map_cons, List.flatMap_cons, ih, List.singleton_append]
  upload := ⟨0, true, n, n, ⟨0, zero_nonpos⟩, ⟨0, zero_nonpos⟩, ⟨0, zero_nonpos⟩, 0, 0⟩

def rxgenCcMarshal : ℤ := -450

/-- Everything that is written is taken, and nothing was sent by the client. -/
def Wire.deliver : Wire := ⟨true, 2 ^ 32, none, [], 0, 0, 0⟩

section Remote

variable {σ : Type} (os : Os σ) (t : Transport)

def callServer (q : Request) (s : Server σ) : Reply q.Out × Server σ :=
  if q.Marshals then
    let (code, out) := s.answer os ⟨q, .deliver⟩
    (if h : code = 0 then .ok out else .error ⟨⟨code, h⟩, none⟩, s.after os ⟨q, .deliver⟩)
  else (.error ⟨⟨rxgenCcMarshal, by decide⟩, none⟩, s)

/-- A split call in which the server sends data. An error of the procedure ends the call
before any of it arrives. -/
def download (q : Request) (s : Server σ) : Call × Server σ :=
  if q.Marshals then
    let code := s.code os ⟨q, .deliver⟩
    let s' := s.after os ⟨q, .deliver⟩
    ({ start := 0
       encodes := true
       header := if code = 0 then s'.sent.header else none
       chunks := if code = 0 then t.cut s'.sent.data else []
       last := ⟨0, zero_nonpos⟩
       negative := t.upload.negative
       written := 0
       error := code
       ended := code }, s')
  else (⟨rxgenCcMarshal, true, none, [], ⟨0, zero_nonpos⟩, t.upload.negative, 0, rxgenCcMarshal,
    rxgenCcMarshal⟩, s)

/-- What the server can read in a call in which the client sends a length and data. -/
def Upload.wire (u : Upload) (length : ℤ) (data : Str) : Wire where
  encodes := true
  accepts := 2 ^ 32
  header := if u.encodes then some length else none
  data := if u.encodes then data.take u.received else []
  negative := u.negative
  error := u.serverError
  uninitialised := u.uninitialised

def upload (q : Request) (length : ℤ) (data : Str) (s : Server σ) : Call × Server σ :=
  let u := t.upload
  if q.Marshals ∧ u.start = 0 then
    let i : Incoming := ⟨q, u.wire length data⟩
    let ended := if s.code os i = 0 then u.finish.val else s.code os i
    ({ start := 0
       encodes := u.encodes
       header := none
       chunks := []
       last := ⟨0, zero_nonpos⟩
       negative := u.negative
       written := u.written
       error := if u.encodes = true ∧ 0 < u.written then ended else u.clientError.val
       ended := ended }, s.after os i)
  else (⟨if q.Marshals then u.start else rxgenCcMarshal, true, none, [], ⟨0, zero_nonpos⟩,
    u.negative, 0, u.clientError, 0⟩, s)

/-- The environment of a client that is connected to the server, by a transport in which no call
fails or is lost but those that send data. -/
def overServer : Environment (Server σ) where
  interrupts _ := t.interrupts
  call := callServer os
  split q up s :=
    match up with
    | none => download os t q s
    | some (length, data) => upload os t q length data s

/-- A request that is sent reaches the server once, and what the server returns comes back; calls
that send data may fail. -/
structure Environment.Reliable (env : Environment (Server σ)) : Prop where
  call : ∀ q s, env.call q s = callServer os q s
  download : ∀ q s, env.split q none s = download os t q s

theorem overServer_reliable : (overServer os t).Reliable os t := ⟨fun _ _ => rfl, fun _ _ => rfl⟩

variable {os t} {q : Request} {s s' : Server σ} {out : q.Out} {code : ℤ}

theorem callServer_ok (hq : q.Marshals)
    (h : exec (serve os .deliver q) s.begin = (.ok (0, out), s')) :
    callServer os q s = (.ok out, s') := by
  obtain ⟨hanswer, hafter⟩ := after_eq (i := ⟨q, .deliver⟩) os h
  rw [callServer, if_pos hq, hanswer, hafter]
  rfl

theorem callServer_error (hq : q.Marshals) (hcode : code ≠ 0)
    (h : exec (serve os .deliver q) s.begin = (.ok (code, out), s')) :
    callServer os q s = (.error ⟨⟨code, hcode⟩, none⟩, s') := by
  obtain ⟨hanswer, hafter⟩ := after_eq (i := ⟨q, .deliver⟩) os h
  rw [callServer, if_pos hq, hanswer, hafter]
  simp [hcode]

theorem upload_of_exec {i : Incoming} {length : ℤ} {data : Str} {a : ℤ × i.request.Out}
    (hi : i.wire = t.upload.wire length data) (hq : i.request.Marshals) (hstart : t.upload.start = 0)
    (h : exec (serve os i.wire i.request) s.begin = (.ok a, s')) :
    let ended := if a.1 = 0 then t.upload.finish.val else a.1
    upload os t i.request length data s = ({
      start := 0
      encodes := t.upload.encodes
      header := none
      chunks := []
      last := ⟨0, zero_nonpos⟩
      negative := t.upload.negative
      written := t.upload.written
      error := if t.upload.encodes = true ∧ 0 < t.upload.written then ended
        else t.upload.clientError.val
      ended := ended }, s') := by
  obtain ⟨q, wire⟩ := i
  obtain rfl : wire = t.upload.wire length data := hi
  obtain ⟨hanswer, hafter⟩ := after_eq (i := ⟨q, t.upload.wire length data⟩) os h
  simp only [upload, Server.code, hanswer, hafter]
  exact if_pos ⟨hq, hstart⟩

theorem callServer_not_marshals (hq : ¬ q.Marshals) :
    callServer os q s = (.error ⟨⟨rxgenCcMarshal, by decide⟩, none⟩, s) := if_neg hq

end Remote

end M3Sec.Afsfuse
