import M3Sec.Basic
import M3Sec.Library.Memory
import M3Sec.Library.Runs

/-! # The echo test

`hip_example.c` sends what it reads from the standard input to a peer that should echo it, and
compares what comes back. The connection is a reliable stream in each direction (`tcp`), with a
buffer of some size. How many bytes a call of `send` or `recv` handles, and when the peer answers,
is left open.
-/

namespace M3Sec.Hip

open Memory Runs

def ipMaxpacket : ℕ := 65535

/-- The values of `err` that are printed as OK and FAIL, and why. -/
inductive Result | ok | mismatch | sendFailed | recvFailed
  deriving DecidableEq

/-- The condition of the loop, the second `if` of its body, or the end. -/
inductive Point | loop | behindSend | ended (result : Result)
  deriving DecidableEq

/-- The variables of the client, and what is on the way to the peer and back. -/
structure System where
  datalen : ℕ
  mylovemostdata : Region UInt8
  receiveddata : Region UInt8
  datasent : ℕ
  datareceived : ℕ
  point : Point
  toPeer : Str
  toClient : Str

/-- What happens next: the client goes on, where `ret` is what `send` or `recv` returns if it is
called, or the peer takes `n` bytes and sends some. -/
inductive Move
  | client (ret : ℤ)
  | peer (n : ℕ) (bs : Str)

def zeroed (before : ℕ → UInt8) : Region UInt8 :=
  (Region.untouched before).store 0 (List.replicate ipMaxpacket 0)

/-- The loop over the standard input. A byte that is read when the array is full is dropped, and
the rest is not read. -/
def readInput : (stdin : Str) → (datalen : ℕ) → Region UInt8 → ℕ × Region UInt8
  | [], datalen, m => (datalen, m)
  | ch :: stdin, datalen, m =>
    if datalen < ipMaxpacket then readInput stdin (datalen + 1) (m.store datalen [ch])
    else (datalen, m)

def start (before before' : ℕ → UInt8) (stdin : Str) : System where
  datalen := (readInput stdin 0 (zeroed before)).1
  mylovemostdata := (readInput stdin 0 (zeroed before)).2
  receiveddata := zeroed before'
  datasent := 0
  datareceived := 0
  point := .loop
  toPeer := []
  toClient := []

namespace System

def Same (s : System) : Prop :=
  s.mylovemostdata.read 0 ipMaxpacket = s.receiveddata.read 0 ipMaxpacket

instance decidableSame (s : System) : Decidable s.Same := inferInstanceAs (Decidable (_ = _))

def compare (s : System) : System := { s with point := .ended (if s.Same then .ok else .mismatch) }

def send (s : System) (n : ℕ) : System := { s with
  datasent := s.datasent + n
  point := .behindSend
  toPeer := s.toPeer ++ s.mylovemostdata.read s.datasent n }

def recv (s : System) (n : ℕ) : System := { s with
  receiveddata := s.receiveddata.store s.datareceived (s.toClient.take n)
  datareceived := s.datareceived + n
  point := .loop
  toClient := s.toClient.drop n }

/-- A move, unless it is not possible: `send` waits until there is room for a byte, and `recv`
waits for one. `room` is the size of the buffers. -/
def step (room : ℕ) (s : System) : Move → Option System
  | .client ret =>
    match s.point with
    | .loop =>
      if s.datasent < s.datalen then
        if ret < 0 then some { s with point := .ended .sendFailed }
        else if 0 < ret.toNat ∧ ret.toNat ≤ s.datalen - s.datasent ∧
            s.toPeer.length + ret.toNat ≤ room then some (s.send ret.toNat)
        else none
      else if s.datareceived < s.datalen then some { s with point := .behindSend }
      else some s.compare
    | .behindSend =>
      if s.datareceived < s.datalen then
        if ret ≤ 0 then some { s with point := .ended .recvFailed }
        else if ret.toNat ≤ min s.toClient.length (s.datalen - s.datareceived) then
          some (s.recv ret.toNat)
        else none
      else some { s with point := .loop }
    | .ended _ => none
  | .peer n bs =>
    if n ≤ s.toPeer.length ∧ s.toClient.length + bs.length ≤ room then
      some { s with toPeer := s.toPeer.drop n, toClient := s.toClient ++ bs }
    else none

end System

/-- The peer sends back what it takes. -/
def Echoes (s : System) : Move → Prop
  | .client _ => True
  | .peer n bs => 0 < n ∧ bs = s.toPeer.take n

def Succeeds (s : System) (m : Move) : Prop := Echoes s m ∧ ∀ ret, m = .client ret → 0 < ret

variable {before before' : ℕ → UInt8} {stdin data : Str} {s t : System} {m : Move} {ret : ℤ}
  {n room : ℕ} {is : List Move}

/-! ## Steps -/

inductive Goes (s : System) (ret : ℤ) : System → Prop
  | send (n : ℕ) (hret : ret = n) (hn : 0 < n) (hpoint : s.point = .loop)
      (hle : s.datasent + n ≤ s.datalen) : Goes s ret (s.send n)
  | sendFailed (hret : ret < 0) (hpoint : s.point = .loop) (hlt : s.datasent < s.datalen) :
      Goes s ret { s with point := .ended .sendFailed }
  | sentAll (hpoint : s.point = .loop) (hsent : s.datalen ≤ s.datasent)
      (hlt : s.datareceived < s.datalen) : Goes s ret { s with point := .behindSend }
  | compare (hpoint : s.point = .loop) (hsent : s.datalen ≤ s.datasent)
      (hreceived : s.datalen ≤ s.datareceived) :
      Goes s ret s.compare
  | recv (n : ℕ) (hret : ret = n) (hn : 0 < n) (hpoint : s.point = .behindSend)
      (hle : s.datareceived + n ≤ s.datalen) (hcame : n ≤ s.toClient.length) :
      Goes s ret (s.recv n)
  | recvFailed (hret : ret ≤ 0) (hpoint : s.point = .behindSend)
      (hlt : s.datareceived < s.datalen) : Goes s ret { s with point := .ended .recvFailed }
  | receivedAll (hpoint : s.point = .behindSend) (hreceived : s.datalen ≤ s.datareceived) :
      Goes s ret { s with point := .loop }

theorem goes_of_step (h : s.step room (.client ret) = some t) : Goes s ret t := by
  simp only [System.step] at h
  cases hpoint : s.point with
  | loop =>
    simp only [hpoint] at h
    split_ifs at h with hsent hret hn hreceived
    · obtain rfl := Option.some.inj h
      exact .sendFailed hret hpoint hsent
    · obtain rfl := Option.some.inj h
      exact .send ret.toNat (by omega) hn.1 hpoint (by omega)
    · obtain rfl := Option.some.inj h
      exact .sentAll hpoint (by omega) hreceived
    · obtain rfl := Option.some.inj h
      exact .compare hpoint (by omega) (by omega)
  | behindSend =>
    simp only [hpoint] at h
    split_ifs at h with hreceived hret hn
    · obtain rfl := Option.some.inj h
      exact .recvFailed hret hpoint hreceived
    · obtain rfl := Option.some.inj h
      exact .recv ret.toNat (by omega) (by omega) hpoint (by omega) (by omega)
    · obtain rfl := Option.some.inj h
      exact .receivedAll hpoint (by omega)
  | ended r => simp [hpoint] at h

theorem peer_of_step {bs : Str} (h : s.step room (.peer n bs) = some t) : n ≤ s.toPeer.length ∧
    t = { s with toPeer := s.toPeer.drop n, toClient := s.toClient ++ bs } := by
  simp only [System.step] at h
  split_ifs at h with hn
  exact ⟨hn.1, (Option.some.inj h).symm⟩

/-! ## The input -/

theorem readInput_eq {m : Region UInt8} {p : Str} (hp : p.length ≤ ipMaxpacket) :
    readInput stdin p.length (m.store 0 p) =
      ((p ++ stdin.take (ipMaxpacket - p.length)).length,
        m.store 0 (p ++ stdin.take (ipMaxpacket - p.length))) := by
  induction stdin generalizing p with
  | nil => simp [readInput]
  | cons ch stdin ih =>
    rw [readInput]
    split_ifs with hlt
    · have hstore : (m.store 0 p).store (0 + p.length) [ch] = m.store 0 (p ++ [ch]) :=
        Region.store_append
      have hlen : (p ++ [ch]).length = p.length + 1 := by simp
      have hroom : ipMaxpacket - p.length = ipMaxpacket - (p.length + 1) + 1 := by omega
      have hnext := ih (p := p ++ [ch]) (by omega)
      rw [Nat.zero_add] at hstore
      rwa [← hstore, hlen, List.append_assoc, List.singleton_append, ← List.take_succ_cons,
        ← hroom] at hnext
    · have hroom : ipMaxpacket - p.length = 0 := by omega
      simp [hroom]

def inputOf (stdin : Str) : Str := stdin.take ipMaxpacket

theorem length_inputOf_le : (inputOf stdin).length ≤ ipMaxpacket := List.length_take_le _ _

theorem readInput_zeroed : readInput stdin 0 (zeroed before) =
    ((inputOf stdin).length, (zeroed before).store 0 (inputOf stdin)) := by
  have hread : readInput stdin ([] : Str).length ((zeroed before).store 0 []) = _ :=
    readInput_eq (Nat.zero_le _)
  rwa [Region.store_nil] at hread

/-! ## Any peer -/

def System.received (s : System) : Str := s.receiveddata.read 0 s.datareceived

/-- What holds of the client whatever the peer does. -/
structure Client (before before' : ℕ → UInt8) (data : Str) (s : System) : Prop where
  datalen_eq : s.datalen = data.length
  datasent_le : s.datasent ≤ data.length
  datareceived_le : s.datareceived ≤ data.length
  mylovemostdata_eq : s.mylovemostdata = (zeroed before).store 0 data
  receiveddata_eq : s.receiveddata = (zeroed before').store 0 s.received
  ok_iff : ∀ r, s.point = .ended r → (r = .ok → s.received = data) ∧ (r = .mismatch →
    s.received.length = data.length ∧ s.received ≠ data)

@[simp] theorem length_received : s.received.length = s.datareceived := by
  simp [System.received, Region.read]

theorem client_start (before before' : ℕ → UInt8) (stdin : Str) :
    Client before before' (inputOf stdin) (start before before' stdin) := by
  have hread : readInput stdin 0 (zeroed before) = _ := readInput_zeroed
  refine ⟨?_, Nat.zero_le _, Nat.zero_le _, ?_, ?_, fun r h => by cases h⟩
  · rw [start, hread]
  · rw [start, hread]
  · exact Region.store_nil.symm

theorem read_zeroed {bs : Str} (h : bs.length ≤ ipMaxpacket) :
    ((zeroed before).store 0 bs).read 0 ipMaxpacket =
      bs ++ List.replicate (ipMaxpacket - bs.length) 0 := by
  apply List.ext_getElem
  · simp only [Region.read, List.length_map, List.length_range, List.length_append,
      List.length_replicate]
    omega
  · intro i hi hi'
    have hlt : i < ipMaxpacket := by simpa [Region.read] using hi
    by_cases hbs : i < bs.length
    · simp [Region.read, Region.store, hbs, List.getElem_append_left hbs]
    · have hnone : bs[i]? = none := List.getElem?_eq_none (by omega)
      have hzero : (List.replicate ipMaxpacket (0 : UInt8))[i]? = some 0 :=
        List.getElem?_replicate_of_lt hlt
      simp [Region.read, Region.store, zeroed, hnone, hzero,
        List.getElem_append_right (by omega : bs.length ≤ i)]

theorem Client.same_iff (h : Client before before' data s) (hlen : data.length ≤ ipMaxpacket)
    (hreceived : s.datalen ≤ s.datareceived) : s.Same ↔ s.received = data := by
  have heq : s.received.length = data.length := by
    have := h.datalen_eq
    have := h.datareceived_le
    rw [length_received]
    omega
  unfold System.Same
  rw [h.mylovemostdata_eq, h.receiveddata_eq, read_zeroed hlen, read_zeroed (heq.trans_le hlen)]
  constructor
  · intro hsame
    exact (List.append_inj_left hsame heq.symm).symm
  · intro hdata
    rw [hdata]

theorem Client.receiveddata_recv (h : Client before before' data s) (n : ℕ) :
    (s.recv n).receiveddata = (zeroed before').store 0 (s.received ++ s.toClient.take n) := by
  have hstore : ((zeroed before').store 0 s.received).store (0 + s.received.length)
      (s.toClient.take n) = _ := Region.store_append
  rwa [← h.receiveddata_eq, Nat.zero_add, length_received] at hstore

theorem Client.received_recv (h : Client before before' data s) (hcame : n ≤ s.toClient.length) :
    (s.recv n).received = s.received ++ s.toClient.take n := by
  rw [System.received, h.receiveddata_recv]
  apply Region.read_store
  rw [List.length_append, length_received, List.length_take, Nat.min_eq_left hcame]
  rfl

theorem Client.step (h : Client before before' data s) (hlen : data.length ≤ ipMaxpacket)
    (hstep : s.step room m = some t) : Client before before' data t := by
  obtain ⟨hdatalen, hsent, hreceived, hmine, htheirs, hended⟩ := id h
  cases m with
  | peer n bs =>
    obtain ⟨-, rfl⟩ := peer_of_step hstep
    exact ⟨hdatalen, hsent, hreceived, hmine, htheirs, hended⟩
  | client ret =>
    cases goes_of_step hstep with
    | send n hret hn hpoint hle =>
      refine ⟨hdatalen, ?_, hreceived, hmine, htheirs, fun r hr => by cases hr⟩
      exact hdatalen ▸ hle
    | sendFailed =>
      refine ⟨hdatalen, hsent, hreceived, hmine, htheirs, fun r hr => ?_⟩
      cases hr
      exact ⟨nofun, nofun⟩
    | sentAll => exact ⟨hdatalen, hsent, hreceived, hmine, htheirs, fun r hr => by cases hr⟩
    | compare hpoint hsentAll hreceivedAll =>
      have hsame : s.Same ↔ s.received = data := h.same_iff hlen hreceivedAll
      have hlength : s.received.length = data.length := by
        rw [length_received]
        omega
      refine ⟨hdatalen, hsent, hreceived, hmine, htheirs, fun r hr => ?_⟩
      have hr' : (if s.Same then Result.ok else .mismatch) = r := Point.ended.inj hr
      subst hr'
      split_ifs with hs
      · exact ⟨fun _ => hsame.mp hs, nofun⟩
      · exact ⟨nofun, fun _ => ⟨hlength, mt hsame.mpr hs⟩⟩
    | recv n hret hn hpoint hle hcame =>
      refine ⟨hdatalen, hsent, ?_, hmine, ?_, fun r hr => by cases hr⟩
      · exact hdatalen ▸ hle
      · rw [h.receiveddata_recv, h.received_recv hcame]
    | recvFailed =>
      refine ⟨hdatalen, hsent, hreceived, hmine, htheirs, fun r hr => ?_⟩
      cases hr
      exact ⟨nofun, nofun⟩
    | receivedAll => exact ⟨hdatalen, hsent, hreceived, hmine, htheirs, fun r hr => by cases hr⟩

/-- Whatever the peer sends, and however much the calls handle, nothing is written behind the
array, the client reports OK only if what came is what was read, and that they differ only if as
much came and they do. -/
theorem result_of_run (room : ℕ) (before before' : ℕ → UInt8) (stdin : Str) (is : List Move)
    (t : System)
    (hrun : run (System.step room) (start before before' stdin) is = some t) :
    t.receiveddata.reach ≤ ipMaxpacket ∧
      (t.point = .ended .ok → t.received = inputOf stdin) ∧
      (t.point = .ended .mismatch →
        t.received.length = (inputOf stdin).length ∧ t.received ≠ inputOf stdin) := by
  have hlen : (inputOf stdin).length ≤ ipMaxpacket := length_inputOf_le
  have hclient : Client before before' (inputOf stdin) t := by
    refine invariant_along (A := fun _ _ => True) (Client before before' (inputOf stdin)) ?_
      (client_start before before' stdin) (fun _ _ _ _ _ => trivial) hrun
    exact fun s m t hs _ hstep => hs.step hlen hstep
  refine ⟨?_, fun hok => (hclient.ok_iff _ hok).1 rfl, fun hmis => (hclient.ok_iff _ hmis).2 rfl⟩
  have hle := hclient.datareceived_le
  have huntouched : (Region.untouched before').reach = 0 := rfl
  rw [hclient.receiveddata_eq, Region.reach_store_zero, zeroed, Region.reach_store_zero,
    List.length_replicate, length_received, huntouched]
  omega

/-- A peer that sends something else. -/
theorem result_of_run_hi : ∃ t, run (System.step 2) (start (fun _ => 7) (fun _ => 7) [104, 105])
    [.client 2, .peer 1 [106, 107], .client 2] = some t ∧ t.receiveddata.reach ≤ ipMaxpacket :=
  ⟨_, rfl, (result_of_run 2 _ _ [104, 105] [.client 2, .peer 1 [106, 107], .client 2] _ rfl).1⟩

/-! ## A peer that echoes -/

/-- The bytes that were sent are in the client's array, on the way back and on the way to the
peer, in this order. -/
structure Echoing (data : Str) (s : System) : Prop where
  inOrder : s.received ++ s.toClient ++ s.toPeer = data.take s.datasent
  behindSend : s.point = .behindSend → s.datareceived < s.datasent ∧ s.datareceived < s.datalen
  same : s.point ≠ .ended .mismatch

theorem echoing_start (before before' : ℕ → UInt8) (stdin : Str) :
    Echoing (inputOf stdin) (start before before' stdin) :=
  ⟨rfl, nofun, nofun⟩

theorem Echoing.datareceived_le (h : Echoing data s) : s.datareceived ≤ s.datasent := by
  have hlen := congrArg List.length h.inOrder
  rw [List.length_append, List.length_append, length_received, List.length_take] at hlen
  omega

theorem Echoing.step (h : Echoing data s) (hc : Client before before' data s)
    (hlen : data.length ≤ ipMaxpacket) (hm : Echoes s m) (hstep : s.step room m = some t) :
    Echoing data t := by
  have horder := h.inOrder
  have hdatalen := hc.datalen_eq
  cases m with
  | peer n bs =>
    obtain ⟨-, rfl⟩ := peer_of_step hstep
    obtain ⟨-, rfl⟩ := hm
    refine ⟨?_, h.behindSend, h.same⟩
    have hsplit : s.received ++ (s.toClient ++ s.toPeer.take n) ++ s.toPeer.drop n =
        s.received ++ s.toClient ++ s.toPeer := by
      rw [← List.append_assoc s.received, List.append_assoc _ (s.toPeer.take n),
        List.take_append_drop]
    exact hsplit.trans horder
  | client ret =>
    cases goes_of_step hstep with
    | send n hret hn hpoint hle =>
      have hle' : s.datasent + n ≤ data.length := hdatalen ▸ hle
      have hread : s.mylovemostdata.read s.datasent n = (data.drop s.datasent).take n := by
        have hread := Region.read_store_of_le (m := zeroed before) (p := 0) hle'
        rwa [← hc.mylovemostdata_eq, Nat.zero_add] at hread
      refine ⟨?_, fun _ => ?_, nofun⟩
      · rw [System.send, List.take_add, ← horder, hread, List.append_assoc _ s.toPeer]
        rfl
      · have hbefore := h.datareceived_le
        simp only [System.send]
        omega
    | sendFailed => exact ⟨horder, nofun, nofun⟩
    | sentAll hpoint hsent hlt => exact ⟨horder, fun _ => ⟨hlt.trans_le hsent, hlt⟩, nofun⟩
    | compare hpoint hsent hreceived =>
      have hall : data.take s.datasent = data := List.take_of_length_le (hdatalen ▸ hsent)
      have hprefix : s.received <+: data := by
        rw [hall, List.append_assoc] at horder
        exact ⟨_, horder⟩
      have hdata : s.received = data := by
        apply hprefix.eq_of_length_le
        rwa [length_received, ← hdatalen]
      have hsame : s.Same := (hc.same_iff hlen hreceived).mpr hdata
      refine ⟨horder, nofun, ?_⟩
      rw [System.compare, if_pos hsame]
      exact nofun
    | recv n hret hn hpoint hle hcame =>
      refine ⟨?_, nofun, nofun⟩
      rw [hc.received_recv hcame, List.append_assoc s.received]
      exact (congrArg (s.received ++ · ++ s.toPeer) (List.take_append_drop n s.toClient)).trans
        horder
    | recvFailed => exact ⟨horder, nofun, nofun⟩
    | receivedAll hpoint hreceived => exact ⟨horder, nofun, nofun⟩

theorem echoing_run (before before' : ℕ → UInt8) (stdin : Str) (ha : Along (System.step room) Echoes
    (start before before' stdin) is)
    (hrun : run (System.step room) (start before before' stdin) is = some t) :
    Client before before' (inputOf stdin) t ∧ Echoing (inputOf stdin) t := by
  have hlen : (inputOf stdin).length ≤ ipMaxpacket := length_inputOf_le
  refine invariant_along (fun s => Client before before' (inputOf stdin) s ∧
    Echoing (inputOf stdin) s) ?_ ⟨client_start before before' stdin,
      echoing_start before before' stdin⟩ ha hrun
  exact fun s m t hs hm hstep => ⟨hs.1.step hlen hstep, hs.2.step hs.1 hlen hm hstep⟩

/-- With a peer that echoes, in any order of the moves: what came back, what is on the way back
and what is on the way to the peer are together the beginning of the input that was sent, and
the comparison never fails. -/
theorem echo_inOrder (room : ℕ) (before before' : ℕ → UInt8) (stdin : Str) (is : List Move)
    (t : System)
    (ha : Along (System.step room) Echoes (start before before' stdin) is)
    (hrun : run (System.step room) (start before before' stdin) is = some t) :
    t.received ++ t.toClient ++ t.toPeer = (inputOf stdin).take t.datasent ∧
      t.datasent ≤ (inputOf stdin).length ∧ t.point ≠ .ended .mismatch := by
  obtain ⟨hclient, hecho⟩ := echoing_run before before' stdin ha hrun
  exact ⟨hecho.inOrder, hclient.datasent_le, hecho.same⟩

theorem echo_inOrder_hi : ∃ t, run (System.step 1) (start (fun _ => 7) (fun _ => 7) [104, 105])
    [.client 1, .peer 1 [104]] = some t ∧ t.point ≠ .ended .mismatch :=
  ⟨_, rfl, (echo_inOrder 1 _ _ [104, 105] [.client 1, .peer 1 [104]] _
    (along_cons.mpr ⟨trivial, fun t ht => along_cons.mpr
      ⟨Option.some.inj ht ▸ ⟨by decide, by decide⟩, fun _ _ => along_nil⟩⟩) rfl).2.2⟩

/-! ## The end of the test -/

def Point.left : Point → ℕ
  | .loop => 2
  | .behindSend => 1
  | .ended _ => 0

def System.work (s : System) : ℕ :=
  2 * (s.datalen - s.datasent) + 2 * (s.datalen - s.datareceived) + s.toPeer.length + s.point.left

theorem work_lt (h : Echoing data s) (hm : Echoes s m) (hstep : s.step room m = some t) :
    t.work < s.work := by
  cases m with
  | peer n bs =>
    obtain ⟨hn, rfl⟩ := peer_of_step hstep
    obtain ⟨hpos, -⟩ := hm
    simp only [System.work, List.length_drop]
    omega
  | client ret =>
    cases goes_of_step hstep with
    | send n hret hn hpoint hle =>
      simp only [System.work, System.send, hpoint, Point.left, List.length_append, Region.read,
        List.length_map, List.length_range]
      omega
    | sendFailed hret hpoint hlt => simp [System.work, hpoint, Point.left]
    | sentAll hpoint hsent hlt => simp [System.work, hpoint, Point.left]
    | compare hpoint hsent hreceived => simp [System.work, System.compare, hpoint, Point.left]
    | recv n hret hn hpoint hle hcame =>
      simp only [System.work, System.recv, hpoint, Point.left]
      omega
    | recvFailed hret hpoint hlt => simp [System.work, hpoint, Point.left]
    | receivedAll hpoint hreceived => exact absurd (h.behindSend hpoint).2 (Nat.not_lt.mpr hreceived)

theorem work_start (before before' : ℕ → UInt8) (stdin : Str) :
    (start before before' stdin).work = 4 * (inputOf stdin).length + 2 := by
  have hdatalen := (client_start before before' stdin).datalen_eq
  simp only [System.work, hdatalen]
  simp only [start, Point.left, List.length_nil]
  omega

theorem Echoing.onTheWay (h : Echoing data s) (hc : Client before before' data s) :
    s.datareceived + s.toClient.length + s.toPeer.length = s.datasent := by
  have hlen := congrArg List.length h.inOrder
  rw [List.length_append, List.length_append, length_received, List.length_take,
    Nat.min_eq_left hc.datasent_le] at hlen
  exact hlen

/-- As long as the client has not come to the end, some call can succeed, or the peer has
something to send back. -/
theorem exists_move (h : Echoing data s) (hc : Client before before' data s)
    (hroom : data.length ≤ room) (hend : ¬ ∃ r, s.point = .ended r) :
    ∃ m t, Succeeds s m ∧ s.step room m = some t := by
  have hcalls : Succeeds s (.client 1) := ⟨trivial, fun ret hret => by cases hret; decide⟩
  have hdatalen := hc.datalen_eq
  have hway := h.onTheWay hc
  cases hpoint : s.point with
  | ended r => exact absurd ⟨r, hpoint⟩ hend
  | loop =>
    refine ⟨.client 1, ?_⟩
    simp only [System.step, hpoint]
    split_ifs with hsent hlt hone hreceived
    · exact absurd hlt (by decide)
    · exact ⟨_, hcalls, rfl⟩
    · refine absurd ⟨by decide, ?_⟩ hone
      simp only [Int.toNat_one]
      omega
    · exact ⟨_, hcalls, rfl⟩
    · exact ⟨_, hcalls, rfl⟩
  | behindSend =>
    obtain ⟨hsent, hlt⟩ := h.behindSend hpoint
    have hdatasent := hc.datasent_le
    by_cases hcame : s.toClient = []
    · have hnone : s.toClient.length = 0 := List.length_eq_zero_iff.mpr hcame
      have hpos : 0 < s.toPeer.length := by omega
      have hback : s.toClient.length + (s.toPeer.take s.toPeer.length).length ≤ room := by
        rw [List.take_length]
        omega
      exact ⟨.peer s.toPeer.length (s.toPeer.take s.toPeer.length), _, ⟨⟨hpos, rfl⟩, nofun⟩,
        if_pos ⟨le_rfl, hback⟩⟩
    · have hpos : 0 < s.toClient.length := List.length_pos_of_ne_nil hcame
      have hone : (1 : ℤ).toNat ≤ min s.toClient.length (s.datalen - s.datareceived) := by
        simp only [Int.toNat_one]
        omega
      have hnot : ¬ (1 : ℤ) ≤ 0 := by decide
      refine ⟨.client 1, s.recv 1, hcalls, ?_⟩
      simp only [System.step, hpoint]
      rw [if_pos hlt, if_neg hnot, if_pos hone]
      rfl

theorem ok_of_succeeds (h : Echoing data s) (hc : Client before before' data s)
    (hlen : data.length ≤ ipMaxpacket) (hok : ∀ r, s.point = .ended r → r = .ok) (hm : Succeeds s m)
    (hstep : s.step room m = some t) : ∀ r, t.point = .ended r → r = .ok := by
  have hsame := (h.step hc hlen hm.1 hstep).same
  cases m with
  | peer n bs =>
    obtain ⟨-, rfl⟩ := peer_of_step hstep
    exact hok
  | client ret =>
    have hpos : 0 < ret := hm.2 ret rfl
    cases goes_of_step hstep with
    | send => exact nofun
    | sendFailed hret => exact absurd hret (by omega)
    | sentAll => exact nofun
    | compare =>
      intro r hr
      obtain rfl := Point.ended.inj hr
      split_ifs with hs
      · rfl
      · rw [System.compare, if_neg hs] at hsame
        exact absurd rfl hsame
    | recv => exact nofun
    | recvFailed hret => exact absurd hret (by omega)
    | receivedAll => exact nofun

/-- The test comes to an end: if the buffers have room for the input, no call fails and the peer
echoes, there is a bound on the moves, whatever was done so far can be continued until the client
reports OK, and it reports nothing else. -/
theorem echo_completes (room : ℕ) (before before' : ℕ → UInt8) (stdin : Str)
    (hroom : (inputOf stdin).length ≤ room) (is : List Move) (t : System)
    (ha : Along (System.step room) Succeeds (start before before' stdin) is)
    (hrun : run (System.step room) (start before before' stdin) is = some t) :
    is.length ≤ 4 * (inputOf stdin).length + 2 ∧ (∀ r, t.point = .ended r → r = .ok) ∧
      ∃ is' u, Along (System.step room) Succeeds t is' ∧ run (System.step room) t is' = some u ∧
        u.point = .ended .ok ∧ u.received = inputOf stdin := by
  have hlen : (inputOf stdin).length ≤ ipMaxpacket := length_inputOf_le
  set Inv : System → Prop := fun s => Client before before' (inputOf stdin) s ∧
    Echoing (inputOf stdin) s ∧ ∀ r, s.point = .ended r → r = .ok
  have hinv : ∀ s m t, Inv s → Succeeds s m → s.step room m = some t → Inv t :=
    fun s m t ⟨hc, he, hok⟩ hm hstep => ⟨hc.step hlen hstep, he.step hc hlen hm.1 hstep,
      ok_of_succeeds he hc hlen hok hm hstep⟩
  have hdecreasing : ∀ s m t, Inv s → Succeeds s m → s.step room m = some t → t.work < s.work :=
    fun s m t hs hm hstep => work_lt hs.2.1 hm.1 hstep
  have hprogress : ∀ s, Inv s → ¬ (∃ r, s.point = .ended r) → ∃ m t, Succeeds s m ∧
      s.step room m = some t := fun s hs hend => exists_move hs.2.1 hs.1 hroom hend
  have hstart : Inv (start before before' stdin) := ⟨client_start before before' stdin,
    echoing_start before before' stdin, nofun⟩
  have ht : Inv t := invariant_along Inv hinv hstart ha hrun
  have hbound := length_add_measure_le hinv hdecreasing hstart ha hrun
  rw [work_start] at hbound
  obtain ⟨is', u, ha', hrun', r, hr⟩ := exists_run_done hinv hdecreasing hprogress ht
  obtain ⟨hc, -, hok⟩ := invariant_along Inv hinv ht ha' hrun'
  obtain rfl := hok r hr
  exact ⟨by omega, ht.2.2, is', u, ha', hrun', hr, (hc.ok_iff _ hr).1 rfl⟩

theorem echo_completes_hi : ∃ is u,
    Along (System.step 2) Succeeds (start (fun _ => 7) (fun _ => 7) [104, 105]) is ∧
      run (System.step 2) (start (fun _ => 7) (fun _ => 7) [104, 105]) is = some u ∧
      u.point = .ended .ok ∧ u.received = inputOf [104, 105] :=
  (echo_completes 2 _ _ [104, 105] (by decide) [] _ along_nil run_nil).2.2

end M3Sec.Hip
