import M3Sec.Afsfuse.Remote

/-! # Remote writes

The status of a write comes back as a single code, and of the two counts on the way only one
is looked at: that `pwrite` may take less than it is given is not seen, nor is data that was
lost on the way if the Rx library knows no error.
-/

namespace M3Sec.Afsfuse

open Fallible Memory

variable {σ ν : Type} {os : Os σ} {wire : Wire} {t : Transport} {s : Server σ}
  {path : CString} {offset : UInt32}

/-! ## The server -/

def Wire.received (wire : Wire) : Str :=
  wire.data.take (rxCount wire.negative (wire.header.getD wire.uninitialised))

/-- What is known to be wrong before the file is opened. -/
def Wire.known (wire : Wire) : ℤ :=
  if (wire.received.length : ℤ) ≠ wire.header.getD wire.uninitialised then wire.error
  else if wire.header.isSome then 0 else 1

theorem exec_openOrMinusOne_ok {flags : ℤ} {fd : {fd : ℕ // fd < 2 ^ 31}} {m : σ}
    (h : os.perform (.openFile path flags) s.os = (.ok fd, m)) :
    exec (openOrMinusOne os path flags) s =
      (.ok (fd.val : ℤ), s.record os (.openFile path flags)) := by
  rw [openOrMinusOne, exec_bind_ok (exec_sys_of os h)]
  rfl

theorem exec_openOrMinusOne_error {flags : ℤ} {e : ℕ+} {m : σ}
    (h : os.perform (.openFile path flags) s.os = (.error e, m)) :
    exec (openOrMinusOne os path flags) s = (.ok (-1), s.record os (.openFile path flags)) := by
  rw [openOrMinusOne, exec_bind_ok (exec_sys_of os h)]
  rfl

variable (os) in
theorem exec_closeIfPositive (fd : ℤ) (s : Server σ) :
    ∃ s', exec (closeIfPositive os fd) s = (.ok (), s') ∧
      s'.os = if 0 < fd then (os.perform (.close fd) s.os).2 else s.os := by
  unfold closeIfPositive
  split_ifs
  · exact ⟨_, (exec_bind_ok (exec_sys os)).trans (exec_pure _ _), rfl⟩
  · exact ⟨s, rfl, rfl⟩

theorem exec_zero_check (fd error : ℤ) (s : Server σ) :
    exec (if fd = 0 then minusErrno else pure error : Serve σ ℤ) s =
      (.ok (if fd = 0 then -(s.errno : ℤ) else error), s) := by
  split_ifs <;> rfl

theorem rxcRxcWrite_eq : rxcRxcWrite os wire path offset = (do
    let fd ← openOrMinusOne os (translatePath path) oWronly
    let error ← (if fd = 0 then minusErrno else pure wire.known)
    let error ← attemptElse os (.pwrite fd wire.received offset.toNat) minusErrno error
    closeIfPositive os fd
    return error) := rfl

theorem exec_rxcRxcWrite_ok {fd : {fd : ℕ // fd < 2 ^ 31}} {m m' : σ}
    {nbytes : {nbytes : ℕ // nbytes ≤ wire.received.length}}
    (hopen : os.perform (.openFile (translatePath path) oWronly) s.os = (.ok fd, m))
    (hpwrite : os.perform (.pwrite fd.val wire.received offset.toNat) m = (.ok nbytes, m')) :
    ∃ s', exec (rxcRxcWrite os wire path offset) s =
        (.ok (if (fd : ℤ) = 0 then -(s.errno : ℤ) else wire.known), s') ∧
      s'.os = if 0 < (fd : ℤ) then (os.perform (.close fd.val) m').2 else m' := by
  let s₁ := s.record os (.openFile (translatePath path) oWronly)
  have hos₁ : s₁.os = m := os_record_of os hopen
  have herrno₁ : s₁.errno = s.errno := by
    simp only [s₁, Server.record, hopen]
  have hwrite : os.perform (.pwrite fd.val wire.received offset.toNat) s₁.os = (.ok nbytes, m') := by
    rw [hos₁, hpwrite]
  let s₂ := s₁.record os (.pwrite fd.val wire.received offset.toNat)
  have hos₂ : s₂.os = m' := os_record_of os hwrite
  obtain ⟨s₃, hclose, hos₃⟩ := exec_closeIfPositive os fd s₂
  refine ⟨s₃, ?_, by rw [hos₃, hos₂]⟩
  rw [rxcRxcWrite_eq, exec_bind_ok (exec_openOrMinusOne_ok hopen),
    exec_bind_ok (exec_zero_check _ _ _),
    exec_bind_ok (exec_attemptElse_ok os hwrite), exec_bind_ok hclose, exec_pure]
  rw [← herrno₁]

theorem exec_rxcRxcWrite_error {fd : ℤ} {s' : Server σ} {m : σ} {e : ℕ+}
    (hopen : exec (openOrMinusOne os (translatePath path) oWronly) s = (.ok fd, s'))
    (hpwrite : os.perform (.pwrite fd wire.received offset.toNat) s'.os = (.error e, m)) :
    ∃ s'', exec (rxcRxcWrite os wire path offset) s = (.ok (-(e : ℕ)), s'') ∧
      s''.os = if 0 < fd then (os.perform (.close fd) m).2 else m := by
  obtain ⟨s'', hclose, hos⟩ := exec_closeIfPositive os fd
    (s'.record os (.pwrite fd wire.received offset.toNat))
  rw [os_record_of os hpwrite] at hos
  rw [rxcRxcWrite_eq, exec_bind_ok hopen, exec_bind_ok (exec_zero_check _ _ _),
    exec_bind_ok (exec_attemptElse_error os hpwrite), exec_bind_ok hclose, exec_pure]
  exact ⟨_, rfl, hos⟩

/-- The file is opened as `fd`, and `pwrite` takes the first `k` bytes. -/
def Takes (os : Os σ) (path : CString) (data : Str) (offset : ℕ) (m : σ) (fd k : ℕ) (m' : σ) :
    Prop :=
  ∃ (fd' : {fd : ℕ // fd < 2 ^ 31}) (m₁ : σ) (nbytes : {nbytes : ℕ // nbytes ≤ data.length}),
    os.perform (.openFile (translatePath path) oWronly) m = (.ok fd', m₁) ∧
      os.perform (.pwrite fd'.val data offset) m₁ = (.ok nbytes, m') ∧
      fd'.val = fd ∧ nbytes.val = k

theorem exec_rxcRxcWrite_of_takes {fd k : ℕ} {m : σ}
    (h : Takes os path wire.received offset.toNat s.os fd k m) :
    ∃ s', exec (rxcRxcWrite os wire path offset) s =
        (.ok (if fd = 0 then -(s.errno : ℤ) else wire.known), s') ∧
      s'.os = if 0 < fd then (os.perform (.close fd) m).2 else m := by
  obtain ⟨fd, m₁, nbytes, hopen, hpwrite, rfl, rfl⟩ := h
  obtain ⟨s', hs', hos'⟩ := exec_rxcRxcWrite_ok hopen hpwrite
  exact ⟨s', by simpa using hs', by simpa using hos'⟩

/-- The file cannot be opened, or `pwrite` fails. -/
def Refuses (os : Os σ) (path : CString) (data : Str) (offset : ℕ) (m m' : σ) : Prop :=
  (∃ e, os.perform (.openFile (translatePath path) oWronly) m = (.error e, m')) ∨
    ∃ (fd : {fd : ℕ // fd < 2 ^ 31}) (m₁ : σ) (e : ℕ+) (m₂ : σ),
      os.perform (.openFile (translatePath path) oWronly) m = (.ok fd, m₁) ∧
        os.perform (.pwrite fd.val data offset) m₁ = (.error e, m₂) ∧
          m' = if 0 < fd.val then (os.perform (.close fd.val) m₂).2 else m₂

/-- Where nothing was taken, there is an error to return. -/
theorem exec_rxcRxcWrite_of_not_takes
    (h : ∀ fd k m, ¬ Takes os path wire.received offset.toNat s.os fd k m) :
    ∃ (e : ℕ+) (s' : Server σ), exec (rxcRxcWrite os wire path offset) s = (.ok (-(e : ℕ)), s') ∧
      Refuses os path wire.received offset.toNat s.os s'.os := by
  rcases hopen : os.perform (.openFile (translatePath path) oWronly) s.os with ⟨e | fd, m⟩
  · have hos : (s.record os (.openFile (translatePath path) oWronly)).os = m :=
      os_record_of os hopen
    obtain ⟨e', he'⟩ := os.badf (.pwrite (-1) wire.received offset.toNat) (-1)
      (s.record os (.openFile (translatePath path) oWronly)).os rfl (by decide)
    obtain ⟨s', hs', hos'⟩ := exec_rxcRxcWrite_error (exec_openOrMinusOne_error hopen) he'
    rw [hos] at hos'
    exact ⟨e', s', hs', Or.inl ⟨e, by rw [hopen, hos']; rfl⟩⟩
  · have hos : (s.record os (.openFile (translatePath path) oWronly)).os = m :=
      os_record_of os hopen
    rcases hpwrite : os.perform (.pwrite fd.val wire.received offset.toNat) m with ⟨e | nbytes, m'⟩
    · obtain ⟨s', hs', hos'⟩ :=
        exec_rxcRxcWrite_error (exec_openOrMinusOne_ok hopen) (by rw [hos, hpwrite])
      exact ⟨e, s', hs', Or.inr ⟨fd, m, e, m', hopen, hpwrite, by simpa using hos'⟩⟩
    · exact absurd ⟨fd, m, nbytes, hopen, hpwrite, rfl, rfl⟩ (h fd nbytes m')

variable (os wire s path offset) in
theorem exec_rxcRxcWrite_cases :
    (∃ fd k m s', Takes os path wire.received offset.toNat s.os fd k m ∧
      exec (rxcRxcWrite os wire path offset) s =
        (.ok (if fd = 0 then -(s.errno : ℤ) else wire.known), s') ∧
      s'.os = if 0 < fd then (os.perform (.close fd) m).2 else m) ∨
    ∃ (e : ℕ+) (s' : Server σ), (∀ fd k m, ¬ Takes os path wire.received offset.toNat s.os fd k m) ∧
      exec (rxcRxcWrite os wire path offset) s = (.ok (-(e : ℕ)), s') ∧
      Refuses os path wire.received offset.toNat s.os s'.os := by
  by_cases h : ∃ fd k m, Takes os path wire.received offset.toNat s.os fd k m
  · obtain ⟨fd, k, m, htakes⟩ := h
    obtain ⟨s', hs', hos⟩ := exec_rxcRxcWrite_of_takes htakes
    exact Or.inl ⟨fd, k, m, s', htakes, hs', hos⟩
  · push Not at h
    obtain ⟨e, s', hs', hrefuses⟩ := exec_rxcRxcWrite_of_not_takes h
    exact Or.inr ⟨e, s', h, hs', hrefuses⟩

/-! ## The client -/

/-- A write of which nobody is told that it failed: `pwrite` has taken `k` bytes. -/
structure Unreported (os : Os σ) (u : Upload) (s : Server σ) (path : CString) (buffer : Str)
    (offset fd k : ℕ) (m : σ) : Prop where
  path_le : path.val.length ≤ mymaxpath
  start : u.start = 0
  encodes : u.encodes = true
  written : 0 < u.written
  finish : u.finish.val = 0
  takes : Takes os path (buffer.take u.received) offset s.os fd k m
  errno : fd = 0 → s.errno = 0
  serverError : fd ≠ 0 → u.received < buffer.length → u.serverError.val = 0

theorem announced_eq {buffer : Str} (h : buffer.length < 2 ^ 31) :
    announced buffer = buffer.length := by
  have hlen : (UInt32.ofNat buffer.length).toNat = buffer.length := by
    rw [UInt32.toNat_ofNat']
    omega
  rw [announced, toInt_toInt32 (by omega), hlen]

section Wire

variable {u : Upload} {buffer : Str}

theorem received_wire (hu : u.encodes = true) :
    (u.wire buffer.length buffer).received = buffer.take u.received := by
  simp [Upload.wire, Wire.received, hu, List.take_take, Nat.min_comm]

theorem known_wire (hu : u.encodes = true) : (u.wire buffer.length buffer).known =
    if u.received < buffer.length then u.serverError.val else 0 := by
  rw [Wire.known, received_wire hu]
  simp only [Upload.wire, hu, if_true, Option.getD_some, List.length_take, Option.isSome_some]
  split_ifs <;> first | rfl | omega

end Wire

section Write

variable {buffer : Str} {offset : ℕ} (fi : MyFileInfo) (c : Client (Server σ))

abbrev writeRequest (path : CString) (buffer : Str) (offset : ℕ) (fi : MyFileInfo) : Request :=
  .rxcWrite path (.ofNat buffer.length) (.ofNat offset) fi

theorem marshals_write : (writeRequest path buffer offset fi).Marshals ↔
    path.val.length ≤ mymaxpath :=
  Request.marshals_iff rfl

variable (os t path offset) in
theorem exec_xmpWrite (hlen : buffer.length < 2 ^ 31) :
    (exec (xmpWrite (overServer os t) path buffer offset fi) c).1 =
        .ok (writeOutcome buffer.length
          (upload os t (writeRequest path buffer offset fi) buffer.length buffer c.outside).1).ret ∧
      (exec (xmpWrite (overServer os t) path buffer offset fi) c).2.outside =
        (upload os t (writeRequest path buffer offset fi) buffer.length buffer c.outside).2 := by
  rw [performs_xmpWrite path buffer offset fi c, announced_eq hlen, Int.toNat_natCast,
    List.take_length]
  exact ⟨rfl, rfl⟩

variable (buffer) in
theorem upload_of_write {length code : ℤ} {data : Str} {s s' : Server σ}
    (hpath : path.val.length ≤ mymaxpath) (hstart : t.upload.start = 0)
    (h : exec (rxcRxcWrite os (t.upload.wire length data) path (.ofNat offset)) s.begin =
      (.ok code, s')) :
    ∃ call, upload os t (writeRequest path buffer offset fi) length data s = (call, s') ∧
      call.start = 0 ∧ call.encodes = t.upload.encodes ∧ call.written = t.upload.written ∧
      call.ended = (if code = 0 then t.upload.finish.val else code) ∧
      call.error = if t.upload.encodes = true ∧ 0 < t.upload.written then call.ended
        else t.upload.clientError.val := by
  have hserve := exec_codeOnly h
  exact ⟨_, upload_of_exec (i := ⟨writeRequest path buffer offset fi, _⟩) rfl
    ((marshals_write fi).mpr hpath) hstart hserve, rfl, rfl, rfl, rfl, rfl⟩

theorem exec_xmpWrite_of_unreported {fd k : ℕ} {m : σ} (hlen : buffer.length < 2 ^ 31)
    (hoffset : offset < 2 ^ 32)
    (h : Unreported os t.upload c.outside path buffer offset fd k m) :
    (exec (xmpWrite (overServer os t) path buffer offset fi) c).1 = .ok (buffer.length : ℤ) ∧
      (exec (xmpWrite (overServer os t) path buffer offset fi) c).2.outside.os =
        if 0 < fd then (os.perform (.close fd) m).2 else m := by
  have htakes : Takes os path (t.upload.wire buffer.length buffer).received
      (UInt32.ofNat offset).toNat c.outside.begin.os fd k m := by
    rw [received_wire h.encodes, UInt32.toNat_ofNat', Nat.mod_eq_of_lt hoffset]
    exact h.takes
  obtain ⟨s', hs', hos⟩ := exec_rxcRxcWrite_of_takes htakes
  have hcode : (if fd = 0 then -(c.outside.begin.errno : ℤ)
      else (t.upload.wire buffer.length buffer).known) = 0 := by
    rw [known_wire h.encodes]
    split_ifs with hfd hshort
    · simp [Server.begin, h.errno hfd]
    · exact h.serverError hfd hshort
    · rfl
  rw [hcode] at hs'
  obtain ⟨call, hup, hstart, hencodes, hwritten, hended, -⟩ :=
    upload_of_write buffer fi h.path_le h.start hs'
  obtain ⟨hret, hout⟩ := exec_xmpWrite os t path offset fi c hlen
  rw [hup] at hret hout
  rw [hret, hout, hos]
  have hpos := Int.not_le.mpr h.written
  simp [writeOutcome, hstart, hencodes, hwritten, hended, h.encodes, h.finish, hpos]

variable (os) in
/-- The code of the procedure is no count, and it is 0 only where nothing is known to be wrong. -/
theorem exists_write_code (u : Upload) (path : CString) (buffer : Str) (offset : ℕ) (s : Server σ)
    (hoffset : offset < 2 ^ 32) :
    ∃ code s', exec (rxcRxcWrite os (u.wire buffer.length buffer) path (.ofNat offset)) s.begin =
        (.ok code, s') ∧
      (u.encodes = true → code ≤ 0 ∧ (code = 0 → ∃ fd k m,
        Takes os path (buffer.take u.received) offset s.os fd k m ∧ (fd = 0 → s.errno = 0) ∧
          (fd ≠ 0 → u.received < buffer.length → u.serverError.val = 0))) := by
  have hoff : (UInt32.ofNat offset).toNat = offset := by
    rw [UInt32.toNat_ofNat', Nat.mod_eq_of_lt hoffset]
  rcases exec_rxcRxcWrite_cases os (u.wire buffer.length buffer) s.begin path (.ofNat offset) with
    ⟨fd, k, m, s', htakes, hs', -⟩ | ⟨e, s', -, hs', -⟩
  · refine ⟨_, s', hs', fun hu => ?_⟩
    rw [received_wire hu, hoff] at htakes
    rw [known_wire hu]
    have herror : u.serverError.val ≤ 0 := u.serverError.property
    constructor
    · split_ifs <;> omega
    · intro hzero
      refine ⟨fd, k, m, htakes, ?_, ?_⟩
      · intro hfd
        rw [if_pos hfd] at hzero
        have herrno : s.begin.errno = s.errno := rfl
        omega
      · intro hfd hshort
        rwa [if_neg hfd, if_pos hshort] at hzero
  · have he : 0 < (e : ℕ) := e.pos
    exact ⟨_, s', hs', fun _ => ⟨by omega, fun hzero => by omega⟩⟩

theorem ret_writeOutcome {n : ℤ} {call : Call}
    (h : call.start = 0 → call.encodes = true → 0 < call.written → call.ended ≠ 0) :
    (writeOutcome n call).ret = call.error := by
  unfold writeOutcome
  split_ifs with hstart hencodes hwritten hended
  · rfl
  · rfl
  · rfl
  · rfl
  · have hne := h (not_not.mp hstart) (eq_true_of_ne_false hencodes) (Int.not_le.mp hwritten)
    exact absurd hne hended

variable (os buffer offset) in
theorem upload_of_not_reached (length : ℤ) (data : Str) (s : Server σ)
    (h : ¬ (path.val.length ≤ mymaxpath ∧ t.upload.start = 0)) :
    ∃ call, upload os t (writeRequest path buffer offset fi) length data s = (call, s) ∧
      call.start ≠ 0 ∧ call.error = t.upload.clientError.val := by
  have hnot : ¬ ((writeRequest path buffer offset fi).Marshals ∧ t.upload.start = 0) := by
    rwa [marshals_write]
  rw [upload, if_neg hnot]
  refine ⟨_, rfl, ?_, rfl⟩
  dsimp only
  split_ifs with hq
  · exact fun hstart => hnot ⟨hq, hstart⟩
  · decide

theorem exec_xmpWrite_of_not_unreported (hlen : buffer.length < 2 ^ 31) (hoffset : offset < 2 ^ 32)
    (h : ∀ fd k m, ¬ Unreported os t.upload c.outside path buffer offset fd k m) :
    ∃ error ≤ 0, (exec (xmpWrite (overServer os t) path buffer offset fi) c).1 = .ok error := by
  obtain ⟨hret, -⟩ := exec_xmpWrite os t path offset fi c hlen
  refine ⟨_, ?_, hret⟩
  by_cases hreach : path.val.length ≤ mymaxpath ∧ t.upload.start = 0
  · obtain ⟨hpath, hstart⟩ := hreach
    obtain ⟨code, s', hs', hcode⟩ :=
      exists_write_code os t.upload path buffer offset c.outside hoffset
    obtain ⟨call, hup, -, hencodes, hwritten, hended, herror⟩ :=
      upload_of_write buffer fi hpath hstart hs'
    rw [hup]
    -- a call in which everything was sent ends with an error, or the write is unreported
    have hends : t.upload.encodes = true → 0 < t.upload.written → call.ended ≠ 0 := by
      intro hu hw hzero
      rw [hended] at hzero
      split_ifs at hzero with hcode'
      · obtain ⟨fd, k, m, htakes, herrno, hserver⟩ := (hcode hu).2 hcode'
        exact h fd k m ⟨hpath, hstart, hu, hw, hzero, htakes, herrno, hserver⟩
      · exact hcode' hzero
    have hret' : (writeOutcome buffer.length call).ret = call.error := by
      apply ret_writeOutcome
      rw [hencodes, hwritten]
      exact fun _ => hends
    rw [hret', herror]
    split_ifs with hsent
    · rw [hended]
      split_ifs
      · exact t.upload.finish.property
      · exact (hcode hsent.1).1
    · exact t.upload.clientError.property
  · obtain ⟨call, hup, hstart, herror⟩ :=
      upload_of_not_reached os buffer offset fi buffer.length buffer c.outside hreach
    rw [hup, ret_writeOutcome fun h => absurd h hstart, herror]
    exact t.upload.clientError.property

end Write

/-! ## Durability -/

/-- The files of a machine, by name and by descriptor. -/
structure Storage (os : Os σ) (ν : Type) where
  bytes : σ → ν → Str
  named : σ → CString → Option ν
  behind : σ → ℕ → Option ν
  open_ok : ∀ {path m fd m'}, os.perform (.openFile path oWronly) m = (.ok fd, m') →
    ∃ n, named m path = some n ∧ behind m' fd = some n ∧ bytes m' = bytes m ∧ named m' = named m
  pwrite_ok : ∀ {fd : ℕ} {data offset m nbytes m'},
    os.perform (.pwrite fd data offset) m = (.ok nbytes, m') → ∀ n, behind m fd = some n →
      bytes m' n = splice 0 (bytes m n) offset (data.take nbytes) ∧ named m' = named m
  close : ∀ (fd : ℕ) m, bytes (os.perform (.close fd) m).2 = bytes m ∧
    named (os.perform (.close fd) m).2 = named m

/-- If `xmp_write` returns the size of the buffer, then the file on the server holds the buffer at
the offset, and is otherwise as it was. -/
def Durable {os : Os σ} (st : Storage os ν) (t : Transport) (s : Server σ) (path : CString)
    (buffer : Str) (offset : ℕ) (fi : MyFileInfo) : Prop :=
  let done := exec (xmpWrite (overServer os t) path buffer offset fi) ⟨s, [], .untouched fun _ => 0⟩
  0 < buffer.length → done.1 = .ok (buffer.length : ℤ) →
    ∃ n, st.named s.os (translatePath path) = some n ∧
      st.named done.2.outside.os (translatePath path) = some n ∧
      st.bytes done.2.outside.os n = splice 0 (st.bytes s.os n) offset buffer

theorem Storage.closed (st : Storage os ν) (fd : ℕ) (m : σ) :
    st.bytes (if 0 < fd then (os.perform (.close fd) m).2 else m) = st.bytes m ∧
      st.named (if 0 < fd then (os.perform (.close fd) m).2 else m) = st.named m := by
  split_ifs
  · exact st.close _ _
  · exact ⟨rfl, rfl⟩

/-- What `pwrite` has taken is in the file once the descriptor is closed. -/
theorem bytes_of_takes (st : Storage os ν) {path : CString} {data : Str} {offset fd k : ℕ} {m m' : σ}
    (h : Takes os path data offset m fd k m') :
    ∃ n, st.named m (translatePath path) = some n ∧
      st.named (if 0 < fd then (os.perform (.close fd) m').2 else m') (translatePath path) = some n ∧
      st.bytes (if 0 < fd then (os.perform (.close fd) m').2 else m') n =
        splice 0 (st.bytes m n) offset (data.take k) := by
  obtain ⟨fd, m₁, nbytes, hopen, hpwrite, rfl, rfl⟩ := h
  obtain ⟨n, hnamed, hbehind, hbytes₁, hnamed₁⟩ := st.open_ok hopen
  obtain ⟨hbytes, hnamed'⟩ := st.pwrite_ok hpwrite n hbehind
  obtain ⟨hclosed, hclosed'⟩ := st.closed fd.val m'
  refine ⟨n, hnamed, ?_, ?_⟩
  · rw [hclosed', hnamed', hnamed₁, hnamed]
  · rw [hclosed, hbytes, hbytes₁]

theorem bytes_of_unreported (st : Storage os ν) {u : Upload} {path : CString} {buffer : Str}
    {offset fd k : ℕ} {m : σ} (h : Unreported os u s path buffer offset fd k m) :
    ∃ n, st.named s.os (translatePath path) = some n ∧
      st.named (if 0 < fd then (os.perform (.close fd) m).2 else m) (translatePath path) = some n ∧
      st.bytes (if 0 < fd then (os.perform (.close fd) m).2 else m) n =
        splice 0 (st.bytes s.os n) offset (buffer.take k) := by
  obtain ⟨n, hnamed, hnamed', hbytes⟩ := bytes_of_takes st h.takes
  have hle : k ≤ u.received := by
    obtain ⟨fd, m₁, nbytes, -, -, -, rfl⟩ := h.takes
    exact nbytes.property.trans (List.length_take_le _ _)
  rw [List.take_take, Nat.min_eq_left hle] at hbytes
  exact ⟨n, hnamed, hnamed', hbytes⟩

/-- A remote write is durable exactly if, where no failure is reported, the file held before what
`pwrite` did not take. -/
theorem durable_iff (st : Storage os ν) (t : Transport) (s : Server σ) (path : CString)
    (buffer : Str) (offset : ℕ) (fi : MyFileInfo) (hlen : buffer.length < 2 ^ 31)
    (hoffset : offset < 2 ^ 32) :
    Durable st t s path buffer offset fi ↔
      ∀ fd k m n, Unreported os t.upload s path buffer offset fd k m →
        st.named s.os (translatePath path) = some n →
          ∀ i, k ≤ i → i < buffer.length → (st.bytes s.os n)[offset + i]? = buffer[i]? := by
  constructor
  · intro hdurable fd k m n h hn i hk hi
    obtain ⟨hret, hos⟩ := exec_xmpWrite_of_unreported fi
      ⟨s, [], .untouched fun _ => 0⟩ hlen hoffset h
    obtain ⟨n₁, hn₁, -, hbytes⟩ := bytes_of_unreported st h
    obtain ⟨n₂, hn₂, -, hwhole⟩ := hdurable (by omega) hret
    obtain rfl := Option.some.inj (hn.symm.trans hn₁)
    obtain rfl := Option.some.inj (hn.symm.trans hn₂)
    rw [hos, hbytes] at hwhole
    exact splice_take_iff.mp hwhole i hk hi
  · intro hrest hpos hret
    by_cases h : ∃ fd k m, Unreported os t.upload s path buffer offset fd k m
    · obtain ⟨fd, k, m, h⟩ := h
      obtain ⟨-, hos⟩ := exec_xmpWrite_of_unreported fi
        ⟨s, [], .untouched fun _ => 0⟩ hlen hoffset h
      obtain ⟨n, hn, hn', hbytes⟩ := bytes_of_unreported st h
      refine ⟨n, hn, by rw [hos, hn'], ?_⟩
      rw [hos, hbytes]
      exact splice_take_iff.mpr (hrest fd k m n h hn)
    · push Not at h
      obtain ⟨error, hle, herror⟩ := exec_xmpWrite_of_not_unreported fi
        ⟨s, [], .untouched fun _ => 0⟩ hlen hoffset h
      have heq := Except.ok.inj (herror.symm.trans hret)
      omega

/-! ## The small machine -/

theorem lookup_map {α β : Type} [BEq α] [LawfulBEq α] (l : List (α × β)) (g : α → β → β) (a : α) :
    (l.map fun e => (e.1, g e.1 e.2)).lookup a = (l.lookup a).map (g a) := by
  induction l with
  | nil => rfl
  | cons e l ih =>
    obtain ⟨b, v⟩ := e
    rw [List.map_cons, List.lookup_cons, List.lookup_cons, ih]
    cases hab : a == b with
    | false => rfl
    | true =>
      obtain rfl := eq_of_beq hab
      rfl

def Disk.storage (limit : ℕ) : Storage (Disk.os limit) CString where
  bytes m path := (m.files.lookup path).getD []
  named m path := (m.files.lookup path).map fun _ => path
  behind m fd := m.behind fd
  open_ok := by
    intro path m fd m' h
    simp only [Disk.os, Disk.perform] at h
    split_ifs at h with hfile
    · obtain ⟨hfd, rfl⟩ := Prod.mk.inj h
      obtain rfl := Except.ok.inj hfd
      obtain ⟨f, hf⟩ := Option.isSome_iff_exists.mp hfile.1
      exact ⟨path, by rw [hf]; rfl, by simp [Disk.behind], rfl, rfl⟩
    · cases (Prod.mk.inj h).1
  pwrite_ok := by
    intro fd data offset m nbytes m' h n hn
    simp only [Disk.os, Disk.perform, hn] at h
    split at h
    · cases (Prod.mk.inj h).1
    · rename_i f hf
      obtain ⟨hnbytes, rfl⟩ := Prod.mk.inj h
      obtain rfl := Except.ok.inj hnbytes
      have htake : data.take (data.take (limit - offset)).length = data.take (limit - offset) := by
        rw [List.length_take, ← List.take_eq_take_min]
      have hfiles := lookup_map m.files
        fun path v => if path = n then splice 0 v offset (data.take (limit - offset)) else v
      constructor
      · simp only [hfiles, hf, htake, Option.map_some, Option.getD_some, if_true]
      · funext path
        simp only [hfiles, Option.map_map]
        rfl
  close := by
    intro fd m
    simp only [Disk.os, Disk.perform]
    split <;> exact ⟨rfl, rfl⟩

/-- Two bytes that are written to an empty file on a disk where one has room. -/
theorem durable_iff_small :
    Durable (Disk.storage 1) (.sound 2) (.start ⟨[(⟨str "/afs/a", by decide⟩, [])], [], []⟩ 0)
      ⟨str "/a", by decide⟩ [7, 7] 0 ⟨0, 0, 0⟩ ↔
    ∀ fd k m n, Unreported (Disk.os 1) (Transport.sound 2).upload
      (.start ⟨[(⟨str "/afs/a", by decide⟩, [])], [], []⟩ 0) ⟨str "/a", by decide⟩ [7, 7] 0 fd k m →
      (Disk.storage 1).named ⟨[(⟨str "/afs/a", by decide⟩, [])], [], []⟩
        (translatePath ⟨str "/a", by decide⟩) = some n →
        ∀ i, k ≤ i → i < 2 → ((Disk.storage 1).bytes ⟨[(⟨str "/afs/a", by decide⟩, [])], [], []⟩
          n)[0 + i]? = ([7, 7] : Str)[i]? :=
  durable_iff (Disk.storage 1) (.sound 2) (.start ⟨[(⟨str "/afs/a", by decide⟩, [])], [], []⟩ 0)
    ⟨str "/a", by decide⟩ [7, 7] 0 ⟨0, 0, 0⟩ (by decide) (by decide)

/-- Both are reported as written, and the file holds one. -/
theorem write_not_durable : ¬ ∀ (t : Transport) (s : Server Disk) (path : CString) (buffer : Str)
    (offset : ℕ) (fi : MyFileInfo), buffer.length < 2 ^ 31 → offset < 2 ^ 32 →
    Durable (Disk.storage 1) t s path buffer offset fi := by
  intro h
  obtain ⟨n, hn, -, hbytes⟩ := h (.sound 2) (.start ⟨[(⟨str "/afs/a", by decide⟩, [])], [], []⟩ 0)
    ⟨str "/a", by decide⟩ [7, 7] 0 ⟨0, 0, 0⟩ (by decide) (by decide) (by decide) rfl
  have hafs : (⟨str "/afs/a", by decide⟩ : CString) = n := Option.some.inj hn
  subst hafs
  exact absurd hbytes (by decide)

end M3Sec.Afsfuse
