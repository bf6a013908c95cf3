import M3Sec.Afsfuse.Reading
import M3Sec.Afsfuse.Writing

/-! # Offsets, sizes and counts

FUSE passes offsets and sizes of 64 bits, and the parameters of the procedures have 32. What
does not fit is cut without an error, and the system call is made with what is left of it.
-/

namespace M3Sec.Afsfuse

open Fallible Memory

variable {σ ν : Type} {os : Os σ} {wire : Wire} {t : Transport} {s : Server σ} {m m' : σ}
  {path : CString} {offset : UInt32}

/-- What a system call is to read, write or cut. -/
inductive Transfer where
  | read (size offset : ℕ)
  | write (data : Str) (offset : ℕ)
  | truncate (path : CString) (size : ℕ)
  deriving DecidableEq

def Syscall.transfer : Syscall → Option Transfer
  | pread _ size offset => some (.read size offset)
  | pwrite _ data offset => some (.write data offset)
  | truncate path size => some (.truncate path size.toNat)
  | _ => none

def transfers (calls : List Syscall) : List Transfer := calls.filterMap Syscall.transfer

/-! ## The procedures -/

section Server

variable {l : List Transfer} {E : Empty → Server σ → Prop}

def Made (l : List Transfer) (s : Server σ) : Prop := transfers s.issued = l

theorem made_record {s : Server σ} (c : Syscall) (h : Made l s) :
    Made (l ++ c.transfer.toList) (s.record os c) := by
  change transfers (s.issued ++ [c]) = _
  unfold transfers
  rw [List.filterMap_append]
  cases hc : c.transfer with
  | none =>
    rw [List.filterMap_cons_none hc]
    exact congrArg (· ++ []) h
  | some x =>
    rw [List.filterMap_cons_some hc]
    exact congrArg (· ++ [x]) h

theorem made_record_none {s : Server σ} {c : Syscall} (hc : c.transfer = none) (h : Made l s) :
    Made l (s.record os c) := by
  have hs : Made (l ++ c.transfer.toList) (s.record os c) := made_record c h
  rwa [hc, Option.toList_none, List.append_nil] at hs

theorem made_sys (c : Syscall) :
    Ensures (Made l) (sys os c) (fun _ => Made (l ++ c.transfer.toList)) E :=
  fun _ h => made_record c h

theorem made_openOrMinusOne (path : CString) (flags : ℤ) :
    Ensures (Made l) (openOrMinusOne os path flags) (fun _ => Made l) E :=
  openOrMinusOne_ensures os fun _ => made_record_none rfl

theorem made_closeIfPositive (fd : ℤ) :
    Ensures (Made l) (closeIfPositive os fd) (fun _ => Made l) E :=
  closeIfPositive_ensures os fun _ => made_record_none rfl

theorem made_rxcRxcRead (path : CString) (size offset : UInt32) :
    Ensures (Made l) (rxcRxcRead os wire path size offset)
      (fun _ => Made (l ++ [.read size.toNat offset.toNat])) E := by
  refine (made_openOrMinusOne _ _).bind fun fd => Ensures.bind
    (Q := fun _ => Made (l ++ [.read size.toNat offset.toNat])) ?pread fun _ => Ensures.bind
      (Q := fun _ => Made (l ++ [.read size.toNat offset.toNat])) (.ite ?write (.pure fun _ h => h))
        fun _ => (made_closeIfPositive _).bind fun _ => .pure fun _ h => h
  case pread =>
    refine (made_sys _).bind fun r => ?_
    cases r with
    | error e => exact minusErrno_ensures.bind fun _ => .pure fun _ h => h
    | ok data => exact .pure fun _ h => h
  case write =>
    exact (xdrLong_ensures wire fun _ h => h).bind fun _ =>
      (rxWrite_ensures wire fun _ h => h).bind fun _ => .pure fun _ h => h

theorem made_rxcRxcWrite (path : CString) (offset : UInt32) :
    Ensures (Made l) (rxcRxcWrite os wire path offset)
      (fun _ => Made (l ++ [.write wire.received offset.toNat])) E := by
  rw [rxcRxcWrite_eq]
  refine (made_openOrMinusOne _ _).bind fun fd => Ensures.bind (Q := fun _ => Made l)
    (.ite minusErrno_ensures (.pure fun _ h => h)) fun error => Ensures.bind
      (Q := fun _ => Made (l ++ [.write wire.received offset.toNat])) ?pwrite fun _ =>
        (made_closeIfPositive _).bind fun _ => .pure fun _ h => h
  case pwrite =>
    refine (made_sys _).bind fun r => ?_
    cases r with
    | error e => exact minusErrno_ensures
    | ok nbytes => exact .pure fun _ h => h

end Server

/-! ## What passes on a transfer -/

/-- Files that a call which fails leaves as they are. -/
structure FileSystem (os : Os σ) (ν : Type) extends Storage os ν where
  failed : ∀ {c m e m'}, os.perform c m = (.error e, m') → bytes m' = bytes m

def FileSystem.Keeps (fs : FileSystem os ν) (path : CString) (m m' : σ) : Prop :=
  ∀ n, fs.named m (translatePath path) = some n → fs.bytes m' n = fs.bytes m n

abbrev before (m : σ) (errno : ℕ) : Client (Server σ) := ⟨.start m errno, [], .untouched fun _ => 0⟩

section Operations

variable (fs : FileSystem os ν) (t : Transport) (m : σ) (errno : ℕ)

/-- The transfer is made as it was asked for, or the client returns an error and the file is as
it was. -/
def PassesOn (op : Operation) (path : CString) (x : Transfer) : Prop :=
  let done := exec (op.run (overServer os t)) (before m errno)
  x ∈ transfers done.2.outside.issued ∨
    (∃ e < 0, done.1 = .ok e) ∧ fs.Keeps path m done.2.outside.os

variable {fs t m errno} in
theorem passesOn_iff {op : Operation} {x : Transfer} {ret : ℤ} {s : Server σ}
    (hret : (exec (op.run (overServer os t)) (before m errno)).1 = .ok ret)
    (hout : (exec (op.run (overServer os t)) (before m errno)).2.outside = s) :
    PassesOn fs t m errno op path x ↔
      x ∈ transfers s.issued ∨ (ret < 0 ∧ fs.Keeps path m s.os) := by
  unfold PassesOn
  dsimp only
  rw [hret, hout]
  apply or_congr_right
  apply and_congr_left'
  constructor
  · rintro ⟨e, he, hok⟩
    obtain rfl := Except.ok.inj hok
    exact he
  · exact fun h => ⟨ret, h, rfl⟩

theorem toNat_ofNat_eq_iff {n : ℕ} : (UInt32.ofNat n).toNat = n ↔ n < 2 ^ 32 := by
  rw [UInt32.toNat_ofNat']
  exact ⟨fun h => h ▸ Nat.mod_lt _ (Nat.two_pow_pos 32), Nat.mod_eq_of_lt⟩

theorem transfers_after {i : Incoming} {l : List Transfer}
    (h : Ensures (Made []) (serve os i.wire i.request) (fun _ => Made l) fun _ => Made l) :
    transfers ((Server.start m errno).after os i).issued = l := h.state rfl

/-! ## Reads -/

/-- `xmp_read` never returns an error. -/
theorem passesOn_read_iff (path : CString) (size offset : ℕ) (fi : MyFileInfo) :
    PassesOn fs t m errno (.read path size offset fi) path (.read size offset) ↔
      path.val.length ≤ mymaxpath ∧ size < 2 ^ 32 ∧ offset < 2 ^ 32 := by
  have hret : (exec ((Operation.read path size offset fi).run (overServer os t))
      (before m errno)).1 = .ok 0 := (exec_xmpRead os t path size offset fi (before m errno)).1
  have hout : (exec ((Operation.read path size offset fi).run (overServer os t))
      (before m errno)).2.outside =
        (download os t (.rxcRead path (.ofNat size) (.ofNat offset) fi) (.start m errno)).2 :=
    congrArg (fun r => r.2.outside) (performs_xmpRead path size offset fi (before m errno))
  rw [passesOn_iff hret hout]
  unfold download
  split_ifs with hq
  · have hmade : transfers ((Server.start m errno).after os
        ⟨.rxcRead path (.ofNat size) (.ofNat offset) fi, .deliver⟩).issued =
          [.read (UInt32.ofNat size).toNat (UInt32.ofNat offset).toNat] :=
      transfers_after m errno ((made_rxcRxcRead _ _ _).bind fun _ => .pure fun _ h => h)
    rw [hmade, List.mem_singleton, Transfer.read.injEq]
    constructor
    · rintro (⟨hsize, hoffset⟩ | ⟨hneg, -⟩)
      · exact ⟨(Request.marshals_iff rfl).mp hq, toNat_ofNat_eq_iff.mp hsize.symm,
          toNat_ofNat_eq_iff.mp hoffset.symm⟩
      · exact absurd hneg (Int.lt_irrefl 0)
    · rintro ⟨-, hsize, hoffset⟩
      exact Or.inl ⟨(toNat_ofNat_eq_iff.mpr hsize).symm, (toNat_ofNat_eq_iff.mpr hoffset).symm⟩
  · refine iff_of_false ?_ fun h => hq ((Request.marshals_iff rfl).mpr h.1)
    rintro (hmem | ⟨hneg, -⟩)
    · exact List.not_mem_nil hmem
    · exact absurd hneg (Int.lt_irrefl 0)

/-! ## Truncation -/

/-- The server truncates a file to a size of 32 bits. -/
theorem passesOn_truncate_iff (path : CString) (size : ℕ) :
    PassesOn fs t m errno (.truncate path size) path (.truncate (translatePath path) size) ↔
      (path.val.length ≤ mymaxpath → size < 2 ^ 32 ∨
        ∃ e m', os.perform (.truncate (translatePath path) (.ofNat size)) m = (.error e, m')) := by
  have hexec := @exec_status _ (overServer os t) (.rxcTruncate path (.ofNat size)) (before m errno)
  have hret : (exec ((Operation.truncate path size).run (overServer os t)) (before m errno)).1 =
      .ok (callServer os (.rxcTruncate path (.ofNat size)) (.start m errno)).1.code :=
    congrArg Prod.fst hexec
  have hout : (exec ((Operation.truncate path size).run (overServer os t))
      (before m errno)).2.outside =
        (callServer os (.rxcTruncate path (.ofNat size)) (.start m errno)).2 :=
    congrArg (fun r => r.2.outside) hexec
  rw [passesOn_iff hret hout]
  have hmarshals : (Request.rxcTruncate path (.ofNat size)).Marshals ↔
      path.val.length ≤ mymaxpath := Request.marshals_iff rfl
  by_cases hpath : path.val.length ≤ mymaxpath
  · have hq := hmarshals.mpr hpath
    rcases hperform : os.perform (.truncate (translatePath path) (.ofNat size)) m with ⟨e | _, m'⟩
    · have he : -((e : ℕ) : ℤ) < 0 := by
        have := e.pos
        omega
      have hserve : exec (rxcRxcTruncate os path (.ofNat size)) (Server.start m errno).begin =
          (.ok (-(e : ℕ)), _) := exec_attemptElse_error os hperform
      rw [callServer_error hq he.ne (exec_codeOnly hserve)]
      refine iff_of_true (Or.inr ⟨he, fun n _ => ?_⟩) fun _ => Or.inr ⟨e, m', rfl⟩
      rw [os_record_of os hperform, fs.failed hperform]
    · have hserve : exec (rxcRxcTruncate os path (.ofNat size)) (Server.start m errno).begin =
          (.ok 0, _) := exec_attemptElse_ok os hperform
      rw [callServer_ok hq (exec_codeOnly hserve)]
      constructor
      · rintro (hmem | ⟨hneg, -⟩) -
        · have heq := List.mem_singleton.mp hmem
          exact Or.inl (toNat_ofNat_eq_iff.mp (Transfer.truncate.inj heq).2.symm)
        · exact absurd hneg (Int.lt_irrefl 0)
      · intro h
        rcases h hpath with hsize | ⟨e, m'', herror⟩
        · have hnarrow := toNat_ofNat_eq_iff.mpr hsize
          refine Or.inl (List.mem_singleton.mpr ?_)
          rw [hnarrow]
        · cases (Prod.mk.inj herror).1
  · have hq := mt hmarshals.mp hpath
    rw [callServer_not_marshals hq]
    exact iff_of_true (Or.inr ⟨Int.negSucc_lt_zero _, fun _ _ => rfl⟩) fun h => absurd h hpath

/-! ## Writes -/

def Upload.writeWire (u : Upload) (buffer : Str) : Wire :=
  u.wire (announced buffer) (buffer.take (announced buffer).toNat)

/-- The server reads the whole buffer. From `2 ^ 31` bytes on another length is announced. -/
def Upload.Arrives (u : Upload) (buffer : Str) : Prop :=
  buffer = [] ∨ u.encodes = true ∧ buffer.length < 2 ^ 31 ∧ buffer.length ≤ u.received

theorem le_announced_iff {buffer : Str} :
    buffer.length ≤ (announced buffer).toNat ↔ buffer.length < 2 ^ 31 := by
  constructor
  · intro h
    have hlt : announced buffer < 2 ^ 31 := Int32.toInt_lt _
    omega
  · intro h
    rw [announced_eq h, Int.toNat_natCast]

theorem received_writeWire {u : Upload} {buffer : Str} : (u.writeWire buffer).received =
    if u.encodes = true then
      ((buffer.take (announced buffer).toNat).take u.received).take
        (rxCount u.negative (announced buffer))
    else [] := by
  cases hu : u.encodes <;> simp [Upload.writeWire, Upload.wire, Wire.received, hu]

theorem received_writeWire_iff {u : Upload} {buffer : Str} :
    (u.writeWire buffer).received = buffer ↔ u.Arrives buffer := by
  rw [received_writeWire, Upload.Arrives]
  cases buffer with
  | nil => simp
  | cons b bs =>
    split_ifs with hu
    · rw [List.take_take, List.take_take, List.take_eq_self_iff, le_min_iff, le_min_iff,
        le_announced_iff]
      constructor
      · rintro ⟨⟨-, hle⟩, hlt⟩
        exact Or.inr ⟨hu, hlt, hle⟩
      · rintro (hnil | ⟨-, hlt, hle⟩)
        · cases hnil
        · have hcount : (b :: bs).length ≤ rxCount u.negative (announced (b :: bs)) := by
            rw [announced_eq hlt, rxCount_natCast]
          exact ⟨⟨hcount, hle⟩, hlt⟩
    · simp [hu]

theorem known_writeWire {u : Upload} {buffer : Str} (hu : u.encodes = true) :
    (u.writeWire buffer).known =
      if ((u.writeWire buffer).received.length : ℤ) ≠ announced buffer then u.serverError.val
      else 0 := by
  have hheader : (u.writeWire buffer).header = some (announced buffer) := by
    simp [Upload.writeWire, Upload.wire, hu]
  rw [Wire.known, hheader]
  rfl

section Write

variable (u : Upload) (buffer : Str) (path : CString) (offset : ℕ)

variable (os) in
/-- The server takes `k` bytes of what it could read, at what is left of the offset. -/
abbrev Taken (fd k : ℕ) (m' : σ) : Prop :=
  Takes os path (u.writeWire buffer).received (offset % 2 ^ 32) m fd k m'

/-- An error is returned though the bytes were taken: the one of an earlier call, or that data
was lost. -/
def Noticed (fd : ℕ) : Prop :=
  if fd = 0 then errno ≠ 0
  else ((u.writeWire buffer).received.length : ℤ) ≠ announced buffer ∧ u.serverError.val ≠ 0

variable (os) in
def Reported : Prop :=
  if u.encodes = true ∧ 0 < u.written then
    announced buffer < 0 ∨ u.finish.val ≠ 0 ∨
      ∀ fd k m', Taken os m u buffer path offset fd k m' → Noticed errno u buffer fd
  else u.clientError.val ≠ 0

/-- The bytes that are taken were there before. -/
def Unharmed : Prop :=
  ∀ fd k m' n, Taken os m u buffer path offset fd k m' →
    fs.named m (translatePath path) = some n →
      splice 0 (fs.bytes m n) (offset % 2 ^ 32) ((u.writeWire buffer).received.take k) =
        fs.bytes m n

/-- A write does what it should, or is seen not to. -/
def WriteFits : Prop :=
  if path.val.length ≤ mymaxpath ∧ u.start = 0 then
    u.Arrives buffer ∧ offset < 2 ^ 32 ∨
      Reported os m errno u buffer path offset ∧ Unharmed fs m u buffer path offset
  else u.clientError.val ≠ 0

end Write

theorem takes_unique {path : CString} {data : Str} {offset fd fd' k k' : ℕ} {m₁ m₂ : σ}
    (h : Takes os path data offset m fd k m₁) (h' : Takes os path data offset m fd' k' m₂) :
    fd' = fd ∧ k' = k ∧ m₂ = m₁ := by
  obtain ⟨fd, m', nbytes, hopen, hpwrite, rfl, rfl⟩ := h
  obtain ⟨fd', m'', nbytes', hopen', hpwrite', rfl, rfl⟩ := h'
  obtain ⟨hfd, rfl⟩ := Prod.mk.inj (hopen'.symm.trans hopen)
  obtain rfl := Except.ok.inj hfd
  obtain ⟨hnbytes, rfl⟩ := Prod.mk.inj (hpwrite'.symm.trans hpwrite)
  obtain rfl := Except.ok.inj hnbytes
  exact ⟨rfl, rfl, rfl⟩

theorem FileSystem.keeps_of_refuses {path : CString} {data : Str} {offset : ℕ}
    (h : Refuses os path data offset m m') : fs.Keeps path m m' := by
  intro n _
  rcases h with ⟨e, hopen⟩ | ⟨fd, m₁, e, m₂, hopen, hpwrite, rfl⟩
  · rw [fs.failed hopen]
  · obtain ⟨-, -, -, hbytes, -⟩ := fs.open_ok hopen
    rw [(fs.closed fd.val m₂).1, fs.failed hpwrite, hbytes]

theorem unharmed_iff_of_taken {u : Upload} {buffer : Str} {path : CString} {offset fd k : ℕ}
    (h : Taken os m u buffer path offset fd k m') :
    fs.Keeps path m (if 0 < fd then (os.perform (.close fd) m').2 else m') ↔
      Unharmed fs m u buffer path offset := by
  obtain ⟨n, hnamed, -, hbytes⟩ := bytes_of_takes fs.toStorage h
  constructor
  · intro hkeeps fd' k' m'' n' htaken hn'
    obtain ⟨rfl, rfl, rfl⟩ := takes_unique m h htaken
    obtain rfl := Option.some.inj (hnamed.symm.trans hn')
    exact hbytes.symm.trans (hkeeps n hnamed)
  · intro hunharmed n' hn'
    obtain rfl := Option.some.inj (hnamed.symm.trans hn')
    exact hbytes.trans (hunharmed fd k m' n h hnamed)

theorem exists_write_result (u : Upload) (buffer : Str) (path : CString) (offset : ℕ) :
    ∃ code s', exec (rxcRxcWrite os (u.writeWire buffer) path (.ofNat offset))
        (Server.start m errno).begin = (.ok code, s') ∧
      (u.encodes = true → code ≤ 0 ∧ (code ≠ 0 ↔
        ∀ fd k m', Taken os m u buffer path offset fd k m' → Noticed errno u buffer fd)) ∧
      (fs.Keeps path m s'.os ↔ Unharmed fs m u buffer path offset) := by
  let s := (Server.start m errno).begin
  have hoff : (UInt32.ofNat offset).toNat = offset % 2 ^ 32 := UInt32.toNat_ofNat'
  rcases exec_rxcRxcWrite_cases os (u.writeWire buffer) s path (.ofNat offset) with
    ⟨fd, k, m', s', htaken, hs', hos⟩ | ⟨e, s', hnot, hs', hrefuses⟩
  · rw [hoff] at htaken
    refine ⟨_, s', hs', fun hu => ?_, ?_⟩
    · have herror : u.serverError.val ≤ 0 := u.serverError.property
      have hnoticed : (∀ fd k m', Taken os m u buffer path offset fd k m' →
          Noticed errno u buffer fd) ↔ Noticed errno u buffer fd := by
        refine ⟨fun hall => hall fd k m' htaken, fun hfd fd' k' m'' htaken' => ?_⟩
        obtain ⟨rfl, -, -⟩ := takes_unique m htaken htaken'
        exact hfd
      have herrno : s.errno = errno := rfl
      rw [hnoticed, known_writeWire hu, herrno]
      unfold Noticed
      split_ifs <;> constructor <;> omega
    · rw [hos]
      exact unharmed_iff_of_taken fs m htaken
  · rw [hoff] at hnot
    have he : 0 < (e : ℕ) := e.pos
    refine ⟨_, s', hs', fun _ => ⟨by omega, iff_of_true (by omega) fun fd k m' ht => ?_⟩, ?_⟩
    · exact absurd ht (hnot fd k m')
    · refine iff_of_true (fs.keeps_of_refuses m hrefuses) fun fd k m' n ht => ?_
      exact absurd ht (hnot fd k m')

theorem ret_write_neg_iff {n code finish clientError : ℤ} {call : Call} (hstart : call.start = 0)
    (hended : call.ended = if code = 0 then finish else code)
    (herror : call.error =
      if call.encodes = true ∧ 0 < call.written then call.ended else clientError)
    (hfinish : finish ≤ 0) (hclient : clientError ≤ 0) (hcode : call.encodes = true → code ≤ 0) :
    (writeOutcome n call).ret < 0 ↔
      if call.encodes = true ∧ 0 < call.written then n < 0 ∨ finish ≠ 0 ∨ code ≠ 0
      else clientError ≠ 0 := by
  by_cases hsent : call.encodes = true ∧ 0 < call.written
  · rw [if_pos hsent] at herror ⊢
    obtain ⟨hencodes, hwritten⟩ := hsent
    have hcode' := hcode hencodes
    by_cases hzero : call.ended = 0
    · have hret : (writeOutcome n call).ret = n := by
        simp [writeOutcome, hstart, hencodes, hzero, Int.not_le.mpr hwritten]
      rw [hret]
      rw [hzero] at hended
      split_ifs at hended <;> omega
    · have hret : (writeOutcome n call).ret = call.ended := by
        rw [ret_writeOutcome fun _ _ _ => hzero, herror]
      rw [hret]
      split_ifs at hended <;> omega
  · rw [if_neg hsent] at herror ⊢
    have hret : (writeOutcome n call).ret = clientError := by
      rw [ret_writeOutcome fun _ hencodes hwritten => absurd ⟨hencodes, hwritten⟩ hsent, herror]
    rw [hret]
    exact ⟨fun hneg => hneg.ne, fun hne => lt_of_le_of_ne hclient hne⟩

theorem passesOn_write_iff (path : CString) (buffer : Str) (offset : ℕ) (fi : MyFileInfo) :
    PassesOn fs t m errno (.write path buffer offset fi) path (.write buffer offset) ↔
      WriteFits fs m errno t.upload buffer path offset := by
  let c : Client (Server σ) := before m errno
  let q := writeRequest path buffer offset fi
  let up := upload os t q (announced buffer) (buffer.take (announced buffer).toNat) c.outside
  have hexec := @performs_xmpWrite _ (overServer os t) path buffer offset fi c
  have hret : (exec ((Operation.write path buffer offset fi).run (overServer os t)) c).1 =
      .ok (writeOutcome (announced buffer) up.1).ret := congrArg Prod.fst hexec
  have hout : (exec ((Operation.write path buffer offset fi).run (overServer os t)) c).2.outside =
      up.2 := congrArg (fun r => r.2.outside) hexec
  rw [passesOn_iff hret hout]
  have hclient : t.upload.clientError.val ≤ 0 := t.upload.clientError.property
  unfold WriteFits
  split_ifs with hreach
  · obtain ⟨code, s', hs', hcode, hkeeps⟩ :=
      exists_write_result fs m errno t.upload buffer path offset
    obtain ⟨call, hup, hstart, hencodes, hwritten, hended, herror⟩ :=
      upload_of_write buffer fi hreach.1 hreach.2 hs'
    have hup' : up = (call, s') := hup
    rw [hup']
    apply or_congr
    · have hafter : s' = (Server.start m errno).after os ⟨q, t.upload.writeWire buffer⟩ :=
        (after_eq os (i := ⟨q, t.upload.writeWire buffer⟩) (exec_codeOnly hs')).2.symm
      have hmade : transfers s'.issued =
          [.write (t.upload.writeWire buffer).received (UInt32.ofNat offset).toNat] := by
        rw [hafter]
        exact transfers_after m errno ((made_rxcRxcWrite _ _).bind fun _ => .pure fun _ h => h)
      rw [hmade, List.mem_singleton, Transfer.write.injEq, eq_comm, received_writeWire_iff, eq_comm,
        toNat_ofNat_eq_iff]
    · rw [hkeeps]
      apply and_congr_left'
      rw [← hencodes, ← hwritten] at herror
      rw [ret_write_neg_iff hstart hended herror t.upload.finish.property hclient
        fun hu => (hcode (hencodes ▸ hu)).1, hencodes, hwritten]
      unfold Reported
      split_ifs with hsent
      · rw [(hcode hsent.1).2]
      · exact Iff.rfl
  · obtain ⟨call, hup, hstart, herror⟩ := upload_of_not_reached os buffer offset fi
      (announced buffer) (buffer.take (announced buffer).toNat) c.outside hreach
    have hup' : up = (call, c.outside) := hup
    rw [hup', ret_writeOutcome fun h => absurd h hstart, herror]
    constructor
    · rintro (hmem | ⟨hneg, -⟩)
      · exact absurd hmem List.not_mem_nil
      · exact hneg.ne
    · exact fun hne => Or.inr ⟨lt_of_le_of_ne hclient hne, fun _ _ => rfl⟩

/-! ## Counts -/

def Statfs.counts {count : Type} (st : Statfs count) : List count :=
  [st.f_blocks, st.f_bfree, st.f_bavail, st.f_files, st.f_ffree]

theorem counts_map {α β : Type} (g : α → β) (st : Statfs α) :
    (st.map g).counts = st.counts.map g := rfl

theorem counts_narrowed_iff {stbuf : Statfs ℕ} :
    ((stbuf.map UInt32.ofNat).map UInt32.toNat).counts = stbuf.counts ↔
      ∀ count ∈ stbuf.counts, count < 2 ^ 32 := by
  rw [counts_map, counts_map, List.map_map]
  nth_rewrite 2 [← List.map_id stbuf.counts]
  rw [List.map_inj_left]
  exact forall₂_congr fun _ _ => toNat_ofNat_eq_iff

variable (os) in
def ReportsCounts (path : CString) (st : MyStatfs) : Prop :=
  let done := exec (xmpStatfs (overServer os t) path st) (before m errno)
  ∀ stbuf m', .statfs (translatePath path) ∈ done.2.outside.issued →
    os.perform (.statfs (translatePath path)) m = (.ok stbuf, m') →
      ∃ res reported, done.1 = .ok (res, reported) ∧ reported.counts = stbuf.counts

theorem exec_rxcRxcStatfs_ok {s : Server σ} {stbuf : Statfs ℕ}
    (h : os.perform (.statfs (translatePath path)) s.os = (.ok stbuf, m')) :
    exec (rxcRxcStatfs os path) s =
      (.ok (0, stbuf.map UInt32.ofNat), s.record os (.statfs (translatePath path))) := by
  rw [rxcRxcStatfs, exec_bind_ok (exec_sys_of os h)]
  rfl

variable (os) in
theorem exec_xmpStatfs (path : CString) (st : MyStatfs) (c : Client (Server σ)) :
    let replied := callServer os (.rxcStatfs path) c.outside
    (exec (xmpStatfs (overServer os t) path st) c).1 =
        .ok (replied.1.code, (replied.1.received.getD st).map UInt32.toNat) ∧
      (exec (xmpStatfs (overServer os t) path st) c).2.outside = replied.2 := by
  rw [xmpStatfs, exec_bind_ok (exec_remote _ _)]
  exact ⟨rfl, rfl⟩

/-- The server cuts the counts to 32 bits, and the client cannot tell. -/
theorem reportsCounts_iff (path : CString) (st : MyStatfs) :
    ReportsCounts os t m errno path st ↔
      (path.val.length ≤ mymaxpath → ∀ stbuf m',
        os.perform (.statfs (translatePath path)) m = (.ok stbuf, m') →
          ∀ count ∈ stbuf.counts, count < 2 ^ 32) := by
  obtain ⟨hret, hout⟩ := exec_xmpStatfs os t path st (before m errno)
  unfold ReportsCounts
  dsimp only
  rw [hret, hout]
  by_cases hpath : path.val.length ≤ mymaxpath
  · have hcall {stbuf : Statfs ℕ} {m' : σ}
        (h : os.perform (.statfs (translatePath path)) m = (.ok stbuf, m')) :
        callServer os (.rxcStatfs path) (Server.start m errno) = (.ok (stbuf.map UInt32.ofNat),
          (Server.start m errno).begin.record os (.statfs (translatePath path))) :=
      callServer_ok ((Request.marshals_iff rfl).mpr hpath) (exec_rxcRxcStatfs_ok h)
    constructor
    · intro h _ stbuf m' hstatfs
      rw [hcall hstatfs] at h
      obtain ⟨res, reported, hok, hcounts⟩ := h stbuf m' (List.mem_singleton_self _) hstatfs
      obtain ⟨-, rfl⟩ := Prod.mk.inj (Except.ok.inj hok)
      exact counts_narrowed_iff.mp hcounts
    · intro h stbuf m' _ hstatfs
      rw [hcall hstatfs]
      exact ⟨_, _, rfl, counts_narrowed_iff.mpr (h hpath stbuf m' hstatfs)⟩
  · rw [callServer_not_marshals (mt (Request.marshals_iff rfl).mp hpath)]
    exact iff_of_true (fun _ _ hmem _ => absurd hmem List.not_mem_nil) fun h => absurd h hpath

/-! ## The operations -/

/-- What an operation does where an offset, a size or a count may be cut. -/
def Unnarrowed : Operation → Prop
  | .read path size offset fi =>
    PassesOn fs t m errno (.read path size offset fi) path (.read size offset)
  | .write path buffer offset fi =>
    PassesOn fs t m errno (.write path buffer offset fi) path (.write buffer offset)
  | .truncate path size =>
    PassesOn fs t m errno (.truncate path size) path (.truncate (translatePath path) size)
  | .statfs path st => ReportsCounts os t m errno path st
  | _ => True

/-- What is passed has 32 bits, and can be passed at all. -/
def Fits : Operation → Prop
  | .read path size offset _ =>
    path.val.length ≤ mymaxpath ∧ size < 2 ^ 32 ∧ offset < 2 ^ 32
  | .write path buffer offset _ => WriteFits fs m errno t.upload buffer path offset
  | .truncate path size => path.val.length ≤ mymaxpath → size < 2 ^ 32 ∨
    ∃ e m', os.perform (.truncate (translatePath path) (.ofNat size)) m = (.error e, m')
  | .statfs path _ => path.val.length ≤ mymaxpath → ∀ stbuf m',
    os.perform (.statfs (translatePath path)) m = (.ok stbuf, m') →
      ∀ count ∈ stbuf.counts, count < 2 ^ 32
  | _ => True

/-- Nothing is cut silently exactly if it fits. -/
theorem unnarrowed_iff (op : Operation) :
    Unnarrowed fs t m errno op ↔ Fits fs t m errno op := by
  cases op with
  | read path size offset fi => exact passesOn_read_iff fs t m errno path size offset fi
  | write path buffer offset fi => exact passesOn_write_iff fs t m errno path buffer offset fi
  | truncate path size => exact passesOn_truncate_iff fs t m errno path size
  | statfs path st => exact reportsCounts_iff t m errno path st
  | _ => exact Iff.rfl

end Operations

/-! ## The small machine -/

theorem Disk.perform_error {limit : ℕ} {c : Syscall} {d d' : Disk} {e : ℕ+}
    (h : d.perform limit c = (.error e, d')) : d' = d := by
  cases c with
  | opendir path => cases (Prod.mk.inj h).1
  | openFile path flags =>
    simp only [perform] at h
    split_ifs at h
    · cases (Prod.mk.inj h).1
    · exact (Prod.mk.inj h).2.symm
  | pwrite fd data offset =>
    simp only [perform] at h
    split at h
    · exact (Prod.mk.inj h).2.symm
    · split at h
      · exact (Prod.mk.inj h).2.symm
      · cases (Prod.mk.inj h).1
  | pread fd size offset | close fd | symlink source target | readlink path size =>
    simp only [perform] at h
    split at h <;> first | exact (Prod.mk.inj h).2.symm | cases (Prod.mk.inj h).1
  | _ => exact (Prod.mk.inj h).2.symm

def Disk.fileSystem (limit : ℕ) : FileSystem (Disk.os limit) CString where
  toStorage := Disk.storage limit
  failed h := congrArg (Disk.storage limit).bytes (Disk.perform_error h)

/-- A byte for the offset `2 ^ 32` comes to be the first of the file, and is reported as
written. -/
theorem write_not_unnarrowed : ¬ ∀ (t : Transport) (m : Disk) (errno : ℕ) (op : Operation),
    Unnarrowed (Disk.fileSystem (2 ^ 33)) t m errno op := by
  intro h
  have hpasses := h (.sound 1) ⟨[(⟨str "/afs/a", by decide⟩, [1])], [], []⟩ 0
    (.write ⟨str "/a", by decide⟩ [7] (2 ^ 32) ⟨0, 0, 0⟩)
  rcases hpasses with hmem | ⟨⟨e, he, hret⟩, -⟩
  · have hmoved : Transfer.write [7] (2 ^ 32) ∈ [Transfer.write [7] 0] := hmem
    exact absurd hmoved (by decide)
  · obtain rfl : (1 : ℤ) = e := Except.ok.inj hret
    exact absurd he (by decide)

end M3Sec.Afsfuse
