import M3Sec.Afsfuse.Remote

/-! # Remote reads

The condition in `rxc_rxc_read` assigns the result of the comparison with -1 to the count, so
the count is 0 where the read succeeds, and no data is ever sent. The client takes a call that
ends without data for the end of the file, whether the read failed or not.
-/

namespace M3Sec.Afsfuse

open Fallible Memory

variable {σ : Type} {os : Os σ} {t : Transport} {s : Server σ}

section Server

variable {wire : Wire} {E : Empty → Server σ → Prop}

/-- Nothing was written to the call but, perhaps, a length. -/
def NoData (s : Server σ) : Prop := s.sent.data = []

theorem noData_sys (c : Syscall) : Ensures NoData (sys os c) (fun _ => NoData) E := fun _ h => h

theorem noData_rxWrite : Ensures (NoData (σ := σ)) (rxWrite wire []) (fun _ => NoData) E := by
  refine rxWrite_ensures wire fun s h => ?_
  change s.sent.data ++ ([] : Str).take wire.accepts = []
  rw [List.take_nil, List.append_nil]
  exact h

theorem noData_rxcRxcRead (path : CString) (size offset : UInt32) :
    Ensures NoData (rxcRxcRead os wire path size offset) (fun _ => NoData) E := by
  refine (openOrMinusOne_ensures os fun _ h => h).bind fun fd => Ensures.bind
    (Q := fun a s => NoData s ∧ a.2.1.take a.1 = []) ?pread fun a => Ensures.bind
      (Q := fun _ => NoData) (.ite ?write (.pure fun _ h => h.1)) fun _ =>
        (closeIfPositive_ensures os fun _ h => h).bind fun _ => .pure fun _ h => h
  case pread =>
    refine (noData_sys _).bind fun r => ?_
    cases r with
    | error e => exact minusErrno_ensures.bind fun _ => .pure fun _ h => ⟨h, rfl⟩
    | ok data => exact .pure fun _ h => ⟨h, List.take_zero⟩
  case write =>
    rintro s ⟨hs, ha⟩
    simp only [ha]
    exact ((xdrLong_ensures wire fun _ h => h).bind fun _ => noData_rxWrite.bind fun _ =>
      .pure fun _ h => h) s hs

theorem noData_after (path : CString) (size offset : UInt32) (fi : MyFileInfo) :
    NoData (s.after os ⟨.rxcRead path size offset fi, wire⟩) := by
  have h : Ensures NoData (serve os wire (.rxcRead path size offset fi)) (fun _ => NoData)
      (fun _ => NoData) := (noData_rxcRxcRead _ _ _).bind fun _ => .pure fun _ h => h
  exact h.state rfl

end Server

/-! ## The client -/

variable (os t s) in
theorem bytes_download (path : CString) (size offset : UInt32) (fi : MyFileInfo) :
    (download os t (.rxcRead path size offset fi) s).1.bytes = [] ∧
      (download os t (.rxcRead path size offset fi) s).1.last.val = 0 := by
  unfold download Call.bytes
  split_ifs
  · dsimp only
    split_ifs
    · rw [t.cut_flatMap, noData_after]
      exact ⟨rfl, rfl⟩
    · exact ⟨rfl, rfl⟩
  · exact ⟨rfl, rfl⟩

variable (os t) in
/-- `xmp_read` returns 0, and leaves the buffer as it is. -/
theorem exec_xmpRead (path : CString) (size offset : ℕ) (fi : MyFileInfo) (c : Client (Server σ)) :
    (exec (xmpRead (overServer os t) path size offset fi) c).1 = .ok 0 ∧
      (exec (xmpRead (overServer os t) path size offset fi) c).2.buffer = c.buffer := by
  obtain ⟨hbytes, hlast⟩ := bytes_download os t c.outside path (.ofNat size)
    (.ofNat offset) fi
  have hcall : ((overServer os t).split (.rxcRead path (.ofNat size) (.ofNat offset) fi) none
      c.outside).1 =
        (download os t (.rxcRead path (.ofNat size) (.ofNat offset) fi) c.outside).1 := rfl
  rw [performs_xmpRead path size offset fi c, hcall]
  generalize (download os t (.rxcRead path (.ofNat size) (.ofNat offset) fi) c.outside).1 = call
    at hbytes hlast ⊢
  unfold readOutcome
  by_cases hstart : call.start = 0
  · cases hheader : call.header <;> simp [hstart, hbytes, hlast]
  · simp [hstart]

/-! ## Reading -/

section Reads

variable (os : Os σ) (path : CString) (size offset : ℕ)

/-- On the server, the file is opened and the whole of the range is read. -/
def ReadsInFull (f : Str) (m : σ) : Prop :=
  path.val.length ≤ mymaxpath ∧ ∃ fd m' data m'',
    os.perform (.openFile (translatePath path) oRdonly) m = (.ok fd, m') ∧
      os.perform (.pread fd size offset) m' = (.ok data, m'') ∧ data.val = (f.drop offset).take size

def ReadFails (m : σ) : Prop :=
  path.val.length ≤ mymaxpath ∧
    ((∃ e m', os.perform (.openFile (translatePath path) oRdonly) m = (.error e, m')) ∨
      ∃ fd m' e m'', os.perform (.openFile (translatePath path) oRdonly) m = (.ok fd, m') ∧
        os.perform (.pread fd size offset) m' = (.error e, m''))

/-- What is read on the server comes into the buffer, and a failure is not reported as the end of
the file. -/
def IsRead (t : Transport) (f : Str) (fi : MyFileInfo) (s : Server σ) (cells : ℕ → UInt8) : Prop :=
  let got := exec (xmpRead (overServer os t) path size offset fi) ⟨s, [], .untouched cells⟩
  let n := min size (f.length - offset)
  (ReadsInFull os path size offset f s.os →
    got.1 = .ok (n : ℤ) ∧ got.2.buffer.read 0 n = (f.drop offset).take n) ∧
  (ReadFails os path size offset s.os → got.1 ≠ .ok 0)

/-- `xmp_read` is a read exactly if the server does not fail to read, and there is nothing to
read. -/
theorem isRead_iff (t : Transport) (f : Str) (fi : MyFileInfo) (s : Server σ) (cells : ℕ → UInt8) :
    IsRead os path size offset t f fi s cells ↔ ¬ ReadFails os path size offset s.os ∧
      (ReadsInFull os path size offset f s.os → size = 0 ∨ f.length ≤ offset) := by
  obtain ⟨hret, hbuffer⟩ := exec_xmpRead os t path size offset fi ⟨s, [], .untouched cells⟩
  unfold IsRead
  dsimp only
  rw [hret, hbuffer]
  constructor
  · rintro ⟨hfull, hfails⟩
    refine ⟨fun h => hfails h rfl, fun h => ?_⟩
    have hn := Except.ok.inj (hfull h).1
    omega
  · rintro ⟨hfails, hempty⟩
    refine ⟨fun h => ?_, fun h => absurd h hfails⟩
    have hn : min size (f.length - offset) = 0 := by
      have h' := hempty h
      omega
    rw [hn, List.take_zero]
    exact ⟨rfl, rfl⟩

end Reads

/-- A file with one byte is read, and the client sees none. -/
theorem read_not_isRead : ¬ ∀ (t : Transport) (path : CString) (size offset : ℕ) (f : Str)
    (fi : MyFileInfo) (s : Server Disk) (cells : ℕ → UInt8), size < 2 ^ 31 → offset < 2 ^ 32 →
    IsRead (Disk.os 0) path size offset t f fi s cells := by
  intro h
  have hread := (h (.sound 0) ⟨str "/a", by decide⟩ 1 0 [120] ⟨0, 0, 0⟩
    (.start ⟨[(⟨str "/afs/a", by decide⟩, [120])], [], []⟩ 0) (fun _ => 0) (by decide) (by decide)).1
  have hone : (Except.ok 0 : Except Goto ℤ) = .ok 1 :=
    (hread ⟨by decide, _, _, _, _, rfl, rfl, rfl⟩).1
  exact absurd (Except.ok.inj hone) (by decide)

end M3Sec.Afsfuse
