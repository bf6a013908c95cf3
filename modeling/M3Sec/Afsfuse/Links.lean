import M3Sec.Afsfuse.Remote

/-! # Symbolic links

The server translates the target of a link that it makes, but not the contents of a link that
it reads: the client gets the target with `/afs` before it.
-/

namespace M3Sec.Afsfuse

open Fallible Memory

variable {σ ρ : Type} {os : Os σ} {t : Transport} {s s' : Server σ} {source target path : CString}

/-- A link that was made can be read into 511 bytes, and contains the target that it was made
with. -/
structure KeepsLinks (os : Os σ) : Prop where
  readlink : ∀ {source target m m' r}, os.perform (.symlink source target) m = (.ok r, m') →
    ∃ contents m'', os.perform (.readlink target 511) m' = (.ok contents, m'') ∧
      contents.val = source.val.take 511

/-- If a link is made, it can be read after that, and what comes into the buffer is the target
that the client gave. -/
def RoundTrips (os : Os σ) (t : Transport) (s : Server σ) (target link : CString) (size : ℕ)
    (cells : ℕ → UInt8) : Prop :=
  let made := exec (xmpSymlink (overServer os t) target link) ⟨s, [], .untouched cells⟩
  let got := exec (xmpReadlink (overServer os t) link size) ⟨made.2.outside, [], .untouched cells⟩
  made.1 = .ok 0 →
    got.1 = .ok 0 ∧ got.2.buffer.read 0 (target.val.length + 1) = target.val ++ [0]

/-- The name of the link is too long to be sent, or the system call fails. -/
def LinkFails (os : Os σ) (s : Server σ) (target link : CString) : Prop :=
  mymaxpath < link.val.length ∨
    ∃ e m, os.perform (.symlink (translatePath target) (translatePath link)) s.os = (.error e, m)

theorem callServer_symlink_error (h : LinkFails os s source target) :
    (callServer os (.rxcSymlink source target) s).1.code ≠ 0 := by
  by_cases hq : (Request.rxcSymlink source target).Marshals
  · rcases h with hlong | ⟨e, m, hperform⟩
    · have htarget : target.val.length ≤ mymaxpath := hq _ (by simp [Request.paths])
      omega
    · have hrun : exec (serve os .deliver (.rxcSymlink source target)) s.begin = _ :=
        exec_codeOnly (exec_attemptElse_error (s := s.begin) os hperform)
      rw [callServer_error hq (by simp) hrun]
      simp [Reply.code]
  · rw [callServer_not_marshals hq]
    simp [Reply.code, rxgenCcMarshal]

theorem callServer_symlink_ok (h : ¬ LinkFails os s source target)
    (hsource : source.val.length ≤ mymaxpath) :
    ∃ r m s', os.perform (.symlink (translatePath source) (translatePath target)) s.os =
        (.ok r, m) ∧
      callServer os (.rxcSymlink source target) s = (.ok (), s') ∧ s'.os = m := by
  unfold LinkFails at h
  push Not at h
  have hq : (Request.rxcSymlink source target).Marshals := by
    intro path hp
    rcases List.mem_pair.mp hp with rfl | rfl
    · exact hsource
    · exact h.1
  rcases hperform : os.perform (.symlink (translatePath source) (translatePath target)) s.os with
    ⟨e | r, m⟩
  · exact absurd hperform (h.2 e m)
  · have hrun : exec (serve os .deliver (.rxcSymlink source target)) s.begin = _ :=
      exec_codeOnly (exec_attemptElse_ok (s := s.begin) os hperform)
    exact ⟨r, m, _, rfl, callServer_ok hq hrun, os_record_of (s := s.begin) os hperform⟩

theorem callServer_readlink_ok {size : UInt32}
    {contents : {contents : Str // contents.length ≤ 511}}
    {m : σ} (hpath : path.val.length ≤ mymaxpath)
    (h : os.perform (.readlink (translatePath path) 511) s.os = (.ok contents, m)) :
    (callServer os (.rxcReadlink path size) s).1 = .ok (toCString contents.val) := by
  have hq : (Request.rxcReadlink path size).Marshals := by
    simpa [Request.Marshals, Request.paths] using hpath
  have hrun : exec (serve os .deliver (.rxcReadlink path size)) s.begin =
      (.ok (0, toCString contents.val), s.begin.record os (.readlink (translatePath path) 511)) := by
    rw [serve, rxcRxcReadlink, exec_bind_ok (exec_sys_of (s := s.begin) os h)]
    rfl
  rw [callServer_ok hq hrun]

theorem toCString_kept (htarget : target.val.length ≤ 500) :
    (toCString ((translatePath target).val.take 511)).val = str "/afs" ++ target.val := by
  have hlen : (translatePath target).val.length ≤ 511 := by
    change (str "/afs" ++ target.val).length ≤ 511
    rw [List.length_append]
    change 4 + _ ≤ _
    omega
  rw [List.take_of_length_le hlen]
  exact cstr_of_nulFree (translatePath target).property

theorem cells_xmpReadlink (t : Transport) (size : ℕ) (c : Client (Server σ)) {i : ℕ}
    {contents : CString}
    (hcall : (callServer os (.rxcReadlink path 512) c.outside).1 = .ok contents)
    (hi : i < contents.val.length) (hlt : i < 511) :
    (exec (xmpReadlink (overServer os t) path size) c).2.buffer.cells i = contents.val[i] := by
  have hreply : ((overServer os t).call (.rxcReadlink path 512) c.outside).1 = .ok contents := hcall
  rw [exec_xmpReadlink, hreply]
  have hlen : i < ((contents.val ++ List.replicate 511 0).take 511).length := by
    rw [List.length_take, List.length_append]
    omega
  have hcell := Region.cells_store
    (m := c.buffer.store 0 (List.replicate size 0)) (p := 0) hlen
  rw [Nat.zero_add] at hcell
  refine hcell.trans ?_
  rw [List.getElem_take, List.getElem_append_left hi]

variable (os t) in
theorem exec_xmpSymlink (target link : CString) (c : Client (Server σ)) :
    (exec (xmpSymlink (overServer os t) target link) c).1 =
        .ok (callServer os (.rxcSymlink target link) c.outside).1.code ∧
      (exec (xmpSymlink (overServer os t) target link) c).2.outside =
        (callServer os (.rxcSymlink target link) c.outside).2 := by
  rw [xmpSymlink, exec_status]
  exact ⟨rfl, rfl⟩

theorem roundTrips_of_linkFails (size : ℕ) (cells : ℕ → UInt8) (h : LinkFails os s target path) :
    RoundTrips os t s target path size cells := by
  rintro hmade
  rw [(exec_xmpSymlink os t target path _).1] at hmade
  exact absurd (Except.ok.inj hmade) (callServer_symlink_error h)

/-- Where the target ends with a NUL, the last characters of what the link contains still come. -/
theorem not_roundTrips_of_made (hos : KeepsLinks os) (size : ℕ) (cells : ℕ → UInt8)
    (htarget : target.val.length ≤ 500) (h : ¬ LinkFails os s target path) :
    ¬ RoundTrips os t s target path size cells := by
  have hlong : target.val.length ≤ mymaxpath := htarget.trans (by decide)
  have hpath : path.val.length ≤ mymaxpath := Nat.not_lt.mp fun hlt => h (Or.inl hlt)
  obtain ⟨r, m, s', hperform, hcall, hm⟩ := callServer_symlink_ok h hlong
  obtain ⟨contents, m', hread, hcontents⟩ := hos.readlink hperform
  have hwhole : (toCString contents.val).val = str "/afs" ++ target.val := by
    rw [hcontents, toCString_kept htarget]
  obtain ⟨hret, hout⟩ := exec_xmpSymlink os t target path ⟨s, [], .untouched cells⟩
  rintro hround
  obtain ⟨-, hbuffer⟩ := hround (by rw [hret, hcall]; rfl)
  rw [hout, hcall] at hbuffer
  have hreply : (callServer os (.rxcReadlink path 512) s').1 = .ok (toCString contents.val) :=
    callServer_readlink_ok hpath (by rw [hm]; exact hread)
  have hlt : target.val.length < (toCString contents.val).val.length := by
    rw [hwhole, List.length_append]
    exact Nat.lt_add_of_pos_left (by decide)
  have hcell : (exec (xmpReadlink (overServer os t) path size)
      ⟨s', [], .untouched cells⟩).2.buffer.cells target.val.length =
        (toCString contents.val).val[target.val.length] :=
    cells_xmpReadlink t size ⟨s', [], .untouched cells⟩ hreply hlt (by omega)
  have hzero := congrArg (·[target.val.length]?) hbuffer
  simp only [Region.getElem?_read (Nat.lt_succ_self _), Nat.zero_add, hcell,
    List.getElem?_concat_length, Option.some.injEq] at hzero
  have hmem := List.getElem_mem hlt
  rw [hzero] at hmem
  exact (toCString contents.val).property hmem

/-- A link can be read as it was made exactly if it was not made. -/
theorem roundTrips_iff (hos : KeepsLinks os) (t : Transport) (s : Server σ) (target link : CString)
    (size : ℕ) (cells : ℕ → UInt8) (htarget : target.val.length ≤ 500) :
    RoundTrips os t s target link size cells ↔ LinkFails os s target link :=
  ⟨fun hround => by_contra fun h => not_roundTrips_of_made hos size cells htarget h hround,
    roundTrips_of_linkFails size cells⟩

theorem Disk.keepsLinks (limit : ℕ) : KeepsLinks (Disk.os limit) where
  readlink := by
    intro source target m m' r h
    simp only [Disk.os, Disk.perform] at h
    split at h
    · obtain ⟨-, rfl⟩ := Prod.mk.inj h
      refine ⟨⟨source.val.take 511, by simp⟩, { m with links := (target, source) :: m.links },
        ?_, rfl⟩
      simp [Disk.os, Disk.perform]
    · cases (Prod.mk.inj h).1

/-- A link to `/a` that is made as `/l`. -/
theorem roundTrips_iff_small :
    RoundTrips (Disk.os 0) (.sound 0) (.start ⟨[], [], []⟩ 0) ⟨str "/a", by decide⟩
      ⟨str "/l", by decide⟩ 512 (fun _ => 0) ↔
    LinkFails (Disk.os 0) (.start ⟨[], [], []⟩ 0) ⟨str "/a", by decide⟩ ⟨str "/l", by decide⟩ :=
  roundTrips_iff (Disk.keepsLinks 0) (.sound 0) (.start ⟨[], [], []⟩ 0) ⟨str "/a", by decide⟩
    ⟨str "/l", by decide⟩ 512 (fun _ => 0) (by decide)

/-- A link to `/a` is read as `/afs/a`. -/
theorem link_not_roundTrips : ¬ ∀ (t : Transport) (s : Server Disk) (target link : CString)
    (size : ℕ) (cells : ℕ → UInt8), target.val.length ≤ 500 → 512 ≤ size →
    RoundTrips (Disk.os 0) t s target link size cells := by
  intro h
  have hround := h (.sound 0) (.start ⟨[], [], []⟩ 0) ⟨str "/a", by decide⟩ ⟨str "/l", by decide⟩ 512
    (fun _ => 0) (by decide) le_rfl rfl
  exact absurd hround.2 (by decide)

end M3Sec.Afsfuse
