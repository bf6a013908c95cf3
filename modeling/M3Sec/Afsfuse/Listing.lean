import M3Sec.Afsfuse.Remote

/-! # Directory listings

The loop of `xmp_getdir` runs once more than the array has elements. Unless the filler stops
it before, it reads behind the array and calls the filler with what it finds there.
-/

namespace M3Sec.Afsfuse

open Fallible

variable {σ ρ α : Type} {fillerp : ℕ → ℤ} {handles pre post : List MyDirhandle}
  {beyond : MyDirhandle} {l : List α} {a : α} {i j n : ℕ}

def Event.call : Event → Option (CString × ℤ)
  | .filler name type => some (name, type)
  | _ => none

def fillerCalls (tr : List Event) : List (CString × ℤ) := tr.filterMap Event.call

/-- The elements up to the first for which the filler returns something else than 0; the first
element is number `i`. -/
def untilStopped (fillerp : ℕ → ℤ) : (i : ℕ) → List α → List α
  | _, [] => []
  | i, a :: l => a :: if fillerp i ≠ 0 then [] else untilStopped fillerp (i + 1) l

theorem length_untilStopped_le : (untilStopped fillerp i l).length ≤ l.length := by
  induction l generalizing i with
  | nil => rfl
  | cons a l ih =>
    rw [untilStopped, List.length_cons, List.length_cons]
    split_ifs
    · simp
    · exact Nat.succ_le_succ ih

theorem untilStopped_snoc_of_stops (hj : j < l.length) (hstop : fillerp (i + j) ≠ 0) :
    untilStopped fillerp i (l ++ [a]) = untilStopped fillerp i l := by
  induction l generalizing i j with
  | nil => simp at hj
  | cons b l ih =>
    rw [List.cons_append, untilStopped, untilStopped]
    congr 1
    split_ifs with hi
    · rfl
    · cases j with
      | zero => exact absurd hstop hi
      | succ j =>
        rw [Nat.add_succ, ← Nat.succ_add] at hstop
        exact ih (Nat.lt_of_succ_lt_succ hj) hstop

theorem untilStopped_of_goes (h : ∀ j, j + 1 < l.length → fillerp (i + j) = 0) :
    untilStopped fillerp i l = l := by
  induction l generalizing i with
  | nil => rfl
  | cons b l ih =>
    rw [untilStopped]
    congr 1
    split_ifs with hi
    · cases l with
      | nil => rfl
      | cons c l => exact absurd (h 0 (by simp)) hi
    · apply ih
      intro j hj
      rw [Nat.succ_add, ← Nat.add_succ]
      exact h (j + 1) (Nat.succ_lt_succ hj)

theorem untilStopped_map {β : Type} (g : α → β) :
    untilStopped fillerp i (l.map g) = (untilStopped fillerp i l).map g := by
  induction l generalizing i with
  | nil => rfl
  | cons b l ih =>
    rw [List.map_cons, untilStopped, untilStopped, List.map_cons]
    congr 1
    split_ifs
    · rfl
    · exact ih

/-! ## The loop -/

def roundEvents : (i : ℕ) → List MyDirhandle → List Event
  | _, [] => []
  | i, h :: hs => .element i :: .filler h.name h.type.toInt32.toInt :: roundEvents (i + 1) hs

/-- The loop goes through the elements of the array and the one behind it. -/
theorem exec_xmpGetdirLoop (pre post : List MyDirhandle) (s : Client ρ) :
    exec (xmpGetdirLoop (pre ++ post) beyond fillerp (post.length + 1) pre.length) s = (.ok (),
      { s with
      trace := s.trace ++
        roundEvents pre.length (untilStopped fillerp pre.length (post ++ [beyond])) }) := by
  induction post generalizing pre s with
  | nil =>
    have hbeyond : (pre ++ []).getD pre.length beyond = beyond := by simp
    rw [List.length_nil, Nat.zero_add, xmpGetdirLoop, hbeyond, exec_bind_ok (exec_event _),
      exec_bind_ok (exec_event _), List.nil_append, untilStopped]
    split_ifs <;> simp [xmpGetdirLoop, roundEvents, untilStopped]
  | cons h post ih =>
    have hget : (pre ++ h :: post).getD pre.length beyond = h := by simp
    have hrest := fun s => ih (pre ++ [h]) s
    simp only [List.append_assoc, List.singleton_append, List.length_append,
      List.length_singleton] at hrest
    rw [List.length_cons, xmpGetdirLoop, hget, exec_bind_ok (exec_event _),
      exec_bind_ok (exec_event _), List.cons_append, untilStopped]
    split_ifs with hi
    · simp [roundEvents]
    · simp [roundEvents, hrest]

theorem fillerCalls_roundEvents (hs : List MyDirhandle) :
    fillerCalls (roundEvents i hs) = hs.map fun h => (h.name, h.type.toInt32.toInt) := by
  induction hs generalizing i with
  | nil => rfl
  | cons h hs ih =>
    rw [List.map_cons, ← ih (i := i + 1)]
    rfl

theorem element_mem_roundEvents_iff (hs : List MyDirhandle) :
    .element j ∈ roundEvents i hs ↔ i ≤ j ∧ j < i + hs.length := by
  induction hs generalizing i with
  | nil =>
    rw [roundEvents, List.length_nil]
    exact iff_of_false List.not_mem_nil (by omega)
  | cons h hs ih =>
    rw [roundEvents, List.mem_cons, List.mem_cons, ih, List.length_cons, Event.element.injEq]
    simp only [reduceCtorEq, false_or]
    omega

/-! ## The listing -/

section Listing

variable (os : Os σ) (t : Transport) (path : CString) (s : Server σ)

/-- The entries that `rxc_getdirWrapper` reads, if it is called and does not fail. -/
def listing : Option (List Dirent) :=
  if (Request.rxcGetdirWrapper path).Marshals then
    match os.perform (.opendir (translatePath path)) s.os with
    | (.error _, _) => none
    | (.ok _, m) =>
      match os.perform (.opendir (translatePath path)) m with
      | (.error _, _) => none
      | (.ok entries, _) => some entries
  else none

/-- A directory entry as the filler is to see it. -/
def Dirent.shown (de : Dirent) : CString × ℤ := (de.d_name, de.d_type.toNat)

/-- The filler is called with the entries in order until it stops, and no element behind them
is used. -/
def Exact (entries : List Dirent) (fillerp : ℕ → ℤ) (tr : List Event) : Prop :=
  fillerCalls tr = (untilStopped fillerp 0 entries).map Dirent.shown ∧
    ∀ i, .element i ∈ tr → i < entries.length

theorem foldl_fill (entries : List Dirent) (handles : Bulkmydirhandles) :
    entries.foldl Bulkmydirhandles.fill handles = {
      len := handles.len + entries.length
      val := handles.val ++ entries.map Dirent.handle
      room := handles.room } := by
  induction entries generalizing handles with
  | nil => simp
  | cons de entries ih =>
    rw [List.foldl_cons, ih]
    simp [Bulkmydirhandles.fill, Nat.add_assoc, Nat.add_comm 1]

section Wrapper

variable {counted entries : List Dirent} {m m' : σ} {e : ℕ+}

theorem exec_rxcRxcGetdirWrapper_ok
    (hfirst : os.perform (.opendir (translatePath path)) s.os = (.ok counted, m))
    (hsecond : os.perform (.opendir (translatePath path)) m = (.ok entries, m')) :
    ∃ s', exec (rxcRxcGetdirWrapper os path) s =
      (.ok (0, ⟨entries.length, entries.map Dirent.handle, counted.length + 1⟩), s') := by
  rw [rxcRxcGetdirWrapper, exec_bind_ok (exec_sys_of os hfirst)]
  dsimp only
  rw [exec_bind_ok (exec_sys_of os (by rw [os_record_of os hfirst, hsecond]))]
  simp [foldl_fill]

theorem exec_rxcRxcGetdirWrapper_uncounted
    (hfirst : os.perform (.opendir (translatePath path)) s.os = (.error e, m)) :
    ∃ s', exec (rxcRxcGetdirWrapper os path) s = (.ok (1, ⟨0, [], 0⟩), s') := by
  rw [rxcRxcGetdirWrapper, exec_bind_ok (exec_sys_of os hfirst)]
  exact ⟨_, rfl⟩

theorem exec_rxcRxcGetdirWrapper_unfilled
    (hfirst : os.perform (.opendir (translatePath path)) s.os = (.ok counted, m))
    (hsecond : os.perform (.opendir (translatePath path)) m = (.error e, m')) :
    ∃ s', exec (rxcRxcGetdirWrapper os path) s =
      (.ok (1, ⟨0, [], counted.length + 1⟩), s') := by
  rw [rxcRxcGetdirWrapper, exec_bind_ok (exec_sys_of os hfirst)]
  dsimp only
  rw [exec_bind_ok (exec_sys_of os (by rw [os_record_of os hfirst, hsecond]))]
  exact ⟨_, rfl⟩

theorem exec_serve_getdirWrapper {error : ℤ} {handles : Bulkmydirhandles} {s' : Server σ}
    (h : exec (rxcRxcGetdirWrapper os path) s = (.ok (error, handles), s')) :
    exec (serve os .deliver (.rxcGetdirWrapper path)) s =
      (.ok (error, handles.val.take handles.len), s') := by
  rw [serve, exec_bind_ok h]
  rfl

end Wrapper

theorem callServer_of_listing {entries : List Dirent} (h : listing os path s = some entries) :
    (callServer os (.rxcGetdirWrapper path) s).1 = .ok (entries.map Dirent.handle) := by
  unfold listing at h
  split_ifs at h with hq
  split at h
  · cases h
  · rename_i counted m hfirst
    split at h
    · cases h
    · rename_i entries' m' hsecond
      obtain rfl := Option.some.inj h
      obtain ⟨s', hproc⟩ := exec_rxcRxcGetdirWrapper_ok os path s.begin hfirst hsecond
      rw [callServer_ok hq (exec_serve_getdirWrapper os path s.begin hproc)]
      simp

theorem callServer_of_listing_none (h : listing os path s = none) :
    ∃ f, (callServer os (.rxcGetdirWrapper path) s).1 = .error f := by
  unfold listing at h
  split_ifs at h with hq
  · obtain ⟨handles, s', hproc⟩ :
        ∃ handles s', exec (rxcRxcGetdirWrapper os path) s.begin = (.ok (1, handles), s') := by
      split at h
      · rename_i e m hfirst
        exact ⟨_, exec_rxcRxcGetdirWrapper_uncounted os path s.begin hfirst⟩
      · rename_i counted m hfirst
        split at h
        · rename_i e m' hsecond
          exact ⟨_, exec_rxcRxcGetdirWrapper_unfilled os path s.begin hfirst hsecond⟩
        · cases h
    rw [callServer_error hq one_ne_zero (exec_serve_getdirWrapper os path s.begin hproc)]
    exact ⟨_, rfl⟩
  · rw [callServer_not_marshals hq]
    exact ⟨_, rfl⟩

theorem shown_handle (de : Dirent) :
    (de.handle.name, de.handle.type.toInt32.toInt) = de.shown := by
  have htype : de.d_type.toUInt32.toNat < 2 ^ 31 := by
    have hd := de.d_type.toNat_lt
    rw [UInt8.toNat_toUInt32]
    omega
  rw [Dirent.handle, toInt_toInt32 htype, UInt8.toNat_toUInt32]
  rfl

end Listing

variable {env : Environment ρ} {q : Request} {s : Client ρ}

def Client.called (env : Environment ρ) (q : Request) (s : Client ρ) : List Event :=
  s.trace ++ List.replicate (env.interrupts s.outside) .interrupted ++ [.acquired, .rpc q]

theorem exec_xmpGetdir_error {path : CString} {f : Failure (List MyDirhandle)}
    (h : (env.call (.rxcGetdirWrapper path) s.outside).1 = .error f) :
    (exec (xmpGetdir env path fillerp beyond) s).2.trace =
      s.called env (.rxcGetdirWrapper path) ++ [.released] := by
  rw [xmpGetdir, exec_bind_ok exec_getconnection, exec_bind_ok (exec_rpc _ _)]
  dsimp only
  rw [h, exec_bind_ok exec_relconnection]
  simp [Client.called]

theorem exec_xmpGetdir_ok {path : CString} {handles : List MyDirhandle}
    (h : (env.call (.rxcGetdirWrapper path) s.outside).1 = .ok handles) :
    (exec (xmpGetdir env path fillerp beyond) s).2.trace =
      s.called env (.rxcGetdirWrapper path) ++
        roundEvents 0 (untilStopped fillerp 0 (handles ++ [beyond])) ++ [.released] := by
  rw [xmpGetdir, exec_bind_ok exec_getconnection, exec_bind_ok (exec_rpc _ _)]
  dsimp only
  rw [h]
  dsimp only
  have hloop : ∀ s : Client ρ, exec (xmpGetdirLoop handles beyond fillerp (handles.length + 1) 0) s =
      (.ok (), { s with
        trace := s.trace ++ roundEvents 0 (untilStopped fillerp 0 (handles ++ [beyond])) }) :=
    exec_xmpGetdirLoop [] handles
  rw [exec_bind_ok (hloop _), exec_bind_ok exec_relconnection]
  simp [Client.called]

theorem exact_called_iff {entries : List Dirent} {tr : List Event} (hs : s.trace = []) :
    Exact entries fillerp (s.called env q ++ tr ++ [.released]) ↔ Exact entries fillerp tr := by
  have hcalls : fillerCalls (s.called env q ++ tr ++ [.released]) = fillerCalls tr := by
    simp [fillerCalls, Client.called, hs, Event.call, List.filterMap_replicate, List.filterMap_cons]
  have helements : ∀ i, .element i ∈ s.called env q ++ tr ++ [.released] ↔ .element i ∈ tr := by
    intro i
    simp [Client.called, hs, List.mem_replicate]
  rw [Exact, hcalls, Exact]
  simp only [helements]

theorem exact_nil : Exact [] fillerp [] := ⟨rfl, fun _ h => absurd h List.not_mem_nil⟩

theorem exact_rounds_iff {entries : List Dirent} :
    Exact entries fillerp (roundEvents 0 (untilStopped fillerp 0
      (entries.map Dirent.handle ++ [beyond]))) ↔ ∃ i < entries.length, fillerp i ≠ 0 := by
  constructor
  · rintro ⟨-, helements⟩
    by_contra hgoes
    push Not at hgoes
    have hall : untilStopped fillerp 0 (entries.map Dirent.handle ++ [beyond]) =
        entries.map Dirent.handle ++ [beyond] := by
      apply untilStopped_of_goes
      intro j hj
      rw [Nat.zero_add]
      exact hgoes j (by simpa using hj)
    have hlast := helements entries.length ((element_mem_roundEvents_iff _).mpr (by simp [hall]))
    exact Nat.lt_irrefl _ hlast
  · rintro ⟨j, hj, hstop⟩
    have hrounds : untilStopped fillerp 0 (entries.map Dirent.handle ++ [beyond]) =
        (untilStopped fillerp 0 entries).map Dirent.handle := by
      rw [untilStopped_snoc_of_stops (j := j) (by simpa using hj) (by simpa using hstop),
        untilStopped_map]
    rw [hrounds]
    constructor
    · rw [fillerCalls_roundEvents, List.map_map]
      exact List.map_congr_left fun de _ => shown_handle de
    · rintro i hi
      have hi' := ((element_mem_roundEvents_iff _).mp hi).2
      rw [List.length_map, Nat.zero_add] at hi'
      exact hi'.trans_le length_untilStopped_le

/-- The listing is exact exactly if there is none, or the filler stops it at one of the
entries. -/
theorem listing_exact_iff (os : Os σ) (t : Transport) (path : CString) (fillerp : ℕ → ℤ)
    (beyond : MyDirhandle) (s : Server σ) (buffer : Memory.Region UInt8) :
    Exact ((listing os path s).getD []) fillerp
        (exec (xmpGetdir (overServer os t) path fillerp beyond) ⟨s, [], buffer⟩).2.trace ↔
      ∀ entries, listing os path s = some entries → ∃ i < entries.length, fillerp i ≠ 0 := by
  cases hl : listing os path s with
  | none =>
    obtain ⟨f, hf⟩ := callServer_of_listing_none os path s hl
    have hreply : ((overServer os t).call (.rxcGetdirWrapper path) s).1 = .error f := hf
    rw [exec_xmpGetdir_error (s := ⟨s, [], buffer⟩) hreply, ← List.append_nil (Client.called ..),
      exact_called_iff rfl]
    exact iff_of_true exact_nil (by simp)
  | some entries =>
    have hreply : ((overServer os t).call (.rxcGetdirWrapper path) s).1 =
      .ok (entries.map Dirent.handle) := callServer_of_listing os path s hl
    rw [exec_xmpGetdir_ok (s := ⟨s, [], buffer⟩) hreply, exact_called_iff rfl, Option.getD_some,
      exact_rounds_iff]
    simp

/-- A directory with one file: the filler is called twice. -/
theorem listing_not_exact : ¬ ∀ (t : Transport) (path : CString) (fillerp : ℕ → ℤ)
    (beyond : MyDirhandle) (s : Server Disk) (buffer : Memory.Region UInt8),
    Exact ((listing (Disk.os 0) path s).getD []) fillerp
      (exec (xmpGetdir (overServer (Disk.os 0) t) path fillerp beyond) ⟨s, [], buffer⟩).2.trace := by
  intro h
  have hcalls := (h (.sound 0) ⟨str "/", by decide⟩ (fun _ => 0) ⟨0, 0, ⟨[], by decide⟩⟩
    (.start ⟨[(⟨str "/afs/a", by decide⟩, [])], [], []⟩ 0) (.untouched fun _ => 0)).1
  exact absurd (congrArg List.length hcalls) (by decide)

/-! ## The two passes -/

/-- The elements that are filled are in the array, and counted if the procedure succeeds. -/
structure ArrayFilled (error : ℤ) (handles : Bulkmydirhandles) : Prop where
  within : handles.val.length ≤ handles.room
  counted : error = 0 → handles.len = handles.val.length

def FillsArray (os : Os σ) (path : CString) (s : Server σ) : Prop :=
  ∀ error handles s', exec (rxcRxcGetdirWrapper os path) s = (.ok (error, handles), s') →
    ArrayFilled error handles

theorem fillsArray_of_exec {os : Os σ} {path : CString} {s : Server σ} {error : ℤ}
    {handles : Bulkmydirhandles}
    (h : ∃ s', exec (rxcRxcGetdirWrapper os path) s = (.ok (error, handles), s')) :
    FillsArray os path s ↔ ArrayFilled error handles := by
  obtain ⟨s', hs'⟩ := h
  constructor
  · exact fun hfills => hfills _ _ _ hs'
  · rintro hfills error' handles' t ht
    rw [hs'] at ht
    cases ht
    exact hfills

/-- The array is large enough exactly if the second pass finds at most one entry more than the
first. -/
theorem fillsArray_iff (os : Os σ) (path : CString) (s : Server σ) :
    FillsArray os path s ↔ ∀ counted m entries m',
      os.perform (.opendir (translatePath path)) s.os = (.ok counted, m) →
        os.perform (.opendir (translatePath path)) m = (.ok entries, m') →
          entries.length ≤ counted.length + 1 := by
  rcases hfirst : os.perform (.opendir (translatePath path)) s.os with ⟨e | counted, m⟩
  · rw [fillsArray_of_exec (exec_rxcRxcGetdirWrapper_uncounted os path s hfirst)]
    exact iff_of_true ⟨le_rfl, fun h => absurd h one_ne_zero⟩ (by rintro _ _ _ _ ⟨⟩)
  rcases hsecond : os.perform (.opendir (translatePath path)) m with ⟨e | entries, m'⟩
  · rw [fillsArray_of_exec (exec_rxcRxcGetdirWrapper_unfilled os path s hfirst hsecond)]
    refine iff_of_true ⟨Nat.zero_le _, fun h => absurd h one_ne_zero⟩ ?_
    rintro _ _ _ _ ⟨⟩ hopen
    rw [hsecond] at hopen
    cases hopen
  · rw [fillsArray_of_exec (exec_rxcRxcGetdirWrapper_ok os path s hfirst hsecond)]
    constructor
    · rintro ⟨hwithin, -⟩ _ _ entries' t' ⟨⟩ hopen
      rw [hsecond] at hopen
      cases hopen
      simpa using hwithin
    · rintro h
      have hle := h _ _ _ _ rfl hsecond
      exact ⟨by simpa using hle, fun _ => by simp⟩

/-- A directory that gets two entries after it was read for the first time. -/
def growing : Os Bool where
  perform
    | .opendir _, grown =>
      (.ok (if grown then [⟨⟨str "a", by decide⟩, 8, 1⟩, ⟨⟨str "b", by decide⟩, 8, 2⟩] else []),
        true)
    | _, grown => (.error ⟨9, by decide⟩, grown)
  badf := by
    rintro c fd grown hc -
    cases c with
    | pread _ _ _ | pwrite _ _ _ | close _ => exact ⟨9, rfl⟩
    | _ => cases hc

theorem growing_overflows : ¬ ∀ (path : CString) (s : Server Bool), FillsArray growing path s := by
  intro h
  obtain ⟨s', hs'⟩ := exec_rxcRxcGetdirWrapper_ok growing ⟨str "/", by decide⟩ (.start false 0)
    rfl rfl
  have hwithin := (h _ _ _ _ _ hs').within
  exact absurd hwithin (by decide)

end M3Sec.Afsfuse
