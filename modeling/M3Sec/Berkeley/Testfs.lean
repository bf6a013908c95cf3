import M3Sec.Berkeley.Mounts

/-! # The programs `testfs` and `berkeley_test`

Both open the three databases, emptied and filled again with `-c` and as they are with `-r`,
and print their values, all in one `try` block; `testfs` collects the values and then mounts
them. The databases stay when the program has ended, so what a run reads was left by the runs
before it.
-/

namespace M3Sec.Berkeley.Testfs

open Fallible Scripts

/-- What `getopt` with `"c:r:"` returns before `EOF`; an option that is not known, or has no
argument, is a `?`. -/
inductive Opt | c | r | unknown
  deriving DecidableEq, Repr

/-- `DB_CREATE | DB_TRUNCATE`, or `DB_RDONLY`. -/
inductive Flags | create | readOnly
  deriving DecidableEq, Repr

/-- The loop over the options: the flags, or nothing if it returns `usage()`. -/
def parse : Flags → List Opt → Option Flags
  | flags, [] => some flags
  | _, .c :: opts => parse .create opts
  | _, .r :: opts => parse .readOnly opts
  | _, .unknown :: _ => none

/-- The databases on disk; `none` for a file that does not exist. -/
abbrev Disk := Part → Option (List Record)

/-- The handles, the vectors and the daemon when `main` starts. -/
def load (disk : Disk) : World :=
  { World.start with
    db := fun h => { phase := .created, records := (disk h).getD [], cursors := 0 } }

/-- The databases when the program has ended. Only an opened one can have changed. -/
def save (disk : Disk) (w : World) : Disk := fun h =>
  if (w.db h).phase = .created then disk h else some (w.db h).records

/-- `open` with the flags. Without `DB_CREATE` there has to be a file. -/
def openDb (disk : Disk) (flags : Flags) (f : Faults) (h : Part) :
    Fallible World Exception PUnit :=
  match flags with
  | .create => call f (.openDb h)
  | .readOnly =>
    if f (.openDb h) ∨ disk h = none then do
      modify (·.failed (.openDb h))
      throw .dbException
    else
      modify fun w => (w.issue (.openDb h)).onDb h fun d => { d with phase := .opened }

inductive Program | berkeleyTest | testfs
  deriving DecidableEq, Repr

def insertData (f : Faults) : Fallible World Exception PUnit :=
  parts.forM fun h => (values h).forM fun value => call f (.put h (record h value))

/-- The loop of `berkeley_test`, which prints what it gets and keeps nothing. -/
def printOnly (f : Faults) (n : ℕ) :
    (cur_s cur_p cur_o : List Record) → Fallible World Exception PUnit
  | [], _, _ => call f (.get .s n)
  | _ :: _, [], _ => do
    call f (.get .s n)
    call f (.get .p n)
  | _ :: _, _ :: _, [] => do
    call f (.get .s n)
    call f (.get .p n)
    call f (.get .o n)
  | _ :: cur_s, _ :: cur_p, _ :: cur_o => do
    call f (.get .s n)
    call f (.get .p n)
    call f (.get .o n)
    printOnly f (n + 1) cur_s cur_p cur_o

/-- The cursors and the loop over them; that of `testfs` is the one of `printDbData`. -/
def outputData (prog : Program) (f : Faults) : Fallible World Exception PUnit := do
  parts.forM fun h => call f (.cursor h)
  let w ← get
  match prog with
  | .berkeleyTest => printOnly f 0 (w.db .s).records (w.db .p).records (w.db .o).records
  | .testfs => walk f 0 (w.db .s).records (w.db .p).records (w.db .o).records
  parts.forM fun h => call f (.closeCursor h)

def buildVfs (fk : Vfs.Fusekit) : Fallible World Exception PUnit := do
  let w ← get
  onPart (·.fs) (fun fs w => { w with fs := fs })
    (Vfs.Program.build .testfs fk (w.vector .s) (w.vector .p) (w.vector .o))

/-- The `try` block of `main`. -/
def body (prog : Program) (fk : Vfs.Fusekit) (disk : Disk) (flags : Flags) (f : Faults) :
    Fallible World Exception PUnit := do
  parts.forM fun h => call f (.setFlags h)
  parts.forM fun h => openDb disk flags f h
  (if flags ≠ .readOnly then insertData f else pure ⟨⟩)
  outputData prog f
  parts.forM fun h => call f (.close h)
  (if prog = .testfs then buildVfs fk else pure ⟨⟩)

structure Start where
  prog : Program
  opts : List Opt
  faults : Faults

/-- How a run ends: with `usage()`, in a handler of the `try` block, or behind it, where
`testfs` enters `daemon.run`. -/
inductive Ending | usage | caught | reached
  deriving DecidableEq, Repr

/-- `main`: how it ends, the state it leaves and the databases on disk. -/
def main (fk : Vfs.Fusekit) (disk : Disk) (i : Start) : Ending × World × Disk :=
  match parse .readOnly i.opts with
  | none => (.usage, load disk, disk)
  | some flags =>
    match exec (body i.prog fk disk flags i.faults) (load disk) with
    | (.ok _, w) => (.reached, w, save disk w)
    | (.error _, w) => (.caught, w, save disk w)

variable {prog : Program} {fk : Vfs.Fusekit} {disk : Disk} {flags : Flags} {f : Faults}
  {w : World} {h : Part} {ph : Part → Phase} {L : Part → List Record}
  {G : Part → List Record → Prop} {m : Prop}

/-! ## Up to the cursors -/

def full (h : Part) : List Record := (values h).map (record h)

/-- The handles are in these phases and the databases hold these records, and nothing is
collected or built yet. -/
structure At (ph : Part → Phase) (L : Part → List Record) (w : World) : Prop where
  phase : ∀ h, (w.db h).phase = ph h
  records : ∀ h, (w.db h).records = L h
  vector : ∀ h, w.vector h = []
  fs : w.fs = Vfs.Fs.fresh

def Sound (G : Part → List Record → Prop) (w : World) : Prop :=
  ∀ h, (w.db h).phase ≠ .created → G h (w.db h).records

/-- A call that was made has thrown. -/
def Thrown (f : Faults) (w : World) : Prop := ∃ i ∈ w.issued, f i.call = true

/-- The `try` block is left because a call threw, or for another reason `m`. -/
def Interrupted (f : Faults) (m : Prop) (G : Part → List Record → Prop) (_ : Exception)
    (w : World) :
    Prop :=
  (Thrown f w ∨ m) ∧ Sound G w

theorem thrown_failed {c : Call} (hf : f c = true) (w : World) : Thrown f (w.failed c) :=
  ⟨⟨c, (w.db c.handle).phase⟩, List.mem_append_right _ (List.mem_singleton_self _), hf⟩

theorem At.sound (hw : At ph L w) (hG : ∀ h, ph h ≠ .created → G h (L h)) : Sound G w := by
  intro h hh
  rw [hw.records]
  exact hG h (hw.phase h ▸ hh)

theorem At.congr {ph' : Part → Phase} {L' : Part → List Record} (hw : At ph L w)
    (hph : ∀ h, ph h = ph' h) (hL : ∀ h, L h = L' h) : At ph' L' w :=
  ⟨fun h => (hw.phase h).trans (hph h), fun h => (hw.records h).trans (hL h), hw.vector, hw.fs⟩

theorem At.onDb {g : Db → Db} {p : Phase} {l : List Record} (hw : At ph L w) (c : Call) (k : Part)
    (hp : (g (w.db k)).phase = p) (hl : (g (w.db k)).records = l) :
    At (Function.update ph k p) (Function.update L k l) ((w.issue c).onDb k g) := by
  constructor
  case phase =>
    intro h
    by_cases hh : h = k
    · subst hh
      simpa [World.onDb, World.issue] using hp
    · simpa [World.onDb, World.issue, hh] using hw.phase h
  case records =>
    intro h
    by_cases hh : h = k
    · subst hh
      simpa [World.onDb, World.issue] using hl
    · simpa [World.onDb, World.issue, hh] using hw.records h
  case vector => exact hw.vector
  case fs => exact hw.fs

theorem call_ensures {c : Call} {p : Phase} {l : List Record}
    (hG : ∀ h, ph h ≠ .created → G h (L h))
    (hfailed : ∀ d : Db, d.failed c = d)
    (hp : ∀ d : Db, d.phase = ph c.handle → (d.done c).phase = p)
    (hl : ∀ d : Db, d.records = L c.handle → (d.done c).records = l) :
    Ensures (At ph L) (call f c)
      (fun _ => At (Function.update ph c.handle p) (Function.update L c.handle l))
      (Interrupted f m G) := by
  unfold call
  split_ifs with hf
  · refine (Ensures.modify (Q := fun _ w => Thrown f w ∧ Sound G w) fun w hw => ?_).bind
      fun _ => .throw fun _ hw => ⟨.inl hw.1, hw.2⟩
    have hsame : At _ _ (w.failed c) := hw.onDb (p := ph c.handle) (l := L c.handle) c c.handle
      (by rw [hfailed, hw.phase]) (by rw [hfailed, hw.records])
    rw [Function.update_eq_self, Function.update_eq_self] at hsame
    exact ⟨thrown_failed hf w, hsame.sound hG⟩
  · exact Ensures.modify fun w hw => hw.onDb c c.handle (hp _ (hw.phase _)) (hl _ (hw.records _))

theorem setFlags_ensures (hG : ∀ h, ph h ≠ .created → G h (L h)) :
    Ensures (At ph L) (parts.forM fun h => call f (.setFlags h)) (fun _ => At ph L)
      (Interrupted f m G) := by
  refine Ensures.forM (I := fun _ => At ph L) fun _ h _ => ?_
  refine (call_ensures hG (fun _ => rfl) (p := ph h) (l := L h) (fun _ => id) fun _ => id).weaken
    (fun _ => id) (fun _ w hw => ?_) fun _ _ => id
  rwa [Call.handle, Function.update_eq_self, Function.update_eq_self] at hw

def opening (pre : List Part) (h : Part) : Phase := if h ∈ pre then .opened else .created

theorem opening_nil : opening [] h = .created := rfl

theorem opening_parts : opening parts h = .opened := by
  cases h <;> rfl

theorem opening_snoc (pre : List Part) (k h : Part) :
    Function.update (opening pre) k .opened h = opening (pre ++ [k]) h := by
  by_cases hh : h = k <;> simp [opening, hh]

theorem mem_of_opening {pre : List Part} (hh : opening pre h ≠ .created) : h ∈ pre := by
  by_contra hpre
  exact hh (if_neg hpre)

theorem openDb_create_ensures (hG : ∀ h, G h []) :
    Ensures (At (fun _ => .created) L) (parts.forM fun h => openDb disk .create f h)
      (fun _ => At (fun _ => .opened) fun _ => []) (Interrupted f m G) := by
  refine (Ensures.forM (I := fun pre => At (opening pre) fun h => if h ∈ pre then [] else L h)
    fun pre k _ => ?_).weaken (fun w hw => hw.congr (fun _ => opening_nil.symm) (by simp))
    (fun _ w hw => hw.congr (fun _ => opening_parts) fun h => ?_) fun _ _ => id
  · refine (call_ensures ?_ (fun _ => rfl) (fun _ _ => rfl) fun _ _ => rfl).weaken
      (fun _ => id) (fun _ w hw => hw.congr (opening_snoc pre k) ?_) fun _ _ => id
    · intro h hh
      rw [if_pos (mem_of_opening hh)]
      exact hG h
    · intro h
      by_cases hh : h = k <;> simp [Call.handle, hh]
  · cases h <;> rfl

theorem openDb_readOnly_ensures (hL : ∀ h l, disk h = some l → L h = l) :
    Ensures (At (fun _ => .created) L) (parts.forM fun h => openDb disk .readOnly f h)
      (fun _ w => At (fun _ => .opened) L w ∧ ∀ h, disk h = some (L h))
      (Interrupted f (∃ h, disk h = none) fun h l => disk h = some l) := by
  have hsound : ∀ {pre : List Part} {w : World}, At (opening pre) L w →
      (∀ h ∈ pre, disk h = some (L h)) → Sound (fun h l => disk h = some l) w :=
    fun hw hpre => hw.sound fun h hh => hpre h (mem_of_opening hh)
  refine (Ensures.forM (I := fun pre w => At (opening pre) L w ∧ ∀ h ∈ pre, disk h = some (L h))
    fun pre k _ => ?_).weaken (fun w hw => ⟨hw.congr (fun _ => opening_nil.symm) fun _ => rfl, ?_⟩)
    (fun _ w hw => ⟨hw.1.congr (fun _ => opening_parts) fun _ => rfl, fun h => ?_⟩) fun _ _ => id
  · unfold openDb
    dsimp only
    split_ifs with hfail
    · refine (Ensures.modify (Q := fun _ w => (Thrown f w ∨ ∃ h, disk h = none) ∧
      Sound (fun h l => disk h = some l) w) fun w hw => ?_).bind fun _ => .throw fun _ hw => hw
      have hsame : At _ _ (w.failed (.openDb k)) := hw.1.onDb (p := opening pre k) (l := L k)
        (.openDb k) k (hw.1.phase k) (hw.1.records k)
      rw [Function.update_eq_self, Function.update_eq_self] at hsame
      exact ⟨hfail.imp (fun hf => thrown_failed hf w) fun hnone => ⟨k, hnone⟩, hsound hsame hw.2⟩
    · refine Ensures.modify fun w hw => ?_
      obtain ⟨l, hl⟩ := Option.ne_none_iff_exists'.mp fun hnone => hfail (.inr hnone)
      have hopened := hw.1.onDb (p := .opened) (l := L k) (g := fun d => { d with phase := .opened })
        (.openDb k) k rfl (hw.1.records k)
      rw [Function.update_eq_self] at hopened
      refine ⟨hopened.congr (opening_snoc pre k) fun _ => rfl, ?_⟩
      intro h hh
      rcases List.mem_append.mp hh with hh | hh
      · exact hw.2 h hh
      · obtain rfl := List.mem_singleton.mp hh
        rw [hL h l hl, hl]
  · simp
  · exact hw.2 h (by cases h <;> decide)

def Begun (h : Part) (l : List Record) : Prop := l <+: full h

theorem begun_nil (h : Part) : Begun h [] := List.nil_prefix

theorem begun_full (h : Part) : Begun h (full h) := List.prefix_rfl

theorem puts_ensures (h : Part) (hL : ∀ k, Begun k (L k)) (hempty : L h = []) :
    Ensures (At (fun _ => .opened) L)
      ((values h).forM fun value => call f (.put h (record h value)))
      (fun _ => At (fun _ => .opened) (Function.update L h (full h))) (Interrupted f m Begun) := by
  refine (Ensures.forM (I := fun pre => At (fun _ => .opened)
    (Function.update L h (pre.map (record h)))) fun pre v hpre => ?_).weaken (fun w hw => ?_)
    (fun _ _ => id) fun _ _ => id
  · have hbegun : ∀ k, Begun k (Function.update L h (pre.map (record h)) k) := by
      intro k
      by_cases hk : k = h
      · subst hk
        rw [Function.update_self]
        exact ((List.prefix_append pre [v]).trans hpre).map (record k)
      · rw [Function.update_of_ne hk]
        exact hL k
    have hkeys : ∀ x ∈ pre.map (record h), x.key = (record h v).key := by
      intro x hx
      obtain ⟨_, -, rfl⟩ := List.mem_map.mp hx
      rfl
    refine (call_ensures (fun k _ => hbegun k) (fun _ => rfl) (p := .opened) (fun _ => id)
      (l := (pre ++ [v]).map (record h)) fun d hd => ?_).weaken
      (fun _ => id) (fun _ w hw => hw.congr (fun _ => by simp) fun k => ?_) fun _ _ => id
    · rw [Call.handle, Function.update_self] at hd
      rw [Db.done, hd, insertDup_of_keys hkeys, List.map_append]
      rfl
    · rw [Call.handle, Function.update_idem]
  · rwa [List.map_nil, ← hempty, Function.update_eq_self]

theorem insertData_ensures : Ensures (At (fun _ => .opened) fun _ => []) (insertData f)
    (fun _ => At (fun _ => .opened) full) (Interrupted f m Begun) := by
  refine (Ensures.forM (I := fun pre => At (fun _ => .opened) fun h => if h ∈ pre then full h else [])
    fun pre k hpre => ?_).weaken (fun w hw => hw.congr (fun _ => rfl) fun _ => by simp)
    (fun _ w hw => hw.congr (fun _ => rfl) fun h => by cases h <;> rfl) fun _ _ => id
  have hk : k ∉ pre := by
    have hnodup : (pre ++ [k]).Nodup := (show parts.Nodup by decide).sublist hpre.sublist
    exact fun hk => (List.nodup_append.mp hnodup).2.2 k hk k (List.mem_singleton_self k) rfl
  refine (puts_ensures k (fun h => ?_) (if_neg hk)).weaken (fun _ => id)
    (fun _ w hw => hw.congr (fun _ => rfl) fun h => ?_) fun _ _ => id
  · unfold Begun
    split_ifs
    · exact List.prefix_rfl
    · exact List.nil_prefix
  · by_cases hh : h = k <;> simp [hh]

/-! ## From the cursors on -/

/-- The databases hold these records, and `testfs` has collected the first `k` of each, as many
as the shortest database has. -/
structure Collected (prog : Program) (L : Part → List Record) (w : World) : Prop where
  phase : ∀ h, (w.db h).phase ≠ .created
  records : ∀ h, (w.db h).records = L h
  fs : w.fs = Vfs.Fs.fresh
  vector : prog = .testfs → ∃ k, (∀ h, k ≤ (L h).length) ∧ (∃ h, (L h).length ≤ k) ∧
    ∀ h, w.vector h = ((L h).take k).map Record.text

def Program.rounds (w : World) : Program → List Act
  | .berkeleyTest => w.rounds.filter Act.isCall
  | .testfs => w.rounds

def Program.script (w : World) (prog : Program) : List Act :=
  eachPart .cursor ++ prog.rounds w ++ eachPart .closeCursor

theorem call_mem_script {c : Call} (hc : .call c ∈ prog.script w) :
    (∃ h, c = .cursor h) ∨ (∃ h n, c = .get h n) ∨ ∃ h, c = .closeCursor h := by
  have hrounds : prog.rounds w ⊆ w.rounds := by
    cases prog with
    | berkeleyTest => exact List.filter_sublist.subset
    | testfs => exact List.Subset.refl _
  rcases List.mem_append.mp hc with hc | hc
  · rcases List.mem_append.mp hc with hc | hc
    · exact .inl (call_mem_eachPart.mp hc)
    · exact .inr (.inl (call_mem_rounds (hrounds hc)))
  · exact .inr (.inr (call_mem_eachPart.mp hc))

theorem printOnly_eq_forM (f : Faults) (n : ℕ) (cur_s cur_p cur_o : List Record) :
    printOnly f n cur_s cur_p cur_o =
      ((rounds n cur_s cur_p cur_o).filter Act.isCall).forM (act f) := by
  fun_induction rounds n cur_s cur_p cur_o with
  | case1 n => simp [printOnly, act, Act.isCall, List.filter_cons]
  | case2 n => simp [printOnly, act, Act.isCall, List.filter_cons]
  | case3 n => simp [printOnly, act, Act.isCall, List.filter_cons]
  | case4 n s cur_s p cur_p o cur_o ih => simp [printOnly, act, Act.isCall, List.filter_cons, ih]

theorem exec_outputData (prog : Program) (f : Faults) (w : World) : exec (outputData prog f) w =
    (if Completes (Act.fails f) (prog.script w) then .ok ⟨⟩ else .error .dbException,
      perform effects (Act.fails f) w (prog.script w)) := by
  cases prog with
  | berkeleyTest =>
    have hloop : ∀ {t w : World}, (∀ h, (t.db h).records = (w.db h).records) →
        t.rounds.filter Act.isCall = w.rounds.filter Act.isCall :=
      fun h => congrArg _ (rounds_of_records h)
    refine Eq.trans ?_ (exec_between hloop f w)
    simp [outputData, printOnly_eq_forM, World.rounds, eachPart, parts, act]
  | testfs =>
    refine Eq.trans ?_ (exec_between rounds_of_records f w)
    simp [outputData, walk_eq_forM, World.rounds, eachPart, parts, act]

/-- A script that is cut short has made the call that threw. -/
theorem thrown_perform {as : List Act} (h : ¬ Completes (Act.fails f) as) (w : World) :
    Thrown f (perform effects (Act.fails f) w as) := by
  induction as generalizing w with
  | nil => exact absurd completes_nil h
  | cons a as ih =>
    rw [perform_cons]
    split_ifs with ha
    · cases a with
      | call c => exact thrown_failed ha w
      | push s p o => cases ha
    · apply ih
      exact fun has => h (completes_cons.mpr ⟨Bool.eq_false_of_not_eq_true ha, has⟩)

theorem outputData_ensures (hG : ∀ h, G h (L h)) :
    Ensures (At (fun _ => .opened) L) (outputData prog f) (fun _ => Collected prog L)
      (Interrupted f m G) := by
  intro w hw
  have hcalls : ∀ c, .call c ∈ prog.script w → c.reads ∧ c.Keeps Db.phase := by
    intro c hc
    obtain ⟨k, rfl⟩ | ⟨k, n, rfl⟩ | ⟨k, rfl⟩ := call_mem_script hc <;>
      exact ⟨rfl, fun _ => ⟨rfl, rfl⟩⟩
  have hrecords : ∀ h, ((perform effects (Act.fails f) w (prog.script w)).db h).records = L h := by
    intro h
    rw [records_perform_of_reads fun c hc => (hcalls c hc).1, hw.records]
  have hphase : ∀ h, ((perform effects (Act.fails f) w (prog.script w)).db h).phase = .opened :=
    fun h => (view_db_perform (fun c hc => (hcalls c hc).2) w h).trans (hw.phase h)
  rw [exec_outputData]
  split_ifs with hs
  · refine ⟨fun h => by rw [hphase]; decide, hrecords, by rw [fs_perform, hw.fs], ?_⟩
    rintro rfl
    obtain ⟨k, hle, hend, hk⟩ := vector_printDbData f w
    simp only [hw.records, hw.vector, List.nil_append] at hle hend hk
    exact ⟨k, hle, hend hs, hk⟩
  · refine ⟨.inl (thrown_perform hs w), fun h _ => ?_⟩
    rw [hrecords]
    exact hG h

theorem close_ensures (hG : ∀ h, G h (L h)) : Ensures (Collected prog L)
    (parts.forM fun h => call f (.close h)) (fun _ => Collected prog L) (Interrupted f m G) := by
  have hclosed : ∀ (w : World) (h : Part) (g : Db → Db), (∀ d, (g d).phase ≠ .created) →
      (∀ d, (g d).records = d.records) → Collected prog L w →
      Collected prog L ((w.issue (.close h)).onDb h g) := by
    intro w h g hphase hrecords hw
    constructor
    case phase =>
      intro k
      by_cases hk : k = h
      · subst hk
        simpa [World.onDb, World.issue] using hphase _
      · simpa [World.onDb, World.issue, hk] using hw.phase k
    case records =>
      intro k
      by_cases hk : k = h
      · subst hk
        simpa [World.onDb, World.issue, hrecords] using hw.records k
      · simpa [World.onDb, World.issue, hk] using hw.records k
    case fs => exact hw.fs
    case vector => exact hw.vector
  refine Ensures.forM (I := fun _ => Collected prog L) fun _ h _ => ?_
  unfold call
  split_ifs with hf
  · refine (Ensures.modify (Q := fun _ w => Thrown f w ∧ Sound G w)
      fun w hw => ⟨thrown_failed hf w, fun k _ => ?_⟩).bind fun _ =>
        .throw fun _ hw => ⟨.inl hw.1, hw.2⟩
    have hw' := hclosed w h (Db.failed (.close h)) (fun _ => by simp [Db.failed]) (fun _ => rfl) hw
    rw [World.failed, Call.handle, hw'.records]
    exact hG k
  · exact Ensures.modify fun w hw =>
      hclosed w h (Db.done (.close h)) (fun _ => by simp [Db.done]) (fun _ => rfl) hw

/-- The end of the `try` block: `testfs` has mounted what it has collected. -/
structure Reached (prog : Program) (fk : Vfs.Fusekit) (L : Part → List Record) (w : World) :
    Prop where
  phase : ∀ h, (w.db h).phase ≠ .created
  records : ∀ h, (w.db h).records = L h
  vector : prog = .testfs → ∃ k, (∀ h, k ≤ (L h).length) ∧ (∃ h, (L h).length ≤ k) ∧
    ∀ h, w.vector h = ((L h).take k).map Record.text
  mounted : prog = .testfs →
    ∀ path, w.fs.look Vfs.root path = Vfs.mountedView fk (w.vector .p) path

theorem buildVfs_ensures : Ensures (Collected prog L)
    (if prog = .testfs then buildVfs fk else pure ⟨⟩) (fun _ => Reached prog fk L)
    (Interrupted f m G) := by
  intro w hw
  split_ifs with hprog
  · obtain ⟨k, hle, hend, hk⟩ := hw.vector hprog
    have hlen : (w.vector .p).length = (w.vector .o).length := by
      simp [hk, hle]
    obtain ⟨g, hg, hlook⟩ : ∃ g,
        exec (Vfs.Program.build .testfs fk (w.vector .s) (w.vector .p) (w.vector .o)) .fresh =
          (.ok ⟨⟩, g) ∧ ∀ path, g.look Vfs.root path = Vfs.mountedView fk (w.vector .p) path :=
      Vfs.build_mounted .testfs hlen.le
    have hx : exec (buildVfs fk) w = (.ok ⟨⟩, { w with fs := g }) := by
      unfold buildVfs
      rw [exec_bind_ok (exec_get w), exec_onPart, hw.fs, hg]
    rw [hx]
    exact ⟨hw.phase, hw.records, hw.vector, fun _ => hlook⟩
  · exact ⟨hw.phase, hw.records, hw.vector, fun h => absurd h hprog⟩

theorem rest_ensures (hG : ∀ h, G h (L h)) : Ensures (At (fun _ => .opened) L) (do
      outputData prog f
      parts.forM fun h => call f (.close h)
      (if prog = .testfs then buildVfs fk else pure ⟨⟩))
    (fun _ => Reached prog fk L) (Interrupted f m G) :=
  (outputData_ensures hG).bind fun _ => (close_ensures hG).bind fun _ => buildVfs_ensures

theorem body_create_ensures : Ensures (At (fun _ => .created) L) (body prog fk disk .create f)
    (fun _ => Reached prog fk full) (Interrupted f False Begun) :=
  (setFlags_ensures fun _ hh => absurd rfl hh).bind fun _ =>
    (openDb_create_ensures begun_nil).bind fun _ =>
      insertData_ensures.bind fun _ => rest_ensures begun_full

theorem body_readOnly_ensures (hL : ∀ h l, disk h = some l → L h = l) :
    Ensures (At (fun _ => .created) L) (body prog fk disk .readOnly f)
      (fun _ w => Reached prog fk L w ∧ ∀ h, disk h = some (L h))
      (Interrupted f (∃ h, disk h = none) fun h l => disk h = some l) := by
  refine (setFlags_ensures fun _ hh => absurd rfl hh).bind fun _ =>
    (openDb_readOnly_ensures hL).bind fun _ => ?_
  rintro w ⟨hw, hdisk⟩
  rw [if_neg (by decide), pure_bind]
  exact ((rest_ensures hdisk).weaken (fun _ => id) (fun _ _ h => ⟨h, hdisk⟩) fun _ _ => id) w hw

/-! ## One run after the other -/

theorem at_load (disk : Disk) : At (fun _ => .created) (fun h => (disk h).getD []) (load disk) :=
  ⟨fun _ => rfl, fun _ => rfl, fun _ => rfl, rfl⟩

def after (fk : Vfs.Fusekit) (disk : Disk) (i : Start) : Disk := (main fk disk i).2.2

def Disk.Partial (disk : Disk) : Prop := ∀ h l, disk h = some l → Begun h l

theorem save_of_sound (hw : Sound G w) {l : List Record} (hl : save disk w h = some l) :
    disk h = some l ∨ G h l := by
  unfold save at hl
  split_ifs at hl with hphase
  · exact .inl hl
  · obtain rfl := Option.some.inj hl
    exact .inr (hw h hphase)

theorem save_of_reached (hw : Reached prog fk L w) (h : Part) : save disk w h = some (L h) := by
  rw [save, if_neg (hw.phase h), hw.records]

theorem main_of_ok {i : Start} (hi : parse .readOnly i.opts = some flags)
    (hx : exec (body i.prog fk disk flags i.faults) (load disk) = (.ok ⟨⟩, w)) :
    main fk disk i = (.reached, w, save disk w) := by
  simp [main, hi, hx]

theorem main_of_error {i : Start} {e : Exception} (hi : parse .readOnly i.opts = some flags)
    (hx : exec (body i.prog fk disk flags i.faults) (load disk) = (.error e, w)) :
    main fk disk i = (.caught, w, save disk w) := by
  simp [main, hi, hx]

theorem main_create (fk : Vfs.Fusekit) (disk : Disk) {i : Start}
    (hi : parse .readOnly i.opts = some .create) : ∃ w,
    main fk disk i = (.reached, w, fun h => some (full h)) ∧ Reached i.prog fk full w ∨
      main fk disk i = (.caught, w, save disk w) ∧ Thrown i.faults w ∧ Sound Begun w := by
  have hbody : Ensures (At (fun _ => .created) fun h => (disk h).getD [])
    (body i.prog fk disk .create i.faults) _ _ := body_create_ensures
  have hleft := hbody (load disk) (at_load disk)
  rcases hx : exec (body i.prog fk disk .create i.faults) (load disk) with ⟨e | ⟨⟨⟩⟩, w⟩ <;>
    rw [hx] at hleft
  · exact ⟨w, .inr ⟨main_of_error hi hx, hleft.1.resolve_right not_false, hleft.2⟩⟩
  · have hsave : save disk w = fun h => some (full h) := funext (save_of_reached hleft)
    exact ⟨w, .inl ⟨hsave ▸ main_of_ok hi hx, hleft⟩⟩

theorem main_readOnly (fk : Vfs.Fusekit) (disk : Disk) {i : Start}
    (hi : parse .readOnly i.opts = some .readOnly) : ∃ w,
    main fk disk i = (.caught, w, disk) ∧ (Thrown i.faults w ∨ ∃ h, disk h = none) ∨
      main fk disk i = (.reached, w, disk) ∧ (∀ h, disk h = some ((disk h).getD [])) ∧
        Reached i.prog fk (fun h => (disk h).getD []) w := by
  have hL : ∀ h l, disk h = some l → (disk h).getD [] = l := by
    intro h l hl
    rw [hl]
    rfl
  have hbody : Ensures (At (fun _ => .created) fun h => (disk h).getD [])
    (body i.prog fk disk .readOnly i.faults) _ _ := body_readOnly_ensures hL
  have hleft := hbody (load disk) (at_load disk)
  rcases hx : exec (body i.prog fk disk .readOnly i.faults) (load disk) with ⟨e | ⟨⟨⟩⟩, w⟩ <;>
    rw [hx] at hleft
  · have hmain := main_of_error hi hx
    have hsave : save disk w = disk := by
      ext h : 1
      unfold save
      split_ifs with hphase
      · rfl
      · exact (hleft.2 h hphase).symm
    rw [hsave] at hmain
    exact ⟨w, .inl ⟨hmain, hleft.1⟩⟩
  · obtain ⟨hw, hdisk⟩ := hleft
    have hmain := main_of_ok hi hx
    have hsave : save disk w = disk := by
      ext h : 1
      rw [save_of_reached hw, ← hdisk h]
    rw [hsave] at hmain
    exact ⟨w, .inr ⟨hmain, hdisk, hw⟩⟩

/-- A run that may not write leaves the databases as they are. -/
theorem after_of_reads {i : Start} (hi : parse .readOnly i.opts ≠ some .create) :
    after fk disk i = disk := by
  rcases hflags : parse .readOnly i.opts with _ | _ | _
  · unfold after main
    rw [hflags]
  · exact absurd hflags hi
  · obtain ⟨w, ⟨hw, -⟩ | ⟨hw, -⟩⟩ := main_readOnly fk disk hflags <;>
      rw [after, hw]

theorem Disk.Partial.after (hd : disk.Partial) (i : Start) : (after fk disk i).Partial := by
  by_cases hi : parse .readOnly i.opts = some .create
  · intro h l hl
    obtain ⟨w, ⟨hw, -⟩ | ⟨hw, -, hsound⟩⟩ := main_create fk disk hi
    · rw [Testfs.after, hw] at hl
      obtain rfl := Option.some.inj hl
      exact begun_full h
    · rw [Testfs.after, hw] at hl
      rcases save_of_sound hsound hl with hl | hl
      · exact hd h l hl
      · exact hl
  · rwa [after_of_reads hi]

theorem partial_run {disk : Disk} (hd : disk.Partial) (is : List Start) :
    (is.foldl (after fk) disk).Partial := by
  induction is generalizing disk with
  | nil => exact hd
  | cons i is ih => exact ih (hd.after i)

/-! ## What the runs collect and mount -/

theorem text_full (h : Part) : (full h).map Record.text = values h := by
  cases h <;> decide

theorem length_full (h : Part) : (full h).length = 3 := by
  cases h <;> rfl

/-- From parts of whole insertions the same number of first values is collected in each vector. -/
theorem Reached.shows (hw : Reached .testfs fk L w) (hL : ∀ h, Begun h (L h)) :
    ∃ k ≤ 3, (∃ h, (L h).length ≤ k) ∧ (∀ h, w.vector h = (values h).take k) ∧
      ∀ path, w.fs.look Vfs.root path = Vfs.storeTree (· ∈ (values .p).take k) path := by
  obtain ⟨k, hle, hend, hk⟩ := hw.vector rfl
  have hvector : ∀ h, w.vector h = (values h).take k := by
    intro h
    have htake : (L h).take k = (full h).take k := by
      rw [List.prefix_iff_eq_take.mp (hL h), List.take_take, Nat.min_eq_left (hle h)]
    rw [hk, htake, List.map_take, text_full]
  have hk3 : k ≤ 3 := (hle .s).trans ((hL .s).length_le.trans_eq (length_full .s))
  refine ⟨k, hk3, hend, hvector, fun path => ?_⟩
  have hfree : ∀ p ∈ (values .p).take k, 0 ∉ p := by
    intro p hp
    have hvalues : ∀ v ∈ values .p, 0 ∉ v := by decide
    exact hvalues p (List.mem_of_mem_take hp)
  rw [hw.mounted rfl, hvector, Vfs.mountedView_eq_storeTree fk hfree]

/-- In any sequence of runs of either program, whatever throws in them: a run of `testfs` that
gets behind its `try` block has collected the first `k` of the inserted triples, all three if it
has created the databases, and mounts their predicates. -/
theorem collected_of_runs {is : List Start} {opts : List Opt} {faults : Faults} {disk' : Disk}
    (hmain : main fk (is.foldl (after fk) fun _ => none) ⟨.testfs, opts, faults⟩ =
      (.reached, w, disk')) :
    ∃ k ≤ 3, (parse .readOnly opts = some .create → k = 3) ∧
      (∀ h, w.vector h = (values h).take k) ∧
      ∀ path, w.fs.look Vfs.root path = Vfs.storeTree (· ∈ (values .p).take k) path := by
  have hpartial : (is.foldl (after fk) fun _ => none).Partial :=
    partial_run (fun _ _ hl => absurd hl.symm (Option.some_ne_none _)) is
  rcases hflags : parse .readOnly opts with _ | _ | _
  · simp [main, hflags] at hmain
  · obtain ⟨w', ⟨hw, hreached⟩ | ⟨hw, -⟩⟩ := main_create fk _ (i := ⟨.testfs, opts, faults⟩) hflags
    · obtain rfl : w' = w := congrArg (·.2.1) (hw.symm.trans hmain)
      obtain ⟨k, hk3, ⟨h, hend⟩, hvector, htree⟩ := hreached.shows begun_full
      rw [length_full] at hend
      exact ⟨k, hk3, fun _ => by omega, hvector, htree⟩
    · cases congrArg Prod.fst (hw.symm.trans hmain)
  · obtain ⟨w', ⟨hw, -⟩ | ⟨hw, hdisk, hreached⟩⟩ :=
      main_readOnly fk _ (i := ⟨.testfs, opts, faults⟩) hflags
    · cases congrArg Prod.fst (hw.symm.trans hmain)
    · obtain rfl : w' = w := congrArg (·.2.1) (hw.symm.trans hmain)
      obtain ⟨k, hk3, -, hvector, htree⟩ := hreached.shows fun h => hpartial h _ (hdisk h)
      exact ⟨k, hk3, nofun, hvector, htree⟩

/-- A read behind a run that was cut short in the middle of the objects. -/
theorem collected_of_runs_cut : ∃ w disk', main ⟨.keep, .keep⟩
    ([⟨.berkeleyTest, [.c], fun c => c = .put .o (record .o (str "a sister."))⟩].foldl
      (after ⟨.keep, .keep⟩) fun _ => none) ⟨.testfs, [.r], fun _ => false⟩ =
        (.reached, w, disk') ∧ w.vector .p <+: values .p := by
  have hmain : main ⟨.keep, .keep⟩
    ([⟨.berkeleyTest, [.c], fun c => c = .put .o (record .o (str "a sister."))⟩].foldl
      (after ⟨.keep, .keep⟩) fun _ => none) ⟨.testfs, [.r], fun _ => false⟩ =
        (.reached, _, _) := rfl
  obtain ⟨k, -, -, hvector, -⟩ := collected_of_runs hmain
  refine ⟨_, _, hmain, ?_⟩
  rw [hvector]
  exact List.take_prefix k _

/-- Once the databases were created without a failure, runs that read find them whole, however
they end: each of them gets behind its `try` block unless a call that it makes throws, and
`testfs` then has collected and mounted the three triples. -/
theorem read_of_created (fk : Vfs.Fusekit) (disk : Disk) (is : List Start) {c i : Start}
    (hc : (main fk disk c).1 = .reached) (hcreate : parse .readOnly c.opts = some .create)
    (his : ∀ j ∈ is, parse .readOnly j.opts ≠ some .create)
    (hi : parse .readOnly i.opts = some .readOnly) : ∃ e w,
      main fk (is.foldl (after fk) (after fk disk c)) i = (e, w, fun h => some (full h)) ∧
      (e = .caught ∧ Thrown i.faults w ∨ e = .reached ∧ (i.prog = .testfs →
        (∀ h, w.vector h = values h) ∧
          ∀ path, w.fs.look Vfs.root path = Vfs.storeTree (· ∈ values .p) path)) := by
  have hwhole : after fk disk c = fun h => some (full h) := by
    obtain ⟨w, ⟨hw, -⟩ | ⟨hw, -⟩⟩ := main_create fk disk hcreate
    · rw [after, hw]
    · rw [hw] at hc
      cases hc
  have hkept : is.foldl (after fk) (fun h => some (full h)) = fun h => some (full h) := by
    clear hi
    induction is with
    | nil => rfl
    | cons j is ih =>
      rw [List.foldl_cons, after_of_reads (his j List.mem_cons_self)]
      exact ih fun k hk => his k (List.mem_cons_of_mem _ hk)
  rw [hwhole, hkept]
  obtain ⟨w, ⟨hw, hthrown⟩ | ⟨hw, -, hreached⟩⟩ := main_readOnly fk (fun h => some (full h)) hi
  · refine ⟨_, w, hw, .inl ⟨rfl, hthrown.resolve_right ?_⟩⟩
    rintro ⟨h, hh⟩
    cases hh
  · refine ⟨_, w, hw, .inr ⟨rfl, fun hprog => ?_⟩⟩
    rw [hprog] at hreached
    obtain ⟨k, hk3, ⟨h, hend⟩, hvector, htree⟩ := hreached.shows begun_full
    have hk : k = 3 := by
      have hlength : ((some (full h)).getD []).length = 3 := length_full h
      omega
    subst hk
    refine ⟨fun h => ?_, htree⟩
    rw [hvector]
    cases h <;> rfl

/-- Two reads behind a creation; the first one fails. -/
theorem read_of_created_twice : ∃ w disk', main ⟨.keep, .keep⟩
    ([⟨.testfs, [], fun c => c = .cursor .p⟩].foldl (after ⟨.keep, .keep⟩)
      (after ⟨.keep, .keep⟩ (fun _ => none) ⟨.berkeleyTest, [.c], fun _ => false⟩))
      ⟨.testfs, [.c, .r], fun _ => false⟩ = (.reached, w, disk') ∧ w.vector .p = values .p := by
  obtain ⟨e, w, hmain, ⟨-, c, -, hc⟩ | ⟨rfl, hshows⟩⟩ :=
    read_of_created ⟨.keep, .keep⟩ (fun _ => none) [⟨.testfs, [], fun c => c = .cursor .p⟩]
      (c := ⟨.berkeleyTest, [.c], fun _ => false⟩) (i := ⟨.testfs, [.c, .r], fun _ => false⟩)
      rfl rfl (by decide) rfl
  · cases hc
  · exact ⟨w, _, hmain, (hshows rfl).1 .p⟩

end M3Sec.Berkeley.Testfs
