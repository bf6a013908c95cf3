import M3Sec.Library.Runs
import M3Sec.Vfs.Mounted
import M3Sec.Berkeley.Commands

/-! # The calls of a command

In a given state, a command makes a fixed list of calls, cut short by the first call
that throws. The rounds of the print loop push to the vectors between its calls. What
a command does to the state, and whether it returns `0`, follows from the list.
-/

namespace M3Sec.Berkeley

open Fallible Scripts

variable {f : Faults} {w t : World} {c : Call} {h : Part} {a : Act} {n : ℕ}

inductive Act
  | call (c : Call)
  | push (s p o : Record)

def Act.isCall : Act → Bool
  | .call _ => true
  | .push .. => false

def Act.fails (f : Faults) : Act → Bool
  | .call c => f c
  | .push .. => false

def effects : Effects World Act where
  done
    | w, .call c => w.done c
    | w, .push s p o => w.push s p o
  failed
    | w, .call c => w.failed c
    | w, .push .. => w

/-- The three handles in the order in which every command goes through them. -/
def parts : List Part := [.s, .p, .o]

def eachPart (c : Part → Call) : List Act := parts.map fun h => .call (c h)

def puts (h : Part) : List Act := (values h).map fun value => .call (.put h (record h value))

/-- The loop of `printDbData`. -/
def rounds (n : ℕ) : (cur_s cur_p cur_o : List Record) → List Act
  | [], _, _ => [.call (.get .s n)]
  | _ :: _, [], _ => [.call (.get .s n), .call (.get .p n)]
  | _ :: _, _ :: _, [] => [.call (.get .s n), .call (.get .p n), .call (.get .o n)]
  | s :: cur_s, p :: cur_p, o :: cur_o =>
    .call (.get .s n) :: .call (.get .p n) :: .call (.get .o n) :: .push s p o ::
      rounds (n + 1) cur_s cur_p cur_o

def World.rounds (w : World) : List Act :=
  Berkeley.rounds 0 (w.db .s).records (w.db .p).records (w.db .o).records

/-- What a command does inside its `try` block when nothing throws. -/
def Command.script (w : World) : Command → List Act
  | .createDb => eachPart .setFlags ++ eachPart .openDb
  | .insertDbData => puts .s ++ puts .p ++ puts .o
  | .printDbData => eachPart .cursor ++ w.rounds ++ eachPart .closeCursor
  | .closeDb | .createDbVfs => eachPart .close

def Command.leaves (c : Command) (f : Faults) (w : World) : World :=
  perform effects (Act.fails f) w (c.script w)

def Command.Succeeds (c : Command) (f : Faults) (w : World) : Prop :=
  Completes (Act.fails f) (c.script w)

instance (c : Command) (f : Faults) (w : World) : Decidable (c.Succeeds f w) :=
  inferInstanceAs (Decidable (Completes _ _))

@[simp] theorem call_mem_eachPart {g : Part → Call} : .call c ∈ eachPart g ↔ ∃ h, c = g h := by
  simp only [eachPart, parts, List.mem_map, List.mem_cons, List.not_mem_nil, or_false,
    Act.call.injEq]
  constructor
  · rintro ⟨h, -, rfl⟩
    exact ⟨h, rfl⟩
  · rintro ⟨h, rfl⟩
    exact ⟨h, by cases h <;> simp, rfl⟩

theorem call_mem_puts (hc : .call c ∈ puts h) : ∃ r, c = .put h r := by
  obtain ⟨value, -, hv⟩ := List.mem_map.mp hc
  cases hv
  exact ⟨_, rfl⟩

theorem call_mem_rounds {cur_s cur_p cur_o : List Record}
    (hc : .call c ∈ rounds n cur_s cur_p cur_o) : ∃ h m, c = .get h m := by
  fun_induction rounds n cur_s cur_p cur_o with
  | case1 n | case2 n | case3 n =>
    simp only [List.mem_cons, List.not_mem_nil, or_false, Act.call.injEq] at hc
    rcases hc with rfl | rfl | rfl <;> exact ⟨_, _, rfl⟩
  | case4 n s cur_s p cur_p o cur_o ih =>
    simp only [List.mem_cons, Act.call.injEq, reduceCtorEq, false_or] at hc
    rcases hc with rfl | rfl | rfl | hc
    · exact ⟨_, _, rfl⟩
    · exact ⟨_, _, rfl⟩
    · exact ⟨_, _, rfl⟩
    · exact ih hc

theorem call_mem_insertDbData (hc : .call c ∈ Command.insertDbData.script w) :
    ∃ h r, c = .put h r := by
  rcases List.mem_append.mp hc with hc | hc
  · rcases List.mem_append.mp hc with hc | hc
    · exact ⟨.s, call_mem_puts hc⟩
    · exact ⟨.p, call_mem_puts hc⟩
  · exact ⟨.o, call_mem_puts hc⟩

theorem call_mem_printDbData (hc : .call c ∈ Command.printDbData.script w) :
    (∃ h, c = .cursor h) ∨ (∃ h m, c = .get h m) ∨ ∃ h, c = .closeCursor h := by
  rcases List.mem_append.mp hc with hc | hc
  · rcases List.mem_append.mp hc with hc | hc
    · exact .inl (call_mem_eachPart.mp hc)
    · exact .inr (.inl (call_mem_rounds hc))
  · exact .inr (.inr (call_mem_eachPart.mp hc))

/-! ## What one call does -/

@[simp] theorem db_done (w : World) (c : Call) (h : Part) :
    (w.done c).db h = if h = c.handle then (w.db h).done c else w.db h := by
  by_cases hh : h = c.handle
  · subst hh; simp [World.done, World.onDb, World.issue]
  · simp [World.done, World.onDb, World.issue, hh]

@[simp] theorem db_failed (w : World) (c : Call) (h : Part) :
    (w.failed c).db h = if h = c.handle then (w.db h).failed c else w.db h := by
  by_cases hh : h = c.handle
  · subst hh; simp [World.failed, World.onDb, World.issue]
  · simp [World.failed, World.onDb, World.issue, hh]

/-- The call leaves a view of every handle as it was, whether it throws or not. -/
def Call.Keeps {β : Type} (view : Db → β) (c : Call) : Prop :=
  ∀ d : Db, view (d.done c) = view d ∧ view (d.failed c) = view d

section Keeps

variable {β : Type} {view : Db → β}

theorem Call.Keeps.done (hc : c.Keeps view) (w : World) (h : Part) :
    view ((w.done c).db h) = view (w.db h) := by
  rw [db_done]
  split
  · exact (hc _).1
  · rfl

theorem Call.Keeps.failed (hc : c.Keeps view) (w : World) (h : Part) :
    view ((w.failed c).db h) = view (w.db h) := by
  rw [db_failed]
  split
  · exact (hc _).2
  · rfl

theorem view_db_perform {as : List Act} (has : ∀ c, .call c ∈ as → c.Keeps view) (w : World)
    (h : Part) : view ((perform effects (Act.fails f) w as).db h) = view (w.db h) := by
  apply perform_invariant (fun t : World => view (t.db h) = view (w.db h))
  · rintro (c | ⟨s, p, o⟩) ha t ht
    · exact ((has c ha).done t h).trans ht
    · exact ht
  · rintro (c | ⟨s, p, o⟩) ha t ht
    · exact ((has c ha).failed t h).trans ht
    · exact ht
  · rfl

end Keeps

/-! ## The records -/

def Call.reads : Call → Bool
  | openDb _ | put .. => false
  | setFlags _ | cursor _ | get .. | closeCursor _ | close _ => true

theorem keeps_records (hc : c.reads) : c.Keeps Db.records := by
  intro d
  cases c with
  | openDb | put => cases hc
  | setFlags | cursor | get | closeCursor | close => exact ⟨rfl, rfl⟩

def Act.putOn (h : Part) : Act → Option Record
  | .call (.put h' r) => if h = h' then some r else none
  | _ => none

theorem records_done (hc : ∀ h, c ≠ .openDb h) (w : World) (h : Part) :
    ((w.done c).db h).records =
      match (Act.call c).putOn h with
      | some r => insertDup r (w.db h).records
      | none => (w.db h).records := by
  cases c with
  | openDb h => exact absurd rfl (hc h)
  | put h' r =>
    by_cases hh : h = h' <;> simp [Act.putOn, Call.handle, Db.done, hh]
  | setFlags | cursor | get | closeCursor | close =>
    rw [db_done]
    split <;> rfl

theorem records_failed (w : World) (c : Call) (h : Part) :
    ((w.failed c).db h).records = (w.db h).records := by
  rw [db_failed]
  split
  · cases c <;> rfl
  · rfl

/-- Unless it is opened, a database gets the records that are put into it, one by one. -/
theorem records_perform {as : List Act} (has : ∀ h, .call (.openDb h) ∉ as) (w : World)
    (h : Part) : ((perform effects (Act.fails f) w as).db h).records =
      ((performed (Act.fails f) as).filterMap (Act.putOn h)).foldl (fun l r => insertDup r l)
        (w.db h).records := by
  rw [List.foldl_filterMap]
  refine view_perform (fun t : World => (t.db h).records) _ ?_ ?_ w
  · rintro (c | ⟨s, p, o⟩) ha t
    · refine (records_done (fun h hc => has h (hc ▸ ha)) t h).trans ?_
      cases (Act.call c).putOn h <;> rfl
    · rfl
  · rintro (c | ⟨s, p, o⟩) - t
    · exact records_failed t c h
    · rfl

theorem records_perform_of_reads {as : List Act} (has : ∀ c, .call c ∈ as → c.reads)
    (w : World) (h : Part) :
    ((perform effects (Act.fails f) w as).db h).records = (w.db h).records :=
  view_db_perform (fun c hc => keeps_records (has c hc)) w h

/-! ## From the commands to their scripts -/

def act (f : Faults) : Act → Fallible World Exception PUnit
  | .call c => Berkeley.call f c
  | .push s p o => modify (·.push s p o)

theorem exec_act (f : Faults) (a : Act) (w : World) : exec (act f a) w =
    if a.fails f then (.error .dbException, effects.failed w a) else (.ok ⟨⟩, effects.done w a) := by
  cases a with
  | push s p o => rfl
  | call c =>
    change exec (if f c then _ else _) w = if f c then _ else _
    split <;> rfl

theorem walk_eq_forM (f : Faults) (n : ℕ) (cur_s cur_p cur_o : List Record) :
    walk f n cur_s cur_p cur_o = (rounds n cur_s cur_p cur_o).forM (act f) := by
  fun_induction rounds n cur_s cur_p cur_o with
  | case1 n => simp [walk, act]
  | case2 n => simp [walk, act]
  | case3 n => simp [walk, act]
  | case4 n s cur_s p cur_p o cur_o ih => simp [walk, act, ih]

theorem exec_guarded {x : Fallible World Exception PUnit} {as : List Act}
    (hx : exec x w = (if Completes (Act.fails f) as then .ok ⟨⟩ else .error .dbException, t)) :
    exec (guarded do x; return 0) w =
      (.ok (if Completes (Act.fails f) as then 0 else -1), t) := by
  unfold guarded
  rw [exec_tryCatch]
  by_cases h : Completes (Act.fails f) as
  · simp only [if_pos h] at hx ⊢
    rw [exec_bind_ok hx]
    rfl
  · simp only [if_neg h] at hx ⊢
    rw [exec_bind_error hx]
    rfl

theorem exec_createDb (f : Faults) (w : World) : exec (createDb f) w =
    (.ok (if Command.createDb.Succeeds f w then 0 else -1), Command.createDb.leaves f w) := by
  refine Eq.trans ?_ (exec_guarded (exec_forM (exec_act f) _ w))
  simp [createDb, Command.script, eachPart, parts, act]

theorem exec_closeDb (f : Faults) (w : World) : exec (closeDb f) w =
    (.ok (if Command.closeDb.Succeeds f w then 0 else -1), Command.closeDb.leaves f w) := by
  refine Eq.trans ?_ (exec_guarded (exec_forM (exec_act f) _ w))
  simp [closeDb, Command.script, eachPart, parts, act]

theorem exec_insertDbData (f : Faults) (w : World) : exec (insertDbData f) w =
    (.ok (if Command.insertDbData.Succeeds f w then 0 else -1),
      Command.insertDbData.leaves f w) := by
  refine Eq.trans ?_ (exec_guarded (exec_forM (exec_act f) _ w))
  simp [insertDbData, Command.script, puts, act]

theorem rounds_of_records (ht : ∀ h, (t.db h).records = (w.db h).records) :
    t.rounds = w.rounds := by
  simp only [World.rounds, ht]

/-- A loop between the cursors walks the records that were there before they were opened. -/
theorem exec_between {loop : World → List Act}
    (hloop : ∀ {t w : World}, (∀ h, (t.db h).records = (w.db h).records) → loop t = loop w)
    (f : Faults) (w : World) : exec (do
      (eachPart .cursor).forM (act f)
      let w ← get
      (loop w ++ eachPart .closeCursor).forM (act f)) w =
    (if Completes (Act.fails f) (eachPart .cursor ++ loop w ++ eachPart .closeCursor) then .ok ⟨⟩
      else .error .dbException,
      perform effects (Act.fails f) w (eachPart .cursor ++ loop w ++ eachPart .closeCursor)) := by
  have hx := exec_forM (exec_act f) (eachPart .cursor) w
  have hrounds : loop (perform effects (Act.fails f) w (eachPart .cursor)) = loop w := by
    apply hloop
    intro h
    apply records_perform_of_reads
    intro c hc
    obtain ⟨k, rfl⟩ := call_mem_eachPart.mp hc
    rfl
  simp only [List.append_assoc, perform_append, completes_append]
  by_cases hc : Completes (Act.fails f) (eachPart .cursor)
  · rw [if_pos hc] at hx
    rw [exec_bind_ok hx, exec_bind_ok (exec_get _), hrounds, exec_forM (exec_act f)]
    simp [hc, perform_append]
  · rw [if_neg hc] at hx
    rw [exec_bind_error hx]
    simp [hc]

theorem exec_printDbData (f : Faults) (w : World) : exec (printDbData f) w =
    (.ok (if Command.printDbData.Succeeds f w then 0 else -1),
      Command.printDbData.leaves f w) := by
  refine Eq.trans ?_ (exec_guarded (exec_between rounds_of_records f w))
  simp [printDbData, walk_eq_forM, World.rounds, eachPart, parts, act]

/-! ## From prompt to prompt -/

theorem exec_buildOn (fk : Vfs.Fusekit) (w : World) : ∃ fs,
    exec (buildOn fk) w = (.ok ⟨⟩, { w with fs := fs }) ∨
      ∃ e, exec (buildOn fk) w = (.error e, { w with fs := fs }) ∧
        ¬ (w.vector .p).length ≤ (w.vector .o).length := by
  unfold buildOn
  rw [exec_bind_ok (exec_get w)]
  rcases hb : exec (Vfs.Program.build .bdbVfs fk (w.vector .s) (w.vector .p) (w.vector .o)) w.fs
    with ⟨e | ⟨⟨⟩⟩, fs⟩
  · refine ⟨fs, .inr ⟨e, rfl, fun hlen => ?_⟩⟩
    obtain ⟨_, _, hok, -⟩ := Vfs.build_returns .bdbVfs hlen w.fs
    rw [hb] at hok
    cases hok
  · exact ⟨fs, .inl rfl⟩

theorem exec_createDbVfs (fk : Vfs.Fusekit) (f : Faults) (w : World) : ∃ fs,
    exec (createDbVfs fk f) w =
      (.ok ⟨⟩, Command.createDbVfs.leaves f { w with fs := fs }) ∨
    ∃ e, exec (createDbVfs fk f) w = (.error e, { w with fs := fs }) ∧
      ¬ (w.vector .p).length ≤ (w.vector .o).length := by
  unfold createDbVfs
  obtain ⟨fs, hb | ⟨e, hb, hlen⟩⟩ := exec_buildOn fk w
  · refine ⟨fs, .inl ?_⟩
    rw [exec_bind_ok hb, exec_bind_ok (exec_closeDb f _)]
    rfl
  · exact ⟨fs, .inr ⟨e, exec_bind_error hb, hlen⟩⟩

theorem exec_execute (fk : Vfs.Fusekit) (f : Faults) (w : World) {c : Command}
    (hc : c ≠ .createDbVfs) : exec (c.execute fk f) w = (.ok ⟨⟩, c.leaves f w) := by
  cases c with
  | createDb => exact exec_bind_ok (exec_createDb f w)
  | insertDbData => exact exec_bind_ok (exec_insertDbData f w)
  | printDbData => exact exec_bind_ok (exec_printDbData f w)
  | closeDb => exact exec_bind_ok (exec_closeDb f w)
  | createDbVfs => exact absurd rfl hc

theorem prompt_cases {fk : Vfs.Fusekit} {i : Input} (ht : prompt fk w i = some t) :
    (Command.ofKey i.key = none ∧ t = w) ∨
      ∃ c fs, Command.ofKey i.key = some c ∧ (c ≠ .createDbVfs → fs = w.fs) ∧
        t = c.leaves i.faults { w with fs := fs } := by
  unfold prompt at ht
  cases hk : Command.ofKey i.key with
  | none =>
    rw [hk] at ht
    exact .inl ⟨rfl, (Option.some.inj ht).symm⟩
  | some c =>
    rw [hk] at ht
    refine .inr ?_
    by_cases hc : c = .createDbVfs
    · subst hc
      obtain ⟨fs, hx | ⟨e, hx, -⟩⟩ := exec_createDbVfs fk i.faults w
      · simp only [Command.execute, hx] at ht
        exact ⟨_, fs, rfl, fun hne => absurd rfl hne, (Option.some.inj ht).symm⟩
      · simp only [Command.execute, hx] at ht
        cases ht
    · simp only [exec_execute fk i.faults w hc] at ht
      exact ⟨c, w.fs, rfl, fun _ => rfl, (Option.some.inj ht).symm⟩

/-- The program goes on as long as the objects are as many as the predicates. -/
theorem prompt_isSome (fk : Vfs.Fusekit) (i : Input)
    (h : (w.vector .p).length ≤ (w.vector .o).length) : ∃ t, prompt fk w i = some t := by
  unfold prompt
  cases Command.ofKey i.key with
  | none => exact ⟨w, rfl⟩
  | some c =>
    by_cases hc : c = .createDbVfs
    · subst hc
      obtain ⟨fs, hx | ⟨e, hx, hlen⟩⟩ := exec_createDbVfs fk i.faults w
      · exact ⟨_, by simp only [Command.execute, hx]; rfl⟩
      · exact absurd h hlen
    · exact ⟨_, by simp only [exec_execute fk i.faults w hc]; rfl⟩

end M3Sec.Berkeley
