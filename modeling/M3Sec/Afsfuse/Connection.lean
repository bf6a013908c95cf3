import M3Sec.Afsfuse.Exclusion
import M3Sec.Afsfuse.Listing
import M3Sec.Afsfuse.Split
import M3Sec.Library.Serial

/-! # The use of the connection

An operation waits for the connection, asks the server once, and gives the connection back.
Nothing is done with the connection but by the operation that has it, and however many
operations there are, they all return.
-/

namespace M3Sec.Afsfuse

open Fallible Locks Runs

open Serial (Task)

/-- What happens between `getconnection` and `relconnection`. -/
def Event.Uses : Event → Prop
  | .interrupted | .acquired | .released => False
  | _ => True

def Event.request : Event → Option Request
  | .rpc q | .start q => some q
  | _ => none

namespace Operation

def request : Operation → Request
  | getattr path => .rxcGetattr path 100
  | readlink path _ => .rxcReadlink path 512
  | getdir path _ _ => .rxcGetdirWrapper path
  | mknod path mode rdev => .rxcMknod path mode (.ofNat rdev)
  | mkdir path mode => .rxcMkdir path mode
  | symlink source target => .rxcSymlink source target
  | unlink path => .rxcUnlink path
  | rmdir path => .rxcRmdir path
  | rename source target => .rxcRename source target
  | link source target => .rxcLink source target
  | chmod path mode => .rxcChmod path mode
  | chown path uid gid => .rxcChown path uid gid
  | truncate path size => .rxcTruncate path (.ofNat size)
  | utime path actime modtime => .rxcUtime path actime modtime
  | openFile path fi => .rxcOpen path fi.flags
  | read path size offset fi => .rxcRead path (.ofNat size) (.ofNat offset) fi
  | write path buffer offset fi => .rxcWrite path (.ofNat buffer.length) (.ofNat offset) fi
  | statfs path _ => .rxcStatfs path
  | release path _ mfi => .rxcRelease path mfi
  | fsync path isdatasync _ mfi => .rxcFsync path isdatasync mfi
  | flush path _ mfi => .rxcFlush path mfi

def served {ρ : Type} (env : Environment ρ) (r : ρ) : Operation → ρ
  | op@(getattr _) | op@(read ..) => (env.split op.request none r).2
  | op@(write _ buffer _ _) =>
    (env.split op.request (some (announced buffer, buffer.take (announced buffer).toNat)) r).2
  | op => (env.call op.request r).2

/-- What happens before the request is sent, -/
def before : Operation → List Event
  | getattr _ | read .. | write .. => [.newCall]
  | _ => []

/-- how it is sent, -/
def asks : Operation → Event
  | op@(getattr _) | op@(read ..) | op@(write ..) => .start op.request
  | op => .rpc op.request

/-- and what the operation returns then, and does before it gives the connection back. -/
def answer {ρ : Type} (env : Environment ρ) (r : ρ) : Operation → ℤ × List Event
  | op@(getattr _) =>
    let outcome := getattrOutcome (env.split op.request none r).1
    (outcome.ret, outcome.events)
  | op@(read ..) =>
    let outcome := readOutcome (env.split op.request none r).1
    (outcome.ret, outcome.events)
  | op@(write _ buffer _ _) =>
    let outcome := writeOutcome (announced buffer) (env.split op.request
      (some (announced buffer, buffer.take (announced buffer).toNat)) r).1
    (outcome.ret, outcome.events)
  | getdir path fillerp beyond =>
    match (env.call (.rxcGetdirWrapper path) r).1 with
    | .error _ => (-1, [])
    | .ok handles => (0, roundEvents 0 (untilStopped fillerp 0 (handles ++ [beyond])))
  | op => ((env.call op.request r).1.code, [])

def task {ρ : Type} (env : Environment ρ) (op : Operation) : Task ρ Event ℤ where
  enter := .acquired
  before := op.before
  ask := op.asks
  serve r := ((op.answer env r).1, op.served env r)
  after r := (op.answer env r).2
  leave := .released

end Operation

variable {ρ : Type} {env : Environment ρ} {s : Client ρ} {op : Operation}

/-! ## Operations -/

/-- What the operation does and returns depends on the outside alone. -/
def Follows (env : Environment ρ) (op : Operation) (s : Client ρ) : Prop :=
  ∃ buffer, exec (op.run env) s = (.ok (op.answer env s.outside).1, {
    outside := op.served env s.outside
    trace := s.trace ++ (List.replicate (env.interrupts s.outside) .interrupted ++
      (op.task env).script s.outside)
    buffer := buffer })

theorem follows_split {upload : Option (ℤ × Str)} {outcome : Call → Outcome}
    (h : Performs env (op.run env) op.request upload outcome)
    (hserved : op.served env s.outside = (env.split op.request upload s.outside).2)
    (hanswer : op.answer env s.outside = ((outcome (env.split op.request upload s.outside).1).ret,
      (outcome (env.split op.request upload s.outside).1).events))
    (hbefore : op.before = [.newCall]) (hasks : op.asks = .start op.request) :
    Follows env op s := by
  refine ⟨s.buffer.store 0 (outcome (env.split op.request upload s.outside).1).data, ?_⟩
  rw [h s]
  simp [Client.opened, Operation.task, Task.script, hserved, hanswer, hbefore, hasks]

theorem follows_remote {b : Memory.Region UInt8}
    (h : exec (op.run env) s = (.ok (env.call op.request s.outside).1.code, {
      outside := (env.call op.request s.outside).2
      trace := s.trace ++ List.replicate (env.interrupts s.outside) .interrupted ++
        [.acquired, .rpc op.request, .released]
      buffer := b }))
    (hserved : op.served env s.outside = (env.call op.request s.outside).2)
    (hanswer : op.answer env s.outside = ((env.call op.request s.outside).1.code, []))
    (hbefore : op.before = []) (hasks : op.asks = .rpc op.request) : Follows env op s := by
  refine ⟨b, ?_⟩
  rw [h]
  simp [Operation.task, Task.script, hserved, hanswer, hbefore, hasks]

theorem follows_xmpGetdir (path : CString) (fillerp : ℕ → ℤ) (beyond : MyDirhandle)
    (s : Client ρ) : Follows env (.getdir path fillerp beyond) s := by
  unfold Follows
  rw [Operation.run, xmpGetdir, exec_bind_ok exec_getconnection, exec_bind_ok (exec_rpc _ _)]
  dsimp only
  cases hreply : (env.call (.rxcGetdirWrapper path) s.outside).1 with
  | error f =>
    have hanswer : (Operation.getdir path fillerp beyond).answer env s.outside = (-1, []) := by
      simp only [Operation.answer, hreply]
    rw [exec_bind_ok exec_relconnection, exec_pure]
    refine ⟨s.buffer, ?_⟩
    simp [Operation.task, Operation.before, Operation.asks, Operation.served, Operation.request,
      Task.script, hanswer]
  | ok handles =>
    have hanswer : (Operation.getdir path fillerp beyond).answer env s.outside =
        (0, roundEvents 0 (untilStopped fillerp 0 (handles ++ [beyond]))) := by
      simp only [Operation.answer, hreply]
    have hloop : ∀ s : Client ρ,
        exec (xmpGetdirLoop handles beyond fillerp (handles.length + 1) 0) s = (.ok (), { s with
          trace := s.trace ++ roundEvents 0 (untilStopped fillerp 0 (handles ++ [beyond])) }) :=
      exec_xmpGetdirLoop [] handles
    dsimp only
    rw [exec_bind_ok (hloop _), exec_bind_ok exec_relconnection, exec_pure]
    refine ⟨s.buffer, ?_⟩
    simp [Operation.task, Operation.before, Operation.asks, Operation.served, Operation.request,
      Task.script, hanswer]

variable (env) in
theorem follows_run (op : Operation) (s : Client ρ) : Follows env op s := by
  cases op with
  | getattr path => exact follows_split (performs_xmpGetattr path) rfl rfl rfl rfl
  | read path size offset fi =>
    exact follows_split (performs_xmpRead path size offset fi) rfl rfl rfl rfl
  | write path buffer offset fi =>
    exact follows_split (performs_xmpWrite path buffer offset fi) rfl rfl rfl rfl
  | getdir path fillerp beyond => exact follows_xmpGetdir path fillerp beyond s
  | readlink path size => exact follows_remote (exec_xmpReadlink path size s) rfl rfl rfl rfl
  | openFile path fi =>
    refine follows_remote (b := s.buffer) ?_ rfl rfl rfl rfl
    have hopen : exec (xmpOpen env path fi) s = _ := exec_bind_ok (exec_remote _ s)
    exact exec_bind_ok (hopen.trans (exec_pure _ _))
  | statfs path st =>
    refine follows_remote (b := s.buffer) ?_ rfl rfl rfl rfl
    have hstatfs : exec (xmpStatfs env path st) s = _ := exec_bind_ok (exec_remote _ s)
    exact exec_bind_ok (hstatfs.trans (exec_pure _ _))
  | _ => exact follows_remote (exec_status _ s) rfl rfl rfl rfl

/-! ## What is done inside -/

theorem getattrOutcome_events (call : Call) :
    ∀ e ∈ (getattrOutcome call).events, e.Uses ∧ e.request = none := by
  unfold getattrOutcome getattrThrown
  split_ifs
  · simp [Event.Uses, Event.request]
  · cases call.header with
    | none => simp [Event.Uses, Event.request]
    | some length =>
      dsimp only
      split_ifs <;> simp [Event.Uses, Event.request]

theorem readOutcome_events (call : Call) :
    ∀ e ∈ (readOutcome call).events, e.Uses ∧ e.request = none := by
  unfold readOutcome
  by_cases hstart : call.start = 0
  · rw [if_neg (not_not_intro hstart)]
    cases call.header with
    | none => simp [Event.Uses, Event.request]
    | some length =>
      intro e he
      simp only [List.cons_append, List.mem_cons, List.mem_append, List.mem_map, List.not_mem_nil,
        or_false] at he
      rcases he with rfl | ⟨bs, -, rfl⟩ | rfl | rfl | rfl <;> exact ⟨trivial, rfl⟩
  · rw [if_pos hstart]
    simp

theorem writeOutcome_events (length : ℤ) (call : Call) :
    ∀ e ∈ (writeOutcome length call).events, e.Uses ∧ e.request = none := by
  unfold writeOutcome
  split_ifs <;> simp [Event.Uses, Event.request]

theorem roundEvents_events (i : ℕ) (handles : List MyDirhandle) :
    ∀ e ∈ roundEvents i handles, e.Uses ∧ e.request = none := by
  induction handles generalizing i with
  | nil => simp [roundEvents]
  | cons h handles ih =>
    intro e he
    rw [roundEvents, List.mem_cons, List.mem_cons] at he
    rcases he with rfl | rfl | he
    · exact ⟨trivial, rfl⟩
    · exact ⟨trivial, rfl⟩
    · exact ih (i + 1) e he

variable (env) in
theorem answer_events (op : Operation) (r : ρ) :
    ∀ e ∈ (op.answer env r).2, e.Uses ∧ e.request = none := by
  cases op with
  | getattr => exact getattrOutcome_events _
  | read => exact readOutcome_events _
  | write => exact writeOutcome_events _ _
  | getdir path fillerp beyond =>
    cases hreply : (env.call (.rxcGetdirWrapper path) r).1 with
    | error f => simp [Operation.answer, hreply]
    | ok handles =>
      simp only [Operation.answer, hreply]
      exact roundEvents_events 0 _
  | _ => exact fun e he => absurd he List.not_mem_nil

variable (env) in
theorem script_eq (op : Operation) (r : ρ) : ∃ body,
    (op.task env).script r = .acquired :: (body ++ [.released]) ∧ (∀ e ∈ body, e.Uses) ∧
      body.filterMap Event.request = [op.request] := by
  have hanswer := answer_events env op r
  refine ⟨op.before ++ op.asks :: (op.answer env r).2, ?_, ?_, ?_⟩
  · simp [Task.script, Operation.task]
  · intro e he
    rcases List.mem_append.mp he with he | he
    · have hbefore : ∀ e ∈ op.before, e.Uses := by
        cases op <;> simp [Operation.before, Event.Uses]
      exact hbefore e he
    · rcases List.mem_cons.mp he with rfl | he
      · cases op <;> trivial
      · exact (hanswer e he).1
  · have hnone : (op.answer env r).2.filterMap Event.request = [] :=
      List.filterMap_eq_nil_iff.mpr fun e he => (hanswer e he).2
    rw [List.filterMap_append, List.filterMap_cons, hnone]
    cases op <;> rfl

theorem onlyInside_events (op : Operation) (env : Environment ρ) (s : ρ) :
    OnlyInside Event.role Event.Uses (op.events env s) := by
  obtain ⟨buffer, hexec⟩ := follows_run env op ⟨s, [], .untouched fun _ => 0⟩
  obtain ⟨body, hscript, huses, -⟩ := script_eq env op s
  unfold Operation.events
  rw [hexec, hscript]
  refine onlyInside_of_shape (fun e he => ?_) rfl id fun e he => ?_
  · obtain rfl := List.eq_of_mem_replicate he
    exact ⟨rfl, id⟩
  · have hu := huses e he
    cases e <;> first | rfl | exact absurd hu id

/-! ## Operations side by side -/

variable {turns : List (Turn ρ)} {m m' : Mount}

/-- The state of the mount after some turns, as one of the semaphore's. -/
theorem run_moves (h : run Mount.step .start turns = some m) :
    run System.step (.start Event.role 1) (turns.map Turn.move) = some m := by
  rw [run_map]
  exact h

/-- Whatever is done with the connection, in any interleaving of any operations, is done by the
only operation between `getconnection` and `relconnection`. -/
theorem uses_alone (turns : List (Turn ρ)) (m : Mount) (h : run Mount.step .start turns = some m)
    (i : ℕ) (t : Thread Event.role) (e : Event) (rest : List Event) (hi : m.threads[i]? = some t)
    (ht : t.todo = e :: rest) (he : e.Uses) :
    t.inside = true ∧ ∀ j u, m.threads[j]? = some u → u.inside = true → i = j := by
  have hall : ∀ t ∈ m.threads, OnlyInside Event.role Event.Uses (t.done ++ t.todo) := by
    refine forall_events (turns.map Turn.move) (fun events hmem => ?_) (run_moves h)
    obtain ⟨turn, -, hturn⟩ := List.mem_map.mp hmem
    cases turn with
    | call op env s =>
      obtain rfl := Move.spawn.inj hturn
      exact onlyInside_events op env s
    | advance i => cases hturn
  have hinside := t.inside_of_uses (hall t (List.mem_of_getElem? hi)) ht he
  have hpermits : m.permits + m.inside = 1 := permits_add_inside _ (run_moves h)
  exact ⟨hinside, fun j u hj hu => eq_of_inside hpermits hi hj hinside hu⟩

theorem uses_alone_unlink : ∃ m t, run Mount.step .start
    [.call (.unlink ⟨str "/", by decide⟩) down (), .advance 0, .advance 0] = some m ∧
      m.threads[0]? = some t ∧ t.inside = true := by
  obtain ⟨m, hm⟩ : ∃ m, run Mount.step .start
      [.call (.unlink ⟨str "/", by decide⟩) down (), .advance 0, .advance 0] = some m :=
    Option.isSome_iff_exists.mp rfl
  obtain rfl := Option.some.inj hm
  exact ⟨_, _, rfl, rfl, (uses_alone _ _ hm 0 _ _ _ rfl rfl trivial).1⟩

/-- However the operations under way take turns, they all return: each turn takes one event off
what is left to do, and as long as something is left some operation can take a turn. -/
theorem operations_return (turns : List (Turn ρ)) (m : Mount)
    (h : run Mount.step .start turns = some m) (is : List ℕ) (m' : Mount)
    (hrun : run System.step m (is.map .advance) = some m') :
    is.length + left m'.threads = left m.threads ∧
      ((∃ t ∈ m'.threads, t.todo ≠ []) → ∃ i m'', System.step m' (.advance i) = some m'') := by
  have hpermits : m.permits + m.inside = 1 := permits_add_inside _ (run_moves h)
  have hpermits' : m'.permits + m'.inside = 1 := permits_add_inside_run hpermits _ hrun
  exact ⟨left_run is hrun, exists_advance hpermits' Nat.one_pos⟩

theorem operations_return_unlink : ∃ m m', run Mount.step .start
    [.call (.unlink ⟨str "/", by decide⟩) down ()] = some m ∧
      run System.step m [.advance 0] = some m' ∧ 1 + left m'.threads = left m.threads := by
  obtain ⟨m, hm⟩ : ∃ m, run Mount.step .start
      [.call (.unlink ⟨str "/", by decide⟩) down ()] = some m := Option.isSome_iff_exists.mp rfl
  obtain ⟨m', hm'⟩ : ∃ m', run System.step m [.advance 0] = some m' := by
    obtain rfl := Option.some.inj hm
    exact Option.isSome_iff_exists.mp rfl
  exact ⟨m, m', hm, hm', (operations_return _ m hm [0] m' hm').1⟩

end M3Sec.Afsfuse
