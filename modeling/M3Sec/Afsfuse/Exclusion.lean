import M3Sec.Library.Locks
import M3Sec.Afsfuse.Client

/-! # Mutual exclusion on the connection

Every operation takes the semaphore once and gives it back once, by whichever exit it leaves.
So with one permit, at most one operation at a time uses the connection.
-/

namespace M3Sec.Afsfuse

open Fallible Locks

variable {ρ α β : Type} {env : Environment ρ} {b : Bool} {e : Event} {q : Request}
  {E : Goto → Client ρ → Prop}

def Event.role : Event → Role
  | .acquired => .acquire
  | .released => .release
  | _ => .other

/-- What happened so far leaves the operation inside, or outside. -/
def At (b : Bool) (s : Client ρ) : Prop := Runs.run (cross Event.role) false s.trace = some b

/-! ## Parts of operations -/

def Stays (b : Bool) (x : Op ρ α) : Prop := ∀ E, Ensures (At b) x (fun _ => At b) E

def MayThrow (b : Bool) (x : Op ρ α) : Prop :=
  Ensures (At b) x (fun _ => At b) (fun _ => At b)

theorem at_event {b' : Bool} (h : cross Event.role b e = some b') :
    Ensures (At b) (event e : Op ρ Unit) (fun _ => At b') E := by
  apply Ensures.modify
  rintro s hs
  exact Runs.run_snoc_eq_some.mpr ⟨b, hs, h⟩

theorem stays_event (h : e.role = .other) : Stays b (event e : Op ρ Unit) :=
  fun _ => at_event (by unfold cross; rw [h])

theorem stays_pure (a : α) : Stays b (pure a : Op ρ α) := fun _ => .pure fun _ => id

theorem Stays.bind {x : Op ρ α} {f : α → Op ρ β} (hx : Stays b x) (hf : ∀ a, Stays b (f a)) :
    Stays b (x >>= f) := fun E => (hx E).bind fun a => hf a E

theorem stays_store (p : ℕ) (bs : Str) : Stays b (store p bs : Op ρ Unit) :=
  fun _ => .modify fun _ => id

theorem stays_ask (f : ρ → α × ρ) : Stays b (ask f : Op ρ α) := by
  intro E
  refine Ensures.bind (Q := fun _ => At b) (.get fun _ => id) fun s => ?_
  exact Ensures.bind (.modify fun _ => id) fun _ => stays_pure _ E

theorem stays_rpc : Stays b (rpc env q) := (stays_event rfl).bind fun _ => stays_ask _

theorem stays_start {upload : Option (ℤ × Str)} : Stays b (start env q upload) :=
  (stays_event rfl).bind fun _ => (stays_event rfl).bind fun _ => stays_ask _

theorem stays_rxRead {call : Call} {length : ℤ} : Stays b (rxRead call length : Op ρ ℤ) :=
  (stays_event rfl).bind fun _ => (stays_store _ _).bind fun _ => stays_pure _

theorem stays_xmpGetdirLoop {handles : List MyDirhandle} {beyond : MyDirhandle} {fillerp : ℕ → ℤ}
    (rounds iter : ℕ) :
    Stays b (xmpGetdirLoop handles beyond fillerp rounds iter : Op ρ Unit) := by
  induction rounds generalizing iter with
  | zero => exact stays_pure _
  | succ n ih =>
    refine (stays_event rfl).bind fun _ => (stays_event rfl).bind fun _ E => ?_
    exact .ite (stays_pure _ E) (ih (iter + 1) E)

theorem stays_xmpReadLoop {call : Call} (chunks : List {bs : Str // bs ≠ [] ∧ bs.length ≤ 1024})
    (t : ℕ) (readbytes : ℤ) : Stays b (xmpReadLoop call chunks t readbytes : Op ρ (ℤ × ℤ)) := by
  induction chunks generalizing t readbytes with
  | nil => exact (stays_event rfl).bind fun _ => (stays_event rfl).bind fun _ => stays_pure _
  | cons bs chunks ih =>
    exact (stays_event rfl).bind fun _ => (stays_store _ _).bind fun _ => ih _ _

theorem Stays.mayThrow {x : Op ρ α} (hx : Stays b x) : MayThrow b x := hx _

theorem mayThrow_throw : MayThrow b (throw .throwerror : Op ρ α) := .throw fun _ => id

theorem mayThrow_gotoIf (c : Bool) : MayThrow b (gotoIf c : Op ρ Unit) :=
  .ite mayThrow_throw (stays_pure _).mayThrow

theorem mayThrow_decodeLong {call : Call} : MayThrow b (decodeLong call : Op ρ ℤ) := by
  refine (stays_event rfl).mayThrow.bind fun _ => ?_
  cases call.header with
  | none => exact mayThrow_throw
  | some length => exact (stays_pure _).mayThrow

theorem at_getconnection : Ensures (At false) (getconnection env) (fun _ => At true) E := by
  refine Ensures.bind (Q := fun _ => At false) (.get fun _ => id) fun s => ?_
  refine Ensures.bind (Q := fun _ => At false) ?_ fun _ => at_event rfl
  apply Ensures.forM (I := fun _ => At false)
  rintro pre e hp
  have he : e ∈ List.replicate (env.interrupts s.outside) Event.interrupted :=
    hp.subset (by simp)
  obtain rfl := List.eq_of_mem_replicate he
  exact stays_event rfl E

theorem at_relconnection {a : α} :
    Ensures (At true) (relconnection >>= fun _ => pure a : Op ρ α) (fun _ => At false) E :=
  (at_event rfl).bind fun _ => stays_pure _ E

/-! ## Operations -/

/-- The operation does not throw, and it is outside at the end if it was at the start. -/
def Exclusive (x : Op ρ α) : Prop := ∀ E, Ensures (At false) x (fun _ => At false) E

theorem Exclusive.bind_pure {x : Op ρ α} {g : α → β} (hx : Exclusive x) :
    Exclusive (x >>= fun a => pure (g a)) := fun E => (hx E).bind fun _ => stays_pure _ E

theorem exclusive_remote : Exclusive (remote env q) := fun E =>
  at_getconnection.bind fun _ => (stays_rpc E).bind fun _ => at_relconnection

theorem exclusive_status : Exclusive (status env q) := exclusive_remote.bind_pure

/-- A split call, where a `goto` leads to code that gives the connection back. -/
theorem exclusive_split {upload : Option (ℤ × Str)} {body : Call → Op ρ ℤ}
    {thrown : Call → Goto → Op ρ ℤ}
    (hbody : ∀ call, Ensures (At true) (body call) (fun _ => At false) (fun _ => At true))
    (hthrown : ∀ call e E, Ensures (At true) (thrown call e) (fun _ => At false) E) :
    Exclusive (getconnection env >>= fun _ => start env q upload >>= fun call =>
      tryCatch (body call) (thrown call)) := fun E =>
  at_getconnection.bind fun _ => (stays_start E).bind fun call =>
    (hbody call).tryCatch fun e => hthrown call e E

theorem exclusive_xmpGetattr {path : CString} : Exclusive (xmpGetattr env path) := by
  apply exclusive_split
  case hbody =>
    rintro call
    refine (mayThrow_gotoIf _).bind fun _ => mayThrow_decodeLong.bind fun length =>
      stays_rxRead.mayThrow.bind fun nbytes => Ensures.ite ?_ ?_
    · exact (stays_store _ _).mayThrow.bind fun _ => .throw fun _ => id
    · exact (stays_event rfl _).bind fun _ => at_relconnection
  case hthrown =>
    rintro call - E
    exact (stays_event rfl E).bind fun _ => (stays_event rfl E).bind fun _ => at_relconnection

theorem exclusive_xmpRead {path : CString} {size offset : ℕ} {fi : MyFileInfo} :
    Exclusive (xmpRead env path size offset fi) := by
  apply exclusive_split
  case hbody =>
    rintro call
    exact (mayThrow_gotoIf _).bind fun _ => mayThrow_decodeLong.bind fun length =>
      (stays_xmpReadLoop _ _ _).mayThrow.bind fun _ => (stays_event rfl _).bind fun _ =>
        at_relconnection
  case hthrown =>
    rintro call - E
    exact at_relconnection

theorem exclusive_xmpWrite {path : CString} {buffer : Str} {offset : ℕ} {fi : MyFileInfo} :
    Exclusive (xmpWrite env path buffer offset fi) := by
  apply exclusive_split
  case hbody =>
    rintro call
    exact (mayThrow_gotoIf _).bind fun _ => (stays_event rfl _).bind fun _ =>
      (mayThrow_gotoIf _).bind fun _ => (stays_event rfl _).bind fun _ =>
        (mayThrow_gotoIf _).bind fun _ => (stays_event rfl _).bind fun _ =>
          (mayThrow_gotoIf _).bind fun _ => at_relconnection
  case hthrown =>
    rintro call - E
    exact (stays_event rfl E).bind fun _ => at_relconnection

theorem exclusive_xmpGetdir {path : CString} {fillerp : ℕ → ℤ} {beyond : MyDirhandle} :
    Exclusive (xmpGetdir env path fillerp beyond) := by
  intro E
  refine at_getconnection.bind fun _ => (stays_rpc E).bind fun reply => ?_
  cases reply with
  | error f => exact at_relconnection
  | ok handles => exact (stays_xmpGetdirLoop _ _ E).bind fun _ => at_relconnection

theorem exclusive_xmpReadlink {path : CString} {size : ℕ} : Exclusive (xmpReadlink env path size) :=
  fun E => (stays_store _ _ E).bind fun _ => (exclusive_remote E).bind fun _ =>
    (stays_store _ _ E).bind fun _ => stays_pure _ E

variable (env) in
theorem exclusive_run (op : Operation) : Exclusive (op.run env) := by
  cases op with
  | getattr => exact exclusive_xmpGetattr
  | readlink => exact exclusive_xmpReadlink
  | getdir => exact exclusive_xmpGetdir
  | openFile | statfs => exact exclusive_remote.bind_pure.bind_pure
  | read => exact exclusive_xmpRead
  | write => exact exclusive_xmpWrite
  | _ => exact exclusive_status

def Operation.events (op : Operation) (env : Environment ρ) (s : ρ) : List Event :=
  (exec (op.run env) ⟨s, [], .untouched fun _ => 0⟩).2.trace

theorem bracketed_events (op : Operation) (env : Environment ρ) (s : ρ) :
    Bracketed Event.role (op.events env s) :=
  Ensures.state (exclusive_run env op fun _ => At false) rfl

/-! ## Operations side by side -/

inductive Turn (ρ : Type) where
  | call (op : Operation) (env : Environment ρ) (s : ρ)
  | advance (i : ℕ)

def Turn.move : Turn ρ → Move Event.role
  | .call op env s => .spawn ⟨op.events env s, bracketed_events op env s⟩
  | .advance i => .advance i

abbrev Mount := System Event.role

def Mount.step (m : Mount) (t : Turn ρ) : Option Mount := System.step m t.move

/-- After `sem_init(&semlock, 0, 1)`. -/
def Mount.start : Mount := System.start Event.role 1

/-- At any time the value of the semaphore and the operations between `getconnection` and
`relconnection` add up to one, and an operation that returned has released as often as it has
acquired. -/
theorem semaphore_add_inside (turns : List (Turn ρ)) (m : Mount)
    (h : Runs.run Mount.step .start turns = some m) :
    m.permits + m.inside = 1 ∧ ∀ t ∈ m.threads, t.todo = [] → t.acquired = t.released := by
  constructor
  · apply permits_add_inside (turns.map Turn.move)
    rw [Runs.run_map]
    exact h
  · rintro t - ht
    exact t.acquired_eq_released ht

/-- Two calls, of which the first gets the connection while the second waits. -/
theorem semaphore_add_inside_two : ∃ m, Runs.run Mount.step .start
    [.call (.getattr ⟨str "/", by decide⟩) down (), .call (.unlink ⟨str "/", by decide⟩) down (),
      .advance 0, .advance 0, .advance 1] = some m ∧ m.permits + m.inside = 1 := by
  obtain ⟨m, hm⟩ : ∃ m, Runs.run Mount.step .start
      [.call (.getattr ⟨str "/", by decide⟩) down (), .call (.unlink ⟨str "/", by decide⟩) down (),
        .advance 0, .advance 0, .advance 1] = some m := Option.isSome_iff_exists.mp rfl
  exact ⟨m, hm, (semaphore_add_inside _ m hm).1⟩

end M3Sec.Afsfuse
