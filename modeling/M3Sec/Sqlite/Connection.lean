import M3Sec.Library.Runs
import M3Sec.Sqlite.Query

/-! # The connection of a `DB` object

The methods of `DB` share one raw pointer that `close` does not reset and `open`
overwrites. A sequence of calls uses its connections properly exactly when each
`open` is made while no open connection is pointed to, and each other method while
the pointer does not point to a closed one.
-/

namespace M3Sec.Sqlite

open Fallible

variable {db db' : State} {c : SqliteCall}

/-- The public methods, with what SQLite answers to them. -/
inductive Method where
  | openDb (r : OpenResult)
  | query (e : Execution)
  | getAllTriplesText (triple node : Execution)
  | close

def after (db : State) : Method → State
  | .openDb r => (exec (openDb r) db).2
  | .query e => (exec (query e) db).2
  | .getAllTriplesText triple node => (exec (getAllTriplesText triple node) db).2
  | .close => (exec close db).2

def constructed (r : OpenResult) : State := (exec (construct r) .fresh).2

/-- No call on a closed connection, and no `sqlite3_open` over an open one. -/
def Issue.Lawful (i : Issue) : Prop :=
  if i.call = .openDb then i.pointer ≠ .live else i.pointer ≠ .closed

def Method.Ready (db : State) : Method → Prop
  | .openDb _ => db.pointer ≠ .live
  | _ => db.pointer ≠ .closed

instance (i : Issue) : Decidable i.Lawful := inferInstanceAs (Decidable (ite _ _ _))

/-- All calls are lawful, a connection is closed at most once, and one that is still
open is the one pointed to. -/
structure Orderly (db : State) : Prop where
  lawful : ∀ i ∈ db.issued, i.Lawful
  once : db.closed.Nodup
  kept : ∀ c < db.opened, c ∈ db.closed ∨ db.database = some c

/-! ## What each method does to the connections -/

theorem uses_resolve (t n : List Str) : Moves Uses (resolve t n) := by
  have hat : ∀ (v : List Str) (i : ℕ), Moves Uses (at' v i : Fallible State Exception Str) := by
    intro v i
    unfold at'
    split
    · exact .pure _
    · exact .throw _
  have hpush : ∀ (k : Part), Moves Uses (do modify (State.push k (← at' n 1)) :
      Fallible State Exception PUnit) := fun k =>
    (hat n 1).bind fun _ => .modify fun _ => .of_issued rfl rfl rfl rfl
  refine (hat n 0).bind fun id => (hat t 0).bind fun a => ?_
  split_ifs
  · exact hpush .s
  refine (hat t 1).bind fun b => ?_
  split_ifs
  · exact hpush .p
  refine (hat t 2).bind fun c => ?_
  split_ifs
  · exact hpush .o
  · exact .pure _

theorem after_openDb (r : OpenResult) :
    after db (.openDb r) = (db.issue .openDb).connect r := rfl

theorem after_close : after db .close = (db.issue .close).disconnect := rfl

theorem after_query (e : Execution) :
    Uses db (after db (.query e)) ∧ ⟨.prepare, db.pointer⟩ ∈ (after db (.query e)).issued :=
  ⟨(quiet_query e db).toUses, prepare_mem_query e db⟩

theorem after_getAllTriplesText (db : State) (triple node : Execution) :
    ∃ mid, Uses db mid ∧ ⟨.prepare, db.pointer⟩ ∈ mid.issued ∧
      (after db (.getAllTriplesText triple node) = mid ∨
        after db (.getAllTriplesText triple node) = (mid.issue .close).disconnect) := by
  have huse : ∀ e : Execution, Moves Uses (query e) := fun e =>
    (quiet_query e).mono fun _ _ h => h.toUses
  have hrest : ∀ triples : List (List Str), Moves Uses (do
      let nodes_id_str ← query node
      triples.forM fun it => nodes_id_str.forM fun it_str => resolve it it_str) := fun triples =>
    (huse node).bind fun _ => .forM fun _ _ => .forM fun _ _ => uses_resolve _ _
  refine ⟨(exec (loadTriples triple node) db).2, ((huse triple).bind hrest) db, ?_, ?_⟩
  · exact (Moves.bind_from (x := query triple) hrest db).issued_subset (prepare_mem_query triple db)
  · rcases exec_bind_state (loadTriples triple node) (fun _ => close) db with h | ⟨_, h⟩
    · exact Or.inl h
    · exact Or.inr h

@[simp] theorem issued_connect (r : OpenResult) : (db.connect r).issued = db.issued := by
  cases r <;> rfl

@[simp] theorem issued_disconnect : db.disconnect.issued = db.issued := by
  unfold State.disconnect
  split
  · rfl
  · split <;> rfl

/-! ## Lawful calls -/

theorem lawful_issue_iff (call : SqliteCall) :
    (∀ i ∈ (db.issue call).issued, i.Lawful) ↔
      (∀ i ∈ db.issued, i.Lawful) ∧ Issue.Lawful ⟨call, db.pointer⟩ := by
  simp [State.issue, or_imp, forall_and]

theorem lawful_uses_iff (h : Uses db db') (hp : ⟨.prepare, db.pointer⟩ ∈ db'.issued) :
    (∀ i ∈ db'.issued, i.Lawful) ↔ (∀ i ∈ db.issued, i.Lawful) ∧ db.pointer ≠ .closed := by
  constructor
  · exact fun hl => ⟨fun i hi => hl i (h.issued_subset hi), hl _ hp⟩
  · rintro ⟨hl, hc⟩ i hi
    obtain ⟨new, hn, hnew⟩ := h.issued
    rw [hn] at hi
    rcases List.mem_append.mp hi with hi | hi
    · exact hl i hi
    · obtain ⟨ho, hpt⟩ := hnew i hi
      rwa [Issue.Lawful, if_neg ho, hpt]

theorem lawful_after_iff (m : Method) :
    (∀ i ∈ (after db m).issued, i.Lawful) ↔ (∀ i ∈ db.issued, i.Lawful) ∧ m.Ready db := by
  cases m with
  | openDb r =>
    rw [after_openDb, issued_connect, lawful_issue_iff]
    rfl
  | query e => exact lawful_uses_iff (after_query e).1 (after_query e).2
  | getAllTriplesText triple node =>
    obtain ⟨mid, hm, hp, he | he⟩ := after_getAllTriplesText db triple node
    · rw [he]
      exact lawful_uses_iff hm hp
    · rw [he, issued_disconnect, lawful_issue_iff, lawful_uses_iff hm hp, hm.pointer]
      simp [Issue.Lawful, Method.Ready]
  | close =>
    rw [after_close, issued_disconnect, lawful_issue_iff]
    rfl

theorem lawful_run_iff (ms : List Method) (h : ∀ i ∈ db.issued, i.Lawful) :
    (∀ i ∈ (ms.foldl after db).issued, i.Lawful) ↔
      Runs.Along (fun db m => some (after db m)) (fun db m => m.Ready db) db ms := by
  induction ms using List.reverseRecOn with
  | nil => exact ⟨fun _ => Runs.along_nil, fun _ => h⟩
  | append_singleton ms m ih =>
    rw [List.foldl_append, List.foldl_cons, List.foldl_nil, lawful_after_iff, ih,
      Runs.along_snoc]
    simp

/-! ## Open connections -/

/-- The pointer is to a connection opened before, and the connections that are open
are the one it points to. -/
structure Tidy (db : State) : Prop where
  bound : ∀ c, db.database = some c → c < db.opened
  once : db.closed.Nodup
  kept : ∀ c < db.opened, c ∈ db.closed ∨ db.database = some c

theorem Tidy.of_uses (h : Tidy db) (hu : Uses db db') : Tidy db' := by
  obtain ⟨hb, ho, hk⟩ := h
  exact ⟨by rwa [hu.database, hu.opened], by rwa [hu.closed],
    by rwa [hu.database, hu.opened, hu.closed]⟩

theorem Tidy.issue (h : Tidy db) (call : SqliteCall) : Tidy (db.issue call) :=
  ⟨h.bound, h.once, h.kept⟩

theorem Tidy.connect (h : Tidy db) (hp : db.pointer ≠ .live) (r : OpenResult) :
    Tidy (db.connect r) := by
  have hall : ∀ c < db.opened, c ∈ db.closed := by
    intro c hc
    rcases h.kept c hc with hc | hd
    · exact hc
    · by_contra hn
      exact hp (by simp [State.pointer, hd, hn])
  cases r
  case noMemory => exact ⟨by simp [State.connect], h.once, fun c hc => Or.inl (hall c hc)⟩
  all_goals
    refine ⟨by simp [State.connect], h.once, fun c hc => ?_⟩
    rcases Nat.lt_succ_iff_lt_or_eq.mp hc with hc | rfl
    · exact Or.inl (hall c hc)
    · exact Or.inr rfl

theorem Tidy.disconnect (h : Tidy db) (hp : db.pointer ≠ .closed) : Tidy db.disconnect := by
  unfold State.disconnect
  split
  · exact h
  · rename_i c hc
    have hn : c ∉ db.closed := fun hm => hp (by simp [State.pointer, hc, hm])
    split_ifs
    · refine ⟨h.bound, List.nodup_cons.mpr ⟨hn, h.once⟩, fun c' hc' => ?_⟩
      rcases h.kept c' hc' with hm | he
      · exact Or.inl (List.mem_cons_of_mem _ hm)
      · exact Or.inr he
    · exact h

theorem Tidy.after (h : Tidy db) {m : Method} (hm : m.Ready db) : Tidy (after db m) := by
  cases m with
  | openDb r => exact (h.issue .openDb).connect hm r
  | query e => exact h.of_uses (after_query e).1
  | getAllTriplesText triple node =>
    obtain ⟨mid, hu, _, he | he⟩ := after_getAllTriplesText db triple node
    · rw [he]; exact h.of_uses hu
    · have hp : mid.pointer ≠ .closed := hu.pointer ▸ hm
      rw [he]
      exact ((h.of_uses hu).issue .close).disconnect hp
  | close => exact (h.issue .close).disconnect hm

theorem constructed_eq (r : OpenResult) :
    constructed r = (State.fresh.issue .openDb).connect r := rfl

theorem tidy_constructed (r : OpenResult) : Tidy (constructed r) := by
  have h : Tidy State.fresh := ⟨by simp [State.fresh], List.nodup_nil, by simp [State.fresh]⟩
  exact (h.issue .openDb).connect (by decide) r

/-- After any calls on a constructed object, its connections were used properly exactly
when `open` was only called while no open connection was pointed to, and the other
methods only while no closed one was. -/
theorem orderly_iff_ready (r : OpenResult) (ms : List Method) :
    Orderly (ms.foldl after (constructed r)) ↔
      Runs.Along (fun db m => some (after db m)) (fun db m => m.Ready db) (constructed r) ms := by
  have hl : ∀ i ∈ (constructed r).issued, i.Lawful := by
    rw [constructed_eq, issued_connect, lawful_issue_iff]
    exact ⟨by simp [State.fresh], by decide⟩
  constructor
  · exact fun h => (lawful_run_iff ms hl).mp h.lawful
  · intro h
    have ht : Tidy (ms.foldl after (constructed r)) := by
      refine Runs.invariant_along Tidy ?_ (tidy_constructed r) h (Runs.run_total ..)
      intro db m t hdb hm ht
      obtain rfl := Option.some.inj ht
      exact hdb.after hm
    exact ⟨(lawful_run_iff ms hl).mpr h, ht.once, ht.kept⟩

/-- Closing and querying again calls `sqlite3_prepare_v2` on a closed connection. -/
theorem query_after_close_not_orderly :
    ¬ Orderly ([.close, .query ⟨false, 0, .stop .done⟩].foldl after (constructed .ok)) :=
  fun h => absurd (h.lawful ⟨.prepare, .closed⟩ (by decide)) (by decide)

end M3Sec.Sqlite
