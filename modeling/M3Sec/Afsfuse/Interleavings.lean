import M3Sec.Afsfuse.Sessions

/-! # Operations that go on at the same time

FUSE calls operations while others are under way, and each goes on when it is its turn. What
they return, what they leave on the server and what is done with the connection is all as if
they were called one after the other, each when the one before it has returned.
-/

namespace M3Sec.Afsfuse

open Fallible Runs

variable {ρ σ : Type} {env : Environment ρ} {op : Operation}

/-- The operations that were called, the outside, the semaphore, and what has happened. -/
abbrev Concurrent (ρ : Type) := Serial.System ρ Operation Event ℤ

namespace Concurrent

/-- A wait that is interrupted is taken up again. -/
def step (env : Environment ρ) : Concurrent ρ → Serial.Move Operation → Option (Concurrent ρ) :=
  Serial.step (Operation.task env)

def start (r : ρ) : Concurrent ρ := Serial.System.start r

end Concurrent

def Event.isInterrupted : Event → Bool
  | .interrupted => true
  | _ => false

/-- What happens, the waits apart. -/
def Client.happened (c : Client ρ) : List Event := c.trace.filter fun e => !e.isInterrupted

theorem filter_script (env : Environment ρ) (op : Operation) (r : ρ) :
    ((op.task env).script r).filter (fun e => !e.isInterrupted) = (op.task env).script r := by
  obtain ⟨body, hscript, huses, -⟩ := script_eq env op r
  rw [hscript, List.filter_eq_self]
  intro e he
  rcases List.mem_cons.mp he with rfl | he
  · rfl
  · rcases List.mem_append.mp he with he | he
    · have hu := huses e he
      cases e <;> first | rfl | exact hu.elim
    · obtain rfl := List.mem_singleton.mp he
      rfl

theorem simulates_task (env : Environment ρ) (op : Operation) :
    Simulates (fun (c : Client ρ) u => (c.outside, c.happened) = u) (op.run env)
      (op.task env).perform := by
  rintro c u rfl
  obtain ⟨buffer, hexec⟩ := follows_run env op c
  refine ⟨_, hexec, Prod.ext rfl ?_⟩
  have hwaits : (List.replicate (env.interrupts c.outside) Event.interrupted).filter
      (fun e => !e.isInterrupted) = [] := by
    rw [List.filter_eq_nil_iff]
    intro e he
    obtain rfl := List.eq_of_mem_replicate he
    simp [Event.isInterrupted]
  simp only [Client.happened, List.filter_append, hwaits, filter_script, List.nil_append]
  rfl

theorem exec_inOrder (env : Environment ρ) (ops : List Operation) (r : ρ)
    (buffer : Memory.Region UInt8) : ∃ c, exec (ops.mapM (Operation.run env)) ⟨r, [], buffer⟩ =
        (.ok (Serial.inOrder (Operation.task env) ops r).1, c) ∧
      (c.outside, c.happened) = (Serial.inOrder (Operation.task env) ops r).2 :=
  Simulates.mapM (fun op _ => simulates_task env op) _ _ rfl

variable {moves later : List (Serial.Move Operation)} {s s' : Concurrent ρ}

/-- Whatever the interleaving, and whatever the environment does: while no operation has the
connection, those that had it are exactly those that have returned, and they have returned,
left and done what a client returns, leaves and does that calls them one after the other,
in the order in which they got the connection. Whoever has returned by some time comes in this
order before all that are called later. -/
theorem interleaved_serial (env : Environment ρ) (r : ρ) (buffer : Memory.Region UInt8)
    (h : run (Concurrent.step env) (.start r) moves = some s)
    (hlater : run (Concurrent.step env) s later = some s') (hfree : s'.permits = 1) :
    (∀ i j, s.answer? i ≠ none → s.jobs.length ≤ j → j ∈ s'.order →
        List.Sublist [i, j] s'.order) ∧
      s'.order.Nodup ∧
      (∀ i op stage, s'.jobs[i]? = some ⟨op, stage⟩ → (i ∈ s'.order ↔ stage ≠ .waiting)) ∧
      ∃ (ops : List Operation) (answers : List ℤ) (c : Client ρ),
        s'.order.map s'.op? = ops.map some ∧
        s'.order.map s'.answer? = answers.map some ∧
        exec (ops.mapM (Operation.run env)) ⟨r, [], buffer⟩ = (.ok answers, c) ∧
        c.outside = s'.shared ∧ c.happened = s'.trace := by
  have hrun : run (Concurrent.step env) (.start r) (moves ++ later) = some s' :=
    run_append_eq_some.mpr ⟨s, h, hlater⟩
  have hlisted := Serial.listed_of_run hrun
  have hearlier := Serial.listed_of_run h
  have hreturned : ∀ i, s.answer? i ≠ none → i ∈ s.order := by
    intro i hi
    obtain ⟨answer, hanswer⟩ := Option.ne_none_iff_exists'.mp hi
    obtain ⟨op, hop⟩ := Serial.returned_of_answer? hanswer
    exact (hearlier.mem_iff i op _ hop).mpr nofun
  obtain ⟨ops, has⟩ := Serial.asIf_of_run hrun hfree
  obtain ⟨c, hexec, hleft⟩ := exec_inOrder env ops r buffer
  obtain ⟨houtside, hhappened⟩ := Prod.mk.inj (hleft.trans has.left_eq)
  exact ⟨fun i j hi hj hj' => Serial.sublist_of_run hearlier hlater (hreturned i hi) hj hj',
    hlisted.nodup, hlisted.mem_iff, ops, _, c, has.op_eq, has.answer_eq, hexec, houtside,
    hhappened⟩

/-- The second call gets the connection first and returns, then comes a third, and the first one
goes last. -/
theorem interleaved_serial_three : ∃ s s' : Concurrent Unit,
    run (Concurrent.step down) (.start ()) [.call (.unlink ⟨str "/", by decide⟩),
      .call (.rmdir ⟨str "/", by decide⟩), .advance 1, .advance 1, .advance 1] = some s ∧
    run (Concurrent.step down) s [.call (.getattr ⟨str "/", by decide⟩), .advance 2, .advance 2,
      .advance 2, .advance 2, .advance 2, .advance 2, .advance 0, .advance 0, .advance 0] =
        some s' ∧
    s'.order = [1, 2, 0] ∧ List.Sublist [1, 2] s'.order := by
  obtain ⟨s, hs⟩ : ∃ s, run (Concurrent.step down) (.start ())
      [.call (.unlink ⟨str "/", by decide⟩), .call (.rmdir ⟨str "/", by decide⟩), .advance 1,
        .advance 1, .advance 1] = some s := Option.isSome_iff_exists.mp rfl
  obtain ⟨s', hs'⟩ : ∃ s', run (Concurrent.step down) s [.call (.getattr ⟨str "/", by decide⟩),
      .advance 2, .advance 2, .advance 2, .advance 2, .advance 2, .advance 2, .advance 0,
      .advance 0, .advance 0] = some s' := by
    obtain rfl := Option.some.inj hs
    exact Option.isSome_iff_exists.mp rfl
  have hsecond : s.answer? 1 ≠ none ∧ s.jobs.length ≤ 2 := by
    obtain rfl := Option.some.inj hs
    exact ⟨nofun, le_rfl⟩
  have hend : s'.order = [1, 2, 0] ∧ s'.permits = 1 := by
    obtain rfl := Option.some.inj hs
    obtain rfl := Option.some.inj hs'
    exact ⟨rfl, rfl⟩
  have hsecond' : 2 ∈ s'.order := by
    rw [hend.1]
    decide
  exact ⟨s, s', hs, hs', hend.1, (interleaved_serial down () (.untouched fun _ => 0) hs hs'
    hend.2).1 1 2 hsecond.1 hsecond.2 hsecond'⟩

/-! ## System calls -/

/-- In whatever way operations that come down to one system call are interleaved, over a
transport that loses nothing the server's machine ends as if these calls had been made on it
directly, in the order in which the operations got the connection, and each of them has returned
how its call went. -/
theorem interleaved_direct (os : Os σ) (t : Transport) (env : Environment (Server σ))
    (henv : env.Reliable os t) (r : Server σ)
    (hplain : ∀ op, .call op ∈ moves → op.Plain ∧ op.Contained) {s : Concurrent (Server σ)}
    (h : run (Concurrent.step env) (.start r) moves = some s)
    (hfree : s.permits = 1) : ∃ ops : List Operation, s.order.map s.op? = ops.map some ∧
      s.order.map s.answer? = (inTurn (Operation.perform os) ops (r.os, r.issued)).1.map some ∧
      s.shared.Is (inTurn (Operation.perform os) ops (r.os, r.issued)).2 := by
  obtain ⟨ops, has⟩ := Serial.asIf_of_run h hfree
  have hops : ∀ op ∈ ops, op.Plain ∧ op.Contained := by
    intro op hop
    have hmem : some op ∈ s.order.map s.op? := has.op_eq ▸ List.mem_map_of_mem hop
    obtain ⟨i, -, hi⟩ := List.mem_map.mp hmem
    obtain ⟨j, hj, rfl⟩ := Option.map_eq_some_iff.mp hi
    exact Serial.op_of_run hplain h j (List.mem_of_getElem? hj)
  obtain ⟨c, hexec, hleft⟩ := exec_inOrder env ops r (.untouched fun _ => 0)
  obtain ⟨c', hexec', his⟩ := Simulates.mapM
    (fun op hop => simulates_run henv (hops op hop).1 (hops op hop).2)
    ⟨r, [], .untouched fun _ => 0⟩ (r.os, r.issued) ⟨rfl, rfl⟩
  obtain ⟨hanswers, rfl⟩ := Prod.mk.inj (hexec.symm.trans hexec')
  obtain ⟨hshared, -⟩ := Prod.mk.inj (hleft.trans has.left_eq)
  refine ⟨ops, has.op_eq, ?_, hshared ▸ his⟩
  rw [has.answer_eq]
  exact congrArg (List.map some) (Except.ok.inj hanswers)

/-- Two links of one name, of which the one called second is made first. -/
theorem interleaved_direct_links : ∃ (s : Concurrent (Server Disk)) (ops : List Operation),
    run (Concurrent.step (overServer (Disk.os 0) (.sound 0))) (.start (.start ⟨[], [], []⟩ 0))
      [.call (.symlink ⟨str "/a", by decide⟩ ⟨str "/c", by decide⟩),
        .call (.symlink ⟨str "/b", by decide⟩ ⟨str "/c", by decide⟩), .advance 1, .advance 1,
        .advance 1, .advance 0, .advance 0, .advance 0] = some s ∧
      s.order.map s.op? = ops.map some ∧ s.order.map s.answer? = [some 0, some (-17)] ∧
      s.shared.Is (inTurn (Operation.perform (Disk.os 0)) ops (⟨[], [], []⟩, [])).2 := by
  obtain ⟨s, hs⟩ : ∃ s, run (Concurrent.step (overServer (Disk.os 0) (.sound 0)))
      (.start (.start ⟨[], [], []⟩ 0))
      [.call (.symlink ⟨str "/a", by decide⟩ ⟨str "/c", by decide⟩),
        .call (.symlink ⟨str "/b", by decide⟩ ⟨str "/c", by decide⟩), .advance 1, .advance 1,
        .advance 1, .advance 0, .advance 0, .advance 0] = some s :=
    Option.isSome_iff_exists.mp rfl
  have hend : s.permits = 1 ∧ s.order.map s.answer? = [some 0, some (-17)] := by
    obtain rfl := Option.some.inj hs
    exact ⟨rfl, by decide⟩
  obtain ⟨ops, hops, -, his⟩ := interleaved_direct (Disk.os 0) (.sound 0) _
    (overServer_reliable _ _) (.start ⟨[], [], []⟩ 0)
    (by simp only [List.mem_cons, Serial.Move.call.injEq, reduceCtorEq, List.not_mem_nil, or_false,
          forall_eq_or_imp, forall_eq]
        exact ⟨⟨trivial, by decide⟩, trivial, by decide⟩) hs hend.1
  exact ⟨s, ops, hs, hops, hend.2, his⟩

end M3Sec.Afsfuse
