import Mathlib.Data.List.Nodup
import M3Sec.Library.Fallible
import M3Sec.Library.Runs

/-! # Operations that take turns

Operations are called at any time and share a state. Each waits until it is let in, asks the
state once, which may change it, and leaves; in between, the others go on as well. If no more
than one is let in at a time, everything is as if the operations had been carried out one
after the other, in the order in which they were let in.
-/

namespace Serial

open Fallible Runs

variable {σ κ ε β : Type}

/-- What an operation does: what happens after the question depends on the state at that
moment. -/
structure Task (σ ε β : Type) where
  enter : ε
  before : List ε
  ask : ε
  serve : σ → β × σ
  after : σ → List ε
  leave : ε

namespace Task

def script (t : Task σ ε β) (v : σ) : List ε :=
  t.enter :: (t.before ++ t.ask :: (t.after v ++ [t.leave]))

def perform (t : Task σ ε β) (u : σ × List ε) : β × (σ × List ε) :=
  ((t.serve u.1).1, ((t.serve u.1).2, u.2 ++ t.script u.1))

end Task

inductive Stage (ε β : Type) where
  | waiting
  | before (todo : List ε)
  | after (todo : List ε) (answer : β)
  | returned (answer : β)

def Stage.inside : Stage ε β → Bool
  | .before _ | .after .. => true
  | _ => false

def Stage.answer? : Stage ε β → Option β
  | .returned answer => some answer
  | _ => none

structure Job (κ ε β : Type) where
  op : κ
  stage : Stage ε β

structure System (σ κ ε β : Type) where
  shared : σ
  trace : List ε
  permits : ℕ
  jobs : List (Job κ ε β)
  /-- The jobs that were let in, one after the other. -/
  order : List ℕ

inductive Move (κ : Type) where
  | call (op : κ)
  | advance (i : ℕ)

namespace System

def start (v : σ) : System σ κ ε β := ⟨v, [], 1, [], []⟩

def op? (s : System σ κ ε β) (i : ℕ) : Option κ := s.jobs[i]?.map Job.op

def answer? (s : System σ κ ε β) (i : ℕ) : Option β := s.jobs[i]?.bind fun j => j.stage.answer?

def goes (s : System σ κ ε β) (i : ℕ) (op : κ) (stage : Stage ε β) (e : ε) :
    System σ κ ε β := { s with
  trace := s.trace ++ [e]
  jobs := s.jobs.set i ⟨op, stage⟩ }

end System

section Steps

variable (task : κ → Task σ ε β)

def advance (s : System σ κ ε β) (i : ℕ) (op : κ) : Stage ε β → Option (System σ κ ε β)
  | .waiting =>
    match s.permits with
    | 0 => none
    | n + 1 => some { s.goes i op (.before (task op).before) (task op).enter with
        permits := n
        order := s.order ++ [i] }
  | .before (e :: todo) => some (s.goes i op (.before todo) e)
  | .before [] =>
    let (answer, shared) := (task op).serve s.shared
    some { s.goes i op (.after ((task op).after s.shared) answer) (task op).ask with
      shared := shared }
  | .after (e :: todo) answer => some (s.goes i op (.after todo answer) e)
  | .after [] answer => some { s.goes i op (.returned answer) (task op).leave with
      permits := s.permits + 1 }
  | .returned _ => none

def step (s : System σ κ ε β) : Move κ → Option (System σ κ ε β)
  | .call op => some { s with jobs := s.jobs ++ [⟨op, .waiting⟩] }
  | .advance i => s.jobs[i]?.bind fun j => advance task s i j.op j.stage

inductive Advances (s : System σ κ ε β) (i : ℕ) (op : κ) :
    Stage ε β → Stage ε β → System σ κ ε β → Prop
  | enter {n : ℕ} (hn : s.permits = n + 1) : Advances s i op .waiting (.before (task op).before)
      { s.goes i op (.before (task op).before) (task op).enter with
        permits := n
        order := s.order ++ [i] }
  | before (e : ε) (todo : List ε) : Advances s i op (.before (e :: todo)) (.before todo)
      (s.goes i op (.before todo) e)
  | ask : Advances s i op (.before [])
      (.after ((task op).after s.shared) ((task op).serve s.shared).1)
      { s.goes i op (.after ((task op).after s.shared) ((task op).serve s.shared).1)
          (task op).ask with
        shared := ((task op).serve s.shared).2 }
  | after (e : ε) (todo : List ε) (answer : β) :
      Advances s i op (.after (e :: todo) answer) (.after todo answer)
      (s.goes i op (.after todo answer) e)
  | leave (answer : β) : Advances s i op (.after [] answer) (.returned answer)
      { s.goes i op (.returned answer) (task op).leave with permits := s.permits + 1 }

end Steps

variable {task : κ → Task σ ε β} {s s' : System σ κ ε β} {i j : ℕ} {op : κ} {m : Move κ}
  {moves : List (Move κ)} {stage next : Stage ε β} {answer : β} {u v : σ × List ε} {is : List ℕ}
  {ops : List κ}

/-! ## Steps -/

theorem advances_of_step (h : step task s (.advance i) = some s') :
    ∃ op stage next, s.jobs[i]? = some ⟨op, stage⟩ ∧ Advances task s i op stage next s' := by
  obtain ⟨⟨op, stage⟩, hi, hadv⟩ := Option.bind_eq_some_iff.mp h
  refine ⟨op, stage, ?_⟩
  unfold advance at hadv
  dsimp only at hadv
  split at hadv
  · split at hadv
    · cases hadv
    · rename_i n hn
      obtain rfl := Option.some.inj hadv
      exact ⟨_, hi, .enter hn⟩
  · obtain rfl := Option.some.inj hadv
    exact ⟨_, hi, .before _ _⟩
  · obtain rfl := Option.some.inj hadv
    exact ⟨_, hi, .ask⟩
  · obtain rfl := Option.some.inj hadv
    exact ⟨_, hi, .after _ _ _⟩
  · obtain rfl := Option.some.inj hadv
    exact ⟨_, hi, .leave _⟩
  · cases hadv

namespace Advances

theorem jobs_eq (h : Advances task s i op stage next s') : s'.jobs = s.jobs.set i ⟨op, next⟩ := by
  cases h <;> rfl

theorem order_eq (h : Advances task s i op stage next s') :
    s'.order = s.order ∨ s'.order = s.order ++ [i] := by
  cases h with
  | enter => exact Or.inr rfl
  | _ => exact Or.inl rfl

theorem not_waiting (h : Advances task s i op stage next s') : next ≠ .waiting := by
  cases h <;> exact nofun

end Advances

theorem returned_step (h : step task s m = some s')
    (hj : s.jobs[j]? = some ⟨op, .returned answer⟩) : s'.jobs[j]? = s.jobs[j]? := by
  cases m with
  | call op' =>
    obtain rfl := Option.some.inj h
    obtain ⟨hlt, -⟩ := List.getElem?_eq_some_iff.mp hj
    exact List.getElem?_append_left hlt
  | advance i =>
    obtain ⟨op', stage, next, hi, hadv⟩ := advances_of_step h
    rw [hadv.jobs_eq]
    apply List.getElem?_set_ne
    rintro rfl
    obtain ⟨-, rfl⟩ := Job.mk.inj (Option.some.inj (hi.symm.trans hj))
    cases hadv

/-! ## Who was let in -/

structure Listed (s : System σ κ ε β) : Prop where
  nodup : s.order.Nodup
  lt : ∀ i ∈ s.order, i < s.jobs.length
  mem_iff : ∀ i op stage, s.jobs[i]? = some ⟨op, stage⟩ → (i ∈ s.order ↔ stage ≠ .waiting)

theorem Listed.advance (hs : Listed s) (hi : s.jobs[i]? = some ⟨op, stage⟩)
    (hadv : Advances task s i op stage next s') : Listed s' := by
  obtain ⟨hlt, -⟩ := List.getElem?_eq_some_iff.mp hi
  have hlength : s'.jobs.length = s.jobs.length := by
    rw [hadv.jobs_eq, List.length_set]
  have horder : s'.order.Nodup ∧ ∀ j, j ∈ s'.order ↔ j ∈ s.order ∨ j = i := by
    have hmem := hs.mem_iff i op stage hi
    cases hadv with
    | enter =>
      have hnew : i ∉ s.order := fun h => hmem.mp h rfl
      refine ⟨?_, fun j => by simp⟩
      rw [← List.concat_eq_append]
      exact hs.nodup.concat hnew
    | _ =>
      refine ⟨hs.nodup, fun j => ⟨Or.inl, fun h => h.elim id fun h => ?_⟩⟩
      exact h ▸ hmem.mpr nofun
  refine ⟨horder.1, fun j hj => ?_, fun j op' stage' hj => ?_⟩
  · rw [hlength]
    rcases (horder.2 j).mp hj with hj | rfl
    · exact hs.lt j hj
    · exact hlt
  · rw [horder.2]
    rw [hadv.jobs_eq] at hj
    rcases eq_or_ne i j with rfl | hne
    · rw [List.getElem?_set_self hlt] at hj
      obtain ⟨-, rfl⟩ := Job.mk.inj (Option.some.inj hj)
      exact iff_of_true (Or.inr rfl) hadv.not_waiting
    · rw [List.getElem?_set_ne hne] at hj
      rw [or_iff_left (Ne.symm hne)]
      exact hs.mem_iff j op' stage' hj

theorem Listed.step (hs : Listed s) (h : step task s m = some s') : Listed s' := by
  cases m with
  | call op =>
    obtain rfl := Option.some.inj h
    refine ⟨hs.nodup, fun i hi => ?_, fun i op' stage hi => ?_⟩
    · rw [List.length_append]
      exact Nat.lt_add_right _ (hs.lt i hi)
    · rcases Nat.lt_or_ge i s.jobs.length with hlt | hge
      · rw [List.getElem?_append_left hlt] at hi
        exact hs.mem_iff i op' stage hi
      · have hnew : i ∉ s.order := fun hmem => Nat.not_lt.mpr hge (hs.lt i hmem)
        rw [List.getElem?_append_right hge] at hi
        obtain ⟨-, rfl⟩ := Job.mk.inj (List.mem_singleton.mp (List.mem_of_getElem? hi))
        exact iff_of_false hnew fun hne => hne rfl
  | advance i =>
    obtain ⟨op, stage, next, hi, hadv⟩ := advances_of_step h
    exact hs.advance hi hadv

theorem listed_of_run {v : σ} (h : run (step task) (.start v) moves = some s) : Listed s := by
  have hstart : Listed (System.start v : System σ κ ε β) :=
    ⟨List.nodup_nil, fun i hi => absurd hi List.not_mem_nil, nofun⟩
  exact invariant_along (A := fun _ _ => True) Listed (fun s m s' hs _ hstep => hs.step hstep)
    hstart (fun _ _ _ _ _ => trivial) h

theorem order_of_run (h : run (step task) s moves = some s') : s.order <+: s'.order := by
  refine invariant_along (A := fun _ _ => True) (fun t => s.order <+: t.order) ?_
    List.prefix_rfl (fun _ _ _ _ _ => trivial) h
  intro t m t' ht _ hstep
  cases m with
  | call op =>
    obtain rfl := Option.some.inj hstep
    exact ht
  | advance i =>
    obtain ⟨op, stage, next, -, hadv⟩ := advances_of_step hstep
    rcases hadv.order_eq with he | he
    · exact he ▸ ht
    · exact he ▸ ht.trans (List.prefix_append _ _)

/-- Who has been let in comes before those that are called later. -/
theorem sublist_of_run (hs : Listed s) (h : run (step task) s moves = some s') (hi : i ∈ s.order)
    (hj : s.jobs.length ≤ j) (hj' : j ∈ s'.order) : List.Sublist [i, j] s'.order := by
  obtain ⟨rest, hrest⟩ := order_of_run h
  have hnew : j ∉ s.order := fun hmem => Nat.not_lt.mpr hj (hs.lt j hmem)
  have hjrest : j ∈ rest := by
    rw [← hrest] at hj'
    exact (List.mem_append.mp hj').resolve_left hnew
  rw [← hrest]
  exact (List.singleton_sublist.mpr hi).append (List.singleton_sublist.mpr hjrest)

theorem op_of_run {P : κ → Prop} {v : σ} (hcalls : ∀ op, .call op ∈ moves → P op)
    (h : run (step task) (.start v) moves = some s) : ∀ j ∈ s.jobs, P j.op := by
  have halong : Along (step task) (fun _ m => ∀ op, m = .call op → P op) (.start v) moves := by
    rintro pre m t hp - op rfl
    exact hcalls op (hp.subset (by simp))
  have hstart : ∀ j ∈ (System.start v : System σ κ ε β).jobs, P j.op :=
    fun j hj => absurd hj List.not_mem_nil
  refine invariant_along (fun s => ∀ j ∈ s.jobs, P j.op) ?_ hstart halong h
  intro s m s' hs hm hstep j hj
  cases m with
  | call op =>
    obtain rfl := Option.some.inj hstep
    rcases List.mem_append.mp hj with hj | hj
    · exact hs j hj
    · obtain rfl := List.mem_singleton.mp hj
      exact hm op rfl
  | advance i =>
    obtain ⟨op, stage, next, hi, hadv⟩ := advances_of_step hstep
    rw [hadv.jobs_eq] at hj
    rcases List.mem_or_eq_of_mem_set hj with hj | rfl
    · exact hs j hj
    · exact hs ⟨op, stage⟩ (List.mem_of_getElem? hi)

/-! ## One after the other -/

def inOrder (task : κ → Task σ ε β) (ops : List κ) (v : σ) : List β × (σ × List ε) :=
  inTurn (fun op => (task op).perform) ops (v, [])

/-- These jobs have returned what their operations return one after the other, after which
there is this state, and this has happened. -/
structure AsIf (task : κ → Task σ ε β) (v : σ) (s : System σ κ ε β) (ops : List κ) (is : List ℕ)
    (u : σ × List ε) : Prop where
  op_eq : is.map s.op? = ops.map some
  answer_eq : is.map s.answer? = (inOrder task ops v).1.map some
  left_eq : (inOrder task ops v).2 = u

theorem returned_of_answer? (h : s.answer? i = some answer) :
    ∃ op, s.jobs[i]? = some ⟨op, .returned answer⟩ := by
  obtain ⟨⟨op, stage⟩, hi, hanswer⟩ := Option.bind_eq_some_iff.mp h
  cases stage with
  | returned a =>
    obtain rfl := Option.some.inj hanswer
    exact ⟨op, hi⟩
  | _ => cases hanswer

namespace AsIf

variable {w : σ}

theorem returned (h : AsIf task w s ops is u) (hi : i ∈ is) :
    ∃ op answer, s.jobs[i]? = some ⟨op, .returned answer⟩ := by
  have hmem := List.mem_map_of_mem (f := s.answer?) hi
  rw [h.answer_eq] at hmem
  obtain ⟨answer, -, hanswer⟩ := List.mem_map.mp hmem
  obtain ⟨op, hop⟩ := returned_of_answer? hanswer.symm
  exact ⟨op, answer, hop⟩

theorem step (h : AsIf task w s ops is u) (hstep : step task s m = some s') :
    AsIf task w s' ops is u := by
  have hjobs : ∀ i ∈ is, s'.jobs[i]? = s.jobs[i]? := by
    intro i hi
    obtain ⟨op, answer, hop⟩ := h.returned hi
    exact returned_step hstep hop
  refine ⟨?_, ?_, h.left_eq⟩
  · rw [← h.op_eq]
    exact List.map_congr_left fun i hi => congrArg (Option.map Job.op) (hjobs i hi)
  · rw [← h.answer_eq]
    exact List.map_congr_left fun i hi =>
      congrArg (Option.bind · fun j : Job κ ε β => j.stage.answer?) (hjobs i hi)

theorem snoc (h : AsIf task w s ops is u) (hi : s.jobs[i]? = some ⟨op, .returned answer⟩)
    (hperform : (task op).perform u = (answer, v)) : AsIf task w s (ops ++ [op]) (is ++ [i]) v := by
  have hop : s.op? i = some op := congrArg (Option.map Job.op) hi
  have hanswer : s.answer? i = some answer :=
    congrArg (Option.bind · fun j : Job κ ε β => j.stage.answer?) hi
  have hturn : inOrder task (ops ++ [op]) w = ((inOrder task ops w).1 ++ [answer], v) := by
    rw [inOrder, inTurn_snoc]
    have hleft : (inTurn (fun op => (task op).perform) ops (w, [])).2 = u := h.left_eq
    rw [hleft, hperform]
    rfl
  refine ⟨?_, ?_, ?_⟩
  · simp [h.op_eq, hop]
  · simp [h.answer_eq, hanswer, hturn]
  · rw [hturn]

end AsIf

structure Free (s : System σ κ ε β) (is : List ℕ) (u : σ × List ε) : Prop where
  permits_eq : s.permits = 1
  order_eq : s.order = is
  left_eq : (s.shared, s.trace) = u
  outside : ∀ (i : ℕ) (op : κ) (stage : Stage ε β), s.jobs[i]? = some ⟨op, stage⟩ →
    stage.inside = false

/-- How far somebody has come who was let in when the state was this one. -/
def Halfway (t : Task σ ε β) (u : σ × List ε) : Stage ε β → σ × List ε → Prop
  | .before todo, v => ∃ done, t.before = done ++ todo ∧ v = (u.1, u.2 ++ t.enter :: done)
  | .after todo answer, v => answer = (t.serve u.1).1 ∧ ∃ done, t.after u.1 = done ++ todo ∧
    v = ((t.serve u.1).2, u.2 ++ t.enter :: (t.before ++ t.ask :: done))
  | _, _ => False

structure Busy (task : κ → Task σ ε β) (s : System σ κ ε β) (is : List ℕ) (u : σ × List ε)
    (i : ℕ) : Prop where
  permits_eq : s.permits = 0
  order_eq : s.order = is ++ [i]
  halfway : ∃ op stage, s.jobs[i]? = some ⟨op, stage⟩ ∧
    Halfway (task op) u stage (s.shared, s.trace)
  outside : ∀ (j : ℕ) (op : κ) (stage : Stage ε β), s.jobs[j]? = some ⟨op, stage⟩ → j ≠ i →
    stage.inside = false

/-- Everything is as if the operations had been carried out one after the other, with at most one
that is not done yet. -/
def Serialized (task : κ → Task σ ε β) (v : σ) (s : System σ κ ε β) : Prop :=
  ∃ ops is u, AsIf task v s ops is u ∧ (Free s is u ∨ ∃ i, Busy task s is u i)

theorem Free.advance (hs : Free s is u) (hi : s.jobs[i]? = some ⟨op, stage⟩)
    (hadv : Advances task s i op stage next s') : Busy task s' is u i := by
  obtain ⟨hlt, -⟩ := List.getElem?_eq_some_iff.mp hi
  have houtside := hs.outside i op stage hi
  cases hadv with
  | enter hn =>
    obtain rfl : _ = 0 := Nat.succ.inj (hn.symm.trans hs.permits_eq)
    refine ⟨rfl, congrArg (· ++ [i]) hs.order_eq, ⟨op, _, List.getElem?_set_self hlt, ?_⟩, ?_⟩
    · exact ⟨[], rfl, hs.left_eq ▸ rfl⟩
    · intro j op' stage hj hne
      refine hs.outside j op' stage ?_
      rwa [← List.getElem?_set_ne (Ne.symm hne)]
  | _ => cases houtside

/-- Whoever is inside gets on, until it leaves. -/
theorem Busy.advance {v : σ} (hs : Busy task s is u i) (hi : s.jobs[j]? = some ⟨op, stage⟩)
    (hadv : Advances task s j op stage next s') (has : AsIf task v s' ops is u) :
    Serialized task v s' := by
  obtain ⟨hlt, -⟩ := List.getElem?_eq_some_iff.mp hi
  obtain rfl : j = i := by
    by_contra hne
    have houtside := hs.outside j op stage hi hne
    cases hadv with
    | enter hn => cases hn.symm.trans hs.permits_eq
    | _ => cases houtside
  obtain ⟨op', stage', hi', hhalf⟩ := hs.halfway
  obtain ⟨rfl, rfl⟩ := Job.mk.inj (Option.some.inj (hi.symm.trans hi'))
  have hself : s'.jobs[j]? = some ⟨op, next⟩ := by
    rw [hadv.jobs_eq]
    exact List.getElem?_set_self hlt
  have hothers : ∀ (k : ℕ) (op : κ) (stage : Stage ε β), s'.jobs[k]? = some ⟨op, stage⟩ → k ≠ j →
      stage.inside = false := by
    intro k op stage hk hne
    rw [hadv.jobs_eq, List.getElem?_set_ne (Ne.symm hne)] at hk
    exact hs.outside k op stage hk hne
  have hinside : s'.permits = 0 → s'.order = is ++ [j] →
      Halfway (task op) u next (s'.shared, s'.trace) → Serialized task v s' :=
    fun hpermits horder hhalf => ⟨ops, is, u, has, Or.inr ⟨j, hpermits, horder,
      ⟨op, next, hself, hhalf⟩, hothers⟩⟩
  cases hadv with
  | enter => exact hhalf.elim
  | before e todo =>
    obtain ⟨done, hdone, hleft⟩ := hhalf
    obtain ⟨hshared, htrace⟩ := Prod.mk.inj hleft
    have hnext : (task op).before = (done ++ [e]) ++ todo := by rw [hdone, List.append_cons]
    refine hinside hs.permits_eq hs.order_eq ⟨done ++ [e], hnext, Prod.ext hshared ?_⟩
    simp [System.goes, htrace]
  | ask =>
    obtain ⟨w, tr⟩ := u
    obtain ⟨done, hdone, hleft⟩ := hhalf
    obtain ⟨rfl, htrace⟩ := Prod.mk.inj hleft
    rw [List.append_nil] at hdone
    refine hinside hs.permits_eq hs.order_eq ⟨rfl, [], rfl, Prod.ext rfl ?_⟩
    simp [System.goes, htrace, hdone]
  | after e todo answer =>
    obtain ⟨hanswer, done, hdone, hleft⟩ := hhalf
    obtain ⟨hshared, htrace⟩ := Prod.mk.inj hleft
    have hnext : (task op).after u.1 = (done ++ [e]) ++ todo := by rw [hdone, List.append_cons]
    refine hinside hs.permits_eq hs.order_eq ⟨hanswer, done ++ [e], hnext, Prod.ext hshared ?_⟩
    simp [System.goes, htrace]
  | leave answer =>
    obtain ⟨hanswer, done, hdone, hleft⟩ := hhalf
    obtain ⟨hshared, htrace⟩ := Prod.mk.inj hleft
    rw [List.append_nil] at hdone
    refine ⟨_, _, _, has.snoc hself (Prod.ext hanswer.symm rfl), Or.inl ⟨?_, hs.order_eq, ?_, ?_⟩⟩
    · exact congrArg (· + 1) hs.permits_eq
    · refine Prod.ext hshared ?_
      simp [System.goes, htrace, hdone, Task.perform, Task.script]
    · intro k op' stage hk
      rcases eq_or_ne k j with rfl | hne
      · obtain ⟨-, rfl⟩ := Job.mk.inj (Option.some.inj (hk.symm.trans hself))
        rfl
      · exact hothers k op' stage hk hne

theorem serialized_step {v : σ} (hs : Serialized task v s) (h : step task s m = some s') :
    Serialized task v s' := by
  obtain ⟨ops, is, u, has, hplace⟩ := hs
  have has' := has.step h
  cases m with
  | call op =>
    obtain rfl := Option.some.inj h
    have hnew : ∀ (i : ℕ) (op' : κ) (stage : Stage ε β),
        (s.jobs ++ [⟨op, .waiting⟩])[i]? = some ⟨op', stage⟩ →
          s.jobs[i]? = some ⟨op', stage⟩ ∨ stage.inside = false := by
      intro i op' stage hi
      rcases Nat.lt_or_ge i s.jobs.length with hlt | hge
      · rw [List.getElem?_append_left hlt] at hi
        exact Or.inl hi
      · rw [List.getElem?_append_right hge] at hi
        obtain ⟨-, rfl⟩ := Job.mk.inj (List.mem_singleton.mp (List.mem_of_getElem? hi))
        exact Or.inr rfl
    refine ⟨ops, is, u, has', ?_⟩
    rcases hplace with hfree | ⟨i, hbusy⟩
    · refine Or.inl ⟨hfree.permits_eq, hfree.order_eq, hfree.left_eq, fun j op' stage hj => ?_⟩
      exact (hnew j op' stage hj).elim (hfree.outside j op' stage) id
    · obtain ⟨op', stage, hi, hhalf⟩ := hbusy.halfway
      obtain ⟨hlt, -⟩ := List.getElem?_eq_some_iff.mp hi
      refine Or.inr ⟨i, hbusy.permits_eq, hbusy.order_eq, ⟨op', stage, ?_, hhalf⟩, ?_⟩
      · rwa [← List.getElem?_append_left hlt] at hi
      · intro j op' stage hj hne
        exact (hnew j op' stage hj).elim (fun hj => hbusy.outside j op' stage hj hne) id
  | advance i =>
    obtain ⟨op, stage, next, hi, hadv⟩ := advances_of_step h
    rcases hplace with hfree | ⟨j, hbusy⟩
    · exact ⟨ops, is, u, has', Or.inr ⟨i, hfree.advance hi hadv⟩⟩
    · exact hbusy.advance hi hadv has'

theorem serialized_of_run {v : σ} (h : run (step task) (.start v) moves = some s) :
    Serialized task v s := by
  have hstart : Serialized task v (System.start v) :=
    ⟨[], [], (v, []), ⟨rfl, rfl, rfl⟩, Or.inl ⟨rfl, rfl, rfl, nofun⟩⟩
  exact invariant_along (A := fun _ _ => True) (Serialized task v)
    (fun s m s' hs _ hstep => serialized_step hs hstep) hstart (fun _ _ _ _ _ => trivial) h

/-- While nobody is inside, everybody who was let in has returned. -/
theorem asIf_of_run {v : σ} (h : run (step task) (.start v) moves = some s)
    (hfree : s.permits = 1) : ∃ ops, AsIf task v s ops s.order (s.shared, s.trace) := by
  obtain ⟨ops, is, u, has, hs | ⟨i, hs⟩⟩ := serialized_of_run h
  · rw [hs.order_eq, hs.left_eq]
    exact ⟨ops, has⟩
  · cases hfree.symm.trans hs.permits_eq

end Serial
