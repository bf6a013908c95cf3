import Mathlib.Data.List.Basic
import M3Sec.Library.Runs

/-! # Threads that share a semaphore

A thread goes through its events one after the other. An event may acquire a permit, for
which the thread has to wait until there is one, or release it. If every thread alternates
between the two and ends outside, then at any time the permits left and the threads inside
add up to the permits of the start, whatever the order in which the threads take their steps.
-/

namespace Locks

open Runs

inductive Role where
  | acquire
  | release
  | other
  deriving DecidableEq

variable {ε : Type}

/-- Go through an event outside or inside: nobody acquires inside or releases outside. -/
def cross (role : ε → Role) (inside : Bool) (e : ε) : Option Bool :=
  match role e, inside with
  | .other, b => some b
  | .acquire, false => some true
  | .release, true => some false
  | _, _ => none

def Bracketed (role : ε → Role) (events : List ε) : Prop :=
  run (cross role) false events = some false

structure Thread (role : ε → Role) where
  done : List ε
  todo : List ε
  bracketed : Bracketed role (done ++ todo)

structure System (role : ε → Role) where
  permits : ℕ
  threads : List (Thread role)

inductive Move (role : ε → Role) where
  | spawn (events : {events : List ε // Bracketed role events})
  | advance (i : ℕ)

variable {role : ε → Role}

namespace Thread

def next (t : Thread role) {e : ε} {rest : List ε} (h : t.todo = e :: rest) : Thread role where
  done := t.done ++ [e]
  todo := rest
  bracketed := by
    have hb := t.bracketed
    rwa [h, List.append_cons] at hb

def inside (t : Thread role) : Bool := run (cross role) false t.done == some true

def acquired (t : Thread role) : ℕ := t.done.countP (role · = .acquire)

def released (t : Thread role) : ℕ := t.done.countP (role · = .release)

end Thread

/-- The permits after an event, which has to wait if there are too few. -/
def settle : Role → ℕ → Option ℕ
  | .acquire, 0 => none
  | .acquire, n + 1 => some n
  | .release, n => some (n + 1)
  | .other, n => some n

namespace System

def start (role : ε → Role) (permits : ℕ) : System role := ⟨permits, []⟩

def advance (s : System role) (i : ℕ) (t : Thread role) : Option (System role) :=
  match h : t.todo with
  | [] => none
  | e :: _ => (settle (role e) s.permits).map fun n => ⟨n, s.threads.set i (t.next h)⟩

def step (s : System role) : Move role → Option (System role)
  | .spawn events =>
    some { s with threads := s.threads ++ [⟨[], events.val, events.property⟩] }
  | .advance i => s.threads[i]?.bind (s.advance i)

def inside (s : System role) : ℕ := s.threads.countP Thread.inside

end System

variable {s s' : System role} {t : Thread role} {events rest : List ε} {e : ε} {b : Bool} {i n : ℕ}

/-! ## Threads -/

theorem run_eq_some_of_append {σ ι : Type} {step : σ → ι → Option σ} {u w : σ} {is js : List ι}
    (h : run step u (is ++ js) = some w) : ∃ v, run step u is = some v := by
  rw [run, List.foldlM_append] at h
  obtain ⟨v, hv, -⟩ := Option.bind_eq_some_iff.mp h
  exact ⟨v, hv⟩

theorem Thread.exists_run (t : Thread role) : ∃ b, run (cross role) false t.done = some b :=
  run_eq_some_of_append t.bracketed

theorem Thread.inside_eq (h : run (cross role) false t.done = some b) : t.inside = b := by
  rw [Thread.inside, h]
  cases b <;> rfl

theorem countP_acquire (h : run (cross role) false events = some b) :
    events.countP (role · = .acquire) = events.countP (role · = .release) + b.toNat := by
  induction events using List.reverseRecOn generalizing b with
  | nil =>
    obtain rfl := Option.some.inj h
    rfl
  | append_singleton events e ih =>
    obtain ⟨b', hb', he⟩ := run_snoc_eq_some.mp h
    have hcount := ih hb'
    rw [List.countP_append, List.countP_append, hcount]
    unfold cross at he
    cases hr : role e <;> cases b' <;> simp_all

theorem Thread.acquired_eq_released (h : t.todo = []) : t.acquired = t.released := by
  have hb := t.bracketed
  rw [h, List.append_nil] at hb
  exact countP_acquire hb

theorem settle_add (hs : settle (role e) s.permits = some n)
    (ht : t.todo = e :: rest) : n + (t.next ht).inside.toNat = s.permits + t.inside.toNat := by
  obtain ⟨b, hb⟩ := t.exists_run
  obtain ⟨b', hb'⟩ := (t.next ht).exists_run
  rw [Thread.inside_eq hb, Thread.inside_eq hb']
  have hcross : cross role b e = some b' := by
    obtain ⟨u, hu, he⟩ := run_snoc_eq_some.mp hb'
    obtain rfl : b = u := Option.some.inj (hb.symm.trans hu)
    exact he
  unfold cross at hcross
  cases hr : role e with
  | other =>
    rw [hr] at hcross hs
    obtain rfl := Option.some.inj hcross
    obtain rfl := Option.some.inj hs
    rfl
  | acquire =>
    rw [hr] at hcross hs
    cases b with
    | true => cases hcross
    | false =>
      obtain rfl := Option.some.inj hcross
      cases hp : s.permits with
      | zero =>
        rw [hp] at hs
        cases hs
      | succ m =>
        rw [hp] at hs
        obtain rfl := Option.some.inj hs
        rfl
  | release =>
    rw [hr] at hcross hs
    cases b with
    | false => cases hcross
    | true =>
      obtain rfl := Option.some.inj hcross
      obtain rfl := Option.some.inj hs
      rfl

/-! ## Systems -/

theorem advance_eq_some (h : s.advance i t = some s') :
    ∃ e rest, ∃ ht : t.todo = e :: rest, ∃ n, settle (role e) s.permits = some n ∧
      s' = ⟨n, s.threads.set i (t.next ht)⟩ := by
  unfold System.advance at h
  split at h
  · cases h
  · rename_i e rest ht
    obtain ⟨n, hn, rfl⟩ := Option.map_eq_some_iff.mp h
    exact ⟨e, rest, ht, n, hn, rfl⟩

theorem permits_add_inside_step (m : Move role) (h : s.step m = some s') :
    s'.permits + s'.inside = s.permits + s.inside := by
  cases m with
  | spawn events =>
    obtain rfl := Option.some.inj h
    simp [System.inside, Thread.inside]
  | advance i =>
    obtain ⟨t, ht, hadv⟩ := Option.bind_eq_some_iff.mp h
    obtain ⟨e, rest, htodo, n, hn, rfl⟩ := advance_eq_some hadv
    obtain ⟨hi, rfl⟩ := List.getElem?_eq_some_iff.mp ht
    have hsum := settle_add hn htodo
    have hpos : s.threads[i].inside = true → 0 < s.threads.countP Thread.inside :=
      fun h => List.countP_pos_iff.mpr ⟨_, List.getElem_mem hi, h⟩
    simp only [System.inside, List.countP_set hi]
    generalize s.threads[i].inside = b at hsum hpos ⊢
    generalize (s.threads[i].next htodo).inside = b' at hsum ⊢
    generalize s.threads.countP Thread.inside = k at hpos ⊢
    cases b <;> cases b' <;> simp at hsum hpos ⊢ <;> omega

/-- At any time the permits left and the threads inside are as many as there were permits. -/
theorem permits_add_inside (moves : List (Move role))
    (h : run System.step (.start role n) moves = some s) : s.permits + s.inside = n := by
  induction moves using List.reverseRecOn generalizing s with
  | nil =>
    obtain rfl := Option.some.inj h
    rfl
  | append_singleton moves m ih =>
    obtain ⟨u, hu, hm⟩ := run_snoc_eq_some.mp h
    rw [permits_add_inside_step m hm, ih hu]

/-! ## Progress

A thread that waits is outside. So as long as there are permits to be had at all, somebody can go
on, and since every step takes an event off, the threads come to their ends in any order.
-/

theorem Thread.not_inside_of_done (h : t.todo = []) : t.inside = false := by
  have hb := t.bracketed
  rw [h, List.append_nil] at hb
  exact Thread.inside_eq hb

theorem Thread.not_inside_of_acquire (ht : t.todo = e :: rest) (he : role e = .acquire) :
    t.inside = false := by
  obtain ⟨b, hb⟩ := t.exists_run
  obtain ⟨b', hb'⟩ := (t.next ht).exists_run
  obtain ⟨u, hu, hcross⟩ := run_snoc_eq_some.mp hb'
  obtain rfl : b = u := Option.some.inj (hb.symm.trans hu)
  rw [Thread.inside_eq hb]
  unfold cross at hcross
  rw [he] at hcross
  cases b with
  | false => rfl
  | true => cases hcross

theorem step_advance (hi : s.threads[i]? = some t) (ht : t.todo = e :: rest)
    (hn : settle (role e) s.permits = some n) :
    s.step (.advance i) = some ⟨n, s.threads.set i (t.next ht)⟩ := by
  change s.threads[i]?.bind (s.advance i) = _
  rw [hi, Option.bind_some]
  unfold System.advance
  split
  · rename_i hnil
    rw [ht] at hnil
    cases hnil
  · rename_i e' rest' ht'
    obtain ⟨rfl, rfl⟩ := List.cons.inj (ht.symm.trans ht')
    rw [hn]
    rfl

theorem exists_advance (hn : s.permits + s.inside = n) (hpos : 0 < n)
    (h : ∃ t ∈ s.threads, t.todo ≠ []) : ∃ i s', s.step (.advance i) = some s' := by
  by_cases hgoes : ∃ t ∈ s.threads, ∃ e rest, t.todo = e :: rest ∧ role e ≠ .acquire
  · obtain ⟨t, hmem, e, rest, ht, he⟩ := hgoes
    obtain ⟨i, hi⟩ := List.getElem?_of_mem hmem
    obtain ⟨k, hk⟩ : ∃ k, settle (role e) s.permits = some k := by
      cases hr : role e with
      | acquire => exact absurd hr he
      | release => exact ⟨_, rfl⟩
      | other => exact ⟨_, rfl⟩
    exact ⟨i, _, step_advance hi ht hk⟩
  · push Not at hgoes
    have hinside : s.inside = 0 := by
      rw [System.inside, List.countP_eq_zero]
      intro t hmem
      rw [Bool.not_eq_true]
      cases ht : t.todo with
      | nil => exact t.not_inside_of_done ht
      | cons e rest => exact t.not_inside_of_acquire ht (hgoes t hmem e rest ht)
    obtain ⟨t, hmem, hne⟩ := h
    obtain ⟨i, hi⟩ := List.getElem?_of_mem hmem
    obtain ⟨e, rest, ht⟩ := List.exists_cons_of_ne_nil hne
    obtain ⟨k, hk⟩ : ∃ k, s.permits = k + 1 := Nat.exists_eq_succ_of_ne_zero (by omega)
    have hsettle : settle (role e) s.permits = some k := by
      rw [hgoes t hmem e rest ht, hk]
      rfl
    exact ⟨i, _, step_advance hi ht hsettle⟩

def left : List (Thread role) → ℕ
  | [] => 0
  | t :: ts => t.todo.length + left ts

theorem left_set {ts : List (Thread role)} (hi : ts[i]? = some t) (ht : t.todo = e :: rest) :
    left (ts.set i (t.next ht)) + 1 = left ts := by
  induction ts generalizing i with
  | nil => cases hi
  | cons u ts ih =>
    cases i with
    | zero =>
      obtain rfl : u = t := Option.some.inj hi
      have hlen : u.todo.length = rest.length + 1 := by rw [ht, List.length_cons]
      rw [List.set_cons_zero, left, left, hlen]
      simp only [Thread.next]
      omega
    | succ i =>
      have hset := ih hi
      rw [List.set_cons_succ, left, left]
      omega

theorem left_step (h : s.step (.advance i) = some s') : left s'.threads + 1 = left s.threads := by
  obtain ⟨t, ht, hadv⟩ := Option.bind_eq_some_iff.mp h
  obtain ⟨e, rest, htodo, n, -, rfl⟩ := advance_eq_some hadv
  exact left_set ht htodo

/-- However the threads take turns, each turn takes one event off what is left to do. -/
theorem left_run (is : List ℕ) (h : run System.step s (is.map .advance) = some s') :
    is.length + left s'.threads = left s.threads := by
  induction is using List.reverseRecOn generalizing s' with
  | nil =>
    obtain rfl := Option.some.inj h
    simp
  | append_singleton is i ih =>
    rw [List.map_append, List.map_singleton] at h
    obtain ⟨u, hu, hi⟩ := run_snoc_eq_some.mp h
    have hstep := left_step hi
    have hrun := ih hu
    simp only [List.length_append, List.length_singleton]
    omega

theorem permits_add_inside_run (hn : s.permits + s.inside = n) (moves : List (Move role))
    (h : run System.step s moves = some s') : s'.permits + s'.inside = n := by
  refine invariant_along (A := fun _ _ => True) (fun s => s.permits + s.inside = n) ?_ hn
    (fun _ _ _ _ _ => trivial) h
  exact fun u m v hu _ hstep => (permits_add_inside_step m hstep).trans hu

theorem eq_of_inside {j : ℕ} {u : Thread role} (hn : s.permits + s.inside = 1)
    (hi : s.threads[i]? = some t) (hj : s.threads[j]? = some u) (ht : t.inside = true)
    (hu : u.inside = true) : i = j := by
  by_contra hne
  obtain ⟨hlt, rfl⟩ := List.getElem?_eq_some_iff.mp hi
  have hcount : (s.threads.set i ⟨[], [], rfl⟩).countP Thread.inside = s.inside - 1 := by
    rw [List.countP_set hlt, if_pos ht]
    rfl
  have hother : (s.threads.set i ⟨[], [], rfl⟩)[j]? = some u := by
    rwa [List.getElem?_set_ne hne]
  have hpos : 0 < (s.threads.set i ⟨[], [], rfl⟩).countP Thread.inside :=
    List.countP_pos_iff.mpr ⟨u, List.mem_of_getElem? hother, hu⟩
  omega

/-! ## What is done inside -/

def OnlyInside (role : ε → Role) (uses : ε → Prop) (events : List ε) : Prop :=
  Along (cross role) (fun inside e => uses e → inside = true) false events

variable {uses : ε → Prop} {waits body : List ε} {a r : ε}

theorem onlyInside_of_shape (hwaits : ∀ e ∈ waits, role e = .other ∧ ¬ uses e)
    (ha : role a = .acquire)
    (hua : ¬ uses a) (hbody : ∀ e ∈ body, role e = .other) :
    OnlyInside role uses (waits ++ a :: (body ++ [r])) := by
  have hinside : Along (cross role) (fun inside e => uses e → inside = true) true
      (body ++ [r]) := by
    induction body with
    | nil => exact along_cons.mpr ⟨fun _ => rfl, fun _ _ => along_nil⟩
    | cons e body ih =>
      refine along_cons.mpr ⟨fun _ => rfl, fun b hb => ?_⟩
      have he := hbody e List.mem_cons_self
      unfold cross at hb
      rw [he] at hb
      obtain rfl := Option.some.inj hb
      exact ih fun e he => hbody e (List.mem_cons_of_mem _ he)
  induction waits with
  | nil =>
    refine along_cons.mpr ⟨fun h => absurd h hua, fun b hb => ?_⟩
    unfold cross at hb
    rw [ha] at hb
    obtain rfl := Option.some.inj hb
    exact hinside
  | cons e waits ih =>
    obtain ⟨he, hue⟩ := hwaits e List.mem_cons_self
    refine along_cons.mpr ⟨fun h => absurd h hue, fun b hb => ?_⟩
    unfold cross at hb
    rw [he] at hb
    obtain rfl := Option.some.inj hb
    exact ih fun e he => hwaits e (List.mem_cons_of_mem _ he)

theorem Thread.inside_of_uses (h : OnlyInside role uses (t.done ++ t.todo)) (ht : t.todo = e :: rest)
    (he : uses e) : t.inside = true := by
  obtain ⟨b, hb⟩ := t.exists_run
  have hprefix : t.done ++ [e] <+: t.done ++ t.todo := by
    refine ⟨rest, ?_⟩
    rw [ht, List.append_assoc, List.singleton_append]
  rw [Thread.inside_eq hb]
  exact h _ _ _ hprefix hb he

theorem forall_events {P : List ε → Prop} (moves : List (Move role))
    (hspawn : ∀ events, Move.spawn events ∈ moves → P events.val)
    (h : run System.step (.start role n) moves = some s) :
    ∀ t ∈ s.threads, P (t.done ++ t.todo) := by
  induction moves using List.reverseRecOn generalizing s with
  | nil =>
    obtain rfl := Option.some.inj h
    exact fun t ht => absurd ht List.not_mem_nil
  | append_singleton moves m ih =>
    obtain ⟨u, hu, hm⟩ := run_snoc_eq_some.mp h
    have hall := ih (fun events he => hspawn events (List.mem_append_left _ he)) hu
    intro t ht
    cases m with
    | spawn events =>
      obtain rfl := Option.some.inj hm
      rcases List.mem_append.mp ht with ht | ht
      · exact hall t ht
      · obtain rfl := List.mem_singleton.mp ht
        exact hspawn events (List.mem_append_right _ List.mem_cons_self)
    | advance i =>
      obtain ⟨v, hv, hadv⟩ := Option.bind_eq_some_iff.mp hm
      obtain ⟨e, rest, htodo, n, -, rfl⟩ := advance_eq_some hadv
      rcases List.mem_or_eq_of_mem_set ht with ht | rfl
      · exact hall t ht
      · have hv' := hall v (List.mem_of_getElem? hv)
        rw [htodo, List.append_cons] at hv'
        exact hv'

end Locks
