import Mathlib.Data.List.Infix

/-! # Runs of a system that takes inputs

A system takes one input after the other; a step may end it, after which no state
remains. `Along` states what holds at each step of a run, before the step is taken.
An invariant that steps meeting a guard preserve holds after every guarded run, and
two conditions that agree under such an invariant hold along the same runs.
-/

namespace Runs

variable {σ ι : Type}

/-- The state after the inputs, `none` when a step ended the system. -/
def run (step : σ → ι → Option σ) (s : σ) (is : List ι) : Option σ := is.foldlM step s

/-- Each input of the run meets the condition in the state it is taken in. -/
def Along (step : σ → ι → Option σ) (A : σ → ι → Prop) (s : σ) (is : List ι) : Prop :=
  ∀ pre i t, pre ++ [i] <+: is → run step s pre = some t → A t i

variable {step : σ → ι → Option σ} {A B : σ → ι → Prop} {s t : σ}
  {is : List ι} {i : ι}

@[simp] theorem run_nil : run step s [] = some s := rfl

@[simp] theorem run_snoc : run step s (is ++ [i]) = (run step s is).bind (step · i) := by
  simp [run, List.foldlM_append]

theorem run_snoc_eq_some :
    run step s (is ++ [i]) = some t ↔ ∃ u, run step s is = some u ∧ step u i = some t := by
  rw [run_snoc, Option.bind_eq_some_iff]

theorem run_append_eq_some {js : List ι} :
    run step s (is ++ js) = some t ↔ ∃ u, run step s is = some u ∧ run step u js = some t := by
  simp [run, List.foldlM_append, Option.bind_eq_some_iff]

theorem run_cons_eq_some :
    run step s (i :: is) = some t ↔ ∃ u, step s i = some u ∧ run step u is = some t := by
  simp [run, Option.bind_eq_some_iff]

theorem run_map {κ : Type*} (f : κ → ι) (ks : List κ) :
    run step s (ks.map f) = ks.foldlM (fun s k => step s (f k)) s := by
  simp [run, List.foldlM_map]

@[simp] theorem run_total (f : σ → ι → σ) (s : σ) (is : List ι) :
    run (fun s i => some (f s i)) s is = some (is.foldl f s) := by
  induction is generalizing s with
  | nil => rfl
  | cons i is ih => exact ih (f s i)

theorem along_nil : Along step A s [] := by
  intro pre i t hp
  simpa using hp.length_le

theorem along_snoc :
    Along step A s (is ++ [i]) ↔
      Along step A s is ∧ ∀ t, run step s is = some t → A t i := by
  constructor
  · intro h
    exact ⟨fun pre j t hp => h pre j t (hp.trans (List.prefix_append _ _)),
      fun t => h is i t List.prefix_rfl⟩
  · rintro ⟨h, hi⟩ pre j t hp hr
    rcases List.prefix_concat_iff.mp hp with he | hp
    · obtain ⟨rfl, hj⟩ := List.append_inj' he rfl
      obtain rfl : j = i := by simpa using hj
      exact hi t hr
    · exact h pre j t hp hr

theorem along_cons :
    Along step A s (i :: is) ↔ A s i ∧ ∀ t, step s i = some t → Along step A t is := by
  constructor
  · intro h
    constructor
    · exact h [] i s ⟨is, rfl⟩ rfl
    · intro t ht pre j u hp hr
      have hr' : run step s (i :: pre) = some u := by simpa [run, ht] using hr
      exact h (i :: pre) j u (List.cons_prefix_cons.mpr ⟨rfl, hp⟩) hr'
  · rintro ⟨hi, h⟩ pre j u hp hr
    cases pre with
    | nil =>
      obtain ⟨rfl, -⟩ := List.cons_prefix_cons.mp hp
      obtain rfl : s = u := Option.some.inj hr
      exact hi
    | cons i' pre =>
      obtain ⟨rfl, hp'⟩ := List.cons_prefix_cons.mp hp
      obtain ⟨t, ht, hr'⟩ := Option.bind_eq_some_iff.mp hr
      exact h t ht pre j u hp' hr'

/-- What every guarded step preserves holds after every guarded run. -/
theorem invariant_along (Inv : σ → Prop)
    (hstep : ∀ s i t, Inv s → A s i → step s i = some t → Inv t)
    (hs : Inv s) (ha : Along step A s is) (hr : run step s is = some t) : Inv t := by
  induction is using List.reverseRecOn generalizing t with
  | nil =>
    obtain rfl : s = t := Option.some.inj hr
    exact hs
  | append_singleton is i ih =>
    obtain ⟨u, hu, hi⟩ := run_snoc_eq_some.mp hr
    obtain ⟨ha, hai⟩ := along_snoc.mp ha
    exact hstep u i t (ih ha hu) (hai u hu) hi

/-- Conditions that agree wherever the invariant holds, when the first of them
preserves it, hold along the same runs. -/
theorem along_congr (Inv : σ → Prop) (hiff : ∀ s i, Inv s → (A s i ↔ B s i))
    (hstep : ∀ s i t, Inv s → A s i → step s i = some t → Inv t) (hs : Inv s) :
    Along step A s is ↔ Along step B s is := by
  induction is using List.reverseRecOn with
  | nil => exact ⟨fun _ => along_nil, fun _ => along_nil⟩
  | append_singleton is i ih =>
    rw [along_snoc, along_snoc, ← ih]
    apply and_congr_right
    intro ha
    have hinv : ∀ t, run step s is = some t → Inv t := fun t => invariant_along Inv hstep hs ha
    exact ⟨fun h t ht => (hiff t i (hinv t ht)).mp (h t ht),
      fun h t ht => (hiff t i (hinv t ht)).mpr (h t ht)⟩

/-! ## Runs that end

A measure that every step makes smaller bounds the length of the runs. If moreover no state
is stuck before it is done, every run can be brought to where it is done.
-/

section Decreasing

variable {μ : σ → ℕ} {Inv : σ → Prop}

theorem length_add_measure_le (hstep : ∀ s i t, Inv s → A s i → step s i = some t → Inv t)
    (hμ : ∀ s i t, Inv s → A s i → step s i = some t → μ t < μ s) (hs : Inv s)
    (ha : Along step A s is) (hr : run step s is = some t) : is.length + μ t ≤ μ s := by
  induction is using List.reverseRecOn generalizing t with
  | nil =>
    obtain rfl : s = t := Option.some.inj hr
    simp
  | append_singleton is i ih =>
    obtain ⟨u, hu, hi⟩ := run_snoc_eq_some.mp hr
    obtain ⟨ha, hai⟩ := along_snoc.mp ha
    have hlt := hμ u i t (invariant_along Inv hstep hs ha hu) (hai u hu) hi
    have hle := ih ha hu
    simp only [List.length_append, List.length_singleton]
    omega

theorem exists_run_done {Done : σ → Prop}
    (hstep : ∀ s i t, Inv s → A s i → step s i = some t → Inv t)
    (hμ : ∀ s i t, Inv s → A s i → step s i = some t → μ t < μ s)
    (hprogress : ∀ s, Inv s → ¬ Done s → ∃ i t, A s i ∧ step s i = some t) (hs : Inv s) :
    ∃ is t, Along step A s is ∧ run step s is = some t ∧ Done t := by
  induction hn : μ s using Nat.strongRecOn generalizing s with
  | _ n ih =>
    by_cases hd : Done s
    · exact ⟨[], s, along_nil, rfl, hd⟩
    · obtain ⟨i, u, ha, hi⟩ := hprogress s hs hd
      have hlt : μ u < n := hn ▸ hμ s i u hs ha hi
      obtain ⟨is, t, has, hr, ht⟩ := ih (μ u) hlt (hstep s i u hs ha hi) rfl
      have halong : Along step A s (i :: is) := along_cons.mpr
        ⟨ha, fun v hv => Option.some.inj (hi.symm.trans hv) ▸ has⟩
      have hrun : run step s (i :: is) = some t := by simpa [run, hi] using hr
      exact ⟨i :: is, t, halong, hrun, ht⟩

end Decreasing

end Runs
