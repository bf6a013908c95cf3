import Mathlib.Data.List.TakeWhile
import M3Sec.Library.Fallible

/-! # Scripts

A script is a list of actions that are carried out in order, up to the first one that
fails. What an action does to the state depends on whether it fails. A computation that
performs the actions one after the other throws exactly when the script is cut short.
-/

namespace Scripts

variable {σ α ε : Type}

structure Effects (σ α : Type) where
  done : σ → α → σ
  failed : σ → α → σ

/-- The state that a script leaves. -/
def perform (E : Effects σ α) (fails : α → Bool) (s : σ) : List α → σ
  | [] => s
  | a :: as => if fails a then E.failed s a else perform E fails (E.done s a) as

def Completes (fails : α → Bool) (as : List α) : Prop := ∀ a ∈ as, fails a = false

instance (fails : α → Bool) (as : List α) : Decidable (Completes fails as) :=
  inferInstanceAs (Decidable (∀ a ∈ as, fails a = false))

variable {E : Effects σ α} {fails : α → Bool} {s : σ} {a : α} {as bs : List α}

@[simp] theorem perform_nil : perform E fails s [] = s := rfl

theorem perform_cons : perform E fails s (a :: as) =
    if fails a then E.failed s a else perform E fails (E.done s a) as := rfl

@[simp] theorem completes_nil : Completes fails [] := by simp [Completes]

@[simp] theorem completes_cons :
    Completes fails (a :: as) ↔ fails a = false ∧ Completes fails as := by
  simp [Completes]

@[simp] theorem completes_append :
    Completes fails (as ++ bs) ↔ Completes fails as ∧ Completes fails bs := by
  simp [Completes, or_imp, forall_and]

theorem perform_append : perform E fails s (as ++ bs) =
    if Completes fails as then perform E fails (perform E fails s as) bs
    else perform E fails s as := by
  induction as generalizing s with
  | nil => simp
  | cons a as ih =>
    rw [List.cons_append, perform_cons, perform_cons]
    cases ha : fails a with
    | true => simp [ha]
    | false => simp [ha, ih]

theorem perform_of_completes (h : Completes fails as) :
    perform E fails s as = as.foldl E.done s := by
  induction as generalizing s with
  | nil => rfl
  | cons a as ih =>
    obtain ⟨ha, has⟩ := completes_cons.mp h
    rw [perform_cons, ha]
    exact ih has

/-- What every action of a script preserves, however it ends, the script preserves. -/
theorem perform_invariant (I : σ → Prop) (hdone : ∀ a ∈ as, ∀ s, I s → I (E.done s a))
    (hfailed : ∀ a ∈ as, ∀ s, I s → I (E.failed s a)) (hs : I s) :
    I (perform E fails s as) := by
  induction as generalizing s with
  | nil => exact hs
  | cons a as ih =>
    rw [perform_cons]
    split
    · exact hfailed a (List.mem_cons_self ..) s hs
    · apply ih
      · exact fun b hb => hdone b (List.mem_cons_of_mem _ hb)
      · exact fun b hb => hfailed b (List.mem_cons_of_mem _ hb)
      · exact hdone a (List.mem_cons_self ..) s hs

def performed (fails : α → Bool) (as : List α) : List α := as.takeWhile fun a => !fails a

theorem performed_initial (fails : α → Bool) (as : List α) : performed fails as <+: as :=
  List.takeWhile_prefix _

theorem performed_of_completes (h : Completes fails as) : performed fails as = as := by
  rw [performed, List.takeWhile_eq_self_iff]
  intro a ha
  rw [h a ha]
  rfl

/-- A view of the state that only the successful actions change is a fold over them. -/
theorem view_perform {β : Type} (view : σ → β) (g : β → α → β)
    (hdone : ∀ a ∈ as, ∀ s, view (E.done s a) = g (view s) a)
    (hfailed : ∀ a ∈ as, ∀ s, view (E.failed s a) = view s) (s : σ) :
    view (perform E fails s as) = (performed fails as).foldl g (view s) := by
  induction as generalizing s with
  | nil => rfl
  | cons a as ih =>
    rw [perform_cons, performed, List.takeWhile_cons]
    cases ha : fails a with
    | true => exact hfailed a (List.mem_cons_self ..) s
    | false =>
      have hdone' := hdone a (List.mem_cons_self ..) s
      simp only [Bool.false_eq_true, if_false, Bool.not_false, if_true, List.foldl_cons, ← hdone']
      apply ih
      · exact fun b hb => hdone b (List.mem_cons_of_mem _ hb)
      · exact fun b hb => hfailed b (List.mem_cons_of_mem _ hb)

/-- The actions that are begun: those that succeed, and the first that fails. -/
def reached (fails : α → Bool) : List α → List α
  | [] => []
  | a :: as => if fails a then [a] else a :: reached fails as

theorem reached_subset (fails : α → Bool) (as : List α) : reached fails as ⊆ as := by
  induction as with
  | nil => exact List.Subset.refl _
  | cons a as ih =>
    unfold reached
    split
    · simp
    · exact List.cons_subset_cons a ih

theorem exec_forM {x : α → Fallible σ ε PUnit} {e : ε}
    (hx : ∀ a s, Fallible.exec (x a) s =
      if fails a then (.error e, E.failed s a) else (.ok ⟨⟩, E.done s a))
    (as : List α) (s : σ) :
    Fallible.exec (as.forM x) s =
      (if Completes fails as then .ok ⟨⟩ else .error e, perform E fails s as) := by
  induction as generalizing s with
  | nil => simp [List.forM, perform]
  | cons a as ih =>
    change Fallible.exec (x a >>= fun _ => as.forM x) s = _
    rw [Fallible.exec_bind, hx, perform_cons]
    cases ha : fails a with
    | true => simp [ha]
    | false => simpa [ha] using ih (E.done s a)

end Scripts
