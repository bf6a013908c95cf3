import M3Sec.Library.Fallible

/-! # Loops

A round of a loop goes on with new values of the loop's variables, or leaves it with a
result. A loop is given a number of rounds, and returns nothing if they are used up. A
variant that every round brings down bounds how many a loop needs.
-/

namespace Fallible

variable {σ ε α β : Type}

inductive Round (β α : Type) where
  | next (b : β)
  | done (a : α)

def Round.Holds (N : β → Prop) (D : α → Prop) : Round β α → Prop
  | next b => N b
  | done a => D a

/-- At most so many rounds, from the values of the variables on. -/
def loop (body : β → Fallible σ ε (Round β α)) : ℕ → β → Fallible σ ε (Option α)
  | 0, _ => pure none
  | n + 1, b => do
    match ← body b with
    | .next b => loop body n b
    | .done a => return some a

section Loop

variable {body : β → Fallible σ ε (Round β α)} {n : ℕ} {b b' : β} {a : α} {s t : σ}

theorem exec_loop_next (h : exec (body b) s = (.ok (.next b'), t)) :
    exec (loop body (n + 1) b) s = exec (loop body n b') t := by
  rw [loop, exec_bind_ok h]

theorem exec_loop_done (h : exec (body b) s = (.ok (.done a), t)) :
    exec (loop body (n + 1) b) s = (.ok (some a), t) := by
  rw [loop, exec_bind_ok h]
  rfl

variable {I : β → σ → Prop} {Q : α → σ → Prop} {E : ε → σ → Prop}

/-- Each round keeps the invariant and brings the variant down, or leaves with the result. -/
theorem Ensures.loop (μ : β → σ → ℕ)
    (h : ∀ b k, Ensures (fun s => I b s ∧ μ b s = k) (body b)
      (fun r t => r.Holds (fun b' => I b' t ∧ μ b' t < k) fun a => Q a t) E) (n : ℕ) (b : β) :
    Ensures (fun s => I b s ∧ μ b s < n) (loop body n b)
      (fun r t => ∃ a, r = some a ∧ Q a t) E := by
  induction n generalizing b with
  | zero =>
    rintro s ⟨-, hn⟩
    exact absurd hn (Nat.not_lt_zero _)
  | succ n ih =>
    rintro s ⟨hs, hn⟩
    refine ((h b (μ b s)).bind fun r => ?_) s ⟨hs, rfl⟩
    cases r with
    | next b' =>
      refine (ih b').weaken (fun t ht => ⟨ht.1, ?_⟩) (fun _ _ => id) fun _ _ => id
      exact lt_of_lt_of_le ht.2 (Nat.le_of_lt_succ hn)
    | done a => exact .pure fun t ht => ⟨a, rfl, ht⟩

end Loop

end Fallible
