import Mathlib.Order.Basic
import Mathlib.Data.List.Infix

/-! # Computations that may throw

A fallible computation runs over a state and returns a value or throws. What it
did to the state before it threw stays done. `Ensures` is a Hoare triple with a
postcondition for each kind of exit, `Moves` relates the states before and after
whatever the exit is, `Ends` and `Returns` are about the exit only.
-/

/-- A computation over `σ` that returns an `α` or throws an `ε`. -/
abbrev Fallible (σ ε α : Type) := ExceptT ε (StateM σ) α

namespace Fallible

variable {σ τ ε α β γ : Type}

/-- Run a computation: how it ends, and the state it leaves. -/
def exec (x : Fallible σ ε α) (s : σ) : Except ε α × σ := x.run s

@[simp] theorem exec_pure (a : α) (s : σ) :
    exec (pure a : Fallible σ ε α) s = (.ok a, s) := rfl

@[simp] theorem exec_get (s : σ) : exec (get : Fallible σ ε σ) s = (.ok s, s) := rfl

@[simp] theorem exec_modify (f : σ → σ) (s : σ) :
    exec (modify f : Fallible σ ε PUnit) s = (.ok ⟨⟩, f s) := rfl

@[simp] theorem exec_throw (e : ε) (s : σ) :
    exec (throw e : Fallible σ ε α) s = (.error e, s) := rfl

theorem exec_bind (x : Fallible σ ε α) (f : α → Fallible σ ε β) (s : σ) :
    exec (x >>= f) s = match exec x s with
      | (.ok a, t) => exec (f a) t
      | (.error e, t) => (.error e, t) := by
  unfold exec
  rw [ExceptT.run_bind]
  change StateT.bind x.run _ s = _
  unfold StateT.bind
  change (match x.run s with | (r, t) => _) = _
  rcases x.run s with ⟨_ | _, t⟩ <;> rfl

theorem exec_bind_ok {x : Fallible σ ε α} {f : α → Fallible σ ε β} {s t : σ} {a : α}
    (h : exec x s = (.ok a, t)) : exec (x >>= f) s = exec (f a) t := by
  rw [exec_bind, h]

theorem exec_bind_error {x : Fallible σ ε α} {f : α → Fallible σ ε β} {s t : σ} {e : ε}
    (h : exec x s = (.error e, t)) : exec (x >>= f) s = (.error e, t) := by
  rw [exec_bind, h]

theorem exec_bind_state (x : Fallible σ ε α) (f : α → Fallible σ ε β) (s : σ) :
    (exec (x >>= f) s).2 = (exec x s).2 ∨
      ∃ a, (exec (x >>= f) s).2 = (exec (f a) (exec x s).2).2 := by
  rw [exec_bind]
  rcases exec x s with ⟨e | a, t⟩
  · exact Or.inl rfl
  · exact Or.inr ⟨a, rfl⟩

theorem exec_tryCatch (x : Fallible σ ε α) (f : ε → Fallible σ ε α) (s : σ) :
    exec (tryCatch x f) s = match exec x s with
      | (.ok a, t) => (.ok a, t)
      | (.error e, t) => exec (f e) t := by
  unfold exec
  simp only [tryCatch, tryCatchThe, MonadExceptOf.tryCatch, ExceptT.tryCatch, ExceptT.run_mk]
  change StateT.bind x.run _ s = _
  unfold StateT.bind
  change (match x.run s with | (r, t) => _) = _
  rcases x.run s with ⟨_ | _, t⟩ <;> rfl

def result (x : Fallible σ Empty α) (s : σ) : α :=
  match (exec x s).1 with
  | .ok a => a
  | .error e => e.elim

def onPart (view : σ → τ) (put : τ → σ → σ) (x : Fallible τ ε α) : Fallible σ ε α :=
  ExceptT.mk fun s => ((exec x (view s)).1, put (exec x (view s)).2 s)

@[simp] theorem exec_onPart (view : σ → τ) (put : τ → σ → σ) (x : Fallible τ ε α) (s : σ) :
    exec (onPart view put x) s = ((exec x (view s)).1, put (exec x (view s)).2 s) := rfl

/-! ## Triples -/

/-- From a state in `P`, a return of `a` ends in `Q a` and a throw of `e` in `E e`. -/
def Ensures (P : σ → Prop) (x : Fallible σ ε α) (Q : α → σ → Prop) (E : ε → σ → Prop) : Prop :=
  ∀ s, P s → match exec x s with
    | (.ok a, t) => Q a t
    | (.error e, t) => E e t

section Triples

variable {P P' : σ → Prop} {Q Q' : α → σ → Prop} {R : β → σ → Prop} {E F : ε → σ → Prop}
  {x : Fallible σ ε α} {f : α → Fallible σ ε β}

theorem Ensures.ok {s t : σ} {a : α} (h : Ensures P x Q E) (hs : P s)
    (hx : exec x s = (.ok a, t)) : Q a t := by
  have := h s hs
  rwa [hx] at this

theorem Ensures.returns {x : Fallible σ Empty α} {E : Empty → σ → Prop} {s : σ}
    (h : Ensures P x Q E) (hs : P s) : ∃ a t, exec x s = (.ok a, t) ∧ Q a t := by
  have hs' := h s hs
  revert hs'
  rcases exec x s with ⟨e | a, t⟩
  · exact e.elim
  · exact fun hq => ⟨a, t, rfl, hq⟩

theorem Ensures.state {I : σ → Prop} {s : σ} (h : Ensures P x (fun _ => I) fun _ => I) (hs : P s) :
    I (exec x s).2 := by
  have hs' := h s hs
  revert hs'
  rcases exec x s with ⟨_ | _, t⟩ <;> exact id

theorem Ensures.weaken (h : Ensures P' x Q' F) (hP : ∀ s, P s → P' s)
    (hQ : ∀ a s, Q' a s → Q a s) (hE : ∀ e s, F e s → E e s) : Ensures P x Q E := by
  intro s hs
  have hs' := h s (hP s hs)
  revert hs'
  rcases exec x s with ⟨e | a, t⟩
  · exact hE e t
  · exact hQ a t

theorem Ensures.pure {a : α} (h : ∀ s, P s → Q a s) :
    Ensures P (Pure.pure a : Fallible σ ε α) Q E := fun s hs => h s hs

theorem Ensures.bind (hx : Ensures P x Q E) (hf : ∀ a, Ensures (Q a) (f a) R E) :
    Ensures P (x >>= f) R E := by
  intro s hs
  have hs' := hx s hs
  rw [exec_bind]
  revert hs'
  rcases exec x s with ⟨e | a, t⟩
  · exact id
  · exact hf a t

theorem Ensures.throw {e : ε} (h : ∀ s, P s → E e s) :
    Ensures P (MonadExcept.throw e : Fallible σ ε α) Q E := fun s hs => h s hs

theorem Ensures.modify {g : σ → σ} {Q : PUnit → σ → Prop} (h : ∀ s, P s → Q ⟨⟩ (g s)) :
    Ensures P (modify g : Fallible σ ε PUnit) Q E := fun s hs => h s hs

theorem Ensures.get {Q : σ → σ → Prop} (h : ∀ s, P s → Q s s) :
    Ensures P (get : Fallible σ ε σ) Q E := fun s hs => h s hs

theorem Ensures.ite {c : Prop} [Decidable c] {y : Fallible σ ε α} (hx : Ensures P x Q E)
    (hy : Ensures P y Q E) : Ensures P (if c then x else y) Q E := by
  split
  · exact hx
  · exact hy

theorem Ensures.tryCatch {g : ε → Fallible σ ε α} (hx : Ensures P x Q F)
    (hg : ∀ e, Ensures (F e) (g e) Q E) : Ensures P (tryCatch x g) Q E := by
  intro s hs
  have hs' := hx s hs
  rw [exec_tryCatch]
  revert hs'
  rcases exec x s with ⟨e | a, t⟩
  · exact hg e t
  · exact id

theorem Ensures.forM {l : List α} {f : α → Fallible σ ε PUnit} {I : List α → σ → Prop}
    (hf : ∀ pre a, pre ++ [a] <+: l → Ensures (I pre) (f a) (fun _ => I (pre ++ [a])) E) :
    Ensures (I []) (l.forM f) (fun _ => I l) E := by
  suffices h : ∀ pre post, pre ++ post = l → Ensures (I pre) (post.forM f) (fun _ => I l) E from
    h [] l rfl
  intro pre post hl
  induction post generalizing pre with
  | nil =>
    rw [List.append_nil] at hl
    exact .pure fun s hs => hl ▸ hs
  | cons a post ih =>
    have hl' : (pre ++ [a]) ++ post = l := by simpa using hl
    exact (hf pre a ⟨post, hl'⟩).bind fun _ => ih (pre ++ [a]) hl'

theorem Ensures.mapM {l : List α} {I : List α → List β → σ → Prop}
    (hf : ∀ pre a bs, pre ++ [a] <+: l →
      Ensures (I pre bs) (f a) (fun b => I (pre ++ [a]) (bs ++ [b])) E) :
    Ensures (I [] []) (l.mapM f) (fun bs => I l bs) E := by
  suffices h : ∀ pre post bs, pre ++ post = l →
      Ensures (I pre bs) (post.mapM f) (fun bs' => I l (bs ++ bs')) E by
    simpa using h [] l [] rfl
  intro pre post bs hl
  induction post generalizing pre bs with
  | nil =>
    rw [List.append_nil] at hl
    exact .pure fun s hs => by simpa [hl] using hs
  | cons a post ih =>
    have hl' : (pre ++ [a]) ++ post = l := by simpa using hl
    rw [List.mapM_cons]
    refine (hf pre a bs ⟨post, hl'⟩).bind fun b => (ih (pre ++ [a]) (bs ++ [b]) hl').bind fun bs' => ?_
    exact .pure fun s hs => by simpa using hs

end Triples

/-! ## Frames -/

/-- Every exit of the computation is related to the state it started in. -/
def Moves (R : σ → σ → Prop) (x : Fallible σ ε α) : Prop := ∀ s, R s (exec x s).2

section Moves

variable {R : σ → σ → Prop} {x : Fallible σ ε α} {f : α → Fallible σ ε β}

theorem Moves.pure [Std.Refl R] (a : α) : Moves R (Pure.pure a : Fallible σ ε α) :=
  fun s => refl_of R s

theorem Moves.throw [Std.Refl R] (e : ε) : Moves R (MonadExcept.throw e : Fallible σ ε α) :=
  fun s => refl_of R s

theorem Moves.modify {g : σ → σ} (h : ∀ s, R s (g s)) :
    Moves R (modify g : Fallible σ ε PUnit) := h

theorem Moves.mono {R' : σ → σ → Prop} (hx : Moves R x) (h : ∀ s t, R s t → R' s t) :
    Moves R' x := fun s => h _ _ (hx s)

theorem Moves.bind [IsTrans σ R] (hx : Moves R x) (hf : ∀ a, Moves R (f a)) :
    Moves R (x >>= f) := by
  intro s
  have hs := hx s
  rw [exec_bind]
  revert hs
  rcases exec x s with ⟨e | a, t⟩
  · exact id
  · exact fun hs => trans_of R hs (hf a t)

theorem Moves.bind_from [Std.Refl R] (hf : ∀ a, Moves R (f a)) (s : σ) :
    R (exec x s).2 (exec (x >>= f) s).2 := by
  rcases exec_bind_state x f s with h | ⟨a, h⟩
  · rw [h]; exact refl_of R _
  · rw [h]; exact hf a _

theorem Moves.ite {c : Prop} [Decidable c] {y : Fallible σ ε α} (hx : Moves R x)
    (hy : Moves R y) : Moves R (if c then x else y) := by
  split
  · exact hx
  · exact hy

theorem Moves.mapM [Std.Refl R] [IsTrans σ R] {l : List α} (hf : ∀ a ∈ l, Moves R (f a)) :
    Moves R (l.mapM f) := by
  induction l with
  | nil => exact .pure _
  | cons a l ih =>
    rw [List.mapM_cons]
    have hl := ih fun b hb => hf b (List.mem_cons_of_mem _ hb)
    exact (hf a (List.mem_cons_self ..)).bind fun _ => hl.bind fun _ => .pure _

theorem Moves.forM [Std.Refl R] [IsTrans σ R] {l : List α} {f : α → Fallible σ ε PUnit}
    (hf : ∀ a ∈ l, Moves R (f a)) : Moves R (l.forM f) := by
  induction l with
  | nil => exact .pure _
  | cons a l ih =>
    have hl := ih fun b hb => hf b (List.mem_cons_of_mem _ hb)
    exact (hf a (List.mem_cons_self ..)).bind fun _ => hl

end Moves

/-! ## Ends -/

def Ends (x : Fallible σ ε α) (r : Except ε α) : Prop := ∀ s, (exec x s).1 = r

theorem Ends.pure (a : α) : Ends (Pure.pure a : Fallible σ ε α) (.ok a) := fun _ => rfl

theorem Ends.modify (f : σ → σ) : Ends (modify f : Fallible σ ε PUnit) (.ok ⟨⟩) := fun _ => rfl

theorem Ends.ok_bind {x : Fallible σ ε α} {a : α} {f : α → Fallible σ ε β} {r : Except ε β}
    (hx : Ends x (.ok a)) (hf : Ends (f a) r) : Ends (x >>= f) r := by
  intro s
  rcases h : exec x s with ⟨r', t⟩
  obtain rfl : r' = .ok a := by simpa [h] using hx s
  rw [exec_bind_ok h]
  exact hf t

theorem Ends.error_bind {x : Fallible σ ε α} {e : ε} {f : α → Fallible σ ε β}
    (hx : Ends x (.error e)) : Ends (x >>= f) (.error e) := by
  intro s
  rcases h : exec x s with ⟨r, t⟩
  obtain rfl : r = .error e := by simpa [h] using hx s
  rw [exec_bind_error h]

/-! ## Returns -/

def Returns (x : Fallible σ ε α) (Q : α → Prop) : Prop :=
  ∀ s, ∃ a t, exec x s = (.ok a, t) ∧ Q a

section Returns

variable {x : Fallible σ ε α} {f : α → Fallible σ ε β} {Q : α → Prop} {R : β → Prop}

theorem Returns.pure {a : α} (h : Q a) : Returns (Pure.pure a : Fallible σ ε α) Q :=
  fun s => ⟨a, s, rfl, h⟩

theorem Returns.bind (hx : Returns x Q) (hf : ∀ a, Q a → Returns (f a) R) :
    Returns (x >>= f) R := by
  intro s
  obtain ⟨a, t, hat, ha⟩ := hx s
  rw [exec_bind_ok hat]
  exact hf a ha t

theorem Returns.mapM {l : List α} (hf : ∀ a ∈ l, Returns (f a) fun _ => True) :
    Returns (l.mapM f) fun bs => bs.length = l.length := by
  induction l with
  | nil => exact .pure rfl
  | cons a l ih =>
    rw [List.mapM_cons]
    refine (hf a (List.mem_cons_self ..)).bind fun b _ => ?_
    exact (ih fun b hb => hf b (List.mem_cons_of_mem _ hb)).bind fun bs hbs =>
      .pure (by simpa using hbs)

theorem Returns.forM {l : List α} {f : α → Fallible σ ε PUnit}
    (hf : ∀ a ∈ l, Returns (f a) fun _ => True) : Returns (l.forM f) fun _ => True := by
  induction l with
  | nil => exact .pure trivial
  | cons a l ih =>
    exact (hf a (List.mem_cons_self ..)).bind fun _ _ =>
      ih fun b hb => hf b (List.mem_cons_of_mem _ hb)

end Returns

theorem exec_forM {l : List α} {f : α → Fallible σ ε PUnit} {g : σ → α → σ}
    (hf : ∀ a ∈ l, ∀ s, exec (f a) s = (.ok ⟨⟩, g s a)) (s : σ) :
    exec (l.forM f) s = (.ok ⟨⟩, l.foldl g s) := by
  induction l generalizing s with
  | nil => rfl
  | cons a l ih =>
    change exec (f a >>= fun _ => l.forM f) s = _
    rw [exec_bind_ok (hf a (List.mem_cons_self ..) s)]
    exact ih (fun b hb => hf b (List.mem_cons_of_mem _ hb)) (g s a)

/-! ## Simulation -/

section Simulates

variable {R : σ → τ → Prop} {f : α → Fallible σ ε β} {g : α → τ → β × τ} {l : List α}

/-- From related states the computation returns what the function does, and the states that
they leave are related again. -/
def Simulates (R : σ → τ → Prop) (x : Fallible σ ε α) (g : τ → α × τ) : Prop :=
  ∀ s u, R s u → ∃ t, exec x s = (.ok (g u).1, t) ∧ R t (g u).2

def inTurn (g : α → τ → β × τ) : List α → τ → List β × τ
  | [], u => ([], u)
  | a :: l, u => ((g a u).1 :: (inTurn g l (g a u).2).1, (inTurn g l (g a u).2).2)

theorem inTurn_snoc (g : α → τ → β × τ) (l : List α) (a : α) (u : τ) :
    inTurn g (l ++ [a]) u =
      ((inTurn g l u).1 ++ [(g a (inTurn g l u).2).1], (g a (inTurn g l u).2).2) := by
  induction l generalizing u with
  | nil => rfl
  | cons b l ih => simp [inTurn, ih]

theorem Simulates.mapM (h : ∀ a ∈ l, Simulates R (f a) (g a)) :
    Simulates R (l.mapM f) (inTurn g l) := by
  induction l with
  | nil => exact fun s u hs => ⟨s, rfl, hs⟩
  | cons a l ih =>
    intro s u hs
    obtain ⟨t, ht, hR⟩ := h a List.mem_cons_self s u hs
    obtain ⟨t', ht', hR'⟩ := ih (fun a' ha' => h a' (List.mem_cons_of_mem _ ha')) t _ hR
    refine ⟨t', ?_, hR'⟩
    rw [List.mapM_cons, exec_bind_ok ht, exec_bind_ok ht']
    rfl

end Simulates

/-! ## Two computations in step -/

section Couples

variable {α' β' : Type} {R : σ → τ → Prop} {Q : α → α' → Prop} {S : β → β' → Prop}
  {x : Fallible σ ε α} {y : Fallible τ ε α'}

/-- From related states both computations throw the same or return related results, and the
states that they leave are related again. -/
def Couples (R : σ → τ → Prop) (x : Fallible σ ε α) (y : Fallible τ ε α')
    (Q : α → α' → Prop) : Prop :=
  ∀ s u, R s u → R (exec x s).2 (exec y u).2 ∧
    match (exec x s).1, (exec y u).1 with
    | .ok a, .ok a' => Q a a'
    | .error e, .error e' => e = e'
    | _, _ => False

theorem Couples.pure {a : α} {a' : α'} (h : Q a a') :
    Couples R (Pure.pure a : Fallible σ ε α) (Pure.pure a' : Fallible τ ε α') Q :=
  fun _ _ hs => ⟨hs, h⟩

theorem Couples.throw (e : ε) : Couples R (MonadExcept.throw e : Fallible σ ε α)
    (MonadExcept.throw e : Fallible τ ε α') Q :=
  fun _ _ hs => ⟨hs, rfl⟩

theorem Couples.bind {f : α → Fallible σ ε β} {g : α' → Fallible τ ε β'} (h : Couples R x y Q)
    (hf : ∀ a a', Q a a' → Couples R (f a) (g a') S) : Couples R (x >>= f) (y >>= g) S := by
  intro s u hs
  have hxy := h s u hs
  rw [exec_bind, exec_bind]
  revert hxy
  rcases exec x s with ⟨e | a, t⟩ <;> rcases exec y u with ⟨e' | a', v⟩
  · exact id
  · exact fun hxy => hxy.2.elim
  · exact fun hxy => hxy.2.elim
  · exact fun hxy => hf a a' hxy.2 t v hxy.1

theorem Couples.forM {l : List α} {f : α → Fallible σ ε PUnit} {g : α → Fallible τ ε PUnit}
    (h : ∀ a ∈ l, Couples R (f a) (g a) fun _ _ => True) :
    Couples R (l.forM f) (l.forM g) fun _ _ => True := by
  induction l with
  | nil => exact .pure trivial
  | cons a l ih =>
    exact (h a List.mem_cons_self).bind fun _ _ _ =>
      ih fun b hb => h b (List.mem_cons_of_mem _ hb)

theorem Couples.mapM {l : List α} {f : α → Fallible σ ε β} {g : α → Fallible τ ε β'}
    (h : ∀ a ∈ l, Couples R (f a) (g a) S) :
    Couples R (l.mapM f) (l.mapM g) (List.Forall₂ S) := by
  induction l with
  | nil => exact .pure .nil
  | cons a l ih =>
    rw [List.mapM_cons, List.mapM_cons]
    exact (h a List.mem_cons_self).bind fun b b' hb =>
      (ih fun c hc => h c (List.mem_cons_of_mem _ hc)).bind fun bs bs' hbs => .pure (.cons hb hbs)

theorem Couples.ok {s : σ} {u v : τ} {a' : α'} (h : Couples R x y Q) (hs : R s u)
    (hy : exec y u = (.ok a', v)) : ∃ a t, exec x s = (.ok a, t) ∧ Q a a' ∧ R t v := by
  have hxy := h s u hs
  rw [hy] at hxy
  revert hxy
  rcases exec x s with ⟨e | a, t⟩
  · exact fun hxy => hxy.2.elim
  · exact fun hxy => ⟨a, t, rfl, hxy.2, hxy.1⟩

end Couples

end Fallible
