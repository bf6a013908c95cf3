import M3Sec.Afsfuse.Split

/-! # The life of a call

`xmp_getattr` ends its call on every path. `xmp_read` does not end it where the start of the
call or the decoding of the length fails, and `xmp_write` ends it only where everything before
succeeds; where `rx_EndCall` fails, it asks the ended call for its error.
-/

namespace M3Sec.Afsfuse

variable {ρ : Type} {tr pre : List Event}

def Event.OnCall : Event → Prop
  | .start _ | .xdrLong | .rxRead _ | .rxWrite _ | .rxError | .endCall _ => True
  | _ => False

def Event.IsEndCall : Event → Prop
  | .endCall _ => True
  | _ => False

/-- The call is ended, and after that nothing is applied to it. -/
def EndsOnce : List Event → Prop
  | [] => False
  | .endCall _ :: tr => ∀ e ∈ tr, ¬ e.OnCall
  | _ :: tr => EndsOnce tr

theorem endsOnce_append (h : ∀ e ∈ pre, ¬ e.IsEndCall) : EndsOnce (pre ++ tr) ↔ EndsOnce tr := by
  induction pre with
  | nil => rfl
  | cons e pre ih =>
    have hrest := ih fun e he => h e (List.mem_cons_of_mem _ he)
    cases e with
    | endCall error => exact absurd trivial (h _ (List.mem_cons_self ..))
    | _ => exact hrest

def SplitOperation.Ends (call : Call) : SplitOperation → Prop
  | getattr _ => True
  | read .. => call.start = 0 ∧ call.header.isSome
  | write .. => call.start = 0 ∧ call.encodes = true ∧ 0 < call.written ∧ call.ended = 0

theorem endsOnce_opened {env : Environment ρ} {q : Request} {s : Client ρ} (h : s.trace = []) :
    EndsOnce (s.opened env q ++ tr) ↔ EndsOnce tr := by
  apply endsOnce_append
  intro e he
  rw [Client.opened, h, List.nil_append] at he
  rcases List.mem_append.mp he with he | he
  · rw [List.eq_of_mem_replicate he]
    exact id
  · simp only [List.mem_cons, List.not_mem_nil, or_false] at he
    rcases he with rfl | rfl | rfl <;> exact id

theorem endsOnce_getattrOutcome (call : Call) :
    EndsOnce ((getattrOutcome call).events ++ [.released]) := by
  unfold getattrOutcome getattrThrown
  by_cases hstart : call.start = 0
  · cases hheader : call.header with
    | none => simp [hstart, EndsOnce, Event.OnCall]
    | some length =>
      by_cases hdata : getattrData call length = [] <;>
        simp [hstart, hdata, EndsOnce, Event.OnCall]
  · simp [hstart, EndsOnce, Event.OnCall]

theorem endsOnce_readOutcome_iff (call : Call) :
    EndsOnce ((readOutcome call).events ++ [.released]) ↔
      call.start = 0 ∧ call.header.isSome := by
  unfold readOutcome
  by_cases hstart : call.start = 0
  · cases hheader : call.header with
    | none => simp [hstart, EndsOnce]
    | some length =>
      have hreads : ∀ e ∈ Event.xdrLong :: call.chunks.map fun bs => .rxRead bs.val.length,
          ¬ e.IsEndCall := by
        rintro e he
        rcases List.mem_cons.mp he with rfl | he
        · exact id
        · obtain ⟨bs, -, rfl⟩ := List.mem_map.mp he
          exact id
      simp only [hstart, ne_eq, not_true_eq_false, if_false, List.append_assoc]
      rw [endsOnce_append hreads]
      simp [EndsOnce, Event.OnCall]
  · simp [hstart, EndsOnce]

theorem endsOnce_writeOutcome_iff (length : ℤ) (call : Call) :
    EndsOnce ((writeOutcome length call).events ++ [.released]) ↔
      call.start = 0 ∧ call.encodes = true ∧ 0 < call.written ∧ call.ended = 0 := by
  unfold writeOutcome
  by_cases hstart : call.start = 0
  · by_cases hencodes : call.encodes = true
    · by_cases hwritten : call.written ≤ 0
      · simp [hstart, hencodes, hwritten, EndsOnce]
      · by_cases hended : call.ended = 0
        · simp [hstart, hencodes, hwritten, hended, EndsOnce, Event.OnCall, Int.not_le.mp hwritten]
        · simp [hstart, hencodes, hwritten, hended, EndsOnce, Event.OnCall]
    · simp [hstart, hencodes, EndsOnce]
  · simp [hstart, EndsOnce]

/-- The three operations with a split call end their call once and leave it alone after that
exactly in the cases of `Ends`. -/
theorem endsOnce_iff (op : SplitOperation) (env : Environment ρ) (s : ρ)
    (buffer : Memory.Region UInt8) :
    EndsOnce (Fallible.exec (op.operation.run env) ⟨s, [], buffer⟩).2.trace ↔
      op.Ends (env.split op.request op.upload s).1 := by
  rw [op.performs ⟨s, [], buffer⟩, List.append_assoc, endsOnce_opened rfl]
  cases op with
  | getattr => exact iff_of_true (endsOnce_getattrOutcome _) trivial
  | read => exact endsOnce_readOutcome_iff _
  | write => exact endsOnce_writeOutcome_iff _ _

/-- When the server is down, `xmp_read` never ends its call. -/
theorem read_not_endsOnce : ¬ ∀ (op : SplitOperation) (env : Environment Unit) (s : Unit)
    (buffer : Memory.Region UInt8),
    EndsOnce (Fallible.exec (op.operation.run env) ⟨s, [], buffer⟩).2.trace := by
  intro h
  exact h (.read ⟨str "/", by decide⟩ 1 0 ⟨0, 0, 0⟩) down () (.untouched fun _ => 0)

end M3Sec.Afsfuse
