import M3Sec.Afsfuse.Split

/-! # What comes into the caller's buffer

`xmp_getattr` reads as much as the server says that it sends, `xmp_read` reads as long as
something comes, and `xmp_readlink` always copies 511 bytes: none of them looks at the size of
the buffer that it writes to.
-/

namespace M3Sec.Afsfuse

open Fallible Memory

variable {ρ : Type} {env : Environment ρ} {s : Client ρ}

inductive Receiver where
  | getattr (path : CString)
  | read (path : CString) (size offset : ℕ) (fi : MyFileInfo)
  | readlink (path : CString) (size : ℕ)

namespace Receiver

def operation : Receiver → Operation
  | getattr path => .getattr path
  | read path size offset fi => .read path size offset fi
  | readlink path size => .readlink path size

def capacity : Receiver → ℕ
  | getattr _ => sizeofStat
  | read _ size _ _ => size
  | readlink _ size => size

/-- What the server sends fits into the buffer, which for `xmp_readlink` depends on the buffer
alone. -/
def Fits (env : Environment ρ) (s : ρ) : Receiver → Prop
  | getattr path =>
    let call := (env.split (.rxcGetattr path 100) none s).1
    call.start = 0 → ∀ length, call.header = some length →
      min (rxCount call.negative length) call.bytes.length ≤ sizeofStat
  | read path size offset fi =>
    let call := (env.split (.rxcRead path (.ofNat size) (.ofNat offset) fi) none s).1
    call.start = 0 → call.header.isSome → call.bytes.length ≤ size
  | readlink _ size => 511 ≤ size

end Receiver

theorem length_getattrOutcome_le_iff (call : Call) :
    (getattrOutcome call).data.length ≤ sizeofStat ↔ call.start = 0 → ∀ length,
      call.header = some length →
        min (rxCount call.negative length) call.bytes.length ≤ sizeofStat := by
  unfold getattrOutcome getattrThrown
  by_cases hstart : call.start = 0
  · cases hheader : call.header with
    | none => simp [hstart]
    | some length =>
      have hlen : (getattrData call length).length =
        min (rxCount call.negative length) call.bytes.length := List.length_take
      by_cases hdata : getattrData call length = []
      · rw [hdata, List.length_nil] at hlen
        apply iff_of_true
        · simp [hstart, hdata, sizeofStat, sizeofPointer]
        · rintro - l hl
          obtain rfl := Option.some.inj hl
          rw [← hlen]
          exact Nat.zero_le _
      · simp [hstart, hdata, hlen]
  · simp [hstart]

theorem length_readOutcome_le_iff (call : Call) (size : ℕ) :
    (readOutcome call).data.length ≤ size ↔
      call.start = 0 → call.header.isSome → call.bytes.length ≤ size := by
  unfold readOutcome
  by_cases hstart : call.start = 0
  · cases hheader : call.header <;> simp [hstart]
  · simp [hstart]

theorem reach_split {x : Op ρ ℤ} {q : Request} {upload : Option (ℤ × Str)}
    {outcome : Call → Outcome} (h : Performs env x q upload outcome) (cells : ℕ → UInt8)
    (hs : s.buffer = .untouched cells) :
    (exec x s).2.buffer.reach = (outcome (env.split q upload s.outside).1).data.length := by
  rw [h s, Region.reach_store_zero, hs]
  exact Nat.zero_max _

theorem reach_readlink (path : CString) (size : ℕ) (cells : ℕ → UInt8)
    (hs : s.buffer = .untouched cells) :
    (exec (xmpReadlink env path size) s).2.buffer.reach = max size 511 := by
  rw [exec_xmpReadlink, Region.reach_store_zero, Region.reach_store_zero, hs]
  simp only [Region.untouched, List.length_replicate, List.length_take, List.length_append]
  omega

/-- The operations write within the buffer exactly if what they receive fits into it. -/
theorem reach_le_capacity_iff (op : Receiver) (env : Environment ρ) (s : ρ) (tr : List Event)
    (cells : ℕ → UInt8) :
    (exec (op.operation.run env) ⟨s, tr, .untouched cells⟩).2.buffer.reach ≤ op.capacity ↔
      op.Fits env s := by
  cases op with
  | getattr path =>
    change (exec (xmpGetattr env path) _).2.buffer.reach ≤ sizeofStat ↔ _
    rw [reach_split (performs_xmpGetattr path) cells rfl]
    exact length_getattrOutcome_le_iff _
  | read path size offset fi =>
    change (exec (xmpRead env path size offset fi) _).2.buffer.reach ≤ size ↔ _
    rw [reach_split (performs_xmpRead path size offset fi) cells rfl]
    exact length_readOutcome_le_iff _ _
  | readlink path size =>
    change (exec (xmpReadlink env path size) _).2.buffer.reach ≤ size ↔ 511 ≤ size
    rw [reach_readlink path size cells rfl]
    omega

/-- A caller asks for a single byte, and the server sends two. -/
theorem read_overruns : ¬ ∀ (op : Receiver) (env : Environment Unit) (cells : ℕ → UInt8),
    (exec (op.operation.run env) ⟨(), [], .untouched cells⟩).2.buffer.reach ≤ op.capacity := by
  intro h
  have hread := h (.read ⟨str "/", by decide⟩ 1 0 ⟨0, 0, 0⟩)
    { down with
      split := fun _ _ _ =>
        (⟨0, true, some 2, [⟨[7, 7], by decide⟩], ⟨0, zero_nonpos⟩, 0, 0, 0, 0⟩, ()) }
    fun _ => 0
  exact absurd hread (by decide)

end M3Sec.Afsfuse
