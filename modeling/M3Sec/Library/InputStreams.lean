import Mathlib.Data.List.Basic

/-! # Input streams

An unformatted read takes characters up to a delimiter, up to the end of the input, or until
its buffer is full. The end and a full buffer are remembered: once a read has failed, every
other one takes nothing.
-/

namespace InputStreams

variable {α : Type}

/-- The characters that are left, and whether the end was reached or a read has failed. -/
structure Stream (α : Type) where
  rest : List α
  eof : Bool
  fail : Bool
  deriving DecidableEq

def Stream.good (rest : List α) : Stream α := ⟨rest, false, false⟩

inductive Stopped | eof | delim | full
  deriving DecidableEq

variable [DecidableEq α] {d c : α} {n : ℕ} {line rest : List α} {s : Stream α}

/-- Take characters while there is room: what was taken, what is left, and why. The end comes
first, and the delimiter, which is taken too, comes before the room. -/
def scan (d : α) : (room : ℕ) → (rest : List α) → List α × List α × Stopped
  | _, [] => ([], [], .eof)
  | 0, c :: rest => if c = d then ([], rest, .delim) else ([], c :: rest, .full)
  | room + 1, c :: rest =>
    if c = d then ([], rest, .delim)
    else (c :: (scan d room rest).1, (scan d room rest).2)

/-- `getline` into a buffer of `n` characters, one of which is for the terminator. The result is
what is stored before it. -/
def getline (d : α) (n : ℕ) (s : Stream α) : List α × Stream α :=
  if s.eof || s.fail then ([], { s with fail := true })
  else
    let r := scan d (n - 1) s.rest
    match r.2.2 with
    | .eof => (r.1, ⟨r.2.1, true, r.1 = []⟩)
    | .delim => (r.1, ⟨r.2.1, false, false⟩)
    | .full => (r.1, ⟨r.2.1, false, true⟩)

theorem scan_line (hd : d ∉ line) (hn : line.length ≤ n) :
    scan d n (line ++ d :: rest) = (line, rest, .delim) := by
  induction line generalizing n with
  | nil => cases n <;> simp [scan]
  | cons c line ih =>
    obtain ⟨n, rfl⟩ := Nat.exists_eq_add_one_of_ne_zero (Nat.ne_zero_of_lt hn)
    have hc : c ≠ d := fun he => hd (he ▸ List.mem_cons_self)
    have hrest := ih (fun h => hd (List.mem_cons_of_mem _ h)) (Nat.le_of_succ_le_succ hn)
    simp [scan, hc, hrest]

theorem scan_end (hd : d ∉ line) (hn : line.length ≤ n) : scan d n line = (line, [], .eof) := by
  induction line generalizing n with
  | nil => cases n <;> rfl
  | cons c line ih =>
    obtain ⟨n, rfl⟩ := Nat.exists_eq_add_one_of_ne_zero (Nat.ne_zero_of_lt hn)
    have hc : c ≠ d := fun he => hd (he ▸ List.mem_cons_self)
    have hrest := ih (fun h => hd (List.mem_cons_of_mem _ h)) (Nat.le_of_succ_le_succ hn)
    simp [scan, hc, hrest]

theorem scan_full (hd : d ∉ line) (hn : n < line.length) :
    scan d n (line ++ rest) = (line.take n, line.drop n ++ rest, .full) := by
  induction line generalizing n with
  | nil => exact absurd hn (Nat.not_lt_zero _)
  | cons c line ih =>
    have hc : c ≠ d := fun he => hd (he ▸ List.mem_cons_self)
    cases n with
    | zero => simp [scan, hc]
    | succ n =>
      have hrest := ih (fun h => hd (List.mem_cons_of_mem _ h)) (Nat.lt_of_succ_lt_succ hn)
      simp [scan, hc, hrest]

theorem getline_line (hd : d ∉ line) (hn : line.length < n) :
    getline d n (.good (line ++ d :: rest)) = (line, .good rest) := by
  simp [getline, Stream.good, scan_line hd (Nat.le_sub_one_of_lt hn)]

theorem getline_end (hd : d ∉ line) (hn : line.length < n) :
    getline d n (.good line) = (line, ⟨[], true, line = []⟩) := by
  simp [getline, Stream.good, scan_end hd (Nat.le_sub_one_of_lt hn)]

/-- Of a line that does not fit the beginning is read, and the read fails. -/
theorem getline_full (hd : d ∉ line) (hpos : 0 < n) (hn : n ≤ line.length) :
    getline d n (.good (line ++ rest)) =
      (line.take (n - 1), ⟨line.drop (n - 1) ++ rest, false, true⟩) := by
  have hlt : n - 1 < line.length := by omega
  simp [getline, Stream.good, scan_full hd hlt]

theorem getline_fail (h : s.fail = true) : getline d n s = ([], s) := by
  obtain ⟨rest, eof, fail⟩ := s
  obtain rfl : fail = true := h
  simp [getline]

end InputStreams
