import M3Sec.Library.InputStreams
import M3Sec.Library.Loops
import M3Sec.TripleDb.Loading

/-! # The access example

`AccessExample.cpp` puts each line that is typed in under itself, reversed, unless there is a
record for it already, and prints the records at the end of the input. A line that does not fit
into the buffer makes every later read fail: as that is not the end of the input, the loop
never ends.
-/

namespace M3Sec.Access

open Fallible InputStreams TripleDb

def sizeofBuf : ℕ := 1024

/-- The standard input, the database, and the keys that are printed as existing. -/
structure Console where
  cin : Stream UInt8
  db : Btree
  exist : List Str

abbrev Program (α : Type) := Fallible Console Empty α

/-- `put` with `DB_NOOVERWRITE`, and what is printed if it returns `DB_KEYEXIST`. -/
def Console.put (c : Console) (buf : Str) : Console :=
  let rbuf := buf.reverse
  match c.db.get (buf ++ [0]) with
  | some _ => { c with exist := c.exist ++ [buf] }
  | none => { c with db := c.db.put (buf ++ [0]) (rbuf ++ [0]) }

/-- A round of the loop over the input. -/
def round (_ : Unit) : Program (Round Unit Unit) := do
  let c ← get
  let line := getline newline sizeofBuf c.cin
  modify fun c => { c with cin := line.2 }
  if line.2.eof then return .done ()
  let buf := cstr line.1
  if buf.length ≤ 0 then return .next ()
  modify fun c => c.put buf
  return .next ()

/-- The records in the order of the cursor, as they are printed. -/
def walk (db : Btree) : List (Str × Str) := db.records.map fun r => (cstr r.1, cstr r.2)

/-- `AccessExample::run`, with at most `n` rounds: what is printed in the end. -/
def run (removeExistingDatabase : Bool) (n : ℕ) : Program (Option (List (Str × Str))) := do
  if removeExistingDatabase then modify fun c => { c with db := .empty _ _ }
  match ← loop round n () with
  | none => return none
  | some _ => do
    let c ← get
    return some (walk c.db)

def Console.enter (c : Console) (line : Str) : Console :=
  if cstr line = [] then c else c.put (cstr line)

/-- The keys that are typed in: the lines that a newline ends, without the empty ones. -/
def typed (ls : List Str) : List Str := (ls.map cstr).filter (· ≠ [])

variable {line rest w input : Str} {ls : List Str} {c : Console} {n : ℕ} {db : Btree}

/-! ## Rounds -/

theorem exec_round (c : Console) : exec (round ()) c =
    if (getline newline sizeofBuf c.cin).2.eof then
      (.ok (.done ()), { c with cin := (getline newline sizeofBuf c.cin).2 })
    else (.ok (.next ()), Console.enter { c with cin := (getline newline sizeofBuf c.cin).2 }
      (getline newline sizeofBuf c.cin).1) := by
  unfold round Console.enter
  rw [exec_bind_ok (exec_get c), exec_bind_ok (exec_modify _ c)]
  by_cases heof : (getline newline sizeofBuf c.cin).2.eof = true
  · simp [heof]
  · by_cases hw : cstr (getline newline sizeofBuf c.cin).1 = []
    · simp [heof, hw]
    · have hlen : ¬ (cstr (getline newline sizeofBuf c.cin).1).length ≤ 0 := by simpa using hw
      rw [if_neg heof, if_neg heof, if_neg hlen, if_neg hw]
      rfl

theorem exec_round_line (hline : newline ∉ line) (hn : line.length < sizeofBuf)
    (hc : c.cin = .good (line ++ newline :: rest)) :
    exec (round ()) c = (.ok (.next ()), Console.enter { c with cin := .good rest } line) := by
  rw [exec_round, hc, getline_line hline hn]
  exact if_neg Bool.false_ne_true

theorem exec_round_end (hline : newline ∉ line) (hn : line.length < sizeofBuf)
    (hc : c.cin = .good line) :
    exec (round ()) c = (.ok (.done ()), { c with cin := ⟨[], true, line = []⟩ }) := by
  rw [exec_round, hc, getline_end hline hn]
  exact if_pos rfl

theorem cin_enter (c : Console) (line : Str) : (c.enter line).cin = c.cin := by
  unfold Console.enter Console.put
  split_ifs
  · rfl
  · cases c.db.get (cstr line ++ [0]) <;> rfl

theorem enter_cin (c : Console) (line : Str) (cin : Stream UInt8) :
    Console.enter { c with cin := cin } line = { c.enter line with cin := cin } := by
  unfold Console.enter Console.put
  simp only
  split_ifs
  · rfl
  · cases c.db.get (cstr line ++ [0]) <;> rfl

theorem foldl_enter_cin (ls : List Str) (c : Console) (cin : Stream UInt8) :
    ls.foldl Console.enter { c with cin := cin } = { ls.foldl Console.enter c with cin := cin } := by
  induction ls generalizing c with
  | nil => rfl
  | cons line ls ih => rw [List.foldl_cons, enter_cin, ih, List.foldl_cons]

/-! ## The loop -/

/-- Once a read has failed, the loop goes on for ever. -/
theorem exec_loop_fail (hfail : c.cin.fail = true) (heof : c.cin.eof = false) (n : ℕ) :
    (exec (loop round n ()) c).1 = .ok none := by
  induction n with
  | zero => rfl
  | succ n ih =>
    have hround : exec (round ()) c = (.ok (.next ()), c) := by
      rw [exec_round, getline_fail hfail, heof, if_neg Bool.false_ne_true]
      rfl
    rw [exec_loop_next hround, ih]

/-- The lines before the last one are entered, and the last one, which no newline ends, is
dropped. -/
theorem exec_loop_lines (hne : ls ≠ []) (hls : ∀ line ∈ ls, newline ∉ line)
    (hn : ∀ line ∈ ls, line.length < sizeofBuf) (hc : c.cin = .good ([newline].intercalate ls))
    (k : ℕ) : ∃ cin, exec (loop round (ls.length + k) ()) c =
      (.ok (some ()), { ls.dropLast.foldl Console.enter c with cin := cin }) := by
  induction ls generalizing c with
  | nil => exact absurd rfl hne
  | cons line ls ih =>
    have hline := hls line List.mem_cons_self
    have hlen := hn line List.mem_cons_self
    have hrounds : (line :: ls).length + k = ls.length + k + 1 := by
      rw [List.length_cons]
      omega
    rw [hrounds]
    by_cases hrest : ls = []
    · subst hrest
      rw [List.intercalate_singleton] at hc
      exact ⟨_, exec_loop_done (exec_round_end hline hlen hc)⟩
    · rw [List.intercalate_cons_of_ne_nil hrest, List.append_assoc, List.singleton_append] at hc
      obtain ⟨cin, hloop⟩ := ih hrest (fun l hl => hls l (List.mem_cons_of_mem _ hl))
        (fun l hl => hn l (List.mem_cons_of_mem _ hl))
        (c := { c.enter line with cin := .good ([newline].intercalate ls) }) rfl
      refine ⟨cin, ?_⟩
      rw [exec_loop_next (exec_round_line hline hlen hc), enter_cin, hloop, foldl_enter_cin,
        List.dropLast_cons_of_ne_nil hrest, List.foldl_cons]

theorem exec_loop_full (hls : ∀ line ∈ ls, newline ∉ line)
    (hn : ∃ line ∈ ls, sizeofBuf ≤ line.length) (hc : c.cin = .good ([newline].intercalate ls))
    (n : ℕ) : (exec (loop round n ()) c).1 = .ok none := by
  induction ls generalizing c n with
  | nil =>
    obtain ⟨line, hline, -⟩ := hn
    cases hline
  | cons line ls ih =>
    cases n with
    | zero => rfl
    | succ n =>
      have hline := hls line List.mem_cons_self
      have hsplit : ∃ rest, [newline].intercalate (line :: ls) = line ++ rest := by
        by_cases hrest : ls = []
        · exact ⟨[], by rw [hrest, List.intercalate_singleton, List.append_nil]⟩
        · exact ⟨_, by rw [List.intercalate_cons_of_ne_nil hrest, List.append_assoc]⟩
      rcases Nat.lt_or_ge line.length sizeofBuf with hlen | hlen
      · have hlong : ∃ line ∈ ls, sizeofBuf ≤ line.length := by
          obtain ⟨l, hl, hlong⟩ := hn
          rcases List.mem_cons.mp hl with rfl | hl
          · exact absurd hlen (Nat.not_lt.mpr hlong)
          · exact ⟨l, hl, hlong⟩
        have hrest : ls ≠ [] := by
          rintro rfl
          obtain ⟨l, hl, -⟩ := hlong
          cases hl
        rw [List.intercalate_cons_of_ne_nil hrest, List.append_assoc, List.singleton_append] at hc
        rw [exec_loop_next (exec_round_line hline hlen hc)]
        exact ih (fun l hl => hls l (List.mem_cons_of_mem _ hl)) hlong (cin_enter _ _) n
      · obtain ⟨rest, hrest⟩ := hsplit
        have hround : exec (round ()) c = (.ok (.next ()), Console.enter
            { c with cin := ⟨line.drop (sizeofBuf - 1) ++ rest, false, true⟩ }
            (line.take (sizeofBuf - 1))) := by
          rw [exec_round, hc, hrest, getline_full hline (by decide) hlen]
          exact if_neg Bool.false_ne_true
        rw [exec_loop_next hround]
        apply exec_loop_fail
        · rw [cin_enter]
        · rw [cin_enter]

/-! ## What is entered -/

theorem typed_cons (line : Str) (ls : List Str) :
    typed (line :: ls) = if cstr line = [] then typed ls else cstr line :: typed ls := by
  by_cases hw : cstr line = [] <;> simp [typed, hw]

theorem get_enter (c : Console) (line k : Str) : (c.enter line).db.get k =
    (c.db.get k).or (if cstr line ≠ [] ∧ cstr line ++ [0] = k then
      some ((cstr line).reverse ++ [0]) else none) := by
  unfold Console.enter Console.put
  by_cases hw : cstr line = []
  · simp [hw]
  · cases hget : c.db.get (cstr line ++ [0]) with
    | some v =>
      by_cases hk : cstr line ++ [0] = k
      · subst hk
        simp [hw, hget]
      · simp [hw, hk]
    | none =>
      by_cases hk : cstr line ++ [0] = k
      · subst hk
        simp [hw, hget]
      · have hk' : k ≠ cstr line ++ [0] := Ne.symm hk
        simp [hw, hk, SortedMap.get_put_of_ne hk']

/-- A record is never replaced, and the new ones are the reversed lines under the lines. -/
theorem get_foldl_enter (ls : List Str) (c : Console) (k : Str) :
    (ls.foldl Console.enter c).db.get k = (c.db.get k).or
      (((typed ls).find? (· ++ [0] = k)).map fun w => w.reverse ++ [0]) := by
  induction ls generalizing c with
  | nil => simp [typed]
  | cons line ls ih =>
    rw [List.foldl_cons, ih, get_enter, Option.or_assoc, typed_cons]
    congr 1
    by_cases hw : cstr line = []
    · simp [hw]
    · by_cases hk : cstr line ++ [0] = k
      · simp [hw, hk]
      · simp [hw, hk]

theorem count_enter (c : Console) (line w : Str) : (c.enter line).exist.count w =
    c.exist.count w + if cstr line ≠ [] ∧ cstr line = w ∧ (c.db.get (w ++ [0])).isSome then 1
      else 0 := by
  unfold Console.enter Console.put
  by_cases hw : cstr line = []
  · simp [hw]
  · by_cases hk : cstr line = w
    · subst hk
      cases hget : c.db.get (cstr line ++ [0]) <;> simp [hw]
    · cases hget : c.db.get (cstr line ++ [0]) <;> simp [hw, hk]

theorem count_foldl_enter (ls : List Str) (c : Console) (w : Str) :
    (ls.foldl Console.enter c).exist.count w = c.exist.count w +
      ((typed ls).count w - if (c.db.get (w ++ [0])).isSome then 0 else 1) := by
  induction ls generalizing c with
  | nil => simp [typed]
  | cons line ls ih =>
    rw [List.foldl_cons, ih, count_enter, get_enter, typed_cons]
    by_cases hw : cstr line = []
    · simp [hw]
    · by_cases hk : cstr line = w
      · subst hk
        cases hget : c.db.get (cstr line ++ [0]) with
        | none => simp [hw]
        | some v =>
          simp [hw]
          omega
      · simp [hw, hk]

/-! ## The program -/

def Console.opened (c : Console) (removeExistingDatabase : Bool) : Console :=
  if removeExistingDatabase then { c with db := .empty _ _ } else c

theorem exec_run (removeExistingDatabase : Bool) (n : ℕ) (c : Console) :
    exec (run removeExistingDatabase n) c =
      match exec (loop round n ()) (c.opened removeExistingDatabase) with
      | (.ok none, t) => (.ok none, t)
      | (.ok (some _), t) => (.ok (some (walk t.db)), t)
      | (.error e, t) => (.error e, t) := by
  have hloop : exec (run removeExistingDatabase n) c = exec (do
      match ← loop round n () with
      | none => return none
      | some _ => do
        let c ← get
        return some (walk c.db)) (c.opened removeExistingDatabase) := by
    unfold run Console.opened
    cases removeExistingDatabase <;> rfl
  rw [hloop, exec_bind]
  rcases exec (loop round n ()) (c.opened removeExistingDatabase) with ⟨e | a, t⟩
  · rfl
  · cases a <;> rfl

theorem intercalate_lines (input : Str) : [newline].intercalate (lines input) = input :=
  List.intercalate_splitOn newline

theorem lines_ne_nil : lines input ≠ [] := List.splitOn_ne_nil _ _

theorem newline_not_mem : ∀ line ∈ lines input, newline ∉ line := fun _ =>
  Delimiters.not_mem_of_mem_splitOn

theorem cin_opened (removeExistingDatabase : Bool) (hc : c.cin = .good input) :
    (c.opened removeExistingDatabase).cin = .good ([newline].intercalate (lines input)) := by
  rw [intercalate_lines, ← hc]
  unfold Console.opened
  split_ifs <;> rfl

theorem exec_run_lines (removeExistingDatabase : Bool) (hc : c.cin = .good input)
    (hn : ∀ line ∈ lines input, line.length < sizeofBuf) (hrounds : (lines input).length ≤ n) :
    ∃ t, exec (run removeExistingDatabase n) c = (.ok (some (walk t.db)), t) ∧
      t.db = ((lines input).dropLast.foldl Console.enter (c.opened removeExistingDatabase)).db ∧
      t.exist =
        ((lines input).dropLast.foldl Console.enter (c.opened removeExistingDatabase)).exist := by
  obtain ⟨k, rfl⟩ := Nat.exists_eq_add_of_le hrounds
  obtain ⟨cin, hloop⟩ := exec_loop_lines lines_ne_nil newline_not_mem hn
    (cin_opened removeExistingDatabase hc) k
  refine ⟨{ (lines input).dropLast.foldl Console.enter (c.opened removeExistingDatabase) with
    cin := cin }, ?_, rfl, rfl⟩
  rw [exec_run, hloop]

/-- The program ends exactly if every line of the input, terminated or not, fits into the
buffer. -/
theorem run_ends_iff (removeExistingDatabase : Bool) (c : Console) (input : Str)
    (hc : c.cin = .good input) :
    (∃ n, (exec (run removeExistingDatabase n) c).1 ≠ .ok none) ↔
      ∀ line ∈ lines input, line.length < sizeofBuf := by
  constructor
  · rintro ⟨n, hn⟩
    by_contra hlong
    push Not at hlong
    have hloop := exec_loop_full newline_not_mem hlong
      (cin_opened removeExistingDatabase hc) n
    apply hn
    rw [exec_run]
    rcases hexec : exec (loop round n ()) (c.opened removeExistingDatabase) with ⟨r, t⟩
    rw [hexec] at hloop
    obtain rfl : r = .ok none := hloop
    rfl
  · intro hn
    obtain ⟨t, hrun, -⟩ := exec_run_lines removeExistingDatabase hc hn le_rfl
    refine ⟨(lines input).length, ?_⟩
    rw [hrun]
    exact nofun

theorem run_ends_iff_ab :
    ∃ n, (exec (run false n) ⟨.good [97, 98, 10, 99], .empty _ _, []⟩).1 ≠ .ok none :=
  (run_ends_iff false ⟨.good [97, 98, 10, 99], .empty _ _, []⟩ _ rfl).mpr (by decide)

/-- When the program has ended, the database has the records that it had, unless the file was
removed, and each line that was typed in, reversed, under the line. What is reported as existing
is what was typed in and did not become a new record. -/
theorem records_of_run (removeExistingDatabase : Bool) (c : Console) (input : Str)
    (hc : c.cin = .good input) (hn : ∀ line ∈ lines input, line.length < sizeofBuf) (n : ℕ)
    (hrounds : (lines input).length ≤ n) :
    ∃ t, exec (run removeExistingDatabase n) c = (.ok (some (walk t.db)), t) ∧
      (∀ k, t.db.get k = ((c.opened removeExistingDatabase).db.get k).or
        (((typed (lines input).dropLast).find? (· ++ [0] = k)).map fun w => w.reverse ++ [0])) ∧
      ∀ w, t.exist.count w = c.exist.count w + ((typed (lines input).dropLast).count w -
        if ((c.opened removeExistingDatabase).db.get (w ++ [0])).isSome then 0 else 1) := by
  have hexist : (c.opened removeExistingDatabase).exist = c.exist := by
    unfold Console.opened
    split_ifs <;> rfl
  obtain ⟨t, hrun, hdb, hreported⟩ := exec_run_lines removeExistingDatabase hc hn hrounds
  refine ⟨t, hrun, fun k => ?_, fun w => ?_⟩
  · rw [hdb]
    exact get_foldl_enter _ _ k
  · rw [hreported, ← hexist]
    exact count_foldl_enter _ _ w

/-- `ab`, typed in twice. -/
theorem records_of_run_ab : ∃ t, exec (run false 3) ⟨.good [97, 98, 10, 97, 98, 10], .empty _ _, []⟩ =
    (.ok (some (walk t.db)), t) ∧ t.db.get [97, 98, 0] = some [98, 97, 0] ∧
      t.exist.count [97, 98] = 1 := by
  obtain ⟨t, hrun, hget, hcount⟩ := records_of_run false
    ⟨.good [97, 98, 10, 97, 98, 10], .empty _ _, []⟩ _ rfl (by decide) 3 (by decide)
  exact ⟨t, hrun, (hget _).trans (by decide), (hcount _).trans (by decide)⟩

theorem mem_typed : w ∈ typed ls ↔ w ≠ [] ∧ ∃ line ∈ ls, cstr line = w := by
  simp [typed, and_comm]

/-- If the file is removed first, what is printed in the end are the lines that were typed in,
each once with its reverse, in the order of the keys. -/
theorem run_removed (c : Console) (input : Str) (hc : c.cin = .good input)
    (hn : ∀ line ∈ lines input, line.length < sizeofBuf) (n : ℕ)
    (hrounds : (lines input).length ≤ n) :
    ∃ printed t, exec (run true n) c = (.ok (some printed), t) ∧
      printed.Pairwise (fun r r' => r.1 ++ [0] < r'.1 ++ [0]) ∧
      ∀ w v, (w, v) ∈ printed ↔ w ∈ typed (lines input).dropLast ∧ v = w.reverse := by
  obtain ⟨t, hrun, hget, -⟩ := records_of_run true c input hc hn n hrounds
  have hrecord : ∀ k v, (k, v) ∈ t.db.records ↔
      ∃ w ∈ typed (lines input).dropLast, w ++ [0] = k ∧ w.reverse ++ [0] = v := by
    intro k v
    rw [← SortedMap.get_eq_some_iff, hget]
    have hempty : (c.opened true).db.get k = none := rfl
    rw [hempty, Option.none_or, Option.map_eq_some_iff]
    constructor
    · rintro ⟨w, hw, hv⟩
      exact ⟨w, List.mem_of_find?_eq_some hw, by simpa using List.find?_some hw, hv⟩
    · rintro ⟨w, hw, rfl, hv⟩
      obtain ⟨w', hw'⟩ : ∃ w', (typed (lines input).dropLast).find? (· ++ [0] = w ++ [0]) =
          some w' := by
        rw [← Option.isSome_iff_exists, List.find?_isSome]
        exact ⟨w, hw, decide_eq_true rfl⟩
      have heq : w' = w := by simpa using List.find?_some hw'
      exact ⟨w', hw', heq ▸ hv⟩
  have hcstr : ∀ w ∈ typed (lines input).dropLast, cstr (w ++ [0]) = w ∧
      cstr (w.reverse ++ [0]) = w.reverse := by
    intro w hw
    obtain ⟨-, line, -, rfl⟩ := mem_typed.mp hw
    have hnul := zero_not_mem_cstr line
    have hnul' : 0 ∉ (cstr line).reverse := fun h => hnul (List.mem_reverse.mp h)
    exact ⟨by rw [cstr_append_nul, cstr_of_nulFree hnul],
      by rw [cstr_append_nul, cstr_of_nulFree hnul']⟩
  refine ⟨walk t.db, t, hrun, ?_, fun w v => ?_⟩
  · rw [walk, List.pairwise_map]
    refine t.db.sorted.imp_of_mem fun {r r'} hr hr' hlt => ?_
    obtain ⟨w, hw, hkey, -⟩ := (hrecord r.1 r.2).mp hr
    obtain ⟨w', hw', hkey', -⟩ := (hrecord r'.1 r'.2).mp hr'
    simp only [← hkey, ← hkey'] at hlt ⊢
    rwa [(hcstr w hw).1, (hcstr w' hw').1]
  · rw [walk, List.mem_map]
    constructor
    · rintro ⟨⟨k, d⟩, hr, heq⟩
      obtain ⟨u, hu, rfl, rfl⟩ := (hrecord k d).mp hr
      obtain ⟨rfl, rfl⟩ := Prod.mk.inj heq
      rw [(hcstr u hu).1, (hcstr u hu).2]
      exact ⟨hu, rfl⟩
    · rintro ⟨hw, rfl⟩
      refine ⟨(w ++ [0], w.reverse ++ [0]), (hrecord _ _).mpr ⟨w, hw, rfl, rfl⟩, ?_⟩
      simp only [(hcstr w hw).1, (hcstr w hw).2]

theorem run_removed_ab : ∃ printed t,
    exec (run true 2) ⟨.good [97, 98, 10], .empty _ _, []⟩ = (.ok (some printed), t) ∧
      ([97, 98], [98, 97]) ∈ printed := by
  obtain ⟨printed, t, hrun, -, hmem⟩ := run_removed ⟨.good [97, 98, 10], .empty _ _, []⟩ _ rfl
    (by decide) 2 (by decide)
  exact ⟨printed, t, hrun, (hmem _ _).mpr (by decide)⟩

end M3Sec.Access
