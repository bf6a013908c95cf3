import M3Sec.Berkeley.Lockstep

/-! # The menu and its input

The loop of `main` reads a key from `cin` and never looks whether that worked. A key that
could not be read is the last one again, so the last command is executed without end once
the input is exhausted, and no command at all is executed after a malformed token.
-/

namespace M3Sec.Berkeley

open Fallible

variable {fk : Vfs.Fusekit} {key : ℤ} {tokens : List Token} {n : ℕ}

inductive Token where
  | numeral (n : ℤ)
  | malformed
  deriving DecidableEq, Repr

def maxInt : ℤ := 2 ^ 31 - 1

namespace Token

def Fails : Token → Prop
  | numeral n => n < -maxInt - 1 ∨ maxInt < n
  | malformed => True

instance : DecidablePred Fails
  | numeral n => inferInstanceAs (Decidable (n < -maxInt - 1 ∨ maxInt < n))
  | malformed => inferInstanceAs (Decidable True)

def value : Token → ℤ
  | numeral n => max (-maxInt - 1) (min maxInt n)
  | malformed => 0

def command : Token → Option Command
  | numeral n => Command.ofKey n
  | malformed => none

end Token

structure Cin where
  tokens : List Token
  failed : Bool

/-- `cin >> key`: the stream and the key afterwards. -/
def Cin.extract (cin : Cin) (key : ℤ) : Cin × ℤ :=
  if cin.failed then (cin, key)
  else
    match cin.tokens with
    | [] => (⟨[], true⟩, key)
    | token :: tokens => (⟨tokens, token.Fails⟩, token.value)

/-- The globals, the stream, the local `key`, and the commands executed so far. -/
structure Menu where
  world : World
  cin : Cin
  key : ℤ
  executed : List Command

/-- `main` before the loop; `key` is not initialised. -/
def Menu.start (key : ℤ) (tokens : List Token) : Menu where
  world := .start
  cin := ⟨tokens, false⟩
  key := key
  executed := []

/-- A round of the `while (true)`. There is none after it if an exception ends the program. -/
def Menu.round (fk : Vfs.Fusekit) (m : Menu) (faults : Faults) : Option Menu :=
  let (cin, key) := m.cin.extract m.key
  (prompt fk m.world ⟨key, faults⟩).map fun world =>
    { world, cin, key, executed := m.executed ++ (Command.ofKey key).toList }

/-! ## The commands of the rounds -/

def Cin.commands : Cin → ℤ → ℕ → List Command
  | _, _, 0 => []
  | cin, key, n + 1 =>
    (Command.ofKey (cin.extract key).2).toList ++
      (cin.extract key).1.commands (cin.extract key).2 n

variable (fk) in
theorem exists_round {m : Menu} (hw : m.world.Lockstep) (faults : Faults) :
    ∃ m', m.round fk faults = some m' ∧ m'.world.Lockstep ∧
      m'.cin = (m.cin.extract m.key).1 ∧ m'.key = (m.cin.extract m.key).2 ∧
      m'.executed = m.executed ++ (Command.ofKey (m.cin.extract m.key).2).toList := by
  obtain ⟨t, ht, hlock⟩ : ∃ t, prompt fk m.world ⟨(m.cin.extract m.key).2, faults⟩ = some t ∧
      t.Lockstep := hw.prompt _
  refine ⟨⟨t, _, _, _⟩, ?_, hlock, rfl, rfl, rfl⟩
  change Option.map _ (prompt fk m.world ⟨(m.cin.extract m.key).2, faults⟩) = _
  rw [ht]
  rfl

variable (fk) in
theorem exists_rounds {m : Menu} (hw : m.world.Lockstep) (fs : List Faults) :
    ∃ m', Runs.run (Menu.round fk) m fs = some m' ∧
      m'.executed = m.executed ++ m.cin.commands m.key fs.length := by
  induction fs generalizing m with
  | nil => exact ⟨m, rfl, (List.append_nil _).symm⟩
  | cons faults fs ih =>
    obtain ⟨u, hu, hlock, hcin, hkey, hexec⟩ := exists_round fk hw faults
    obtain ⟨m', hm', hexec'⟩ := ih hlock
    refine ⟨m', ?_, ?_⟩
    · unfold Runs.run at *
      rw [List.foldlM_cons, hu]
      exact hm'
    · rw [hexec', hexec, hcin, hkey, List.append_assoc]
      rfl

/-! ## Which inputs are served -/

theorem ofKey_eq_none (h : key < 1 ∨ 5 < key) : Command.ofKey key = none := by
  unfold Command.ofKey
  split <;> first | omega | rfl

theorem Token.value_numeral (n : ℤ) :
    (Token.numeral n).value = max (-maxInt - 1) (min maxInt n) := rfl

theorem Token.command_of_fails {token : Token} (h : token.Fails) :
    token.command = none ∧ Command.ofKey token.value = none := by
  cases token with
  | malformed => exact ⟨rfl, rfl⟩
  | numeral n =>
    have hn : n < -maxInt - 1 ∨ maxInt < n := h
    unfold maxInt at hn
    constructor
    · apply ofKey_eq_none
      omega
    · apply ofKey_eq_none
      rw [Token.value_numeral, maxInt]
      omega

theorem Token.ofKey_value {token : Token} (h : ¬ token.Fails) :
    Command.ofKey token.value = token.command := by
  cases token with
  | malformed => exact absurd trivial h
  | numeral n =>
    have hn : ¬(n < -maxInt - 1 ∨ maxInt < n) := h
    have hvalue : (Token.numeral n).value = n := by
      rw [Token.value_numeral]
      omega
    rw [hvalue]
    rfl

/-- A failed stream executes the command of the key over and over. -/
theorem commands_failed (hkey : Command.ofKey key = none) (n : ℕ) :
    Cin.commands ⟨tokens, true⟩ key n = [] := by
  induction n with
  | zero => rfl
  | succ n ih =>
    change (Command.ofKey key).toList ++ Cin.commands ⟨tokens, true⟩ key n = []
    rw [hkey, ih]
    rfl

/-- The last key that is read is no command, or a token fails and no command is asked for
behind it. -/
def Harmless (key : ℤ) : List Token → Prop
  | [] => Command.ofKey key = none
  | token :: tokens =>
    if token.Fails then ∀ later ∈ tokens, later.command = none else Harmless token.value tokens

theorem commands_exhausted_iff :
    (∀ n, Cin.commands ⟨[], false⟩ key n = []) ↔ Command.ofKey key = none := by
  have hnext : ∀ n, Cin.commands ⟨[], false⟩ key (n + 1) =
      (Command.ofKey key).toList ++ Cin.commands ⟨[], true⟩ key n := fun _ => rfl
  constructor
  · intro h
    have hone := h 1
    rw [hnext] at hone
    exact Option.toList_eq_nil_iff.mp (List.append_eq_nil_iff.mp hone).1
  · rintro hkey n
    cases n with
    | zero => rfl
    | succ n =>
      rw [hnext, commands_failed hkey, hkey]
      rfl

theorem forall_take_filterMap_iff :
    (∀ n, (tokens.take n).filterMap Token.command = []) ↔
      ∀ token ∈ tokens, token.command = none := by
  constructor
  · rintro h token hmem
    have hall := h tokens.length
    rw [List.take_length, List.filterMap_eq_nil_iff] at hall
    exact hall token hmem
  · rintro h n
    exact List.filterMap_eq_nil_iff.mpr fun token hmem => h token (List.mem_of_mem_take hmem)

theorem commands_iff : (∀ n, Cin.commands ⟨tokens, false⟩ key n =
    (tokens.take n).filterMap Token.command) ↔ Harmless key tokens := by
  induction tokens generalizing key with
  | nil =>
    simp only [List.take_nil, List.filterMap_nil]
    exact commands_exhausted_iff
  | cons token tokens ih =>
    have hnext : ∀ n, Cin.commands ⟨token :: tokens, false⟩ key (n + 1) =
        (Command.ofKey token.value).toList ++ Cin.commands ⟨tokens, token.Fails⟩ token.value n :=
      fun _ => rfl
    have htake : ∀ n, ((token :: tokens).take (n + 1)).filterMap Token.command =
        token.command.toList ++ (tokens.take n).filterMap Token.command := by
      intro n
      cases hc : token.command <;> simp [hc]
    have hsucc : (∀ n, Cin.commands ⟨token :: tokens, false⟩ key n =
        ((token :: tokens).take n).filterMap Token.command) ↔
          ∀ n, (Command.ofKey token.value).toList ++
            Cin.commands ⟨tokens, token.Fails⟩ token.value n =
              token.command.toList ++ (tokens.take n).filterMap Token.command := by
      constructor
      · rintro h n
        rw [← hnext, ← htake]
        exact h (n + 1)
      · rintro h n
        cases n with
        | zero => rfl
        | succ n =>
          rw [hnext, htake]
          exact h n
    rw [hsucc, Harmless]
    split_ifs with hfails
    · obtain ⟨hcommand, hvalue⟩ := Token.command_of_fails hfails
      rw [← forall_take_filterMap_iff]
      apply forall_congr'
      intro n
      rw [hcommand, hvalue, decide_eq_true hfails, commands_failed hvalue]
      exact eq_comm
    · rw [← ih]
      apply forall_congr'
      intro n
      rw [Token.ofKey_value hfails, decide_eq_false hfails]
      exact List.append_right_inj _

/-- Whatever throws, each round executes the command that the next token asks for. -/
def ExecutesTokens (fk : Vfs.Fusekit) (key : ℤ) (tokens : List Token) : Prop :=
  ∀ fs : List Faults, ∃ m, Runs.run (Menu.round fk) (.start key tokens) fs = some m ∧
    m.executed = (tokens.take fs.length).filterMap Token.command

theorem executesTokens_iff (fk : Vfs.Fusekit) (key : ℤ) (tokens : List Token) :
    ExecutesTokens fk key tokens ↔ Harmless key tokens := by
  have hlock : (Menu.start key tokens).world.Lockstep := ⟨0, fun _ => rfl⟩
  rw [← commands_iff]
  constructor
  · rintro h n
    obtain ⟨m, hm, hexec⟩ := h (List.replicate n fun _ => false)
    obtain ⟨m', hm', hexec'⟩ := exists_rounds fk hlock (List.replicate n fun _ => false)
    obtain rfl : m = m' := Option.some.inj (hm.symm.trans hm')
    rw [hexec', List.length_replicate] at hexec
    exact hexec
  · rintro h fs
    obtain ⟨m, hm, hexec⟩ := exists_rounds fk hlock fs
    exact ⟨m, hm, hexec.trans (h fs.length)⟩

/-- One insertion is asked for, and two rounds insert twice. -/
theorem insertion_not_executesTokens : ¬ ∀ fk key tokens, ExecutesTokens fk key tokens := by
  intro h
  obtain ⟨m, hm, hexec⟩ :=
    h ⟨.keep, .keep⟩ 0 [.numeral 2] [fun _ => false, fun _ => false]
  obtain rfl := Option.some.inj hm
  exact absurd hexec (by decide)

end M3Sec.Berkeley
