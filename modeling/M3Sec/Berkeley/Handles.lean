import M3Sec.Berkeley.Lockstep
import M3Sec.Berkeley.Records

/-! # The handle protocol

A handle is to be opened once, used while it is open, and not touched after it was closed.
No command looks at the phase of a handle, so the protocol is kept exactly as long as
every handle that a command gets to is in the phase that the command needs.
-/

namespace M3Sec.Berkeley

open Fallible Scripts

variable {f : Faults} {w t : World} {fk : Vfs.Fusekit} {i : Input} {h : Part} {c : Call}

/-- The calls that Berkeley DB allows only in one phase of the handle, with that phase. -/
def Call.phase? : Call → Option Phase
  | openDb _ => some .created
  | put .. | cursor _ | close _ => some .opened
  | setFlags _ | get .. | closeCursor _ => none

def Call.moves : Call → Bool
  | openDb _ | close _ => true
  | _ => false

def Issue.Lawful (i : Issue) : Prop := ∀ p ∈ i.call.phase?, i.phase = p

def Command.needs : Command → Phase
  | .createDb => .created
  | .insertDbData | .printDbData | .closeDb | .createDbVfs => .opened

/-- A command gets to opening, filling, reading or closing a handle. -/
def Command.GetsTo (c : Command) (f : Faults) (w : World) (h : Part) : Prop :=
  ∃ d : Call, d.handle = h ∧ d.phase?.isSome ∧ .call d ∈ reached (Act.fails f) (c.script w)

/-- Every handle that the command gets to is in the phase that the command needs. -/
def FindsPhase (w : World) (i : Input) : Prop :=
  ∀ c, Command.ofKey i.key = some c → ∀ h, c.GetsTo i.faults w h → (w.db h).phase = c.needs

/-! ## Scripts that move a handle last -/

/-- The second of two actions does not need the phase that the first one leaves. -/
def Act.Apart : Act → Act → Prop
  | .call c, .call d => c.moves → d.phase?.isSome → c.handle ≠ d.handle
  | _, _ => True

theorem keeps_phase (hc : c.moves = false) : c.Keeps Db.phase := by
  intro d
  cases c with
  | openDb | close => cases hc
  | setFlags | put | cursor | get | closeCursor => exact ⟨rfl, rfl⟩

theorem lawful_done {d : Call} (hcd : Act.Apart (.call c) (.call d)) (w : World) :
    Issue.Lawful ⟨d, ((w.done c).db d.handle).phase⟩ ↔
      Issue.Lawful ⟨d, (w.db d.handle).phase⟩ := by
  cases hd : d.phase? with
  | none => simp [Issue.Lawful, hd]
  | some p =>
    have hphase : ((w.done c).db d.handle).phase = (w.db d.handle).phase := by
      cases hc : c.moves with
      | false => exact (keeps_phase hc).done w d.handle
      | true => rw [db_done, if_neg fun he => hcd hc (by rw [hd]; rfl) he.symm]
    rw [hphase]

theorem lawful_perform {as : List Act} (has : as.Pairwise Act.Apart) (w : World) :
    (∀ i ∈ (perform effects (Act.fails f) w as).issued, i.Lawful) ↔
      (∀ i ∈ w.issued, i.Lawful) ∧ ∀ d, .call d ∈ reached (Act.fails f) as →
        Issue.Lawful ⟨d, (w.db d.handle).phase⟩ := by
  induction as generalizing w with
  | nil => simp [reached]
  | cons a as ih =>
    obtain ⟨ha, has'⟩ := List.pairwise_cons.mp has
    cases a with
    | push s p o =>
      have hpush : perform effects (Act.fails f) w (.push s p o :: as) =
          perform effects (Act.fails f) (w.push s p o) as := rfl
      have hreached : reached (Act.fails f) (.push s p o :: as) =
          .push s p o :: reached (Act.fails f) as := rfl
      rw [hpush, hreached, ih has']
      simp [World.push]
    | call c =>
      have hissue : (∀ i ∈ w.issued ++ [⟨c, (w.db c.handle).phase⟩], i.Lawful) ↔
          (∀ i ∈ w.issued, i.Lawful) ∧ Issue.Lawful ⟨c, (w.db c.handle).phase⟩ := by
        simp only [List.mem_append, List.mem_singleton, or_imp, forall_and, forall_eq]
      rw [perform_cons, reached]
      cases hf : f c with
      | true =>
        rw [if_pos (by exact hf), if_pos (by exact hf)]
        refine Iff.trans hissue (and_congr_right fun _ => ?_)
        simp
      | false =>
        rw [if_neg (by simp [Act.fails, hf]), if_neg (by simp [Act.fails, hf]), ih has']
        have hrest : (∀ d, .call d ∈ reached (Act.fails f) as →
            Issue.Lawful ⟨d, ((w.done c).db d.handle).phase⟩) ↔
            ∀ d, .call d ∈ reached (Act.fails f) as →
              Issue.Lawful ⟨d, (w.db d.handle).phase⟩ := by
          apply forall_congr'
          intro d
          apply forall_congr'
          intro hd
          exact lawful_done (ha _ (reached_subset _ _ hd)) w
        refine Iff.trans (and_congr hissue hrest) ?_
        simp [and_assoc]

theorem apart_of_not_moves {as : List Act} (has : ∀ d, .call d ∈ as → d.moves = false) :
    as.Pairwise Act.Apart := by
  apply List.pairwise_of_forall_mem_list
  rintro (c | ⟨s, p, o⟩) hc (d | ⟨s, p, o⟩) -
  · intro hm
    rw [has c hc] at hm
    cases hm
  · trivial
  · trivial
  · trivial

/-- The calls of a command need one phase, and only the commands that open or close the
handles move them. -/
theorem call_mem_script {c : Command} {d : Call} (hd : .call d ∈ c.script w) :
    (∀ p ∈ d.phase?, p = c.needs) ∧
      (c = .insertDbData ∨ c = .printDbData → d.moves = false) := by
  cases c with
  | createDb =>
    rcases List.mem_append.mp hd with hd | hd
    · obtain ⟨h, rfl⟩ := call_mem_eachPart.mp hd
      simp [Call.phase?]
    · obtain ⟨h, rfl⟩ := call_mem_eachPart.mp hd
      simp [Call.phase?, Command.needs]
  | closeDb | createDbVfs =>
    obtain ⟨h, rfl⟩ := call_mem_eachPart.mp hd
    simp [Call.phase?, Command.needs]
  | insertDbData =>
    obtain ⟨h, r, rfl⟩ := call_mem_insertDbData hd
    simp [Call.phase?, Command.needs, Call.moves]
  | printDbData =>
    obtain ⟨h, rfl⟩ | ⟨h, m, rfl⟩ | ⟨h, rfl⟩ := call_mem_printDbData hd <;>
      simp [Call.phase?, Command.needs, Call.moves]

theorem script_apart (c : Command) (w : World) : (c.script w).Pairwise Act.Apart := by
  cases c with
  | createDb | closeDb | createDbVfs =>
    simp [Command.script, eachPart, parts, Act.Apart, Call.moves, Call.phase?, Call.handle]
  | insertDbData => exact apart_of_not_moves fun d hd => (call_mem_script hd).2 (.inl rfl)
  | printDbData => exact apart_of_not_moves fun d hd => (call_mem_script hd).2 (.inr rfl)

/-! ## The protocol over runs -/

theorem lawful_leaves (c : Command) (f : Faults) (w : World) :
    (∀ i ∈ (c.leaves f w).issued, i.Lawful) ↔
      (∀ i ∈ w.issued, i.Lawful) ∧ ∀ h, c.GetsTo f w h → (w.db h).phase = c.needs := by
  rw [Command.leaves, lawful_perform (script_apart c w)]
  apply and_congr_right
  intro _
  constructor
  · rintro hlawful h ⟨d, rfl, hd, hreached⟩
    obtain ⟨p, hp⟩ := Option.isSome_iff_exists.mp hd
    have hneeds := (call_mem_script (reached_subset _ _ hreached)).1 p hp
    exact (hlawful d hreached p hp).trans hneeds
  · intro hphase d hreached p hp
    have hneeds := (call_mem_script (reached_subset _ _ hreached)).1 p hp
    exact (hphase d.handle ⟨d, rfl, Option.isSome_of_mem hp, hreached⟩).trans hneeds.symm

theorem lawful_prompt_iff (ht : prompt fk w i = some t) :
    (∀ i ∈ t.issued, i.Lawful) ↔ (∀ i ∈ w.issued, i.Lawful) ∧ FindsPhase w i := by
  obtain ⟨hkey, rfl⟩ | ⟨c, fs, hkey, -, rfl⟩ := prompt_cases ht
  · simp [FindsPhase, hkey]
  · rw [lawful_leaves]
    simp only [FindsPhase, hkey, Option.some.injEq, forall_eq']
    rfl

/-- The protocol is kept over a run exactly when every command of the run finds the
handles that it gets to in the phase that it needs. -/
theorem protocol_iff_findsPhase (fk : Vfs.Fusekit) (is : List Input) :
    (∃ t, Runs.run (prompt fk) .start is = some t ∧ ∀ i ∈ t.issued, i.Lawful) ↔
      Runs.Along (prompt fk) FindsPhase .start is := by
  induction is using List.reverseRecOn with
  | nil =>
    constructor
    · exact fun _ => Runs.along_nil
    · exact fun _ => ⟨_, rfl, by simp [World.start]⟩
  | append_singleton is i ih =>
    rw [Runs.along_snoc, ← ih]
    constructor
    · rintro ⟨t, ht, hlawful⟩
      obtain ⟨u, hu, hi⟩ := Runs.run_snoc_eq_some.mp ht
      obtain ⟨hlawful', hphase⟩ := (lawful_prompt_iff hi).mp hlawful
      constructor
      · exact ⟨u, hu, hlawful'⟩
      · intro v hv
        obtain rfl : u = v := Option.some.inj (hu.symm.trans hv)
        exact hphase
    · rintro ⟨⟨u, hu, hlawful⟩, hphase⟩
      obtain ⟨t, ht, -⟩ := exists_run fk (is ++ [i])
      obtain ⟨u', hu', hi⟩ := Runs.run_snoc_eq_some.mp ht
      obtain rfl : u = u' := Option.some.inj (hu.symm.trans hu')
      exact ⟨t, ht, (lawful_prompt_iff hi).mpr ⟨hlawful, hphase u hu⟩⟩

/-- An insertion before the databases were opened calls `put` all the same. -/
theorem put_before_open_unlawful : ¬ ∃ t, Runs.run (prompt ⟨.keep, .keep⟩) .start
    [.failing 2 (.put .s (record .s (str "I")))] = some t ∧ ∀ i ∈ t.issued, i.Lawful := by
  rintro ⟨t, ht, hlawful⟩
  obtain rfl := Option.some.inj ht
  have hput := hlawful ⟨.put .s (record .s (str "I")), .created⟩ (by decide) .opened rfl
  cases hput

end M3Sec.Berkeley
