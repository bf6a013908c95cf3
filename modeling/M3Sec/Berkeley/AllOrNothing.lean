import M3Sec.Berkeley.Handles

/-! # All or nothing

The commands go through the three handles one after the other, and a call that throws
leaves the rest of them undone. The half-done states are those in which a throw falls
between the first and the last handle.
-/

namespace M3Sec.Berkeley

open Fallible Scripts

variable {f : Faults} {w t : World} {fk : Vfs.Fusekit} {i : Input} {h : Part}

/-- All handles are open or none is, and no cursor is open. -/
structure World.Settled (w : World) : Prop where
  handles : (∀ h, (w.db h).phase = .opened) ∨ ∀ h, (w.db h).phase ≠ .opened
  cursors : ∀ h, (w.db h).cursors = 0

def Db.Same (d d' : Db) : Prop := d'.phase = d.phase ∧ d'.cursors = d.cursors

/-- The state at the next prompt is settled, and a `createDb` that returned `-1` left every
handle as it was. -/
def AllOrNothing (fk : Vfs.Fusekit) (w : World) (i : Input) : Prop :=
  ∃ t, prompt fk w i = some t ∧ t.Settled ∧
    (Command.ofKey i.key = some .createDb → (exec (createDb i.faults) w).1 = .ok (-1) →
      ∀ h, (w.db h).Same (t.db h))

/-- Nothing throws between the first and the last handle. -/
def Command.Undivided (c : Command) (f : Faults) (w : World) : Prop :=
  match c with
  | .createDb => (∀ h, (w.db h).phase = .opened) ∨
      (f (.setFlags .s) ∨ f (.setFlags .p) ∨ f (.setFlags .o) ∨ f (.openDb .s)) ∨
      (f (.openDb .p) = false ∧ f (.openDb .o) = false)
  | .insertDbData => True
  | .printDbData => f (.cursor .s) ∨
      (f (.cursor .p) = false ∧ f (.cursor .o) = false ∧ Completes (Act.fails f) w.rounds ∧
        f (.closeCursor .s) = false ∧ f (.closeCursor .p) = false)
  | .closeDb | .createDbVfs => (∀ h, (w.db h).phase ≠ .opened) ∨
      (f (.close .s) = false ∧ f (.close .p) = false)

/-! ## Going through the handles -/

def before : Part → List Part
  | .s => []
  | .p => [.s]
  | .o => [.s, .p]

theorem db_eachPart {c : Part → Call} (hc : ∀ h, (c h).handle = h) (w : World) (h : Part) :
    (perform effects (Act.fails f) w (eachPart c)).db h =
      if ∀ k ∈ before h, f (c k) = false then
        if f (c h) then (w.db h).failed (c h) else (w.db h).done (c h)
      else w.db h := by
  simp only [eachPart, parts, List.map_cons, List.map_nil, perform_cons, perform_nil, Act.fails]
  by_cases hs : f (c .s)
  · cases h <;> simp [before, effects, hc, hs]
  · by_cases hp : f (c .p)
    · cases h <;> simp [before, effects, hc, hs, hp]
    · by_cases ho : f (c .o) <;> cases h <;> simp [before, effects, hc, hs, hp, ho]

theorem completes_eachPart {c : Part → Call} :
    Completes (Act.fails f) (eachPart c) ↔ ∀ h, f (c h) = false := by
  simp [eachPart, parts, Act.fails, Part.forall_iff]

def Opens (f : Faults) (h : Part) : Prop :=
  (∀ k, f (.setFlags k) = false) ∧ (∀ k ∈ before h, f (.openDb k) = false) ∧
    f (.openDb h) = false

instance (f : Faults) (h : Part) : Decidable (Opens f h) := inferInstanceAs (Decidable (_ ∧ _))

theorem Opens.first (ho : Opens f h) : f (.openDb .s) = false := by
  obtain ⟨-, hb, hf⟩ := ho
  cases h with
  | s => exact hf
  | p | o => exact hb .s (by simp [before])

theorem db_createDb (f : Faults) (w : World) (h : Part) :
    (Command.createDb.leaves f w).db h =
      if Opens f h then (w.db h).done (.openDb h) else w.db h := by
  have hflags : ∀ h, (perform effects (Act.fails f) w (eachPart .setFlags)).db h = w.db h := by
    intro h
    rw [db_eachPart fun _ => rfl]
    split_ifs <;> rfl
  rw [Command.leaves, Command.script, perform_append]
  by_cases hc : Completes (Act.fails f) (eachPart .setFlags)
  · rw [if_pos hc, db_eachPart fun _ => rfl, hflags]
    simp only [Opens, completes_eachPart.mp hc, implies_true, true_and]
    by_cases hb : ∀ k ∈ before h, f (.openDb k) = false
    · rw [if_pos hb]
      cases f (.openDb h) with
      | true => rw [if_pos rfl, if_neg fun h => Bool.noConfusion h.2]; rfl
      | false => rw [if_neg Bool.false_ne_true, if_pos ⟨hb, rfl⟩]
    · rw [if_neg hb, if_neg fun h => hb h.1]
  · rw [if_neg hc, hflags, if_neg fun h => hc (completes_eachPart.mpr h.1)]

theorem db_closeDb (f : Faults) (w : World) (h : Part) :
    (Command.closeDb.leaves f w).db h =
      if ∀ k ∈ before h, f (.close k) = false then (w.db h).done (.close h) else w.db h := by
  rw [Command.leaves, Command.script, db_eachPart fun _ => rfl]
  split_ifs <;> rfl

/-! ## What each command leaves -/

theorem settled_iff (h : ∀ h, (w.db h).cursors = 0) :
    w.Settled ↔ (∀ h, (w.db h).phase = .opened) ∨ ∀ h, (w.db h).phase ≠ .opened :=
  ⟨fun hw => hw.handles, fun hp => ⟨hp, h⟩⟩

theorem settled_of_phase (hw : w.Settled) (h : ∀ h, (t.db h).phase = (w.db h).phase) :
    t.Settled ↔ ∀ h, (t.db h).cursors = 0 := by
  constructor
  · exact fun ht => ht.cursors
  · intro hc
    constructor
    case handles =>
      simp only [h]
      exact hw.handles
    case cursors => exact hc

theorem settled_createDb (hw : w.Settled) (f : Faults) :
    (Command.createDb.leaves f w).Settled ↔ Command.createDb.Undivided f w := by
  have hcursors : ∀ h, ((Command.createDb.leaves f w).db h).cursors = 0 := by
    intro h
    rw [db_createDb]
    split_ifs <;> exact hw.cursors h
  have hphase : ∀ h, ((Command.createDb.leaves f w).db h).phase =
      if Opens f h then .opened else (w.db h).phase := by
    intro h
    rw [db_createDb]
    split_ifs <;> rfl
  rw [settled_iff hcursors]
  rcases hw.handles with hall | hnone
  · refine iff_of_true (.inl fun h => ?_) (.inl hall)
    rw [hphase, hall, ite_self]
  · by_cases hbegun : (∀ k, f (.setFlags k) = false) ∧ f (.openDb .s) = false
    · obtain ⟨hflags, hs⟩ := hbegun
      simp only [hphase]
      simp [Command.Undivided, Opens, Part.forall_iff, before, hflags, hs, hnone]
    · refine iff_of_true (.inr fun h => ?_) (.inr (.inl ?_))
      · rw [hphase, if_neg fun ho : Opens f h => hbegun ⟨ho.1, ho.first⟩]
        exact hnone h
      · by_contra hnot
        simp only [not_or, Bool.not_eq_true] at hnot
        exact hbegun ⟨Part.forall_iff.mpr ⟨hnot.1, hnot.2.1, hnot.2.2.1⟩, hnot.2.2.2⟩

theorem settled_closeDb (hw : w.Settled) (f : Faults) :
    (Command.closeDb.leaves f w).Settled ↔ Command.closeDb.Undivided f w := by
  have hcursors : ∀ h, ((Command.closeDb.leaves f w).db h).cursors = 0 := by
    intro h
    rw [db_closeDb]
    split_ifs
    · rfl
    · exact hw.cursors h
  have hphase : ∀ h, ((Command.closeDb.leaves f w).db h).phase =
      if ∀ k ∈ before h, f (.close k) = false then .closed else (w.db h).phase := by
    intro h
    rw [db_closeDb]
    split_ifs <;> rfl
  rw [settled_iff hcursors]
  simp only [hphase]
  rcases hw.handles with hall | hnone
  · simp [Command.Undivided, Part.forall_iff, before, hall]
  · refine iff_of_true (.inr fun h => ?_) (.inl hnone)
    split_ifs
    · simp
    · exact hnone h

def Call.keepsCursors : Call → Bool
  | setFlags _ | openDb _ | put .. | get .. => true
  | cursor _ | closeCursor _ | close _ => false

theorem keeps_cursors {c : Call} (hc : c.keepsCursors) : c.Keeps Db.cursors := by
  intro d
  cases c with
  | cursor | closeCursor | close => cases hc
  | setFlags | openDb | put | get => exact ⟨rfl, rfl⟩

theorem settled_insertDbData (hw : w.Settled) (f : Faults) :
    (Command.insertDbData.leaves f w).Settled := by
  have hputs : ∀ d, .call d ∈ Command.insertDbData.script w →
      d.Keeps Db.phase ∧ d.Keeps Db.cursors := by
    intro d hd
    obtain ⟨h, r, rfl⟩ := call_mem_insertDbData hd
    exact ⟨keeps_phase rfl, keeps_cursors rfl⟩
  have hphase : ∀ h, ((Command.insertDbData.leaves f w).db h).phase = (w.db h).phase :=
    view_db_perform (fun d hd => (hputs d hd).1) w
  rw [settled_of_phase hw hphase]
  intro h
  exact (view_db_perform (fun d hd => (hputs d hd).2) w h).trans (hw.cursors h)

theorem cursors_rounds (f : Faults) (w t : World) (h : Part) :
    ((perform effects (Act.fails f) t w.rounds).db h).cursors = (t.db h).cursors := by
  apply view_db_perform
  intro d hd
  obtain ⟨k, m, rfl⟩ := call_mem_rounds hd
  exact keeps_cursors rfl

theorem cursors_opened (hw : w.Settled) (f : Faults) (h : Part) :
    ((perform effects (Act.fails f) w (eachPart .cursor)).db h).cursors =
      if (∀ k ∈ before h, f (.cursor k) = false) ∧ f (.cursor h) = false then 1 else 0 := by
  rw [db_eachPart fun _ => rfl]
  by_cases hb : ∀ k ∈ before h, f (.cursor k) = false
  · rw [if_pos hb]
    cases f (.cursor h) with
    | true => rw [if_pos rfl, if_neg fun h => Bool.noConfusion h.2]; exact hw.cursors h
    | false => rw [if_neg Bool.false_ne_true, if_pos ⟨hb, rfl⟩]; simp [Db.done, hw.cursors h]
  · rw [if_neg hb, if_neg fun h => hb h.1]
    exact hw.cursors h

theorem cursors_closed (ht : (t.db h).cursors = 1) (f : Faults) :
    ((perform effects (Act.fails f) t (eachPart .closeCursor)).db h).cursors =
      if ∀ k ∈ before h, f (.closeCursor k) = false then 0 else 1 := by
  rw [db_eachPart fun _ => rfl]
  by_cases hb : ∀ k ∈ before h, f (.closeCursor k) = false
  · rw [if_pos hb, if_pos hb]
    split <;> simp [Db.done, Db.failed, ht]
  · rw [if_neg hb, if_neg hb, ht]

theorem settled_printDbData (hw : w.Settled) (f : Faults) :
    (Command.printDbData.leaves f w).Settled ↔ Command.printDbData.Undivided f w := by
  have hphase : ∀ h, ((Command.printDbData.leaves f w).db h).phase = (w.db h).phase :=
    view_db_perform (fun d hd => keeps_phase ((call_mem_script hd).2 (.inr rfl))) w
  have hopened := cursors_opened hw f
  rw [settled_of_phase hw hphase]
  simp only [Command.leaves, Command.script, List.append_assoc, perform_append]
  by_cases hc : ∀ h, f (.cursor h) = false
  · have hone : ∀ h, ((perform effects (Act.fails f) w (eachPart .cursor)).db h).cursors = 1 :=
      fun h => (hopened h).trans (if_pos ⟨fun k _ => hc k, hc h⟩)
    rw [if_pos (completes_eachPart.mpr hc)]
    by_cases hr : Completes (Act.fails f) w.rounds
    · have htwo : ∀ h, ((perform effects (Act.fails f) (perform effects (Act.fails f) w
          (eachPart .cursor)) w.rounds).db h).cursors = 1 :=
        fun h => (cursors_rounds f w _ h).trans (hone h)
      simp only [if_pos hr, cursors_closed (htwo _)]
      simp [Command.Undivided, hc, hr, Part.forall_iff, before]
    · simp only [if_neg hr, cursors_rounds, hone]
      simp [Command.Undivided, hc, hr, Part.forall_iff]
  · rw [if_neg fun h => hc (completes_eachPart.mp h)]
    simp only [hopened, Command.Undivided]
    cases hs : f (.cursor .s) with
    | true => simp [Part.forall_iff, before, hs]
    | false =>
      refine iff_of_false (fun h => ?_) ?_
      · have hzero := h .s
        rw [if_pos ⟨by simp [before], hs⟩] at hzero
        cases hzero
      · rintro (h | ⟨hp, ho, -⟩)
        · cases h
        · exact hc (Part.forall_iff.mpr ⟨hs, hp, ho⟩)

/-! ## Over runs -/

theorem settled_leaves (hw : w.Settled) (c : Command) (f : Faults) :
    (c.leaves f w).Settled ↔ c.Undivided f w := by
  cases c with
  | createDb => exact settled_createDb hw f
  | insertDbData => exact iff_of_true (settled_insertDbData hw f) trivial
  | printDbData => exact settled_printDbData hw f
  | closeDb => exact settled_closeDb hw f
  | createDbVfs => exact settled_closeDb hw f

/-- When a `createDb` that is not cut in two returns `-1`, no handle has changed. -/
theorem same_createDb (hc : Command.createDb.Undivided f w)
    (hfail : ¬ Command.createDb.Succeeds f w) (h : Part) :
    (w.db h).Same ((Command.createDb.leaves f w).db h) := by
  rw [db_createDb]
  split_ifs with hopen
  · have hflags := hopen.1
    have hs := hopen.first
    rcases hc with hall | hthrow | ⟨hp, ho⟩
    · exact ⟨(hall h).symm, rfl⟩
    · simp [hflags, hs] at hthrow
    · have hopens : ∀ k, f (.openDb k) = false := Part.forall_iff.mpr ⟨hs, hp, ho⟩
      exact absurd (completes_append.mpr ⟨completes_eachPart.mpr hflags,
        completes_eachPart.mpr hopens⟩) hfail
  · exact ⟨rfl, rfl⟩

def UndividedAt (w : World) (i : Input) : Prop :=
  ∀ c, Command.ofKey i.key = some c → c.Undivided i.faults w

theorem allOrNothing_iff (hw : w.Settled) (hlock : w.Lockstep) (i : Input) :
    AllOrNothing fk w i ↔ UndividedAt w i := by
  obtain ⟨t, ht, -⟩ : ∃ t, prompt fk w i = some t ∧ t.Lockstep := hlock.prompt i
  have hfail : (exec (createDb i.faults) w).1 = .ok (-1) →
      ¬ Command.createDb.Succeeds i.faults w := by
    intro hx hs
    rw [exec_createDb, if_pos hs] at hx
    cases hx
  have hsettled : AllOrNothing fk w i ↔ t.Settled ∧
      (Command.ofKey i.key = some .createDb → (exec (createDb i.faults) w).1 = .ok (-1) →
        ∀ h, (w.db h).Same (t.db h)) := by
    constructor
    · rintro ⟨u, hu, hall⟩
      obtain rfl : t = u := Option.some.inj (ht.symm.trans hu)
      exact hall
    · exact fun hall => ⟨t, ht, hall⟩
  rw [hsettled]
  obtain ⟨hkey, rfl⟩ | ⟨c, fs, hkey, -, rfl⟩ := prompt_cases ht
  · simp only [UndividedAt, hkey, hw]
    simp
  · have hw' : World.Settled { w with fs := fs } := ⟨hw.handles, hw.cursors⟩
    have hundivided : UndividedAt w i ↔ c.Undivided i.faults { w with fs := fs } := by
      simp only [UndividedAt, hkey, Option.some.injEq, forall_eq']
      rfl
    rw [settled_leaves hw', hundivided]
    apply and_iff_left_of_imp
    intro hc hcreate hx h
    obtain rfl : c = .createDb := Option.some.inj (hkey.symm.trans hcreate)
    exact same_createDb (w := { w with fs := fs }) hc (hfail hx) h

/-- The prompts are all-or-nothing as long as no command is cut in two. -/
theorem allOrNothing_along_iff (fk : Vfs.Fusekit) (is : List Input) :
    Runs.Along (prompt fk) (AllOrNothing fk) .start is ↔
      Runs.Along (prompt fk) UndividedAt .start is := by
  apply Runs.along_congr fun w => w.Settled ∧ w.Lockstep
  · exact fun w i hw => allOrNothing_iff hw.1 hw.2 i
  · rintro w i t ⟨-, hlock⟩ ⟨u, hu, hsettled, -⟩ ht
    obtain rfl : t = u := Option.some.inj (ht.symm.trans hu)
    obtain ⟨v, hv, hlock'⟩ : ∃ v, prompt fk w i = some v ∧ v.Lockstep := hlock.prompt i
    obtain rfl : t = v := Option.some.inj (ht.symm.trans hv)
    exact ⟨hsettled, hlock'⟩
  · exact ⟨⟨.inr fun h => by simp [World.start], fun h => rfl⟩, 0, fun h => rfl⟩

/-- A second open that throws leaves the first handle open. -/
theorem createDb_cut_in_two : ¬ Runs.Along (prompt ⟨.keep, .keep⟩) (AllOrNothing ⟨.keep, .keep⟩)
    .start [.failing 1 (.openDb .p)] := by
  intro h
  obtain ⟨t, ht, hsettled, -⟩ := h [] _ _ List.prefix_rfl rfl
  obtain rfl := Option.some.inj ht
  rcases hsettled.handles with hall | hnone
  · exact absurd (hall .p) (by decide)
  · exact absurd rfl (hnone .s)

end M3Sec.Berkeley
