import M3Sec.Sqlite.Database

/-! # What a query returns and what it touches

A query without NULL cells returns the texts of the rows that were stepped over,
whatever ended the stepping; a NULL cell makes it throw. Either way it leaves the
vectors and the set of open connections alone.
-/

namespace M3Sec.Sqlite

open Fallible

variable {cols : ℕ} {e : Execution} {db db' : State}

/-- The bytes of column `j`, if the row has it and it is not NULL. -/
def stored (cells : Fin cols → Cell) (j : ℕ) : Cell :=
  if h : j < cols then cells ⟨j, h⟩ else none

/-- The cells that `string(char*)` reproduces. -/
def Cell.Textual (cell : Cell) : Prop := ∃ bytes, cell = some bytes ∧ 0 ∉ bytes

/-- The text of column `j`, as `string(char*)` makes it. -/
def column (cells : Fin cols → Cell) (j : ℕ) : Option Str :=
  if h : j < cols then (cells ⟨j, h⟩).map cstr else none

def texts (cells : Fin cols → Cell) : List Str :=
  (List.finRange cols).map fun c => cstr ((cells c).getD [])

def Steps.rows : Steps cols → List (Fin cols → Cell)
  | .stop _ => []
  | .row cells rest => cells :: rest.rows

def Steps.code : Steps cols → Code
  | .stop code => code
  | .row _ rest => rest.code

namespace Execution

/-- The rows the query gets to see; a statement that does not prepare has none. -/
def rows (e : Execution) : List (Fin e.cols → Cell) := if e.prepared then e.steps.rows else []

def Fails (e : Execution) : Prop := e.prepared = false ∨ e.steps.code ≠ .done

def NullFree (e : Execution) : Prop := ∀ cells ∈ e.rows, ∀ c, cells c ≠ none

end Execution

@[simp] theorem length_texts (cells : Fin cols → Cell) : (texts cells).length = cols := by
  simp [texts]

theorem texts_getElem? {cells : Fin cols → Cell} (hn : ∀ c, cells c ≠ none) (j : ℕ) :
    (texts cells)[j]? = column cells j := by
  unfold column
  split_ifs with hj
  · obtain ⟨bytes, hb⟩ := Option.ne_none_iff_exists'.mp (hn ⟨j, hj⟩)
    simp [texts, hj, hb]
  · simp [texts, hj]

theorem column_eq_map (cells : Fin cols → Cell) (j : ℕ) :
    column cells j = (stored cells j).map cstr := by
  unfold column stored
  split_ifs <;> rfl

theorem Cell.Textual.ne_none {cell : Cell} (h : cell.Textual) : cell ≠ none := by
  rintro rfl
  obtain ⟨_, hc, _⟩ := h
  cases hc

theorem Cell.map_cstr_eq_self_iff {cell : Cell} (hn : cell ≠ none) :
    cell.map cstr = cell ↔ cell.Textual := by
  obtain ⟨bytes, rfl⟩ := Option.ne_none_iff_exists'.mp hn
  simp [Cell.Textual, cstr_eq_self_iff]

theorem stored_ne_none {cells : Fin cols → Cell} (hn : ∀ c, cells c ≠ none) {j : ℕ}
    (hj : j < cols) : stored cells j ≠ none := by
  simpa [stored, hj] using hn ⟨j, hj⟩

theorem column_ne_none {cells : Fin cols → Cell} (hn : ∀ c, cells c ≠ none) {j : ℕ}
    (hj : j < cols) : column cells j ≠ none := by
  simpa [column, hj] using hn ⟨j, hj⟩

/-! ## Effects -/

/-- Calls were made on the current connection, and no connection was opened or closed. -/
structure Uses (db db' : State) : Prop where
  database : db'.database = db.database
  opened : db'.opened = db.opened
  closed : db'.closed = db.closed
  issued : ∃ new, db'.issued = db.issued ++ new ∧
    ∀ i ∈ new, i.call ≠ .openDb ∧ i.pointer = db.pointer

structure Quiet (db db' : State) : Prop extends Uses db db' where
  vec : db'.vec = db.vec

theorem Uses.pointer (h : Uses db db') : db'.pointer = db.pointer := by
  simp only [State.pointer, h.database, h.closed]

theorem Uses.issued_subset (h : Uses db db') : db.issued ⊆ db'.issued := by
  obtain ⟨new, hn, _⟩ := h.issued
  rw [hn]
  exact List.subset_append_left _ _

theorem Uses.of_issued (h : db'.database = db.database) (ho : db'.opened = db.opened)
    (hc : db'.closed = db.closed) (hi : db'.issued = db.issued) : Uses db db' :=
  ⟨h, ho, hc, [], by simp [hi]⟩

instance : Std.Refl Uses where
  refl _ := .of_issued rfl rfl rfl rfl

instance : IsTrans State Uses where
  trans db db' db'' h h' := by
    obtain ⟨new, hn, hp⟩ := h.issued
    obtain ⟨new', hn', hp'⟩ := h'.issued
    refine ⟨h'.database.trans h.database, h'.opened.trans h.opened, h'.closed.trans h.closed,
      new ++ new', by rw [hn', hn, List.append_assoc], ?_⟩
    intro i hi
    rcases List.mem_append.mp hi with hi | hi
    · exact hp i hi
    · exact ⟨(hp' i hi).1, (hp' i hi).2.trans h.pointer⟩

instance : Std.Refl Quiet where
  refl db := ⟨refl_of Uses db, rfl⟩

instance : IsTrans State Quiet where
  trans _ _ _ h h' := ⟨trans_of Uses h.toUses h'.toUses, h'.vec.trans h.vec⟩

theorem quiet_touch {call : SqliteCall} (h : call ≠ .openDb) : Moves Quiet (touch call) :=
  .modify fun _ => ⟨⟨rfl, rfl, rfl, _, rfl, by simp [h]⟩, rfl⟩

theorem quiet_count (change : ℕ → ℕ) :
    Moves Quiet (modify (State.count change) : Fallible State Exception PUnit) := by
  refine .modify fun db => ?_
  unfold State.count
  split
  · exact refl_of Quiet db
  · exact ⟨.of_issued rfl rfl rfl rfl, rfl⟩

theorem quiet_columnString (cell : Cell) : Moves Quiet (columnString cell) := by
  cases cell with
  | none => exact .throw _
  | some bytes => exact .pure _

theorem quiet_fetch (steps : Steps cols) (results : List (List Str)) :
    Moves Quiet (fetch steps results) := by
  induction steps generalizing results with
  | stop code => exact (quiet_touch (by decide)).bind fun _ => .pure _
  | row cells rest ih =>
    refine (quiet_touch (by decide)).bind fun _ => Moves.bind (.mapM fun col _ => ?_) fun _ => ih _
    exact (quiet_touch (by decide)).bind fun _ => quiet_columnString _

theorem quiet_stepThrough (e : Execution) : Moves Quiet (stepThrough e) :=
  (quiet_count _).bind fun _ => (quiet_touch (by decide)).bind fun _ =>
    (quiet_fetch _ _).bind fun _ => (quiet_touch (by decide)).bind fun _ =>
      (quiet_count _).bind fun _ => .pure _

theorem quiet_prepared (e : Execution) : Moves Quiet (do
    let results ← (if e.prepared then stepThrough e else pure [])
    touch .errmsg
    return results : Fallible State Exception (List (List Str))) := by
  refine Moves.bind ?_ fun _ => (quiet_touch (by decide)).bind fun _ => .pure _
  split_ifs
  · exact quiet_stepThrough e
  · exact .pure _

/-- A query, also one that throws, leaves the vectors and the connections as they were. -/
theorem quiet_query (e : Execution) : Moves Quiet (query e) :=
  (quiet_touch (by decide)).bind fun _ => quiet_prepared e

theorem prepare_mem_query (e : Execution) (db : State) :
    ⟨.prepare, db.pointer⟩ ∈ (exec (query e) db).2.issued := by
  have h : Quiet (db.issue .prepare) (exec (query e) db).2 :=
    Moves.bind_from (x := touch .prepare) (fun _ => quiet_prepared e) db
  exact h.issued_subset (by simp [State.issue])

/-! ## Results -/

theorem ends_touch (call : SqliteCall) : Ends (touch call) (.ok ⟨⟩) := fun _ => rfl

theorem ends_row {cells : Fin cols → Cell} (l : List (Fin cols)) (hn : ∀ c, cells c ≠ none) :
    Ends (l.mapM fun col => do touch .columnText; columnString (cells col))
      (.ok (l.map fun c => cstr ((cells c).getD []))) := by
  induction l with
  | nil => exact Ends.pure _
  | cons c l ih =>
    obtain ⟨bytes, hb⟩ := Option.ne_none_iff_exists'.mp (hn c)
    rw [List.mapM_cons]
    refine Ends.ok_bind (a := cstr bytes) ((ends_touch _).ok_bind ?_) ?_
    · rw [hb]; exact Ends.pure _
    · rw [List.map_cons, hb]
      exact ih.ok_bind (Ends.pure _)

theorem ends_row_of_null {cells : Fin cols → Cell} {l : List (Fin cols)}
    (hn : ∃ c ∈ l, cells c = none) :
    Ends (l.mapM fun col => do touch .columnText; columnString (cells col))
      (.error .logicError) := by
  induction l with
  | nil => simp at hn
  | cons c l ih =>
    rw [List.mapM_cons]
    cases hc : cells c with
    | none => exact .error_bind (.ok_bind (ends_touch _) fun _ => rfl)
    | some bytes =>
      have hl : ∃ c ∈ l, cells c = none := by simpa [hc] using hn
      exact .ok_bind (.ok_bind (ends_touch _) (Ends.pure _)) (.error_bind (ih hl))

theorem ends_fetch {steps : Steps cols} (hn : ∀ cells ∈ steps.rows, ∀ c, cells c ≠ none)
    (results : List (List Str)) :
    Ends (fetch steps results) (.ok (results ++ steps.rows.map texts)) := by
  induction steps generalizing results with
  | stop code =>
    rw [Steps.rows, List.map_nil, List.append_nil]
    exact (ends_touch _).ok_bind (Ends.pure results)
  | row cells rest ih =>
    simp only [Steps.rows, List.mem_cons, forall_eq_or_imp] at hn
    refine (ends_touch _).ok_bind ((ends_row _ hn.1).ok_bind ?_)
    simpa [Steps.rows, texts] using ih hn.2 (results ++ [texts cells])

theorem ends_fetch_of_null {steps : Steps cols} (hn : ¬ ∀ cells ∈ steps.rows, ∀ c, cells c ≠ none)
    (results : List (List Str)) : Ends (fetch steps results) (.error .logicError) := by
  induction steps generalizing results with
  | stop code => simp [Steps.rows] at hn
  | row cells rest ih =>
    refine (ends_touch _).ok_bind ?_
    by_cases hc : ∀ c, cells c ≠ none
    · refine (ends_row _ hc).ok_bind (ih (fun h => hn ?_) _)
      simpa [Steps.rows] using ⟨hc, h⟩
    · exact .error_bind (ends_row_of_null (by simpa using hc))

theorem ends_query (hn : e.NullFree) : Ends (query e) (.ok (e.rows.map texts)) := by
  refine (ends_touch _).ok_bind (.ok_bind ?_ ((ends_touch _).ok_bind (Ends.pure _)))
  unfold Execution.NullFree Execution.rows at *
  split_ifs at hn ⊢
  · exact (Ends.modify _).ok_bind ((ends_touch _).ok_bind ((ends_fetch hn []).ok_bind
      ((ends_touch _).ok_bind ((Ends.modify _).ok_bind (Ends.pure _)))))
  · exact Ends.pure _

/-- A NULL cell makes a query throw: `string` has no value for a null pointer. -/
theorem ends_query_of_null (hn : ¬ e.NullFree) : Ends (query e) (.error .logicError) := by
  refine (ends_touch _).ok_bind (.error_bind ?_)
  unfold Execution.NullFree Execution.rows at hn
  split_ifs at hn ⊢
  · exact (Ends.modify _).ok_bind ((ends_touch _).ok_bind (.error_bind (ends_fetch_of_null hn [])))
  · simp at hn

end M3Sec.Sqlite
