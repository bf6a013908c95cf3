import M3Sec.Sqlite.Resolution

/-! # The fidelity of a query

A query goes through `string(char*)` for every cell of every row. This keeps the bytes of
a cell up to the first NUL and has no value for the NULL cell.
-/

namespace M3Sec.Sqlite

open Fallible

variable {e : Execution} {db : State} {cols : ℕ} {cells : Fin cols → Cell}

/-- The results of a query are the rows that it saw: one entry for each, as many texts as the
statement has columns, and the bytes of the cells that are not NULL. -/
structure Faithful (e : Execution) (results : List (List Str)) : Prop where
  size : results.length = e.rows.length
  width : ∀ values ∈ results, values.length = e.cols
  cell : ∀ (i : ℕ) (cells : Fin e.cols → Cell) (col : Fin e.cols) (bytes : Str),
    e.rows[i]? = some cells → cells col = some bytes →
      ∃ values, results[i]? = some values ∧ values[col.val]? = some bytes

def QueryFaithful (e : Execution) (db : State) : Prop :=
  ∃ results, (exec (query e) db).1 = .ok results ∧ Faithful e results

theorem getElem?_texts_of_cell {col : Fin cols} {bytes : Str} (hn : ∀ c, cells c ≠ none)
    (hc : cells col = some bytes) : (texts cells)[col.val]? = some (cstr bytes) := by
  rw [texts_getElem? hn, column, dif_pos col.isLt, hc]
  rfl

theorem faithful_texts_iff (hn : e.NullFree) :
    Faithful e (e.rows.map texts) ↔ ∀ cells ∈ e.rows, ∀ c, (cells c).Textual := by
  constructor
  · rintro h cells hc c
    obtain ⟨i, hi⟩ := List.getElem?_of_mem hc
    obtain ⟨bytes, hb⟩ := Option.ne_none_iff_exists'.mp (hn cells hc c)
    obtain ⟨values, hv, hget⟩ := h.cell i cells c bytes hi hb
    have hvalues : texts cells = values := by
      rw [List.getElem?_map, hi] at hv
      exact Option.some.inj hv
    rw [← hvalues, getElem?_texts_of_cell (hn cells hc) hb] at hget
    exact ⟨bytes, hb, cstr_eq_self_iff.mp (Option.some.inj hget)⟩
  · rintro h
    constructor
    · exact List.length_map _
    · rintro values hv
      obtain ⟨cells, _, rfl⟩ := List.mem_map.mp hv
      exact length_texts cells
    · rintro i cells col bytes hi hb
      have hc : cells ∈ e.rows := List.mem_of_getElem? hi
      obtain ⟨bytes', hb', hnul⟩ := h cells hc col
      obtain rfl : bytes' = bytes := Option.some.inj (hb'.symm.trans hb)
      refine ⟨texts cells, by rw [List.getElem?_map, hi]; rfl, ?_⟩
      rw [getElem?_texts_of_cell (hn cells hc) hb, cstr_of_nulFree hnul]

/-- A query is faithful exactly if no cell that it reads is NULL or holds a NUL. -/
theorem queryFaithful_iff (e : Execution) (db : State) :
    QueryFaithful e db ↔ ∀ cells ∈ e.rows, ∀ c, (cells c).Textual := by
  by_cases hn : e.NullFree
  · rw [← faithful_texts_iff hn]
    constructor
    · rintro ⟨results, hr, hf⟩
      rw [ends_query hn db] at hr
      exact Except.ok.inj hr ▸ hf
    · exact fun hf => ⟨_, ends_query hn db, hf⟩
  · constructor
    · rintro ⟨results, hr, _⟩
      rw [ends_query_of_null hn db] at hr
      cases hr
    · rintro h
      exact (hn fun cells hc c => (h cells hc c).ne_none).elim

def objectlessTriple : Execution :=
  .ofRows 3 [![some (str "1"), some (str "2"), none]] .done

theorem objectless_not_queryFaithful :
    ¬ ∀ (e : Execution) (db : State), e.prepared = true → e.steps.code = .done →
      QueryFaithful e db := by
  intro h
  obtain ⟨results, hr, _⟩ := h objectlessTriple .fresh rfl rfl
  have hthrow : (exec (query objectlessTriple) .fresh).1 = .error .logicError := by decide
  rw [hthrow] at hr
  cases hr

end M3Sec.Sqlite
