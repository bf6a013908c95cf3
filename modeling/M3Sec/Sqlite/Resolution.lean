import Mathlib.Data.Fin.VecNotation
import M3Sec.Library.Joins
import M3Sec.Sqlite.Query

/-! # Resolving ids to texts

The nested loop of `getAllTriplesText` pushes a node's text on the vector of the
first part of the triple whose id is the node's. With unique and complete node ids
the three vectors hold the three texts of each triple, in order, exactly when no
triple repeats an id and no text of its nodes is cut at a NUL.
-/

namespace M3Sec.Sqlite

open Fallible

variable {db : State} {triple node : Execution} {t n : List Str} {k : Part}

/-- The part whose vector a node with this id is pushed on. -/
def slot (t : List Str) (id : Str) : Option Part :=
  if t[0]? = some id then some .s
  else if t[1]? = some id then some .p
  else if t[2]? = some id then some .o
  else none

def contribution (k : Part) (t n : List Str) : Option Str :=
  n[0]?.bind fun id => if slot t id = some k then n[1]? else none

def joined (triples nodes : List (List Str)) (k : Part) : List Str :=
  triples.flatMap fun t => nodes.filterMap (contribution k t)

def State.append (db : State) (new : Part → List Str) : State :=
  { db with vec := fun k => db.vec k ++ new k }

theorem State.append_nil : db.append (fun _ => []) = db := by
  simp [State.append]

theorem State.append_append (new new' : Part → List Str) :
    (db.append new).append new' = db.append fun k => new k ++ new' k := by
  simp [State.append]

theorem State.push_eq_append (k : Part) (text : Str) :
    db.push k text = db.append fun k' => if k' = k then [text] else [] := by
  simp only [State.push, State.append]
  congr 1
  funext k'
  by_cases h : k' = k
  · subst h; simp
  · simp [h]

structure Joinable (t n : List Str) : Prop where
  triple : 3 ≤ t.length
  node : 2 ≤ n.length

theorem exec_resolve (h : Joinable t n) :
    exec (resolve t n) db = (.ok ⟨⟩, db.append fun k => (contribution k t n).toList) := by
  obtain ⟨ht, hn⟩ := h
  obtain ⟨a, b, c, t, rfl⟩ : ∃ a b c t', t = a :: b :: c :: t' := by
    match t, ht with
    | a :: b :: c :: t, _ => exact ⟨a, b, c, t, rfl⟩
  obtain ⟨id, text, n, rfl⟩ : ∃ id text n', n = id :: text :: n' := by
    match n, hn with
    | id :: text :: n, _ => exact ⟨id, text, n, rfl⟩
  simp only [resolve, at', List.getElem?_cons_zero, List.getElem?_cons_succ, pure_bind,
    contribution, slot, Option.bind_some, Option.some.injEq]
  by_cases hs : a = id
  · simp [hs, State.push_eq_append, apply_ite Option.toList, eq_comm]
  by_cases hp : b = id
  · simp [hs, hp, State.push_eq_append, apply_ite Option.toList, eq_comm]
  by_cases ho : c = id
  · simp [hs, hp, ho, State.push_eq_append, apply_ite Option.toList, eq_comm]
  · simp [hs, hp, ho, State.append_nil]

theorem exec_join {triples nodes : List (List Str)}
    (h : ∀ t ∈ triples, ∀ n ∈ nodes, Joinable t n) (db : State) :
    exec (triples.forM fun it => nodes.forM fun it_str => resolve it it_str) db =
      (.ok ⟨⟩, db.append (joined triples nodes)) := by
  have hin : ∀ t ∈ triples, ∀ db : State, exec (nodes.forM fun it_str => resolve t it_str) db =
      (.ok ⟨⟩, db.append fun k => nodes.filterMap (contribution k t)) := by
    intro t ht db
    rw [exec_forM fun n hn db => exec_resolve (h t ht n hn)]
    congr 1
    clear h
    induction nodes generalizing db with
    | nil => exact State.append_nil.symm
    | cons n nodes ih =>
      rw [List.foldl_cons, ih, State.append_append]
      congr 1
      funext k
      cases hc : contribution k t n <;> simp [hc]
  rw [exec_forM fun t ht db => hin t ht db]
  congr 1
  clear h hin
  induction triples generalizing db with
  | nil => exact State.append_nil.symm
  | cons t triples ih =>
    rw [List.foldl_cons, ih, State.append_append]
    rfl

@[simp] theorem vec_close (db : State) : (exec close db).2.vec = db.vec := by
  change (db.issue .close).disconnect.vec = db.vec
  unfold State.disconnect
  split
  · rfl
  · split <;> rfl

/-- On rows without NULL cells, `getAllTriplesText` appends the join of what its two
queries saw. -/
theorem exec_getAllTriplesText (ht : triple.NullFree) (hn : node.NullFree)
    (h3 : 3 ≤ triple.cols) (h2 : 2 ≤ node.cols) (db : State) :
    ∃ db', exec (getAllTriplesText triple node) db = (.ok ⟨⟩, db') ∧ ∀ k, db'.vec k =
      db.vec k ++ joined (triple.rows.map texts) (node.rows.map texts) k := by
  obtain ⟨d, hd⟩ : ∃ d, exec (query triple) db = (.ok (triple.rows.map texts), d) :=
    ⟨_, Prod.ext (ends_query ht db) rfl⟩
  obtain ⟨d', hd'⟩ : ∃ d', exec (query node) d = (.ok (node.rows.map texts), d') :=
    ⟨_, Prod.ext (ends_query hn d) rfl⟩
  have hv : d'.vec = db.vec := by
    have h := (quiet_query triple db).vec
    have h' := (quiet_query node d).vec
    rw [hd] at h
    rw [hd'] at h'
    exact h'.trans h
  have hj : ∀ t ∈ triple.rows.map texts, ∀ n ∈ node.rows.map texts, Joinable t n := by
    intro t ht n hn
    obtain ⟨cells, _, rfl⟩ := List.mem_map.mp ht
    obtain ⟨cells', _, rfl⟩ := List.mem_map.mp hn
    exact ⟨by simpa using h3, by simpa using h2⟩
  refine ⟨(exec close (d'.append (joined (triple.rows.map texts) (node.rows.map texts)))).2, ?_, ?_⟩
  · have hl : exec (loadTriples triple node) db =
        (.ok ⟨⟩, d'.append (joined (triple.rows.map texts) (node.rows.map texts))) := by
      rw [loadTriples, exec_bind_ok hd, exec_bind_ok hd', exec_join hj d']
    rw [getAllTriplesText, exec_bind_ok hl]
    rfl
  · intro k
    rw [vec_close]
    exact congrArg (· ++ _) (congrFun hv k)

/-- A NULL cell in either result makes `getAllTriplesText` throw, before the vectors
are touched. -/
theorem exec_getAllTriplesText_of_null (h : ¬ (triple.NullFree ∧ node.NullFree)) (db : State) :
    ∃ db', exec (getAllTriplesText triple node) db = (.error .logicError, db') ∧
      db'.vec = db.vec := by
  have hq := (quiet_query triple db).vec
  by_cases ht : triple.NullFree
  · obtain ⟨d, hd⟩ : ∃ d, exec (query triple) db = (.ok (triple.rows.map texts), d) :=
      ⟨_, Prod.ext (ends_query ht db) rfl⟩
    rw [hd] at hq
    refine ⟨(exec (query node) d).2, exec_bind_error ?_, (quiet_query node d).vec.trans hq⟩
    rw [loadTriples, exec_bind_ok hd]
    exact exec_bind_error (Prod.ext (ends_query_of_null (fun hn => h ⟨ht, hn⟩) d) rfl)
  · refine ⟨(exec (query triple) db).2, exec_bind_error ?_, hq⟩
    exact exec_bind_error (Prod.ext (ends_query_of_null ht db) rfl)

/-! ## What a triple contributes -/

theorem forall_lt_zero {A : ℕ → Prop} : (∀ j < 0, A j) ↔ True :=
  iff_true_intro fun j hj => absurd hj (Nat.not_lt_zero j)

theorem forall_lt_one {A : ℕ → Prop} : (∀ j < 1, A j) ↔ A 0 := by
  constructor
  · exact fun h => h 0 Nat.one_pos
  · intro h j hj
    obtain rfl : j = 0 := Nat.lt_one_iff.mp hj
    exact h

theorem forall_lt_two {A : ℕ → Prop} : (∀ j < 2, A j) ↔ A 0 ∧ A 1 := by
  constructor
  · exact fun h => ⟨h 0 Nat.two_pos, h 1 Nat.one_lt_two⟩
  · rintro ⟨h0, h1⟩ j hj
    obtain rfl | rfl : j = 0 ∨ j = 1 := by omega
    · exact h0
    · exact h1

theorem slot_eq_some_iff {id : Str} :
    slot t id = some k ↔ t[k.column]? = some id ∧ ∀ j < k.column, t[j]? ≠ some id := by
  unfold slot
  cases k <;> simp only [forall_lt_zero, forall_lt_one, forall_lt_two, Part.column] <;>
    split_ifs <;> simp_all

variable {cols cols' : ℕ} {cells : Fin cols → Cell} {row : Fin cols' → Cell}

theorem contribution_texts (ht : ∀ c, cells c ≠ none) (hn : ∀ c, row c ≠ none) :
    contribution k (texts cells) (texts row) =
      if column row 0 ≠ none ∧ column cells k.column = column row 0 ∧
        ∀ j < k.column, column cells j ≠ column row 0 then column row 1 else none := by
  unfold contribution
  rw [texts_getElem? hn, texts_getElem? hn]
  cases hid : column row 0 with
  | none => simp
  | some id => simp [slot_eq_some_iff, texts_getElem? ht]

def Leads (cells : Fin cols → Cell) (k : Part) : Prop :=
  ∀ j < k.column, column cells j ≠ column cells k.column

def DistinctIds (cells : Fin cols → Cell) : Prop :=
  stored cells 0 ≠ stored cells 1 ∧ stored cells 0 ≠ stored cells 2 ∧
    stored cells 1 ≠ stored cells 2

theorem contributions_of_leads {rows : List (Fin cols' → Cell)} (h2 : 2 ≤ cols')
    (hn : ∀ row ∈ rows, ∀ c, row c ≠ none) (ht : ∀ c, cells c ≠ none)
    (unique : (rows.map (column · 0)).Nodup) (hrow : row ∈ rows)
    (hid : column row 0 = column cells k.column) (hl : Leads cells k) :
    ∃ text, column row 1 = some text ∧
      (rows.map texts).filterMap (contribution k (texts cells)) = [text] := by
  obtain ⟨text, htext⟩ := Option.ne_none_iff_exists'.mp (column_ne_none (hn row hrow) h2)
  refine ⟨text, htext, ?_⟩
  rw [List.filterMap_map]
  refine Joins.filterMap_eq_singleton unique hrow ?_ ?_
  · have h0 := column_ne_none (hn row hrow) (show 0 < cols' by omega)
    rw [Function.comp_apply, contribution_texts ht (hn row hrow),
      if_pos ⟨h0, hid.symm, hid ▸ hl⟩, htext]
  · intro row' hrow' hne
    rw [Function.comp_apply, contribution_texts ht (hn row' hrow')] at hne
    split_ifs at hne with h
    · exact h.2.1.symm.trans hid.symm
    · exact (hne rfl).elim

theorem contributions_of_not_leads {rows : List (Fin cols' → Cell)}
    (hn : ∀ row ∈ rows, ∀ c, row c ≠ none) (ht : ∀ c, cells c ≠ none) (hl : ¬ Leads cells k) :
    (rows.map texts).filterMap (contribution k (texts cells)) = [] := by
  rw [List.filterMap_map, List.filterMap_eq_nil_iff]
  intro row hrow
  rw [Function.comp_apply, contribution_texts ht (hn row hrow), if_neg]
  rintro ⟨_, hid, hj⟩
  rw [← hid] at hj
  exact hl hj

/-! ## Resolution of a whole store -/

/-- The three vectors have an entry for each triple row, and the entries at its index
are the bytes that the node table has for its three ids. -/
structure Resolves (triple node : Execution) (vec : Part → List Str) : Prop where
  size : ∀ k, (vec k).length = triple.rows.length
  text : ∀ (k : Part) (i : ℕ) (cells : Fin triple.cols → Cell), triple.rows[i]? = some cells →
    ∃ row ∈ node.rows, stored row 0 = stored cells k.column ∧ (vec k)[i]? = stored row 1

/-- The node ids, INTEGERs that `query` turns into strings, are unique, and every id of a
triple is one of them. -/
structure WellKeyed (triple node : Execution) : Prop where
  unique : (node.rows.map (column · 0)).Nodup
  complete : ∀ cells ∈ triple.rows, ∀ k : Part,
    ∃ row ∈ node.rows, stored row 0 = stored cells k.column

/-- The texts of the nodes that a triple uses are not NULL and hold no NUL. -/
def UsesTexts (node : Execution) (cells : Fin cols → Cell) : Prop :=
  ∀ (k : Part), ∀ row ∈ node.rows, stored row 0 = stored cells k.column → (stored row 1).Textual

theorem column_congr {row : Fin cols' → Cell} {i j : ℕ} (h : stored row i = stored cells j) :
    column row i = column cells j := by
  rw [column_eq_map, column_eq_map, h]

namespace WellKeyed

theorem row_unique (hk : WellKeyed triple node) {row row' : Fin node.cols → Cell}
    (hrow : row ∈ node.rows) (hrow' : row' ∈ node.rows) (h : column row 0 = column row' 0) :
    row = row' :=
  List.inj_on_of_nodup_map hk.unique hrow hrow' h

theorem column_eq_iff (hk : WellKeyed triple node) {cells : Fin triple.cols → Cell}
    (hc : cells ∈ triple.rows) (k k' : Part) :
    column cells k.column = column cells k'.column ↔
      stored cells k.column = stored cells k'.column := by
  constructor
  · intro h
    obtain ⟨row, hrow, hid⟩ := hk.complete cells hc k
    obtain ⟨row', hrow', hid'⟩ := hk.complete cells hc k'
    obtain rfl : row = row' := hk.row_unique hrow hrow'
      ((column_congr hid).trans (h.trans (column_congr hid').symm))
    exact hid.symm.trans hid'
  · exact column_congr

theorem leads_iff_distinctIds (hk : WellKeyed triple node) {cells : Fin triple.cols → Cell}
    (hc : cells ∈ triple.rows) : (∀ k, Leads cells k) ↔ DistinctIds cells := by
  have h01 := not_congr (hk.column_eq_iff hc .s .p)
  have h02 := not_congr (hk.column_eq_iff hc .s .o)
  have h12 := not_congr (hk.column_eq_iff hc .p .o)
  simp only [Part.column] at h01 h02 h12
  simp only [Part.forall_iff, Leads, forall_lt_zero, forall_lt_one, forall_lt_two, Part.column,
    DistinctIds, true_and, ne_eq, h01, h02, h12]

end WellKeyed

section Store

variable (ht : triple.NullFree) (hn : node.NullFree) (h2 : 2 ≤ node.cols)
  (hk : WellKeyed triple node)

include ht hn h2 hk

theorem length_contributions {cells : Fin triple.cols → Cell} (hc : cells ∈ triple.rows)
    (k : Part) : ((node.rows.map texts).filterMap (contribution k (texts cells))).length ≤ 1 ∧
      (((node.rows.map texts).filterMap (contribution k (texts cells))).length = 1 ↔
        Leads cells k) := by
  obtain ⟨row, hrow, hid⟩ := hk.complete cells hc k
  by_cases hl : Leads cells k
  · obtain ⟨text, _, he⟩ :=
      contributions_of_leads h2 hn (ht cells hc) hk.unique hrow (column_congr hid) hl
    simp [he, hl]
  · simp [contributions_of_not_leads hn (ht cells hc) hl, hl]

theorem length_joined_iff (k : Part) :
    (joined (triple.rows.map texts) (node.rows.map texts) k).length = triple.rows.length ↔
      ∀ cells ∈ triple.rows, Leads cells k := by
  unfold joined
  rw [List.flatMap_map, Joins.length_flatMap_eq_iff fun cells hc =>
    (length_contributions ht hn h2 hk hc k).1]
  exact forall₂_congr fun cells hc => (length_contributions ht hn h2 hk hc k).2

theorem joined_getElem? (hl : ∀ cells ∈ triple.rows, Leads cells k) {i : ℕ}
    {cells : Fin triple.cols → Cell} (hi : triple.rows[i]? = some cells)
    {row : Fin node.cols → Cell} (hrow : row ∈ node.rows)
    (hid : stored row 0 = stored cells k.column) :
    (joined (triple.rows.map texts) (node.rows.map texts) k)[i]? = column row 1 := by
  have hc : cells ∈ triple.rows := List.mem_of_getElem? hi
  obtain ⟨text, htext, he⟩ :=
    contributions_of_leads h2 hn (ht cells hc) hk.unique hrow (column_congr hid) (hl cells hc)
  unfold joined
  rw [List.flatMap_map, Joins.getElem?_flatMap fun cells hc =>
    (length_contributions ht hn h2 hk hc k).2.mpr (hl cells hc), hi,
    Option.bind_some, he, htext]
  rfl

theorem resolves_joined_iff :
    Resolves triple node (joined (triple.rows.map texts) (node.rows.map texts)) ↔
      ∀ cells ∈ triple.rows, DistinctIds cells ∧ UsesTexts node cells := by
  constructor
  · rintro hr cells hc
    have hl : ∀ k, ∀ cells ∈ triple.rows, Leads cells k := fun k =>
      (length_joined_iff ht hn h2 hk k).mp (hr.size k)
    refine ⟨(hk.leads_iff_distinctIds hc).mp fun k => hl k cells hc, ?_⟩
    intro k row hrow hid
    obtain ⟨i, hi⟩ := List.getElem?_of_mem hc
    obtain ⟨row', hrow', hid', htext⟩ := hr.text k i cells hi
    obtain rfl : row' = row := hk.row_unique hrow' hrow (column_congr (hid'.trans hid.symm))
    rw [joined_getElem? ht hn h2 hk (hl k) hi hrow hid, column_eq_map] at htext
    exact (Cell.map_cstr_eq_self_iff (stored_ne_none (hn row' hrow) h2)).mp htext
  · rintro h
    have hl : ∀ k, ∀ cells ∈ triple.rows, Leads cells k := fun k cells hc =>
      (hk.leads_iff_distinctIds hc).mpr (h cells hc).1 k
    constructor
    · exact fun k => (length_joined_iff ht hn h2 hk k).mpr (hl k)
    · intro k i cells hi
      have hc : cells ∈ triple.rows := List.mem_of_getElem? hi
      obtain ⟨row, hrow, hid⟩ := hk.complete cells hc k
      have htext : (stored row 1).Textual := (h cells hc).2 k row hrow hid
      refine ⟨row, hrow, hid, ?_⟩
      rw [joined_getElem? ht hn h2 hk (hl k) hi hrow hid, column_eq_map]
      exact (Cell.map_cstr_eq_self_iff htext.ne_none).mpr htext

end Store

/-- On empty vectors and a well-keyed store, `getAllTriplesText` resolves every triple
exactly when no cell is NULL, no triple repeats an id and no text used holds a NUL. -/
theorem getAllTriplesText_resolves_iff (h3 : 3 ≤ triple.cols) (h2 : 2 ≤ node.cols)
    (hk : WellKeyed triple node) (hempty : ∀ k, db.vec k = []) :
    (∃ db', exec (getAllTriplesText triple node) db = (.ok ⟨⟩, db') ∧
      Resolves triple node db'.vec) ↔
    triple.NullFree ∧ node.NullFree ∧
      ∀ cells ∈ triple.rows, DistinctIds cells ∧ UsesTexts node cells := by
  by_cases hnull : triple.NullFree ∧ node.NullFree
  · obtain ⟨ht, hn⟩ := hnull
    obtain ⟨db', he, hv⟩ := exec_getAllTriplesText ht hn h3 h2 db
    have hvec : db'.vec = joined (triple.rows.map texts) (node.rows.map texts) := by
      ext k : 1
      rw [hv, hempty, List.nil_append]
    simp only [he, Prod.mk.injEq, true_and, exists_eq_left', hvec, ht, hn]
    exact resolves_joined_iff ht hn h2 hk
  · obtain ⟨db', he, _⟩ := exec_getAllTriplesText_of_null hnull db
    constructor
    · rintro ⟨db'', h, _⟩
      rw [he] at h
      simp at h
    · rintro ⟨ht, hn, _⟩
      exact (hnull ⟨ht, hn⟩).elim

def Execution.ofRows (cols : ℕ) (rows : List (Fin cols → Cell)) (code : Code) : Execution where
  prepared := true
  cols := cols
  steps := rows.foldr .row (.stop code)

def smallTriples : Execution :=
  .ofRows 3 [![some (str "1"), some (str "2"), some (str "3")],
    ![some (str "3"), some (str "2"), some (str "1")]] .done

def smallNodes : Execution :=
  .ofRows 2 [![some (str "1"), some (str "Kirill")], ![some (str "2"), some (str "has")],
    ![some (str "3"), some (str "a sister")]] .done

instance (cells : Fin cols → Cell) : Decidable (DistinctIds cells) :=
  inferInstanceAs (Decidable (_ ∧ _))

theorem wellKeyed_small : WellKeyed smallTriples smallNodes :=
  ⟨by decide, by decide⟩

theorem distinctIds_small : ∀ cells ∈ smallTriples.rows, DistinctIds cells := by decide

theorem textual_small : ∀ row ∈ smallNodes.rows, (stored row 1).Textual := by
  have h : ∀ row ∈ smallNodes.rows, stored row 1 ≠ none ∧ (stored row 1).map cstr = stored row 1 := by
    decide
  exact fun row hrow => (Cell.map_cstr_eq_self_iff (h row hrow).1).mp (h row hrow).2

theorem getAllTriplesText_resolves_small :
    ∃ db', exec (getAllTriplesText smallTriples smallNodes) .fresh = (.ok ⟨⟩, db') ∧
      Resolves smallTriples smallNodes db'.vec :=
  (getAllTriplesText_resolves_iff (by decide) (by decide) wellKeyed_small (fun _ => rfl)).mpr
    ⟨by unfold Execution.NullFree; decide, by unfold Execution.NullFree; decide,
      fun cells hc => ⟨distinctIds_small cells hc, fun _ row hrow _ => textual_small row hrow⟩⟩

def reflexiveTriple : Execution :=
  .ofRows 3 [![some (str "1"), some (str "2"), some (str "1")]] .done

/-- The object of a triple with one id twice is missing. -/
theorem getAllTriplesText_drops_repeated_id :
    WellKeyed reflexiveTriple smallNodes ∧ ¬ ∃ db',
      exec (getAllTriplesText reflexiveTriple smallNodes) .fresh = (.ok ⟨⟩, db') ∧
        Resolves reflexiveTriple smallNodes db'.vec := by
  refine ⟨⟨by decide, by decide⟩, ?_⟩
  rintro ⟨db', he, hr⟩
  have hlen : ((exec (getAllTriplesText reflexiveTriple smallNodes) .fresh).2.vec .o).length = 0 := by
    decide
  rw [he, hr.size .o] at hlen
  exact absurd hlen (by decide)

/-! ## Truncated results -/

theorem no_contribution_iff (ht : ∀ c, cells c ≠ none) (hn : ∀ c, row c ≠ none)
    (h2 : 2 ≤ cols') : (∀ k, contribution k (texts cells) (texts row) = none) ↔
      ∀ k : Part, column cells k.column ≠ column row 0 := by
  have h0 : column row 0 ≠ none := column_ne_none hn (by omega)
  have h1 : column row 1 ≠ none := column_ne_none hn (by omega)
  simp only [contribution_texts ht hn, h0, ne_eq, not_false_eq_true, true_and,
    ite_eq_right_iff, h1, imp_false, not_and, Part.forall_iff, forall_lt_zero, forall_lt_one,
    forall_lt_two, Part.column, not_true_eq_false]
  tauto

theorem joined_eq_nil_iff (ht : triple.NullFree) (hn : node.NullFree) (h2 : 2 ≤ node.cols) :
    (∀ k, joined (triple.rows.map texts) (node.rows.map texts) k = []) ↔
      ∀ cells ∈ triple.rows, ∀ row ∈ node.rows, ∀ k : Part,
        column cells k.column ≠ column row 0 := by
  simp only [joined, List.flatMap_map, List.flatMap_eq_nil_iff, List.filterMap_map,
    List.filterMap_eq_nil_iff, Function.comp_apply]
  constructor
  · intro h cells hc row hrow
    exact (no_contribution_iff (ht cells hc) (hn row hrow) h2).mp fun k => h k cells hc row hrow
  · intro h k cells hc row hrow
    exact (no_contribution_iff (ht cells hc) (hn row hrow) h2).mpr (h cells hc row hrow) k

theorem getAllTriplesText_unchanged_iff (h3 : 3 ≤ triple.cols) (h2 : 2 ≤ node.cols) :
    (exec (getAllTriplesText triple node) db).2.vec = db.vec ↔
      ¬ (triple.NullFree ∧ node.NullFree) ∨ ∀ cells ∈ triple.rows, ∀ row ∈ node.rows,
        ∀ k : Part, column cells k.column ≠ column row 0 := by
  by_cases hnull : triple.NullFree ∧ node.NullFree
  · obtain ⟨ht, hn⟩ := hnull
    obtain ⟨db', he, hv⟩ := exec_getAllTriplesText ht hn h3 h2 db
    rw [he, ← joined_eq_nil_iff ht hn h2]
    simp [funext_iff, hv, ht, hn]
  · obtain ⟨db', he, hv⟩ := exec_getAllTriplesText_of_null hnull db
    simp [he, hv, hnull]

/-- After a failed query the vectors are as before exactly when a NULL cell was met, or
no triple row read before the failure has the id of a node row read before it. -/
theorem getAllTriplesText_atomic_iff (h3 : 3 ≤ triple.cols) (h2 : 2 ≤ node.cols) :
    (triple.Fails ∨ node.Fails → (exec (getAllTriplesText triple node) db).2.vec = db.vec) ↔
      (triple.Fails ∨ node.Fails →
        ¬ (triple.NullFree ∧ node.NullFree) ∨ ∀ cells ∈ triple.rows, ∀ row ∈ node.rows,
          ∀ k : Part, column cells k.column ≠ column row 0) :=
  imp_congr_right fun _ => getAllTriplesText_unchanged_iff h3 h2

def interruptedTriples : Execution :=
  .ofRows 3 [![some (str "1"), some (str "2"), some (str "3")]] .failure

theorem getAllTriplesText_atomic_unmatched :
    (exec (getAllTriplesText interruptedTriples (.ofRows 2 [![some (str "4"), some []]] .done))
      .fresh).2.vec = State.fresh.vec :=
  (getAllTriplesText_atomic_iff (by decide) (by decide)).mpr (fun _ => Or.inr (by decide))
    (Or.inl (Or.inr (by decide)))

/-- One row of an interrupted query is loaded as if it were the store. -/
theorem getAllTriplesText_loads_truncated :
    interruptedTriples.Fails ∧
      (exec (getAllTriplesText interruptedTriples smallNodes) .fresh).2.vec ≠
        State.fresh.vec := by
  refine ⟨Or.inr (by decide), fun h => ?_⟩
  exact absurd (congrFun h .s) (by decide)

end M3Sec.Sqlite
