import M3Sec.Sqlite.RowOrder
import M3Sec.Vfs.Trees

/-! # The program `sibfs`

`main` loads the triples of the file `X` and mounts what it has loaded; no exception is
caught on the way. A triple with one id twice leaves a vector shorter than the others, so
whether the mount is reached depends on how many such triples there are, and of which kind.
-/

namespace M3Sec.Sqlite

open Fallible Directories

variable {fk : Vfs.Fusekit} {r : OpenResult} {triple node : Execution} {cols : ℕ}
  {cells : Fin cols → Cell} {k : Part}

structure Process where
  db : State
  fs : Vfs.Fs

def Process.start : Process := ⟨.fresh, .fresh⟩

def onDb {α : Type} : Fallible State Exception α → Fallible Process Exception α :=
  onPart (·.db) fun db s => { s with db := db }

def onFs {α : Type} : Fallible Vfs.Fs Exception α → Fallible Process Exception α :=
  onPart (·.fs) fun fs s => { s with fs := fs }

/-- `main` up to `daemon.run`, given how `sqlite3_open` ends and what SQLite answers. -/
def main (fk : Vfs.Fusekit) (r : OpenResult) (triple node : Execution) :
    Fallible Process Exception PUnit := do
  onDb (construct r)
  onDb (getAllTriplesText triple node)
  let s ← get
  onFs (Vfs.Program.build .sqlite fk s.db.S s.db.P s.db.O)

/-! ## What is loaded -/

/-- A triple row gets a text for a part: the id is new in the row and there is a node with it. -/
def Loads (node : Execution) (cells : Fin cols → Cell) (k : Part) : Prop :=
  Leads cells k ∧ ∃ row ∈ node.rows, column row 0 = column cells k.column

/-- The text of a predicate that some triple row gets. -/
def IsPredicate (triple node : Execution) (name : Str) : Prop :=
  ∃ cells ∈ triple.rows, Leads cells .p ∧
    ∃ row ∈ node.rows, column row 0 = column cells Part.p.column ∧ column row 1 = some name

instance (cells : Fin cols → Cell) (k : Part) : Decidable (Leads cells k) :=
  inferInstanceAs (Decidable (∀ j < k.column, _))

instance (node : Execution) (cells : Fin cols → Cell) (k : Part) :
    Decidable (Loads node cells k) := inferInstanceAs (Decidable (_ ∧ _))

instance (triple node : Execution) : DecidablePred (IsPredicate triple node) :=
  fun _ => inferInstanceAs (Decidable (∃ _ ∈ _, _))

theorem mem_contributions_iff (hn : node.NullFree) (ht : ∀ c, cells c ≠ none) (h2 : 2 ≤ node.cols)
    (text : Str) : text ∈ (node.rows.map texts).filterMap (contribution k (texts cells)) ↔
      Leads cells k ∧
        ∃ row ∈ node.rows, column row 0 = column cells k.column ∧ column row 1 = some text := by
  have hrow : ∀ row ∈ node.rows, contribution k (texts cells) (texts row) = some text ↔
      Leads cells k ∧ column row 0 = column cells k.column ∧ column row 1 = some text := by
    intro row hrow
    have h0 : column row 0 ≠ none := column_ne_none (hn row hrow) (by omega)
    rw [contribution_texts ht (hn row hrow), Option.ite_none_right_eq_some]
    constructor
    · rintro ⟨⟨-, hid, hlead⟩, htext⟩
      exact ⟨fun j hj => hid ▸ hlead j hj, hid.symm, htext⟩
    · rintro ⟨hlead, hid, htext⟩
      exact ⟨⟨h0, hid.symm, fun j hj => hid ▸ hlead j hj⟩, htext⟩
  simp only [List.mem_filterMap, List.mem_map, exists_exists_and_eq_and]
  constructor
  · rintro ⟨row, hr, htext⟩
    obtain ⟨hlead, hid⟩ := (hrow row hr).mp htext
    exact ⟨hlead, row, hr, hid⟩
  · rintro ⟨hlead, row, hr, hid⟩
    exact ⟨row, hr, (hrow row hr).mpr ⟨hlead, hid⟩⟩

theorem length_contributions_loads (hn : node.NullFree) (ht : ∀ c, cells c ≠ none)
    (h2 : 2 ≤ node.cols) (hu : (node.rows.map (column · 0)).Nodup) :
    ((node.rows.map texts).filterMap (contribution k (texts cells))).length =
      if Loads node cells k then 1 else 0 := by
  split_ifs with h
  · obtain ⟨hlead, row, hrow, hid⟩ := h
    obtain ⟨text, -, htext⟩ := contributions_of_leads h2 hn ht hu hrow hid hlead
    rw [htext]
    rfl
  · rw [List.length_eq_zero_iff, List.eq_nil_iff_forall_not_mem]
    intro text htext
    obtain ⟨hlead, row, hrow, hid, -⟩ := (mem_contributions_iff hn ht h2 text).mp htext
    exact h ⟨hlead, row, hrow, hid⟩

section Store

variable (ht : triple.NullFree) (hn : node.NullFree) (h2 : 2 ≤ node.cols)

include ht hn h2

theorem length_joined (hu : node.UniqueIds) (k : Part) :
    (joined (triple.rows.map texts) (node.rows.map texts) k).length =
      triple.rows.countP fun cells => Loads node cells k := by
  unfold joined
  rw [List.flatMap_map]
  apply Joins.length_flatMap_eq_countP
  intro cells hc
  simpa using length_contributions_loads hn (ht cells hc) h2 (nodup_of_uniqueIds hn h2 hu)

theorem mem_joined_iff (name : Str) :
    name ∈ joined (triple.rows.map texts) (node.rows.map texts) .p ↔
      IsPredicate triple node name := by
  simp only [joined, List.flatMap_map, List.mem_flatMap, IsPredicate]
  refine exists_congr fun cells => and_congr_right fun hc => ?_
  exact mem_contributions_iff hn (ht cells hc) h2 name

end Store

theorem nul_not_mem_of_isPredicate {name : Str} (h : IsPredicate triple node name) : 0 ∉ name := by
  obtain ⟨-, -, -, row, -, -, htext⟩ := h
  unfold column at htext
  split_ifs at htext with h1
  obtain ⟨bytes, -, rfl⟩ := Option.map_eq_some_iff.mp htext
  exact zero_not_mem_cstr bytes

/-! ## What is mounted -/

theorem exec_construct (r : OpenResult) :
    ∃ db, exec (construct r) .fresh = (.ok ⟨⟩, db) ∧ ∀ k, db.vec k = [] := by
  cases r <;> exact ⟨_, rfl, fun _ => rfl⟩

/-- Without NULL cells `main` ends as the builder does on what is loaded. -/
theorem exec_main (fk : Vfs.Fusekit) (r : OpenResult) (h3 : 3 ≤ triple.cols)
    (h2 : 2 ≤ node.cols) (ht : triple.NullFree) (hn : node.NullFree) :
    ∃ db S, exec (main fk r triple node) .start =
      (exec (onFs (Vfs.Program.build .sqlite fk S
        (joined (triple.rows.map texts) (node.rows.map texts) .p)
        (joined (triple.rows.map texts) (node.rows.map texts) .o))) ⟨db, .fresh⟩) := by
  obtain ⟨db, hdb, hempty⟩ := exec_construct r
  obtain ⟨db', hdb', hvec⟩ := exec_getAllTriplesText ht hn h3 h2 db
  have hmade : exec (onDb (construct r)) .start = (.ok ⟨⟩, ⟨db, .fresh⟩) := by
    simp [onDb, Process.start, hdb]
  have hloaded : exec (onDb (getAllTriplesText triple node)) ⟨db, .fresh⟩ =
      (.ok ⟨⟩, ⟨db', .fresh⟩) := by
    simp [onDb, hdb']
  have hjoined : ∀ k, db'.vec k = joined (triple.rows.map texts) (node.rows.map texts) k := by
    intro k
    rw [hvec, hempty, List.nil_append]
  refine ⟨db', db'.S, ?_⟩
  unfold main
  rw [exec_bind_ok hmade, exec_bind_ok hloaded, exec_bind_ok (exec_get _), ← hjoined, ← hjoined]
  rfl

theorem exec_main_of_null (fk : Vfs.Fusekit) (r : OpenResult)
    (h : ¬ (triple.NullFree ∧ node.NullFree)) :
    ∃ s, exec (main fk r triple node) .start = (.error .logicError, s) := by
  obtain ⟨db, hdb, -⟩ := exec_construct r
  obtain ⟨db', hdb', -⟩ := exec_getAllTriplesText_of_null h db
  have hmade : exec (onDb (construct r)) .start = (.ok ⟨⟩, ⟨db, .fresh⟩) := by
    simp [onDb, Process.start, hdb]
  have hthrown : exec (onDb (getAllTriplesText triple node)) ⟨db, .fresh⟩ =
      (.error .logicError, ⟨db', .fresh⟩) := by
    simp [onDb, hdb']
  refine ⟨⟨db', .fresh⟩, ?_⟩
  unfold main
  rw [exec_bind_ok hmade, exec_bind_error hthrown]

theorem nullFree_of_main {s : Process} (hs : exec (main fk r triple node) .start = (.ok ⟨⟩, s)) :
    triple.NullFree ∧ node.NullFree := by
  by_contra hnull
  obtain ⟨s', hs'⟩ := exec_main_of_null fk r hnull
  rw [hs] at hs'
  cases hs'

theorem build_of_main (h3 : 3 ≤ triple.cols) (h2 : 2 ≤ node.cols) {s : Process}
    (hs : exec (main fk r triple node) .start = (.ok ⟨⟩, s)) :
    ∃ S, exec (Vfs.Program.build .sqlite fk S
      (joined (triple.rows.map texts) (node.rows.map texts) .p)
      (joined (triple.rows.map texts) (node.rows.map texts) .o)) .fresh = (.ok ⟨⟩, s.fs) := by
  obtain ⟨ht, hn⟩ := nullFree_of_main hs
  obtain ⟨db, S, hmain⟩ := exec_main fk r h3 h2 ht hn
  rw [hmain, onFs, exec_onPart] at hs
  obtain ⟨hok, rfl⟩ := Prod.mk.inj hs
  exact ⟨S, Prod.ext hok rfl⟩

/-- `sibfs` mounts a store exactly when no cell is NULL and the triples that load an object are
at least as many as those that load a predicate. -/
theorem main_mounts_iff (h3 : 3 ≤ triple.cols) (h2 : 2 ≤ node.cols) (hu : node.UniqueIds) :
    (∃ s, exec (main fk r triple node) .start = (.ok ⟨⟩, s)) ↔
      triple.NullFree ∧ node.NullFree ∧
        (triple.rows.countP fun cells => Loads node cells .p) ≤
          triple.rows.countP fun cells => Loads node cells .o := by
  constructor
  · rintro ⟨s, hs⟩
    obtain ⟨ht, hn⟩ := nullFree_of_main hs
    obtain ⟨S, hS⟩ := build_of_main h3 h2 hs
    have hle := Vfs.length_le_of_build (by decide) hS
    rw [length_joined ht hn h2 hu, length_joined ht hn h2 hu] at hle
    exact ⟨ht, hn, hle⟩
  · rintro ⟨ht, hn, hle⟩
    rw [← length_joined ht hn h2 hu, ← length_joined ht hn h2 hu] at hle
    obtain ⟨db, S, hmain⟩ := exec_main fk r h3 h2 ht hn
    obtain ⟨fs, hfs, -⟩ := Vfs.build_mounted .sqlite hle
    refine ⟨⟨db, fs⟩, hmain.trans ?_⟩
    rw [onFs, exec_onPart, hfs]

/-- A triple whose subject is its object is not mounted: its predicate has no object to go
with it. -/
theorem main_mounts_reflexive :
    ¬ ∃ s, exec (main ⟨.keep, .keep⟩ .ok reflexiveTriple smallNodes) .start = (.ok ⟨⟩, s) := by
  have hu : smallNodes.UniqueIds := by
    unfold Execution.UniqueIds
    decide
  rw [main_mounts_iff (by decide) (by decide) hu]
  rintro ⟨-, -, hle⟩
  exact absurd hle (by decide)

/-- Whatever is mounted shows the predicates that were loaded, as the texts of their nodes up to
the first NUL. -/
theorem look_main (h3 : 3 ≤ triple.cols) (h2 : 2 ≤ node.cols) {s : Process}
    (hs : exec (main fk r triple node) .start = (.ok ⟨⟩, s)) (path : List Str) :
    s.fs.look Vfs.root path = Vfs.storeTree (IsPredicate triple node) path := by
  obtain ⟨ht, hn⟩ := nullFree_of_main hs
  obtain ⟨S, hS⟩ := build_of_main h3 h2 hs
  have hmem := mem_joined_iff ht hn h2
  have hP : ∀ p ∈ joined (triple.rows.map texts) (node.rows.map texts) .p, 0 ∉ p :=
    fun p hp => nul_not_mem_of_isPredicate ((hmem p).mp hp)
  rw [Vfs.look_of_build hS, Vfs.mountedView_eq_storeTree fk hP, Vfs.storeTree_congr hmem]

theorem look_main_small : ∃ s,
    exec (main ⟨.keep, .keep⟩ .ok smallTriples smallNodes) .start = (.ok ⟨⟩, s) ∧
      s.fs.look Vfs.root [str "predicates", str "has"] = some (.file (str "has")) := by
  have hs : exec (main ⟨.keep, .keep⟩ .ok smallTriples smallNodes) .start = (.ok ⟨⟩, _) := rfl
  refine ⟨_, hs, ?_⟩
  rw [look_main (by decide) (by decide) hs]
  decide

end M3Sec.Sqlite
