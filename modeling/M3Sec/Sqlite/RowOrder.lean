import M3Sec.Sqlite.Resolution

/-! # The order of the node rows

A triple takes at most one text for each vector if the node ids are unique. What
`getAllTriplesText` appends then depends on the rows of the node table and not on the order
in which SQLite delivers them.
-/

namespace M3Sec.Sqlite

open Fallible

variable {triple node : Execution} {steps : Steps node.cols} {cols cols' : ℕ}
  {rows rows' : List (Fin cols' → Cell)} {cells : Fin cols → Cell} {row : Fin cols' → Cell}
  {k : Part}

def Execution.UniqueIds (node : Execution) : Prop :=
  (node.rows.filterMap (column · 0)).Nodup

/-- `getAllTriplesText` appends the same to the vectors of every `DB`. -/
def Appends (triple node : Execution) (new : Part → List Str) : Prop :=
  ∀ db k, (exec (getAllTriplesText triple node) db).2.vec k = db.vec k ++ new k

theorem id_of_contribution (ht : ∀ c, cells c ≠ none) (hn : ∀ c, row c ≠ none)
    (h : contribution k (texts cells) (texts row) ≠ none) :
    column row 0 = column cells k.column := by
  rw [contribution_texts ht hn] at h
  split_ifs at h with hid
  · exact hid.2.1.symm
  · exact (h rfl).elim

theorem contributions_perm (hp : rows.Perm rows') (hn : ∀ row ∈ rows, ∀ c, row c ≠ none)
    (ht : ∀ c, cells c ≠ none) (hu : (rows.map (column · 0)).Nodup) :
    (rows.map texts).filterMap (contribution k (texts cells)) =
      (rows'.map texts).filterMap (contribution k (texts cells)) := by
  rw [List.filterMap_map, List.filterMap_map]
  apply Joins.filterMap_eq_of_perm hp hu
  intro r hr r' hr' hne hne'
  have hid : column r 0 = column cells k.column := id_of_contribution ht (hn r hr) hne
  have hid' : column r' 0 = column cells k.column := id_of_contribution ht (hn r' hr') hne'
  exact hid'.trans hid.symm

theorem nodup_of_uniqueIds (hn : node.NullFree) (h2 : 2 ≤ node.cols) (hu : node.UniqueIds) :
    (node.rows.map (column · 0)).Nodup := by
  have hids : node.rows.map (column · 0) = (node.rows.filterMap (column · 0)).map some := by
    rw [List.map_filterMap, ← List.filterMap_eq_map]
    apply List.filterMap_congr
    rintro row hrow
    obtain ⟨id, hid⟩ := Option.ne_none_iff_exists'.mp
      (column_ne_none (hn row hrow) (show 0 < node.cols by omega))
    simp [hid]
  rw [hids]
  exact hu.map (Option.some_injective _)

theorem rows_perm (hp : node.steps.rows.Perm steps.rows) :
    node.rows.Perm { node with steps := steps }.rows := by
  unfold Execution.rows
  split_ifs
  · exact hp
  · exact .nil

theorem nullFree_of_perm (hp : node.steps.rows.Perm steps.rows) (hn : node.NullFree) :
    { node with steps := steps }.NullFree :=
  fun cells hc => hn cells ((rows_perm hp).symm.subset hc)

theorem nullFree_iff_of_perm (hp : node.steps.rows.Perm steps.rows) :
    { node with steps := steps }.NullFree ↔ node.NullFree :=
  ⟨nullFree_of_perm hp.symm, nullFree_of_perm hp⟩

theorem joined_perm (hp : node.steps.rows.Perm steps.rows) (ht : triple.NullFree)
    (hn : node.NullFree) (h2 : 2 ≤ node.cols) (hu : node.UniqueIds) :
    joined (triple.rows.map texts) (node.rows.map texts) =
      joined (triple.rows.map texts) ({ node with steps := steps }.rows.map texts) := by
  ext k : 1
  unfold joined
  rw [List.flatMap_map, List.flatMap_map]
  apply List.flatMap_congr
  rintro cells hc
  exact contributions_perm (rows_perm hp) hn (ht cells hc) (nodup_of_uniqueIds hn h2 hu)

theorem appends_joined (ht : triple.NullFree) (hn : node.NullFree) (h3 : 3 ≤ triple.cols)
    (h2 : 2 ≤ node.cols) :
    Appends triple node (joined (triple.rows.map texts) (node.rows.map texts)) := by
  intro db k
  obtain ⟨db', he, hv⟩ := exec_getAllTriplesText ht hn h3 h2 db
  rw [he]
  exact hv k

theorem appends_nothing (h : ¬ (triple.NullFree ∧ node.NullFree)) :
    Appends triple node fun _ => [] := by
  intro db k
  obtain ⟨db', he, hv⟩ := exec_getAllTriplesText_of_null h db
  rw [he, List.append_nil]
  exact congrFun hv k

/-- With unique ids, the node rows in any order resolve a triple table to the same vectors. -/
theorem getAllTriplesText_rowOrder (h3 : 3 ≤ triple.cols) (h2 : 2 ≤ node.cols)
    (hu : node.UniqueIds) (hp : node.steps.rows.Perm steps.rows) :
    ∃ new, Appends triple node new ∧ Appends triple { node with steps := steps } new := by
  by_cases hnull : triple.NullFree ∧ node.NullFree
  · obtain ⟨ht, hn⟩ := hnull
    refine ⟨_, appends_joined ht hn h3 h2, ?_⟩
    rw [joined_perm hp ht hn h2 hu]
    exact appends_joined ht (nullFree_of_perm hp hn) h3 h2
  · refine ⟨_, appends_nothing hnull, appends_nothing ?_⟩
    rwa [nullFree_iff_of_perm hp]

def turnedSteps : Steps 2 :=
  .row ![some (str "3"), some (str "a sister")] <| .row ![some (str "1"), some (str "Kirill")] <|
    .row ![some (str "2"), some (str "has")] <| .stop .done

theorem turnedSteps_perm : smallNodes.steps.rows.Perm turnedSteps.rows :=
  @List.perm_append_comm _ (smallNodes.steps.rows.take 2) (smallNodes.steps.rows.drop 2)

theorem getAllTriplesText_rowOrder_small :
    ∃ new, Appends reflexiveTriple smallNodes new ∧
      Appends reflexiveTriple { smallNodes with steps := turnedSteps } new := by
  have hu : smallNodes.UniqueIds := by
    unfold Execution.UniqueIds
    decide
  exact getAllTriplesText_rowOrder (by decide) (by decide) hu turnedSteps_perm

end M3Sec.Sqlite
