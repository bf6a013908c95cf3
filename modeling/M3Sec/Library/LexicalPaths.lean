import Mathlib.Data.List.Induction
import Mathlib.Data.List.Infix

/-! # Paths resolved by their components

A path is walked from the root, one component after the other: some components stay where
they are, some go up (the root is its own parent), the others go down by a name. The first
name of the resolved path is the last name by which the walk left the root, so it is found
by counting the ups and downs behind it.
-/

namespace LexicalPaths

variable {ν : Type}

inductive Step (ν : Type) where
  | stay
  | up
  | down (name : ν)

def walk (place : List ν) : Step ν → List ν
  | .stay => place
  | .up => place.dropLast
  | .down n => place ++ [n]

/-- Where a path leads from the root, as the names from the root on. -/
def resolve (path : List (Step ν)) : List ν := path.foldl walk []

def ups : List (Step ν) → ℕ
  | [] => 0
  | .up :: path => ups path + 1
  | _ :: path => ups path

def downs : List (Step ν) → ℕ
  | [] => 0
  | .down _ :: path => downs path + 1
  | _ :: path => downs path

/-- No first part of the path goes up more often than down. -/
def StaysBelow (path : List (Step ν)) : Prop := ∀ q, q <+: path → ups q ≤ downs q

variable {path pre post : List (Step ν)} {s : Step ν} {n : ν}

theorem resolve_snoc : resolve (path ++ [s]) = walk (resolve path) s := by
  simp [resolve]

theorem ups_append : ups (pre ++ post) = ups pre + ups post := by
  induction pre with
  | nil => simp [ups]
  | cons s pre ih =>
    cases s with
    | stay | down m => exact ih
    | up =>
      simp only [List.cons_append, ups, ih]
      omega

theorem downs_append : downs (pre ++ post) = downs pre + downs post := by
  induction pre with
  | nil => simp [downs]
  | cons s pre ih =>
    cases s with
    | stay | up => exact ih
    | down m =>
      simp only [List.cons_append, downs, ih]
      omega

theorem staysBelow_nil : StaysBelow ([] : List (Step ν)) := by
  intro q hq
  obtain rfl := List.prefix_nil.mp hq
  exact le_rfl

theorem staysBelow_snoc :
    StaysBelow (path ++ [s]) ↔ StaysBelow path ∧ ups (path ++ [s]) ≤ downs (path ++ [s]) := by
  constructor
  · intro h
    exact ⟨fun q hq => h q (hq.trans (List.prefix_append _ _)), h _ List.prefix_rfl⟩
  · rintro ⟨h, hs⟩ q hq
    rcases List.prefix_concat_iff.mp hq with rfl | hq
    · exact hs
    · exact h q hq

theorem foldl_walk (h : StaysBelow path) (place : List ν) : ∃ rest,
    path.foldl walk place = place ++ rest ∧ rest.length + ups path = downs path := by
  induction path using List.reverseRecOn with
  | nil => exact ⟨[], by simp [ups, downs]⟩
  | append_singleton path s ih =>
    obtain ⟨h, hs⟩ := staysBelow_snoc.mp h
    obtain ⟨rest, hrest, hlen⟩ := ih h
    simp only [ups_append, downs_append] at hs ⊢
    rw [List.foldl_append, hrest]
    cases s with
    | stay => exact ⟨rest, rfl, by simpa [ups, downs] using hlen⟩
    | down n => exact ⟨rest ++ [n], by simp [walk], by simp [ups, downs]; omega⟩
    | up =>
      have hne : rest ≠ [] := by
        rintro rfl
        simp [ups, downs] at hs hlen
        omega
      refine ⟨rest.dropLast, List.dropLast_append_of_ne_nil hne, ?_⟩
      have hpos := List.length_pos_iff.mpr hne
      simp [ups, downs]
      omega

theorem resolve_down (hpre : resolve pre = []) (hpost : StaysBelow post) (n : ν) : ∃ rest,
    resolve (pre ++ .down n :: post) = n :: rest ∧ rest.length + ups post = downs post := by
  rw [resolve, List.foldl_append, ← resolve, hpre]
  exact foldl_walk hpost [n]

theorem head?_walk {place : List ν} (h : (walk place s).head? = some n) :
    place = [] ∧ s = .down n ∨ place.head? = some n := by
  cases place with
  | nil =>
    cases s with
    | stay | up => cases h
    | down m =>
      obtain rfl := Option.some.inj h
      exact Or.inl ⟨rfl, rfl⟩
  | cons m place =>
    right
    cases s with
    | stay | down => exact h
    | up =>
      cases place with
      | nil => cases h
      | cons m' place => exact h

/-- A path that came by the root stays below as long as it does not come by it again. -/
theorem ups_le_downs (hpre : resolve pre = []) (hpost : StaysBelow post)
    (h : (walk (resolve (pre ++ .down n :: post)) s).head? = some n) :
    ups (post ++ [s]) ≤ downs (post ++ [s]) := by
  obtain ⟨rest, hplace, hlen⟩ := resolve_down hpre hpost n
  rw [ups_append, downs_append]
  cases s with
  | stay | down m =>
    simp [ups, downs]
    omega
  | up =>
    have hne : rest ≠ [] := by
      rintro rfl
      rw [hplace] at h
      cases h
    have hpos := List.length_pos_iff.mpr hne
    simp [ups, downs]
    omega

/-- The first name of a resolved path is the one by which the root was left for good. -/
theorem head?_resolve_iff : (resolve path).head? = some n ↔
    ∃ pre post, path = pre ++ .down n :: post ∧ resolve pre = [] ∧ StaysBelow post := by
  constructor
  · induction path using List.reverseRecOn with
    | nil => simp [resolve]
    | append_singleton path s ih =>
      rw [resolve_snoc]
      rintro h
      rcases head?_walk h with ⟨hroot, rfl⟩ | hhead
      · exact ⟨path, [], rfl, hroot, staysBelow_nil⟩
      · obtain ⟨pre, post, rfl, hpre, hpost⟩ := ih hhead
        have hs := ups_le_downs hpre hpost h
        exact ⟨pre, post ++ [s], by simp, hpre, staysBelow_snoc.mpr ⟨hpost, hs⟩⟩
  · rintro ⟨pre, post, rfl, hpre, hpost⟩
    obtain ⟨rest, hplace, -⟩ := resolve_down hpre hpost n
    rw [hplace]
    rfl

end LexicalPaths
