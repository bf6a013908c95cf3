import Mathlib.Logic.Equiv.Defs
import M3Sec.Library.Directories

/-! # Renaming directory objects

Which references the directory objects have is of no consequence: what is seen from an
object is seen from it under another name too, and the operations commute with a renaming
that keeps the next reference.
-/

namespace Directories

variable {ν φ : Type} {f : Equiv.Perm ℕ}

def Entry.rename (f : Equiv.Perm ℕ) : Entry φ → Entry φ
  | .file content => .file content
  | .directory ref => .directory (f ref)

namespace Objects

/-- The same objects, with `f r` called `r`. -/
def renamed (f : Equiv.Perm ℕ) (g : Objects ν φ) : Objects ν φ where
  entries r n := (g.entries (f r) n).map (Entry.rename f.symm)
  next := g.next

variable {g : Objects ν φ} {r : ℕ} {n : ν} {e : Entry φ} {m : ν → Option (Entry φ)}

theorem look_renamed (f : Equiv.Perm ℕ) (g : Objects ν φ) (r : ℕ) (path : List ν) :
    (g.renamed f).look r path = g.look (f r) path := by
  induction path generalizing r with
  | nil => rfl
  | cons n path ih =>
    have he : (g.renamed f).entries r n = (g.entries (f r) n).map (Entry.rename f.symm) := rfl
    rcases h : g.entries (f r) n with _ | content | ref
    · rw [look_of_none h, look_of_none (by rw [he, h]; rfl)]
    · rw [look_of_file h, look_of_file (by rw [he, h]; rfl)]
    · rw [look_of_directory h, look_of_directory (by rw [he, h]; rfl), ih, Equiv.apply_symm_apply]

theorem renamed_create (h : f g.next = g.next) :
    (g.create m).renamed f = (g.renamed f).create fun n => (m n).map (Entry.rename f.symm) := by
  have hiff : ∀ r, f r = g.next ↔ r = g.next :=
    fun r => ⟨fun hr => f.injective (hr.trans h.symm), fun hr => hr ▸ h⟩
  unfold renamed create
  congr 1
  ext r n : 2
  simp only [Function.update_apply, hiff]
  split <;> rfl

theorem renamed_bind [DecidableEq ν] :
    (g.bind (f r) n e).renamed f = (g.renamed f).bind r n (e.rename f.symm) := by
  unfold renamed bind
  congr 1
  ext r' n' : 2
  by_cases hr : r' = r
  · subst hr
    by_cases hn : n' = n <;> simp [hn]
  · simp [hr]

end Objects

end Directories
