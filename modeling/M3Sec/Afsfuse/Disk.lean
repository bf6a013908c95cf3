import M3Sec.Library.Memory
import M3Sec.Afsfuse.Server

/-! # A small machine

One directory of files and symbolic links, and a table of open descriptors. No file grows
beyond a limit: a write takes what fits. The other calls fail.
-/

namespace M3Sec.Afsfuse

open Memory

structure Disk where
  files : List (CString × Str)
  links : List (CString × CString)
  table : List (ℕ × CString)

namespace Disk

variable {d : Disk} {fd : ℤ} {n : ℕ}

def fresh (d : Disk) : ℕ := (d.table.map Prod.fst).foldr max 2 + 1

def behind (d : Disk) (fd : ℤ) : Option CString :=
  if 0 ≤ fd then d.table.lookup fd.toNat else none

/-- `DT_REG` and `DT_LNK`. -/
def entries (d : Disk) : List Dirent :=
  d.files.map (fun f => ⟨f.1, 8, 0⟩) ++ d.links.map fun l => ⟨l.1, 10, 0⟩

def perform (limit : ℕ) (d : Disk) : (c : Syscall) → Except ℕ+ c.Ret × Disk
  | .opendir _ => (.ok d.entries, d)
  | .openFile path _ =>
    if h : (d.files.lookup path).isSome ∧ d.fresh < 2 ^ 31 then
      (.ok ⟨d.fresh, h.2⟩, { d with table := (d.fresh, path) :: d.table })
    else (.error 2, d)
  | .pread fd size offset =>
    match d.behind fd with
    | none => (.error 9, d)
    | some path =>
      (.ok ⟨(((d.files.lookup path).getD []).drop offset).take size, by simp⟩, d)
  | .pwrite fd data offset =>
    match d.behind fd with
    | none => (.error 9, d)
    | some path =>
      match d.files.lookup path with
      | none => (.error 5, d)
      | some _ =>
        (.ok ⟨(data.take (limit - offset)).length, by simp⟩, { d with
          files := d.files.map fun f =>
            (f.1, if f.1 = path then splice 0 f.2 offset (data.take (limit - offset)) else f.2) })
  | .close fd =>
    match d.behind fd with
    | none => (.error 9, d)
    | some _ => (.ok (), { d with table := d.table.filter fun e => e.1 ≠ fd.toNat })
  | .symlink source target =>
    match d.links.lookup target with
    | none => (.ok (), { d with links := (target, source) :: d.links })
    | some _ => (.error 17, d)
  | .readlink path size =>
    match d.links.lookup path with
    | none => (.error 2, d)
    | some contents => (.ok ⟨contents.val.take size, by simp⟩, d)
  | _ => (.error 38, d)

theorem behind_of_neg (h : fd < 0) : d.behind fd = none := if_neg (Int.not_le.mpr h)

def os (limit : ℕ) : Os Disk where
  perform c d := d.perform limit c
  badf := by
    rintro c fd d hc hfd
    cases c with
    | pread _ _ _ | pwrite _ _ _ | close _ =>
      obtain rfl := Option.some.inj hc
      exact ⟨9, by simp [perform, behind_of_neg hfd]⟩
    | _ => cases hc

end Disk

end M3Sec.Afsfuse
