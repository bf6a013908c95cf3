import M3Sec.Afsfuse.Paths
import M3Sec.Library.Loops

/-! # The scan of a path

`IsAllowedPath` has an index, a pointer and a counter for the slashes. A round that leaves
the pointer where it is would need three slashes, and with the third the loop is over: so the
pointer follows the index, and what is accepted depends on the characters before that slash.
-/

namespace M3Sec.Afsfuse

open Fallible

variable {path : CString} {behind : ℕ → UInt8} {n : ℕ}

/-- The index, where the pointer points, and how many slashes were met. -/
structure Scan where
  i : ℕ
  p : ℕ
  backCount : ℕ

/-- The indices and pointers with which the condition of the loop was reached, and the places
that were read. -/
structure Looks where
  heads : List (ℕ × ℕ)
  reads : List ℕ

abbrev Looking (α : Type) := Fallible Looks Empty α

def reach (v : Scan) : Looking Unit := modify fun s => { s with heads := s.heads ++ [(v.i, v.p)] }

/-- `*p`: a character, the terminating NUL, or what lies behind it. -/
def look (path : CString) (behind : ℕ → UInt8) (p : ℕ) : Looking UInt8 := do
  modify fun s => { s with reads := s.reads ++ [p] }
  return (path.val ++ [0]).getD p (behind p)

def Scan.label (v : Scan) : Round Scan Bool :=
  if v.backCount = 3 then .done true
  else .next { v with i := v.i + 1, p := v.p + 1 }

def Scan.switch (v : Scan) (c : UInt8) : Round Scan Bool :=
  if c = 47 then { v with backCount := v.backCount + 1 }.label
  else if c ∈ labels then v.label
  else if v.backCount < 3 then .done false
  else .next { v with i := v.i + 1 }

/-- A round of the loop, where `len` is the length as an `int`. -/
def isAllowedPathRound (path : CString) (behind : ℕ → UInt8) (len : ℤ) (v : Scan) :
    Looking (Round Scan Bool) := do
  reach v
  if (v.i : ℤ) < len then
    let c ← look path behind v.p
    return v.switch c
  else return .done true

def isAllowedPathScan (path : CString) (behind : ℕ → UInt8) (n : ℕ) : Looking (Option Bool) :=
  let len := (UInt32.ofNat path.val.length).toInt32.toInt
  loop (isAllowedPathRound path behind len) n ⟨0, 0, 0⟩

/-- Pointer and index are together and in the string, and only characters are read. -/
structure Looks.Inside (path : CString) (s : Looks) : Prop where
  heads : ∀ head ∈ s.heads, head.2 = head.1 ∧ head.1 ≤ path.val.length
  reads : ∀ p ∈ s.reads, p < path.val.length

/-- The loop has still to find out what `isAllowedPath` says. -/
structure Scan.Follows (path : CString) (v : Scan) : Prop where
  pointer : v.p = v.i
  index : v.i ≤ path.val.length
  slashes : v.backCount < 3
  result : isAllowedPathLoop (path.val.length - v.i) (path.val.drop v.i) v.backCount =
    isAllowedPath path

theorem reach_ensures {v : Scan} {E : Empty → Looks → Prop} (hv : v.Follows path) :
    Ensures (Looks.Inside path) (reach v) (fun _ => Looks.Inside path) E := by
  refine .modify fun s hs => ⟨?_, hs.reads⟩
  rintro head hhead
  rcases List.mem_append.mp hhead with hold | hnew
  · exact hs.heads head hold
  · obtain rfl := List.mem_singleton.mp hnew
    exact ⟨hv.pointer, hv.index⟩

theorem look_ensures {p : ℕ} {E : Empty → Looks → Prop} (hp : p < path.val.length) :
    Ensures (Looks.Inside path) (look path behind p)
      (fun c s => c = path.val[p] ∧ s.Inside path) E := by
  refine Ensures.bind (Q := fun _ => Looks.Inside path) (.modify fun s hs => ⟨hs.heads, ?_⟩)
    fun _ => .pure fun s hs => ⟨?_, hs⟩
  · rintro q hq
    rcases List.mem_append.mp hq with hold | hnew
    · exact hs.reads q hold
    · obtain rfl := List.mem_singleton.mp hnew
      exact hp
  · simp [List.getElem?_append_left hp, List.getElem?_eq_getElem hp]

theorem Scan.Follows.switch {v : Scan} (h : v.Follows path) (hi : v.i < path.val.length) :
    (v.switch path.val[v.i]).Holds (fun v' => v'.Follows path ∧ v'.i = v.i + 1)
      fun accepted => accepted = isAllowedPath path := by
  obtain ⟨hpointer, -, hslashes, hresult⟩ := h
  have hleft : path.val.length - v.i = (path.val.length - (v.i + 1)) + 1 := by omega
  have hdrop : path.val.drop v.i = path.val[v.i] :: path.val.drop (v.i + 1) :=
    List.drop_eq_getElem_cons hi
  rw [hleft, hdrop] at hresult
  simp only [isAllowedPathLoop, List.headD_cons, List.tail_cons] at hresult
  unfold Scan.switch Scan.label
  have hne : v.backCount ≠ 3 := by omega
  split_ifs at hresult ⊢ with hslash hthird hlabel
  · exact hresult
  · exact ⟨⟨by rw [hpointer], hi, lt_of_le_of_ne hslashes hthird, hresult⟩, rfl⟩
  · exact ⟨⟨by rw [hpointer], hi, hslashes, hresult⟩, rfl⟩
  · exact hresult

variable (behind) in
theorem isAllowedPathRound_ensures {E : Empty → Looks → Prop} (v : Scan) (k : ℕ) :
    Ensures (fun s => (v.Follows path ∧ s.Inside path) ∧ path.val.length - v.i = k)
      (isAllowedPathRound path behind path.val.length v)
      (fun r t => r.Holds
        (fun v' => (v'.Follows path ∧ t.Inside path) ∧ path.val.length - v'.i < k)
        fun accepted => accepted = isAllowedPath path ∧ t.Inside path) E := by
  rintro s ⟨⟨hv, hs⟩, hk⟩
  refine ((reach_ensures hv).bind fun _ => ?_) s hs
  by_cases hi : v.i < path.val.length
  · rw [if_pos (by exact_mod_cast hi)]
    refine (look_ensures (hv.pointer ▸ hi)).bind fun c => .pure ?_
    rintro t ⟨hc, ht⟩
    have hswitch := hv.switch hi
    have hchar : c = path.val[v.i] := by simp only [hc, hv.pointer]
    rw [← hchar] at hswitch
    revert hswitch
    cases v.switch c with
    | next v' =>
      rintro ⟨hv', hnext⟩
      exact ⟨⟨hv', ht⟩, by omega⟩
    | done accepted => exact fun haccepted => ⟨haccepted, ht⟩
  · rw [if_neg (by exact_mod_cast hi)]
    refine .pure fun t ht => ⟨?_, ht⟩
    have hend : path.val.length - v.i = 0 := by omega
    rw [← hv.result, hend]
    rfl

variable (behind) in
theorem exec_isAllowedPathScan (h : path.val.length < 2 ^ 31) (hn : path.val.length < n) :
    ∃ s, exec (isAllowedPathScan path behind n) ⟨[], []⟩ = (.ok (some (isAllowedPath path)), s) ∧
      s.Inside path := by
  have hlen : (UInt32.ofNat path.val.length).toInt32.toInt = path.val.length := by
    have hnat : (UInt32.ofNat path.val.length).toNat = path.val.length := by
      rw [UInt32.toNat_ofNat']
      omega
    rw [toInt_toInt32 (by omega), hnat]
  have hstart : (⟨0, 0, 0⟩ : Scan).Follows path := ⟨rfl, Nat.zero_le _, Nat.zero_lt_succ _, rfl⟩
  have hempty : (⟨[], []⟩ : Looks).Inside path := ⟨by simp, by simp⟩
  have hloop := Ensures.loop (E := fun _ _ => False) (fun (v : Scan) _ => path.val.length - v.i)
    (isAllowedPathRound_ensures behind) n ⟨0, 0, 0⟩
  obtain ⟨r, s, hs, accepted, rfl, haccepted, hinside⟩ :=
    hloop.returns ⟨⟨hstart, hempty⟩, by rwa [Nat.sub_zero]⟩
  refine ⟨s, ?_, hinside⟩
  rw [← haccepted, ← hs, isAllowedPathScan, hlen]

/-- Every character before the third `/` is in the alphabet. -/
def Grammatical (path : CString) : Prop := ∀ (i : ℕ) (c : UInt8), path.val[i]? = some c →
  (path.val.take i).count 47 < 3 → c ∈ str "/puneibmcoafs."

theorem isAllowedPath_iff : isAllowedPath path = true ↔ Grammatical path := by
  have hlabels : str "/puneibmcoafs." = 47 :: labels := by decide
  rw [isAllowedPath, isAllowedPathLoop_iff (by decide)]
  unfold LabelsUntil Grammatical
  simp only [hlabels, List.mem_cons, Nat.add_zero]

/-- The scan ends, accepts its grammar, and has the pointer at the index all the time. -/
theorem scan_accepts_iff (path : CString) (behind : ℕ → UInt8) (n : ℕ)
    (h : path.val.length < 2 ^ 31) (hn : path.val.length < n) : ∃ accepted s,
      exec (isAllowedPathScan path behind n) ⟨[], []⟩ = (.ok (some accepted), s) ∧
        (accepted = true ↔ Grammatical path) ∧ s.Inside path := by
  obtain ⟨s, hs, hinside⟩ := exec_isAllowedPathScan behind h hn
  exact ⟨_, s, hs, isAllowedPath_iff, hinside⟩

/-- A path with an `x` before the third slash. -/
theorem scan_accepts_iff_small : ∃ accepted s,
    exec (isAllowedPathScan ⟨str "/afs/x", by decide⟩ (fun _ => 0) 7) ⟨[], []⟩ =
      (.ok (some accepted), s) ∧
        (accepted = true ↔ Grammatical ⟨str "/afs/x", by decide⟩) ∧
          s.Inside ⟨str "/afs/x", by decide⟩ :=
  scan_accepts_iff ⟨str "/afs/x", by decide⟩ (fun _ => 0) 7 (by decide) (by decide)

end M3Sec.Afsfuse
