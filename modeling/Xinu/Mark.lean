/-
# Memory marking (`mark.c`, `mark.h`)

A location is marked when it holds the index of an entry of `marks` that points back to it, so that
whatever it holds before does not matter.  `mark` looks whether its location is marked and whether
there is an entry left, waits for the mutex, and takes the next entry without looking again.

So the table is right as long as every process that goes on behind its wait finds its location
unmarked still and an entry left (`mark_right_iff`).
-/
import Xinu.Kernel
import Xinu.Lib.Counting
import Xinu.Lib.Runs

namespace Xinu

open Counting Runs

/-! ## 1. The code

`mark` is cut at its wait.  An index that is read from memory may be anything. -/

abbrev MAXMARK : Int := 20

/-- What is at the locations, the table, and the entries of it that were written. -/
structure Marks where
  loc : Nat → Int
  marks : Int → Nat
  nmarks : Int
  writes : List Int

/-- `markinit`, but for the semaphore. -/
def markinit (loc : Nat → Int) (marks : Int → Nat) : Marks := ⟨loc, marks, 0, []⟩

/-- The macro of `mark.h`. -/
def notmarked (m : Marks) (l : Nat) : Prop :=
  m.loc l < 0 ∨ m.loc l ≥ m.nmarks ∨ m.marks (m.loc l) ≠ l

instance (m : Marks) (l : Nat) : Decidable (notmarked m l) := inferInstanceAs (Decidable (_ ∨ _))

/-- `mark` up to its wait: what it returns, if it does. -/
def mark (m : Marks) (loc : Nat) : Option Int :=
  if m.loc loc ≥ 0 ∧ m.loc loc < m.nmarks ∧ m.marks (m.loc loc) = loc then some OK
  else if m.nmarks ≥ MAXMARK then some SYSERR
  else none

/-- `mark` behind its wait. -/
def markNext (m : Marks) (loc : Nat) : Marks where
  loc := Function.update m.loc loc m.nmarks
  marks := Function.update m.marks m.nmarks loc
  nmarks := m.nmarks + 1
  writes := m.nmarks :: m.writes

/-! ## 2. The system

Whoever passed the mutex goes on when it comes to run, which may be after others have. -/

/-- Processes that call `mark`: the location of a process that has come to its wait, the mutex, who
has passed it and not gone on, and the locations whose calls have returned `OK` and `SYSERR`. -/
structure MarkSys where
  m : Marks
  waitsFor : Int → Option Nat
  mkmutex : Counter Int
  passed : List Int
  completed : List Nat
  refused : List Nat

def markSys (loc : Nat → Int) (marks : Int → Nat) : MarkSys :=
  ⟨markinit loc marks, fun _ => none, Counter.create 1, [], [], []⟩

/-- A process calls `mark`; one that has passed the mutex goes on; somebody writes to a location. -/
inductive MarkEvent
  | call (pid : Int) (loc : Nat)
  | goOn (pid : Int)
  | write (loc : Nat) (v : Int)

/-- One step.  Nobody but `mark` writes to a location that is marked. -/
def markStep (s : MarkSys) : MarkEvent → Option MarkSys
  | .call pid loc =>
    if s.waitsFor pid ≠ none then none
    else match mark s.m loc with
    | some r =>
      if r = OK then some { s with completed := loc :: s.completed }
      else some { s with refused := loc :: s.refused }
    | none =>
      some { s with
        waitsFor := Function.update s.waitsFor pid (some loc)
        mkmutex := s.mkmutex.wait pid
        passed := if 0 < s.mkmutex.count then pid :: s.passed else s.passed }
  | .goOn pid =>
    if pid ∉ s.passed then none
    else (s.waitsFor pid).map fun loc =>
      { s with
        m := markNext s.m loc
        waitsFor := Function.update s.waitsFor pid none
        mkmutex := s.mkmutex.signal 1
        passed := s.passed.erase pid ++ s.mkmutex.waiting.take 1
        completed := loc :: s.completed }
  | .write loc v =>
    if loc ∈ s.completed then none
    else some { s with m := { s.m with loc := Function.update s.m.loc loc v } }

/-! ## 3. What is wanted

Both parts of the condition concern the process that goes on behind its wait. -/

/-- The entries in use. -/
def Used (m : Marks) (i : Int) : Prop := 0 ≤ i ∧ i < m.nmarks

/-- **What is wanted of a state**: the table does not overflow, no location is in it twice, a call
was refused only if its location is unmarked and the table full, and the marked locations are those
that a call has marked. -/
structure MarkRight (s : MarkSys) : Prop where
  count : 0 ≤ s.m.nmarks ∧ s.m.nmarks ≤ MAXMARK
  inside : ∀ i ∈ s.m.writes, 0 ≤ i ∧ i < MAXMARK
  once : ∀ i j, Used s.m i → Used s.m j → s.m.marks i = s.m.marks j → i = j
  refused : ∀ l ∈ s.refused, notmarked s.m l ∧ s.m.nmarks = MAXMARK
  marked : ∀ l, ¬ notmarked s.m l ↔ l ∈ s.completed

/-- A process that goes on finds its location unmarked still, and an entry left. -/
def StillGood (s : MarkSys) : MarkEvent → Prop
  | .goOn pid => ∀ loc, s.waitsFor pid = some loc → notmarked s.m loc ∧ s.m.nmarks < MAXMARK
  | _ => True

/-! ## 4. Marked locations

Garbage at a location never makes it marked, since an entry has to point back to it. -/

variable {m : Marks} {s t : MarkSys} {e : MarkEvent} {l loc : Nat} {i : Int}

theorem marked_iff : ¬ notmarked m l ↔ Used m (m.loc l) ∧ m.marks (m.loc l) = l := by
  simp only [notmarked, Used, not_or, not_not]
  omega

/-- Up to its wait `mark` tells whether its location is marked, as the macro does. -/
theorem mark_eq (m : Marks) (loc : Nat) : mark m loc =
    if notmarked m loc then if m.nmarks ≥ MAXMARK then some SYSERR else none else some OK := by
  have hmarked : (m.loc loc ≥ 0 ∧ m.loc loc < m.nmarks ∧ m.marks (m.loc loc) = loc) ↔
      ¬ notmarked m loc := by
    rw [marked_iff, Used, and_assoc, ge_iff_le]
  simp only [mark, hmarked, ite_not]

/-- Every entry in use points to a location that points back. -/
def PointsBack (m : Marks) : Prop := ∀ i, Used m i → m.loc (m.marks i) = i

/-- Then the marked locations are those in the table. -/
theorem PointsBack.marked_iff (h : PointsBack m) :
    ¬ notmarked m l ↔ ∃ i, Used m i ∧ m.marks i = l := by
  rw [Xinu.marked_iff]
  constructor
  · exact fun hl => ⟨m.loc l, hl⟩
  · rintro ⟨i, hi, rfl⟩
    rw [h i hi]
    exact ⟨hi, rfl⟩

/-- The next entry is in use, too. -/
theorem used_markNext (h0 : 0 ≤ m.nmarks) : Used (markNext m loc) i ↔ Used m i ∨ i = m.nmarks := by
  simp only [Used, markNext]
  omega

theorem marks_markNext (hi : Used m i) : (markNext m loc).marks i = m.marks i :=
  Function.update_of_ne (by have := hi.2; omega) ..

theorem marks_markNext_self : (markNext m loc).marks m.nmarks = loc := Function.update_self ..

/-- Marking an unmarked location. -/
theorem PointsBack.markNext (h : PointsBack m) (h0 : 0 ≤ m.nmarks) (hloc : notmarked m loc) :
    PointsBack (markNext m loc) := by
  intro i hi
  rcases (used_markNext h0).mp hi with hi | rfl
  · rw [marks_markNext hi]
    have hne : m.marks i ≠ loc := fun heq => (h.marked_iff.mpr ⟨i, hi, heq⟩) hloc
    exact (Function.update_of_ne hne ..).trans (h i hi)
  · rw [marks_markNext_self]
    exact Function.update_self ..

/-! ## 5. The invariant

One lemma for each kind of step, and for a step that breaks the property. -/

/-- The state is right, and the table points back. -/
structure MarkInv (s : MarkSys) : Prop extends MarkRight s where
  back : PointsBack s.m

theorem markInv_init (loc : Nat → Int) (marks : Int → Nat) : MarkInv (markSys loc marks) where
  count := by simp [markSys, markinit]
  inside := by simp [markSys, markinit]
  once i j hi := by
    have : i < 0 := hi.2
    exact absurd hi.1 (by omega)
  refused := by simp [markSys]
  marked l := by
    simp [markSys, markinit, notmarked]
    omega
  back i hi := by
    have : i < 0 := hi.2
    exact absurd hi.1 (by omega)

/-- **A call** returns, or comes to its wait. -/
theorem MarkInv.call (h : MarkInv s) {pid : Int} (hs : markStep s (.call pid loc) = some t) :
    MarkInv t := by
  have hcount := h.count
  rw [markStep, mark_eq] at hs
  by_cases hpc : s.waitsFor pid ≠ none
  · rw [if_pos hpc] at hs
    exact absurd hs nofun
  rw [if_neg hpc] at hs
  by_cases hnm : notmarked s.m loc
  · rw [if_pos hnm] at hs
    by_cases hfull : s.m.nmarks ≥ MAXMARK
    · -- there is no entry left
      rw [if_pos hfull] at hs
      simp only [show SYSERR ≠ OK by decide, if_false] at hs
      obtain rfl := Option.some.inj hs
      refine ⟨⟨h.count, h.inside, h.once, fun l hl => ?_, h.marked⟩, h.back⟩
      rcases List.mem_cons.mp hl with rfl | hl
      · exact ⟨hnm, le_antisymm hcount.2 hfull⟩
      · exact h.refused l hl
    · rw [if_neg hfull] at hs
      obtain rfl := Option.some.inj hs
      exact ⟨⟨h.count, h.inside, h.once, h.refused, h.marked⟩, h.back⟩
  · -- the location is marked
    rw [if_neg hnm] at hs
    simp only [if_true] at hs
    obtain rfl := Option.some.inj hs
    refine ⟨⟨h.count, h.inside, h.once, h.refused, fun l => ?_⟩, h.back⟩
    rw [List.mem_cons, h.marked l, or_iff_right_of_imp]
    rintro rfl
    exact (h.marked l).mp hnm

/-- **A write** to an unmarked location leaves it unmarked. -/
theorem MarkInv.write (h : MarkInv s) {v : Int} (hs : markStep s (.write loc v) = some t) :
    MarkInv t := by
  rw [markStep] at hs
  split_ifs at hs with hc
  obtain rfl := Option.some.inj hs
  have hnot : ∀ i, Used s.m i → s.m.marks i ≠ loc := fun i hi heq =>
    hc ((h.marked loc).mp (h.back.marked_iff.mpr ⟨i, hi, heq⟩))
  have hback : PointsBack { s.m with loc := Function.update s.m.loc loc v } := fun i hi =>
    (Function.update_of_ne (hnot i hi) ..).trans (h.back i hi)
  have hsame : ∀ l, ¬ notmarked { s.m with loc := Function.update s.m.loc loc v } l ↔
      ¬ notmarked s.m l := fun l => by
    rw [hback.marked_iff, h.back.marked_iff]
    rfl
  refine ⟨⟨h.count, h.inside, h.once, fun l hl => ?_, fun l => (hsame l).trans (h.marked l)⟩, hback⟩
  obtain ⟨hnm, hfull⟩ := h.refused l hl
  exact ⟨not_not.mp fun hm => (hsame l).mp hm hnm, hfull⟩

/-- **Going on** with an unmarked location and an entry left. -/
theorem MarkInv.goOn (h : MarkInv s) {pid : Int} (hs : markStep s (.goOn pid) = some t)
    (hgood : StillGood s (.goOn pid)) : MarkInv t := by
  rw [markStep] at hs
  split_ifs at hs with hp
  obtain ⟨loc, hloc, rfl⟩ := Option.map_eq_some_iff.mp hs
  obtain ⟨hnm, hroom⟩ := hgood loc hloc
  have hcount := h.count
  have hback := h.back.markNext hcount.1 hnm
  refine ⟨⟨?_, fun i hi => ?_, fun i j hi hj heq => ?_, fun l hl => ?_, fun l => ?_⟩, hback⟩
  · simp only [markNext]
    omega
  · rcases List.mem_cons.mp hi with rfl | hi
    · exact ⟨hcount.1, hroom⟩
    · exact h.inside i hi
  · -- both point back
    rw [← hback i hi, ← hback j hj, heq]
  · have := (h.refused l hl).2
    omega
  · rw [hback.marked_iff, List.mem_cons, ← h.marked l, h.back.marked_iff]
    constructor
    · rintro ⟨i, hi, rfl⟩
      rcases (used_markNext hcount.1).mp hi with hi | rfl
      · exact .inr ⟨i, hi, (marks_markNext hi).symm⟩
      · exact .inl marks_markNext_self
    · rintro (rfl | ⟨i, hi, rfl⟩)
      · exact ⟨_, (used_markNext hcount.1).mpr (.inr rfl), marks_markNext_self⟩
      · exact ⟨i, (used_markNext hcount.1).mpr (.inl hi), marks_markNext hi⟩

/-- **Every good step** keeps the invariant. -/
theorem MarkInv.step (h : MarkInv s) (hs : markStep s e = some t) (hgood : StillGood s e) :
    MarkInv t := by
  cases e with
  | call pid loc => exact h.call hs
  | goOn pid => exact h.goOn hs hgood
  | write loc v => exact h.write hs

/-- **Going on otherwise** overflows the table, or puts a location into it twice. -/
theorem MarkInv.not_right (h : MarkInv s) (hs : markStep s e = some t) (hgood : ¬ StillGood s e) :
    ¬ MarkRight t := by
  cases e with
  | call pid loc => exact absurd trivial hgood
  | write loc v => exact absurd trivial hgood
  | goOn pid =>
    rw [markStep] at hs
    split_ifs at hs with hp
    obtain ⟨loc, hloc, rfl⟩ := Option.map_eq_some_iff.mp hs
    intro hright
    have hcount := h.count
    refine hgood fun loc' hloc' => ?_
    obtain rfl : loc = loc' := Option.some.inj (hloc.symm.trans hloc')
    constructor
    · by_contra hmarked
      obtain ⟨i, hi, heq⟩ := h.back.marked_iff.mp hmarked
      have hdup := hright.once i s.m.nmarks ((used_markNext hcount.1).mpr (.inl hi))
        ((used_markNext hcount.1).mpr (.inr rfl))
        ((marks_markNext hi).trans (heq.trans marks_markNext_self.symm))
      have := hi.2
      omega
    · have := hright.count.2
      simp only [markNext] at this
      omega

/-! ## 6. Runs

By induction on the run, from any contents of the memory. -/

theorem markInv_run {mem : Nat → Int} {marks : Int → Nat}
    (h : Reaches markStep StillGood (markSys mem marks) s) : MarkInv s :=
  h.invariant (markInv_init mem marks) fun _ _ _ hinv hgood hs => hinv.step hs hgood

/-- **The exact condition**: whatever is in memory, every state of a run is right whose steps all
meet the condition, and the next step leads to a state that is right if and only if it meets the
condition, too. -/
theorem mark_right_iff (mem : Nat → Int) (marks : Int → Nat) (s : MarkSys)
    (h : Reaches markStep StillGood (markSys mem marks) s) :
    MarkRight s ∧ ∀ e t, markStep s e = some t → (MarkRight t ↔ StillGood s e) := by
  have hinv := markInv_run h
  refine ⟨hinv.toMarkRight, fun e t hs => ⟨fun hright => ?_, fun hgood => ?_⟩⟩
  · by_contra hgood
    exact hinv.not_right hs hgood hright
  · exact (hinv.step hs hgood).toMarkRight

/-- A process marks the location 4, which holds garbage. -/
theorem mark_right_iff_one :
    let s := markSys (fun _ => 7) (fun _ => 0)
    ∃ t, Reaches markStep StillGood s t ∧ t.completed = [4] ∧
      (MarkRight t ∧ ∀ e u, markStep t e = some u → (MarkRight u ↔ StillGood t e)) := by
  intro s
  set s₁ := (markStep s (.call 1 4)).getD s
  have h₁ : Reaches markStep StillGood s s₁ :=
    .tail (e := .call 1 4) .refl trivial rfl
  have hgood : StillGood s₁ (.goOn 1) := by
    intro loc hloc
    obtain rfl : 4 = loc := Option.some.inj hloc
    decide
  have hrun : Reaches markStep StillGood s ((markStep s₁ (.goOn 1)).getD s₁) :=
    .tail h₁ hgood rfl
  exact ⟨_, hrun, rfl, mark_right_iff _ _ _ hrun⟩

/-- **Two processes mark the same location**, and both take an entry for it. -/
theorem mark_twice :
    ∃ t, Reaches markStep always (markSys (fun _ => 0) (fun _ => 0)) t ∧ ¬ MarkRight t := by
  have hexec : ∃ t, exec markStep always (markSys (fun _ => 0) (fun _ => 0))
      [.call 1 4, .call 2 4, .goOn 1, .goOn 2] = some t ∧
      t.m.nmarks = 2 ∧ t.m.marks 0 = 4 ∧ t.m.marks 1 = 4 := ⟨_, rfl, rfl, rfl, rfl⟩
  obtain ⟨t, ht, hn, h0, h1⟩ := hexec
  refine ⟨t, reaches_of_exec ht, fun hright => ?_⟩
  have := hright.once 0 1 ⟨by decide, by omega⟩ ⟨by decide, by omega⟩ (h0.trans h1.symm)
  exact absurd this (by decide)

end Xinu
