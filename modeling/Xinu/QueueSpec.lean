/-
# What the queue operations do

`Linked t qs` says that the table `t` holds, for every queue `q` of the system, exactly the
list `qs q` of processes between the head and the tail of `q`.  Each operation of `queue.c`,
`insert.c` and `insertd.c` then has one rule, which says how the lists change.  Keys are
reported separately: unlinking keeps all of them and linking sets the one of the new member.

One table holds all queues.  A process entry is on one list at most, and the links of an entry
that is on no list may be anything, so an operation on one queue has to show that it writes links
of that queue only (`Linked.frame`).
-/
import Mathlib.Data.List.TakeWhile
import Xinu.Queue
import Xinu.Lib.LinkedPath

namespace Xinu

open LinkedPath

/-! ## 1. Lists held by the table

The entries above the processes come in pairs, the head and the tail of a queue.  Because no list
is longer than the number of processes, a search that is given that many steps sees its end. -/

/-- The queue ids `newqueue` hands out: the even entries above the processes. -/
def IsQueue (q : Int) : Prop := NPROC ≤ q ∧ q + 1 < NQENT ∧ q % 2 = 0

instance (q : Int) : Decidable (IsQueue q) := inferInstanceAs (Decidable (_ ∧ _ ∧ _))

/-- The entries that belong to processes. -/
def IsProc (p : Int) : Prop := 0 ≤ p ∧ p < NPROC

instance (p : Int) : Decidable (IsProc p) := inferInstanceAs (Decidable (_ ∧ _))

theorem IsQueue.not_bad {q : Int} (h : IsQueue q) : ¬ isbadqid q := by
  simp only [IsQueue, isbadqid] at *
  omega

/-- **The table holds the lists `qs`.** -/
structure Linked (t : QTab) (qs : Int → List Int) : Prop where
  path : ∀ q, IsQueue q → Path (fun i => (t i).qnext) (fun i => (t i).qprev) q (qs q) (q + 1)
  nodup : ∀ q, IsQueue q → (qs q).Nodup
  procs : ∀ q, IsQueue q → ∀ p ∈ qs q, IsProc p
  apart : ∀ q q' p, IsQueue q → IsQueue q' → p ∈ qs q → p ∈ qs q' → q = q'
  headEntry : ∀ q, IsQueue q → (t q).qkey = MAXKEY ∧ (t q).qprev = EMPTY
  tailEntry : ∀ q, IsQueue q → (t (q + 1)).qkey = MINKEY ∧ (t (q + 1)).qnext = EMPTY

variable {t t' : QTab} {qs : Int → List Int} {q q' p key : Int} {xs ys : List Int} {k : Kernel}

/-- A list together with its two sentinels has no repetition. -/
theorem Linked.nodup_ends (h : Linked t qs) (hq : IsQueue q) :
    (q :: (qs q ++ [q + 1])).Nodup := by
  have hr := h.procs q hq
  simp only [IsProc, IsQueue] at hr hq
  have h1 : q ∉ qs q := fun hm => by have := hr q hm; omega
  have h2 : q + 1 ∉ qs q := fun hm => by have := hr _ hm; omega
  simp only [List.nodup_cons, List.mem_append, List.mem_singleton, List.nodup_append]
  refine ⟨by rintro (hm | hm) <;> [exact h1 hm; omega], h.nodup q hq, by simp, ?_⟩
  rintro a ha b rfl rfl
  exact h2 ha

/-- The entries of one queue are not entries of another. -/
theorem Linked.entry_unique (h : Linked t qs) (hq : IsQueue q) (hq' : IsQueue q')
    (hne : q' ≠ q) {i : Int} (hi : i ∈ q :: (qs q ++ [q + 1])) :
    i ∉ q' :: (qs q' ++ [q' + 1]) := by
  have hr := h.procs q hq i
  have hr' := h.procs q' hq' i
  have ha := h.apart q q' i hq hq'
  simp only [IsProc, IsQueue] at *
  simp only [List.mem_cons, List.mem_append, List.not_mem_nil, or_false] at hi ⊢
  rintro (h1 | h1 | h1) <;> rcases hi with h2 | h2 | h2
  · omega
  · have := hr h2; omega
  · omega
  · have := hr' h1; omega
  · exact hne (ha h2 h1).symm
  · have := hr' h1; omega
  · omega
  · have := hr h2; omega
  · omega

/-- The two neighbours of a place in a list are entries of its queue. -/
theorem left_mem_ends (hs : qs q = xs ++ ys) : xs.getLastD q ∈ q :: (qs q ++ [q + 1]) := by
  rcases List.mem_cons.mp (getLastD_mem xs q) with h | h
  · rw [h]; exact List.mem_cons_self
  · rw [hs]
    exact List.mem_cons_of_mem _ (List.mem_append_left _ (List.mem_append_left _ h))

theorem right_mem_ends (hs : qs q = xs ++ ys) :
    ys.headD (q + 1) ∈ q :: (qs q ++ [q + 1]) := by
  rcases List.mem_append.mp (headD_mem ys (q + 1)) with h | h
  · rw [hs]
    exact List.mem_cons_of_mem _ (List.mem_append_left _ (List.mem_append_right _ h))
  · rw [List.mem_singleton.mp h]
    exact List.mem_cons_of_mem _ (List.mem_append_right _ (List.mem_singleton_self _))

/-- A head is never the right neighbour of a place, and a tail never the left one. -/
theorem Linked.head_ne_right (h : Linked t qs) (hq : IsQueue q) (hq' : IsQueue q')
    (hs : qs q = xs ++ ys) : q' ≠ ys.headD (q + 1) := by
  intro e
  rcases List.mem_append.mp (headD_mem ys (q + 1)) with h1 | h1
  · have h2 := h.procs q hq q' (by rw [hs, e]; exact List.mem_append_right _ h1)
    simp only [IsProc, IsQueue] at *; omega
  · have h2 := List.mem_singleton.mp h1
    simp only [IsQueue] at *; omega

theorem Linked.tail_ne_left (h : Linked t qs) (hq : IsQueue q) (hq' : IsQueue q')
    (hs : qs q = xs ++ ys) : q' + 1 ≠ xs.getLastD q := by
  intro e
  rcases List.mem_cons.mp (getLastD_mem xs q) with h1 | h1
  · simp only [IsQueue] at *; omega
  · have h2 := h.procs q hq (q' + 1) (by rw [hs, e]; exact List.mem_append_left _ h1)
    simp only [IsProc, IsQueue] at *; omega

/-- No list is longer than the number of processes. -/
theorem Linked.length_le (h : Linked t qs) (hq : IsQueue q) : (qs q).length ≤ NPROC.toNat := by
  have hsub : (qs q).toFinset ⊆ Finset.Ico (0 : Int) NPROC := by
    intro p hp
    have := h.procs q hq p (List.mem_toFinset.mp hp)
    exact Finset.mem_Ico.mpr this
  have hcard := Finset.card_le_card hsub
  rwa [List.toFinset_card_of_nodup (h.nodup q hq), Int.card_Ico, sub_zero] at hcard

/-- A search sees the end of every list. -/
theorem Linked.length_lt (h : Linked t qs) (hq : IsQueue q) : (qs q).length < NQENT.toNat :=
  lt_of_le_of_lt (h.length_le hq) (by decide)

theorem Linked.tail_notMem (h : Linked t qs) (hq : IsQueue q) : queuetail q ∉ qs q := by
  intro hm
  have := h.procs q hq _ hm
  simp only [IsProc, IsQueue, queuetail] at *
  omega

/-- **Frame rule.**  Changing links of process entries that are on no list, and keys of process
entries, keeps every list. -/
theorem Linked.frame (h : Linked t qs)
    (hout : ∀ i, ¬ IsProc i → t' i = t i)
    (hlinks : ∀ i, (∃ q, IsQueue q ∧ i ∈ qs q) →
      (t' i).qnext = (t i).qnext ∧ (t' i).qprev = (t i).qprev) : Linked t' qs := by
  have hhead : ∀ q, IsQueue q → t' q = t q := fun q hq => hout q (by
    simp only [IsProc, IsQueue] at *; omega)
  have htail : ∀ q, IsQueue q → t' (q + 1) = t (q + 1) := fun q hq => hout _ (by
    simp only [IsProc, IsQueue] at *; omega)
  refine ⟨fun q hq => (h.path q hq).congr ?_ ?_, h.nodup, h.procs, h.apart, ?_, ?_⟩
  · intro i hi
    rcases List.mem_cons.mp hi with rfl | hi
    · simp only [hhead i hq]
    · exact (hlinks i ⟨q, hq, hi⟩).1
  · intro i hi
    rcases List.mem_append.mp hi with hi | hi
    · exact (hlinks i ⟨q, hq, hi⟩).2
    · rw [List.mem_singleton.mp hi]
      simp only [htail q hq]
  · intro q hq; rw [hhead q hq]; exact h.headEntry q hq
  · intro q hq; rw [htail q hq]; exact h.tailEntry q hq

theorem Linked.setKey (h : Linked t qs) (hp : IsProc p) (v : Int) : Linked (t.setKey p v) qs := by
  refine h.frame (fun i hi => ?_) (fun i _ => ⟨by simp, by simp⟩)
  have hne : i ≠ p := fun e => hi (e ▸ hp)
  simp [QTab.setKey, hne]

/-! ## 2. Unlinking

`getitem` takes an entry out of the middle; `getfirst` and `dequeue` take the first one, and
`dequeue` clears its links too. -/

theorem getitem_qkey (p : Int) (t : QTab) (i : Int) : (getitem p t i).qkey = (t i).qkey := by
  simp [getitem]

/-- **`getitem` takes the process out of its list** and changes no other list. -/
theorem getitem_spec (h : Linked t qs) (hq : IsQueue q) (hs : qs q = xs ++ p :: ys) :
    Linked (getitem p t) (Function.update qs q (xs ++ ys)) := by
  have hpath := h.path q hq
  rw [hs] at hpath
  have hnext : (t p).qnext = ys.headD (q + 1) := hpath.next_mid
  have hprev : (t p).qprev = xs.getLastD q := hpath.prev_mid
  have hs' : qs q = (xs ++ [p]) ++ ys := by rw [hs]; simp
  have hv := left_mem_ends hs
  have hc := right_mem_ends hs'
  -- what the two assignments of `getitem` do to links
  have hn : ∀ i, (getitem p t i).qnext =
      if i = xs.getLastD q then ys.headD (q + 1) else (t i).qnext := by
    intro i; simp only [getitem, hnext, hprev, setPrev_qnext, setNext_qnext]
  have hp : ∀ i, (getitem p t i).qprev =
      if i = ys.headD (q + 1) then xs.getLastD q else (t i).qprev := by
    intro i; simp only [getitem, hnext, hprev, setPrev_qprev, setNext_qprev]
  have hsub : ∀ q', IsQueue q' → ∀ i ∈ Function.update qs q (xs ++ ys) q', i ∈ qs q' := by
    intro q' _ i hi
    by_cases hqq : q' = q
    · subst hqq
      rw [Function.update_self] at hi
      rw [hs]
      rcases List.mem_append.mp hi with h1 | h1 <;> simp [h1]
    · rwa [Function.update_of_ne hqq] at hi
  refine ⟨fun q' hq' => ?_, fun q' hq' => ?_, fun q' hq' i hi =>
    h.procs q' hq' i (hsub q' hq' i hi),
    fun q₁ q₂ i h1 h2 h3 h4 => h.apart q₁ q₂ i h1 h2 (hsub q₁ h1 i h3) (hsub q₂ h2 i h4), ?_, ?_⟩
  · by_cases hqq : q' = q
    · subst hqq
      rw [Function.update_self]
      have hnd := h.nodup_ends hq'
      rw [hs] at hnd
      refine hpath.remove hnd ?_ ?_ ?_ ?_
      · simp only [hn, if_true]
      · intro i hi; simp only [hn, if_neg hi]
      · simp only [hp, if_true]
      · intro i hi; simp only [hp, if_neg hi]
    · rw [Function.update_of_ne hqq]
      have hv' := h.entry_unique hq hq' hqq hv
      have hc' := h.entry_unique hq hq' hqq hc
      refine (h.path q' hq').congr (fun i hi => ?_) (fun i hi => ?_)
      · have hi' : i ∈ q' :: (qs q' ++ [q' + 1]) := by
          rcases List.mem_cons.mp hi with h1 | h1 <;> simp [h1]
        have hne : i ≠ xs.getLastD q := fun e => hv' (e ▸ hi')
        simp only [hn, if_neg hne]
      · have hne : i ≠ ys.headD (q + 1) := fun e => hc' (e ▸ List.mem_cons_of_mem _ hi)
        simp only [hp, if_neg hne]
  · by_cases hqq : q' = q
    · subst hqq
      rw [Function.update_self]
      have hnd := h.nodup q' hq'
      rw [hs] at hnd
      exact hnd.sublist (List.Sublist.append_left (List.sublist_cons_self p ys) xs)
    · rw [Function.update_of_ne hqq]
      exact h.nodup q' hq'
  · intro q' hq'
    rw [getitem_qkey, hp, if_neg (h.head_ne_right hq hq' hs')]
    exact h.headEntry q' hq'
  · intro q' hq'
    rw [getitem_qkey, hn, if_neg (h.tail_ne_left hq hq' hs)]
    exact h.tailEntry q' hq'

/-- A queue is empty exactly when its list is. -/
theorem isempty_iff (h : Linked t qs) (hq : IsQueue q) : isempty t q ↔ qs q = [] := by
  have hn : (t q).qnext = (qs q).headD (q + 1) := (h.path q hq).next_head
  simp only [isempty, firstid, queuehead, hn]
  cases hqs : qs q with
  | nil => simp only [IsQueue] at hq; simp only [List.headD_nil]; simp; omega
  | cons x xs =>
    have := h.procs q hq x (by simp [hqs])
    simp only [IsProc] at this
    simp only [List.headD_cons, reduceCtorEq, iff_false]
    omega

theorem getfirst_nil (h : Linked t qs) (hq : IsQueue q) (hs : qs q = []) :
    getfirst q t = (t, EMPTY) := by
  rw [getfirst, if_pos ((isempty_iff h hq).mpr hs)]

theorem getfirst_cons (h : Linked t qs) (hq : IsQueue q) (hs : qs q = p :: ys) :
    getfirst q t = (getitem p t, p) := by
  have hne : ¬ isempty t q := by rw [isempty_iff h hq, hs]; simp
  have hn : (t q).qnext = p := by
    have := (h.path q hq).next_head
    rwa [hs] at this
  rw [getfirst, if_neg hne]
  simp only [queuehead, hn]

theorem dequeue_nil (h : Linked t qs) (hq : IsQueue q) (hs : qs q = []) :
    dequeue q t = (t, EMPTY) := by
  rw [dequeue, if_neg hq.not_bad, if_pos ((isempty_iff h hq).mpr hs)]

/-- **`dequeue` takes the first process** and keeps all keys. -/
theorem dequeue_spec (h : Linked t qs) (hq : IsQueue q) (hs : qs q = p :: ys) :
    ∃ t', dequeue q t = (t', p) ∧ Linked t' (Function.update qs q ys) ∧
      ∀ i, (t' i).qkey = (t i).qkey := by
  have hne : ¬ isempty t q := by rw [isempty_iff h hq, hs]; simp
  have hp : IsProc p := h.procs q hq p (by simp [hs])
  refine ⟨((getitem p t).setPrev p EMPTY).setNext p EMPTY, ?_, ?_, ?_⟩
  · rw [dequeue, if_neg hq.not_bad, if_neg hne, getfirst_cons h hq hs]
  · have hg := getitem_spec h hq (show qs q = [] ++ p :: ys from hs)
    refine hg.frame (fun i hi => ?_) (fun i hi => ?_)
    · have hne : i ≠ p := fun e => hi (e ▸ hp)
      simp [QTab.setNext, QTab.setPrev, hne]
    · -- `p` itself is on no list any more
      have hne : i ≠ p := by
        rintro rfl
        obtain ⟨q', hq', hi⟩ := hi
        by_cases hqq : q' = q
        · subst hqq
          have hnd := h.nodup q' hq'
          rw [hs] at hnd
          rw [Function.update_self, List.nil_append] at hi
          exact (List.nodup_cons.mp hnd).1 hi
        · rw [Function.update_of_ne hqq] at hi
          exact hqq (h.apart q' q i hq' hq hi (by simp [hs]))
      simp [hne]
  · intro i
    simp [getitem_qkey]

/-! ## 3. Linking

All insertions end with the same four assignments, between two neighbours. -/

theorem linkBetween_qkey (t : QTab) (pid prev next i : Int) :
    (linkBetween t pid prev next i).qkey = (t i).qkey := by
  simp [linkBetween]

/-- **Linking puts the process between the two neighbours** and changes no other list. -/
theorem linkBetween_spec (h : Linked t qs) (hq : IsQueue q) (hs : qs q = xs ++ ys)
    (hp : IsProc p) (hnew : ∀ q', IsQueue q' → p ∉ qs q') :
    Linked (linkBetween t p (xs.getLastD q) (ys.headD (q + 1)))
      (Function.update qs q (xs ++ p :: ys)) := by
  have hpath := h.path q hq
  rw [hs] at hpath
  have hv := left_mem_ends hs
  have hc := right_mem_ends hs
  have hfresh : ∀ q', IsQueue q' → p ∉ q' :: (qs q' ++ [q' + 1]) := by
    intro q' hq' hm
    simp only [List.mem_cons, List.mem_append, List.not_mem_nil, or_false] at hm
    rcases hm with h1 | h1 | h1
    · simp only [IsProc, IsQueue] at *; omega
    · exact hnew q' hq' h1
    · simp only [IsProc, IsQueue] at *; omega
  have hvp : xs.getLastD q ≠ p := fun e => hfresh q hq (e ▸ hv)
  have hcp : ys.headD (q + 1) ≠ p := fun e => hfresh q hq (e ▸ hc)
  -- the links of the new table
  have hn : ∀ i, (linkBetween t p (xs.getLastD q) (ys.headD (q + 1)) i).qnext =
      if i = xs.getLastD q then p else if i = p then ys.headD (q + 1) else (t i).qnext := by
    intro i; simp only [linkBetween, setPrev_qnext, setNext_qnext]
  have hr : ∀ i, (linkBetween t p (xs.getLastD q) (ys.headD (q + 1)) i).qprev =
      if i = ys.headD (q + 1) then p else if i = p then xs.getLastD q else (t i).qprev := by
    intro i; simp only [linkBetween, setPrev_qprev, setNext_qprev]
  have hmem : ∀ q', IsQueue q' → ∀ i ∈ Function.update qs q (xs ++ p :: ys) q',
      (q' = q ∧ i = p) ∨ i ∈ qs q' := by
    intro q' _ i hi
    by_cases hqq : q' = q
    · subst hqq
      rw [Function.update_self] at hi
      rw [hs]
      simp only [List.mem_append, List.mem_cons] at hi ⊢
      tauto
    · rw [Function.update_of_ne hqq] at hi
      exact Or.inr hi
  refine ⟨fun q' hq' => ?_, fun q' hq' => ?_, fun q' hq' i hi => ?_,
    fun q₁ q₂ i h1 h2 h3 h4 => ?_, ?_, ?_⟩
  · by_cases hqq : q' = q
    · subst hqq
      rw [Function.update_self]
      have hnd := h.nodup_ends hq'
      have hf := hfresh q' hq'
      rw [hs] at hnd hf
      refine hpath.insert hnd hf ?_ ?_ ?_ ?_ ?_ ?_
      · simp only [hn, if_true]
      · simp only [hn, if_neg (Ne.symm hvp), if_true]
      · intro i h1 h2; simp only [hn, if_neg h1, if_neg h2]
      · simp only [hr, if_true]
      · simp only [hr, if_neg (Ne.symm hcp), if_true]
      · intro i h1 h2; simp only [hr, if_neg h1, if_neg h2]
    · rw [Function.update_of_ne hqq]
      have hv' := h.entry_unique hq hq' hqq hv
      have hc' := h.entry_unique hq hq' hqq hc
      have hp' := hfresh q' hq'
      refine (h.path q' hq').congr (fun i hi => ?_) (fun i hi => ?_)
      · have hi' : i ∈ q' :: (qs q' ++ [q' + 1]) := by
          rcases List.mem_cons.mp hi with h1 | h1 <;> simp [h1]
        have h1 : i ≠ xs.getLastD q := fun e => hv' (e ▸ hi')
        have h2 : i ≠ p := fun e => hp' (e ▸ hi')
        simp only [hn, if_neg h1, if_neg h2]
      · have hi' : i ∈ q' :: (qs q' ++ [q' + 1]) := List.mem_cons_of_mem _ hi
        have h1 : i ≠ ys.headD (q + 1) := fun e => hc' (e ▸ hi')
        have h2 : i ≠ p := fun e => hp' (e ▸ hi')
        simp only [hr, if_neg h1, if_neg h2]
  · by_cases hqq : q' = q
    · subst hqq
      rw [Function.update_self, List.nodup_middle]
      have hnp := hnew q' hq'
      have hnd := h.nodup q' hq'
      rw [hs] at hnp hnd
      exact List.nodup_cons.mpr ⟨hnp, hnd⟩
    · rw [Function.update_of_ne hqq]
      exact h.nodup q' hq'
  · rcases hmem q' hq' i hi with ⟨-, rfl⟩ | hi
    · exact hp
    · exact h.procs q' hq' i hi
  · rcases hmem q₁ h1 i h3 with ⟨e1, e2⟩ | h3
    · rcases hmem q₂ h2 i h4 with ⟨e3, -⟩ | h4
      · rw [e1, e3]
      · exact absurd (e2 ▸ h4) (hnew q₂ h2)
    · rcases hmem q₂ h2 i h4 with ⟨-, e2⟩ | h4
      · exact absurd (e2 ▸ h3) (hnew q₁ h1)
      · exact h.apart q₁ q₂ i h1 h2 h3 h4
  · intro q' hq'
    have h1 := h.head_ne_right hq hq' hs
    have h2 : q' ≠ p := by simp only [IsProc, IsQueue] at *; omega
    rw [linkBetween_qkey, hr, if_neg h1, if_neg h2]
    exact h.headEntry q' hq'
  · intro q' hq'
    have h1 := h.tail_ne_left hq hq' hs
    have h2 : q' + 1 ≠ p := by simp only [IsProc, IsQueue] at *; omega
    rw [linkBetween_qkey, hn, if_neg h1, if_neg h2]
    exact h.tailEntry q' hq'

theorem IsProc.of_not_bad (h : ¬ isbadpid k p) : IsProc p := by
  simp only [isbadpid, not_or] at h
  exact ⟨by omega, by omega⟩

/-- **`enqueue` appends.** -/
theorem enqueue_spec (h : Linked k.queuetab qs) (hq : IsQueue q) (hp : ¬ isbadpid k p)
    (hnew : ∀ q', IsQueue q' → p ∉ qs q') :
    ∃ t', enqueue p q k = (k.setQueue t', p) ∧
      Linked t' (Function.update qs q (qs q ++ [p])) ∧ ∀ i, (t' i).qkey = (k.queuetab i).qkey := by
  have hprev : (k.queuetab (q + 1)).qprev = (qs q).getLastD q := (h.path q hq).prev_tail
  refine ⟨_, ?_, linkBetween_spec h hq (List.append_nil _).symm
    (IsProc.of_not_bad hp) hnew, ?_⟩
  · rw [enqueue, if_neg (by rintro (h1 | h1); exacts [hq.not_bad h1, hp h1])]
    simp only [queuetail, hprev, List.headD_nil]
  · exact linkBetween_qkey _ _ _ _

/-! ## 4. Sorted insertion

Keys are priorities here, the largest first, and equal keys stay in the order in which they came. -/

/-- **The search of `insert` stops at the first member with a smaller key**, or at the tail. -/
theorem insertSearch_path {b a : Int} (fuel : Nat)
    (h : Path (fun i => (t i).qnext) (fun i => (t i).qprev) a xs b) (hb : (t b).qkey < key)
    (hfuel : xs.length < fuel) : insertSearch t key fuel (xs.headD b) =
      some ((xs.dropWhile fun i => key ≤ (t i).qkey).headD b) := by
  induction xs generalizing a fuel with
  | nil =>
    obtain ⟨n, rfl⟩ : ∃ n, fuel = n + 1 := ⟨fuel - 1, by simp at hfuel; omega⟩
    have hk : ¬ (t b).qkey ≥ key := by omega
    simp [insertSearch, hk]
  | cons x xs ih =>
    obtain ⟨n, rfl⟩ : ∃ n, fuel = n + 1 := ⟨fuel - 1, by simp at hfuel; omega⟩
    have hx : (t x).qnext = xs.headD b := h.2.2.next_head
    have hrec := ih n h.2.2 (by simp at hfuel; omega)
    by_cases hk : key ≤ (t x).qkey
    · simp only [List.headD_cons, insertSearch, ge_iff_le, hk, if_true, hx, hrec,
        List.dropWhile_cons, decide_true]
    · simp only [List.headD_cons, insertSearch, ge_iff_le, hk, if_false,
        List.dropWhile_cons, decide_false, Bool.false_eq_true]

/-- **`insert` puts the process behind all members with at least its key.** -/
theorem insert_spec (h : Linked k.queuetab qs) (hq : IsQueue q) (hp : ¬ isbadpid k p)
    (hnew : ∀ q', IsQueue q' → p ∉ qs q') (hkey : MINKEY < key) :
    ∃ t' xs ys, insert p q key k = some (k.setQueue t', OK) ∧
      qs q = xs ++ ys ∧ Linked t' (Function.update qs q (xs ++ p :: ys)) ∧
      (∀ i, (t' i).qkey = if i = p then key else (k.queuetab i).qkey) ∧
      (∀ x ∈ xs, key ≤ (k.queuetab x).qkey) ∧
        (∀ y, ys.head? = some y → (k.queuetab y).qkey < key) := by
  have hP := IsProc.of_not_bad hp
  have htail : (k.queuetab (q + 1)).qkey < key := by rw [(h.tailEntry q hq).1]; exact hkey
  have hfirst : firstid k.queuetab q = (qs q).headD (q + 1) := (h.path q hq).next_head
  have hsearch := insertSearch_path NQENT.toNat (h.path q hq) htail (h.length_lt hq)
  set ys := (qs q).dropWhile fun i => decide (key ≤ (k.queuetab i).qkey) with hys
  set xs := (qs q).takeWhile fun i => decide (key ≤ (k.queuetab i).qkey) with hxs
  have hs : qs q = xs ++ ys := by rw [hxs, hys, List.takeWhile_append_dropWhile]
  have hpath := h.path q hq
  rw [hs] at hpath
  have hprev : (k.queuetab (ys.headD (q + 1))).qprev = xs.getLastD q := hpath.prev_headD
  refine ⟨_, xs, ys, ?_, hs, linkBetween_spec (h.setKey hP key) hq hs hP hnew, ?_, ?_, ?_⟩
  · rw [insert, if_neg (by rintro (h1 | h1); exacts [hq.not_bad h1, hp h1]), hfirst, hsearch]
    simp only [Option.bind_eq_bind, Option.bind_some, hprev]
    rfl
  · intro i; rw [linkBetween_qkey, setKey_qkey]
  · intro x hx
    rw [hxs] at hx
    simpa using List.mem_takeWhile_imp hx
  · intro y hy
    have := List.head?_dropWhile_not (fun i => decide (key ≤ (k.queuetab i).qkey)) (qs q)
    rw [← hys, hy] at this
    simpa using this

/-! ## 5. Insertion in a delta list

Keys are differences here.  Where the search stops depends on 32-bit arithmetic, so the rule says
only that it stops somewhere; `SleepTime` says where. -/

/-- **The search of `insertd` stops between two neighbours of the list.** -/
theorem insertdSearch_path {a : Int} (key : Int) (fuel : Nat)
    (h : Path (fun i => (t i).qnext) (fun i => (t i).qprev) a xs (queuetail q))
    (hfuel : xs.length < fuel) : ∃ key' us vs, xs = us ++ vs ∧
      insertdSearch t q fuel key a (xs.headD (queuetail q)) =
        some (key', us.getLastD a, vs.headD (queuetail q)) := by
  induction xs generalizing a key fuel with
  | nil =>
    obtain ⟨n, rfl⟩ : ∃ n, fuel = n + 1 := ⟨fuel - 1, by simp at hfuel; omega⟩
    refine ⟨key, [], [], rfl, ?_⟩
    simp [insertdSearch]
  | cons x xs ih =>
    obtain ⟨n, rfl⟩ : ∃ n, fuel = n + 1 := ⟨fuel - 1, by simp at hfuel; omega⟩
    by_cases hk : x ≠ queuetail q ∧ (t x).qkey ≤ key
    · have hx : (t x).qnext = xs.headD (queuetail q) := h.2.2.next_head
      obtain ⟨key', us, vs, hs, hr⟩ := ih (int32 (key - (t x).qkey)) n h.2.2
        (by simp at hfuel; omega)
      refine ⟨key', x :: us, vs, by simp [hs], ?_⟩
      rw [List.headD_cons, insertdSearch, if_pos hk, hx, hr, List.getLastD_cons]
    · refine ⟨key, [], x :: xs, rfl, ?_⟩
      rw [List.headD_cons, insertdSearch, if_neg hk, List.getLastD_nil]

/-- **`insertd` puts the process where its search stops.** -/
theorem insertd_at (h : Linked k.queuetab qs) (hq : IsQueue q) (hp : ¬ isbadpid k p)
    (hnew : ∀ q', IsQueue q' → p ∉ qs q') {key' : Int} {us vs : List Int} (hs : qs q = us ++ vs)
    (hsearch : insertdSearch k.queuetab q NQENT.toNat key q (firstid k.queuetab q) =
      some (key', us.getLastD q, vs.headD (queuetail q))) :
    ∃ t', insertd p q key k = some (k.setQueue t', OK) ∧
      Linked t' (Function.update qs q (us ++ p :: vs)) ∧
      ∀ i, (t' i).qkey = if i = p then key' else if vs.head? = some i then
        int32 ((k.queuetab i).qkey - key') else (k.queuetab i).qkey := by
  have hP := IsProc.of_not_bad hp
  have hl := linkBetween_spec (h.setKey hP key') hq hs hP hnew
  have hgood : ¬ (isbadqid q ∨ isbadpid k p) := by
    rintro (h1 | h1)
    exacts [hq.not_bad h1, hp h1]
  cases vs with
  | nil =>
    refine ⟨_, ?_, hl, fun i => ?_⟩
    · rw [insertd, if_neg hgood, hsearch]
      simp
    · rw [linkBetween_qkey, setKey_qkey]
      rfl
  | cons v vs =>
    have hv : IsProc v := h.procs q hq v (by simp [hs])
    have hne : v ≠ queuetail q := by simp only [IsProc, IsQueue, queuetail] at *; omega
    have hpv : v ≠ p := by
      rintro rfl
      exact hnew q hq (by simp [hs])
    refine ⟨_, ?_, hl.setKey hv (int32 ((linkBetween (k.queuetab.setKey p key') p
      (us.getLastD q) v v).qkey - key')), fun i => ?_⟩
    · rw [insertd, if_neg hgood, hsearch]
      simp [hne]
    · rw [setKey_qkey, linkBetween_qkey, linkBetween_qkey, setKey_qkey, setKey_qkey, if_neg hpv,
        List.head?_cons]
      rcases eq_or_ne i v with rfl | hiv
      · rw [if_pos rfl, if_neg hpv, if_pos rfl]
      · rw [if_neg hiv, if_neg (fun e : some v = some i => hiv (Option.some.inj e).symm)]

/-- **`insertd` puts the process somewhere into the list**, and changes the keys of processes
only. -/
theorem insertd_spec (h : Linked k.queuetab qs) (hq : IsQueue q) (hp : ¬ isbadpid k p)
    (hnew : ∀ q', IsQueue q' → p ∉ qs q') (key : Int) :
    ∃ t' xs ys, insertd p q key k = some (k.setQueue t', OK) ∧
      qs q = xs ++ ys ∧ Linked t' (Function.update qs q (xs ++ p :: ys)) ∧
      ∀ i, i ≠ p → i ∉ qs q → (t' i).qkey = (k.queuetab i).qkey := by
  have hfirst : firstid k.queuetab q = (qs q).headD (queuetail q) := (h.path q hq).next_head
  obtain ⟨key', us, vs, hs, hsearch⟩ := insertdSearch_path key NQENT.toNat
    (h.path q hq) (h.length_lt hq)
  rw [← hfirst] at hsearch
  obtain ⟨t', hi, hl, hk⟩ := insertd_at h hq hp hnew hs hsearch
  refine ⟨t', us, vs, hi, hs, hl, fun i h1 h2 => ?_⟩
  rw [hk, if_neg h1, if_neg]
  intro hv
  exact h2 (hs ▸ List.mem_append_right _ (List.mem_of_mem_head? hv))

/-! ## 6. What the links of a queue show

The lists again, now computed from the links.  Statements about the system use these, and no list
has to be named in them. -/

/-- The entries met from `i` on before `stop`. -/
def QTab.walk (t : QTab) (stop : Int) : Nat → Int → List Int
  | 0, _ => []
  | fuel + 1, i => if i = stop then [] else i :: t.walk stop fuel (t i).qnext

/-- The members of `q`, first to last. -/
def QTab.members (t : QTab) (q : Int) : List Int :=
  t.walk (queuetail q) NQENT.toNat (firstid t q)

/-- The members of `q` with their keys. -/
def QTab.entries (t : QTab) (q : Int) : List (Int × Int) :=
  (t.members q).map fun p => (p, (t p).qkey)

/-- A walk along a path finds its members. -/
theorem walk_path {a b : Int} {fuel : Nat}
    (h : Path (fun i => (t i).qnext) (fun i => (t i).qprev) a xs b) (hb : b ∉ xs)
    (hfuel : xs.length < fuel) : t.walk b fuel (xs.headD b) = xs := by
  induction xs generalizing a fuel with
  | nil =>
    obtain ⟨n, rfl⟩ : ∃ n, fuel = n + 1 := ⟨fuel - 1, by simp at hfuel; omega⟩
    simp [QTab.walk]
  | cons x xs ih =>
    obtain ⟨n, rfl⟩ : ∃ n, fuel = n + 1 := ⟨fuel - 1, by simp at hfuel; omega⟩
    simp only [List.mem_cons, not_or] at hb
    have hx : (t x).qnext = xs.headD b := h.2.2.next_head
    rw [List.headD_cons, QTab.walk, if_neg (Ne.symm hb.1), hx,
      ih h.2.2 hb.2 (by simp at hfuel; omega)]

/-- **The links show the lists the table holds.** -/
theorem Linked.members_eq (h : Linked t qs) (hq : IsQueue q) : t.members q = qs q := by
  have hfirst : firstid t q = (qs q).headD (queuetail q) := (h.path q hq).next_head
  rw [QTab.members, hfirst]
  exact walk_path (h.path q hq) (h.tail_notMem hq) (h.length_lt hq)

theorem Linked.entries_eq (h : Linked t qs) (hq : IsQueue q) :
    t.entries q = (qs q).map fun p => (p, (t p).qkey) := by
  rw [QTab.entries, h.members_eq hq]

/-- **Frame rule for one queue.** -/
theorem Linked.entries_congr {qs' : Int → List Int} (h : Linked t qs) (h' : Linked t' qs')
    (hq : IsQueue q) (hs : qs' q = qs q) (hk : ∀ i ∈ qs q, (t' i).qkey = (t i).qkey) :
    t'.entries q = t.entries q := by
  rw [h.entries_eq hq, h'.entries_eq hq, hs]
  refine List.map_congr_left fun i hi => ?_
  rw [hk i hi]

theorem map_fst_entries (t : QTab) (q : Int) : (t.entries q).map Prod.fst = t.members q := by
  simp only [QTab.entries, List.map_map, Function.comp_def, List.map_id']

/-- The members of a queue whose entries did not change. -/
theorem members_of_entries (h : t'.entries q = t.entries q) : t'.members q = t.members q := by
  rw [← map_fst_entries, h, map_fst_entries]

end Xinu
