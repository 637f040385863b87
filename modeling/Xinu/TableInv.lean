/-
# The table invariant

`Placed k qs none` says that the process table and the queue table agree: the queues hold the
lists `qs`, and a process is on the queue its state says and on no other.  In the middle of a
routine one process may be in transit, off every queue whatever its state says;
`Placed k qs (some p)` is that.  The rules of this module are the moves routines are made of:
take a process off its queue, assign to an entry in transit, put it on the queue of its state,
give the processor to the head of the ready list.

The ready list is sorted by priority only as long as no priority is changed behind its back.
The parameter `strict` says whether that is guaranteed, so that one pass over the routines
serves both for the tables (`strict` false) and for the order of scheduling (`strict` true).
-/
import Xinu.QueueSpec
import Xinu.Sched

namespace Xinu

open LinkedPath

/-! ## 1. The invariant

The three parts, the queues with their ids, the order of the ready list, and who is where, are
structures of their own.  A routine that does not write what they read has nothing to show
(`SameTables`). -/

/-- The queue a process in this state belongs on. -/
def home (k : Kernel) (p : Int) : Option Int :=
  match (k.proctab p).prstate with
  | .ready => some k.readylist
  | .sleep | .rectim => some k.sleepq
  | .wait => some (k.semtab (k.proctab p).prsem).squeue
  | _ => none

theorem home_of_wait {k : Kernel} {p : Int} (h : (k.proctab p).prstate = .wait) :
    home k p = some (k.semtab (k.proctab p).prsem).squeue := by simp [home, h]

/-- The queue ids in use: the three kinds are apart. -/
structure Queues (k : Kernel) : Prop where
  ready : IsQueue k.readylist
  sleep : IsQueue k.sleepq ∧ k.sleepq ≠ k.readylist
  sem : ∀ s, ¬ isbadsem s → IsQueue (k.semtab s).squeue ∧
    (k.semtab s).squeue ≠ k.readylist ∧ (k.semtab s).squeue ≠ k.sleepq

/-- The ready list is in descending order of keys, and each key is the priority. -/
structure Ordered (k : Kernel) (qs : Int → List Int) : Prop where
  keys : ∀ p ∈ qs k.readylist, (k.queuetab p).qkey = (k.proctab p).prprio.val
  sorted : (qs k.readylist).Pairwise fun a b => (k.queuetab b).qkey ≤ (k.queuetab a).qkey

/-- **Process table and queue table agree**, apart from a process in transit. -/
structure Placed (strict : Prop) (k : Kernel) (qs : Int → List Int) (out : Option Int) : Prop where
  linked : Linked k.queuetab qs
  placed : ∀ p q, IsProc p → IsQueue q → some p ≠ out → (p ∈ qs q ↔ home k p = some q)
  absent : ∀ p q, IsQueue q → some p = out → p ∉ qs q
  curr : ∀ p, IsProc p → (k.proctab p).prstate = .curr → p = k.currpid
  currProc : IsProc k.currpid
  null : (k.proctab NULLPROC).prstate = .curr ∨ (k.proctab NULLPROC).prstate = .ready
  queues : Queues k
  waits : ∀ p, IsProc p → (k.proctab p).prstate = .wait → ¬ isbadsem (k.proctab p).prsem
  fed : k.starved = false
  ordered : strict → Ordered k qs

/-- What `Placed` reads is the same in both states. -/
structure SameTables (k k' : Kernel) : Prop where
  queuetab : k'.queuetab = k.queuetab
  currpid : k'.currpid = k.currpid
  readylist : k'.readylist = k.readylist
  sleepq : k'.sleepq = k.sleepq
  starved : k'.starved = k.starved
  squeue : ∀ s, (k'.semtab s).squeue = (k.semtab s).squeue
  prstate : ∀ p, (k'.proctab p).prstate = (k.proctab p).prstate
  prsem : ∀ p, (k'.proctab p).prsem = (k.proctab p).prsem
  prprio : ∀ p, (k'.proctab p).prprio = (k.proctab p).prprio

variable {strict : Prop} {k k' : Kernel} {qs : Int → List Int} {out : Option Int} {p q : Int}
  {xs ys : List Int} {t' : QTab}

theorem SameTables.home (h : SameTables k k') (p : Int) : home k' p = home k p := by
  simp only [Xinu.home, h.prstate, h.prsem, h.readylist, h.sleepq, h.squeue]

theorem SameTables.refl (k : Kernel) : SameTables k k :=
  ⟨rfl, rfl, rfl, rfl, rfl, fun _ => rfl, fun _ => rfl, fun _ => rfl, fun _ => rfl⟩

theorem SameTables.trans {k₁ k₂ k₃ : Kernel} (h : SameTables k₁ k₂) (h' : SameTables k₂ k₃) :
    SameTables k₁ k₃ :=
  ⟨h'.queuetab.trans h.queuetab, h'.currpid.trans h.currpid, h'.readylist.trans h.readylist,
    h'.sleepq.trans h.sleepq, h'.starved.trans h.starved,
    fun s => (h'.squeue s).trans (h.squeue s), fun p => (h'.prstate p).trans (h.prstate p),
    fun p => (h'.prsem p).trans (h.prsem p), fun p => (h'.prprio p).trans (h.prprio p)⟩

/-- Assigning fields `Placed` does not read. -/
theorem SameTables.setProc (k : Kernel) (p : Int) {f : Procent → Procent}
    (hf : ∀ e, (f e).prstate = e.prstate ∧ (f e).prsem = e.prsem ∧ (f e).prprio = e.prprio) :
    SameTables k (k.setProc p f) := by
  have h : ∀ x, ((k.setProc p f).proctab x).prstate = (k.proctab x).prstate ∧
      ((k.setProc p f).proctab x).prsem = (k.proctab x).prsem ∧
      ((k.setProc p f).proctab x).prprio = (k.proctab x).prprio := by
    intro x
    by_cases hx : x = p
    · subst hx; rw [setProc_same]; exact hf _
    · rw [setProc_of_ne k f hx]; exact ⟨rfl, rfl, rfl⟩
  exact ⟨rfl, rfl, rfl, rfl, rfl, fun _ => rfl, fun x => (h x).1, fun x => (h x).2.1,
    fun x => (h x).2.2⟩

/-- Assigning a semaphore's fields other than its queue. -/
theorem SameTables.setSem (k : Kernel) (sem : Int) {f : Sentry → Sentry}
    (hf : ∀ e, (f e).squeue = e.squeue) : SameTables k (k.setSem sem f) := by
  refine ⟨rfl, rfl, rfl, rfl, rfl, fun s => ?_, fun _ => rfl, fun _ => rfl, fun _ => rfl⟩
  by_cases hs : s = sem
  · subst hs
    simp only [Kernel.setSem, Function.update_self, hf]
  · simp only [Kernel.setSem, Function.update_of_ne hs]

/-- **Frame rule.** -/
theorem Placed.congr (h : Placed strict k qs out) (e : SameTables k k') :
    Placed strict k' qs out where
  linked := by rw [e.queuetab]; exact h.linked
  placed := fun p q hp hq ho => by rw [e.home]; exact h.placed p q hp hq ho
  absent := h.absent
  curr := fun p hp hc => by rw [e.currpid]; exact h.curr p hp (by rw [← e.prstate]; exact hc)
  currProc := by rw [e.currpid]; exact h.currProc
  null := by rw [e.prstate]; exact h.null
  queues := ⟨by rw [e.readylist]; exact h.queues.ready,
    by rw [e.readylist, e.sleepq]; exact h.queues.sleep,
    fun s hs => by rw [e.readylist, e.sleepq, e.squeue]; exact h.queues.sem s hs⟩
  waits := fun p hp hw => by
    rw [e.prsem]; exact h.waits p hp (by rw [← e.prstate]; exact hw)
  fed := e.starved.trans h.fed
  ordered := fun hs => ⟨fun p hp => by
      rw [e.queuetab, e.prprio]
      exact (h.ordered hs).keys p (by rwa [e.readylist] at hp),
    by rw [e.queuetab, e.readylist]; exact (h.ordered hs).sorted⟩

/-! ## 2. Going into transit and out of it

The states that have no queue are the ways in and out: the entry of such a process can be assigned
to and nothing else has to be looked at. -/

/-- A process on its queue is on it once, at one place. -/
theorem Placed.split (h : Placed strict k qs none) (hp : IsProc p) (hq : IsQueue q)
    (hh : home k p = some q) : ∃ xs ys, qs q = xs ++ p :: ys :=
  List.append_of_mem ((h.placed p q hp hq (by simp)).mpr hh)

/-- A process whose state puts it on no queue can be regarded as in transit. -/
theorem Placed.depart (h : Placed strict k qs none) (hp : IsProc p) (hh : home k p = none) :
    Placed strict k qs (some p) where
  linked := h.linked
  placed := fun x q hx hq _ => h.placed x q hx hq (by simp)
  absent := fun x q hq hx hm => by
    obtain rfl : x = p := by simpa using hx
    have := (h.placed x q hp hq (by simp)).mp hm
    rw [hh] at this
    exact absurd this (by simp)
  curr := h.curr
  currProc := h.currProc
  null := h.null
  queues := h.queues
  waits := h.waits
  fed := h.fed
  ordered := h.ordered

/-- A process in transit whose state puts it on no queue has arrived. -/
theorem Placed.arrive (h : Placed strict k qs (some p)) (hh : home k p = none) :
    Placed strict k qs none where
  linked := h.linked
  placed := fun x q hx hq _ => by
    by_cases hxp : x = p
    · subst hxp
      rw [hh]
      exact ⟨fun hm => absurd hm (h.absent x q hq rfl), fun e => by simp at e⟩
    · exact h.placed x q hx hq (by simpa using hxp)
  absent := fun _ _ _ hx => by simp at hx
  curr := h.curr
  currProc := h.currProc
  null := h.null
  queues := h.queues
  waits := h.waits
  fed := h.fed
  ordered := h.ordered

/-- **Assigning to the entry of a process in transit.**  The new state is anything but
`PR_CURR`; the priority may change, since the process has no key on the ready list. -/
theorem Placed.assign (h : Placed strict k qs (some p)) {f : Procent → Procent}
    (hcurr : (f (k.proctab p)).prstate ≠ .curr)
    (hnull : p = NULLPROC → (f (k.proctab p)).prstate = .ready)
    (hwait : (f (k.proctab p)).prstate = .wait → ¬ isbadsem (f (k.proctab p)).prsem) :
    Placed strict (k.setProc p f) qs (some p) where
  linked := h.linked
  placed := fun x q hx hq ho => by
    have hxp : x ≠ p := by simpa using ho
    have : home (k.setProc p f) x = home k x := by
      simp only [home, setProc_of_ne k f hxp]
      rfl
    rw [this]
    exact h.placed x q hx hq ho
  absent := h.absent
  curr := fun x hx hc => by
    by_cases hxp : x = p
    · subst hxp
      rw [setProc_same] at hc
      exact absurd hc hcurr
    · rw [setProc_of_ne k f hxp] at hc
      exact h.curr x hx hc
  currProc := h.currProc
  null := by
    by_cases hp : NULLPROC = p
    · rw [← hp, setProc_same, hp]
      exact Or.inr (hnull hp.symm)
    · rw [setProc_of_ne k f hp]
      exact h.null
  queues := ⟨h.queues.ready, h.queues.sleep, h.queues.sem⟩
  waits := fun x hx hw => by
    by_cases hxp : x = p
    · subst hxp
      rw [setProc_same] at hw ⊢
      exact hwait hw
    · rw [setProc_of_ne k f hxp] at hw ⊢
      exact h.waits x hx hw
  fed := h.fed
  ordered := fun hs => ⟨fun x hx => by
      have hxp : x ≠ p := by
        rintro rfl
        exact h.absent x _ h.queues.ready rfl hx
      rw [setProc_of_ne k f hxp]
      exact (h.ordered hs).keys x hx,
    (h.ordered hs).sorted⟩

/-- Making a process in transit ready. -/
theorem Placed.setReady (h : Placed strict k qs (some p)) :
    Placed strict (k.setState p .ready) qs (some p) :=
  h.assign (f := fun e => { e with prstate := .ready }) (by simp) (by simp) (by simp)

/-! ## 3. Off a queue and onto one

One rule for each way the source removes a process from a queue, and one for each way it inserts
one. -/

/-- Taking `p` off the list `q`: what remains true whichever routine does it. -/
theorem Placed.takeOff (h : Placed strict k qs none) (hq : IsQueue q)
    (hs : qs q = xs ++ p :: ys) (hl : Linked t' (Function.update qs q (xs ++ ys)))
    (hkey : ∀ i ∈ qs k.readylist, i ≠ p → (t' i).qkey = (k.queuetab i).qkey) :
    Placed strict (k.setQueue t') (Function.update qs q (xs ++ ys)) (some p) := by
  have hpq : p ∈ qs q := by rw [hs]; simp
  have hnd := h.linked.nodup q hq
  rw [hs, List.nodup_middle, List.nodup_cons] at hnd
  have hmem : ∀ x q', IsQueue q' → x ≠ p →
      (x ∈ Function.update qs q (xs ++ ys) q' ↔ x ∈ qs q') := by
    intro x q' _ hx
    by_cases hqq : q' = q
    · subst hqq
      rw [Function.update_self, hs]
      simp [hx]
    · rw [Function.update_of_ne hqq]
  have hout : ∀ q', IsQueue q' → p ∉ Function.update qs q (xs ++ ys) q' := by
    intro q' hq' hm
    by_cases hqq : q' = q
    · subst hqq
      rw [Function.update_self] at hm
      exact hnd.1 hm
    · rw [Function.update_of_ne hqq] at hm
      exact hqq (h.linked.apart q' q p hq' hq hm hpq)
  have hsub : (Function.update qs q (xs ++ ys) k.readylist).Sublist (qs k.readylist) := by
    by_cases hqq : k.readylist = q
    · rw [hqq, Function.update_self, hs]
      exact List.Sublist.append_left (List.sublist_cons_self p ys) xs
    · rw [Function.update_of_ne hqq]
  have hkey' : ∀ i ∈ Function.update qs q (xs ++ ys) k.readylist,
      (t' i).qkey = (k.queuetab i).qkey := by
    intro i hi
    refine hkey i (hsub.subset hi) ?_
    rintro rfl
    exact hout _ h.queues.ready hi
  exact {
    linked := hl
    placed := fun x q' hx hq' ho => by
      have hxp : x ≠ p := by simpa using ho
      rw [hmem x q' hq' hxp]
      exact h.placed x q' hx hq' (by simp)
    absent := fun x q' hq' ho => by
      obtain rfl : x = p := by simpa using ho
      exact hout q' hq'
    curr := h.curr
    currProc := h.currProc
    null := h.null
    queues := ⟨h.queues.ready, h.queues.sleep, h.queues.sem⟩
    waits := h.waits
    fed := h.fed
    ordered := fun hst => ⟨fun i hi => (hkey' i hi).trans
        ((h.ordered hst).keys i (hsub.subset hi)),
      ((h.ordered hst).sorted.sublist hsub).imp_of_mem fun {a b} ha hb hab => by
        show (t' b).qkey ≤ (t' a).qkey
        rw [hkey' a ha, hkey' b hb]
        exact hab⟩ }

/-- Taking the first process off a queue. -/
theorem Placed.takeHead (h : Placed strict k qs none) (hq : IsQueue q) (hs : qs q = p :: ys)
    (hl : Linked t' (Function.update qs q ys)) (hkey : ∀ i, (t' i).qkey = (k.queuetab i).qkey) :
    Placed strict (k.setQueue t') (Function.update qs q ys) (some p) :=
  h.takeOff hq (show qs q = [] ++ p :: ys from hs) hl fun i _ _ => hkey i

/-- **`getitem`.** -/
theorem Placed.getitem (h : Placed strict k qs none) (hp : IsProc p) (hq : IsQueue q)
    (hh : home k p = some q) : ∃ xs ys, qs q = xs ++ p :: ys ∧ Placed strict
      (k.setQueue (getitem p k.queuetab)) (Function.update qs q (xs ++ ys)) (some p) := by
  obtain ⟨xs, ys, hs⟩ := h.split hp hq hh
  exact ⟨xs, ys, hs,
    h.takeOff hq hs (getitem_spec h.linked hq hs) fun i _ _ => getitem_qkey _ _ _⟩

/-- **`dequeue` of a nonempty queue.** -/
theorem Placed.dequeue (h : Placed strict k qs none) (hq : IsQueue q) (hs : qs q = p :: ys) :
    ∃ t', Xinu.dequeue q k.queuetab = (t', p) ∧
      Placed strict (k.setQueue t') (Function.update qs q ys) (some p) ∧
      ∀ i, (t' i).qkey = (k.queuetab i).qkey := by
  obtain ⟨t', hd, hl, hk⟩ := dequeue_spec h.linked hq hs
  exact ⟨t', hd, h.takeHead hq hs hl hk, hk⟩

/-- Putting `p` on the queue its state says. -/
theorem Placed.putOn (h : Placed strict k qs (some p)) (hq : IsQueue q) (hh : home k p = some q)
    (hs : qs q = xs ++ ys) (hl : Linked t' (Function.update qs q (xs ++ p :: ys)))
    (hord : strict → Ordered (k.setQueue t') (Function.update qs q (xs ++ p :: ys))) :
    Placed strict (k.setQueue t') (Function.update qs q (xs ++ p :: ys)) none where
  linked := hl
  placed := fun x q' hx hq' _ => by
    show _ ↔ home k x = some q'
    by_cases hqq : q' = q
    · subst hqq
      rw [Function.update_self]
      by_cases hxp : x = p
      · subst hxp
        simp [hh]
      · rw [← h.placed x q' hx hq' (by simpa using hxp), hs]
        simp [hxp]
    · rw [Function.update_of_ne hqq]
      by_cases hxp : x = p
      · subst hxp
        rw [hh]
        refine ⟨fun hm => absurd hm (h.absent x q' hq' rfl), fun e => ?_⟩
        exact absurd (Option.some.inj e).symm hqq
      · exact h.placed x q' hx hq' (by simpa using hxp)
  absent := fun _ _ _ hx => by simp at hx
  curr := h.curr
  currProc := h.currProc
  null := h.null
  queues := ⟨h.queues.ready, h.queues.sleep, h.queues.sem⟩
  waits := h.waits
  fed := h.fed
  ordered := hord

/-- The order of the ready list does not depend on the other queues. -/
theorem Ordered.frame (h : Ordered k qs) (hq : q ≠ k.readylist) (zs : List Int)
    (hkey : ∀ i ∈ qs k.readylist, (t' i).qkey = (k.queuetab i).qkey) :
    Ordered (k.setQueue t') (Function.update qs q zs) where
  keys := fun i hi => by
    rw [setQueue_readylist, Function.update_of_ne (Ne.symm hq)] at hi
    exact (hkey i hi).trans (h.keys i hi)
  sorted := by
    show (Function.update qs q zs k.readylist).Pairwise _
    rw [Function.update_of_ne (Ne.symm hq)]
    exact h.sorted.imp_of_mem fun {a b} ha hb hab => by
      show (t' b).qkey ≤ (t' a).qkey
      rw [hkey a ha, hkey b hb]
      exact hab

/-- `pri16` is above `MINKEY`. -/
theorem minkey_lt (p : Pri16) : MINKEY < p.val := by
  have := p.property
  simp only [MINKEY]
  omega

/-- **`insert` into the ready list**, with the priority as key. -/
theorem Placed.insertReady (h : Placed strict k qs (some p)) (hp : IsProc p)
    (hst : (k.proctab p).prstate = .ready) :
    ∃ t' xs ys, insert p k.readylist (k.proctab p).prprio.val k =
        some (k.setQueue t', OK) ∧
      Placed strict (k.setQueue t') (Function.update qs k.readylist (xs ++ p :: ys)) none ∧
      ∀ i, i ≠ p → (t' i).qkey = (k.queuetab i).qkey := by
  have hgood : ¬ isbadpid k p := by
    simp only [isbadpid, IsProc] at *
    rintro (h1 | h1 | h1)
    · omega
    · omega
    · rw [hst] at h1; exact absurd h1 (by simp)
  have hh : home k p = some k.readylist := by simp [home, hst]
  have hnew : ∀ q', IsQueue q' → p ∉ qs q' := fun q' hq' => h.absent p q' hq' rfl
  obtain ⟨t', xs, ys, hi, hs, hl, hk, hxs, hys⟩ :=
    insert_spec h.linked h.queues.ready hgood hnew (minkey_lt (k.proctab p).prprio)
  refine ⟨t', xs, ys, hi, h.putOn h.queues.ready hh hs hl fun hstr => ?_,
    fun i hne => by rw [hk, if_neg hne]⟩
  have hpr : p ∉ qs k.readylist := hnew _ h.queues.ready
  have ho := h.ordered hstr
  have hold : ∀ i ∈ qs k.readylist, (t' i).qkey = (k.queuetab i).qkey := by
    intro i him
    rw [hk, if_neg (by rintro rfl; exact hpr him)]
  have hpk : (t' p).qkey = (k.proctab p).prprio.val := by rw [hk, if_pos rfl]
  have hsort := ho.sorted
  rw [hs] at hsort hold
  obtain ⟨h1, h2, h3⟩ := List.pairwise_append.mp hsort
  refine ⟨fun i hi => ?_, ?_⟩
  · show (t' i).qkey = _
    rw [setQueue_readylist, Function.update_self] at hi
    by_cases hip : i = p
    · subst hip; exact hpk
    · have him : i ∈ xs ++ ys := by simpa [hip] using hi
      rw [hold i him]
      exact ho.keys i (by rw [hs]; exact him)
  · -- the keys before the new member are at least its own, and the next one is smaller
    show (Function.update qs k.readylist (xs ++ p :: ys) k.readylist).Pairwise
      fun a b => (t' b).qkey ≤ (t' a).qkey
    rw [Function.update_self]
    have hx : ∀ x ∈ xs, (k.proctab p).prprio.val ≤ (t' x).qkey := by
      intro x hxm
      rw [hold x (by simp [hxm])]
      exact hxs x hxm
    have hy : ∀ y ∈ ys, (t' y).qkey ≤ (k.proctab p).prprio.val := by
      intro y hym
      rw [hold y (by simp [hym])]
      cases ys with
      | nil => simp at hym
      | cons z zs =>
        have hz := hys z rfl
        rcases List.mem_cons.mp hym with rfl | hzm
        · omega
        · have := (List.pairwise_cons.mp h2).1 y hzm
          omega
    have back : ∀ zs : List Int, (∀ i ∈ zs, i ∈ xs ++ ys) →
        zs.Pairwise (fun a b => (k.queuetab b).qkey ≤ (k.queuetab a).qkey) →
        zs.Pairwise fun a b => (t' b).qkey ≤ (t' a).qkey := fun zs hz hp =>
      hp.imp_of_mem fun {a b} ha hb hab => by
        rw [hold a (hz a ha), hold b (hz b hb)]
        exact hab
    refine List.pairwise_append.mpr ⟨back xs (fun i hi => by simp [hi]) h1,
      List.pairwise_cons.mpr ⟨fun y hym => ?_, back ys (fun i hi => by simp [hi]) h2⟩, ?_⟩
    · rw [hpk]; exact hy y hym
    · intro x hxm y hym
      rcases List.mem_cons.mp hym with rfl | hym
      · rw [hpk]; exact hx x hxm
      · rw [hold x (by simp [hxm]), hold y (by simp [hym])]
        exact h3 x hxm y hym

/-- **`insertd` into the sleep queue**, of a process whose state already puts it there or that
is about to be given such a state. -/
theorem Placed.insertdSleep (h : Placed strict k qs (some p)) (hgood : ¬ isbadpid k p)
    (key : Int) {f : Procent → Procent}
    (hf : (f (k.proctab p)).prstate = .sleep ∨ (f (k.proctab p)).prstate = .rectim)
    (hnull : p ≠ NULLPROC) :
    ∃ t' xs ys, insertd p k.sleepq key k = some (k.setQueue t', OK) ∧ qs k.sleepq = xs ++ ys ∧
      Placed strict ((k.setQueue t').setProc p f)
        (Function.update qs k.sleepq (xs ++ p :: ys)) none ∧
      ∀ i, i ≠ p → i ∉ qs k.sleepq → (t' i).qkey = (k.queuetab i).qkey := by
  have hnew : ∀ q', IsQueue q' → p ∉ qs q' := fun q' hq' => h.absent p q' hq' rfl
  obtain ⟨t', xs, ys, hi, hs, hl, hk⟩ :=
    insertd_spec h.linked h.queues.sleep.1 hgood hnew key
  have hst : (f (k.proctab p)).prstate ≠ .curr ∧ (f (k.proctab p)).prstate ≠ .wait := by
    rcases hf with e | e <;> rw [e] <;> simp
  have ha := h.assign (f := f) hst.1 (fun e => absurd e hnull) fun e => absurd e hst.2
  have hh : home (k.setProc p f) p = some k.sleepq := by
    rcases hf with e | e <;> simp [home, setProc_same, e]
  refine ⟨t', xs, ys, hi, hs, ha.putOn h.queues.sleep.1 hh hs hl fun hstr => ?_, hk⟩
  refine Ordered.frame (ha.ordered hstr) h.queues.sleep.2 _ fun i hir => ?_
  refine hk i ?_ ?_
  · rintro rfl; exact hnew _ h.queues.ready hir
  · intro him
    exact h.queues.sleep.2 (h.linked.apart _ _ i h.queues.sleep.1 h.queues.ready him hir)

/-- **`enqueue` on the queue of a semaphore.** -/
theorem Placed.enqueueWait (h : Placed strict k qs (some p)) (hp : IsProc p)
    (hst : (k.proctab p).prstate = .wait) :
    ∃ t', enqueue p (k.semtab (k.proctab p).prsem).squeue k =
        (k.setQueue t', p) ∧
      Placed strict (k.setQueue t') (Function.update qs (k.semtab (k.proctab p).prsem).squeue
        (qs (k.semtab (k.proctab p).prsem).squeue ++ [p])) none ∧
      ∀ i, (t' i).qkey = (k.queuetab i).qkey := by
  have hgood : ¬ isbadpid k p := by
    simp only [isbadpid, IsProc] at *
    rintro (h1 | h1 | h1)
    · omega
    · omega
    · rw [hst] at h1; exact absurd h1 (by simp)
  obtain ⟨hq, hqr, -⟩ := h.queues.sem _ (h.waits p hp hst)
  have hnew : ∀ q', IsQueue q' → p ∉ qs q' := fun q' hq' => h.absent p q' hq' rfl
  obtain ⟨t', he, hl, hk⟩ := enqueue_spec h.linked hq hgood hnew
  have hh : home k p = some (k.semtab (k.proctab p).prsem).squeue := by simp [home, hst]
  exact ⟨t', he, h.putOn hq hh (List.append_nil _).symm hl fun hstr =>
    Ordered.frame (h.ordered hstr) hqr _ fun i _ => hk i, hk⟩

/-- Changing the key of a process that is not on the ready list. -/
theorem Placed.setKey (h : Placed strict k qs none) (hp : IsProc p)
    (hst : (k.proctab p).prstate ≠ .ready) (v : Int) :
    Placed strict (k.setQueue (k.queuetab.setKey p v)) qs none where
  linked := h.linked.setKey hp v
  placed := h.placed
  absent := h.absent
  curr := h.curr
  currProc := h.currProc
  null := h.null
  queues := ⟨h.queues.ready, h.queues.sleep, h.queues.sem⟩
  waits := h.waits
  fed := h.fed
  ordered := fun hstr => by
    have hne : ∀ i ∈ qs k.readylist, i ≠ p := by
      rintro i hi rfl
      have hh := (h.placed i _ hp h.queues.ready (by simp)).mp hi
      simp only [home] at hh
      split at hh
      · contradiction
      · exact h.queues.sleep.2 (Option.some.inj hh)
      · exact h.queues.sleep.2 (Option.some.inj hh)
      · rename_i hw
        exact (h.queues.sem _ (h.waits i hp hw)).2.1 (Option.some.inj hh)
      · simp at hh
    have ho := h.ordered hstr
    refine ⟨fun i hi => ?_, ho.sorted.imp_of_mem fun {a b} ha hb hab => ?_⟩
    · rw [setQueue_queuetab, setKey_qkey, if_neg (hne i hi)]
      exact ho.keys i hi
    · simp only [setQueue_queuetab, setKey_qkey, if_neg (hne a ha), if_neg (hne b hb)]
      exact hab

end Xinu
