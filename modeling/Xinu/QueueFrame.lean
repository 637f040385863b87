/-
# Which queues a call touches

Every scheduling call works on the ready list and on one other queue at most: the queue of the
semaphore it is about, the sleep queue, or the queue a killed process is on.  All other queues
keep their members, in their order, with their keys (`enter_frame`, `finish_frame`).

Scheduling makes processes active, that is ready or running, and changes no other state
(`Wakes`), so what a routine has made ready is still on its way when the routine returns.

A queue is given by its entries, the members with their keys.  That a call leaves a queue alone is
the equation between its entries before and after, so frames compose by transitivity, and a loop
has the frame of its round.  The semaphore calls are the exception that the frames are for: what
they do to their own queue is that its first processes are released (`Releases`).
-/
import Xinu.Mail

namespace Xinu

open LinkedPath

variable {strict : Prop} {k k' : Kernel} {qs : Int → List Int} {p q sem : Int} {xs ys : List Int}

/-! ## 1. Processes on their way

A process that has been made ready may already have been given the processor when the routine
returns, and lost it again.  `Active` does not tell these apart, and `Wakes` says that nothing
else about states changes. -/

/-- The process is ready or has the processor. -/
def Active (k : Kernel) (p : Int) : Prop :=
  (k.proctab p).prstate = .ready ∨ (k.proctab p).prstate = .curr

theorem Active.of_prstate (h : Active k p) (e : (k'.proctab p).prstate = (k.proctab p).prstate) :
    Active k' p := by
  unfold Active
  rw [e]
  exact h

theorem insert_proctab {key : Int} {r : Kernel × Int} (h : insert p q key k = some r) :
    r.1.proctab = k.proctab := by
  unfold insert at h
  split_ifs at h with h1
  · rw [← Option.some.inj h]
  · obtain ⟨x, -, hx⟩ := Option.bind_eq_some_iff.mp h
    rw [← Option.some.inj hx]
    rfl

/-- **Every process is active afterwards, or was not and keeps its state.** -/
def Wakes (k k' : Kernel) : Prop :=
  ∀ p, Active k' p ∨ ¬ Active k p ∧ (k'.proctab p).prstate = (k.proctab p).prstate

theorem Wakes.active (h : Wakes k k') (hp : Active k p) : Active k' p :=
  (h p).resolve_right fun h => h.1 hp

theorem Wakes.of_prstate (h : ∀ p, (k'.proctab p).prstate = (k.proctab p).prstate) :
    Wakes k k' := by
  intro p
  by_cases hp : Active k p
  · exact Or.inl (hp.of_prstate (h p))
  · exact Or.inr ⟨hp, h p⟩

theorem Wakes.trans {k₁ k₂ k₃ : Kernel} (h : Wakes k₁ k₂) (h' : Wakes k₂ k₃) : Wakes k₁ k₃ := by
  intro p
  rcases h' p with h3 | ⟨h2, h3⟩
  · exact Or.inl h3
  · obtain ⟨h1, h4⟩ := (h p).resolve_left h2
    exact Or.inr ⟨h1, h3.trans h4⟩

theorem Wakes.setState (k : Kernel) (x : Int) {st : PrState} (hst : st = .ready ∨ st = .curr) :
    Wakes k (k.setState x st) := by
  intro p
  simp only [Active, setState_prstate]
  split_ifs
  · exact Or.inl hst
  · tauto

theorem dispatch_wakes (k : Kernel) : Wakes k (dispatch k) :=
  Wakes.setState k (dequeue k.readylist k.queuetab).2 (Or.inr rfl)

/-- **`resched` takes the processor away, but puts its holder on the ready list.** -/
theorem resched_wakes (hr : resched k = some k') : Wakes k k' := by
  have hsame : ∀ t : Kernel, t.proctab = k.proctab → Wakes k t := by
    intro t ht
    exact .of_prstate fun p => by rw [ht]
  unfold resched at hr
  split_ifs at hr with h1 h2 h3
  · rw [← Option.some.inj hr]; exact hsame _ rfl
  · rw [← Option.some.inj hr]; exact hsame _ rfl
  · obtain ⟨x, hx, hr⟩ := Option.bind_eq_some_iff.mp hr
    rw [← Option.some.inj hr]
    refine ((Wakes.setState k k.currpid (Or.inl rfl)).trans ?_).trans (dispatch_wakes x.1)
    exact .of_prstate fun p => by rw [insert_proctab hx]
  · rw [← Option.some.inj hr]; exact dispatch_wakes k

theorem ready_wakes {r : Kernel × Int} (hr : ready p k = some r) : Wakes k r.1 := by
  unfold ready at hr
  split_ifs at hr with h1
  · rw [← Option.some.inj hr]; exact .of_prstate fun _ => rfl
  · obtain ⟨y, hy, hr⟩ := Option.bind_eq_some_iff.mp hr
    obtain ⟨z, hz, hr⟩ := Option.bind_eq_some_iff.mp hr
    rw [← Option.some.inj hr]
    refine ((Wakes.setState k p (Or.inl rfl)).trans ?_).trans (resched_wakes hz)
    exact .of_prstate fun x => by rw [insert_proctab hy]

/-- `ready` makes its process active. -/
theorem ready_active {r : Kernel × Int} (hr : ready p k = some r) (hgood : ¬ isbadpid k p) :
    Active r.1 p := by
  unfold ready at hr
  rw [if_neg hgood] at hr
  obtain ⟨y, hy, hr⟩ := Option.bind_eq_some_iff.mp hr
  obtain ⟨z, hz, hr⟩ := Option.bind_eq_some_iff.mp hr
  rw [← Option.some.inj hr]
  refine (resched_wakes hz).active (Or.inl ?_)
  rw [insert_proctab hy, setState_same]

/-! ## 2. `resched` and `ready`

Both work on the ready list only: `resched` inserts the process that gives up the processor and
takes off the first one, and `ready` inserts its process and calls `resched`. -/

/-- Taking `p` off `q` or putting it there shows on no other queue. -/
theorem Linked.entries_update {t t' : QTab} {zs : List Int} {q' : Int} (h : Linked t qs)
    (h' : Linked t' (Function.update qs q zs)) (hq' : IsQueue q') (hne : q' ≠ q)
    (hk : ∀ i ∈ qs q', (t' i).qkey = (t i).qkey) : t'.entries q' = t.entries q' :=
  h.entries_congr h' hq' (Function.update_of_ne hne _ _) hk

theorem dispatch_entries (h : Placed strict k qs none) (hq : IsQueue q) (hr : q ≠ k.readylist) :
    (dispatch k).queuetab.entries q = k.queuetab.entries q := by
  have hd : (dispatch k).queuetab = (dequeue k.readylist k.queuetab).1 := rfl
  rw [hd]
  cases hs : qs k.readylist with
  | nil => rw [dequeue_nil h.linked h.queues.ready hs]
  | cons p ys =>
    obtain ⟨t', he, hl, hk⟩ := dequeue_spec h.linked h.queues.ready hs
    rw [he]
    exact h.linked.entries_update hl hq hr fun i _ => hk i

theorem resched_entries (h : Placed strict k qs none) (hs : resched k = some k') (hq : IsQueue q)
    (hr : q ≠ k.readylist) : k'.queuetab.entries q = k.queuetab.entries q := by
  unfold resched at hs
  split_ifs at hs with h1 h2 h3
  · rw [← Option.some.inj hs]; rfl
  · rw [← Option.some.inj hs]
  · -- the current process goes back to the ready list
    have ha := (h.depart h.currProc (by simp [home, h2])).setReady
    obtain ⟨t', xs, ys, hi, hp', hk⟩ := ha.insertReady h.currProc (by rw [setState_same])
    rw [setState_same] at hi
    obtain ⟨x, hx, hs⟩ := Option.bind_eq_some_iff.mp hs
    obtain rfl := Option.some.inj (hi.symm.trans hx)
    rw [← Option.some.inj hs]
    refine (dispatch_entries hp' hq hr).trans ?_
    refine h.linked.entries_update hp'.linked hq hr fun i hi => hk i ?_
    rintro rfl
    exact ha.absent _ q hq rfl hi
  · rw [← Option.some.inj hs]
    exact dispatch_entries h hq hr

/-- **`ready` works on the ready list only.** -/
theorem ready_entries (h : Placed strict k qs (some p)) {r : Kernel × Int}
    (hs : ready p k = some r) (hq : IsQueue q) (hr : q ≠ k.readylist) :
    r.1.queuetab.entries q = k.queuetab.entries q := by
  by_cases hbad : isbadpid k p
  · rw [ready_bad hbad] at hs
    rw [← Option.some.inj hs]
  · obtain ⟨t', xs, ys, hp', hk, he⟩ := ready_eq h hbad
    rw [he] at hs
    obtain ⟨k₁, h1, rfl⟩ := Option.map_eq_some_iff.mp hs
    refine (resched_entries hp' h1 hq hr).trans ?_
    refine h.linked.entries_update hp'.linked hq hr fun i hi => hk i ?_
    rintro rfl
    exact h.absent _ q hq rfl hi

/-! ## 3. Releasing the first processes of a queue

`Releases` composes: releasing `m` and then `n` processes releases `m + n`.  So it has to be shown
of one process taken off the front and made ready. -/

/-- **The first `n` processes of `q` are released**: they leave the queue in order and are on their
way, and no other queue but the ready list shows it. -/
structure Releases (q : Int) (n : Nat) (k k' : Kernel) : Prop where
  entries : k'.queuetab.entries q = (k.queuetab.entries q).drop n
  active : ∀ p ∈ (k.queuetab.members q).take n, Active k' p
  wakes : Wakes k k'
  others : ∀ q', IsQueue q' → q' ≠ k.readylist → q' ≠ q →
    k'.queuetab.entries q' = k.queuetab.entries q'
  ready : k'.readylist = k.readylist

theorem Releases.members {n : Nat} (h : Releases q n k k') :
    k'.queuetab.members q = (k.queuetab.members q).drop n := by
  rw [← map_fst_entries, h.entries, List.map_drop, map_fst_entries]

theorem Releases.trans {k₁ k₂ k₃ : Kernel} {m n : Nat} (h : Releases q m k₁ k₂)
    (h' : Releases q n k₂ k₃) : Releases q (m + n) k₁ k₃ where
  entries := by rw [h'.entries, h.entries, List.drop_drop]
  active := by
    intro p hp
    rw [List.take_add, List.mem_append, ← h.members] at hp
    rcases hp with hp | hp
    · exact h'.wakes.active (h.active p hp)
    · exact h'.active p hp
  wakes := h.wakes.trans h'.wakes
  others := fun q' hq hr hne => (h'.others q' hq (by rw [h.ready]; exact hr) hne).trans
    (h.others q' hq hr hne)
  ready := h'.ready.trans h.ready

/-- Nobody is released by a change that shows neither in the queues nor in the states. -/
theorem Releases.of_same (ht : k'.queuetab = k.queuetab) (hr : k'.readylist = k.readylist)
    (hp : ∀ p, (k'.proctab p).prstate = (k.proctab p).prstate) : Releases q 0 k k' where
  entries := by rw [ht]; rfl
  active := by simp
  wakes := .of_prstate hp
  others := fun q' _ _ _ => by rw [ht]
  ready := hr

/-- An empty queue releases any number. -/
theorem Releases.of_nil {m : Nat} (h : Releases q m k k') (hn : k.queuetab.members q = [])
    (n : Nat) : Releases q n k k' :=
  ⟨by rw [h.entries, QTab.entries, hn]; simp, by simp [hn], h.wakes, h.others, h.ready⟩

theorem resched_releases (h : Placed strict k qs none) (hs : resched k = some k') (hq : IsQueue q)
    (hr : q ≠ k.readylist) : Releases q 0 k k' where
  entries := resched_entries h hs hq hr
  active := by simp
  wakes := resched_wakes hs
  others := fun _ hq' hr' _ => resched_entries h hs hq' hr'
  ready := (resched_only hs).queueids.1

/-- **The process removed from the front of a queue and made ready.** -/
theorem Leaving.releases {t' : QTab} {v : Int} (h : Leaving strict k qs q t' p ys)
    (hl : Linked k.queuetab qs) (hq : IsQueue q) (hr : q ≠ k.readylist)
    (hs : ready p (k.setQueue t') = some (k', v)) : Releases q 1 k k' where
  entries := by
    rw [ready_entries h.placed hs hq hr, hl.entries_eq hq, h.first]
    refine (h.placed.linked.entries_eq hq).trans ?_
    rw [Function.update_self]
    exact List.map_congr_left fun i _ => by rw [setQueue_queuetab, h.keys]
  active := by
    intro x hx
    rw [hl.members_eq hq, h.first] at hx
    obtain rfl : x = p := by simpa using hx
    exact ready_active hs h.good
  wakes := ready_wakes hs
  others := fun q' hq' hr' hne => (ready_entries h.placed hs hq' hr').trans
    (hl.entries_update h.placed.linked hq' hne fun i _ => h.keys i)
  ready := (ready_only hs).queueids.1

/-! ## 4. The loops over a semaphore's queue

Each loop releases as many processes as it has rounds that find one.  They run between
`DEFER_START` and `DEFER_STOP`, and the reschedule at the end releases nobody. -/

/-- The queue of a semaphore is neither the ready list nor the sleep queue. -/
theorem Placed.squeue (h : Placed strict k qs none) (hsem : ¬ isbadsem sem) :
    IsQueue (k.semtab sem).squeue ∧ (k.semtab sem).squeue ≠ k.readylist :=
  ⟨(h.queues.sem sem hsem).1, (h.queues.sem sem hsem).2.1⟩

/-- One round counts, and releases one process if the count was negative. -/
theorem countUp_releases (h : Placed strict k qs none)
    (hrun : (k.proctab k.currpid).prstate = .curr) (hsem : ¬ isbadsem sem)
    {take : QTab → QTab × Int} (ht : TakesFirst (k.semtab sem).squeue take)
    (hs : countUp take sem k = some k') :
    Releases (k.semtab sem).squeue (if (k.semtab sem).scount < 0 then 1 else 0) k k' ∧
      k'.semtab = (k.setSem sem fun s => { s with scount := int32 (s.scount + 1) }).semtab := by
  obtain ⟨hq, hr⟩ := h.squeue hsem
  have h₀ : Releases (k.semtab sem).squeue 0 k
      (k.setSem sem fun s => { s with scount := int32 (s.scount + 1) }) :=
    .of_same rfl rfl fun _ => rfl
  rcases countUp_cases h hrun hsem ht hs with ⟨hc, rfl⟩ | ⟨hc, t', p, ys, v, hlv, hrd⟩
  · rcases hc with hc | hc
    · rw [if_neg (not_lt.mpr hc)]
      exact ⟨h₀, rfl⟩
    · exact ⟨h₀.of_nil ((h.linked.members_eq hq).trans hc) _, rfl⟩
  · rw [if_pos hc]
    have h₁ := hlv.releases h.linked hq hr hrd
    exact ⟨⟨h₁.entries, h₁.active, h₁.wakes, h₁.others, h₁.ready⟩, (ready_only hrd).semtab⟩

/-- The processes waiting for a semaphore, oldest first. -/
def waitList (k : Kernel) (sem : Int) : List Int := k.queuetab.members (k.semtab sem).squeue

theorem Placed.waitList_eq (h : Placed strict k qs none) (hsem : ¬ isbadsem sem) :
    waitList k sem = qs (k.semtab sem).squeue := h.linked.members_eq (h.squeue hsem).1

/-- **The loop of `semreset`** releases everybody. -/
theorem semresetLoop_releases (hd : Deferred strict k) (hsem : ¬ isbadsem sem) {fuel : Nat}
    (hs : semresetLoop (k.semtab sem).squeue fuel k = some k') :
    Releases (k.semtab sem).squeue (waitList k sem).length k k' ∧ k'.semtab = k.semtab := by
  generalize hq : (k.semtab sem).squeue = q at hs
  induction fuel generalizing k with
  | zero => simp [semresetLoop] at hs
  | succ fuel ih =>
    obtain ⟨qs, hp⟩ := hd.placed
    have hw := hp.waitList_eq hsem
    obtain ⟨hisq, hr⟩ := hp.squeue hsem
    rw [hq] at hw hisq hr
    rcases semresetLoop_cases hsem hp hd.running hq hs with ⟨hl, rfl⟩ |
      ⟨t', p, ys, k₁, v, hlv, hrd, hs⟩
    · rw [hw, hl]
      exact ⟨.of_same rfl rfl fun _ => rfl, rfl⟩
    · obtain ⟨k₂, hr', hd₁, hq₁⟩ :=
        ready_deferred hlv.placed hlv.good hlv.recv hlv.other hd.running hd.once
      obtain ⟨rfl, -⟩ := Prod.mk.inj (Option.some.inj (hr'.symm.trans hrd))
      have hr₁ := hlv.releases hp.linked hisq hr hrd
      have he₁ : k₂.semtab = k.semtab := (ready_only hrd).semtab
      obtain ⟨hr₂, he₂⟩ := ih hd₁ (by rw [he₁]; exact hq) hs
      have hlen : 1 + (waitList k₂ sem).length = (waitList k sem).length := by
        rw [hw, hlv.first, waitList, he₁, hq, hr₁.members, hp.linked.members_eq hisq, hlv.first]
        simp only [List.drop_succ_cons, List.drop_zero, List.length_cons]
        omega
      exact ⟨hlen ▸ hr₁.trans hr₂, he₂.trans he₁⟩

/-- `DEFER_STOP` releases nobody. -/
theorem deferStop_releases (h : Deferred strict k) {r : Kernel × Int}
    (hs : reschedCntl DEFER_STOP k = some r) (hq : IsQueue q) (hr : q ≠ k.readylist) :
    Releases q 0 k r.1 := by
  have hne : ¬ DEFER_STOP = DEFER_START := by decide
  have hnd : ¬ k.defer.ndefers ≤ 0 := by rw [h.once]; decide
  obtain ⟨qs, hp⟩ := h.placed
  have he : SameTables k (k.setDefer ⟨k.defer.ndefers - 1, k.defer.attempt⟩) :=
    ⟨rfl, rfl, rfl, rfl, rfl, fun _ => rfl, fun _ => rfl, fun _ => rfl, fun _ => rfl⟩
  have h₀ : Releases q 0 k (k.setDefer ⟨k.defer.ndefers - 1, k.defer.attempt⟩) :=
    .of_same rfl rfl fun _ => rfl
  simp only [reschedCntl, hne, if_false, if_true, hnd] at hs
  split_ifs at hs with ha
  · obtain ⟨k₁, h1, hs⟩ := Option.bind_eq_some_iff.mp hs
    rw [← Option.some.inj hs]
    exact h₀.trans (resched_releases (hp.congr he) h1 hq hr)
  · rw [← Option.some.inj hs]
    exact h₀

/-- **A loop run between `DEFER_START` and `DEFER_STOP` releases what the loop releases.** -/
theorem deferred_releases (h : Settled strict k) {f : Kernel → Option Kernel}
    {P : Nat → (Int → Sentry) → Prop} (hq : IsQueue q) (hr : q ≠ k.readylist)
    (hf : ∀ k₁ k₂, SameTables k k₁ → k₁.semtab = k.semtab → Deferred strict k₁ →
      f k₁ = some k₂ → Deferred strict k₂ ∧ ∃ n, Releases q n k₁ k₂ ∧ P n k₂.semtab)
    {r : Kernel × Int}
    (hs : (do
      let (k, _) ← reschedCntl DEFER_START k
      let k ← f k
      let (k, _) ← reschedCntl DEFER_STOP k
      return (k, OK)) = some r) : ∃ n, Releases q n k r.1 ∧ P n r.1.semtab := by
  obtain ⟨k₁, h1, hd₁, -, he⟩ := deferStart_spec h
  have ho := reschedCntl_only h1
  simp only [h1, Option.bind_eq_bind, Option.bind_some] at hs
  obtain ⟨k₂, h2, hs⟩ := Option.bind_eq_some_iff.mp hs
  obtain ⟨⟨k₃, v⟩, h3, hs⟩ := Option.bind_eq_some_iff.mp hs
  rw [← Option.some.inj hs]
  obtain ⟨hd₂, n, hr₂, hP⟩ := hf k₁ k₂ he ho.semtab hd₁ h2
  have hr₁ : Releases q 0 k k₁ := .of_same he.queuetab he.readylist he.prstate
  have hr₁₂ := hr₁.trans hr₂
  have hr₃ := deferStop_releases hd₂ h3 hq (by rw [hr₁₂.ready]; exact hr)
  refine ⟨n, Nat.zero_add n ▸ hr₁₂.trans hr₃, ?_⟩
  rw [(reschedCntl_only h3).semtab]
  exact hP

theorem signalnLoop_releases (hd : Deferred strict k) (hsem : ¬ isbadsem sem) {n : Nat}
    (hs : signalnLoop sem n k = some k') : ∃ m, Releases (k.semtab sem).squeue m k k' := by
  induction n generalizing k with
  | zero =>
    rw [← Option.some.inj hs]
    exact ⟨0, .of_same rfl rfl fun _ => rfl⟩
  | succ n ih =>
    obtain ⟨k₁, h1, hs⟩ := Option.bind_eq_some_iff.mp hs
    obtain ⟨hd₁, hq₁⟩ := signalOnce_deferred hd hsem h1
    obtain ⟨qs, hp⟩ := hd.placed
    rw [signalOnce_eq] at h1
    obtain ⟨hr₁, -⟩ := countUp_releases hp hd.running hsem (dequeue_takes (hp.squeue hsem).1) h1
    obtain ⟨m, hr₂⟩ := ih hd₁ hs
    rw [hq₁.ids.2.2 sem] at hr₂
    exact ⟨_, hr₁.trans hr₂⟩

theorem semdeleteLoop_releases (hd : Deferred strict k) (hsem : ¬ isbadsem sem)
    {fuel : Nat} (hs : semdeleteLoop sem fuel k = some k') :
    ∃ m, Releases (k.semtab sem).squeue m k k' := by
  induction fuel generalizing k with
  | zero => simp [semdeleteLoop] at hs
  | succ fuel ih =>
    rw [semdeleteLoop_succ] at hs
    split_ifs at hs with hc
    · obtain ⟨k₁, h1, hs⟩ := Option.bind_eq_some_iff.mp hs
      obtain ⟨qs, hp⟩ := hd.placed
      have ht := getfirst_takes (hp.squeue hsem).1
      obtain ⟨hd₁, hq₁⟩ := countUp_deferred hd hsem ht h1
      obtain ⟨hr₁, -⟩ := countUp_releases hp hd.running hsem ht h1
      obtain ⟨m, hr₂⟩ := ih hd₁ hs
      rw [hq₁.ids.2.2 sem] at hr₂
      exact ⟨_, hr₁.trans hr₂⟩
    · rw [← Option.some.inj hs]
      exact ⟨0, .of_same rfl rfl fun _ => rfl⟩

/-! ## 5. The calls

One frame for each call that puts nobody to sleep, with the queue it works on as a parameter: the
queue of the semaphore, or the one that the victim of `kill` is on. -/

/-- **What a call that puts nobody to sleep does to the queues and the sleepers**: the queues other
than the ready list and `o` keep their entries, and whoever sleeps afterwards slept before. -/
structure QueueFrame (o : Option Int) (k k' : Kernel) : Prop where
  entries : ∀ q, IsQueue q → q ≠ k.readylist → o ≠ some q →
    k'.queuetab.entries q = k.queuetab.entries q
  asleep : ∀ st, st = .sleep ∨ st = .rectim → ∀ p, (k'.proctab p).prstate = st →
    (k.proctab p).prstate = st

theorem Wakes.asleep (h : Wakes k k') {st : PrState} (hst : st = .sleep ∨ st = .rectim) (p : Int)
    (hp : (k'.proctab p).prstate = st) : (k.proctab p).prstate = st := by
  rcases h p with h1 | h1
  · unfold Active at h1
    rcases hst with rfl | rfl <;> simp [hp] at h1
  · exact h1.2.symm.trans hp

/-- Nothing is changed that a frame sees. -/
theorem QueueFrame.of_same (o : Option Int) (ht : k'.queuetab = k.queuetab)
    (hp : ∀ p, (k'.proctab p).prstate = (k.proctab p).prstate) : QueueFrame o k k' :=
  ⟨fun _ _ _ _ => by rw [ht], fun _ _ p h => (hp p).symm.trans h⟩

theorem QueueFrame.of_bland (o : Option Int) (h : Bland k k') : QueueFrame o k k' :=
  .of_same o h.same.queuetab h.same.prstate

theorem Releases.frame {n : Nat} (h : Releases q n k k') : QueueFrame (some q) k k' :=
  ⟨fun q' hq hr hne => h.others q' hq hr fun e => hne (e ▸ rfl),
    fun _ hst => h.wakes.asleep hst⟩

/-- Calling `resched` after a change. -/
theorem QueueFrame.resched {o : Option Int} {k₁ : Kernel} (h : QueueFrame o k k₁)
    (hr : k₁.readylist = k.readylist)
    (hp : Placed strict k₁ qs none) (hs : resched k₁ = some k') : QueueFrame o k k' :=
  ⟨fun q hq hne ho => (resched_entries hp hs hq (by rw [hr]; exact hne)).trans
      (h.entries q hq hne ho),
    fun st hst p hp' => h.asleep st hst p ((resched_wakes hs).asleep hst p hp')⟩

/-- Giving a process a state in which it does not sleep. -/
theorem QueueFrame.setState (o : Option Int) (k : Kernel) (p : Int) {st : PrState}
    (hst : st ≠ .sleep ∧ st ≠ .rectim) : QueueFrame o k (k.setState p st) := by
  refine ⟨fun _ _ _ _ => rfl, fun st' hst' x hx => ?_⟩
  rw [setState_prstate] at hx
  split_ifs at hx with hxp
  · rcases hst' with rfl | rfl
    · exact absurd hx hst.1
    · exact absurd hx hst.2
  · exact hx

theorem yield_frame (h : Settled strict k) {r : Kernel × Int} (hs : yield k = some r) :
    QueueFrame none k r.1 := by
  obtain ⟨qs, hp⟩ := h.placed
  obtain ⟨k₁, h1, hs⟩ := Option.bind_eq_some_iff.mp hs
  rw [← Option.some.inj hs]
  exact (QueueFrame.of_same none rfl fun _ => rfl).resched rfl hp h1

/-- The current process gives itself a state with no queue and calls `resched`. -/
theorem block_frame (h : Settled strict k) (hcur : k.currpid ≠ NULLPROC) {st : PrState}
    (hst : st = .recv ∨ st = .susp) (hs : resched (k.setState k.currpid st) = some k') :
    QueueFrame none k k' := by
  obtain ⟨qs, -, hb⟩ := block_placed h hcur hst
  refine (QueueFrame.setState none k k.currpid ?_).resched rfl hb hs
  rcases hst with rfl | rfl <;> simp

theorem receive_frame (h : Settled strict k) (hcur : k.currpid ≠ NULLPROC) {r : Kernel × Cont}
    (hs : receive k = some r) : QueueFrame none k r.1 := by
  unfold receive at hs
  split_ifs at hs with h1
  · obtain ⟨k₁, h2, hs⟩ := Option.bind_eq_some_iff.mp hs
    rw [← Option.some.inj hs]
    exact block_frame h hcur (Or.inl rfl) h2
  · rw [← Option.some.inj hs]
    exact .of_same none rfl fun _ => rfl

/-- Taking a ready process off the ready list and giving it a state with no queue. -/
theorem unready_frame (h : Settled strict k) (hp : IsProc p) (hr : (k.proctab p).prstate = .ready)
    {st : PrState} (hst : st ≠ .sleep ∧ st ≠ .rectim) (o : Option Int) :
    QueueFrame o k ((k.setQueue (getitem p k.queuetab)).setState p st) := by
  obtain ⟨qs, hpl⟩ := h.placed
  obtain ⟨_, _, -, hg⟩ := hpl.getitem hp hpl.queues.ready (by simp [home, hr])
  refine ⟨fun q hq hne _ =>
    ?_, (QueueFrame.setState o (k.setQueue (getitem p k.queuetab)) p hst).asleep⟩
  exact hpl.linked.entries_update hg.linked hq hne fun i _ => getitem_qkey _ _ _

theorem suspend_frame (h : Settled strict k) {pid : Int} {r : Kernel × Cont}
    (hs : suspend pid k = some r) : QueueFrame none k r.1 := by
  unfold suspend at hs
  split_ifs at hs with h1 h2 h3
  · rw [← Option.some.inj hs]; exact .of_same none rfl fun _ => rfl
  · rw [← Option.some.inj hs]; exact .of_same none rfl fun _ => rfl
  · -- a ready process
    simp only [not_or] at h1
    rw [← Option.some.inj hs]
    exact unready_frame h (IsProc.of_not_bad h1.1) h3 (by simp) none
  · -- the current process itself
    simp only [not_or] at h1
    have hc : (k.proctab pid).prstate = .curr := by
      by_contra hc
      exact h2 ⟨hc, h3⟩
    obtain ⟨qs, hp⟩ := h.placed
    obtain rfl := hp.curr pid (IsProc.of_not_bad h1.1) hc
    obtain ⟨k₁, h4, hs⟩ := Option.bind_eq_some_iff.mp hs
    rw [← Option.some.inj hs]
    exact block_frame h h1.2 (Or.inr rfl) h4

/-- `ready` of a suspended process. -/
theorem ready_frame (h : Placed strict k qs none) (hp : (k.proctab p).prstate = .susp)
    {r : Kernel × Int} (hs : ready p k = some r) : QueueFrame none k r.1 := by
  refine ⟨fun q hq hr _ => ?_, fun _ hst => (ready_wakes hs).asleep hst⟩
  by_cases hbad : isbadpid k p
  · rw [ready_bad hbad] at hs
    rw [← Option.some.inj hs]
  · exact ready_entries (h.depart (IsProc.of_not_bad hbad) (by simp [home, hp])) hs hq hr

theorem resume_frame (h : Settled strict k) {pid : Int} {r : Kernel × Int}
    (hs : resume pid k = some r) : QueueFrame none k r.1 := by
  unfold resume at hs
  split_ifs at hs with h1 h2
  · rw [← Option.some.inj hs]; exact .of_same none rfl fun _ => rfl
  · rw [← Option.some.inj hs]; exact .of_same none rfl fun _ => rfl
  · simp only [ne_eq, not_not] at h2
    obtain ⟨qs, hp⟩ := h.placed
    obtain ⟨x, hx, hs⟩ := Option.bind_eq_some_iff.mp hs
    rw [← Option.some.inj hs]
    exact (ready_frame hp h2 hx :)

/-- The current process joins the queue and gives up the processor. -/
theorem waitOn_spec (h : Settled strict k) (hcur : k.currpid ≠ NULLPROC) (hsem : ¬ isbadsem sem)
    (hs : resched (enqueue k.currpid (k.semtab sem).squeue (k.setProc k.currpid fun e =>
      { e with prstate := .wait, prsem := sem })).1 = some k') :
    waitList k' sem = waitList k sem ++ [k.currpid] ∧ k'.semtab = k.semtab ∧
      QueueFrame (some (k.semtab sem).squeue) k k' := by
  obtain ⟨qs, t', hp, he, hb, hk⟩ := enqueueSelf_spec h hcur hsem
  obtain ⟨hisq, hr⟩ := hp.squeue hsem
  rw [he] at hs
  have hsem' : k'.semtab = k.semtab := (resched_only hs).semtab
  have hf : QueueFrame (some (k.semtab sem).squeue) k ((k.setProc k.currpid fun e =>
      { e with prstate := .wait, prsem := sem }).setQueue t') := by
    refine ⟨fun q' hq' hr' hne => ?_, fun st hst p hp' => ?_⟩
    · exact hp.linked.entries_update hb.linked hq' (fun e => hne (e ▸ rfl)) fun i _ => hk i
    · rw [setQueue_proctab] at hp'
      by_cases hx : p = k.currpid
      · subst hx
        rw [setProc_same] at hp'
        rcases hst with rfl | rfl <;> simp at hp'
      · rwa [setProc_of_ne k _ hx] at hp'
  refine ⟨?_, hsem', hf.resched rfl hb hs⟩
  rw [waitList, hsem', members_of_entries (resched_entries hb hs hisq hr), hp.waitList_eq hsem]
  exact (hb.linked.members_eq hisq).trans (Function.update_self ..)

theorem wait_frame (h : Settled strict k) (hcur : k.currpid ≠ NULLPROC) {r : Kernel × Int}
    (hs : wait sem k = some r) : QueueFrame (some (k.semtab sem).squeue) k r.1 := by
  unfold wait at hs
  split_ifs at hs with h1 h2
  · rw [← Option.some.inj hs]; exact .of_same _ rfl fun _ => rfl
  · rw [← Option.some.inj hs]; exact .of_same _ rfl fun _ => rfl
  dsimp only at hs
  have he := SameTables.setSem k sem (f := fun s => { s with scount := int32 (s.scount - 1) })
    fun _ => rfl
  have hset := h.congr he rfl
  split_ifs at hs with h3
  · obtain ⟨k₂, h4, hs⟩ := Option.bind_eq_some_iff.mp hs
    rw [← Option.some.inj hs]
    obtain ⟨-, -, hf⟩ := waitOn_spec hset hcur h1 h4
    rw [he.squeue sem] at hf
    exact ⟨hf.entries, hf.asleep⟩
  · rw [← Option.some.inj hs]
    exact .of_same _ rfl fun _ => rfl

theorem signal_frame (h : Settled strict k) {r : Kernel × Int} (hs : signal sem k = some r) :
    QueueFrame (some (k.semtab sem).squeue) k r.1 := by
  unfold signal at hs
  split_ifs at hs with h1 h2
  · rw [← Option.some.inj hs]; exact .of_same _ rfl fun _ => rfl
  · rw [← Option.some.inj hs]; exact .of_same _ rfl fun _ => rfl
  · obtain ⟨qs, hp⟩ := h.placed
    obtain ⟨k₁, h3, hs⟩ := Option.bind_eq_some_iff.mp hs
    rw [← Option.some.inj hs]
    rw [signalOnce_eq] at h3
    exact (countUp_releases hp h.running h1 (dequeue_takes (hp.squeue h1).1) h3).1.frame

theorem signaln_frame (h : Settled strict k) {count : Int} {r : Kernel × Int}
    (hs : signaln sem count k = some r) : QueueFrame (some (k.semtab sem).squeue) k r.1 := by
  unfold signaln at hs
  split_ifs at hs with h1 h2
  · rw [← Option.some.inj hs]; exact .of_same _ rfl fun _ => rfl
  · rw [← Option.some.inj hs]; exact .of_same _ rfl fun _ => rfl
  · simp only [not_or] at h1
    obtain ⟨qs, hp⟩ := h.placed
    obtain ⟨hisq, hnr⟩ := hp.squeue h1.1
    obtain ⟨n, hr, -⟩ := deferred_releases (P := fun _ _ => True) h hisq hnr
      (fun k₁ k₂ _ he hd hl => by
        obtain ⟨m, hm⟩ := signalnLoop_releases hd h1.1 hl
        rw [he] at hm
        exact ⟨(signalnLoop_deferred h1.1 hd hl).1, m, hm, trivial⟩) hs
    exact hr.frame

theorem semdelete_frame (h : Settled strict k) {r : Kernel × Int} (hs : semdelete sem k = some r) :
    QueueFrame (some (k.semtab sem).squeue) k r.1 := by
  unfold semdelete at hs
  split_ifs at hs with h1 h2
  · rw [← Option.some.inj hs]; exact .of_same _ rfl fun _ => rfl
  · rw [← Option.some.inj hs]; exact .of_same _ rfl fun _ => rfl
  · have he := SameTables.setSem k sem (f := fun s => { s with sstate := .free }) fun _ => rfl
    have hset := h.congr he rfl
    obtain ⟨qs, hp⟩ := hset.placed
    obtain ⟨hisq, hnr⟩ := hp.squeue h1
    obtain ⟨n, hr, -⟩ := deferred_releases (P := fun _ _ => True) hset hisq hnr
      (fun k₁ k₂ _ he hd hl => by
        obtain ⟨m, hm⟩ := semdeleteLoop_releases hd h1 hl
        rw [he] at hm
        exact ⟨(semdeleteLoop_deferred h1 hd hl).1, m, hm, trivial⟩) hs
    have hf := hr.frame
    rw [he.squeue sem] at hf
    exact ⟨hf.entries, hf.asleep⟩

theorem semreset_frame (h : Settled strict k) {count : Int} {r : Kernel × Int}
    (hs : semreset sem count k = some r) : QueueFrame (some (k.semtab sem).squeue) k r.1 := by
  unfold semreset at hs
  split_ifs at hs with h1
  · rw [← Option.some.inj hs]; exact .of_same _ rfl fun _ => rfl
  · simp only [not_or] at h1
    obtain ⟨qs, hp⟩ := h.placed
    obtain ⟨hisq, hnr⟩ := hp.squeue h1.2.1
    obtain ⟨n, hr, -⟩ := deferred_releases (P := fun _ _ => True) (f := fun k => do
      let k ← semresetLoop (k.semtab sem).squeue NQENT.toNat k
      return k.setSem sem fun s => { s with scount := count }) (r := r) h hisq hnr
      (fun k₁ k₂ _ he hd hl => by
        obtain ⟨k₃, h3, hl⟩ := Option.bind_eq_some_iff.mp hl
        obtain ⟨hm, -⟩ := semresetLoop_releases hd h1.2.1 h3
        rw [← Option.some.inj hl]
        rw [he] at hm
        exact ⟨(semresetLoop_deferred h1.2.1 hd rfl h3).1.congr
          (SameTables.setSem k₃ sem fun _ => rfl) rfl, _,
          hm.trans (n := 0) (.of_same rfl rfl fun _ => rfl), trivial⟩)
      (by simpa only [Option.bind_eq_bind, Option.bind_assoc, Option.pure_def,
        Option.bind_some] using hs)
    exact hr.frame

/-- `newsem` writes the semaphore table only. -/
theorem newsemLoop_same (fuel : Nat) (k : Kernel) :
    (newsemLoop fuel k).1.queuetab = k.queuetab ∧ (newsemLoop fuel k).1.proctab = k.proctab := by
  induction fuel generalizing k with
  | zero => exact ⟨rfl, rfl⟩
  | succ fuel ih =>
    unfold newsemLoop
    dsimp only
    split
    · exact ⟨rfl, rfl⟩
    · exact ih _

theorem semcreate_frame (count : Int) (k : Kernel) : QueueFrame none k (semcreate count k).1 := by
  obtain ⟨hq, hp⟩ := newsemLoop_same NSEM.toNat k
  unfold semcreate
  split_ifs
  · exact .of_same none rfl fun _ => rfl
  · dsimp only
    split_ifs
    · exact .of_same none hq fun p => by rw [newsem, hp]
    · exact .of_same none hq fun p => by
        show ((newsem k).1.proctab p).prstate = _
        rw [newsem, hp]

/-- **A new process is suspended.** -/
theorem makeProc_frame {fill : Int → Kernel → Kernel} {f n : Nat} {prio : Pri16}
    {nm : Nat → UInt8} {as : List Nat} {pid : Int} {r : Kernel × Int}
    (hfill : ∀ k, Bland k (fill pid k)) (hm : makeProc fill f n prio nm as pid k = some r) :
    QueueFrame none k r.1 := by
  rcases makeProc_cases hm with rfl | ⟨k₁, hg, rfl⟩ | ⟨-, k₁, saddr, hg, -, rfl⟩
  · exact .of_same none rfl fun _ => rfl
  · exact .of_bland none (getstk_bland hg)
  · have hb := getstk_bland hg
    generalize hk₂ : ({ k₁ with prcount := k₁.prcount + 1 } : Kernel).setProc pid
      (initProc saddr n prio nm k₁.currpid) = k₂
    have hb₂ : Bland k₂ (setupProc fill f n prio nm as pid saddr k₁) := by
      unfold setupProc
      dsimp only
      rw [hk₂]
      exact ((hfill k₂).trans (Bland.setHeap _ _)).trans (Bland.setProc _ _ fun _ =>
        ⟨rfl, rfl, rfl⟩)
    refine ⟨fun q _ _ _ => ?_, fun st hst x hx => ?_⟩
    · rw [hb₂.same.queuetab, ← hk₂]
      exact congrArg (fun t => QTab.entries t q) hb.same.queuetab
    · rw [hb₂.same.prstate, ← hk₂] at hx
      by_cases hxp : x = pid
      · subst hxp
        rw [setProc_same] at hx
        rcases hst with rfl | rfl <;> simp [initProc] at hx
      · rw [setProc_of_ne _ _ hxp] at hx
        exact (hb.same.prstate x).symm.trans hx

theorem create_frame {f n : Nat} {prio : Pri16} {nm : Nat → UInt8} {as : List Nat}
    {r : Kernel × Int} (hc : create f n prio nm as k = some r) : QueueFrame none k r.1 := by
  unfold create at hc
  split_ifs at hc with h1
  · rw [← Option.some.inj hc]; exact .of_same none rfl fun _ => rfl
  · have hf := makeProc_frame (createFill_bland _) hc
    exact ⟨hf.entries, hf.asleep⟩

theorem rcreate_frame {f n : Nat} {prio : Pri16} {nm : Nat → UInt8} {as : List Nat}
    {r : Kernel × Int} (h : KernelInv strict k) (hc : rcreate f n prio nm as k = some r) :
    QueueFrame none k r.1 := by
  unfold rcreate at hc
  split_ifs at hc with h1
  · rw [← Option.some.inj hc]; exact .of_same none rfl fun _ => rfl
  have hn := newpidLoop_spec k.proctab NPROC.toNat h.nextpid.2
  obtain ⟨⟨k₁, pid⟩, hm, hc⟩ := Option.bind_eq_some_iff.mp hc
  have hs := makeProc_spec (h.setRcreateNextpid hn.1) (fun k => Bland.refl k) hn.2 hm
  have hf := makeProc_frame (fun k => Bland.refl k) hm
  dsimp only at hc hs hf
  have hr₁ : k₁.readylist = k.readylist := by
    rcases makeProc_cases hm with e | ⟨k₂, hg, e⟩ | ⟨-, k₂, saddr, hg, -, e⟩
    · rw [(Prod.mk.inj e).1]
    · rw [(Prod.mk.inj e).1]
      exact (getstk_bland hg).same.readylist
    · rw [(Prod.mk.inj e).1]
      exact (getstk_bland hg).same.readylist
  split_ifs at hc with h2
  · rw [← Option.some.inj hc]
    exact ⟨hf.entries, hf.asleep⟩
  · obtain ⟨-, hsusp, -⟩ := hs.2.1 h2
    obtain ⟨qs, hpl⟩ := hs.1.settled.placed
    obtain ⟨x, hx, hc⟩ := Option.bind_eq_some_iff.mp hc
    rw [← Option.some.inj hc]
    have hf' := ready_frame hpl hsusp hx
    refine ⟨fun q hq hr ho => ?_, fun st hst p hp => hf.asleep st hst p (hf'.asleep st hst p hp)⟩
    exact (hf'.entries q hq (by rw [hr₁]; exact hr) ho).trans (hf.entries q hq hr ho)

theorem chprio_frame (pid : Int) (newprio : Pri16) (k : Kernel) :
    QueueFrame none k (chprio pid newprio k).1 := by
  refine .of_same none ?_ (chprio_prstate pid newprio k)
  unfold chprio
  split_ifs <;> rfl

/-- **`kill` works on the queue its victim is on.** -/
theorem killSwitch_frame (h : Settled strict k) {pid : Int} (hgood : ¬ isbadpid k pid)
    (hnull : pid ≠ NULLPROC) {r : Kernel × Cont} (hk : killSwitch pid k = some r) :
    QueueFrame (home k pid) k r.1 := by
  have hp := IsProc.of_not_bad hgood
  obtain ⟨qs, hpl⟩ := h.placed
  unfold killSwitch at hk
  split at hk
  case h_1 hs =>
    -- the caller itself
    obtain rfl := hpl.curr pid hp hs
    obtain ⟨k₁, h1, hk⟩ := Option.bind_eq_some_iff.mp hk
    rw [← Option.some.inj hk]
    have hb : Placed strict (k.setState k.currpid .free) qs none :=
      ((hpl.depart hp (by simp [home, hs])).assign (f := fun e => { e with prstate := .free })
        (by simp) (fun e => absurd e hnull) (by simp)).arrive (by simp [home, setProc_same])
    exact (QueueFrame.setState _ k k.currpid (by simp)).resched rfl hb h1
  case h_4 hs =>
    -- waiting for a semaphore
    rw [← Option.some.inj hk]
    have hq := hpl.squeue (hpl.waits pid hp hs)
    obtain ⟨_, _, -, hg⟩ := hpl.getitem hp hq.1 (home_of_wait hs)
    rw [home_of_wait hs]
    refine ⟨fun q hq hr hne => ?_, (QueueFrame.setState none
      ((k.setSem (k.proctab pid).prsem _).setQueue (getitem pid k.queuetab)) pid (by simp)).asleep⟩
    exact hpl.linked.entries_update hg.linked hq (fun e => hne (e ▸ rfl))
      fun i _ => getitem_qkey _ _ _
  case h_5 hs =>
    rw [← Option.some.inj hk]
    exact unready_frame h hp hs (by simp) _
  case h_6 hs1 hs2 hs3 hs4 hs5 =>
    rw [← Option.some.inj hk]
    exact QueueFrame.setState _ k pid (by simp)
  all_goals
    -- asleep, with or without a message to wait for
    rename_i hs
    rw [← Option.some.inj hk]
    obtain ⟨t', xs, ys, hu, hl, hout, hkey⟩ := unsleep_spec hpl hgood (by simp [hs])
    simp only [killTail, hu]
    have hh : home k pid = some k.sleepq := by simp [home, hs]
    rw [hh]
    refine ⟨fun q hq hr hne => ?_, (QueueFrame.setState none (k.setQueue t') pid (by simp)).asleep⟩
    have hq' : q ≠ k.sleepq := fun e => hne (e ▸ rfl)
    refine hpl.linked.entries_update hout.linked hq hq' fun i hi => ?_
    refine (hkey i).trans (if_neg ?_)
    intro e
    have hm : i ∈ qs k.sleepq := by
      rw [hl]
      simp [List.mem_of_mem_head? e]
    exact hq' (hpl.linked.apart q _ i hq hpl.queues.sleep.1 hi hm)

theorem kill_frame (h : KernelInv strict k) {pid : Int} {r : Kernel × Cont}
    (hk : kill pid k = some r) : QueueFrame (home k pid) k r.1 := by
  rcases kill_cases hk with ⟨-, rfl⟩ | ⟨hgood, hnull, k₁, v₁, k₂, v₂, hs, hf, hk⟩
  · exact .of_same _ rfl fun _ => rfl
  · obtain ⟨he, -⟩ := kill_prefix h hgood hnull hs hf hk
    have hb₁ : Bland _ k₁ := send_bland hs
    have hb₂ : Bland k₁ k₂ := freestk_bland hf
    have hset : Settled strict k₂ := h.settled.congr he
      ((congrArg Defer.ndefers hb₂.defer).trans (congrArg Defer.ndefers hb₁.defer))
    have hgood' : ¬ isbadpid k₂ pid := by simpa only [isbadpid, he.prstate] using hgood
    have hf' := killSwitch_frame hset hgood' hnull hk
    rw [he.home] at hf'
    refine ⟨fun q hq hr ho => ?_, fun st hst p hp => ?_⟩
    · rw [hf'.entries q hq (by rw [he.readylist]; exact hr) ho, he.queuetab]
    · rw [← he.prstate]
      exact hf'.asleep st hst p hp

/-! ## 6. Sleeping and waking

The calls that put the caller to sleep work on the sleep queue, and `wakeup` releases from it. -/

/-- Going to sleep shows on the sleep queue and the ready list only. -/
theorem sleepOn_entries (h : Settled strict k) (hcur : k.currpid ≠ NULLPROC) {st : PrState}
    (hst : st = .sleep ∨ st = .rectim) {delay v : Int} {k₁ : Kernel}
    (hi : insertd k.currpid k.sleepq delay k = some (k₁, v))
    (hs : resched (k₁.setState k.currpid st) = some k') (hq : IsQueue q) (hr : q ≠ k.readylist)
    (hne : q ≠ k.sleepq) : k'.queuetab.entries q = k.queuetab.entries q := by
  obtain ⟨qs, t', xs, ys, hp, hi', hl, hb, hk⟩ := sleepOn_placed h hcur hst delay
  obtain ⟨rfl, -⟩ := Prod.mk.inj (Option.some.inj (hi'.symm.trans hi))
  refine (resched_entries hb hs hq hr).trans ?_
  refine hp.linked.entries_update hb.linked hq hne fun i hi => hk i ?_ fun hm => ?_
  · rintro rfl
    have hh := (hp.placed _ q hp.currProc hq (by simp)).mp hi
    simp [home, h.running] at hh
  · exact hne (hp.linked.apart q _ i hq hp.queues.sleep.1 hi hm)

/-- **`wakeup`'s loop releases the sleepers whose delay is over.** -/
theorem wakeupLoop_releases {fuel : Nat} (h : Deferred strict k)
    (hw : wakeupLoop fuel k = some k') :
    Releases k.sleepq ((k.queuetab.entries k.sleepq).takeWhile fun e => e.2 ≤ 0).length k k' := by
  induction fuel generalizing k with
  | zero => simp [wakeupLoop] at hw
  | succ fuel ih =>
    obtain ⟨qs, hp⟩ := h.placed
    have he := hp.linked.entries_eq hp.queues.sleep.1
    rcases wakeupLoop_cases hp h.running hw with ⟨hpos, rfl⟩ | ⟨t', p, ys, k₁, v, hkey, hlv, hr, hw⟩
    · have hn : ((k'.queuetab.entries k'.sleepq).takeWhile fun e => e.2 ≤ 0) = [] := by
        rw [he]
        cases hs : qs k'.sleepq with
        | nil => rfl
        | cons p ys => simp [hpos p ys hs]
      rw [hn]
      exact .of_same rfl rfl fun _ => rfl
    · obtain ⟨k₂, hr', hd₁, hq⟩ :=
        ready_deferred hlv.placed hlv.good hlv.recv hlv.other h.running h.once
      obtain ⟨rfl, -⟩ := Prod.mk.inj (Option.some.inj (hr'.symm.trans hr))
      have h₁ := hlv.releases hp.linked hp.queues.sleep.1 hp.queues.sleep.2 hr
      have hq₂ : k₂.sleepq = k.sleepq := hq.ids.2.1
      have h₂ := ih hd₁ hw
      rw [hq₂, h₁.entries] at h₂
      rw [he, hlv.first, List.map_cons] at h₂ ⊢
      rw [List.takeWhile_cons, if_pos (by simpa using hkey), List.length_cons, Nat.add_comm]
      exact h₁.trans h₂

/-- **`wakeup` releases the sleepers whose delay is over.** -/
theorem wakeup_releases (h : Settled strict k) (hw : wakeup k = some k') :
    Releases k.sleepq ((k.queuetab.entries k.sleepq).takeWhile fun e => e.2 ≤ 0).length k k' := by
  obtain ⟨qs, hp⟩ := h.placed
  have hall := deferred_releases (f := wakeupLoop NQENT.toNat) (r := (k', OK))
    (P := fun n _ => n = ((k.queuetab.entries k.sleepq).takeWhile fun e => e.2 ≤ 0).length) h
    hp.queues.sleep.1 hp.queues.sleep.2 (fun k₁ k₂ ht _ hd hl => ?_) ?_
  · obtain ⟨_, hr, rfl⟩ := hall
    exact hr
  · have hr := wakeupLoop_releases hd hl
    rw [ht.sleepq, ht.queuetab] at hr
    exact ⟨(wakeupLoop_deferred hd hl).1, _, hr, rfl⟩
  · obtain ⟨k₁, h1, -⟩ := deferStart_spec h
    simp only [wakeup, h1, Option.bind_eq_bind, Option.bind_some] at hw ⊢
    obtain ⟨k₂, h2, hw⟩ := Option.bind_eq_some_iff.mp hw
    obtain ⟨r, h3, hw⟩ := Option.bind_eq_some_iff.mp hw
    obtain rfl := Option.some.inj hw
    rw [h2, Option.bind_some, h3]
    rfl

/-! ## 7. Any call

The frames of all calls in one statement, by the queue that the call names.  `finish_frame` says
the same of what is left of a call behind a switch. -/

theorem QueueFrame.mono {o : Option Int} (h : QueueFrame none k k') : QueueFrame o k k' :=
  ⟨fun q hq hr _ => h.entries q hq hr (by simp), h.asleep⟩

/-- The calls that put the caller to sleep. -/
def Call.sleeps : Call → Bool
  | .sleepms _ | .sleep _ | .recvtime _ => true
  | _ => false

/-- The queue besides the ready list that a call works on, if any. -/
def Call.queue : Call → Kernel → Option Int
  | .wait sem, k | .signal sem, k | .signaln sem _, k => some (k.semtab sem).squeue
  | .semdelete sem, k | .semreset sem _, k => some (k.semtab sem).squeue
  | .sleepms _, k | .sleep _, k | .recvtime _, k => some k.sleepq
  | .kill pid, k => home k pid
  | .userret, k => home k k.currpid
  | _, _ => none

theorem frame_of_returning {f : Option (Kernel × Int)} {r : Kernel × Cont} {o : Option Int}
    (h : returning f = some r) (e : ∀ x, f = some x → QueueFrame o k x.1) : QueueFrame o k r.1 := by
  obtain ⟨x, hx, rfl⟩ := returning_some h
  exact e x hx

/-- **A call that puts nobody to sleep works on one queue besides the ready list at most.** -/
theorem enter_frame {c : Call} (h : KernelInv strict k) (hc : c.sleeps = false)
    (hnull : k.currpid = NULLPROC → c.byNull = true) {r : Kernel × Cont}
    (he : c.enter k = some r) : QueueFrame (c.queue k) k r.1 := by
  have hset := h.settled
  have hcur : c.byNull = false → k.currpid ≠ NULLPROC := fun hb hn => by
    have := hnull hn
    rw [hb] at this
    exact absurd this (by simp)
  have bland : c.isBland = true → QueueFrame (c.queue k) k r.1 := fun hb =>
    .of_bland _ (enter_bland hb he)
  cases c with
  | create f n p nm as => exact frame_of_returning he fun x hx => create_frame hx
  | rcreate f n p nm as => exact frame_of_returning he fun x hx => rcreate_frame h hx
  | resume pid => exact frame_of_returning he fun x hx => resume_frame hset hx
  | suspend pid => exact suspend_frame hset he
  | kill pid => exact kill_frame h he
  | userret => exact kill_frame h he
  | wait sem => exact frame_of_returning he fun x hx => wait_frame hset (hcur rfl) hx
  | signal sem => exact frame_of_returning he fun x hx => signal_frame hset hx
  | signaln sem n => exact frame_of_returning he fun x hx => signaln_frame hset hx
  | semcreate n =>
    exact frame_of_returning he fun x hx => Option.some.inj hx ▸ semcreate_frame n k
  | semdelete sem => exact frame_of_returning he fun x hx => semdelete_frame hset hx
  | semreset sem n => exact frame_of_returning he fun x hx => semreset_frame hset hx
  | yield => exact frame_of_returning he fun x hx => yield_frame hset hx
  | receive => exact receive_frame hset (hcur rfl) he
  | chprio pid p =>
    exact frame_of_returning he fun x hx => Option.some.inj hx ▸ chprio_frame pid p k
  | getprio pid =>
    exact frame_of_returning he fun x hx => Option.some.inj hx ▸ .of_same _ rfl fun _ => rfl
  | getpid =>
    exact frame_of_returning he fun x hx => Option.some.inj hx ▸ .of_same _ rfl fun _ => rfl
  | sleepms | sleep | recvtime => simp [Call.sleeps] at hc
  | _ => exact bland rfl

/-- The state and the delay with which a call puts the caller on the sleep queue, if it does. -/
def Call.delay : Call → Kernel → Option (PrState × Int)
  | .sleepms d, _ => if 0 < d then some (.sleep, d) else none
  | .sleep d, _ => if 0 < d ∧ d ≤ 2147483 then some (.sleep, 1000 * d) else none
  | .recvtime d, k =>
    if 0 ≤ d ∧ (k.proctab k.currpid).prhasmsg = FALSE then some (.rectim, d) else none
  | _, _ => none

/-- What a call that sleeps does: it returns, it yields, or the caller goes on the sleep queue. -/
def Sleeps (k k' : Kernel) : Option (PrState × Int) → Prop
  | none => k' = k ∨ resched k = some k'
  | some (st, delay) => (st = .sleep ∨ st = .rectim) ∧ ∃ k₁ v,
    insertd k.currpid k.sleepq delay k = some (k₁, v) ∧
      resched (k₁.setState k.currpid st) = some k'

theorem sleepms_sleeps (h : Settled strict k) (hcur : k.currpid ≠ NULLPROC) {d : Int}
    {r : Kernel × Int} (hs : sleepms d k = some r) :
    Sleeps k r.1 (if 0 < d then some (.sleep, d) else none) := by
  unfold sleepms at hs
  split_ifs at hs with h1 h2
  · rw [if_neg (by omega), ← Option.some.inj hs]
    exact Or.inl rfl
  · obtain ⟨k₁, h3, hs⟩ := Option.bind_eq_some_iff.mp hs
    rw [if_neg (by omega), ← Option.some.inj hs]
    exact Or.inr h3
  · obtain ⟨t', k', hi, hr, -⟩ := sleepOn_settled h hcur (Or.inl rfl) d
    have hne : ¬ OK = SYSERR := by decide
    simp only [hi, Option.bind_eq_bind, Option.bind_some, hne, if_false, setQueue_currpid, hr,
      Option.pure_def, Option.some.injEq] at hs
    rw [if_pos (by omega), ← hs]
    exact ⟨Or.inl rfl, _, _, hi, hr⟩

theorem enter_sleeps {c : Call} (h : Settled strict k) (hc : c.sleeps = true)
    (hcur : k.currpid ≠ NULLPROC) {r : Kernel × Cont} (he : c.enter k = some r) :
    Sleeps k r.1 (c.delay k) := by
  cases c with
  | sleepms d =>
    obtain ⟨x, hx, rfl⟩ := returning_some he
    exact sleepms_sleeps h hcur hx
  | sleep d =>
    obtain ⟨x, hx, rfl⟩ := returning_some he
    unfold Xinu.sleep at hx
    split_ifs at hx with h1
    · obtain rfl := Option.some.inj hx
      rw [Call.delay, if_neg (by omega)]
      exact Or.inl rfl
    · obtain ⟨y, hy, hx⟩ := Option.bind_eq_some_iff.mp hx
      obtain rfl := Option.some.inj hx
      have hs := sleepms_sleeps h hcur hy
      rw [int32_eq (by omega) (by omega)] at hs
      rcases lt_or_ge 0 d with hd | hd
      · rw [if_pos (by omega)] at hs
        rw [Call.delay, if_pos (by omega)]
        exact hs
      · rw [if_neg (by omega)] at hs
        rw [Call.delay, if_neg (by omega)]
        exact hs
  | recvtime d =>
    change Xinu.recvtime d k = some r at he
    unfold Xinu.recvtime at he
    split_ifs at he with h1 h2
    · rw [Call.delay, if_neg (by omega), ← Option.some.inj he]
      exact Or.inl rfl
    · obtain ⟨t', k', hi, hr, -⟩ := sleepOn_settled h hcur (Or.inr rfl) d
      have hne : ¬ OK = SYSERR := by decide
      simp only [hi, Option.bind_eq_bind, Option.bind_some, hne, if_false, setQueue_currpid, hr,
        Option.pure_def, Option.some.injEq] at he
      rw [Call.delay, if_pos ⟨by omega, h2⟩, ← he]
      exact ⟨Or.inr rfl, _, _, hi, hr⟩
    · rw [Call.delay, if_neg (fun e => h2 e.2), ← Option.some.inj he]
      exact Or.inl rfl
  | _ => simp [Call.sleeps] at hc

/-- **Every call leaves the queues alone that it does not work on.** -/
theorem enter_entries {c : Call} (h : KernelInv strict k)
    (hnull : k.currpid = NULLPROC → c.byNull = true) {r : Kernel × Cont} (he : c.enter k = some r)
    (hq : IsQueue q) (hr : q ≠ k.readylist) (hne : c.queue k ≠ some q) :
    r.1.queuetab.entries q = k.queuetab.entries q := by
  cases hc : c.sleeps with
  | false => exact (enter_frame h hc hnull he).entries q hq hr hne
  | true =>
    have hcur : k.currpid ≠ NULLPROC := by
      intro hn
      have := hnull hn
      cases c <;> simp [Call.sleeps] at hc <;> simp [Call.byNull] at this
    have hsq : c.queue k = some k.sleepq := by
      cases c <;> simp [Call.sleeps] at hc <;> rfl
    have hs := enter_sleeps h.settled hc hcur he
    cases hd : c.delay k with
    | none =>
      rw [hd] at hs
      obtain ⟨qs, hp⟩ := h.settled.placed
      rcases hs with hs | hs
      · rw [hs]
      · exact resched_entries hp hs hq hr
    | some x =>
      rw [hd] at hs
      obtain ⟨hst, k₁, v, hi, hres⟩ := hs
      exact sleepOn_entries h.settled hcur hst hi hres hq hr fun e => hne (hsq.trans (e ▸ rfl))

/-- **A tick of the clock** counts the first delay down and releases the sleepers whose delay is
over. -/
theorem clkSleepers_releases (h : Settled strict k) (hc : clkSleepers k = some k') :
    k.queuetab.entries k.sleepq = [] ∧ k' = k ∨ ∃ p d es k₁ n,
      k.queuetab.entries k.sleepq = (p, d) :: es ∧
        k₁.queuetab.entries k.sleepq = (p, int32 (d - 1)) :: es ∧
        (∀ x, (k₁.proctab x).prstate = (k.proctab x).prstate) ∧ k₁.readylist = k.readylist ∧
        (∀ q, IsQueue q → q ≠ k.sleepq → k₁.queuetab.entries q = k.queuetab.entries q) ∧
        n = (((p, int32 (d - 1)) :: es).takeWhile fun e => e.2 ≤ 0).length ∧
        Releases k.sleepq n k₁ k' := by
  obtain ⟨qs, hp⟩ := h.placed
  have hsq := hp.queues.sleep.1
  have he := hp.linked.entries_eq hsq
  unfold clkSleepers at hc
  cases hs : qs k.sleepq with
  | nil =>
    rw [if_pos ((isempty_iff hp.linked hsq).mpr hs)] at hc
    rw [hs] at he
    exact Or.inl ⟨he, (Option.some.inj hc).symm⟩
  | cons p ys =>
    have hne : ¬ isempty k.queuetab k.sleepq := by
      rw [isempty_iff hp.linked hsq, hs]
      simp
    have hfirst : firstid k.queuetab k.sleepq = p := by
      have : firstid k.queuetab k.sleepq = (qs k.sleepq).headD (k.sleepq + 1) :=
        (hp.linked.path _ hsq).next_head
      rw [this, hs, List.headD_cons]
    have hpp : IsProc p := hp.linked.procs _ hsq p (by simp [hs])
    have hnr : (k.proctab p).prstate ≠ .ready := by
      rcases hp.mem_sleep hpp (by simp [hs]) with e | e <;> rw [e] <;> simp
    rw [if_neg hne] at hc
    simp only [hfirst] at hc
    have hk := hp.setKey hpp hnr (int32 ((k.queuetab p).qkey - 1))
    have hset : Settled strict
      (k.setQueue (k.queuetab.setKey p (int32 ((k.queuetab p).qkey - 1)))) :=
      ⟨⟨qs, hk⟩, h.running, h.open_, h.top⟩
    have hnd := hp.linked.nodup _ hsq
    rw [hs, List.nodup_cons] at hnd
    have hes : (k.queuetab.setKey p (int32 ((k.queuetab p).qkey - 1))).entries k.sleepq =
        (p, int32 ((k.queuetab p).qkey - 1)) :: ys.map fun i => (i, (k.queuetab i).qkey) := by
      refine (hk.linked.entries_eq hsq).trans ?_
      rw [hs, List.map_cons, setQueue_queuetab, setKey_qkey, if_pos rfl]
      refine congrArg _ (List.map_congr_left fun i hi => ?_)
      rw [setKey_qkey, if_neg]
      rintro rfl
      exact hnd.1 hi
    have hoth : ∀ q, IsQueue q → q ≠ k.sleepq →
        (k.queuetab.setKey p (int32 ((k.queuetab p).qkey - 1))).entries q =
          k.queuetab.entries q := by
      intro q hq hne'
      refine hp.linked.entries_congr hk.linked hq rfl fun i hi => ?_
      rw [setKey_qkey, if_neg]
      rintro rfl
      exact hne' (hp.linked.apart _ _ i hq hsq hi (by simp [hs]))
    rw [hs, List.map_cons] at he
    refine Or.inr ⟨p, (k.queuetab p).qkey, _,
      k.setQueue (k.queuetab.setKey p (int32 ((k.queuetab p).qkey - 1))), _, he, hes,
      fun _ => rfl, rfl, hoth, rfl, ?_⟩
    split_ifs at hc with hkey
    · have hr := wakeup_releases hset hc
      rw [setQueue_queuetab, setQueue_sleepq, hes] at hr
      exact hr
    · rw [List.takeWhile_cons, if_neg (by simpa using hkey), ← Option.some.inj hc]
      exact .of_same rfl rfl fun _ => rfl

theorem clkhandler_entries (h : Settled strict k) (hc : clkhandler k = some k') (hq : IsQueue q)
    (hr : q ≠ k.readylist) (hne : q ≠ k.sleepq) :
    k'.queuetab.entries q = k.queuetab.entries q := by
  have h₁ := (countMs_keeps h).settled
  have e := (countMs_same k).1
  unfold clkhandler at hc
  generalize countMs k = k₀ at *
  rw [← e.queuetab]
  rw [← e.readylist] at hr
  rw [← e.sleepq] at hne
  rcases clkSleepers_releases h₁ hc with ⟨-, rfl⟩ | ⟨p, d, es, k₁, n, -, -, -, hr₁, hoth, -, hrel⟩
  · rfl
  · exact (hrel.others q hq (by rw [hr₁]; exact hr) hne).trans (hoth q hq hne)

/-- **What is left of a call works on the ready list only.** -/
theorem finish_frame (h : KernelInv strict k) {c : Cont} (hc : ∀ x, c ≠ .kill x)
    {r : Kernel × Cont} (hf : finishCall k c = some r) : QueueFrame none k r.1 := by
  have same : QueueFrame none k k := .of_same none rfl fun _ => rfl
  cases c with
  | user => simp [finishCall] at hf
  | ret v => obtain rfl := Option.some.inj hf; exact same
  | suspend pid => obtain rfl := Option.some.inj hf; exact same
  | receive =>
    obtain rfl := Option.some.inj hf
    exact .of_bland none (receiveTail_bland k)
  | recvtime =>
    obtain rfl := Option.some.inj hf
    exact .of_bland none (recvtimeTail_bland k)
  | kill pid => exact absurd rfl (hc pid)
  | clkhandler =>
    rw [finishCall] at hf
    obtain ⟨k₁, h1, rfl⟩ := Option.map_eq_some_iff.mp hf
    have hf : ∀ n, QueueFrame none k { k with preempt := n } := fun n =>
      .of_same none rfl fun _ => rfl
    unfold clkhandlerTail at h1
    simp only at h1
    split_ifs at h1 with h2
    · obtain ⟨qs, hp⟩ := h.settled.placed
      exact (hf QUANTUM).resched rfl (hp.congr
        ⟨rfl, rfl, rfl, rfl, rfl, fun _ => rfl, fun _ => rfl, fun _ => rfl, fun _ => rfl⟩) h1
    · rw [← Option.some.inj h1]
      exact hf _
  | iret => obtain rfl := Option.some.inj hf; exact same

/-! ## 8. The semaphore table

Which calls write the semaphore table at all.  The others leave the counts and `nextsem` alone. -/

/-- The variables of `newsem`: the semaphores and where to look for a free one. -/
def Kernel.sems (k : Kernel) : (Int → Sentry) × Int := (k.semtab, k.nextsem)

theorem SchedOnly.sems (h : SchedOnly k k') : k'.sems = k.sems := by
  rw [Kernel.sems, h.semtab, h.nextsem]
  rfl

/-- The calls that can write the semaphore table. -/
def Call.onSems : Call → Bool
  | .wait _ | .signal _ | .signaln _ _ | .semcreate _ | .semdelete _ | .semreset _ _ => true
  | .kill _ | .userret => true
  | _ => false

theorem insertd_sems {key : Int} {r : Kernel × Int} (h : insertd p q key k = some r) :
    r.1.sems = k.sems := by
  unfold insertd at h
  split_ifs at h with h1
  · rw [← Option.some.inj h]
  · obtain ⟨⟨key', prev, next⟩, -, hx⟩ := Option.bind_eq_some_iff.mp h
    dsimp only at hx
    split_ifs at hx <;> rw [← Option.some.inj hx] <;> rfl

theorem Sleeps.sems {o : Option (PrState × Int)} (h : Sleeps k k' o) : k'.sems = k.sems := by
  cases o with
  | none =>
    rcases h with rfl | h
    · rfl
    · exact (resched_only h).sems
  | some x =>
    obtain ⟨-, k₁, v, hi, hr⟩ := h
    exact (resched_only hr).sems.trans (insertd_sems hi)

theorem send_sems {pid : Int} {msg : Nat} {r : Kernel × Int} (h : send pid msg k = some r) :
    r.1.sems = k.sems := by
  unfold send at h
  split_ifs at h with h1 h2
  · rw [← Option.some.inj h]
  · rw [← Option.some.inj h]
  · dsimp only at h
    split_ifs at h with h3
    · obtain ⟨x, -, hx⟩ := Option.bind_eq_some_iff.mp h
      rw [← Option.some.inj hx]
      rfl
    · rw [← Option.some.inj h]
      rfl

theorem makeProc_sems {fill : Int → Kernel → Kernel} {f n : Nat} {prio : Pri16}
    {nm : Nat → UInt8} {as : List Nat} {pid : Int} {r : Kernel × Int}
    (hfill : ∀ k, (fill pid k).sems = k.sems) (hm : makeProc fill f n prio nm as pid k = some r) :
    r.1.sems = k.sems := by
  have hstk : ∀ {k₁ : Kernel} {a : Nat}, k.getstk n = some (k₁, a) → k₁.sems = k.sems := by
    intro k₁ a hg
    obtain ⟨x, -, hx⟩ := Option.bind_eq_some_iff.mp hg
    obtain ⟨rfl, -⟩ := Prod.mk.inj (Option.some.inj hx)
    rfl
  rcases makeProc_cases hm with rfl | ⟨k₁, hg, rfl⟩ | ⟨-, k₁, saddr, hg, -, rfl⟩
  · rfl
  · exact hstk hg
  · have hset : ∀ k₂ : Kernel, k₂.sems = k.sems → (fill pid k₂).sems = k.sems := by
      intro k₂ h₂
      rw [hfill, h₂]
    have h₁ := hstk hg
    exact hset _ h₁

/-- **Other calls leave the semaphores alone.** -/
theorem enter_sems {c : Call} (h : KernelInv strict k) (hc : c.onSems = false)
    (hnull : k.currpid = NULLPROC → c.byNull = true) {r : Kernel × Cont}
    (he : c.enter k = some r) : r.1.sems = k.sems := by
  have hcur : c.byNull = false → k.currpid ≠ NULLPROC := fun hb hn => by
    have := hnull hn
    rw [hb] at this
    exact absurd this (by simp)
  have of_ret : ∀ {f : Option (Kernel × Int)}, returning f = some r →
      (∀ x, f = some x → x.1.sems = k.sems) → r.1.sems = k.sems := by
    intro f hf e
    obtain ⟨x, hx, rfl⟩ := returning_some hf
    exact e x hx
  cases c with
  | create f n p nm as =>
    refine of_ret he fun x hx => ?_
    unfold Xinu.create at hx
    split_ifs at hx
    · rw [← Option.some.inj hx]
    · exact (makeProc_sems (fun _ => rfl) hx :)
  | rcreate f n p nm as =>
    refine of_ret he fun x hx => ?_
    unfold Xinu.rcreate at hx
    split_ifs at hx
    · rw [← Option.some.inj hx]
    · obtain ⟨⟨k₁, pid⟩, hm, hx⟩ := Option.bind_eq_some_iff.mp hx
      have hs : k₁.sems = k.sems := (makeProc_sems (fun _ => rfl) hm :)
      dsimp only at hx
      split_ifs at hx
      · rw [← Option.some.inj hx]
        exact hs
      · obtain ⟨y, hy, hx⟩ := Option.bind_eq_some_iff.mp hx
        rw [← Option.some.inj hx]
        exact (ready_only hy).sems.trans hs
  | resume pid =>
    refine of_ret he fun x hx => ?_
    unfold Xinu.resume at hx
    split_ifs at hx
    · rw [← Option.some.inj hx]
    · rw [← Option.some.inj hx]
    · obtain ⟨y, hy, hx⟩ := Option.bind_eq_some_iff.mp hx
      rw [← Option.some.inj hx]
      exact ((ready_only hy).sems :)
  | suspend pid =>
    change Xinu.suspend pid k = some r at he
    unfold Xinu.suspend at he
    split_ifs at he
    · rw [← Option.some.inj he]
    · rw [← Option.some.inj he]
    · rw [← Option.some.inj he]; rfl
    · obtain ⟨y, hy, hx⟩ := Option.bind_eq_some_iff.mp he
      rw [← Option.some.inj hx]
      exact ((resched_only hy).sems :)
  | sleepms d => exact (enter_sleeps h.settled rfl (hcur rfl) he).sems
  | sleep d => exact (enter_sleeps h.settled rfl (hcur rfl) he).sems
  | recvtime d => exact (enter_sleeps h.settled rfl (hcur rfl) he).sems
  | yield =>
    refine of_ret he fun x hx => ?_
    obtain ⟨y, hy, hx⟩ := Option.bind_eq_some_iff.mp hx
    rw [← Option.some.inj hx]
    exact (resched_only hy).sems
  | receive =>
    change Xinu.receive k = some r at he
    unfold Xinu.receive at he
    split_ifs at he
    · obtain ⟨y, hy, hx⟩ := Option.bind_eq_some_iff.mp he
      rw [← Option.some.inj hx]
      exact ((resched_only hy).sems :)
    · rw [← Option.some.inj he]
  | recvclr =>
    refine of_ret he fun x hx => ?_
    rw [← Option.some.inj hx]
    unfold Xinu.recvclr
    split_ifs <;> rfl
  | send pid msg => exact of_ret he fun x hx => send_sems hx
  | chprio pid p =>
    refine of_ret he fun x hx => ?_
    rw [← Option.some.inj hx]
    unfold Xinu.chprio
    split_ifs <;> rfl
  | getprio pid => exact of_ret he fun x hx => by rw [← Option.some.inj hx]
  | getpid => exact of_ret he fun x hx => by rw [← Option.some.inj hx]
  | cbregister fp b =>
    refine of_ret he fun x hx => ?_
    rw [← Option.some.inj hx]
    unfold Xinu.cbregister
    split_ifs <;> rfl
  | cbunregister =>
    refine of_ret he fun x hx => ?_
    rw [← Option.some.inj hx]
    unfold Xinu.cbunregister
    split_ifs <;> rfl
  | getmem | freemem | getstk | freestk =>
    obtain ⟨hp, hr⟩ := enter_heap rfl he
    rw [hr]
    rfl
  | _ => simp [Call.onSems] at hc

end Xinu
