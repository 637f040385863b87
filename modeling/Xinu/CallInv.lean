/-
# Every kernel call keeps the state settled

One rule for each call that schedules.  Each says that from a settled state, whatever the
arguments, the call that returns leaves a settled state and is `Quiet` about everything that is
not scheduling.  The calls that block the caller need the caller not to be the null process,
which the system promises.

Between calls the state is `Settled`: every process stands in the place its state says, and the
current one has the highest priority.  Inside a call it is not: the process a call takes off a
queue is in no place at all (`Leaving`), until `ready` puts it on the ready list.  Each rule
follows the call through these states, and the rules for the loops say what holds after any number
of rounds while rescheduling is deferred.
-/
import Xinu.SchedInv
import Xinu.Semaphore
import Xinu.Message

namespace Xinu

open LinkedPath

variable {strict : Prop} {k k' : Kernel} {qs : Int → List Int} {p q : Int} {xs ys : List Int}

/-- What a scheduling call does to a settled state. -/
structure Keeps (strict : Prop) (k k' : Kernel) : Prop where
  settled : Settled strict k'
  quiet : Quiet k k'

theorem Settled.keeps (h : Settled strict k) : Keeps strict k k := ⟨h, Quiet.refl k⟩

/-- With fewer ready processes the current one still has the highest priority. -/
theorem Top.mono (h : Top k) (hc : k'.currpid = k.currpid)
    (hp : ∀ x, (k'.proctab x).prprio = (k.proctab x).prprio)
    (hr : ∀ x, (k'.proctab x).prstate = .ready → (k.proctab x).prstate = .ready) : Top k' := by
  intro x hx hrx
  rw [hp, hp, hc]
  exact h x hx (hr x hrx)

/-- The null process is neither blocked nor free. -/
theorem Placed.ne_null (h : Placed strict k qs none) (hc : (k.proctab p).prstate ≠ .curr)
    (hr : (k.proctab p).prstate ≠ .ready) : p ≠ NULLPROC := by
  rintro rfl
  exact h.null.elim hc hr

/-! ## 1. Leaving the processor

The current process gives itself another state, joins the sleep queue or stays ready, and calls
`resched`.  That it is not the null process matters: the null process must stay on the ready list,
or `resched` has nobody to choose. -/

/-- The current process, which is not the null process, gives itself a state with no queue. -/
theorem block_placed (h : Settled strict k) (hcur : k.currpid ≠ NULLPROC) {st : PrState}
    (hst : st = .recv ∨ st = .susp) :
    ∃ qs, Placed strict k qs none ∧ Placed strict (k.setState k.currpid st) qs none := by
  obtain ⟨qs, hp⟩ := h.placed
  have hhome : home k k.currpid = none := by simp [home, h.running]
  have ha := (hp.depart hp.currProc hhome).assign (f := fun e => { e with prstate := st })
    (by rcases hst with rfl | rfl <;> simp) (fun e => absurd e hcur)
    (by rcases hst with rfl | rfl <;> simp)
  exact ⟨qs, hp, ha.arrive (by rcases hst with rfl | rfl <;> simp [home, setProc_same])⟩

/-- It then calls `resched`. -/
theorem block_settled (h : Settled strict k) (hcur : k.currpid ≠ NULLPROC) {st : PrState}
    (hst : st = .recv ∨ st = .susp) :
    ∃ k', resched (k.setState k.currpid st) = some k' ∧ Keeps strict k k' ∧
      Quiet (k.setState k.currpid st) k' := by
  obtain ⟨qs, -, hb⟩ := block_placed h hcur hst
  obtain ⟨k', hr, hset, -, hq⟩ := resched_settled hb h.open_
  refine ⟨k', hr, ⟨hset, (Quiet.setState k k.currpid _ ?_ ?_ ?_).trans hq⟩, hq⟩
  · rcases hst with rfl | rfl <;> simp
  · rw [h.running]; simp
  · rw [h.running]; simp

/-- `resched` from a settled state. -/
theorem resched_keeps (h : Settled strict k) : ∃ k', resched k = some k' ∧ Keeps strict k k' := by
  obtain ⟨qs, hp⟩ := h.placed
  obtain ⟨k', hr, hset, -, hq⟩ := resched_settled hp h.open_
  exact ⟨k', hr, hset, hq⟩

theorem yield_keeps (h : Settled strict k) {r : Kernel × Int} (hy : yield k = some r) :
    Keeps strict k r.1 := by
  obtain ⟨k', hr, hk⟩ := resched_keeps h
  simp only [yield, hr, Option.bind_eq_bind, Option.bind_some, Option.pure_def,
    Option.some.injEq] at hy
  rw [← hy]
  exact hk

theorem running_good (h : Settled strict k) : ¬ isbadpid k k.currpid := by
  obtain ⟨qs, hp⟩ := h.placed
  have hc := hp.currProc
  rintro (h1 | h1 | h1)
  · exact absurd hc.1 (by omega)
  · exact absurd hc.2 (by omega)
  · rw [h.running] at h1
    simp at h1

/-- The current process, which is not the null process, puts itself on the sleep queue. -/
theorem sleepOn_placed (h : Settled strict k) (hcur : k.currpid ≠ NULLPROC) {st : PrState}
    (hst : st = .sleep ∨ st = .rectim) (delay : Int) : ∃ qs t' xs ys, Placed strict k qs none ∧
      insertd k.currpid k.sleepq delay k = some (k.setQueue t', OK) ∧ qs k.sleepq = xs ++ ys ∧
      Placed strict ((k.setQueue t').setState k.currpid st)
        (Function.update qs k.sleepq (xs ++ k.currpid :: ys)) none ∧
      ∀ i, i ≠ k.currpid → i ∉ qs k.sleepq → (t' i).qkey = (k.queuetab i).qkey := by
  obtain ⟨qs, hp⟩ := h.placed
  have hhome : home k k.currpid = none := by simp [home, h.running]
  obtain ⟨t', xs, ys, hi, hl, hb, hk⟩ := (hp.depart hp.currProc hhome).insertdSleep
    (running_good h) delay (f := fun e => { e with prstate := st }) (by simpa using hst) hcur
  exact ⟨qs, t', xs, ys, hp, hi, hl, hb, hk⟩

/-- It then calls `resched`. -/
theorem sleepOn_settled (h : Settled strict k) (hcur : k.currpid ≠ NULLPROC) {st : PrState}
    (hst : st = .sleep ∨ st = .rectim) (delay : Int) :
    ∃ t' k', insertd k.currpid k.sleepq delay k = some (k.setQueue t', OK) ∧
      resched ((k.setQueue t').setState k.currpid st) = some k' ∧ Keeps strict k k' := by
  obtain ⟨qs, t', xs, ys, -, hi, -, hb, -⟩ := sleepOn_placed h hcur hst delay
  obtain ⟨k', hr, hset, -, hq⟩ := resched_settled hb h.open_
  refine ⟨t', k', hi, hr, hset,
    ((Quiet.setQueue k t').trans (Quiet.setState _ k.currpid _ ?_ ?_ ?_)).trans hq⟩
  · rcases hst with rfl | rfl <;> simp
  · rw [setQueue_proctab, h.running]; simp
  · rw [setQueue_proctab, h.running]; simp

theorem sleepms_keeps (h : Settled strict k) (hcur : k.currpid ≠ NULLPROC) {delay : Int}
    {r : Kernel × Int} (hs : sleepms delay k = some r) : Keeps strict k r.1 := by
  unfold sleepms at hs
  split_ifs at hs with h1 h2
  · simp only [Option.some.injEq] at hs
    rw [← hs]
    exact h.keeps
  · exact yield_keeps h hs
  · obtain ⟨t', k', hi, hr, hk⟩ := sleepOn_settled h hcur (Or.inl rfl) delay
    have hne : ¬ OK = SYSERR := by decide
    simp only [hi, Option.bind_eq_bind, Option.bind_some, hne, if_false, setQueue_currpid, hr,
      Option.pure_def, Option.some.injEq] at hs
    rw [← hs]
    exact hk

theorem sleep_keeps (h : Settled strict k) (hcur : k.currpid ≠ NULLPROC) {delay : Int}
    {r : Kernel × Int} (hs : sleep delay k = some r) : Keeps strict k r.1 := by
  unfold sleep at hs
  split_ifs at hs with h1
  · simp only [Option.some.injEq] at hs
    rw [← hs]
    exact h.keeps
  · obtain ⟨x, hx, hs⟩ := Option.bind_eq_some_iff.mp hs
    simp only [Option.pure_def, Option.some.injEq] at hs
    rw [← hs]
    exact (sleepms_keeps h hcur hx : Keeps strict k x.1)

theorem receive_keeps (h : Settled strict k) (hcur : k.currpid ≠ NULLPROC) {r : Kernel × Cont}
    (hs : receive k = some r) : Keeps strict k r.1 := by
  unfold receive at hs
  split_ifs at hs with h1
  · obtain ⟨k', hr, hk, -⟩ := block_settled h hcur (Or.inl rfl)
    simp only [hr, Option.bind_eq_bind, Option.bind_some, Option.pure_def,
      Option.some.injEq] at hs
    rw [← hs]
    exact hk
  · simp only [Option.some.injEq] at hs
    rw [← hs]
    exact h.keeps

theorem recvtime_keeps (h : Settled strict k) (hcur : k.currpid ≠ NULLPROC) {maxwait : Int}
    {r : Kernel × Cont} (hs : recvtime maxwait k = some r) : Keeps strict k r.1 := by
  unfold recvtime at hs
  split_ifs at hs with h1 h2
  · simp only [Option.some.injEq] at hs
    rw [← hs]
    exact h.keeps
  · obtain ⟨t', k', hi, hr, hk⟩ := sleepOn_settled h hcur (Or.inr rfl) maxwait
    have hne : ¬ OK = SYSERR := by decide
    simp only [hi, Option.bind_eq_bind, Option.bind_some, hne, if_false, setQueue_currpid, hr,
      Option.pure_def, Option.some.injEq] at hs
    rw [← hs]
    exact hk
  · simp only [Option.some.injEq] at hs
    rw [← hs]
    exact h.keeps

/-! ## 2. `suspend` and `resume`

A ready process is taken off the ready list, from the middle of it; the current one blocks like in
the section before.  `resume` makes a suspended process ready. -/

/-- Taking a ready process off the ready list and giving it a state with no queue. -/
theorem unready_spec (h : Settled strict k) (hp : IsProc p) (hnull : p ≠ NULLPROC)
    (hr : (k.proctab p).prstate = .ready) {st : PrState} (hst : st = .susp ∨ st = .free) :
    Settled strict ((k.setQueue (getitem p k.queuetab)).setState p st) := by
  obtain ⟨qs, hpl⟩ := h.placed
  obtain ⟨xs, ys, -, hg⟩ := hpl.getitem hp hpl.queues.ready (by simp [home, hr])
  have ha := hg.assign (f := fun e => { e with prstate := st })
    (by rcases hst with rfl | rfl <;> simp) (fun e => absurd e hnull)
    (by rcases hst with rfl | rfl <;> simp)
  have hne : k.currpid ≠ p := by
    rintro rfl
    rw [h.running] at hr
    simp at hr
  refine ⟨⟨_, ha.arrive ?_⟩, ?_, h.open_, fun hs => (h.top hs).mono rfl ?_ ?_⟩
  · rcases hst with rfl | rfl <;> simp [home, setProc_same]
  · exact (congrArg Procent.prstate (setState_of_ne _ st hne)).trans h.running
  · intro x
    by_cases hx : x = p
    · subst hx; rw [setState_same]; rfl
    · rw [setState_of_ne _ st hx]; rfl
  · intro x hx
    rw [setState_prstate] at hx
    split_ifs at hx with hxp
    · rcases hst with rfl | rfl <;> simp at hx
    · exact hx

theorem suspend_keeps (h : Settled strict k) {pid : Int} {r : Kernel × Cont}
    (hs : suspend pid k = some r) : Keeps strict k r.1 := by
  unfold suspend at hs
  split_ifs at hs with h1 h2 h3
  · simp only [Option.some.injEq] at hs
    rw [← hs]
    exact h.keeps
  · simp only [Option.some.injEq] at hs
    rw [← hs]
    exact h.keeps
  · -- a ready process
    simp only [not_or] at h1
    simp only [Option.some.injEq] at hs
    rw [← hs]
    refine ⟨unready_spec h (IsProc.of_not_bad h1.1) h1.2 h3 (Or.inl rfl),
      (Quiet.setQueue k _).trans (Quiet.setState _ pid _ (by simp) ?_ ?_)⟩ <;>
    rw [setQueue_proctab, h3] <;> simp
  · -- the current process itself
    simp only [not_or] at h1
    have hc : (k.proctab pid).prstate = .curr := by
      by_contra hc
      exact h2 ⟨hc, h3⟩
    obtain ⟨qs, hp⟩ := h.placed
    obtain rfl := hp.curr pid (IsProc.of_not_bad h1.1) hc
    obtain ⟨k', hr, hk, -⟩ := block_settled h h1.2 (Or.inr rfl)
    simp only [hr, Option.bind_eq_bind, Option.bind_some, Option.pure_def,
      Option.some.injEq] at hs
    rw [← hs]
    exact hk

theorem resume_keeps (h : Settled strict k) {pid : Int} {r : Kernel × Int}
    (hs : resume pid k = some r) : Keeps strict k r.1 := by
  unfold resume at hs
  split_ifs at hs with h1 h2
  · simp only [Option.some.injEq] at hs
    rw [← hs]
    exact h.keeps
  · simp only [Option.some.injEq] at hs
    rw [← hs]
    exact h.keeps
  · simp only [ne_eq, not_not] at h2
    obtain ⟨qs, hp⟩ := h.placed
    have hd := hp.depart (IsProc.of_not_bad h1) (by simp [home, h2])
    obtain ⟨k', hr, hset, hq⟩ := ready_settled hd h1 (by rw [h2]; simp) h.open_
    simp only [hr, Option.bind_eq_bind, Option.bind_some, Option.pure_def,
      Option.some.injEq] at hs
    rw [← hs]
    exact ⟨hset, hq⟩

/-! ## 3. The sleep queue and the clock

The keys of the sleep queue are delays from one sleeper to the next, so a process that is taken
out leaves its key to the one behind it.  `wakeup` runs as long as the first key is not positive,
with rescheduling deferred, and the clock handler calls it. -/

/-- **`unsleep` takes a process off its list**, and the next one inherits its key. -/
theorem unsleep_linked (h : Linked k.queuetab qs) (hq : IsQueue q) (hs : qs q = xs ++ p :: ys)
    (hgood : ¬ isbadpid k p)
    (hst : (k.proctab p).prstate = .sleep ∨ (k.proctab p).prstate = .rectim) :
    ∃ t', unsleep p k = (k.setQueue t', OK) ∧ Linked t' (Function.update qs q (xs ++ ys)) ∧
      ∀ i, (t' i).qkey = if ys.head? = some i then
        int32 ((k.queuetab i).qkey + (k.queuetab p).qkey) else (k.queuetab i).qkey := by
  have hpath := h.path _ hq
  rw [hs] at hpath
  have hnext : (k.queuetab p).qnext = ys.headD (q + 1) := hpath.next_mid
  have hno : ¬ ((k.proctab p).prstate ≠ .sleep ∧ (k.proctab p).prstate ≠ .rectim) := by
    rintro ⟨h1, h2⟩
    exact hst.elim h1 h2
  cases ys with
  | nil =>
    have hge : ¬ (k.queuetab p).qnext < NPROC := by
      have := hq.1
      rw [hnext, List.headD_nil]
      omega
    refine ⟨getitem p k.queuetab, ?_, getitem_spec h hq hs, fun i => ?_⟩
    · simp only [unsleep, hgood, hno, if_false, hge]
    · rw [getitem_qkey]
      rfl
  | cons y ys =>
    -- the successor inherits the delay
    have hy : IsProc y := h.procs _ hq y (by rw [hs]; simp)
    rw [List.headD_cons] at hnext
    have hlt : y < NPROC := hy.2
    refine ⟨_, ?_, getitem_spec (h.setKey hy
      (int32 ((k.queuetab y).qkey + (k.queuetab p).qkey))) hq hs, fun i => ?_⟩
    · simp only [unsleep, hgood, hno, if_false, hnext, hlt, if_true]
    · rw [getitem_qkey, setKey_qkey]
      by_cases hi : i = y
      · subst hi
        simp
      · simp [hi, Ne.symm hi]

/-- **`unsleep` takes a sleeping process off the sleep queue**, and the next one inherits its
delay. -/
theorem unsleep_spec (h : Placed strict k qs none) (hgood : ¬ isbadpid k p)
    (hst : (k.proctab p).prstate = .sleep ∨ (k.proctab p).prstate = .rectim) :
    ∃ t' xs ys, unsleep p k = (k.setQueue t', OK) ∧ qs k.sleepq = xs ++ p :: ys ∧
      Placed strict (k.setQueue t') (Function.update qs k.sleepq (xs ++ ys)) (some p) ∧
      ∀ i, (t' i).qkey = if ys.head? = some i then
        int32 ((k.queuetab i).qkey + (k.queuetab p).qkey) else (k.queuetab i).qkey := by
  have hhome : home k p = some k.sleepq := by rcases hst with e | e <;> simp [home, e]
  obtain ⟨hsq, hne⟩ := h.queues.sleep
  obtain ⟨xs, ys, hs⟩ := h.split (IsProc.of_not_bad hgood) hsq hhome
  obtain ⟨t', hu, hl, hk⟩ := unsleep_linked h.linked hsq hs hgood hst
  refine ⟨t', xs, ys, hu, hs, h.takeOff hsq hs hl fun i hi _ => ?_, hk⟩
  rw [hk, if_neg]
  intro hy
  have hm : i ∈ qs k.sleepq := by
    rw [hs]
    exact List.mem_append_right _ (List.mem_cons_of_mem _ (List.mem_of_mem_head? hy))
  exact hne (h.linked.apart _ _ i hsq h.queues.ready hm hi)

/-- A process that was first on a queue and is now in transit, with `ready` about to be called for
it. -/
structure Leaving (strict : Prop) (k : Kernel) (qs : Int → List Int) (q : Int) (t' : QTab) (p : Int)
    (ys : List Int) : Prop where
  first : qs q = p :: ys
  placed : Placed strict (k.setQueue t') (Function.update qs q ys) (some p)
  keys : ∀ i, (t' i).qkey = (k.queuetab i).qkey
  good : ¬ isbadpid (k.setQueue t') p
  recv : ((k.setQueue t').proctab p).prstate ≠ .recv
  other : p ≠ (k.setQueue t').currpid

/-- **One round of `wakeup`**: no delay is over, or the first sleeper is made ready. -/
theorem wakeupLoop_cases {fuel : Nat} (h : Placed strict k qs none)
    (hrun : (k.proctab k.currpid).prstate = .curr) (hw : wakeupLoop (fuel + 1) k = some k') :
    (∀ p ys, qs k.sleepq = p :: ys → 0 < (k.queuetab p).qkey) ∧ k' = k ∨
      ∃ t' p ys k₁ v, (k.queuetab p).qkey ≤ 0 ∧ Leaving strict k qs k.sleepq t' p ys ∧
        ready p (k.setQueue t') = some (k₁, v) ∧ wakeupLoop fuel k₁ = some k' := by
  have hfirst : firstid k.queuetab k.sleepq = (qs k.sleepq).headD (k.sleepq + 1) :=
    (h.linked.path _ h.queues.sleep.1).next_head
  unfold wakeupLoop at hw
  cases hs : qs k.sleepq with
  | nil =>
    have hempty := (isempty_iff h.linked h.queues.sleep.1).mpr hs
    rw [if_neg fun hc => absurd hc.1 (not_lt.mpr hempty)] at hw
    exact Or.inl ⟨by simp, (Option.some.inj hw).symm⟩
  | cons p ys =>
    rw [hs, List.headD_cons] at hfirst
    have hpp : IsProc p := h.linked.procs _ h.queues.sleep.1 p (by simp [hs])
    simp only [nonempty, firstkey, hfirst] at hw
    split_ifs at hw with hc
    · obtain ⟨t', hd, hout, hk⟩ := h.dequeue h.queues.sleep.1 hs
      have hst := h.mem_sleep hpp (by simp [hs])
      rw [hd] at hw
      obtain ⟨⟨k₁, v⟩, hr, hw⟩ := Option.bind_eq_some_iff.mp hw
      refine Or.inr ⟨t', p, ys, k₁, v, hc.2, ⟨hs, hout, hk, ?_, ?_, ?_⟩, hr, hw⟩
      · rintro (h1 | h1 | h1)
        · exact absurd hpp.1 (by omega)
        · exact absurd hpp.2 (by omega)
        · rw [setQueue_proctab] at h1
          rcases hst with e | e <;> rw [e] at h1 <;> simp at h1
      · rw [setQueue_proctab]
        rcases hst with e | e <;> rw [e] <;> simp
      · rintro rfl
        rw [setQueue_currpid, hrun] at hst
        simp at hst
    · refine Or.inl ⟨?_, (Option.some.inj hw).symm⟩
      intro p' ys' he
      obtain ⟨rfl, -⟩ := List.cons.inj he
      exact not_le.mp fun hle => hc ⟨hpp.2, hle⟩

/-- `wakeup`'s loop. -/
theorem wakeupLoop_deferred {fuel : Nat} (h : Deferred strict k)
    (hw : wakeupLoop fuel k = some k') : Deferred strict k' ∧ Quiet k k' := by
  induction fuel generalizing k with
  | zero => simp [wakeupLoop] at hw
  | succ fuel ih =>
    obtain ⟨qs, hp⟩ := h.placed
    rcases wakeupLoop_cases hp h.running hw with ⟨-, rfl⟩ | ⟨t', p, ys, k₁, v, -, hlv, hr, hw⟩
    · exact ⟨h, Quiet.refl _⟩
    · obtain ⟨k₂, hr', hdef, hq⟩ :=
        ready_deferred hlv.placed hlv.good hlv.recv hlv.other h.running h.once
      obtain ⟨rfl, -⟩ := Prod.mk.inj (Option.some.inj (hr'.symm.trans hr))
      obtain ⟨h1, h2⟩ := ih hdef hw
      exact ⟨h1, ((Quiet.setQueue k t').trans hq).trans h2⟩

theorem wakeup_keeps (h : Settled strict k) (hw : wakeup k = some k') : Keeps strict k k' := by
  unfold wakeup at hw
  obtain ⟨k₁, h1, hd1, hq1, -⟩ := deferStart_spec h
  simp only [h1, Option.bind_eq_bind, Option.bind_some] at hw
  obtain ⟨k₂, h2, hw⟩ := Option.bind_eq_some_iff.mp hw
  obtain ⟨hd2, hq2⟩ := wakeupLoop_deferred hd1 h2
  obtain ⟨k₃, h3, hs3, hq3⟩ := deferStop_spec hd2
  simp only [h3, Option.bind_some, Option.pure_def, Option.some.injEq] at hw
  rw [← hw]
  exact ⟨hs3, (hq1.trans hq2).trans hq3⟩

/-- Counting milliseconds and seconds shows in no table. -/
theorem countMs_same (k : Kernel) :
    SameTables k (countMs k) ∧ (countMs k).defer = k.defer ∧ Quiet k (countMs k) := by
  unfold countMs
  simp only
  split_ifs <;> exact ⟨⟨rfl, rfl, rfl, rfl, rfl, fun _ => rfl, fun _ => rfl, fun _ => rfl,
    fun _ => rfl⟩, rfl, ⟨rfl, rfl, rfl, rfl, rfl, fun _ => rfl, fun _ => .of_prstate rfl, rfl, rfl,
    fun _ => rfl⟩⟩

theorem countMs_keeps (h : Settled strict k) : Keeps strict k (countMs k) := by
  obtain ⟨he, hd, hq⟩ := countMs_same k
  exact ⟨h.congr he (congrArg Defer.ndefers hd), hq⟩

/-- The first sleeper's delay is decremented, and `wakeup` called when it is over. -/
theorem clkSleepers_keeps (h : Settled strict k) (hc : clkSleepers k = some k') :
    Keeps strict k k' := by
  unfold clkSleepers at hc
  by_cases hempty : isempty k.queuetab k.sleepq
  · rw [if_pos hempty] at hc
    rw [← Option.some.inj hc]
    exact h.keeps
  · rw [if_neg hempty] at hc
    obtain ⟨qs, hp⟩ := h.placed
    obtain ⟨p, ys, hs⟩ := List.exists_cons_of_ne_nil fun e =>
      hempty ((isempty_iff hp.linked hp.queues.sleep.1).mpr e)
    have hfirst : firstid k.queuetab k.sleepq = p := by
      have : firstid k.queuetab k.sleepq = (qs k.sleepq).headD (k.sleepq + 1) :=
        (hp.linked.path _ hp.queues.sleep.1).next_head
      rw [this, hs, List.headD_cons]
    have hpp : IsProc p := hp.linked.procs _ hp.queues.sleep.1 p (by simp [hs])
    have hnr : (k.proctab p).prstate ≠ .ready := by
      rcases hp.mem_sleep hpp (by simp [hs]) with e | e <;> rw [e] <;> simp
    simp only [hfirst] at hc
    have hset : ∀ v, Settled strict (k.setQueue (k.queuetab.setKey p v)) := fun v =>
      ⟨⟨qs, hp.setKey hpp hnr v⟩, h.running, h.open_, h.top⟩
    split_ifs at hc with hkey
    · have hw := wakeup_keeps (hset _) hc
      exact ⟨hw.settled, (Quiet.setQueue k _).trans hw.quiet⟩
    · rw [← Option.some.inj hc]
      exact ⟨hset _, Quiet.setQueue k _⟩

/-- `clkhandler`, the part before the preemption counter. -/
theorem clkhandler_keeps (h : Settled strict k) (hc : clkhandler k = some k') :
    Keeps strict k k' := by
  have h₁ := countMs_keeps h
  have h₂ := clkSleepers_keeps h₁.settled hc
  exact ⟨h₂.settled, h₁.quiet.trans h₂.quiet⟩

theorem clkhandlerTail_keeps (h : Settled strict k) (hc : clkhandlerTail k = some k') :
    Keeps strict k k' := by
  have he : ∀ n, SameTables k { k with preempt := n } := fun n =>
    ⟨rfl, rfl, rfl, rfl, rfl, fun _ => rfl, fun _ => rfl, fun _ => rfl, fun _ => rfl⟩
  have hq : ∀ n, Quiet k { k with preempt := n } := fun n =>
    ⟨rfl, rfl, rfl, rfl, rfl, fun _ => rfl, fun _ => .of_prstate rfl, rfl, rfl, fun _ => rfl⟩
  unfold clkhandlerTail at hc
  simp only at hc
  split_ifs at hc with h1
  · obtain ⟨k₁, hr, hk⟩ := resched_keeps (h.congr (he QUANTUM) rfl)
    rw [hr] at hc
    rw [← Option.some.inj hc]
    exact ⟨hk.settled, (hq QUANTUM).trans hk.quiet⟩
  · rw [← Option.some.inj hc]
    exact ⟨h.congr (he _) rfl, hq _⟩

/-! ## 4. Semaphores

`signal`, `signaln` and `semdelete` share the round `countUp`, which takes the first process off
the queue by `dequeue` or by `getfirst`; `semreset` empties the queue without counting.  A count
is negative exactly when somebody waits, so a round that counts up from below zero finds a
process, and it is one that `ready` accepts. -/

/-- A change of a semaphore's count or status. -/
theorem Quiet.setSem (k : Kernel) (sem : Int) {f : Sentry → Sentry}
    (hf : ∀ e, (f e).squeue = e.squeue) : Quiet k (k.setSem sem f) :=
  ⟨rfl, rfl, rfl, rfl, rfl, fun _ => rfl, fun _ => .of_prstate rfl, rfl, rfl,
    (SameTables.setSem k sem hf).squeue⟩

/-- The processes on the queue of a semaphore are waiting. -/
theorem Placed.mem_sem (h : Placed strict k qs none) (hq : IsQueue q) (hr : q ≠ k.readylist)
    (hs : q ≠ k.sleepq) (hm : p ∈ qs q) : (k.proctab p).prstate = .wait := by
  have hp := h.linked.procs q hq p hm
  have hh := (h.placed p q hp hq (by simp)).mp hm
  simp only [home] at hh
  split at hh
  · exact absurd (Option.some.inj hh).symm hr
  · exact absurd (Option.some.inj hh).symm hs
  · exact absurd (Option.some.inj hh).symm hs
  · assumption
  · simp at hh

/-- The current process, which is not the null process, puts itself on the queue of a semaphore. -/
theorem enqueueSelf_spec (h : Settled strict k) (hcur : k.currpid ≠ NULLPROC) {sem : Int}
    (hsem : ¬ isbadsem sem) : ∃ qs t', Placed strict k qs none ∧
      enqueue k.currpid (k.semtab sem).squeue
        (k.setProc k.currpid fun e => { e with prstate := .wait, prsem := sem }) =
        ((k.setProc k.currpid fun e => { e with prstate := .wait, prsem := sem }).setQueue t',
          k.currpid) ∧
      Placed strict
        ((k.setProc k.currpid fun e => { e with prstate := .wait, prsem := sem }).setQueue t')
        (Function.update qs (k.semtab sem).squeue (qs (k.semtab sem).squeue ++ [k.currpid])) none ∧
      ∀ i, (t' i).qkey = (k.queuetab i).qkey := by
  obtain ⟨qs, hp⟩ := h.placed
  have ha := (hp.depart hp.currProc (by simp [home, h.running])).assign
    (f := fun e => { e with prstate := .wait, prsem := sem }) (by simp)
    (fun e => absurd e hcur) (fun _ => hsem)
  obtain ⟨t', he, hb, hk⟩ := ha.enqueueWait hp.currProc (by simp [setProc_same])
  have hsem' : ((k.setProc k.currpid fun e =>
      { e with prstate := .wait, prsem := sem }).proctab k.currpid).prsem = sem := by
    simp [setProc_same]
  rw [hsem'] at he hb
  exact ⟨qs, t', hp, he, hb, hk⟩

theorem wait_keeps (h : Settled strict k) (hcur : k.currpid ≠ NULLPROC) {sem : Int}
    {r : Kernel × Int} (hw : wait sem k = some r) : Keeps strict k r.1 := by
  unfold wait at hw
  split_ifs at hw with h1 h2
  · rw [← Option.some.inj hw]; exact h.keeps
  · rw [← Option.some.inj hw]; exact h.keeps
  simp only at hw
  set k₁ := k.setSem sem fun s => { s with scount := int32 (s.scount - 1) } with hk₁
  have h₁ : Settled strict k₁ := h.congr (SameTables.setSem k sem fun _ => rfl) rfl
  have hq₁ : Quiet k k₁ := Quiet.setSem k sem fun _ => rfl
  clear_value k₁
  have hc₁ : k₁.currpid = k.currpid := by rw [hk₁]; rfl
  split_ifs at hw with h3
  · obtain ⟨qs, t', -, he, hb, -⟩ := enqueueSelf_spec h₁ (by rw [hc₁]; exact hcur) h1
    obtain ⟨k', hr, hset, -, hq⟩ := resched_settled hb h₁.open_
    simp only [setProc_currpid, setProc_semtab, he, hr, Option.bind_eq_bind, Option.bind_some,
      Option.pure_def, Option.some.injEq] at hw
    rw [← hw]
    have hqw : Quiet k₁ (k₁.setProc k₁.currpid fun e =>
      { e with prstate := .wait, prsem := sem }) :=
      Quiet.setProc k₁ k₁.currpid (fun _ => rfl) (by simp [h₁.running]) (by simp [h₁.running])
    exact ⟨hset, ((hq₁.trans hqw).trans (Quiet.setQueue _ t')).trans hq⟩
  · rw [← Option.some.inj hw]
    exact ⟨h₁, hq₁⟩

/-- What removing the first process of a semaphore's queue finds: nobody, or a process in
transit that `ready` accepts. -/
theorem Placed.firstWaiting (h : Placed strict k qs none)
    (hrun : (k.proctab k.currpid).prstate = .curr) {sem : Int} (hsem : ¬ isbadsem sem) :
    qs (k.semtab sem).squeue = [] ∨ ∃ p ys, qs (k.semtab sem).squeue = p :: ys ∧
      ¬ isbadpid k p ∧ (k.proctab p).prstate ≠ .recv ∧ p ≠ k.currpid := by
  obtain ⟨hq, hr, hs⟩ := h.queues.sem sem hsem
  cases hl : qs (k.semtab sem).squeue with
  | nil => exact Or.inl rfl
  | cons p ys =>
    have hm : p ∈ qs (k.semtab sem).squeue := by simp [hl]
    have hp := h.linked.procs _ hq p hm
    have hw := h.mem_sem hq hr hs hm
    refine Or.inr ⟨p, ys, rfl, ?_, by rw [hw]; simp, ?_⟩
    · rintro (h1 | h1 | h1)
      · exact absurd hp.1 (by omega)
      · exact absurd hp.2 (by omega)
      · rw [hw] at h1; simp at h1
    · rintro rfl
      rw [hrun] at hw
      simp at hw

/-- `take` removes the first process of `q` and reports it. -/
structure TakesFirst (q : Int) (take : QTab → QTab × Int) : Prop where
  nil : ∀ {t qs}, Linked t qs → qs q = [] → take t = (t, EMPTY)
  cons : ∀ {t qs p ys}, Linked t qs → qs q = p :: ys → ∃ t', take t = (t', p) ∧
    Linked t' (Function.update qs q ys) ∧ ∀ i, (t' i).qkey = (t i).qkey

theorem dequeue_takes (hq : IsQueue q) : TakesFirst q (dequeue q) where
  nil := fun h hs => dequeue_nil h hq hs
  cons := fun h hs => dequeue_spec h hq hs

theorem getfirst_takes (hq : IsQueue q) : TakesFirst q (getfirst q) where
  nil := fun h hs => getfirst_nil h hq hs
  cons := fun h hs => ⟨_, getfirst_cons h hq hs,
    getitem_spec h hq (show _ = [] ++ _ from hs), getitem_qkey _ _⟩

/-- **`ready` of the process removed from the front of a semaphore's queue**, by either routine
that removes it. -/
theorem readyFirst_cases (h : Placed strict k qs none)
    (hrun : (k.proctab k.currpid).prstate = .curr) {sem : Int} (hsem : ¬ isbadsem sem)
    (hq : (k.semtab sem).squeue = q) {take : QTab → QTab × Int} (ht : TakesFirst q take) :
    (qs q = [] ∧ take k.queuetab = (k.queuetab, EMPTY) ∧
        ready EMPTY (k.setQueue k.queuetab) = some (k, SYSERR)) ∨
      ∃ t' p ys, take k.queuetab = (t', p) ∧ Leaving strict k qs q t' p ys := by
  rcases h.firstWaiting hrun hsem with hl | ⟨p, ys, hl, hgood, hrecv, hne⟩
  · rw [hq] at hl
    exact Or.inl ⟨hl, ht.nil h.linked hl, ready_bad (isbadpid_empty _)⟩
  · have hisq := (h.queues.sem sem hsem).1
    rw [hq] at hl hisq
    obtain ⟨t', he, hlink, hk⟩ := ht.cons h.linked hl
    exact Or.inr ⟨t', p, ys, he, hl, h.takeHead hisq hl hlink hk, hk, hgood, hrecv, hne⟩

/-- One round of `signal`, `signaln` or `semdelete`: count, and when somebody should be waiting
make the one that `take` removes ready. -/
def countUp (take : QTab → QTab × Int) (sem : Int) (k : Kernel) : Option Kernel :=
  let k₁ := k.setSem sem fun s => { s with scount := int32 (s.scount + 1) }
  if (k.semtab sem).scount < 0 then
    (ready (take k.queuetab).2 (k₁.setQueue (take k.queuetab).1)).map Prod.fst
  else some k₁

theorem signalOnce_eq (sem : Int) (k : Kernel) :
    signalOnce sem k = countUp (dequeue (k.semtab sem).squeue) sem k := by
  have hq := (SameTables.setSem k sem
    (f := fun s => { s with scount := int32 (s.scount + 1) }) fun _ => rfl).squeue sem
  unfold signalOnce countUp
  dsimp only
  rw [hq]
  split_ifs
  · show ((ready (dequeue (k.semtab sem).squeue k.queuetab).2
      (Kernel.setQueue _ (dequeue (k.semtab sem).squeue k.queuetab).1)).bind _) = _
    rw [Option.map_eq_bind]
    rfl
  · rfl

theorem semdeleteLoop_succ (sem : Int) (fuel : Nat) (k : Kernel) :
    semdeleteLoop sem (fuel + 1) k =
      if (k.semtab sem).scount < 0 then
        (countUp (getfirst (k.semtab sem).squeue) sem k).bind (semdeleteLoop sem fuel)
      else some (k.setSem sem fun s => { s with scount := int32 (s.scount + 1) }) := by
  have hq := (SameTables.setSem k sem
    (f := fun s => { s with scount := int32 (s.scount + 1) }) fun _ => rfl).squeue sem
  unfold countUp
  rw [semdeleteLoop]
  dsimp only
  rw [hq]
  split_ifs
  · rw [Option.bind_map]
    rfl
  · rfl

/-- **What one round does.** -/
theorem countUp_cases (h : Placed strict k qs none) (hrun : (k.proctab k.currpid).prstate = .curr)
    {sem : Int} (hsem : ¬ isbadsem sem) {take : QTab → QTab × Int}
    (ht : TakesFirst (k.semtab sem).squeue take) (hs : countUp take sem k = some k') :
    ((0 ≤ (k.semtab sem).scount ∨ qs (k.semtab sem).squeue = []) ∧
        k' = k.setSem sem fun s => { s with scount := int32 (s.scount + 1) }) ∨
      (k.semtab sem).scount < 0 ∧ ∃ t' p ys v, Leaving strict
        (k.setSem sem fun s => { s with scount := int32 (s.scount + 1) }) qs
        (k.semtab sem).squeue t' p ys ∧
        ready p ((k.setSem sem fun s => { s with scount := int32 (s.scount + 1) }).setQueue t') =
          some (k', v) := by
  have he : SameTables k (k.setSem sem fun s => { s with scount := int32 (s.scount + 1) }) :=
    SameTables.setSem k sem fun _ => rfl
  unfold countUp at hs
  dsimp only at hs
  split_ifs at hs with hc
  · obtain ⟨⟨k₂, v⟩, hr, rfl⟩ := Option.map_eq_some_iff.mp hs
    rcases readyFirst_cases (h.congr he) (by rw [he.currpid, he.prstate]; exact hrun) hsem
      (he.squeue sem) ht with ⟨hl, hd, hbad⟩ | ⟨t', p, ys, hd, hlv⟩
    · rw [he.queuetab] at hd hbad
      rw [hd] at hr
      obtain ⟨rfl, -⟩ := Prod.mk.inj (Option.some.inj (hbad.symm.trans hr))
      exact Or.inl ⟨Or.inr hl, rfl⟩
    · rw [he.queuetab] at hd
      rw [hd] at hr
      exact Or.inr ⟨hc, t', p, ys, v, hlv, hr⟩
  · exact Or.inl ⟨Or.inl (not_lt.mp hc), (Option.some.inj hs).symm⟩

theorem signalOnce_keeps (h : Settled strict k) {sem : Int} (hsem : ¬ isbadsem sem)
    (hs : signalOnce sem k = some k') : Keeps strict k k' := by
  have h₁ := h.congr (SameTables.setSem k sem
    (f := fun s => { s with scount := int32 (s.scount + 1) }) fun _ => rfl) rfl
  have hq₁ := Quiet.setSem k sem (f := fun s => { s with scount := int32 (s.scount + 1) })
    fun _ => rfl
  obtain ⟨qs, hp⟩ := h.placed
  rw [signalOnce_eq] at hs
  rcases countUp_cases hp h.running hsem (dequeue_takes (hp.queues.sem sem hsem).1) hs with
    ⟨-, rfl⟩ | ⟨-, t', p, ys, v, hlv, hr⟩
  · exact ⟨h₁, hq₁⟩
  · obtain ⟨k₂, hr', hset, hq₂⟩ := ready_settled hlv.placed hlv.good hlv.recv h₁.open_
    obtain ⟨rfl, -⟩ := Prod.mk.inj (Option.some.inj (hr'.symm.trans hr))
    exact ⟨hset, (hq₁.trans (Quiet.setQueue _ t')).trans hq₂⟩

theorem countUp_deferred (h : Deferred strict k) {sem : Int} (hsem : ¬ isbadsem sem)
    {take : QTab → QTab × Int} (ht : TakesFirst (k.semtab sem).squeue take)
    (hs : countUp take sem k = some k') : Deferred strict k' ∧ Quiet k k' := by
  have h₁ := h.congr (SameTables.setSem k sem
    (f := fun s => { s with scount := int32 (s.scount + 1) }) fun _ => rfl) rfl
  have hq₁ := Quiet.setSem k sem (f := fun s => { s with scount := int32 (s.scount + 1) })
    fun _ => rfl
  obtain ⟨qs, hp⟩ := h.placed
  rcases countUp_cases hp h.running hsem ht hs with ⟨-, rfl⟩ | ⟨-, t', p, ys, v, hlv, hr⟩
  · exact ⟨h₁, hq₁⟩
  · obtain ⟨k₂, hr', hset, hq₂⟩ :=
      ready_deferred hlv.placed hlv.good hlv.recv hlv.other h₁.running h₁.once
    obtain ⟨rfl, -⟩ := Prod.mk.inj (Option.some.inj (hr'.symm.trans hr))
    exact ⟨hset, (hq₁.trans (Quiet.setQueue _ t')).trans hq₂⟩

theorem signalOnce_deferred (h : Deferred strict k) {sem : Int} (hsem : ¬ isbadsem sem)
    (hs : signalOnce sem k = some k') : Deferred strict k' ∧ Quiet k k' := by
  obtain ⟨qs, hp⟩ := h.placed
  rw [signalOnce_eq] at hs
  exact countUp_deferred h hsem (dequeue_takes (hp.queues.sem sem hsem).1) hs

theorem signal_keeps (h : Settled strict k) {sem : Int} {r : Kernel × Int}
    (hs : signal sem k = some r) : Keeps strict k r.1 := by
  unfold signal at hs
  split_ifs at hs with h1 h2
  · rw [← Option.some.inj hs]; exact h.keeps
  · rw [← Option.some.inj hs]; exact h.keeps
  · obtain ⟨k₁, h3, hs⟩ := Option.bind_eq_some_iff.mp hs
    rw [← Option.some.inj hs]
    exact signalOnce_keeps h h1 h3

theorem signalnLoop_deferred {sem : Int} (hsem : ¬ isbadsem sem) {n : Nat}
    (h : Deferred strict k) (hs : signalnLoop sem n k = some k') :
    Deferred strict k' ∧ Quiet k k' := by
  induction n generalizing k with
  | zero =>
    rw [← Option.some.inj hs]
    exact ⟨h, Quiet.refl k⟩
  | succ n ih =>
    obtain ⟨k₁, h1, hs⟩ := Option.bind_eq_some_iff.mp hs
    obtain ⟨hd, hq⟩ := signalOnce_deferred h hsem h1
    obtain ⟨hd', hq'⟩ := ih hd hs
    exact ⟨hd', hq.trans hq'⟩

/-- Running a deferred routine between `DEFER_START` and `DEFER_STOP`. -/
theorem deferred_keeps (h : Settled strict k) {f : Kernel → Option Kernel}
    (hf : ∀ k₁ k₂, SameTables k k₁ → Deferred strict k₁ → f k₁ = some k₂ →
      Deferred strict k₂ ∧ Quiet k₁ k₂) {r : Kernel × Int}
    (hs : (do
      let (k, _) ← reschedCntl DEFER_START k
      let k ← f k
      let (k, _) ← reschedCntl DEFER_STOP k
      return (k, OK)) = some r) : Keeps strict k r.1 := by
  obtain ⟨k₁, h1, hd1, hq1, he⟩ := deferStart_spec h
  simp only [h1, Option.bind_eq_bind, Option.bind_some] at hs
  obtain ⟨k₂, h2, hs⟩ := Option.bind_eq_some_iff.mp hs
  obtain ⟨hd2, hq2⟩ := hf k₁ k₂ he hd1 h2
  obtain ⟨k₃, h3, hs3, hq3⟩ := deferStop_spec hd2
  simp only [h3, Option.bind_some, Option.pure_def, Option.some.injEq] at hs
  rw [← hs]
  exact ⟨hs3, (hq1.trans hq2).trans hq3⟩

theorem signaln_keeps (h : Settled strict k) {sem count : Int} {r : Kernel × Int}
    (hs : signaln sem count k = some r) : Keeps strict k r.1 := by
  unfold signaln at hs
  split_ifs at hs with h1 h2
  · rw [← Option.some.inj hs]; exact h.keeps
  · rw [← Option.some.inj hs]; exact h.keeps
  · simp only [not_or] at h1
    exact deferred_keeps h (fun k₁ k₂ _ hd hl => signalnLoop_deferred h1.1 hd hl) hs

theorem semdeleteLoop_deferred {sem : Int} (hsem : ¬ isbadsem sem) {fuel : Nat}
    (h : Deferred strict k) (hs : semdeleteLoop sem fuel k = some k') :
    Deferred strict k' ∧ Quiet k k' := by
  induction fuel generalizing k with
  | zero => simp [semdeleteLoop] at hs
  | succ fuel ih =>
    rw [semdeleteLoop_succ] at hs
    split_ifs at hs with hc
    · obtain ⟨k₁, h1, hs⟩ := Option.bind_eq_some_iff.mp hs
      obtain ⟨qs, hp⟩ := h.placed
      obtain ⟨hd, hq⟩ := countUp_deferred h hsem (getfirst_takes (hp.queues.sem sem hsem).1) h1
      obtain ⟨hd', hq'⟩ := ih hd hs
      exact ⟨hd', hq.trans hq'⟩
    · rw [← Option.some.inj hs]
      exact ⟨h.congr (SameTables.setSem k sem fun _ => rfl) rfl, Quiet.setSem k sem fun _ => rfl⟩

theorem semdelete_keeps (h : Settled strict k) {sem : Int} {r : Kernel × Int}
    (hs : semdelete sem k = some r) : Keeps strict k r.1 := by
  unfold semdelete at hs
  split_ifs at hs with h1 h2
  · rw [← Option.some.inj hs]; exact h.keeps
  · rw [← Option.some.inj hs]; exact h.keeps
  · have h₁ : Settled strict (k.setSem sem fun s => { s with sstate := .free }) :=
      h.congr (SameTables.setSem k sem fun _ => rfl) rfl
    have hk := deferred_keeps h₁ (fun k₁ k₂ _ hd hl => semdeleteLoop_deferred h1 hd hl) hs
    exact ⟨hk.settled, (Quiet.setSem k sem (by intro e; rfl)).trans hk.quiet⟩

/-- **One round of `semreset`**: the queue is empty, or its first process is made ready. -/
theorem semresetLoop_cases {sem : Int} (hsem : ¬ isbadsem sem) {fuel : Nat}
    (h : Placed strict k qs none) (hrun : (k.proctab k.currpid).prstate = .curr)
    (hq : (k.semtab sem).squeue = q) (hs : semresetLoop q (fuel + 1) k = some k') :
    (qs q = [] ∧ k' = k) ∨ ∃ t' p ys k₁ v, Leaving strict k qs q t' p ys ∧
      ready p (k.setQueue t') = some (k₁, v) ∧ semresetLoop q fuel k₁ = some k' := by
  have hisq := (h.queues.sem sem hsem).1
  rw [hq] at hisq
  rcases readyFirst_cases h hrun hsem hq (getfirst_takes hisq) with ⟨hl, hd, -⟩ |
    ⟨t', p, ys, hd, hlv⟩
  · simp only [semresetLoop, hd, ne_eq, not_true, if_false] at hs
    exact Or.inl ⟨hl, (Option.some.inj hs).symm⟩
  · have hne : p ≠ EMPTY := by
      have := (IsProc.of_not_bad hlv.good).1
      simp only [EMPTY]
      omega
    simp only [semresetLoop, hd, hne, ne_eq, not_false_iff, if_true] at hs
    obtain ⟨⟨k₁, v⟩, hr, hs⟩ := Option.bind_eq_some_iff.mp hs
    exact Or.inr ⟨t', p, ys, k₁, v, hlv, hr, hs⟩

theorem semresetLoop_deferred {sem : Int} (hsem : ¬ isbadsem sem) {fuel : Nat}
    (h : Deferred strict k) (hq : (k.semtab sem).squeue = q)
    (hs : semresetLoop q fuel k = some k') : Deferred strict k' ∧ Quiet k k' := by
  induction fuel generalizing k with
  | zero => simp [semresetLoop] at hs
  | succ fuel ih =>
    obtain ⟨qs, hp⟩ := h.placed
    rcases semresetLoop_cases hsem hp h.running hq hs with ⟨-, rfl⟩ |
      ⟨t', p, ys, k₁, v, hlv, hr, hs⟩
    · exact ⟨h, Quiet.refl _⟩
    · obtain ⟨k₂, hr', hset, hq₂⟩ :=
        ready_deferred hlv.placed hlv.good hlv.recv hlv.other h.running h.once
      obtain ⟨rfl, -⟩ := Prod.mk.inj (Option.some.inj (hr'.symm.trans hr))
      obtain ⟨hd, hq'⟩ := ih hset ((hq₂.ids.2.2 sem).trans hq) hs
      exact ⟨hd, ((Quiet.setQueue _ t').trans hq₂).trans hq'⟩

theorem semreset_keeps (h : Settled strict k) {sem count : Int} {r : Kernel × Int}
    (hs : semreset sem count k = some r) : Keeps strict k r.1 := by
  unfold semreset at hs
  split_ifs at hs with h1
  · rw [← Option.some.inj hs]; exact h.keeps
  · simp only [not_or] at h1
    refine deferred_keeps h (f := fun k => do
      let k ← semresetLoop (k.semtab sem).squeue NQENT.toNat k
      return k.setSem sem fun s => { s with scount := count }) ?_ ?_
    · intro k₁ k₂ _ hd hl
      obtain ⟨k₃, h3, hl⟩ := Option.bind_eq_some_iff.mp hl
      obtain ⟨hd₃, hq₃⟩ := semresetLoop_deferred h1.2.1 hd rfl h3
      rw [← Option.some.inj hl]
      exact ⟨hd₃.congr (SameTables.setSem k₃ sem fun _ => rfl) rfl,
        hq₃.trans (Quiet.setSem k₃ sem (by intro e; rfl))⟩
    · simpa only [Option.bind_eq_bind, Option.bind_assoc, Option.pure_def,
        Option.bind_some] using hs

/-- Changes of semaphore entries that keep the queue, and of `nextsem`. -/
theorem newsemLoop_keeps {fuel : Nat} (h : Settled strict k) :
    Keeps strict k (newsemLoop fuel k).1 := by
  induction fuel generalizing k with
  | zero => exact h.keeps
  | succ fuel ih =>
    have h₁ : ∀ n, Settled strict { k with nextsem := n } := fun n => h.congr
      ⟨rfl, rfl, rfl, rfl, rfl, fun _ => rfl, fun _ => rfl, fun _ => rfl, fun _ => rfl⟩ rfl
    have hq₁ : ∀ n, Quiet k { k with nextsem := n } := fun n =>
      ⟨rfl, rfl, rfl, rfl, rfl, fun _ => rfl, fun _ => .of_prstate rfl, rfl, rfl, fun _ => rfl⟩
    unfold newsemLoop
    by_cases hc : (k.semtab k.nextsem).sstate = .free
    · simp only [hc, if_true]
      exact ⟨(h₁ _).congr (SameTables.setSem _ _ fun _ => rfl) rfl,
        (hq₁ _).trans (Quiet.setSem _ _ (by intro e; rfl))⟩
    · simp only [hc, if_false]
      have h₂ := ih (h₁ (if k.nextsem + 1 ≥ NSEM then 0 else k.nextsem + 1))
      exact ⟨h₂.settled, (hq₁ _).trans h₂.quiet⟩

theorem semcreate_keeps (h : Settled strict k) (count : Int) :
    Keeps strict k (semcreate count k).1 := by
  have hn : Keeps strict k (newsem k).1 := newsemLoop_keeps h
  unfold semcreate
  split_ifs with h1
  · exact h.keeps
  · simp only
    split_ifs with h2
    · exact hn
    · have hq : Quiet (newsem k).1 ((newsem k).1.setSem (newsem k).2 fun s =>
          { s with scount := count }) := Quiet.setSem _ _ fun _ => rfl
      have he : SameTables (newsem k).1 ((newsem k).1.setSem (newsem k).2 fun s =>
          { s with scount := count }) := SameTables.setSem _ _ fun _ => rfl
      exact ⟨hn.settled.congr he rfl, hn.quiet.trans hq⟩

end Xinu
