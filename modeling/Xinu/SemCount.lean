/-
# Semaphores keep their counts

The count of a semaphore and the queue of the processes waiting for it are written by different
statements, and most of those processes are released while rescheduling is deferred.  All the
same a semaphore of the kernel is a counting semaphore: a keeper who only hears of the calls
(`semSee`) and applies the operations of `Counting.Counter` has the count and the waiting list of
every semaphore right in every state (`semaphores_kept`), as long as no count is pushed past the
largest `int32`.

The proof is a simulation.  Every round of a loop of the kernel is one
operation of the keeper's counter (sections 1 and 2), so every call is (section 5), so every step
of the system is (section 6).  And the calls about semaphores return whatever the state (section
7), so that a run is never stuck in one of these loops.  What is used of the queues is only what
`QueueFrame` says: which queue a call works on, and who leaves it.
-/
import Xinu.Lib.Counting
import Xinu.QueueFrame

namespace Xinu

open LinkedPath Counting

variable {strict : Prop} {k k' : Kernel} {qs : Int → List Int} {p q sem : Int} {xs ys : List Int}
  {c : Counter Int}

/-! ## 1. One semaphore

`Holds` relates one entry of the semaphore table to a counter, the queue of the entry being the
waiting list.  The loops of `signaln` and `semdelete` are rounds of "count, and make the first
process ready", and a round is the counter's signal; what is left to say is that the count does
not wrap. -/

/-- The kernel's semaphore has the count and the waiting list of `c`. -/
structure Holds (k : Kernel) (sem : Int) (c : Counter Int) : Prop where
  count : (k.semtab sem).scount = c.count
  list : waitList k sem = c.waiting

/-- The largest count a semaphore can have. -/
def maxCount : Int := 2147483647

/-- A count is far from the smallest `int32`: there are not that many processes. -/
theorem Holds.low (h : Holds k sem c) (hp : Placed strict k qs none) (hsem : ¬ isbadsem sem) :
    -100 ≤ c.count := by
  have hlen := hp.linked.length_le (hp.squeue hsem).1
  rw [← hp.waitList_eq hsem, h.list] at hlen
  have hb := c.balanced
  have : NPROC.toNat = 100 := rfl
  omega

/-- Releasing the first `n` and counting them is a signal. -/
theorem Holds.released (h : Holds k sem c) {n : Nat} (hr : Releases (k.semtab sem).squeue n k k')
    (hs : k'.semtab = (k.setSem sem fun s => { s with scount := c.count + n }).semtab) :
    Holds k' sem (c.signal n) := by
  have he : k'.semtab sem = { k.semtab sem with scount := c.count + n } := by
    rw [hs]
    exact Function.update_self ..
  refine ⟨by rw [he]; rfl, ?_⟩
  rw [waitList, he]
  exact hr.members.trans (congrArg (List.drop n) h.list)

/-- **One round of a loop** releases the first process and counts it. -/
theorem Holds.round (h : Holds k sem c) (hp : Placed strict k qs none)
    (hrun : (k.proctab k.currpid).prstate = .curr) (hsem : ¬ isbadsem sem)
    (hmax : c.count + 1 ≤ maxCount) {take : QTab → QTab × Int}
    (ht : TakesFirst (k.semtab sem).squeue take) (hs : countUp take sem k = some k') :
    Releases (k.semtab sem).squeue 1 k k' ∧
      k'.semtab = (k.setSem sem fun s => { s with scount := c.count + 1 }).semtab := by
  have hlow := h.low hp hsem
  simp only [maxCount] at hmax
  obtain ⟨hr, he⟩ := countUp_releases hp hrun hsem ht hs
  have hcount : int32 ((k.semtab sem).scount + 1) = c.count + 1 := by
    rw [h.count, int32_eq (by omega) hmax]
  refine ⟨?_, he.trans ?_⟩
  · rcases lt_or_ge (k.semtab sem).scount 0 with hc | hc
    · rwa [if_pos hc] at hr
    · rw [if_neg (not_lt.mpr hc)] at hr
      exact hr.of_nil (h.list.trans (c.waiting_eq_nil (h.count ▸ hc))) 1
  · simp only [Kernel.setSem, hcount]

/-- **The loop of `signaln`.** -/
theorem Holds.of_signalnLoop (h : Holds k sem c) (hd : Deferred strict k) (hsem : ¬ isbadsem sem)
    {n : Nat} (hmax : c.count + n ≤ maxCount) (hs : signalnLoop sem n k = some k') :
    Releases (k.semtab sem).squeue n k k' ∧
      k'.semtab = (k.setSem sem fun s => { s with scount := c.count + n }).semtab := by
  induction n generalizing k c with
  | zero =>
    rw [← Option.some.inj hs]
    refine ⟨.of_same rfl rfl fun _ => rfl, ?_⟩
    simp only [Kernel.setSem, Nat.cast_zero, add_zero, ← h.count, Function.update_eq_self]
  | succ n ih =>
    push_cast at hmax
    obtain ⟨k₁, h1, hs⟩ := Option.bind_eq_some_iff.mp hs
    obtain ⟨hd₁, hq₁⟩ := signalOnce_deferred hd hsem h1
    obtain ⟨qs, hp⟩ := hd.placed
    rw [signalOnce_eq] at h1
    obtain ⟨hr₁, he₁⟩ := h.round hp hd.running hsem (by omega) (dequeue_takes (hp.squeue hsem).1) h1
    obtain ⟨hr₂, he₂⟩ := ih (h.released (n := 1) hr₁ he₁) hd₁ (by
      show c.count + 1 + n ≤ maxCount
      omega) hs
    rw [hq₁.ids.2.2 sem] at hr₂
    refine ⟨Nat.add_comm 1 n ▸ hr₁.trans hr₂, he₂.trans ?_⟩
    have hc : c.count + 1 + n = c.count + (n + 1) := by omega
    simp only [Kernel.setSem, he₁, Counter.signal, Function.update_self, Function.update_idem,
      Nat.cast_add, Nat.cast_one, hc]

/-- **The loop of `semdelete`** releases everybody. -/
theorem Holds.of_semdeleteLoop (h : Holds k sem c) (hd : Deferred strict k) (hsem : ¬ isbadsem sem)
    {fuel : Nat} (hs : semdeleteLoop sem fuel k = some k') :
    Releases (k.semtab sem).squeue c.waiting.length k k' ∧
      ∃ v, k'.semtab = (k.setSem sem fun s => { s with scount := v }).semtab := by
  induction fuel generalizing k c with
  | zero => simp [semdeleteLoop] at hs
  | succ fuel ih =>
    rw [semdeleteLoop_succ] at hs
    rw [h.count] at hs
    split_ifs at hs with hc
    · obtain ⟨k₁, h1, hs⟩ := Option.bind_eq_some_iff.mp hs
      obtain ⟨qs, hp⟩ := hd.placed
      have ht := getfirst_takes (hp.squeue hsem).1
      obtain ⟨hd₁, hq₁⟩ := countUp_deferred hd hsem ht h1
      obtain ⟨hr₁, he₁⟩ := h.round hp hd.running hsem (by simp only [maxCount]; omega) ht h1
      obtain ⟨hr₂, v, he₂⟩ := ih (h.released (n := 1) hr₁ he₁) hd₁ hs
      rw [hq₁.ids.2.2 sem] at hr₂
      have hlen : 1 + (c.signal 1).waiting.length = c.waiting.length := by
        have := List.length_pos_iff.mpr (c.waiting_ne_nil.mpr hc)
        simp only [Counter.signal, List.length_drop]
        omega
      refine ⟨hlen ▸ hr₁.trans hr₂, v, he₂.trans ?_⟩
      simp only [Kernel.setSem, he₁, Function.update_self, Function.update_idem]
    · rw [c.waiting_eq_nil (not_lt.mp hc), ← Option.some.inj hs]
      exact ⟨.of_same rfl rfl fun _ => rfl, _, rfl⟩

/-! ## 2. The calls

One lemma for each call, on the semaphore the call is about.  `semreset` stands apart: it releases
everybody and then writes the count, whatever it was. -/

/-- **`wait`** counts down, and the caller waits when the count was not positive. -/
theorem Holds.of_wait (h : Holds k sem c) (hset : Settled strict k) (hcur : k.currpid ≠ NULLPROC)
    (hsem : ¬ isbadsem sem) (hused : (k.semtab sem).sstate = .used) (hmax : c.count ≤ maxCount)
    {r : Kernel × Int} (hs : wait sem k = some r) : Holds r.1 sem (c.wait k.currpid) ∧
      r.1.semtab = (k.setSem sem fun s => { s with scount := c.count - 1 }).semtab := by
  obtain ⟨qs, hp⟩ := hset.placed
  have hlow := h.low hp hsem
  have hfree : ¬ (k.semtab sem).sstate = .free := by rw [hused]; simp
  have hcount : int32 ((k.semtab sem).scount - 1) = c.count - 1 := by
    rw [h.count]
    simp only [maxCount] at hmax
    exact int32_eq (by omega) (by omega)
  simp only [wait, hsem, hfree, if_false] at hs
  have he : k.setSem sem (fun s => { s with scount := int32 (s.scount - 1) }) =
      k.setSem sem fun s => { s with scount := c.count - 1 } := by
    simp only [Kernel.setSem, hcount]
  rw [he] at hs
  have hset₁ : Settled strict (k.setSem sem fun s => { s with scount := c.count - 1 }) :=
    hset.congr (SameTables.setSem k sem fun _ => rfl) rfl
  have he₁ : (k.setSem sem fun s => { s with scount := c.count - 1 }).semtab sem =
      { k.semtab sem with scount := c.count - 1 } := Function.update_self ..
  have hw₁ : waitList (k.setSem sem fun s => { s with scount := c.count - 1 }) sem = c.waiting := by
    rw [waitList, he₁, ← h.list]
    rfl
  simp only [he₁] at hs
  split_ifs at hs with hneg
  · -- the caller waits behind the others
    obtain ⟨k₂, h2, hs⟩ := Option.bind_eq_some_iff.mp hs
    obtain ⟨hw₂, he₂, -⟩ := waitOn_spec hset₁ hcur hsem h2
    rw [← Option.some.inj hs]
    refine ⟨⟨by rw [he₂, he₁]; rfl, ?_⟩, he₂⟩
    rw [hw₂, hw₁, Counter.wait_blocks (by omega)]
    rfl
  · rw [← Option.some.inj hs]
    refine ⟨⟨by rw [he₁]; rfl, ?_⟩, rfl⟩
    rw [hw₁, Counter.wait_passes (by omega)]

/-- **`signal`.** -/
theorem Holds.of_signal (h : Holds k sem c) (hset : Settled strict k) (hsem : ¬ isbadsem sem)
    (hused : (k.semtab sem).sstate = .used) (hmax : c.count + 1 ≤ maxCount) {r : Kernel × Int}
    (hs : signal sem k = some r) : Releases (k.semtab sem).squeue 1 k r.1 ∧
      r.1.semtab = (k.setSem sem fun s => { s with scount := c.count + (1 : Nat) }).semtab := by
  obtain ⟨qs, hp⟩ := hset.placed
  have hfree : ¬ (k.semtab sem).sstate = .free := by rw [hused]; simp
  simp only [signal, hsem, hfree, if_false] at hs
  obtain ⟨k₁, h1, hs⟩ := Option.bind_eq_some_iff.mp hs
  rw [← Option.some.inj hs]
  rw [signalOnce_eq] at h1
  exact h.round hp hset.running hsem hmax (dequeue_takes (hp.squeue hsem).1) h1

/-- **`signaln`.** -/
theorem Holds.of_signaln (h : Holds k sem c) (hset : Settled strict k) (hsem : ¬ isbadsem sem)
    (hused : (k.semtab sem).sstate = .used) {count : Int} (hpos : 0 ≤ count)
    (hmax : c.count + count ≤ maxCount) {r : Kernel × Int} (hs : signaln sem count k = some r) :
    Releases (k.semtab sem).squeue count.toNat k r.1 ∧
      r.1.semtab = (k.setSem sem fun s => { s with scount := c.count + count.toNat }).semtab := by
  obtain ⟨qs, hp⟩ := hset.placed
  obtain ⟨hisq, hnr⟩ := hp.squeue hsem
  have hfree : ¬ (k.semtab sem).sstate = .free := by rw [hused]; simp
  have hneg : ¬ (isbadsem sem ∨ count < 0) := by
    rintro (h1 | h1)
    exacts [hsem h1, absurd h1 (by omega)]
  simp only [signaln, hneg, hfree, if_false] at hs
  have hloop := deferred_releases (P := fun n t => n = count.toNat ∧ t = (k.setSem sem fun s =>
    { s with scount := c.count + count.toNat }).semtab) hset hisq hnr ?_ hs
  · obtain ⟨_, hr, rfl, he⟩ := hloop
    exact ⟨hr, he⟩
  intro k₁ k₂ hq₁ hs₁ hd₁ hl
  have hc₁ : Holds k₁ sem c :=
    ⟨by rw [hs₁]; exact h.count, by rw [waitList, hq₁.queuetab, hs₁]; exact h.list⟩
  obtain ⟨hr₂, he₂⟩ := hc₁.of_signalnLoop hd₁ hsem (by omega) hl
  rw [hs₁] at hr₂
  refine ⟨(signalnLoop_deferred hsem hd₁ hl).1, _, hr₂, rfl, he₂.trans ?_⟩
  simp only [Kernel.setSem, hs₁]

/-- **`semdelete`** releases everybody and frees the semaphore. -/
theorem Holds.of_semdelete (h : Holds k sem c) (hset : Settled strict k) (hsem : ¬ isbadsem sem)
    (hused : (k.semtab sem).sstate = .used) {r : Kernel × Int} (hs : semdelete sem k = some r) :
    Releases (k.semtab sem).squeue c.waiting.length k r.1 ∧
      ∃ v, r.1.semtab = (k.setSem sem fun s => { s with sstate := .free, scount := v }).semtab := by
  have hfree : ¬ (k.semtab sem).sstate = .free := by rw [hused]; simp
  simp only [semdelete, hsem, hfree, if_false] at hs
  have hset₁ : Settled strict (k.setSem sem fun s => { s with sstate := .free }) :=
    hset.congr (SameTables.setSem k sem fun _ => rfl) rfl
  have he : (k.setSem sem fun s => { s with sstate := .free }).semtab sem =
      { k.semtab sem with sstate := .free } := Function.update_self ..
  have h₁ : Holds (k.setSem sem fun s => { s with sstate := .free }) sem c :=
    ⟨by rw [he]; exact h.count, by rw [waitList, he]; exact h.list⟩
  have hr₁ : Releases (k.semtab sem).squeue 0 k (k.setSem sem fun s =>
    { s with sstate := .free }) :=
    .of_same rfl rfl fun _ => rfl
  obtain ⟨qs, hp⟩ := hset₁.placed
  obtain ⟨hisq, hnr⟩ := hp.squeue hsem
  have hall := deferred_releases (P := fun n t => n = c.waiting.length ∧ ∃ v, t = (k.setSem sem
    fun s => { s with sstate := .free, scount := v }).semtab) hset₁ hisq hnr ?_ hs
  · rw [he] at hall
    obtain ⟨_, hr, rfl, hv⟩ := hall
    exact ⟨Nat.zero_add c.waiting.length ▸ hr₁.trans hr, hv⟩
  · intro k₁ k₂ hq₁ hs₁ hd₁ hl
    have hc₁ : Holds k₁ sem c :=
      ⟨by rw [hs₁]; exact h₁.count, by rw [waitList, hq₁.queuetab, hs₁]; exact h₁.list⟩
    obtain ⟨hr₂, v, he₂⟩ := hc₁.of_semdeleteLoop hd₁ hsem hl
    rw [hs₁] at hr₂
    refine ⟨(semdeleteLoop_deferred hsem hd₁ hl).1, _, hr₂, rfl, v, he₂.trans ?_⟩
    simp only [Kernel.setSem, hs₁, Function.update_self, Function.update_idem]

/-- **`semreset`** releases everybody and sets the count. -/
theorem semreset_releases (hset : Settled strict k) (hsem : ¬ isbadsem sem)
    (hused : (k.semtab sem).sstate = .used) {count : Int} (hpos : 0 ≤ count) {r : Kernel × Int}
    (hs : semreset sem count k = some r) :
    Releases (k.semtab sem).squeue (waitList k sem).length k r.1 ∧
      r.1.semtab = (k.setSem sem fun s => { s with scount := count }).semtab := by
  obtain ⟨qs, hp⟩ := hset.placed
  obtain ⟨hisq, hnr⟩ := hp.squeue hsem
  have hgood : ¬ (count < 0 ∨ isbadsem sem ∨ (k.semtab sem).sstate = .free) := by
    rintro (h1 | h1 | h1)
    · omega
    · exact hsem h1
    · rw [hused] at h1
      simp at h1
  simp only [semreset, hgood, if_false] at hs
  have hall := deferred_releases (P := fun n t => n = (waitList k sem).length ∧
    t = (k.setSem sem fun s => { s with scount := count }).semtab)
    (f := fun k => do
      let k ← semresetLoop (k.semtab sem).squeue NQENT.toNat k
      return k.setSem sem fun s => { s with scount := count }) hset hisq hnr ?_ ?_ (r := r)
  · obtain ⟨_, hr, rfl, he⟩ := hall
    exact ⟨hr, he⟩
  · intro k₁ k₂ hq₁ hs₁ hd₁ hl
    obtain ⟨k₃, h3, hl⟩ := Option.bind_eq_some_iff.mp hl
    obtain ⟨hr₃, he₃⟩ := semresetLoop_releases hd₁ hsem h3
    obtain ⟨hd₃, -⟩ := semresetLoop_deferred hsem hd₁ rfl h3
    rw [← Option.some.inj hl]
    have hw : waitList k₁ sem = waitList k sem := by rw [waitList, hs₁, hq₁.queuetab]; rfl
    rw [hs₁, hw] at hr₃
    refine ⟨hd₃.congr (SameTables.setSem k₃ sem fun _ => rfl) rfl, _, hr₃.trans
      (n := 0) (.of_same rfl rfl fun _ => rfl), rfl, ?_⟩
    simp only [Kernel.setSem, he₃, hs₁]
  · simpa only [Option.bind_eq_bind, Option.bind_assoc, Option.pure_def,
      Option.bind_some] using hs

/-! ## 3. The table of semaphores

What is needed of the other entries: each semaphore has a queue of its own, so that a call about
one leaves the others alone, and only `semcreate` moves `nextsem`, from where its search for a
free entry starts.  `kill` gives back the count of a semaphore its victim waits for, and
`semcreate` makes a free entry one in use. -/

/-- Each semaphore has its own queue, and the search for a free one starts inside the table. -/
structure SemIds (k : Kernel) : Prop where
  queue : ∀ s, ¬ isbadsem s → (k.semtab s).squeue = NPROC + 2 * s
  next : 0 ≤ k.nextsem ∧ k.nextsem < NSEM

theorem SemIds.ne (h : SemIds k) {s t : Int} (hs : ¬ isbadsem s) (ht : ¬ isbadsem t) (hne : s ≠ t) :
    (k.semtab s).squeue ≠ (k.semtab t).squeue := by
  rw [h.queue s hs, h.queue t ht]
  omega

theorem SemIds.congr (h : SemIds k) (hq : ∀ s, (k'.semtab s).squeue = (k.semtab s).squeue)
    (hn : k'.nextsem = k.nextsem) : SemIds k' :=
  ⟨fun s hs => (hq s).trans (h.queue s hs), by rw [hn]; exact h.next⟩

theorem countUp_nextsem {take : QTab → QTab × Int} (hs : countUp take sem k = some k') :
    k'.nextsem = k.nextsem := by
  unfold countUp at hs
  dsimp only at hs
  split_ifs at hs with hc
  · obtain ⟨r, hr, rfl⟩ := Option.map_eq_some_iff.mp hs
    exact (ready_only hr).nextsem
  · rw [← Option.some.inj hs]
    rfl

theorem signalnLoop_nextsem {n : Nat} (hs : signalnLoop sem n k = some k') :
    k'.nextsem = k.nextsem := by
  induction n generalizing k with
  | zero => rw [← Option.some.inj hs]
  | succ n ih =>
    obtain ⟨k₁, h1, hs⟩ := Option.bind_eq_some_iff.mp hs
    rw [signalOnce_eq] at h1
    exact (ih hs).trans (countUp_nextsem h1)

theorem semdeleteLoop_nextsem {fuel : Nat} (hs : semdeleteLoop sem fuel k = some k') :
    k'.nextsem = k.nextsem := by
  induction fuel generalizing k with
  | zero => simp [semdeleteLoop] at hs
  | succ fuel ih =>
    rw [semdeleteLoop_succ] at hs
    split_ifs at hs with hc
    · obtain ⟨k₁, h1, hs⟩ := Option.bind_eq_some_iff.mp hs
      exact (ih hs).trans (countUp_nextsem h1)
    · rw [← Option.some.inj hs]
      rfl

theorem semresetLoop_nextsem {fuel : Nat} (hs : semresetLoop q fuel k = some k') :
    k'.nextsem = k.nextsem := by
  induction fuel generalizing k with
  | zero => simp [semresetLoop] at hs
  | succ fuel ih =>
    rw [semresetLoop] at hs
    obtain ⟨t, pid⟩ := getfirst q k.queuetab
    dsimp only at hs
    split_ifs at hs with hc
    · obtain ⟨x, h1, hs⟩ := Option.bind_eq_some_iff.mp hs
      exact (ih hs).trans (ready_only h1).nextsem
    · rw [← Option.some.inj hs]
      rfl

/-- A routine between `DEFER_START` and `DEFER_STOP`. -/
theorem deferred_nextsem {f : Kernel → Option Kernel}
    (hf : ∀ k₁ k₂, f k₁ = some k₂ → k₂.nextsem = k₁.nextsem) {r : Kernel × Int}
    (hs : (do
      let (k, _) ← reschedCntl DEFER_START k
      let k ← f k
      let (k, _) ← reschedCntl DEFER_STOP k
      return (k, OK)) = some r) : r.1.nextsem = k.nextsem := by
  obtain ⟨x, h1, hs⟩ := Option.bind_eq_some_iff.mp hs
  obtain ⟨y, h2, hs⟩ := Option.bind_eq_some_iff.mp hs
  obtain ⟨z, h3, hs⟩ := Option.bind_eq_some_iff.mp hs
  rw [← Option.some.inj hs]
  exact ((reschedCntl_only h3).nextsem.trans (hf _ _ h2)).trans (reschedCntl_only h1).nextsem

theorem enqueue_nextsem (p q : Int) (k : Kernel) : (enqueue p q k).1.nextsem = k.nextsem := by
  unfold enqueue
  split_ifs <;> rfl

theorem killSwitch_ids {pid : Int} {r : Kernel × Cont} (hk : killSwitch pid k = some r) :
    r.1.nextsem = k.nextsem ∧ ∀ s, (r.1.semtab s).squeue = (k.semtab s).squeue := by
  have hsched : ∀ {k'}, SchedOnly k k' →
      k'.nextsem = k.nextsem ∧ ∀ s, (k'.semtab s).squeue = (k.semtab s).squeue :=
    fun h => ⟨h.nextsem, fun s => by rw [h.semtab]⟩
  unfold killSwitch at hk
  split at hk
  · obtain ⟨k₁, h1, hk⟩ := Option.bind_eq_some_iff.mp hk
    rw [← Option.some.inj hk]
    exact hsched ((setState_only k pid .free).trans (resched_only h1))
  · rw [← Option.some.inj hk]
    exact hsched ((unsleep_only pid k).trans (setState_only _ pid .free))
  · rw [← Option.some.inj hk]
    exact hsched ((unsleep_only pid k).trans (setState_only _ pid .free))
  · rw [← Option.some.inj hk]
    have hq := (SameTables.setSem k (k.proctab pid).prsem
      (f := fun s => { s with scount := int32 (s.scount + 1) }) fun _ => rfl).squeue
    exact ⟨rfl, hq⟩
  · rw [← Option.some.inj hk]
    exact ⟨rfl, fun _ => rfl⟩
  · rw [← Option.some.inj hk]
    exact ⟨rfl, fun _ => rfl⟩

/-- The part of `kill` before its `switch` leaves the semaphores alone. -/
theorem kill_prefix_sems {pid : Int} {k₁ k₂ : Kernel} {v₁ v₂ : Int}
    (hs : send (k.proctab pid).prparent pid.toNat { k with prcount := k.prcount - 1 } =
      some (k₁, v₁))
    (hf : k₁.freestk (k₁.proctab pid).prstkbase (k₁.proctab pid).prstklen = some (k₂, v₂)) :
    k₂.sems = k.sems := by
  obtain ⟨x, -, hx⟩ := Option.bind_eq_some_iff.mp hf
  obtain ⟨rfl, -⟩ := Prod.mk.inj (Option.some.inj hx)
  exact (send_sems hs :)

theorem kill_ids {pid : Int} {r : Kernel × Cont} (hk : kill pid k = some r) :
    r.1.nextsem = k.nextsem ∧ ∀ s, (r.1.semtab s).squeue = (k.semtab s).squeue := by
  rcases kill_cases hk with ⟨-, rfl⟩ | ⟨-, -, k₁, v₁, k₂, v₂, hs, hf, hk⟩
  · exact ⟨rfl, fun _ => rfl⟩
  · have hsems := kill_prefix_sems hs hf
    have ht : k₂.semtab = k.semtab := congrArg Prod.fst hsems
    obtain ⟨h1, h2⟩ := killSwitch_ids hk
    exact ⟨h1.trans (congrArg Prod.snd hsems), fun s => by rw [h2, ht]⟩

/-- **Only `semcreate` moves the place where the search starts.** -/
theorem enter_nextsem {c : Call} (h : KernelInv strict k) (hc : ∀ n, c ≠ .semcreate n)
    (hnull : k.currpid = NULLPROC → c.byNull = true) {r : Kernel × Cont}
    (he : c.enter k = some r) : r.1.nextsem = k.nextsem := by
  have of_ret : ∀ {f : Option (Kernel × Int)}, returning f = some r →
      (∀ x, f = some x → x.1.nextsem = k.nextsem) → r.1.nextsem = k.nextsem := by
    intro f hf e
    obtain ⟨x, hx, rfl⟩ := returning_some hf
    exact e x hx
  cases hsem : c.onSems with
  | false => exact congrArg Prod.snd (enter_sems h hsem hnull he)
  | true =>
    cases c with
    | semcreate n => exact absurd rfl (hc n)
    | kill pid => exact (kill_ids he).1
    | userret => exact (kill_ids he).1
    | wait sem =>
      refine of_ret he fun x hx => ?_
      unfold Xinu.wait at hx
      split_ifs at hx
      · rw [← Option.some.inj hx]
      · rw [← Option.some.inj hx]
      · dsimp only at hx
        split_ifs at hx
        · obtain ⟨y, hy, hx⟩ := Option.bind_eq_some_iff.mp hx
          rw [← Option.some.inj hx]
          exact (resched_only hy).nextsem.trans (enqueue_nextsem ..)
        · rw [← Option.some.inj hx]
          rfl
    | signal sem =>
      refine of_ret he fun x hx => ?_
      unfold Xinu.signal at hx
      split_ifs at hx
      · rw [← Option.some.inj hx]
      · rw [← Option.some.inj hx]
      · obtain ⟨y, hy, hx⟩ := Option.bind_eq_some_iff.mp hx
        rw [signalOnce_eq] at hy
        rw [← Option.some.inj hx]
        exact countUp_nextsem hy
    | signaln sem n =>
      refine of_ret he fun x hx => ?_
      unfold Xinu.signaln at hx
      split_ifs at hx
      · rw [← Option.some.inj hx]
      · rw [← Option.some.inj hx]
      · exact deferred_nextsem (fun _ _ => signalnLoop_nextsem) hx
    | semdelete sem =>
      refine of_ret he fun x hx => ?_
      unfold Xinu.semdelete at hx
      split_ifs at hx
      · rw [← Option.some.inj hx]
      · rw [← Option.some.inj hx]
      · exact (deferred_nextsem (fun _ _ => semdeleteLoop_nextsem) hx :)
    | semreset sem n =>
      refine of_ret he fun x hx => ?_
      unfold Xinu.semreset at hx
      split_ifs at hx
      · rw [← Option.some.inj hx]
      · refine deferred_nextsem (f := fun k => do
          let k ← semresetLoop (k.semtab sem).squeue NQENT.toNat k
          return k.setSem sem fun s => { s with scount := n }) (fun k₁ k₂ hl => ?_) ?_
        · obtain ⟨k₃, h3, hl⟩ := Option.bind_eq_some_iff.mp hl
          rw [← Option.some.inj hl]
          exact (semresetLoop_nextsem h3 :)
        · simpa only [Option.bind_eq_bind, Option.bind_assoc, Option.pure_def,
            Option.bind_some] using hx
    | _ => simp [Call.onSems] at hsem

/-- **Killing a waiter** takes it off the queue and gives its count back. -/
theorem Holds.of_killSwitch {pid : Int} (h : Holds k (k.proctab pid).prsem c)
    (hset : Settled strict k) (hgood : ¬ isbadpid k pid) (hw : (k.proctab pid).prstate = .wait)
    {r : Kernel × Cont} (hk : killSwitch pid k = some r) :
    pid ∈ c.waiting ∧ Holds r.1 (k.proctab pid).prsem (c.withdraw pid) ∧
      r.1.semtab = (k.setSem (k.proctab pid).prsem fun s => { s with scount := c.count + 1 }).semtab
      := by
  obtain ⟨qs, hp⟩ := hset.placed
  have hpp := IsProc.of_not_bad hgood
  have hsem := hp.waits pid hpp hw
  obtain ⟨hisq, hnr⟩ := hp.squeue hsem
  obtain ⟨xs, ys, hl, hg⟩ := hp.getitem hpp hisq (home_of_wait hw)
  have hlist := h.list
  rw [hp.waitList_eq hsem, hl] at hlist
  have hmem : pid ∈ c.waiting := by
    rw [← hlist]
    simp
  have hneg := c.waiting_ne_nil.mp (List.ne_nil_of_mem hmem)
  have hlow := h.low hp hsem
  have hcount : int32 ((k.semtab (k.proctab pid).prsem).scount + 1) = c.count + 1 := by
    rw [h.count]
    exact int32_eq (by omega) (by omega)
  have hx : pid ∉ xs := by
    have := hp.linked.nodup _ hisq
    rw [hl, List.nodup_middle, List.nodup_cons] at this
    exact fun hm => this.1 (List.mem_append_left _ hm)
  unfold killSwitch at hk
  rw [hw] at hk
  obtain rfl := Option.some.inj hk
  have he : (k.setSem (k.proctab pid).prsem fun s => { s with scount := int32 (s.scount + 1) }) =
      k.setSem (k.proctab pid).prsem fun s => { s with scount := c.count + 1 } := by
    simp only [Kernel.setSem, hcount]
  have he₁ : (k.setSem (k.proctab pid).prsem fun s => { s with scount := c.count + 1 }).semtab
      (k.proctab pid).prsem = { k.semtab (k.proctab pid).prsem with scount := c.count + 1 } :=
    Function.update_self ..
  dsimp only
  rw [he]
  refine ⟨hmem, ⟨?_, ?_⟩, rfl⟩
  · exact (congrArg Sentry.scount he₁).trans (if_pos hmem).symm
  · refine (congrArg (fun e => QTab.members (getitem pid k.queuetab) (Sentry.squeue e))
      he₁).trans ?_
    refine (hg.linked.members_eq hisq).trans ?_
    have herase : c.waiting.erase pid = xs ++ ys := by
      rw [← hlist, List.erase_append_right _ hx, List.erase_cons_head]
    rw [Function.update_self]
    exact herase.symm

/-- A process waits on the queue of the semaphore in its entry, and on no other. -/
theorem Placed.mem_waitList (h : Placed strict k qs none) (hids : SemIds k) (hsem : ¬ isbadsem sem)
    (hp : IsProc p) : p ∈ waitList k sem ↔
      (k.proctab p).prstate = .wait ∧ (k.proctab p).prsem = sem := by
  obtain ⟨hq, hr⟩ := h.squeue hsem
  rw [h.waitList_eq hsem, h.placed p _ hp hq (by simp)]
  constructor
  · intro hh
    have hw := h.mem_sem hq hr (h.queues.sem sem hsem).2.2
      ((h.placed p _ hp hq (by simp)).mpr hh)
    rw [home_of_wait hw] at hh
    refine ⟨hw, ?_⟩
    by_contra hne
    exact hids.ne (h.waits p hp hw) hsem hne (Option.some.inj hh)
  · rintro ⟨hw, rfl⟩
    exact home_of_wait hw

/-- The search of `newsem` ends with a free semaphore, or finds none. -/
theorem newsemLoop_spec (fuel : Nat) (h : 0 ≤ k.nextsem ∧ k.nextsem < NSEM) :
    (0 ≤ (newsemLoop fuel k).1.nextsem ∧ (newsemLoop fuel k).1.nextsem < NSEM) ∧
      ((newsemLoop fuel k).2 = SYSERR ∧ (newsemLoop fuel k).1.semtab = k.semtab ∨
        ¬ isbadsem (newsemLoop fuel k).2 ∧ (k.semtab (newsemLoop fuel k).2).sstate = .free ∧
        (newsemLoop fuel k).1.semtab =
          (k.setSem (newsemLoop fuel k).2 fun s => { s with sstate := .used }).semtab) := by
  induction fuel generalizing k with
  | zero => exact ⟨h, Or.inl ⟨rfl, rfl⟩⟩
  | succ fuel ih =>
    have hnext : 0 ≤ (if k.nextsem + 1 ≥ NSEM then 0 else k.nextsem + 1) ∧
        (if k.nextsem + 1 ≥ NSEM then 0 else k.nextsem + 1) < NSEM := by
      split_ifs
      · decide
      · omega
    have hgood : ¬ isbadsem k.nextsem := by
      simp only [isbadsem]
      omega
    unfold newsemLoop
    dsimp only
    split
    · exact ⟨hnext, Or.inr ⟨hgood, ‹_›, rfl⟩⟩
    · exact ih hnext

/-- **`semcreate`** makes a free semaphore with nobody waiting one in use. -/
theorem semcreate_spec (h : 0 ≤ k.nextsem ∧ k.nextsem < NSEM) (count : Int) :
    (0 ≤ (semcreate count k).1.nextsem ∧ (semcreate count k).1.nextsem < NSEM) ∧
      ((semcreate count k).2 = SYSERR ∧ (semcreate count k).1.semtab = k.semtab ∨
        0 ≤ count ∧ ¬ isbadsem (semcreate count k).2 ∧
        (k.semtab (semcreate count k).2).sstate = .free ∧ (semcreate count k).1.semtab =
          (k.setSem (semcreate count k).2 fun s =>
            { s with sstate := .used, scount := count }).semtab)
      := by
  obtain ⟨h1, h2⟩ := newsemLoop_spec NSEM.toNat h
  unfold semcreate
  split_ifs with hneg
  · exact ⟨h, Or.inl ⟨rfl, rfl⟩⟩
  change (0 ≤ (newsem k).1.nextsem ∧ (newsem k).1.nextsem < NSEM) at h1
  change (newsem k).2 = SYSERR ∧ (newsem k).1.semtab = k.semtab ∨ ¬ isbadsem (newsem k).2 ∧
    (k.semtab (newsem k).2).sstate = .free ∧ (newsem k).1.semtab =
      (k.setSem (newsem k).2 fun s => { s with sstate := .used }).semtab at h2
  generalize newsem k = r at *
  obtain ⟨k₁, sem⟩ := r
  dsimp only at *
  split_ifs with hsys
  · refine ⟨h1, Or.inl ⟨rfl, ?_⟩⟩
    rcases h2 with h2 | h2
    · exact h2.2
    · rw [hsys] at h2
      exact absurd h2.1 (by decide)
  · obtain ⟨h3, h4, h5⟩ := h2.resolve_left fun e => hsys e.1
    refine ⟨h1, Or.inr ⟨by omega, h3, h4, ?_⟩⟩
    simp only [Kernel.setSem, h5, Function.update_self, Function.update_idem]

/-! ## 4. The keeper

The keeper has a counter for every semaphore in use and nothing else.  It is told the call and,
for `semcreate`, the number that was returned; of a call that is refused it is told as well, and
refuses it in the same cases.  `Kept` says that it is right about the whole table. -/

/-- What a semaphore looks like to somebody who hears of it by its number only: unused, or a
counting semaphore. -/
def Shows (k : Kernel) (sem : Int) : Option (Counter Int) → Prop
  | none => (k.semtab sem).sstate = .free ∧ waitList k sem = []
  | some c => (k.semtab sem).sstate = .used ∧ c.count ≤ maxCount ∧ Holds k sem c

/-- The semaphores a keeper knows of. -/
abbrev Store := Int → Option (Counter Int)

/-- An operation on one semaphore. -/
def Store.apply (σ : Store) (sem : Int) (f : Counter Int → Counter Int) : Store :=
  Function.update σ sem ((σ sem).map f)

/-- The keeper hears of a call and, for `semcreate`, of what it returned. -/
def semSee (s : Sys) (e : Event) (t : Sys) (σ : Store) : Store :=
  match e with
  | .call (.wait sem) => σ.apply sem fun c => c.wait s.k.currpid
  | .call (.signal sem) => σ.apply sem fun c => c.signal 1
  | .call (.signaln sem n) => if n < 0 then σ else σ.apply sem fun c => c.signal n.toNat
  | .call (.semreset sem n) => if n < 0 then σ else σ.apply sem fun _ => .create n.toNat
  | .call (.semdelete sem) => Function.update σ sem none
  | .call (.semcreate n) =>
    match t.cont s.k.currpid with
    | .ret sem => if sem = SYSERR then σ else Function.update σ sem (some (.create n.toNat))
    | _ => σ
  | .call (.kill pid) => fun sem => (σ sem).map fun c => c.withdraw pid
  | _ => σ

/-- The processes a call is to release. -/
def released (e : Event) (σ : Store) : List Int :=
  match e with
  | .call (.signal sem) => ((σ sem).map fun c => c.waiting.take 1).getD []
  | .call (.signaln sem n) => ((σ sem).map fun c => c.waiting.take n.toNat).getD []
  | .call (.semreset sem n) => if n < 0 then [] else ((σ sem).map fun c => c.waiting).getD []
  | .call (.semdelete sem) => ((σ sem).map fun c => c.waiting).getD []
  | _ => []

/-- No call pushes a count past the largest one. -/
def InRange (s : Sys) : Event → Prop
  | .call (.signal sem) => ¬ isbadsem sem → (s.k.semtab sem).sstate = .used →
    (s.k.semtab sem).scount + 1 ≤ maxCount
  | .call (.signaln sem n) => ¬ isbadsem sem → (s.k.semtab sem).sstate = .used →
    (s.k.semtab sem).scount + n ≤ maxCount
  | .call (.semcreate n) => n ≤ maxCount
  | .call (.semreset _ n) => n ≤ maxCount
  | _ => True

/-- **The keeper is right**, about every semaphore of the table, and has no others. -/
structure Kept (k : Kernel) (σ : Store) : Prop where
  shows : ∀ sem, ¬ isbadsem sem → Shows k sem (σ sem)
  inTable : ∀ sem, isbadsem sem → σ sem = none

variable {σ : Store} {s s' : Sys}

theorem Shows.congr {o : Option (Counter Int)} (h : Shows k sem o)
    (hs : k'.semtab sem = k.semtab sem)
    (he : k'.queuetab.entries (k.semtab sem).squeue = k.queuetab.entries (k.semtab sem).squeue) :
    Shows k' sem o := by
  have hw : waitList k' sem = waitList k sem := by
    rw [waitList, hs]
    exact members_of_entries he
  cases o with
  | none => exact ⟨by rw [hs]; exact h.1, hw.trans h.2⟩
  | some c =>
    exact ⟨by rw [hs]; exact h.1, h.2.1, by rw [hs]; exact h.2.2.count, hw.trans h.2.2.list⟩

/-- Nothing changes for a semaphore. -/
theorem Kept.same (h : Kept k σ) (hs : k'.semtab = k.semtab)
    (he : ∀ sem, ¬ isbadsem sem →
      k'.queuetab.entries (k.semtab sem).squeue = k.queuetab.entries (k.semtab sem).squeue) :
    Kept k' σ :=
  ⟨fun sem hsem => (h.shows sem hsem).congr (by rw [hs]) (he sem hsem), h.inTable⟩

/-- One semaphore changes, and the queues of the others do not. -/
theorem Kept.update (h : Kept k σ) (hids : SemIds k) (hq : Queues k) {o : Option (Counter Int)}
    (hsem : ¬ isbadsem sem) (hs : ∀ s, s ≠ sem → k'.semtab s = k.semtab s)
    (he : ∀ q, IsQueue q → q ≠ k.readylist → some (k.semtab sem).squeue ≠ some q →
      k'.queuetab.entries q = k.queuetab.entries q) (hnew : Shows k' sem o) :
    Kept k' (Function.update σ sem o) := by
  refine ⟨fun s hgood => ?_, fun s hbad => ?_⟩
  · by_cases hne : s = sem
    · subst hne
      rw [Function.update_self]
      exact hnew
    · rw [Function.update_of_ne hne]
      obtain ⟨h1, h2, -⟩ := hq.sem s hgood
      exact (h.shows s hgood).congr (hs s hne)
        (he _ h1 h2 fun e => hids.ne hsem hgood (Ne.symm hne) (Option.some.inj e))
  · have hne : s ≠ sem := by
      rintro rfl
      exact hsem hbad
    rw [Function.update_of_ne hne]
    exact h.inTable s hbad

/-- What the keeper of a semaphore in use knows. -/
theorem Kept.used (h : Kept k σ) (hsem : ¬ isbadsem sem) (hused : (k.semtab sem).sstate = .used) :
    ∃ c, σ sem = some c ∧ c.count ≤ maxCount ∧ Holds k sem c := by
  have hs := h.shows sem hsem
  cases hc : σ sem with
  | none =>
    rw [hc] at hs
    rw [hs.1] at hused
    simp at hused
  | some c =>
    rw [hc] at hs
    exact ⟨c, rfl, hs.2⟩

/-- The keeper knows of nobody at a semaphore not in use. -/
theorem Kept.unused (h : Kept k σ) (hfree : isbadsem sem ∨ (k.semtab sem).sstate = .free) :
    σ sem = none := by
  by_cases hsem : isbadsem sem
  · exact h.inTable sem hsem
  · have hs := h.shows sem hsem
    cases hc : σ sem with
    | none => rfl
    | some c =>
      rw [hc] at hs
      have := hs.1
      rw [hfree.resolve_left hsem] at this
      simp at this

theorem Store.apply_none (σ : Store) (h : σ sem = none) (f : Counter Int → Counter Int) :
    σ.apply sem f = σ := by
  rw [Store.apply, h, Option.map_none, ← h, Function.update_eq_self]

/-! ## 5. The keeper follows every call

For each call, the keeper that was right before it and applies its own operation is right after
it.  The three calls that release processes share `Follows`: what the kernel did to the entry, the
queue and the processes on it. -/

/-- A semaphore in the table that is not free is in use. -/
theorem used_of_not_free (h : ¬ (k.semtab sem).sstate = .free) : (k.semtab sem).sstate = .used := by
  cases hs : (k.semtab sem).sstate
  · exact absurd hs h
  · rfl

theorem Kept.wait (h : Kept k σ) (hids : SemIds k) (hset : Settled strict k)
    (hcur : k.currpid ≠ NULLPROC) {r : Kernel × Int} (hs : wait sem k = some r) :
    Kept r.1 (σ.apply sem fun c => c.wait k.currpid) := by
  have hf := wait_frame hset hcur hs
  by_cases hbad : isbadsem sem ∨ (k.semtab sem).sstate = .free
  · rw [σ.apply_none (h.unused hbad)]
    unfold Xinu.wait at hs
    rcases hbad with h1 | h1
    · rw [if_pos h1] at hs
      rw [← Option.some.inj hs]
      exact h
    · rw [if_pos h1, ite_self] at hs
      rw [← Option.some.inj hs]
      exact h
  · simp only [not_or] at hbad
    have hused := used_of_not_free hbad.2
    obtain ⟨qs, hp⟩ := hset.placed
    obtain ⟨c, hc, hmax, hh⟩ := h.used hbad.1 hused
    obtain ⟨hh', he⟩ := hh.of_wait hset hcur hbad.1 hused hmax hs
    have hself : r.1.semtab sem = { k.semtab sem with scount := c.count - 1 } := by
      rw [he]
      exact Function.update_self ..
    rw [Store.apply, hc]
    refine h.update hids hp.queues hbad.1 (fun t hne => ?_) hf.entries ⟨?_, ?_, hh'⟩
    · rw [he]
      exact Function.update_of_ne hne _ _
    · rw [hself]
      exact hused
    · show c.count - 1 ≤ maxCount
      omega

/-- A call that releases the first `n` processes and counts them. -/
theorem Kept.signal_of (h : Kept k σ) (hids : SemIds k) (hset : Settled strict k)
    (hsem : ¬ isbadsem sem) (hused : (k.semtab sem).sstate = .used) (hc : σ sem = some c)
    (hh : Holds k sem c) {n : Nat} (hmax : c.count + n ≤ maxCount)
    (hr : Releases (k.semtab sem).squeue n k k')
    (he : k'.semtab = (k.setSem sem fun s => { s with scount := c.count + n }).semtab) :
    Kept k' (σ.apply sem fun c => c.signal n) := by
  obtain ⟨qs, hp⟩ := hset.placed
  rw [Store.apply, hc]
  refine h.update hids hp.queues hsem (fun t hne => ?_) hr.frame.entries
    ⟨?_, hmax, hh.released hr he⟩
  · rw [he]
    exact Function.update_of_ne hne _ _
  · have hself : k'.semtab sem = { k.semtab sem with scount := c.count + n } := by
      rw [he]
      exact Function.update_self ..
    rw [hself]
    exact hused

/-- What the keeper has to know of a call that releases processes. -/
structure Follows (k k' : Kernel) (σ σ' : Store) (ps : List Int) : Prop where
  kept : Kept k' σ'
  active : ∀ p ∈ ps, Active k' p

theorem Follows.refused (h : Kept k σ) (hfree : isbadsem sem ∨ (k.semtab sem).sstate = .free)
    (f : Counter Int → Counter Int) (g : Counter Int → List Int) :
    Follows k k σ (σ.apply sem f) (((σ sem).map g).getD []) := by
  rw [σ.apply_none (h.unused hfree), h.unused hfree]
  exact ⟨h, by simp⟩

theorem Kept.signal (h : Kept k σ) (hids : SemIds k) (hset : Settled strict k)
    (hmax : ¬ isbadsem sem → (k.semtab sem).sstate = .used → (k.semtab sem).scount + 1 ≤ maxCount)
    {r : Kernel × Int} (hs : signal sem k = some r) : Follows k r.1 σ
      (σ.apply sem fun c => c.signal 1) (((σ sem).map fun c => c.waiting.take 1).getD []) := by
  by_cases hbad : isbadsem sem ∨ (k.semtab sem).sstate = .free
  · have hr : r.1 = k := by
      unfold Xinu.signal at hs
      rcases hbad with h1 | h1
      · rw [if_pos h1] at hs
        rw [← Option.some.inj hs]
      · rw [if_pos h1, ite_self] at hs
        rw [← Option.some.inj hs]
    rw [hr]
    exact .refused h hbad _ _
  · simp only [not_or] at hbad
    have hused := used_of_not_free hbad.2
    obtain ⟨c, hc, -, hh⟩ := h.used hbad.1 hused
    have hm := hmax hbad.1 hused
    rw [hh.count] at hm
    obtain ⟨hr, he⟩ := hh.of_signal hset hbad.1 hused hm hs
    refine ⟨h.signal_of hids hset hbad.1 hused hc hh hm hr he, ?_⟩
    rw [hc, Option.map_some, Option.getD_some, ← hh.list]
    exact hr.active

theorem Kept.signaln (h : Kept k σ) (hids : SemIds k) (hset : Settled strict k) {n : Int}
    (hmax : ¬ isbadsem sem → (k.semtab sem).sstate = .used → (k.semtab sem).scount + n ≤ maxCount)
    {r : Kernel × Int} (hs : signaln sem n k = some r) :
    Follows k r.1 σ (if n < 0 then σ else σ.apply sem fun c => c.signal n.toNat)
      (((σ sem).map fun c => c.waiting.take n.toNat).getD []) := by
  by_cases hneg : n < 0
  · have hr : r.1 = k := by
      rw [Xinu.signaln, if_pos (Or.inr hneg)] at hs
      rw [← Option.some.inj hs]
    rw [hr, if_pos hneg]
    refine ⟨h, ?_⟩
    have hn : n.toNat = 0 := by omega
    cases σ sem <;> simp [hn]
  rw [if_neg hneg]
  by_cases hbad : isbadsem sem ∨ (k.semtab sem).sstate = .free
  · have hr : r.1 = k := by
      unfold Xinu.signaln at hs
      rcases hbad with h1 | h1
      · rw [if_pos (Or.inl h1)] at hs
        rw [← Option.some.inj hs]
      · rw [if_pos h1, ite_self] at hs
        rw [← Option.some.inj hs]
    rw [hr]
    exact .refused h hbad _ _
  · simp only [not_or] at hbad
    have hused := used_of_not_free hbad.2
    obtain ⟨c, hc, -, hh⟩ := h.used hbad.1 hused
    have hm := hmax hbad.1 hused
    rw [hh.count] at hm
    obtain ⟨hr, he⟩ := hh.of_signaln hset hbad.1 hused (by omega) hm hs
    refine ⟨h.signal_of hids hset hbad.1 hused hc hh (by omega) hr he, ?_⟩
    rw [hc, Option.map_some, Option.getD_some, ← hh.list]
    exact hr.active

theorem Kept.semdelete (h : Kept k σ) (hids : SemIds k) (hset : Settled strict k)
    {r : Kernel × Int} (hs : semdelete sem k = some r) : Follows k r.1 σ
      (Function.update σ sem none) (((σ sem).map fun c => c.waiting).getD []) := by
  by_cases hbad : isbadsem sem ∨ (k.semtab sem).sstate = .free
  · have hr : r.1 = k := by
      unfold Xinu.semdelete at hs
      rcases hbad with h1 | h1
      · rw [if_pos h1] at hs
        rw [← Option.some.inj hs]
      · rw [if_pos h1, ite_self] at hs
        rw [← Option.some.inj hs]
    rw [hr, ← h.unused hbad, Function.update_eq_self, h.unused hbad]
    exact ⟨h, by simp⟩
  · simp only [not_or] at hbad
    have hused := used_of_not_free hbad.2
    obtain ⟨qs, hp⟩ := hset.placed
    obtain ⟨c, hc, -, hh⟩ := h.used hbad.1 hused
    obtain ⟨hr, v, he⟩ := hh.of_semdelete hset hbad.1 hused hs
    have hself : r.1.semtab sem = { k.semtab sem with sstate := .free, scount := v } := by
      rw [he]
      exact Function.update_self ..
    have hlist : k.queuetab.members (k.semtab sem).squeue = c.waiting := hh.list
    refine ⟨h.update hids hp.queues hbad.1 (fun t hne => ?_) hr.frame.entries ⟨?_, ?_⟩, ?_⟩
    · rw [he]
      exact Function.update_of_ne hne _ _
    · rw [hself]
    · rw [waitList, hself]
      exact hr.members.trans (by rw [hlist]; exact List.drop_length)
    · rw [hc, Option.map_some, Option.getD_some]
      have ha := hr.active
      rw [hlist, List.take_length] at ha
      exact ha

theorem Kept.semreset (h : Kept k σ) (hids : SemIds k) (hset : Settled strict k) {n : Int}
    (hmax : n ≤ maxCount) {r : Kernel × Int} (hs : semreset sem n k = some r) :
    Follows k r.1 σ (if n < 0 then σ else σ.apply sem fun _ => .create n.toNat)
      (if n < 0 then [] else ((σ sem).map fun c => c.waiting).getD []) := by
  by_cases hneg : n < 0
  · rw [Xinu.semreset, if_pos (Or.inl hneg)] at hs
    rw [if_pos hneg, if_pos hneg, ← Option.some.inj hs]
    exact ⟨h, by simp⟩
  rw [if_neg hneg, if_neg hneg]
  by_cases hbad : isbadsem sem ∨ (k.semtab sem).sstate = .free
  · rw [Xinu.semreset, if_pos (Or.inr hbad)] at hs
    rw [← Option.some.inj hs]
    exact .refused h hbad _ _
  · simp only [not_or] at hbad
    have hused := used_of_not_free hbad.2
    obtain ⟨qs, hp⟩ := hset.placed
    obtain ⟨c, hc, -, hh⟩ := h.used hbad.1 hused
    obtain ⟨hr, he⟩ := semreset_releases hset hbad.1 hused (not_lt.mp hneg) hs
    have hself : r.1.semtab sem = { k.semtab sem with scount := n } := by
      rw [he]
      exact Function.update_self ..
    rw [Store.apply, hc]
    refine ⟨h.update hids hp.queues hbad.1 (fun t hne => ?_) hr.frame.entries
      ⟨?_, ?_, ?_, ?_⟩, ?_⟩
    · rw [he]
      exact Function.update_of_ne hne _ _
    · rw [hself]
      exact hused
    · show (n.toNat : Int) ≤ maxCount
      omega
    · rw [hself]
      exact (Int.toNat_of_nonneg (not_lt.mp hneg)).symm
    · rw [waitList, hself]
      exact hr.members.trans List.drop_length
    · rw [Option.map_some, Option.getD_some, ← hh.list]
      have ha := hr.active
      rw [waitList, List.take_length] at ha
      exact ha

theorem Kept.semcreate (h : Kept k σ) (hids : SemIds k) (hset : Settled strict k) {n : Int}
    (hmax : n ≤ maxCount) : Kept (semcreate n k).1
      (if (semcreate n k).2 = SYSERR then σ
        else Function.update σ (semcreate n k).2 (some (.create n.toNat))) := by
  obtain ⟨qs, hp⟩ := hset.placed
  have hf := semcreate_frame n k
  obtain ⟨-, ⟨h1, h2⟩ | ⟨h1, h2, h3, h4⟩⟩ := semcreate_spec hids.next n
  · rw [if_pos h1]
    refine h.same h2 fun s hs => ?_
    obtain ⟨h3, h4, -⟩ := hp.queues.sem s hs
    exact hf.entries _ h3 h4 (by simp)
  · generalize (Xinu.semcreate n k).2 = sem at *
    generalize (Xinu.semcreate n k).1 = k' at *
    have hne : sem ≠ SYSERR := by
      rintro rfl
      exact h2 (by decide)
    rw [if_neg hne]
    have hself : k'.semtab sem = { k.semtab sem with sstate := .used, scount := n } := by
      rw [h4]
      exact Function.update_self ..
    have hw : waitList k sem = [] := by
      have hs := h.shows sem h2
      rw [h.unused (Or.inr h3)] at hs
      exact hs.2
    obtain ⟨h5, h6, -⟩ := hp.queues.sem sem h2
    refine h.update hids hp.queues h2 (fun t hne => ?_)
      (fun q hq hr _ => hf.entries q hq hr (by simp))
      ⟨?_, ?_, ?_, ?_⟩
    · rw [h4]
      exact Function.update_of_ne hne _ _
    · rw [hself]
    · show (n.toNat : Int) ≤ maxCount
      omega
    · rw [hself]
      exact (Int.toNat_of_nonneg h1).symm
    · rw [waitList, hself]
      exact (members_of_entries (hf.entries _ h5 h6 (by simp))).trans hw

/-- Those the keeper sees waiting are waiting. -/
theorem Kept.waits (h : Kept k σ) (hids : SemIds k) (hset : Settled strict k) (hc : σ sem = some c)
    (hm : p ∈ c.waiting) :
      IsProc p ∧ (k.proctab p).prstate = .wait ∧ (k.proctab p).prsem = sem := by
  have hsem : ¬ isbadsem sem := by
    intro hbad
    rw [h.inTable sem hbad] at hc
    simp at hc
  obtain ⟨qs, hp⟩ := hset.placed
  have hs := h.shows sem hsem
  rw [hc] at hs
  rw [← hs.2.2.list] at hm
  have hpp : IsProc p := by
    rw [hp.waitList_eq hsem] at hm
    exact hp.linked.procs _ (hp.squeue hsem).1 p hm
  exact ⟨hpp, (hp.mem_waitList hids hsem hpp).mp hm⟩

/-- Nobody gives up who is not waiting. -/
theorem Kept.withdraw_idle (h : Kept k σ) (hids : SemIds k) (hset : Settled strict k)
    (hw : (k.proctab p).prstate ≠ .wait ∨ ¬ IsProc p) :
    (fun sem => (σ sem).map fun c => c.withdraw p) = σ := by
  funext sem
  cases hc : σ sem with
  | none => rfl
  | some c =>
    rw [Option.map_some, Counter.withdraw_of_notMem]
    intro hm
    obtain ⟨h1, h2, -⟩ := h.waits hids hset hc hm
    exact hw.elim (fun e => e h2) fun e => e h1

theorem Kept.killSwitch (h : Kept k σ) (hids : SemIds k) (hset : Settled strict k) {pid : Int}
    (hgood : ¬ isbadpid k pid) (hnull : pid ≠ NULLPROC) {r : Kernel × Cont}
    (hk : killSwitch pid k = some r) :
    Kept r.1 fun sem => (σ sem).map fun c => c.withdraw pid := by
  obtain ⟨qs, hp⟩ := hset.placed
  have hpp := IsProc.of_not_bad hgood
  have hf := killSwitch_frame hset hgood hnull hk
  by_cases hw : (k.proctab pid).prstate = .wait
  · -- the victim leaves its semaphore, and is on no other
    have hsem := hp.waits pid hpp hw
    have hused : (k.semtab (k.proctab pid).prsem).sstate = .used := by
      refine used_of_not_free fun hfree => ?_
      have hs := h.shows _ hsem
      rw [h.unused (Or.inr hfree)] at hs
      have hm := (hp.mem_waitList hids hsem hpp).mpr ⟨hw, rfl⟩
      rw [hs.2] at hm
      simp at hm
    obtain ⟨c, hc, hmax, hh⟩ := h.used hsem hused
    obtain ⟨hmem, hh', he⟩ := hh.of_killSwitch hset hgood hw hk
    have hσ : (fun sem => (σ sem).map fun c => c.withdraw pid) =
        Function.update σ (k.proctab pid).prsem (some (c.withdraw pid)) := by
      funext sem
      by_cases hne : sem = (k.proctab pid).prsem
      · rw [hne, Function.update_self, hc, Option.map_some]
      · rw [Function.update_of_ne hne]
        cases hd : σ sem with
        | none => rfl
        | some d =>
          rw [Option.map_some, Counter.withdraw_of_notMem]
          exact fun hm => hne (h.waits hids hset hd hm).2.2.symm
    have hself : r.1.semtab (k.proctab pid).prsem =
        { k.semtab (k.proctab pid).prsem with scount := c.count + 1 } := by
      rw [he]
      exact Function.update_self ..
    have hneg := c.waiting_ne_nil.mp (List.ne_nil_of_mem hmem)
    rw [home_of_wait hw] at hf
    rw [hσ]
    refine h.update hids hp.queues hsem (fun t hne => ?_) hf.entries ⟨?_, ?_, hh'⟩
    · rw [he]
      exact Function.update_of_ne hne _ _
    · rw [hself]
      exact hused
    · show (if pid ∈ c.waiting then c.count + 1 else c.count) ≤ maxCount
      simp only [maxCount]
      rw [if_pos hmem]
      omega
  · rw [h.withdraw_idle hids hset (Or.inl hw)]
    have hs : r.1.semtab = k.semtab := by
      unfold Xinu.killSwitch at hk
      split at hk
      · obtain ⟨k₁, h1, hk⟩ := Option.bind_eq_some_iff.mp hk
        rw [← Option.some.inj hk]
        exact (resched_only h1).semtab
      · rw [← Option.some.inj hk]
        exact (unsleep_only pid k).semtab
      · rw [← Option.some.inj hk]
        exact (unsleep_only pid k).semtab
      · contradiction
      · rw [← Option.some.inj hk]
        rfl
      · rw [← Option.some.inj hk]
        rfl
    refine h.same hs fun sem hsem => ?_
    obtain ⟨h1, h2, h3⟩ := hp.queues.sem sem hsem
    refine hf.entries _ h1 h2 fun e => hw ?_
    exact hp.mem_sem h1 h2 h3 ((hp.placed pid _ hpp h1 (by simp)).mpr e)

theorem Kept.kill (h : Kept k σ) (hids : SemIds k) (hi : KernelInv strict k) {pid : Int}
    {r : Kernel × Cont} (hk : kill pid k = some r) :
    Kept r.1 fun sem => (σ sem).map fun c => c.withdraw pid := by
  rcases kill_cases hk with ⟨hbad, rfl⟩ | ⟨hgood, hnull, k₁, v₁, k₂, v₂, hs, hf, hk⟩
  · obtain ⟨qs, hp⟩ := hi.settled.placed
    rw [h.withdraw_idle hids hi.settled]
    · exact h
    · rcases hbad with (h1 | h1 | h1) | rfl
      · exact Or.inr fun e => absurd e.1 (by omega)
      · exact Or.inr fun e => absurd e.2 (by omega)
      · left
        rw [h1]
        simp
      · left
        rcases hp.null with e | e <;> rw [e] <;> simp
  · obtain ⟨he, -⟩ := kill_prefix hi hgood hnull hs hf hk
    have hb₁ : Bland _ k₁ := send_bland hs
    have hb₂ : Bland k₁ k₂ := freestk_bland hf
    have hset : Settled strict k₂ := hi.settled.congr he
      ((congrArg Defer.ndefers hb₂.defer).trans (congrArg Defer.ndefers hb₁.defer))
    have hgood' : ¬ isbadpid k₂ pid := by simpa only [isbadpid, he.prstate] using hgood
    have hsems := kill_prefix_sems hs hf
    have hk₂ : Kept k₂ σ := h.same (congrArg Prod.fst hsems) fun sem _ => by rw [he.queuetab]
    exact hk₂.killSwitch (hids.congr he.squeue (congrArg Prod.snd hsems)) hset hgood' hnull hk

/-! ## 6. Steps and runs

A step of the system enters a call, finishes one, or is a tick of the clock.  The clock touches no
semaphore, and finishing a call does not either, so the step lemma has to look at entering only. -/

theorem wakeupLoop_sems {fuel : Nat} (hw : wakeupLoop fuel k = some k') : k'.sems = k.sems := by
  induction fuel generalizing k with
  | zero => simp [wakeupLoop] at hw
  | succ fuel ih =>
    rw [wakeupLoop] at hw
    generalize dequeue k.sleepq k.queuetab = g at hw
    obtain ⟨t, pid⟩ := g
    dsimp only at hw
    split_ifs at hw
    · obtain ⟨r, hr, hw⟩ := Option.bind_eq_some_iff.mp hw
      exact (ih hw).trans ((ready_only hr).sems :)
    · rw [← Option.some.inj hw]

theorem wakeup_sems (hw : wakeup k = some k') : k'.sems = k.sems := by
  unfold wakeup at hw
  cases hd : reschedCntl DEFER_START k with
  | none =>
    rw [hd] at hw
    simp at hw
  | some d =>
    rw [hd] at hw
    simp only [Option.bind_eq_bind, Option.bind_some] at hw
    obtain ⟨k₂, h2, hw⟩ := Option.bind_eq_some_iff.mp hw
    obtain ⟨⟨k₃, v⟩, h3, hw⟩ := Option.bind_eq_some_iff.mp hw
    rw [← Option.some.inj hw]
    exact ((reschedCntl_only h3).sems.trans (wakeupLoop_sems h2)).trans (reschedCntl_only hd).sems

theorem clkSleepers_sems (hc : clkSleepers k = some k') : k'.sems = k.sems := by
  unfold clkSleepers at hc
  split_ifs at hc with h1
  · rw [← Option.some.inj hc]
  · simp only at hc
    split_ifs at hc
    · exact (wakeup_sems hc :)
    · rw [← Option.some.inj hc]
      rfl

theorem clkhandler_sems (hc : clkhandler k = some k') : k'.sems = k.sems := by
  have hcount : ∀ a b, ({ k with clktime := a, count1000 := b } : Kernel).sems = k.sems :=
    fun _ _ => rfl
  refine (clkSleepers_sems hc).trans ?_
  unfold countMs
  simp only
  split_ifs
  · exact hcount _ _
  · exact hcount k.clktime _

theorem finish_sems {c : Cont} (hc : ∀ x, c ≠ .kill x) {r : Kernel × Cont}
    (hf : finishCall k c = some r) : r.1.sems = k.sems := by
  cases c with
  | user => simp [finishCall] at hf
  | ret v => obtain rfl := Option.some.inj hf; rfl
  | suspend pid => obtain rfl := Option.some.inj hf; rfl
  | receive => obtain rfl := Option.some.inj hf; rfl
  | recvtime =>
    obtain rfl := Option.some.inj hf
    unfold recvtimeTail
    split_ifs <;> rfl
  | kill pid => exact absurd rfl (hc pid)
  | clkhandler =>
    rw [finishCall] at hf
    obtain ⟨k₁, h1, rfl⟩ := Option.map_eq_some_iff.mp hf
    have hcount : ∀ a, ({ k with preempt := a } : Kernel).sems = k.sems := fun _ => rfl
    unfold clkhandlerTail at h1
    simp only at h1
    split_ifs at h1
    · exact (resched_only h1).sems.trans (hcount _)
    · rw [← Option.some.inj h1]
      exact hcount _
  | iret => obtain rfl := Option.some.inj hf; rfl

theorem SemIds.enter (h : SemIds k) (hi : KernelInv strict k) {c : Call}
    (hnull : k.currpid = NULLPROC → c.byNull = true) {r : Kernel × Cont}
    (he : c.enter k = some r) : SemIds r.1 := by
  have hkeeps : (∀ n, c ≠ .semcreate n) → c.schedules = true → SemIds r.1 := fun hc hs =>
    h.congr (enter_keeps hi.settled hs hnull he).quiet.ids.2.2 (enter_nextsem hi hc hnull he)
  cases hsem : c.onSems with
  | false =>
    have hs := enter_sems hi hsem hnull he
    have ht : r.1.semtab = k.semtab := congrArg Prod.fst hs
    exact h.congr (fun s => by rw [ht]) (congrArg Prod.snd hs)
  | true =>
    cases c with
    | semcreate n =>
      have hq := (enter_keeps hi.settled rfl hnull he).quiet.ids.2.2
      obtain rfl := Option.some.inj he
      exact ⟨fun s hs => (hq s).trans (h.queue s hs), (semcreate_spec h.next n).1⟩
    | kill pid => exact h.congr (kill_ids he).2 (kill_ids he).1
    | userret => exact h.congr (kill_ids he).2 (kill_ids he).1
    | _ => first | exact hkeeps (by simp) rfl | simp [Call.onSems] at hsem

/-- **Entering a call**, the keeper hears of it. -/
theorem Kept.enter (h : Kept s.k σ) (hids : SemIds s.k) (hi : KernelInv strict s.k) {c : Call}
    (hnull : s.k.currpid = NULLPROC → c.byNull = true) (hok : InRange s (.call c))
    {r : Kernel × Cont} (he : c.enter s.k = some r)
    (hcont : ∀ n, c = .semcreate n → s'.cont s.k.currpid = r.2) :
    Follows s.k r.1 σ (semSee s (.call c) s' σ) (released (.call c) σ) := by
  have hset := hi.settled
  obtain ⟨qs, hp⟩ := hset.placed
  have hcur : c.byNull = false → s.k.currpid ≠ NULLPROC := fun hb hn => by
    have := hnull hn
    rw [hb] at this
    exact absurd this (by simp)
  cases hsem : c.onSems with
  | false =>
    have hsame : Kept r.1 σ := by
      refine h.same (congrArg Prod.fst (enter_sems hi hsem hnull he)) fun sem hs => ?_
      obtain ⟨h1, h2, h3⟩ := hp.queues.sem sem hs
      refine enter_entries hi hnull he h1 h2 fun e => ?_
      cases c <;> simp [Call.onSems] at hsem <;> simp [Call.queue] at e <;> exact h3 e.symm
    cases c <;> simp [Call.onSems] at hsem <;> exact ⟨hsame, by simp [released]⟩
  | true =>
    cases c with
    | wait sem =>
      obtain ⟨x, hx, rfl⟩ := returning_some he
      exact ⟨h.wait hids hset (hcur rfl) hx, by simp [released]⟩
    | signal sem =>
      obtain ⟨x, hx, rfl⟩ := returning_some he
      exact h.signal hids hset hok hx
    | signaln sem n =>
      obtain ⟨x, hx, rfl⟩ := returning_some he
      exact h.signaln hids hset hok hx
    | semcreate n =>
      obtain rfl := Option.some.inj he
      refine ⟨?_, by simp [released]⟩
      have hk := h.semcreate hids hset hok
      rw [semSee, hcont n rfl]
      exact hk
    | semdelete sem =>
      obtain ⟨x, hx, rfl⟩ := returning_some he
      exact h.semdelete hids hset hx
    | semreset sem n =>
      obtain ⟨x, hx, rfl⟩ := returning_some he
      exact h.semreset hids hset hok hx
    | kill pid => exact ⟨h.kill hids hi he, by simp [released]⟩
    | userret =>
      have hk := h.kill hids hi he
      rw [h.withdraw_idle hids hset (Or.inl (by rw [hset.running]; simp))] at hk
      exact ⟨hk, by simp [released]⟩
    | _ => simp [Call.onSems] at hsem

/-- What holds of the system and the keeper. -/
structure KeeperInv (x : Sys × Store) : Prop where
  sys : SysInv False x.1
  ids : SemIds x.1.k
  kept : Kept x.1.k x.2

/-- **The step lemma.** -/
theorem KeeperInv.step (h : KeeperInv (s, σ)) {e : Event} (hok : InRange s e)
    (hs : step s e = some s') :
    KeeperInv (s', semSee s e s' σ) ∧ ∀ p ∈ released e σ, Active s'.k p := by
  have hi' := step_inv h.sys (e := e) (fun hf => hf.elim) hs
  obtain ⟨qs, hp⟩ := h.sys.kernel.settled.placed
  -- a step that is not a call about semaphores
  have hsame : s'.k.sems = s.k.sems →
      (∀ q, IsQueue q → q ≠ s.k.readylist → q ≠ s.k.sleepq →
        s'.k.queuetab.entries q = s.k.queuetab.entries q) → KeeperInv (s', σ) := by
    intro he hq
    have ht : s'.k.semtab = s.k.semtab := congrArg Prod.fst he
    refine ⟨hi', h.ids.congr (fun s => by rw [ht]) (congrArg Prod.snd he),
      h.kept.same ht fun sem hsem => ?_⟩
    obtain ⟨h1, h2, h3⟩ := hp.queues.sem sem hsem
    exact hq _ h1 h2 h3
  cases e with
  | call c =>
    simp only [Xinu.step] at hs
    split_ifs at hs with hg
    obtain ⟨r, hr, he⟩ := Option.map_eq_some_iff.mp hs
    have hk : s'.k = r.1 := by rw [← he]
    have hcont : ∀ n, c = .semcreate n → s'.cont s.k.currpid = r.2 := by
      rintro n rfl
      rw [← he]
      exact Function.update_self (f := s.cont) ..
    obtain ⟨h1, h2⟩ := h.kept.enter h.ids h.sys.kernel hg.2.2 hok hr hcont
    have hids := h.ids.enter h.sys.kernel hg.2.2 hr
    rw [← hk] at h1 h2 hids
    exact ⟨⟨hi', hids, h1⟩, h2⟩
  | finish =>
    obtain ⟨r, hr, rfl⟩ := Option.map_eq_some_iff.mp hs
    have hf := finish_frame h.sys.kernel h.sys.alive hr
    exact ⟨hsame (finish_sems h.sys.alive hr) fun q hq hr _ => hf.entries q hq hr (by simp),
      by simp [released]⟩
  | callback =>
    obtain ⟨hb, -⟩ := callback_bland hs
    refine ⟨hsame ?_ fun q _ _ _ => by rw [hb.same.queuetab], by simp [released]⟩
    simp only [Xinu.step] at hs
    split_ifs at hs with hg hc
    · obtain rfl := Option.some.inj hs
      show (usercb s.k).sems = s.k.sems
      unfold usercb
      split_ifs <;> rfl
    · obtain rfl := Option.some.inj hs
      rfl
  | tick =>
    simp only [Xinu.step] at hs
    split_ifs at hs with hg
    obtain ⟨k', hk, rfl⟩ := Option.map_eq_some_iff.mp hs
    exact ⟨hsame (clkhandler_sems hk) fun q hq hr hne =>
      clkhandler_entries h.sys.kernel.settled hk hq hr hne, by simp [released]⟩
  | store a v =>
    simp only [Xinu.step] at hs
    split_ifs at hs with hg
    obtain rfl := Option.some.inj hs
    exact ⟨hsame rfl fun _ _ _ _ => rfl, by simp [released]⟩

/-! ## 7. The calls return

The loops of the code are bounded by fuel in the model.  Here it is shown that they never run out
of it: `signaln` and `semreset` take a process off a queue in each round, or count down, and
`semdelete` counts up to zero.  With `resched` deferred, no round can switch to another process. -/

/-- One round returns if `ready` does. -/
theorem countUp_returns (h : Placed strict k qs none)
    (hrun : (k.proctab k.currpid).prstate = .curr) (hsem : ¬ isbadsem sem)
    {take : QTab → QTab × Int} (ht : TakesFirst (k.semtab sem).squeue take)
    (hready : ∀ {t' p ys}, Leaving strict
      (k.setSem sem fun s => { s with scount := int32 (s.scount + 1) }) qs (k.semtab sem).squeue
        t' p ys → ∃ r, ready p ((k.setSem sem fun s =>
          { s with scount := int32 (s.scount + 1) }).setQueue t') = some r) :
    ∃ k', countUp take sem k = some k' := by
  have he := SameTables.setSem k sem (f := fun s => { s with scount := int32 (s.scount + 1) })
    fun _ => rfl
  unfold countUp
  dsimp only
  split_ifs with hc
  · rcases readyFirst_cases (h.congr he) (by rw [he.currpid, he.prstate]; exact hrun) hsem
      (he.squeue sem) ht with ⟨-, h1, h2⟩ | ⟨t', p, ys, h1, hlv⟩
    · rw [he.queuetab] at h1 h2
      rw [h1, h2]
      exact ⟨_, rfl⟩
    · obtain ⟨r, h2⟩ := hready hlv
      rw [he.queuetab] at h1
      rw [h1, h2]
      exact ⟨_, rfl⟩
  · exact ⟨_, rfl⟩

theorem countUp_returns_deferred (h : Deferred strict k) (hsem : ¬ isbadsem sem)
    {take : QTab → QTab × Int} (ht : TakesFirst (k.semtab sem).squeue take) :
    ∃ k', countUp take sem k = some k' := by
  obtain ⟨qs, hp⟩ := h.placed
  refine countUp_returns hp h.running hsem ht fun hlv => ?_
  obtain ⟨k₂, hr, -⟩ := ready_deferred hlv.placed hlv.good hlv.recv hlv.other h.running h.once
  exact ⟨_, hr⟩

theorem signalnLoop_returns (h : Deferred strict k) (hsem : ¬ isbadsem sem) (n : Nat) :
    ∃ k', signalnLoop sem n k = some k' := by
  induction n generalizing k with
  | zero => exact ⟨k, rfl⟩
  | succ n ih =>
    obtain ⟨qs, hp⟩ := h.placed
    obtain ⟨k₁, h1⟩ := countUp_returns_deferred h hsem (dequeue_takes (hp.squeue hsem).1)
    rw [← signalOnce_eq] at h1
    obtain ⟨k₂, h2⟩ := ih (signalOnce_deferred h hsem h1).1
    exact ⟨k₂, by rw [signalnLoop, h1]; exact h2⟩

/-- Each round of `semdelete` brings the count nearer to zero. -/
theorem semdeleteLoop_returns (h : Deferred strict k) (hsem : ¬ isbadsem sem) (hh : Holds k sem c)
    {fuel : Nat} (hfuel : c.waiting.length < fuel) : ∃ k', semdeleteLoop sem fuel k = some k' := by
  induction fuel generalizing k c with
  | zero => omega
  | succ fuel ih =>
    rw [semdeleteLoop_succ, hh.count]
    split_ifs with hc
    · obtain ⟨qs, hp⟩ := h.placed
      have ht := getfirst_takes (hp.squeue hsem).1
      obtain ⟨k₁, h1⟩ := countUp_returns_deferred h hsem ht
      obtain ⟨hr₁, he₁⟩ := hh.round hp h.running hsem (by simp only [maxCount]; omega) ht h1
      have hlen : (c.signal 1).waiting.length < fuel := by
        have := List.length_pos_iff.mpr (c.waiting_ne_nil.mpr hc)
        simp only [Counter.signal, List.length_drop]
        omega
      rw [h1]
      exact ih (countUp_deferred h hsem ht h1).1 (hh.released (n := 1) hr₁ he₁) hlen
    · exact ⟨_, rfl⟩

theorem semresetLoop_returns (h : Deferred strict k) (hsem : ¬ isbadsem sem) {fuel : Nat}
    (hq : (k.semtab sem).squeue = q) (hfuel : (waitList k sem).length < fuel) :
    ∃ k', semresetLoop q fuel k = some k' := by
  induction fuel generalizing k with
  | zero => omega
  | succ fuel ih =>
    obtain ⟨qs, hp⟩ := h.placed
    have hw := hp.waitList_eq hsem
    obtain ⟨hisq, hr⟩ := hp.squeue hsem
    rw [hq] at hw hisq hr
    rw [semresetLoop]
    rcases readyFirst_cases hp h.running hsem hq (getfirst_takes hisq) with ⟨-, h1, -⟩ |
      ⟨t', p, ys, h1, hlv⟩
    · rw [h1]
      exact ⟨_, if_neg (by simp)⟩
    · have hne : p ≠ EMPTY := by
        have := (IsProc.of_not_bad hlv.good).1
        simp only [EMPTY]
        omega
      obtain ⟨k₁, h2, hd₁, hq₁⟩ :=
        ready_deferred hlv.placed hlv.good hlv.recv hlv.other h.running h.once
      have hr₁ := hlv.releases hp.linked hisq hr h2
      have he₁ : k₁.semtab = k.semtab := (ready_only h2).semtab
      have hlen : (waitList k₁ sem).length < fuel := by
        rw [hw, hlv.first] at hfuel
        rw [waitList, he₁, hq, hr₁.members, hp.linked.members_eq hisq, hlv.first]
        simpa using hfuel
      obtain ⟨k₂, h3⟩ := ih hd₁ (by rw [he₁]; exact hq) hlen
      rw [h1]
      refine ⟨k₂, ?_⟩
      simp only [ne_eq, hne, not_false_iff, if_true, h2]
      exact h3

/-- A routine between `DEFER_START` and `DEFER_STOP` returns if its loop does. -/
theorem deferred_returns (h : Settled strict k) {f : Kernel → Option Kernel}
    (hf : ∀ k₁, SameTables k k₁ → k₁.semtab = k.semtab → Deferred strict k₁ →
      ∃ k₂, f k₁ = some k₂ ∧ Deferred strict k₂) :
    ∃ r, (do
      let (k, _) ← reschedCntl DEFER_START k
      let k ← f k
      let (k, _) ← reschedCntl DEFER_STOP k
      return (k, OK)) = some r := by
  obtain ⟨k₁, h1, hd₁, -, he⟩ := deferStart_spec h
  obtain ⟨k₂, h2, hd₂⟩ := hf k₁ he (reschedCntl_only h1).semtab hd₁
  obtain ⟨k₃, h3, -⟩ := deferStop_spec hd₂
  exact ⟨(k₃, OK), by simp [h1, h2, h3]⟩

/-- The calls about semaphores. -/
def Call.aboutSems : Call → Bool
  | .wait _ | .signal _ | .signaln _ _ | .semcreate _ | .semdelete _ | .semreset _ _ => true
  | _ => false

/-- **The calls about semaphores return.** -/
theorem enter_returns (h : Kept k σ) (hset : Settled strict k) (hcur : k.currpid ≠ NULLPROC)
    {c : Call} (hc : c.aboutSems = true) : ∃ r, c.enter k = some r := by
  obtain ⟨qs, hp⟩ := hset.placed
  have of_ret : ∀ {f : Option (Kernel × Int)}, (∃ x, f = some x) → ∃ r, returning f = some r := by
    rintro f ⟨x, rfl⟩
    exact ⟨_, rfl⟩
  have hlen : ∀ sem, ¬ isbadsem sem → (waitList k sem).length ≤ 100 := by
    intro sem hsem
    rw [hp.waitList_eq hsem]
    exact hp.linked.length_le (hp.squeue hsem).1
  cases c with
  | wait sem =>
    refine of_ret ?_
    unfold Xinu.wait
    split_ifs with h1 h2
    · exact ⟨_, rfl⟩
    · exact ⟨_, rfl⟩
    · dsimp only
      have hset₁ := hset.congr (SameTables.setSem k sem
        (f := fun s => { s with scount := int32 (s.scount - 1) }) fun _ => rfl) rfl
      split_ifs with h3
      · obtain ⟨qs₁, t', -, he, hb, -⟩ := enqueueSelf_spec hset₁ hcur h1
        obtain ⟨k₂, hr, -⟩ := resched_settled hb hset₁.open_
        refine ⟨(k₂, OK), ?_⟩
        simp only [setProc_currpid, setProc_semtab, he, hr, Option.bind_eq_bind, Option.bind_some,
          Option.pure_def]
      · exact ⟨_, rfl⟩
  | signal sem =>
    refine of_ret ?_
    unfold Xinu.signal
    split_ifs with h1 h2
    · exact ⟨_, rfl⟩
    · exact ⟨_, rfl⟩
    · obtain ⟨k₂, h3⟩ := countUp_returns hp hset.running h1 (dequeue_takes (hp.squeue h1).1)
        fun hlv => by
          obtain ⟨k₂, hr, -⟩ := ready_settled hlv.placed hlv.good hlv.recv hset.open_
          exact ⟨_, hr⟩
      rw [← signalOnce_eq] at h3
      exact ⟨(k₂, OK), by rw [h3]; rfl⟩
  | signaln sem n =>
    refine of_ret ?_
    unfold Xinu.signaln
    split_ifs with h1 h2
    · exact ⟨_, rfl⟩
    · exact ⟨_, rfl⟩
    · simp only [not_or] at h1
      refine deferred_returns hset fun k₁ _ _ hd => ?_
      obtain ⟨k₂, h3⟩ := signalnLoop_returns hd h1.1 n.toNat
      exact ⟨k₂, h3, (signalnLoop_deferred h1.1 hd h3).1⟩
  | semcreate n => exact ⟨_, rfl⟩
  | semdelete sem =>
    refine of_ret ?_
    unfold Xinu.semdelete
    split_ifs with h1 h2
    · exact ⟨_, rfl⟩
    · exact ⟨_, rfl⟩
    · obtain ⟨c, hc, -, hh⟩ := h.used h1 (used_of_not_free h2)
      have hl := hlen sem h1
      rw [hh.list] at hl
      have he := SameTables.setSem k sem (f := fun s => { s with sstate := .free }) fun _ => rfl
      have hself : (k.setSem sem fun s => { s with sstate := .free }).semtab sem =
          { k.semtab sem with sstate := .free } := Function.update_self ..
      refine deferred_returns (hset.congr he rfl) fun k₁ he₁ hs₁ hd => ?_
      have hh₁ : Holds k₁ sem c :=
        ⟨by rw [hs₁, hself]; exact hh.count,
          by rw [waitList, he₁.queuetab, hs₁, hself]; exact hh.list⟩
      have hfuel : c.waiting.length < countBound := by
        unfold countBound
        omega
      obtain ⟨k₂, h3⟩ := semdeleteLoop_returns hd h1 hh₁ hfuel
      exact ⟨k₂, h3, (semdeleteLoop_deferred h1 hd h3).1⟩
  | semreset sem n =>
    refine of_ret ?_
    unfold Xinu.semreset
    split_ifs with h1
    · exact ⟨_, rfl⟩
    · simp only [not_or] at h1
      have hl := hlen sem h1.2.1
      have hall := deferred_returns hset (f := fun k => do
        let k ← semresetLoop (k.semtab sem).squeue NQENT.toNat k
        return k.setSem sem fun s => { s with scount := n }) fun k₁ he₁ hs₁ hd => by
        have hw : waitList k₁ sem = waitList k sem := by rw [waitList, hs₁, he₁.queuetab]; rfl
        have hfuel : (waitList k₁ sem).length < NQENT.toNat := by
          have : NQENT.toNat = 304 := rfl
          rw [hw]
          omega
        obtain ⟨k₂, h3⟩ := semresetLoop_returns hd h1.2.1 rfl hfuel
        refine ⟨k₂.setSem sem fun s => { s with scount := n }, by rw [h3]; rfl, ?_⟩
        exact (semresetLoop_deferred h1.2.1 hd rfl h3).1.congr
          (SameTables.setSem k₂ sem fun _ => rfl) rfl
      simpa only [Option.bind_eq_bind, Option.bind_assoc, Option.pure_def,
        Option.bind_some] using hall
  | _ => simp [Call.aboutSems] at hc

/-! ## 8. Every run

After `sysinit` all semaphores are free with empty queues, which is what a keeper with no counters
says.  From there the step lemma carries the invariant through every run whose calls keep the
counts in range. -/

theorem Kernel.sems_eq : k'.sems = k.sems ↔ k'.semtab = k.semtab ∧ k'.nextsem = k.nextsem :=
  Prod.mk_inj

theorem newqueue_sems (k : Kernel) : (newqueue k).1.sems = k.sems := by
  unfold newqueue
  dsimp only
  split_ifs <;> rfl

/-- The loop of `sysinit` leaves every semaphore free. -/
theorem initSems_free (h : ∀ s, (k.semtab s).sstate = .free) (n : Nat) :
    (∀ s, ((initSems k n).semtab s).sstate = .free) ∧ (initSems k n).nextsem = k.nextsem := by
  induction n with
  | zero => exact ⟨h, rfl⟩
  | succ n ih =>
    have hq := newqueue_sems (initSems k n)
    have ht : (newqueue (initSems k n)).1.semtab = (initSems k n).semtab := congrArg Prod.fst hq
    refine ⟨fun s => ?_, (congrArg Prod.snd hq).trans ih.2⟩
    show (Function.update (newqueue (initSems k n)).1.semtab n _ s).sstate = .free
    by_cases hs : s = n
    · subst hs
      rw [Function.update_self]
    · rw [Function.update_of_ne hs, ht]
      exact ih.1 s

/-- **The semaphores after `sysinit`**: all free, each with its queue. -/
theorem initQueues_sems (hq : k.nextqid = NPROC) (hs : ∀ s, (k.semtab s).sstate = .free)
    (hn : k.nextsem = 0) :
    SemIds (initQueues k) ∧ ∀ s, ((initQueues k).semtab s).sstate = .free := by
  have hnone : Fresh k.nextqid k.queuetab := fun q hq' hlt => by
    have := hq'.1
    omega
  have hmade := initSems_spec hnone hq (i := NSEM.toNat) (by decide)
  obtain ⟨hfree, hnext⟩ := initSems_free hs NSEM.toNat
  have hsems : (initQueues k).sems = (initSems k NSEM.toNat).sems := by
    unfold initQueues
    generalize initSems k NSEM.toNat = k₁
    exact (newqueue_sems { (newqueue k₁).1 with readylist := (newqueue k₁).2 }).trans
      (newqueue_sems k₁)
  obtain ⟨ht, hx⟩ := Kernel.sems_eq.mp hsems
  refine ⟨⟨fun s hgood => ?_, ?_⟩, fun s => by rw [ht]; exact hfree s⟩
  · rw [ht]
    simp only [isbadsem, not_or, not_lt, ge_iff_le, not_le, NSEM] at hgood
    exact hmade.squeue s hgood.1 hgood.2
  · rw [hx, hnext, hn]
    decide

theorem sysinit_sems {image : Image} {heap : Heap} (h : sysinit (bss image heap) = some k) :
    SemIds k ∧ ∀ sem, (k.semtab sem).sstate = .free := by
  obtain ⟨⟨k₁, base⟩, hg, h⟩ := Option.bind_eq_some_iff.mp h
  obtain ⟨⟨heap', a⟩, -, hk₁⟩ := Option.bind_eq_some_iff.mp hg
  simp only [Option.pure_def, Option.some.injEq, Prod.mk.injEq] at hk₁
  obtain ⟨rfl, rfl⟩ := hk₁
  obtain rfl := Option.some.inj h
  refine initQueues_sems rfl ?_ rfl
  intro sem
  rfl

theorem boot_keeper {image : Image} {heap : Heap} (h : boot image heap = some s) :
    KeeperInv (s, fun _ => none) := by
  have hinv : SysInv False s := boot_inv h
  obtain ⟨base, hb⟩ := boot_spec h
  obtain ⟨qs, hp⟩ := hinv.kernel.settled.placed
  obtain ⟨k, hk, rfl⟩ := Option.map_eq_some_iff.mp h
  have hsems := sysinit_sems hk
  refine ⟨hinv, hsems.1, fun sem hsem => ⟨hsems.2 sem, ?_⟩, fun _ _ => rfl⟩
  -- nobody but the null process exists
  rw [List.eq_nil_iff_forall_not_mem]
  intro p hm
  have hpp : IsProc p := by
    rw [hp.waitList_eq hsem] at hm
    exact hp.linked.procs _ (hp.squeue hsem).1 p hm
  have hw := ((hp.mem_waitList hsems.1 hsem hpp).mp hm).1
  rw [hb.proctab] at hw
  by_cases hn : p = NULLPROC
  · subst hn
    rw [Function.update_self] at hw
    simp [nullEntry] at hw
  · rw [Function.update_of_ne hn] at hw
    simp [zeroProc] at hw

/-- **The count and the queue of every semaphore agree**, and a process waits at most once. -/
structure SemsAgree (k : Kernel) : Prop where
  count : ∀ sem, ¬ isbadsem sem → (k.semtab sem).sstate = .used →
    ((k.semtab sem).scount < 0 ↔ waitList k sem ≠ []) ∧
      ((k.semtab sem).scount < 0 → ((waitList k sem).length : Int) = -(k.semtab sem).scount)
  free : ∀ sem, ¬ isbadsem sem → (k.semtab sem).sstate = .free → waitList k sem = []
  once : ∀ sem, ¬ isbadsem sem → (waitList k sem).Nodup
  waits : ∀ p sem, IsProc p → ¬ isbadsem sem →
    (p ∈ waitList k sem ↔ (k.proctab p).prstate = .wait ∧ (k.proctab p).prsem = sem)

theorem KeeperInv.agree (h : KeeperInv (s, σ)) : SemsAgree s.k := by
  obtain ⟨qs, hp⟩ := h.sys.kernel.settled.placed
  refine ⟨fun sem hsem hused => ?_, fun sem hsem hfree => ?_, fun sem hsem => ?_,
    fun p sem hpp hsem => hp.mem_waitList h.ids hsem hpp⟩
  · obtain ⟨c, -, -, hh⟩ := h.kept.used hsem hused
    rw [hh.count, hh.list]
    refine ⟨c.waiting_ne_nil.symm, fun hneg => ?_⟩
    have := c.balanced
    omega
  · have hs := h.kept.shows sem hsem
    rw [h.kept.unused (Or.inr hfree)] at hs
    exact hs.2
  · rw [hp.waitList_eq hsem]
    exact hp.linked.nodup _ (hp.squeue hsem).1

/-- The invariant holds in every run. -/
theorem Watched.keeper {x : Sys × Store}
    (h : Watched semSee (fun _ => none) (fun x => InRange x.1) x) : KeeperInv x := by
  obtain ⟨image, heap, s₀, hb, hr⟩ := h
  refine hr.invariant (boot_keeper hb) fun t e u ht hok hs => ?_
  obtain ⟨s', hs', rfl⟩ := Runs.watch_some.mp hs
  exact (ht.step hok hs').1

/-- **Semaphores keep their counts.**  In every run in which no count is pushed past the largest
`int32` the keeper is right about every semaphore, counts and queues agree, the calls about
semaphores return, and the processes a call is to release are on their way when it returns. -/
theorem semaphores_kept {x : Sys × Store}
    (h : Watched semSee (fun _ => none) (fun x => InRange x.1) x) :
    Kept x.1.k x.2 ∧ SemsAgree x.1.k ∧
      (∀ c : Call, c.aboutSems = true → x.1.idle → x.1.divert x.1.k.currpid = false →
        x.1.k.currpid ≠ NULLPROC → ∃ s', step x.1 (.call c) = some s') ∧
      ∀ e s', InRange x.1 e → step x.1 e = some s' → ∀ p ∈ released e x.2, Active s'.k p := by
  have hinv : KeeperInv x := h.keeper
  obtain ⟨s, σ⟩ := x
  refine ⟨hinv.kept, hinv.agree, fun c hc hidle hdiv hcur => ?_, fun e s' hok hs =>
    (hinv.step hok hs).2⟩
  obtain ⟨r, hr⟩ := enter_returns hinv.kept hinv.sys.kernel.settled hcur hc
  have hok : s.idle ∧ s.divert s.k.currpid = false ∧ (s.k.currpid = NULLPROC → c.byNull = true) :=
    ⟨hidle, hdiv, fun e => absurd e hcur⟩
  exact ⟨_, by simp only [step, if_pos hok, hr]; rfl⟩

instance (s : Sys) (e : Event) : Decidable (InRange s e) := by
  unfold InRange
  split <;> infer_instance

/-- The second process waits on a semaphore that the first has created with count zero. -/
def waitOnZero : List Event :=
  [makeMain 20, makeProcess 30, .finish, .call (.semcreate 0), .finish,
    .call (.resume 2), .call (.wait 0)]

theorem semaphores_kept_waiting : ∃ x : Sys × Store, (x.2 0).map Counter.waiting = some [2] ∧
    Kept x.1.k x.2 ∧ SemsAgree x.1.k := by
  have h1 : (watchFromBoot semSee (fun _ => none) (fun x => InRange x.1) waitOnZero).map (fun x =>
      decide ((x.2 0).map Counter.waiting = some [2])) = some true := by decide +kernel
  obtain ⟨x, hx, hp⟩ := Option.map_eq_some_iff.mp h1
  have hk := semaphores_kept (watched_watchFromBoot hx)
  exact ⟨x, of_decide_eq_true hp, hk.1, hk.2.1⟩

end Xinu
