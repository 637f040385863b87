/-
# Scheduling keeps the table invariant

Between calls the state is `Settled`: the tables agree, the current process is the one in state
`PR_CURR`, nothing is deferred, and (when priorities are not changed behind the back of the
ready list) nobody ready has a higher priority than the current process.  Between
`DEFER_START` and `DEFER_STOP` it is `Deferred`: the same, except that the order may be
violated once a `resched` has been asked for.

`Quiet k k'` says what these routines leave alone: memory, the number of processes, and every
field of every table entry but `prstate` and `prsem`.
-/
import Xinu.TableInv

namespace Xinu

open LinkedPath

/-! ## 1. What scheduling leaves alone -/

/-- The process is neither made nor ended, and `receive` goes on waiting if it was. -/
structure Stays (k k' : Kernel) (p : Int) : Prop where
  life : (k'.proctab p).prstate = .free ↔ (k.proctab p).prstate = .free
  recv : (k.proctab p).prstate = .recv → (k'.proctab p).prstate = .recv

theorem Stays.trans {k₁ k₂ k₃ : Kernel} {p : Int} (h : Stays k₁ k₂ p) (h' : Stays k₂ k₃ p) :
    Stays k₁ k₃ p := ⟨h'.life.trans h.life, h'.recv ∘ h.recv⟩

theorem Stays.of_prstate {k k' : Kernel} {p : Int}
    (h : (k'.proctab p).prstate = (k.proctab p).prstate) : Stays k k' p := by
  constructor <;> simp [h]

/-- Nothing but scheduling state differs, and no process is made or ended. -/
structure Quiet (k k' : Kernel) : Prop where
  heap : k'.heap = k.heap
  image : k'.image = k.image
  prcount : k'.prcount = k.prcount
  createNextpid : k'.createNextpid = k.createNextpid
  rcreateNextpid : k'.rcreateNextpid = k.rcreateNextpid
  proc : ∀ p, { k'.proctab p with prstate := .free, prsem := 0 } =
    { k.proctab p with prstate := .free, prsem := 0 }
  stays : ∀ p, Stays k k' p
  ids : k'.readylist = k.readylist ∧ k'.sleepq = k.sleepq ∧
    ∀ s, (k'.semtab s).squeue = (k.semtab s).squeue

variable {strict : Prop} {k k' : Kernel} {qs : Int → List Int} {p q : Int} {ys : List Int}

theorem Quiet.refl (k : Kernel) : Quiet k k :=
  ⟨rfl, rfl, rfl, rfl, rfl, fun _ => rfl, fun _ => .of_prstate rfl, rfl, rfl, fun _ => rfl⟩

theorem Quiet.trans {k₁ k₂ k₃ : Kernel} (h : Quiet k₁ k₂) (h' : Quiet k₂ k₃) : Quiet k₁ k₃ :=
  ⟨h'.heap.trans h.heap, h'.image.trans h.image, h'.prcount.trans h.prcount,
    h'.createNextpid.trans h.createNextpid, h'.rcreateNextpid.trans h.rcreateNextpid,
    fun p => (h'.proc p).trans (h.proc p), fun p => (h.stays p).trans (h'.stays p),
    h'.ids.1.trans h.ids.1, h'.ids.2.1.trans h.ids.2.1,
    fun s => (h'.ids.2.2 s).trans (h.ids.2.2 s)⟩

/-- Assigning a state (and a semaphore) that neither makes nor ends a process, to one that is
not in `receive`. -/
theorem Quiet.setProc (k : Kernel) (p : Int) {f : Procent → Procent}
    (hf : ∀ e, { f e with prstate := .free, prsem := 0 } = { e with prstate := .free, prsem := 0 })
    (hlife : (f (k.proctab p)).prstate = .free ↔ (k.proctab p).prstate = .free)
    (hrecv : (k.proctab p).prstate ≠ .recv) : Quiet k (k.setProc p f) := by
  refine ⟨rfl, rfl, rfl, rfl, rfl, fun x => ?_, fun x => ?_, rfl, rfl, fun _ => rfl⟩
  · by_cases hx : x = p
    · subst hx; rw [setProc_same]; exact hf _
    · rw [setProc_of_ne k f hx]
  · by_cases hx : x = p
    · subst hx
      exact ⟨by rw [setProc_same]; exact hlife, fun h => absurd h hrecv⟩
    · exact .of_prstate (by rw [setProc_of_ne k f hx])

theorem Quiet.setState (k : Kernel) (p : Int) (st : PrState) (hst : st ≠ .free)
    (hp : (k.proctab p).prstate ≠ .free) (hrecv : (k.proctab p).prstate ≠ .recv) :
    Quiet k (k.setState p st) :=
  Quiet.setProc k p (fun _ => rfl) ⟨fun e => absurd e hst, fun e => absurd e hp⟩ hrecv

theorem Quiet.setQueue (k : Kernel) (t : QTab) : Quiet k (k.setQueue t) :=
  ⟨rfl, rfl, rfl, rfl, rfl, fun _ => rfl, fun _ => .of_prstate rfl, rfl, rfl, fun _ => rfl⟩

theorem Quiet.prprio (h : Quiet k k') (p : Int) :
    (k'.proctab p).prprio = (k.proctab p).prprio := by
  have := congrArg Procent.prprio (h.proc p)
  simpa using this

theorem Quiet.isbadpid (h : Quiet k k') (p : Int) : isbadpid k' p ↔ isbadpid k p := by
  simp only [Xinu.isbadpid, (h.stays _).life]

/-! ## 2. Settled and deferred states

The two kinds of state that the kernel's routines are called in. -/

/-- Nobody ready has a higher priority than the current process. -/
def Top (k : Kernel) : Prop := ∀ p, IsProc p → (k.proctab p).prstate = .ready →
  (k.proctab p).prprio.val ≤ (k.proctab k.currpid).prprio.val

/-- **The state between calls.** -/
structure Settled (strict : Prop) (k : Kernel) : Prop where
  placed : ∃ qs, Placed strict k qs none
  running : (k.proctab k.currpid).prstate = .curr
  open_ : k.defer.ndefers = 0
  top : strict → Top k

/-- The state between `DEFER_START` and `DEFER_STOP`. -/
structure Deferred (strict : Prop) (k : Kernel) : Prop where
  placed : ∃ qs, Placed strict k qs none
  running : (k.proctab k.currpid).prstate = .curr
  once : k.defer.ndefers = 1
  top : strict → k.defer.attempt = 0 → Top k

theorem Top.congr (h : Top k) (e : SameTables k k') : Top k' := by
  intro p hp hr
  rw [e.prprio, e.prprio, e.currpid]
  exact h p hp (by rw [← e.prstate]; exact hr)

theorem Settled.congr (h : Settled strict k) (e : SameTables k k')
    (hd : k'.defer.ndefers = k.defer.ndefers) : Settled strict k' where
  placed := by
    obtain ⟨qs, hp⟩ := h.placed
    exact ⟨qs, hp.congr e⟩
  running := by rw [e.currpid, e.prstate]; exact h.running
  open_ := hd.trans h.open_
  top := fun hs => (h.top hs).congr e

theorem Deferred.congr (h : Deferred strict k) (e : SameTables k k')
    (hd : k'.defer = k.defer) : Deferred strict k' where
  placed := by
    obtain ⟨qs, hp⟩ := h.placed
    exact ⟨qs, hp.congr e⟩
  running := by rw [e.currpid, e.prstate]; exact h.running
  once := by rw [hd]; exact h.once
  top := fun hs ha => (h.top hs (by rw [← hd]; exact ha)).congr e

/-- The processes on the ready list are the ready ones. -/
theorem Placed.mem_ready (h : Placed strict k qs none) (hp : IsProc p) :
    p ∈ qs k.readylist ↔ (k.proctab p).prstate = .ready := by
  rw [h.placed p _ hp h.queues.ready (by simp)]
  constructor
  · intro hh
    simp only [home] at hh
    split at hh
    · assumption
    · exact absurd (Option.some.inj hh) h.queues.sleep.2
    · exact absurd (Option.some.inj hh) h.queues.sleep.2
    · rename_i hw
      exact absurd (Option.some.inj hh) (h.queues.sem _ (h.waits p hp hw)).2.1
    · simp at hh
  · intro hr
    simp [home, hr]

/-- The processes on the sleep queue are the sleeping ones. -/
theorem Placed.mem_sleep (h : Placed strict k qs none) (hp : IsProc p)
    (hm : p ∈ qs k.sleepq) :
    (k.proctab p).prstate = .sleep ∨ (k.proctab p).prstate = .rectim := by
  have hh := (h.placed p _ hp h.queues.sleep.1 (by simp)).mp hm
  simp only [home] at hh
  split at hh
  · exact absurd (Option.some.inj hh).symm h.queues.sleep.2
  · exact Or.inl ‹_›
  · exact Or.inr ‹_›
  · rename_i hw
    exact absurd (Option.some.inj hh) (h.queues.sem _ (h.waits p hp hw)).2.2
  · simp at hh

/-! ## 3. `resched`

Before the call the current process may have given up the processor and be on a queue, or still
have it. -/

theorem run_self (k : Kernel) (p : Int) :
    (k.run p).proctab p = { k.proctab p with prstate := .curr } := setState_same k p .curr

theorem run_of_ne (k : Kernel) {p x : Int} (h : x ≠ p) : (k.run p).proctab x = k.proctab x :=
  setState_of_ne k .curr h

theorem run_prprio (k : Kernel) (p x : Int) :
    ((k.run p).proctab x).prprio = (k.proctab x).prprio := by
  by_cases hx : x = p
  · subst hx; rw [run_self]
  · rw [run_of_ne k hx]

/-- Giving the processor to a process in transit, when no process has it. -/
theorem Placed.run (h : Placed strict k qs (some p)) (hp : IsProc p)
    (hnone : ∀ x, IsProc x → (k.proctab x).prstate ≠ .curr) :
    Placed strict (k.run p) qs none where
  linked := h.linked
  placed := fun x q hx hq _ => by
    by_cases hxp : x = p
    · subst hxp
      have hh : home (k.run x) x = none := by simp [home, run_self]
      rw [hh]
      exact ⟨fun hm => absurd hm (h.absent x q hq rfl), fun e => by simp at e⟩
    · have hh : home (k.run p) x = home k x := by
        simp only [home, run_of_ne k hxp]
        rfl
      rw [hh]
      exact h.placed x q hx hq (by simpa using hxp)
  absent := fun _ _ _ hx => by simp at hx
  curr := fun x hx hc => by
    show x = p
    by_contra hxp
    rw [run_of_ne k hxp] at hc
    exact hnone x hx hc
  currProc := hp
  null := by
    by_cases hp : NULLPROC = p
    · rw [← hp, run_self]
      exact Or.inl rfl
    · rw [run_of_ne k hp]
      exact h.null
  queues := ⟨h.queues.ready, h.queues.sleep, h.queues.sem⟩
  waits := fun x hx hw => by
    by_cases hxp : x = p
    · subst hxp
      simp [run_self] at hw
    · rw [run_of_ne k hxp] at hw ⊢
      exact h.waits x hx hw
  fed := h.fed
  ordered := fun hs => ⟨fun x hx => by
      rw [run_prprio]
      exact (h.ordered hs).keys x hx,
    (h.ordered hs).sorted⟩

/-- **The ready list is not empty when it is dequeued**: the null process is on it, or it has
the processor. -/
theorem Placed.ready_ne_nil (h : Placed strict k qs none)
    (hnone : ∀ x, IsProc x → (k.proctab x).prstate ≠ .curr) : qs k.readylist ≠ [] := by
  have hp : IsProc NULLPROC := by decide
  have hm : NULLPROC ∈ qs k.readylist :=
    (h.mem_ready hp).mpr (h.null.resolve_left (hnone _ hp))
  intro e
  rw [e] at hm
  simp at hm

theorem dispatch_spec (h : Placed strict k qs none)
    (hnone : ∀ x, IsProc x → (k.proctab x).prstate ≠ .curr) :
    (∃ qs', Placed strict (dispatch k) qs' none) ∧
      ((dispatch k).proctab (dispatch k).currpid).prstate = .curr ∧
      (dispatch k).defer = k.defer ∧ (strict → Top (dispatch k)) ∧ Quiet k (dispatch k) := by
  obtain ⟨p, ys, hs⟩ := List.exists_cons_of_ne_nil (h.ready_ne_nil hnone)
  obtain ⟨t', hd, hout, -⟩ := h.dequeue h.queues.ready hs
  have hp : IsProc p := h.linked.procs _ h.queues.ready p (by simp [hs])
  have hready : (k.proctab p).prstate = .ready := (h.mem_ready hp).mp (by simp [hs])
  have hne : ¬ isempty k.queuetab k.readylist := by
    rw [isempty_iff h.linked h.queues.ready, hs]; simp
  have hk : dispatch k = (k.setQueue t').run p := by
    simp only [dispatch, hd, hne, decide_false, Bool.or_false]
  rw [hk]
  refine ⟨⟨_, hout.run hp hnone⟩, congrArg Procent.prstate (run_self (k.setQueue t') p), rfl,
    fun hst x hx hr => ?_, ?_⟩
  · -- the head of a sorted list has the largest key
    have ho := h.ordered hst
    have hxp : x ≠ p := by
      rintro rfl
      rw [run_self] at hr
      simp at hr
    rw [run_of_ne _ hxp] at hr
    have hmem : x ∈ ys := by
      have := (h.mem_ready hx).mpr hr
      rw [hs] at this
      simpa [hxp] using this
    have hkx := ho.keys x (by rw [hs]; simp [hmem])
    have hkp := ho.keys p (by rw [hs]; simp)
    have hsort := ho.sorted
    rw [hs] at hsort
    have hle := (List.pairwise_cons.mp hsort).1 x hmem
    rw [run_prprio, run_prprio]
    show (k.proctab x).prprio.val ≤ (k.proctab p).prprio.val
    rw [← hkx, ← hkp]
    exact hle
  · have hq := Quiet.setState k p .curr (by simp) (by rw [hready]; simp)
      (by rw [hready]; simp)
    exact ⟨hq.heap, hq.image, hq.prcount, hq.createNextpid, hq.rcreateNextpid, hq.proc,
      fun x => ⟨(hq.stays x).life, (hq.stays x).recv⟩, hq.ids⟩

/-- The current process with a priority above the first key has the highest priority. -/
theorem Placed.top_of_firstkey (h : Placed strict k qs none) (hst : strict)
    (hkey : (k.proctab k.currpid).prprio.val > firstkey k.queuetab k.readylist) : Top k := by
  intro x hx hr
  have hm := (h.mem_ready hx).mpr hr
  have ho := h.ordered hst
  have hn : firstid k.queuetab k.readylist = (qs k.readylist).headD (k.readylist + 1) :=
    (h.linked.path _ h.queues.ready).next_head
  cases hqs : qs k.readylist with
  | nil => rw [hqs] at hm; simp at hm
  | cons y ys =>
    rw [hqs, List.headD_cons] at hn
    have hkx := ho.keys x hm
    have hsort := ho.sorted
    rw [hqs] at hm hsort
    simp only [firstkey, hn] at hkey
    rcases List.mem_cons.mp hm with rfl | hm
    · omega
    · have := (List.pairwise_cons.mp hsort).1 x hm
      omega

/-- **`resched` settles the state**, whether or not the current process has given up the
processor. -/
theorem resched_settled (h : Placed strict k qs none) (hd : k.defer.ndefers = 0) :
    ∃ k', resched k = some k' ∧ Settled strict k' ∧ k'.defer = k.defer ∧ Quiet k k' := by
  have hnd : ¬ k.defer.ndefers > 0 := by omega
  by_cases hcur : (k.proctab k.currpid).prstate = .curr
  · by_cases hkey : (k.proctab k.currpid).prprio.val > firstkey k.queuetab k.readylist
    · refine ⟨k, ?_, ⟨⟨qs, h⟩, hcur, hd, fun hs => h.top_of_firstkey hs hkey⟩, rfl, Quiet.refl k⟩
      simp [resched, hnd, hcur, hkey]
    · -- the current process goes back to the ready list
      have hhome : home k k.currpid = none := by simp [home, hcur]
      have ha := (h.depart h.currProc hhome).setReady
      obtain ⟨t', xs, ys, hi, hp', -⟩ := ha.insertReady h.currProc (by rw [setState_same])
      have hnone : ∀ x, IsProc x →
          ((k.setState k.currpid .ready).proctab x).prstate ≠ .curr := by
        intro x hx hc
        rw [setState_prstate] at hc
        split_ifs at hc with hxc
        exact hxc (h.curr x hx hc)
      obtain ⟨⟨qs'', hp''⟩, hrun, hdef, htop, hquiet⟩ := dispatch_spec hp' hnone
      have hprio : ((k.setState k.currpid .ready).proctab k.currpid).prprio =
          (k.proctab k.currpid).prprio := by rw [setState_same]
      have hi' : insert k.currpid (k.setState k.currpid .ready).readylist
          (k.proctab k.currpid).prprio.val (k.setState k.currpid .ready) =
          some ((k.setState k.currpid .ready).setQueue t', OK) := by
        rw [← hprio]; exact hi
      refine ⟨dispatch ((k.setState k.currpid .ready).setQueue t'), ?_,
        ⟨⟨_, hp''⟩, hrun, (congrArg Defer.ndefers hdef).trans hd, htop⟩, hdef, ?_⟩
      · simp only [resched, hnd, if_false, hcur, if_true, hkey]
        rw [show (k.setState k.currpid .ready).currpid = k.currpid from rfl, hi']
        rfl
      · have hq := Quiet.setState k k.currpid .ready (by simp) (by rw [hcur]; simp)
          (by rw [hcur]; simp)
        exact (hq.trans (Quiet.setQueue _ t')).trans hquiet
  · have hnone : ∀ x, IsProc x → (k.proctab x).prstate ≠ .curr := by
      intro x hx hc
      exact hcur (h.curr x hx hc ▸ hc)
    obtain ⟨hp', hrun, hdef, htop, hquiet⟩ := dispatch_spec h hnone
    refine ⟨dispatch k, ?_, ⟨hp', hrun, (congrArg Defer.ndefers hdef).trans hd, htop⟩, hdef, hquiet⟩
    simp [resched, hnd, hcur]

/-- While deferred, `resched` only records that it was asked for. -/
theorem resched_deferred (hd : k.defer.ndefers > 0) :
    resched k = some (k.setDefer ⟨k.defer.ndefers, TRUE⟩) := by
  simp [resched, hd]

/-! ## 4. `ready`

A process in transit becomes ready and `resched` decides who runs, or only notes that it was
asked. -/

/-- What `ready` does before its call of `resched`. -/
theorem ready_eq (h : Placed strict k qs (some p)) (hgood : ¬ isbadpid k p) :
    ∃ t' xs ys, Placed strict ((k.setState p .ready).setQueue t')
        (Function.update qs k.readylist (xs ++ p :: ys)) none ∧
      (∀ i, i ≠ p → (t' i).qkey = (k.queuetab i).qkey) ∧
        ready p k = (resched ((k.setState p .ready).setQueue t')).map fun k => (k, OK) := by
  obtain ⟨t', xs, ys, hi, hp', hk⟩ :=
    h.setReady.insertReady (IsProc.of_not_bad hgood) (by rw [setState_same])
  refine ⟨t', xs, ys, hp', hk, ?_⟩
  simp only [ready, hgood, if_false, hi, Option.bind_eq_bind, Option.bind_some]
  cases resched ((k.setState p .ready).setQueue t') <;> rfl

/-- **`ready` of a process in transit settles the state.** -/
theorem ready_settled (h : Placed strict k qs (some p)) (hgood : ¬ isbadpid k p)
    (hrecv : (k.proctab p).prstate ≠ .recv) (hd : k.defer.ndefers = 0) :
    ∃ k', ready p k = some (k', OK) ∧ Settled strict k' ∧ Quiet k k' := by
  obtain ⟨t', xs, ys, hp', -, he⟩ := ready_eq h hgood
  obtain ⟨k', hr, hset, -, hq⟩ := resched_settled hp' hd
  refine ⟨k', ?_, hset, ?_⟩
  · rw [he, hr]; rfl
  · have hfree : (k.proctab p).prstate ≠ .free := fun e => hgood (Or.inr (Or.inr e))
    exact (Quiet.setState k p .ready (by simp) hfree hrecv).trans
      ⟨hq.heap, hq.image, hq.prcount, hq.createNextpid, hq.rcreateNextpid, hq.proc,
      fun x => ⟨(hq.stays x).life, (hq.stays x).recv⟩, hq.ids⟩

/-- **While deferred, `ready` puts the process on the ready list and records the request.** -/
theorem ready_deferred (h : Placed strict k qs (some p)) (hgood : ¬ isbadpid k p)
    (hrecv : (k.proctab p).prstate ≠ .recv) (hne : p ≠ k.currpid)
      (hrun : (k.proctab k.currpid).prstate = .curr)
    (hd : k.defer.ndefers = 1) :
    ∃ k', ready p k = some (k', OK) ∧ Deferred strict k' ∧ Quiet k k' := by
  obtain ⟨t', xs, ys, hp', -, he⟩ := ready_eq h hgood
  have hres := resched_deferred (k := ((k.setState p .ready).setQueue t'))
    (by show k.defer.ndefers > 0; omega)
  refine ⟨((k.setState p .ready).setQueue t').setDefer ⟨k.defer.ndefers, TRUE⟩,
    by rw [he, hres]; rfl, ⟨⟨_, hp'.congr ⟨rfl, rfl, rfl, rfl, rfl, fun _ => rfl,
    fun _ => rfl, fun _ => rfl, fun _ => rfl⟩⟩, ?_, hd, fun _ ha => ?_⟩, ?_⟩
  · show ((k.setState p .ready).proctab k.currpid).prstate = .curr
    rw [setState_of_ne _ _ (Ne.symm hne)]
    exact hrun
  · have hone : TRUE = 0 := ha
    exact absurd hone (by decide)
  · have hfree : (k.proctab p).prstate ≠ .free := fun e => hgood (Or.inr (Or.inr e))
    have hq := Quiet.setState k p .ready (by simp) hfree hrecv
    exact ⟨hq.heap, hq.image, hq.prcount, hq.createNextpid, hq.rcreateNextpid, hq.proc,
      fun x => ⟨(hq.stays x).life, (hq.stays x).recv⟩, hq.ids⟩

/-- `ready` of a bad pid does nothing. -/
theorem ready_bad (h : isbadpid k p) : ready p k = some (k, SYSERR) := by simp [ready, h]

theorem isbadpid_empty (k : Kernel) : isbadpid k EMPTY := Or.inl (by decide)

/-! ## 5. Deferral -/

/-- **`DEFER_START` from a settled state.** -/
theorem deferStart_spec (h : Settled strict k) :
    ∃ k', reschedCntl DEFER_START k = some (k', OK) ∧ Deferred strict k' ∧ Quiet k k' ∧
      SameTables k k' := by
  have he : SameTables k (k.setDefer ⟨1, FALSE⟩) :=
    ⟨rfl, rfl, rfl, rfl, rfl, fun _ => rfl, fun _ => rfl, fun _ => rfl, fun _ => rfl⟩
  obtain ⟨qs, hp⟩ := h.placed
  refine ⟨(k.setDefer ⟨1, FALSE⟩), ?_, ⟨⟨qs, hp.congr he⟩, h.running, rfl,
    fun hs _ => (h.top hs).congr he⟩, ⟨rfl, rfl, rfl, rfl, rfl, fun _ => rfl, fun _ =>
      .of_prstate rfl, rfl, rfl, fun _ => rfl⟩, he⟩
  simp only [reschedCntl, if_true, h.open_]
  rfl

/-- **`DEFER_STOP` settles the state again**: the request recorded meanwhile is carried out. -/
theorem deferStop_spec (h : Deferred strict k) :
    ∃ k', reschedCntl DEFER_STOP k = some (k', OK) ∧ Settled strict k' ∧ Quiet k k' := by
  have hne : ¬ DEFER_STOP = DEFER_START := by decide
  have hnd : ¬ k.defer.ndefers ≤ 0 := by rw [h.once]; decide
  obtain ⟨qs, hp⟩ := h.placed
  have he : SameTables k (k.setDefer ⟨k.defer.ndefers - 1, k.defer.attempt⟩) :=
    ⟨rfl, rfl, rfl, rfl, rfl, fun _ => rfl, fun _ => rfl, fun _ => rfl, fun _ => rfl⟩
  have hzero : k.defer.ndefers - 1 = 0 := by rw [h.once]; rfl
  by_cases ha : k.defer.attempt = 0
  · refine ⟨(k.setDefer ⟨k.defer.ndefers - 1, k.defer.attempt⟩), ?_,
      ⟨⟨qs, hp.congr he⟩, h.running, hzero, fun hs => (h.top hs ha).congr he⟩,
      ⟨rfl, rfl, rfl, rfl, rfl, fun _ => rfl, fun _ => .of_prstate rfl, rfl, rfl, fun _ => rfl⟩⟩
    simp only [reschedCntl, hne, if_false, if_true, hnd, setDefer_defer, ha, ne_eq, not_true,
      and_false]
  · obtain ⟨k', hr, hset, -, hq⟩ := resched_settled (hp.congr he) hzero
    refine ⟨k', ?_, hset,
      ⟨hq.heap, hq.image, hq.prcount, hq.createNextpid, hq.rcreateNextpid, hq.proc,
      fun x => ⟨(hq.stays x).life, (hq.stays x).recv⟩, hq.ids⟩⟩
    simp only [reschedCntl, hne, if_false, if_true, hnd, setDefer_defer, hzero, ne_eq, ha,
      not_false_iff, and_self]
    rw [hzero] at hr
    rw [hr]
    rfl

/-! ## 6. What scheduling writes, whatever the state

No invariant is assumed here, so that these facts can be used in the middle of a routine. -/

/-- `k` with the variables that scheduling writes as they are in `k'`. -/
def Kernel.withSched (k k' : Kernel) : Kernel :=
  { k with
    proctab := k'.proctab, queuetab := k'.queuetab, defer := k'.defer, currpid := k'.currpid,
    preempt := k'.preempt, starved := k'.starved }

/-- The entries of the process table differ in `prstate` at most, and other variables only where
scheduling writes. -/
structure SchedOnly (k k' : Kernel) : Prop where
  rest : k' = k.withSched k'
  entries : ∀ x, { k'.proctab x with prstate := .free } = { k.proctab x with prstate := .free }

theorem SchedOnly.refl (k : Kernel) : SchedOnly k k := ⟨rfl, fun _ => rfl⟩

theorem SchedOnly.trans {k₁ k₂ k₃ : Kernel} (h : SchedOnly k₁ k₂) (h' : SchedOnly k₂ k₃) :
    SchedOnly k₁ k₃ := by
  refine ⟨?_, fun x => (h'.entries x).trans (h.entries x)⟩
  conv_lhs => rw [h'.rest, h.rest]
  rfl

theorem SchedOnly.image (h : SchedOnly k k') : k'.image = k.image := by
  rw [h.rest]
  rfl

theorem SchedOnly.heap (h : SchedOnly k k') : k'.heap = k.heap := by
  rw [h.rest]
  rfl

theorem SchedOnly.semtab (h : SchedOnly k k') : k'.semtab = k.semtab := by
  rw [h.rest]
  rfl

theorem SchedOnly.nextsem (h : SchedOnly k k') : k'.nextsem = k.nextsem := by
  rw [h.rest]
  rfl

theorem SchedOnly.queueids (h : SchedOnly k k') :
    k'.readylist = k.readylist ∧ k'.sleepq = k.sleepq := by
  rw [h.rest]
  exact ⟨rfl, rfl⟩

theorem SchedOnly.nextpid (h : SchedOnly k k') :
    k'.createNextpid = k.createNextpid ∧ k'.rcreateNextpid = k.rcreateNextpid := by
  rw [h.rest]
  exact ⟨rfl, rfl⟩

theorem setState_only (k : Kernel) (p : Int) (st : PrState) : SchedOnly k (k.setState p st) := by
  refine ⟨rfl, fun x => ?_⟩
  by_cases hx : x = p
  · subst hx; rw [setState_same]
  · rw [setState_of_ne k _ hx]

theorem dispatch_only (k : Kernel) : SchedOnly k (dispatch k) :=
  ⟨rfl, (setState_only k (dequeue k.readylist k.queuetab).2 .curr).entries⟩

theorem insert_only {key : Int} {r : Kernel × Int} (h : insert p q key k = some r) :
    SchedOnly k r.1 := by
  unfold insert at h
  split_ifs at h with h1
  · rw [← Option.some.inj h]; exact .refl k
  · obtain ⟨x, -, hx⟩ := Option.bind_eq_some_iff.mp h
    rw [← Option.some.inj hx]
    exact ⟨rfl, fun _ => rfl⟩

theorem resched_only (h : resched k = some k') : SchedOnly k k' := by
  unfold resched at h
  split_ifs at h with h1 h2 h3
  · rw [← Option.some.inj h]; exact ⟨rfl, fun _ => rfl⟩
  · rw [← Option.some.inj h]; exact .refl k
  · obtain ⟨x, hx, h⟩ := Option.bind_eq_some_iff.mp h
    rw [← Option.some.inj h]
    exact ((setState_only k k.currpid .ready).trans (insert_only hx)).trans (dispatch_only x.1)
  · rw [← Option.some.inj h]
    exact dispatch_only k

theorem ready_only {r : Kernel × Int} (h : ready p k = some r) : SchedOnly k r.1 := by
  unfold ready at h
  split_ifs at h with h1
  · rw [← Option.some.inj h]; exact .refl k
  · obtain ⟨x, hx, h⟩ := Option.bind_eq_some_iff.mp h
    obtain ⟨y, hy, h⟩ := Option.bind_eq_some_iff.mp h
    rw [← Option.some.inj h]
    exact ((setState_only k p .ready).trans (insert_only hx)).trans (resched_only hy)

theorem reschedCntl_only {d : Int} {r : Kernel × Int} (h : reschedCntl d k = some r) :
    SchedOnly k r.1 := by
  have hd : ∀ v, SchedOnly k (k.setDefer v) := fun v => ⟨rfl, fun _ => rfl⟩
  unfold reschedCntl at h
  split at h
  · rw [← Option.some.inj h]; exact hd _
  split_ifs at h with h1 h2
  · rw [← Option.some.inj h]; exact .refl k
  · dsimp only at h
    split_ifs at h with h3
    · obtain ⟨k₁, hr, h⟩ := Option.bind_eq_some_iff.mp h
      rw [← Option.some.inj h]
      exact (hd _).trans (resched_only hr)
    · rw [← Option.some.inj h]; exact hd _
  · rw [← Option.some.inj h]; exact .refl k

theorem unsleep_only (p : Int) (k : Kernel) : SchedOnly k (unsleep p k).1 := by
  unfold unsleep
  split_ifs <;> exact ⟨rfl, fun _ => rfl⟩

end Xinu
