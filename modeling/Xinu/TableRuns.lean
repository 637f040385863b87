/-
# The tables over whole runs

The step lemma of the system for the table invariant, and from it the invariant of every
reachable state.  Processes are made and ended here, so the count of processes joins the
invariant, and so does the one thing that is known about a process that killed itself: it is
free, and therefore never goes on with the rest of `kill`.

The invariant of the kernel between calls (`KernelInv`) is that every process is in its place and
that `prcount` counts them.  Calls fall into three kinds, and each kind has one argument: those
that only schedule keep the state settled, by the rules of `CallInv`; those that neither schedule
nor make nor end a process leave the tables alone (`Bland`); and `create`, `rcreate`, `kill` and
`chprio` each have a section here.
-/
import Xinu.CallInv
import Xinu.System

namespace Xinu

open LinkedPath

variable {strict : Prop} {k k' : Kernel} {qs : Int → List Int} {p q : Int}

/-! ## 1. Counting processes

The entries in use form a finite set, and `prcount` is its size.  A process made adds an entry
that was free, a process ended takes one out. -/

/-- The table entries in use. -/
def liveSet (k : Kernel) : Finset Nat :=
  (Finset.range NPROC.toNat).filter fun i => (k.proctab i).prstate ≠ .free

/-- `prcount` is the number of entries in use. -/
def Counted (k : Kernel) : Prop := k.prcount = (liveSet k).card

theorem mem_liveSet {i : Nat} : i ∈ liveSet k ↔ IsProc i ∧ (k.proctab i).prstate ≠ .free := by
  have : NPROC.toNat = 100 := rfl
  simp only [liveSet, Finset.mem_filter, Finset.mem_range, IsProc]
  constructor
  · rintro ⟨h1, h2⟩
    exact ⟨by omega, h2⟩
  · rintro ⟨h1, h2⟩
    exact ⟨by omega, h2⟩

theorem Counted.congr (h : Counted k) (hn : k'.prcount = k.prcount)
    (hl : ∀ p, (k'.proctab p).prstate = .free ↔ (k.proctab p).prstate = .free) : Counted k' := by
  have hset : liveSet k' = liveSet k := by
    ext i
    rw [mem_liveSet, mem_liveSet, ne_eq, hl]
  rw [Counted, hset, hn]
  exact h

/-- One entry more in use adds one to the set. -/
theorem liveSet_insert (hp : IsProc p) (hf : (k.proctab p).prstate = .free)
    (hf' : (k'.proctab p).prstate ≠ .free)
    (hl : ∀ x, x ≠ p → ((k'.proctab x).prstate = .free ↔ (k.proctab x).prstate = .free)) :
    (liveSet k').card = (liveSet k).card + 1 := by
  obtain ⟨i, rfl⟩ := Int.eq_ofNat_of_zero_le hp.1
  have hset : liveSet k' = Insert.insert i (liveSet k) := by
    ext j
    rw [Finset.mem_insert, mem_liveSet, mem_liveSet]
    by_cases hj : j = i
    · subst hj; simp [hp, hf']
    · have hj' : (j : Int) ≠ i := by exact_mod_cast hj
      simp [hj, hl _ hj']
  have hnew : i ∉ liveSet k := by rw [mem_liveSet]; simp [hf]
  rw [hset, Finset.card_insert_of_notMem hnew]

/-- One more process. -/
theorem Counted.made (h : Counted k) (hp : IsProc p) (hf : (k.proctab p).prstate = .free)
    (hn : k'.prcount = k.prcount + 1) (hf' : (k'.proctab p).prstate ≠ .free)
    (hl : ∀ x, x ≠ p → ((k'.proctab x).prstate = .free ↔ (k.proctab x).prstate = .free)) :
    Counted k' := by
  rw [Counted, liveSet_insert hp hf hf' hl, hn, h]
  push_cast
  rfl

/-- One process less. -/
theorem Counted.ended (h : Counted k) (hp : IsProc p) (hf : (k.proctab p).prstate ≠ .free)
    (hn : k'.prcount = k.prcount - 1) (hf' : (k'.proctab p).prstate = .free)
    (hl : ∀ x, x ≠ p → ((k'.proctab x).prstate = .free ↔ (k.proctab x).prstate = .free)) :
    Counted k' := by
  rw [Counted, liveSet_insert hp hf' hf fun x hx => (hl x hx).symm] at h
  rw [Counted, hn, h]
  push_cast
  omega

/-! ## 2. The invariant of the kernel between calls

`Bland` is the relation between two states that differ in messages, callbacks or memory only.  It
keeps the invariant, whatever the invariant says of the tables. -/

/-- What holds of the kernel between calls. -/
structure KernelInv (strict : Prop) (k : Kernel) : Prop where
  settled : Settled strict k
  counted : Counted k
  nextpid : 0 ≤ k.createNextpid ∧ 0 ≤ k.rcreateNextpid

/-- Changes that the tables do not show: messages, callbacks, memory. -/
structure Bland (k k' : Kernel) : Prop where
  same : SameTables k k'
  defer : k'.defer = k.defer
  prcount : k'.prcount = k.prcount
  createNextpid : k'.createNextpid = k.createNextpid
  rcreateNextpid : k'.rcreateNextpid = k.rcreateNextpid

theorem Bland.refl (k : Kernel) : Bland k k := ⟨SameTables.refl k, rfl, rfl, rfl, rfl⟩

theorem Bland.trans {k₁ k₂ k₃ : Kernel} (h : Bland k₁ k₂) (h' : Bland k₂ k₃) : Bland k₁ k₃ :=
  ⟨h.same.trans h'.same, h'.defer.trans h.defer, h'.prcount.trans h.prcount,
    h'.createNextpid.trans h.createNextpid, h'.rcreateNextpid.trans h.rcreateNextpid⟩

theorem Bland.setHeap (k : Kernel) (h : Heap) : Bland k (k.setHeap h) :=
  ⟨⟨rfl, rfl, rfl, rfl, rfl, fun _ => rfl, fun _ => rfl, fun _ => rfl, fun _ => rfl⟩, rfl, rfl,
    rfl, rfl⟩

theorem Bland.setProc (k : Kernel) (p : Int) {f : Procent → Procent}
    (hf : ∀ e, (f e).prstate = e.prstate ∧ (f e).prsem = e.prsem ∧ (f e).prprio = e.prprio) :
    Bland k (k.setProc p f) := ⟨SameTables.setProc k p hf, rfl, rfl, rfl, rfl⟩

theorem Bland.life (h : Bland k k') (p : Int) :
    (k'.proctab p).prstate = .free ↔ (k.proctab p).prstate = .free := by rw [h.same.prstate]

theorem KernelInv.bland (h : KernelInv strict k) (e : Bland k k') : KernelInv strict k' :=
  ⟨h.settled.congr e.same (congrArg Defer.ndefers e.defer), h.counted.congr e.prcount e.life,
    by rw [e.createNextpid, e.rcreateNextpid]; exact h.nextpid⟩

theorem KernelInv.keeps (h : KernelInv strict k) (e : Keeps strict k k') : KernelInv strict k' :=
  ⟨e.settled, h.counted.congr e.quiet.prcount fun x => (e.quiet.stays x).life,
    by rw [e.quiet.createNextpid, e.quiet.rcreateNextpid]; exact h.nextpid⟩

/-! ## 3. Calls the tables do not show

The allocator, the message calls and the registration of callbacks.  `send` is among them: the
linked routine stores the message and does not wake the recipient. -/

theorem getmem_bland {n : Nat} {r : Kernel × Nat} (h : k.getmem n = some r) : Bland k r.1 := by
  obtain ⟨x, -, hx⟩ := Option.bind_eq_some_iff.mp h
  rw [← Option.some.inj hx]
  exact Bland.setHeap k _

theorem freemem_bland {a n : Nat} {r : Kernel × Int} (h : k.freemem a n = some r) :
    Bland k r.1 := by
  obtain ⟨x, -, hx⟩ := Option.bind_eq_some_iff.mp h
  rw [← Option.some.inj hx]
  exact Bland.setHeap k _

theorem getstk_bland {n : Nat} {r : Kernel × Nat} (h : k.getstk n = some r) : Bland k r.1 := by
  obtain ⟨x, -, hx⟩ := Option.bind_eq_some_iff.mp h
  rw [← Option.some.inj hx]
  exact Bland.setHeap k _

theorem freestk_bland {a n : Nat} {r : Kernel × Int} (h : k.freestk a n = some r) :
    Bland k r.1 := by
  obtain ⟨x, -, hx⟩ := Option.bind_eq_some_iff.mp h
  rw [← Option.some.inj hx]
  exact Bland.setHeap k _

/-- **`send` changes no state, no queue and no priority.** -/
theorem send_bland {pid : Int} {msg : Nat} {r : Kernel × Int} (h : send pid msg k = some r) :
    Bland k r.1 := by
  unfold send at h
  split_ifs at h with h1 h2
  · rw [← Option.some.inj h]; exact Bland.refl k
  · rw [← Option.some.inj h]; exact Bland.refl k
  · have hb : Bland k (k.setProc pid fun p => { p with prtmpvalid := 1, prtmpbuf := msg }) :=
      Bland.setProc k pid fun _ => ⟨rfl, rfl, rfl⟩
    simp only at h
    split_ifs at h with h3
    · obtain ⟨x, -, hx⟩ := Option.bind_eq_some_iff.mp h
      rw [← Option.some.inj hx]
      exact hb.trans (Bland.setHeap _ _)
    · rw [← Option.some.inj h]; exact hb

theorem receiveTail_bland (k : Kernel) : Bland k (receiveTail k).1 := by
  unfold receiveTail
  dsimp only
  exact Bland.setProc k _ fun _ => ⟨rfl, rfl, rfl⟩

theorem recvtimeTail_bland (k : Kernel) : Bland k (recvtimeTail k).1 := by
  unfold recvtimeTail
  split_ifs
  · dsimp only
    exact Bland.setProc k _ fun _ => ⟨rfl, rfl, rfl⟩
  · exact Bland.refl k

theorem recvclr_bland (k : Kernel) : Bland k (recvclr k).1 := by
  unfold recvclr
  split_ifs
  · dsimp only
    exact Bland.setProc k _ fun _ => ⟨rfl, rfl, rfl⟩
  · exact Bland.refl k

theorem cbregister_bland (fp mbufptr : Nat) (k : Kernel) : Bland k (cbregister fp mbufptr k).1 := by
  unfold cbregister
  split_ifs
  · exact Bland.refl k
  · exact Bland.refl k
  · exact Bland.refl k
  · dsimp only
    exact Bland.setProc k _ fun _ => ⟨rfl, rfl, rfl⟩

theorem cbunregister_bland (k : Kernel) : Bland k (cbunregister k).1 := by
  unfold cbunregister
  split_ifs
  · exact Bland.refl k
  · dsimp only
    exact Bland.setProc k _ fun _ => ⟨rfl, rfl, rfl⟩

theorem usercb_bland (k : Kernel) : Bland k (usercb k) := by
  unfold usercb
  split_ifs
  · exact Bland.setProc k _ fun _ => ⟨rfl, rfl, rfl⟩
  · exact Bland.refl k

/-! ## 4. `chprio`

`chprio` stores a priority and leaves the ready list as it is.  So the order of the list is lost
when the target is ready and its neighbours no longer fit, and the processor is held by the wrong
process when the target is the current one.  `ChprioOk` is the condition under which neither
happens. -/

/-- A change of priority that leaves the order of scheduling intact: it is refused, it changes
nothing, its target is neither ready nor running, or its target is running and keeps the highest
priority. -/
def ChprioOk (pid : Int) (newprio : Pri16) (k : Kernel) : Prop :=
  isbadpid k pid ∨ newprio = (k.proctab pid).prprio ∨
    ((k.proctab pid).prstate ≠ .ready ∧ (k.proctab pid).prstate ≠ .curr) ∨
    ((k.proctab pid).prstate = .curr ∧
      ∀ x, IsProc x → (k.proctab x).prstate = .ready → (k.proctab x).prprio.val ≤ newprio.val)

theorem chprio_prstate (pid : Int) (newprio : Pri16) (k : Kernel) (x : Int) :
    ((chprio pid newprio k).1.proctab x).prstate = (k.proctab x).prstate := by
  unfold chprio
  split_ifs
  · rfl
  · by_cases hx : x = pid
    · subst hx; rw [setProc_same]
    · rw [setProc_of_ne k _ hx]

theorem chprio_keeps (h : KernelInv strict k) {pid : Int} {newprio : Pri16}
    (hok : strict → ChprioOk pid newprio k) : KernelInv strict (chprio pid newprio k).1 := by
  unfold chprio
  split_ifs with hbad
  · exact h
  obtain ⟨qs, hp⟩ := h.settled.placed
  show KernelInv strict (k.setProc pid fun p => { p with prprio := newprio })
  set k₁ := k.setProc pid fun p => { p with prprio := newprio } with hk₁
  have hst : ∀ x, (k₁.proctab x).prstate = (k.proctab x).prstate := by
    intro x
    have := chprio_prstate pid newprio k x
    rwa [chprio, if_neg hbad] at this
  have hsem : ∀ x, (k₁.proctab x).prsem = (k.proctab x).prsem := by
    intro x
    by_cases hx : x = pid
    · subst hx; rw [hk₁, setProc_same]
    · rw [hk₁, setProc_of_ne k _ hx]
  have hpr : ∀ x, x ≠ pid → (k₁.proctab x).prprio = (k.proctab x).prprio := by
    intro x hx
    rw [hk₁, setProc_of_ne k _ hx]
  have hpp : (k₁.proctab pid).prprio = newprio := by rw [hk₁, setProc_same]
  have hhome : ∀ x, home k₁ x = home k x := by
    intro x
    simp only [home, hst, hsem]
    rfl
  -- what changes on the ready list: nothing, unless the target is on it
  have hsame : strict → (k.proctab pid).prstate = .ready → newprio = (k.proctab pid).prprio := by
    intro hs hr
    rcases hok hs with h1 | h1 | h1 | h1
    · exact absurd h1 hbad
    · exact h1
    · exact absurd hr h1.1
    · rw [hr] at h1; exact absurd h1.1 (by simp)
  have hready : strict → ∀ x, (k.proctab x).prstate = .ready →
      (k₁.proctab x).prprio = (k.proctab x).prprio := by
    intro hs x hx
    by_cases hxp : x = pid
    · subst hxp; rw [hpp]; exact hsame hs hx
    · exact hpr x hxp
  have hplaced : Placed strict k₁ qs none := {
    linked := hp.linked
    placed := fun x q hx hq ho => by rw [hhome]; exact hp.placed x q hx hq ho
    absent := hp.absent
    curr := fun x hx hc => hp.curr x hx (by rw [← hst]; exact hc)
    currProc := hp.currProc
    null := by rw [hst]; exact hp.null
    queues := ⟨hp.queues.ready, hp.queues.sleep, hp.queues.sem⟩
    waits := fun x hx hw => by rw [hsem]; exact hp.waits x hx (by rw [← hst]; exact hw)
    fed := hp.fed
    ordered := fun hs => ⟨fun x hx => by
        have hxp := hp.linked.procs _ hp.queues.ready x hx
        rw [hready hs x ((hp.mem_ready hxp).mp hx)]
        exact (hp.ordered hs).keys x hx,
      (hp.ordered hs).sorted⟩ }
  refine ⟨⟨⟨qs, hplaced⟩, (hst _).trans h.settled.running, h.settled.open_, ?_⟩,
    h.counted.congr rfl fun x => by rw [hst], h.nextpid⟩
  intro hs x hx hxr
  rw [hst] at hxr
  rw [hready hs x hxr]
  have htop := h.settled.top hs x hx hxr
  show _ ≤ (k₁.proctab k.currpid).prprio.val
  by_cases hc : k.currpid = pid
  · rw [hc, hpp]
    rcases hok hs with h1 | h1 | h1 | h1
    · exact absurd h1 hbad
    · rw [h1, ← hc]; exact htop
    · exact absurd (hc ▸ h.settled.running) h1.2
    · exact h1.2 x hx hxr
  · rw [hpr _ hc]; exact htop

/-! ## 5. `create` and `rcreate`

Both search for a free entry from `nextpid` on, each with a variable of its own, and both make a
suspended process, or none when the table or the memory is full. -/

theorem newpidLoop_spec (tab : Int → Procent) (fuel : Nat) {n : Int} (hn : 0 ≤ n) :
    0 ≤ (newpidLoop tab fuel n).2 ∧ ((newpidLoop tab fuel n).1 ≠ SYSERR →
      IsProc (newpidLoop tab fuel n).1 ∧ (tab (newpidLoop tab fuel n).1).prstate = .free) := by
  induction fuel generalizing n with
  | zero => exact ⟨hn, fun h => absurd rfl h⟩
  | succ fuel ih =>
    have h0 : 0 ≤ n.tmod NPROC := Int.tmod_nonneg NPROC hn
    have h1 : n.tmod NPROC < NPROC := Int.tmod_lt_of_pos n (by decide)
    unfold newpidLoop
    simp only
    split_ifs with hf
    · exact ⟨by omega, fun _ => ⟨⟨h0, h1⟩, hf⟩⟩
    · exact ih (by omega)

/-- **`makeProc` makes one suspended process, or none.** -/
theorem makeProc_spec {fill : Int → Kernel → Kernel} {f n : Nat} {prio : Pri16}
    {nm : Nat → UInt8} {as : List Nat} {pid : Int} {r : Kernel × Int}
    (h : KernelInv strict k) (hfill : ∀ k, Bland k (fill pid k))
    (hpid : pid ≠ SYSERR → IsProc pid ∧ (k.proctab pid).prstate = .free)
    (hm : makeProc fill f n prio nm as pid k = some r) :
    KernelInv strict r.1 ∧ (r.2 ≠ SYSERR → ¬ isbadpid r.1 r.2 ∧
      (r.1.proctab r.2).prstate = .susp ∧ r.2 ≠ NULLPROC) ∧
      ∀ x, (r.2 ≠ SYSERR → x ≠ r.2) → Stays k r.1 x := by
  rcases makeProc_cases hm with rfl | ⟨k₁, hg, rfl⟩ | ⟨h0, k₁, saddr, hg, -, rfl⟩
  · exact ⟨h, fun e => absurd rfl e, fun _ _ => .of_prstate rfl⟩
  · have hb₁ : Bland k k₁ := getstk_bland hg
    exact ⟨h.bland hb₁, fun e => absurd rfl e, fun x _ => .of_prstate (hb₁.same.prstate x)⟩
  -- a stack was found
  have hb₁ : Bland k k₁ := getstk_bland hg
  obtain ⟨hp, hfree⟩ := hpid h0
  have hi₁ := h.bland hb₁
  obtain ⟨qs, hpl⟩ := hi₁.settled.placed
  have hfree₁ : (k₁.proctab pid).prstate = .free := (hb₁.life pid).mpr hfree
  have hnull : pid ≠ NULLPROC := hpl.ne_null (by rw [hfree₁]; simp) (by rw [hfree₁]; simp)
  set k₂ : Kernel := { k₁ with prcount := k₁.prcount + 1 } with hk₂
  have he₂ : SameTables k₁ k₂ :=
    ⟨rfl, rfl, rfl, rfl, rfl, fun _ => rfl, fun _ => rfl, fun _ => rfl, fun _ => rfl⟩
  set k₃ := k₂.setProc pid (initProc saddr n prio nm k₂.currpid) with hk₃
  have hst₃ : (k₃.proctab pid).prstate = .susp := by rw [hk₃, setProc_same]; rfl
  have hpl₃ : Placed strict k₃ qs none := by
    refine (((hpl.congr he₂).depart hp (by simp [home, hk₂, hfree₁])).assign
      (f := initProc saddr n prio nm k₂.currpid) (by simp [initProc]) (fun e => absurd e hnull)
      (by simp [initProc])).arrive ?_
    simp [home, setProc_same, initProc]
  have hne : k₁.currpid ≠ pid := by
    intro e
    have := hi₁.settled.running
    rw [e, hfree₁] at this
    simp at this
  have hother : ∀ x, x ≠ pid → (k₃.proctab x).prstate = (k₁.proctab x).prstate ∧
      (k₃.proctab x).prprio = (k₁.proctab x).prprio := by
    intro x hx
    rw [hk₃, setProc_of_ne k₂ _ hx]
    exact ⟨rfl, rfl⟩
  have hi₃ : KernelInv strict k₃ := by
    refine ⟨⟨⟨qs, hpl₃⟩, ?_, hi₁.settled.open_, fun hs x hx hr => ?_⟩, ?_, hi₁.nextpid⟩
    · exact (hother _ hne).1.trans hi₁.settled.running
    · have hx' : x ≠ pid := by
        rintro rfl
        rw [hst₃] at hr
        simp at hr
      rw [(hother x hx').2, show k₃.currpid = k₁.currpid from rfl, (hother _ hne).2]
      exact hi₁.settled.top hs x hx (by rw [← (hother x hx').1]; exact hr)
    · refine hi₁.counted.made hp hfree₁ rfl (by rw [hst₃]; simp) fun x hx => ?_
      rw [(hother x hx).1]
  -- the rest writes memory and fields the tables do not show
  have hb : Bland k₃ (((fill pid k₃).setHeap { (fill pid k₃).heap with
      mem := (buildStack saddr f (fill pid k₃).image.userret as (fill pid k₃).heap.mem).1 }).setProc
      pid fun p => { p with prstkptr :=
        (buildStack saddr f (fill pid k₃).image.userret as (fill pid k₃).heap.mem).2 }) :=
    ((hfill k₃).trans (Bland.setHeap _ _)).trans (Bland.setProc _ _ fun _ => ⟨rfl, rfl, rfl⟩)
  refine ⟨hi₃.bland hb, fun _ => ⟨?_, (hb.same.prstate pid).trans hst₃, hnull⟩, fun x hx => ?_⟩
  · rintro (h2 | h2 | h2)
    · exact absurd hp.1 (by omega)
    · exact absurd hp.2 (by omega)
    · have := (hb.life pid).mp h2
      rw [hst₃] at this
      simp at this
  · exact .of_prstate ((hb.same.prstate x).trans ((hother x (hx h0)).1.trans
      (hb₁.same.prstate x)))

theorem createFill_bland (pid : Int) (k : Kernel) : Bland k (createFill pid k) :=
  (Bland.setHeap k _).trans (Bland.setProc _ _ fun _ => ⟨rfl, rfl, rfl⟩)

/-- Storing `nextpid` back. -/
theorem KernelInv.setCreateNextpid (h : KernelInv strict k) {n : Int} (hn : 0 ≤ n) :
    KernelInv strict { k with createNextpid := n } :=
  ⟨h.settled.congr ⟨rfl, rfl, rfl, rfl, rfl, fun _ => rfl, fun _ => rfl, fun _ => rfl,
    fun _ => rfl⟩ rfl, h.counted, hn, h.nextpid.2⟩

theorem KernelInv.setRcreateNextpid (h : KernelInv strict k) {n : Int} (hn : 0 ≤ n) :
    KernelInv strict { k with rcreateNextpid := n } :=
  ⟨h.settled.congr ⟨rfl, rfl, rfl, rfl, rfl, fun _ => rfl, fun _ => rfl, fun _ => rfl,
    fun _ => rfl⟩ rfl, h.counted, h.nextpid.1, hn⟩

/-- A pid that `makeProc` returns is the one it was given. -/
theorem makeProc_pid {fill : Int → Kernel → Kernel} {f n : Nat} {prio : Pri16}
    {nm : Nat → UInt8} {as : List Nat} {pid : Int} {r : Kernel × Int}
    (hm : makeProc fill f n prio nm as pid k = some r) (hr : r.2 ≠ SYSERR) :
    pid ≠ SYSERR ∧ r.2 = pid := by
  rcases makeProc_cases hm with rfl | ⟨k₁, -, rfl⟩ | ⟨h0, k₁, saddr, -, -, rfl⟩
  · exact absurd rfl hr
  · exact absurd rfl hr
  · exact ⟨h0, rfl⟩

theorem create_spec {f n : Nat} {prio : Pri16} {nm : Nat → UInt8} {as : List Nat}
    {r : Kernel × Int} (h : KernelInv strict k) (hc : create f n prio nm as k = some r) :
    KernelInv strict r.1 ∧ (r.2 ≠ SYSERR → (k.proctab r.2).prstate = .free) ∧
      ∀ x, (r.2 ≠ SYSERR → x ≠ r.2) → Stays k r.1 x := by
  unfold create at hc
  split_ifs at hc with h1
  · rw [← Option.some.inj hc]
    exact ⟨h, fun e => absurd rfl e, fun _ _ => .of_prstate rfl⟩
  · have hn := newpidLoop_spec k.proctab NPROC.toNat h.nextpid.1
    have hm := makeProc_spec (h.setCreateNextpid hn.1) (createFill_bland _) hn.2 hc
    refine ⟨hm.1, fun hr => ?_, fun x hx => ⟨(hm.2.2 x hx).life, (hm.2.2 x hx).recv⟩⟩
    obtain ⟨h0, he⟩ := makeProc_pid hc hr
    rw [he]
    exact (hn.2 h0).2

theorem rcreate_spec {f n : Nat} {prio : Pri16} {nm : Nat → UInt8} {as : List Nat}
    {r : Kernel × Int} (h : KernelInv strict k) (hc : rcreate f n prio nm as k = some r) :
    KernelInv strict r.1 ∧ (r.2 ≠ SYSERR → (k.proctab r.2).prstate = .free) ∧
      ∀ x, (r.2 ≠ SYSERR → x ≠ r.2) → Stays k r.1 x := by
  unfold rcreate at hc
  split_ifs at hc with h1
  · rw [← Option.some.inj hc]
    exact ⟨h, fun e => absurd rfl e, fun _ _ => .of_prstate rfl⟩
  have hn := newpidLoop_spec k.proctab NPROC.toNat h.nextpid.2
  obtain ⟨⟨k₁, pid⟩, hm, hc⟩ := Option.bind_eq_some_iff.mp hc
  have hs := makeProc_spec (h.setRcreateNextpid hn.1) (fun k => Bland.refl k) hn.2 hm
  have hstays : ∀ x, (pid ≠ SYSERR → x ≠ pid) → Stays k k₁ x := fun x hx =>
    ⟨(hs.2.2 x hx).life, (hs.2.2 x hx).recv⟩
  simp only at hc hs
  split_ifs at hc with h2
  · rw [← Option.some.inj hc]
    exact ⟨hs.1, fun e => absurd rfl e, fun x _ => hstays x fun hne => absurd h2 hne⟩
  · obtain ⟨hgood, hsusp, -⟩ := hs.2.1 h2
    obtain ⟨qs, hpl⟩ := hs.1.settled.placed
    obtain ⟨k₂, hr, hset, hq⟩ := ready_settled (hpl.depart (IsProc.of_not_bad hgood)
      (by simp [home, hsusp])) hgood (by rw [hsusp]; simp) hs.1.settled.open_
    simp only [hr, Option.bind_eq_bind, Option.bind_some, Option.pure_def,
      Option.some.injEq] at hc
    rw [← hc]
    obtain ⟨h0, he⟩ := makeProc_pid hm h2
    simp only at he
    subst he
    exact ⟨hs.1.keeps ⟨hset, hq⟩, fun _ => (hn.2 h0).2, fun x hx =>
      (hstays x hx).trans (hq.stays x)⟩

/-! ## 6. `kill`

`kill` closes devices, notifies and frees the stack before it looks at the state of its victim;
that part shows in no table.  The `switch` takes the victim off the queue it is on, and has one
case for each state.  A process that kills itself does not return from `resched`. -/

/-- What the last part of `kill` does: the victim is free, nobody else is made or ended. -/
structure Killed (strict : Prop) (pid : Int) (k k' : Kernel) : Prop where
  settled : Settled strict k'
  heap : k'.heap = k.heap
  image : k'.image = k.image
  prcount : k'.prcount = k.prcount
  nextpid : k'.createNextpid = k.createNextpid ∧ k'.rcreateNextpid = k.rcreateNextpid
  proc : ∀ p, { k'.proctab p with prstate := .free, prsem := 0 } =
    { k.proctab p with prstate := .free, prsem := 0 }
  free : (k'.proctab pid).prstate = .free
  others : ∀ x, x ≠ pid → Stays k k' x

/-- A process in transit that is not the current one becomes free. -/
theorem Placed.killed (h : Placed strict k qs (some p))
    (hrun : (k.proctab k.currpid).prstate = .curr)
    (hd : k.defer.ndefers = 0) (htop : strict → Top k) (hnull : p ≠ NULLPROC)
    (hne : p ≠ k.currpid) : Settled strict (k.setState p .free) where
  placed := ⟨qs, (h.assign (f := fun e => { e with prstate := .free }) (by simp)
    (fun e => absurd e hnull) (by simp)).arrive (by simp [home, setProc_same])⟩
  running := (congrArg Procent.prstate (setState_of_ne k .free (Ne.symm hne))).trans hrun
  open_ := hd
  top := fun hs => (htop hs).mono rfl
    (fun x => by
      by_cases hx : x = p
      · subst hx; rw [setState_same]
      · rw [setState_of_ne k _ hx])
    (fun x hx => by
      rw [setState_prstate] at hx
      split_ifs at hx
      exact hx)

/-- Making an entry free. -/
theorem free_proc (k : Kernel) (p x : Int) :
    { (k.setState p .free).proctab x with prstate := .free, prsem := 0 } =
      { k.proctab x with prstate := PrState.free, prsem := 0 } := by
  by_cases hx : x = p
  · subst hx; rw [setState_same]
  · rw [setState_of_ne k _ hx]

theorem free_others (k : Kernel) (p : Int) {x : Int} (hx : x ≠ p) :
    Stays k (k.setState p .free) x := .of_prstate (by rw [setState_of_ne k _ hx])

/-- Freeing the entry of a process that is off its queue. -/
theorem Killed.of_setState {k₀ : Kernel} {pid : Int} (h : Settled strict (k₀.setState pid .free))
    (hp : k₀.proctab = k.proctab) (hh : k₀.heap = k.heap ∧ k₀.image = k.image)
    (hn : k₀.prcount = k.prcount ∧ k₀.createNextpid = k.createNextpid ∧
      k₀.rcreateNextpid = k.rcreateNextpid) : Killed strict pid k (k₀.setState pid .free) where
  settled := h
  heap := hh.1
  image := hh.2
  prcount := hn.1
  nextpid := hn.2
  proc := fun x => by rw [free_proc, hp]
  free := by rw [setState_same]
  others := fun x hx => .of_prstate (by rw [setState_of_ne k₀ _ hx, hp])

/-- **The `switch` of `kill`**, one case per state of the victim. -/
theorem killSwitch_spec (h : Settled strict k) {pid : Int} (hgood : ¬ isbadpid k pid)
    (hnull : pid ≠ NULLPROC) {r : Kernel × Cont} (hk : killSwitch pid k = some r) :
    Killed strict pid k r.1 ∧ (r.2 = .kill pid ∧ pid = k.currpid ∨ ∃ v, r.2 = .ret v) := by
  have hp := IsProc.of_not_bad hgood
  obtain ⟨qs, hpl⟩ := h.placed
  have hcur : ∀ st, st ≠ PrState.curr → (k.proctab pid).prstate = st → pid ≠ k.currpid := by
    rintro st hst hs rfl
    exact hst (hs.symm.trans h.running)
  unfold killSwitch at hk
  split at hk
  case h_1 hs =>
    -- the caller itself
    obtain rfl := hpl.curr pid hp hs
    have hb : Placed strict (k.setState k.currpid .free) qs none :=
      ((hpl.depart hp (by simp [home, hs])).assign (f := fun e => { e with prstate := .free })
        (by simp) (fun e => absurd e hnull) (by simp)).arrive (by simp [home, setProc_same])
    obtain ⟨k', hr, hset, -, hq⟩ := resched_settled hb h.open_
    simp only [hr, Option.bind_eq_bind, Option.bind_some, Option.pure_def,
      Option.some.injEq] at hk
    rw [← hk]
    have hf : ((k.setState k.currpid .free).proctab k.currpid).prstate = .free := by
      rw [setState_same]
    exact ⟨⟨hset, hq.heap, hq.image, hq.prcount, ⟨hq.createNextpid, hq.rcreateNextpid⟩,
      fun x => (hq.proc x).trans (free_proc k _ x), ((hq.stays _).life).mpr hf,
      fun x hx => (free_others k _ hx).trans (hq.stays x)⟩, Or.inl ⟨rfl, rfl⟩⟩
  case h_4 hs =>
    -- waiting for a semaphore
    rw [← Option.some.inj hk]
    have he : SameTables k (k.setSem (k.proctab pid).prsem fun s =>
        { s with scount := int32 (s.scount + 1) }) := SameTables.setSem k _ fun _ => rfl
    have h₁ := h.congr he rfl
    obtain ⟨qs₁, hpl₁⟩ := h₁.placed
    have hsem := hpl₁.queues.sem _ (hpl₁.waits pid hp hs)
    obtain ⟨_, _, -, hg⟩ := hpl₁.getitem hp hsem.1 (home_of_wait hs)
    exact ⟨.of_setState (hg.killed h₁.running h₁.open_ h₁.top hnull (hcur _ (by simp) hs)) rfl
      ⟨rfl, rfl⟩ ⟨rfl, rfl, rfl⟩, Or.inr ⟨OK, rfl⟩⟩
  case h_5 hs =>
    -- ready
    rw [← Option.some.inj hk]
    exact ⟨.of_setState (unready_spec h hp hnull hs (Or.inr rfl)) rfl ⟨rfl, rfl⟩ ⟨rfl, rfl, rfl⟩,
      Or.inr ⟨OK, rfl⟩⟩
  case h_6 hs1 hs2 hs3 hs4 hs5 =>
    -- suspended or receiving: on no queue
    rw [← Option.some.inj hk]
    have hh : home k pid = none := by
      unfold home
      split <;> simp_all
    exact ⟨.of_setState ((hpl.depart hp hh).killed h.running h.open_ h.top hnull
      (fun e => hs1 (e ▸ h.running))) rfl ⟨rfl, rfl⟩ ⟨rfl, rfl, rfl⟩, Or.inr ⟨OK, rfl⟩⟩
  all_goals
    -- asleep, with or without a message to wait for
    rename_i hs
    rw [← Option.some.inj hk]
    obtain ⟨t', _, _, hu, -, hout, -⟩ := unsleep_spec hpl hgood (by simp [hs])
    simp only [killTail, hu]
    exact ⟨.of_setState (hout.killed h.running h.open_ h.top hnull (hcur _ (by simp) hs)) rfl
      ⟨rfl, rfl⟩ ⟨rfl, rfl, rfl⟩, Or.inr ⟨OK, rfl⟩⟩

/-- The part of `kill` before the `switch` does not show in the tables. -/
theorem kill_prefix (h : KernelInv strict k) {pid : Int} {k₁ k₂ : Kernel} {v₁ v₂ : Int}
    {r : Kernel × Cont} (hgood : ¬ isbadpid k pid) (hnull : pid ≠ NULLPROC)
    (hs : send (k.proctab pid).prparent pid.toNat { k with prcount := k.prcount - 1 } =
      some (k₁, v₁))
    (hf : k₁.freestk (k₁.proctab pid).prstkbase (k₁.proctab pid).prstklen = some (k₂, v₂))
    (hk : killSwitch pid k₂ = some r) : SameTables k k₂ ∧ Killed strict pid k₂ r.1 ∧
      (r.2 = .kill pid ∧ pid = k.currpid ∨ ∃ v, r.2 = .ret v) ∧
      k₂.prcount = k.prcount - 1 ∧ k₂.createNextpid = k.createNextpid ∧
      k₂.rcreateNextpid = k.rcreateNextpid := by
  have he₀ : SameTables k { k with prcount := k.prcount - 1 } :=
    ⟨rfl, rfl, rfl, rfl, rfl, fun _ => rfl, fun _ => rfl, fun _ => rfl, fun _ => rfl⟩
  have hb₁ : Bland _ k₁ := send_bland hs
  have hb₂ : Bland k₁ k₂ := freestk_bland hf
  have he : SameTables k k₂ := (he₀.trans hb₁.same).trans hb₂.same
  have hset₂ : Settled strict k₂ := h.settled.congr he
    ((congrArg Defer.ndefers hb₂.defer).trans (congrArg Defer.ndefers hb₁.defer))
  have hgood₂ : ¬ isbadpid k₂ pid := by
    simpa only [isbadpid, he.prstate] using hgood
  obtain ⟨hkilled, hcont⟩ := killSwitch_spec hset₂ hgood₂ hnull hk
  exact ⟨he, hkilled, he.currpid ▸ hcont, hb₂.prcount.trans hb₁.prcount,
    hb₂.createNextpid.trans hb₁.createNextpid, hb₂.rcreateNextpid.trans hb₁.rcreateNextpid⟩

/-- **`kill` ends one process, or none.** -/
theorem kill_spec (h : KernelInv strict k) {pid : Int} {r : Kernel × Cont}
    (hk : kill pid k = some r) : KernelInv strict r.1 ∧
      (∀ x, x ≠ pid → Stays k r.1 x) ∧
      ((r.1.proctab pid).prstate = .free ∨ Stays k r.1 pid) ∧
      ((r.2 = .kill pid ∧ pid = k.currpid ∧ (r.1.proctab pid).prstate = .free) ∨
        ∃ v, r.2 = .ret v) := by
  rcases kill_cases hk with ⟨-, rfl⟩ | ⟨hgood, hnull, k₁, v₁, k₂, v₂, hs, hf, hk⟩
  · exact ⟨h, fun _ _ => .of_prstate rfl, Or.inr (.of_prstate rfl), Or.inr ⟨SYSERR, rfl⟩⟩
  obtain ⟨he, hkilled, hcont, hn, hnext⟩ := kill_prefix h hgood hnull hs hf hk
  have hnf : (k.proctab pid).prstate ≠ .free := fun e => hgood (Or.inr (Or.inr e))
  have hothers : ∀ x, x ≠ pid → Stays k r.1 x := fun x hx =>
    (Stays.of_prstate (he.prstate x)).trans (hkilled.others x hx)
  refine ⟨⟨hkilled.settled, h.counted.ended (IsProc.of_not_bad hgood) hnf ?_ hkilled.free
    fun x hx => (hothers x hx).life, ?_⟩, hothers, Or.inl hkilled.free, ?_⟩
  · rw [hkilled.prcount, hn]
  · rw [hkilled.nextpid.1, hkilled.nextpid.2, hnext.1, hnext.2]
    exact h.nextpid
  · rcases hcont with ⟨h1, h2⟩ | hv
    · exact Or.inl ⟨h1, h2, hkilled.free⟩
    · exact Or.inr hv

/-! ## 7. One step of the system

The invariant of the system adds to that of the kernel what is left of the calls processes are in:
a process that has ended itself has the rest of `kill` to do and is free, so it never goes on.
The step lemma sorts the calls into the three kinds. -/

/-- What holds of the system in every state it reaches. -/
structure SysInv (strict : Prop) (s : Sys) : Prop where
  kernel : KernelInv strict s.k
  ended : ∀ p x, s.cont p = .kill x → (s.k.proctab p).prstate = .free

/-- A step that does not change a priority behind the back of the ready list. -/
def KeepsOrder (s : Sys) : Event → Prop
  | .call (.chprio pid newprio) => ChprioOk pid newprio s.k
  | _ => True

/-- The calls that only schedule. -/
def Call.schedules : Call → Bool
  | .resume _ | .suspend _ | .wait _ | .signal _ | .signaln _ _ | .semcreate _ | .semdelete _ =>
      true
  | .semreset _ _ | .sleepms _ | .sleep _ | .yield | .receive | .recvtime _ | .getprio _ => true
  | .getpid => true
  | _ => false

/-- The calls that neither schedule nor make, end or reorder processes. -/
def Call.isBland : Call → Bool
  | .recvclr | .send _ _ | .cbregister _ _ | .cbunregister | .getmem _ | .freemem _ _ => true
  | .getstk _ | .freestk _ _ => true
  | _ => false

theorem suspend_cont {pid : Int} {r : Kernel × Cont} (h : suspend pid k = some r) :
    r.2 = .suspend pid ∨ r.2 = .ret SYSERR := by
  unfold suspend at h
  split_ifs at h
  · rw [← Option.some.inj h]; exact Or.inr rfl
  · rw [← Option.some.inj h]; exact Or.inr rfl
  · rw [← Option.some.inj h]; exact Or.inl rfl
  · obtain ⟨y, -, hy⟩ := Option.bind_eq_some_iff.mp h
    rw [← Option.some.inj hy]; exact Or.inl rfl

theorem receive_cont {r : Kernel × Cont} (h : receive k = some r) : r.2 = .receive := by
  unfold receive at h
  split_ifs at h
  · obtain ⟨y, -, hy⟩ := Option.bind_eq_some_iff.mp h
    rw [← Option.some.inj hy]
  · rw [← Option.some.inj h]

theorem recvtime_cont {w : Int} {r : Kernel × Cont} (h : recvtime w k = some r) :
    r.2 = .recvtime ∨ r.2 = .ret SYSERR := by
  unfold recvtime at h
  split_ifs at h
  · rw [← Option.some.inj h]; exact Or.inr rfl
  · obtain ⟨y, -, hy⟩ := Option.bind_eq_some_iff.mp h
    simp only at hy
    split_ifs at hy
    · rw [← Option.some.inj hy]; exact Or.inr rfl
    · obtain ⟨z, -, hz⟩ := Option.bind_eq_some_iff.mp hy
      rw [← Option.some.inj hz]; exact Or.inl rfl
  · rw [← Option.some.inj h]; exact Or.inl rfl

/-- A call with one result has no more to do. -/
theorem returning_some {f : Option (Kernel × Int)} {r : Kernel × Cont} (h : returning f = some r) :
    ∃ x, f = some x ∧ r = (x.1, .ret x.2) := by
  obtain ⟨x, hx, rfl⟩ := Option.map_eq_some_iff.mp h
  exact ⟨x, hx, rfl⟩

theorem keeps_of_returning {f : Option (Kernel × Int)} {r : Kernel × Cont}
    (h : returning f = some r) (e : ∀ x, f = some x → Keeps strict k x.1) :
    Keeps strict k r.1 := by
  obtain ⟨x, hx, rfl⟩ := returning_some h
  exact e x hx

theorem bland_of_returning {f : Option (Kernel × Int)} {r : Kernel × Cont}
    (h : returning f = some r) (e : ∀ x, f = some x → Bland k x.1) : Bland k r.1 := by
  obtain ⟨x, hx, rfl⟩ := returning_some h
  exact e x hx

/-- **Calls that only schedule keep the state settled.** -/
theorem enter_keeps {c : Call} (h : Settled strict k) (hc : c.schedules = true)
    (hnull : k.currpid = NULLPROC → c.byNull = true) {r : Kernel × Cont}
    (he : c.enter k = some r) : Keeps strict k r.1 := by
  have hcur : c.byNull = false → k.currpid ≠ NULLPROC := fun hb hn => by
    have := hnull hn
    rw [hb] at this
    exact absurd this (by simp)
  cases c with
  | resume pid => exact keeps_of_returning he fun x hx => resume_keeps h hx
  | suspend pid => exact suspend_keeps h he
  | wait sem => exact keeps_of_returning he fun x hx => wait_keeps h (hcur rfl) hx
  | signal sem => exact keeps_of_returning he fun x hx => signal_keeps h hx
  | signaln sem n => exact keeps_of_returning he fun x hx => signaln_keeps h hx
  | semcreate n =>
    exact keeps_of_returning he fun x hx => Option.some.inj hx ▸ semcreate_keeps h n
  | semdelete sem => exact keeps_of_returning he fun x hx => semdelete_keeps h hx
  | semreset sem n => exact keeps_of_returning he fun x hx => semreset_keeps h hx
  | sleepms d => exact keeps_of_returning he fun x hx => sleepms_keeps h (hcur rfl) hx
  | sleep d => exact keeps_of_returning he fun x hx => sleep_keeps h (hcur rfl) hx
  | yield => exact keeps_of_returning he fun x hx => yield_keeps h hx
  | receive => exact receive_keeps h (hcur rfl) he
  | recvtime w => exact recvtime_keeps h (hcur rfl) he
  | getprio pid => exact keeps_of_returning he fun x hx => Option.some.inj hx ▸ h.keeps
  | getpid => exact keeps_of_returning he fun x hx => Option.some.inj hx ▸ h.keeps
  | _ => simp [Call.schedules] at hc

/-- **Calls the tables do not show.** -/
theorem enter_bland {c : Call} (hc : c.isBland = true) {r : Kernel × Cont}
    (he : c.enter k = some r) : Bland k r.1 := by
  cases c with
  | recvclr => exact bland_of_returning he fun x hx => Option.some.inj hx ▸ recvclr_bland k
  | send pid msg => exact bland_of_returning he fun x hx => send_bland hx
  | cbregister fp b =>
    exact bland_of_returning he fun x hx => Option.some.inj hx ▸ cbregister_bland fp b k
  | cbunregister =>
    exact bland_of_returning he fun x hx => Option.some.inj hx ▸ cbunregister_bland k
  | getmem n =>
    refine bland_of_returning he fun x hx => ?_
    obtain ⟨y, hy, rfl⟩ := Option.map_eq_some_iff.mp hx
    exact getmem_bland hy
  | freemem a n => exact bland_of_returning he fun x hx => freemem_bland hx
  | getstk n =>
    refine bland_of_returning he fun x hx => ?_
    obtain ⟨y, hy, rfl⟩ := Option.map_eq_some_iff.mp hx
    exact getstk_bland hy
  | freestk p n => exact bland_of_returning he fun x hx => freestk_bland hx
  | _ => simp [Call.isBland] at hc

/-- What is left of a call: never the process's own code, and the rest of `kill` only after
`kill`. -/
theorem enter_cont {c : Call} {r : Kernel × Cont} (he : c.enter k = some r) :
    r.2 ≠ .user ∧ ((∀ pid, c ≠ .kill pid) → c ≠ .userret → ∀ x, r.2 ≠ .kill x) := by
  have hret : ∀ f : Option (Kernel × Int), returning f = some r →
      r.2 ≠ .user ∧ ∀ x, r.2 ≠ .kill x := by
    intro f hf
    obtain ⟨x, -, rfl⟩ := returning_some hf
    exact ⟨by simp, by simp⟩
  have hkill : ∀ pid, kill pid k = some r → r.2 ≠ .user := by
    intro pid hk
    rcases kill_cases hk with ⟨-, rfl⟩ | ⟨-, -, -, -, k₂, -, -, -, hsw⟩
    · simp
    · unfold killSwitch at hsw
      split at hsw
      · obtain ⟨y, -, hy⟩ := Option.bind_eq_some_iff.mp hsw
        rw [← Option.some.inj hy]; simp
      all_goals rw [← Option.some.inj hsw]; simp
  cases c with
  | kill pid => exact ⟨hkill pid he, fun h => absurd rfl (h pid)⟩
  | userret => exact ⟨hkill _ he, fun _ h => absurd rfl h⟩
  | suspend pid => rcases suspend_cont he with e | e <;> rw [e] <;> simp
  | receive => rw [receive_cont he]; simp
  | recvtime w => rcases recvtime_cont he with e | e <;> rw [e] <;> simp
  | _ => exact ⟨(hret _ he).1, fun _ _ => (hret _ he).2⟩

/-- The process a call ends, if any. -/
def Call.victim : Call → Kernel → Option Int
  | .kill pid, _ => some pid
  | .userret, k => some k.currpid
  | _, _ => none

theorem made_none {c : Call} (hc : c.schedules = true) (v : Cont) (x : Int) :
    c.made v ≠ some x := by
  cases c <;> simp [Call.schedules] at hc <;> simp [Call.made]

theorem bland_made_none {c : Call} (hc : c.isBland = true) (v : Cont) (x : Int) :
    c.made v ≠ some x := by
  cases c <;> simp [Call.isBland] at hc <;> simp [Call.made]

/-- What entering a call does to the tables. -/
structure Entered (strict : Prop) (c : Call) (k : Kernel) (r : Kernel × Cont) : Prop where
  kernel : KernelInv strict r.1
  stays : ∀ x, c.made r.2 ≠ some x →
    Stays k r.1 x ∨ c.victim k = some x ∧ (r.1.proctab x).prstate = .free
  made : ∀ x, c.made r.2 = some x → (k.proctab x).prstate = .free
  ended : ∀ x, r.2 = .kill x → (r.1.proctab k.currpid).prstate = .free

/-- The two routines that make a process. -/
theorem Entered.returning_made {c : Call} {f : Option (Kernel × Int)} {r : Kernel × Cont}
    (hr : returning f = some r)
    (hmade : ∀ v, c.made (.ret v) = if v = SYSERR then none else some v)
    (e : ∀ x, f = some x → KernelInv strict x.1 ∧ (x.2 ≠ SYSERR → (k.proctab x.2).prstate = .free) ∧
      ∀ y, (x.2 ≠ SYSERR → y ≠ x.2) → Stays k x.1 y) : Entered strict c k r := by
  obtain ⟨x, hx, rfl⟩ := returning_some hr
  obtain ⟨h1, h2, h3⟩ := e x hx
  refine ⟨h1, fun y hy => Or.inl (h3 y fun hne => ?_), fun y hy => ?_, by simp⟩
  · rintro rfl
    simp only [hmade, hne, if_false] at hy
    exact hy rfl
  · rw [hmade] at hy
    split_ifs at hy with hne
    rw [← Option.some.inj hy]
    exact h2 hne

theorem Entered.of_kill {c : Call} {pid : Int} {r : Kernel × Cont} (h : KernelInv strict k)
    (hv : c.victim k = some pid) (hm : ∀ v, c.made v = none) (hk : kill pid k = some r) :
    Entered strict c k r := by
  obtain ⟨h1, h2, h3, h4⟩ := kill_spec h hk
  refine ⟨h1, fun x _ => ?_, fun x hx => by rw [hm] at hx; simp at hx, fun x hx => ?_⟩
  · by_cases hx : x = pid
    · subst hx; exact h3.symm.imp id fun hf => ⟨hv, hf⟩
    · exact Or.inl (h2 x hx)
  · rcases h4 with ⟨-, rfl, h5⟩ | ⟨v, hv⟩
    · exact h5
    · rw [hv] at hx
      simp at hx

/-- **Entering a call keeps the invariant of the kernel.** -/
theorem enter_spec {c : Call} (h : KernelInv strict k)
    (hnull : k.currpid = NULLPROC → c.byNull = true)
    (hok : strict → ∀ pid newprio, c = .chprio pid newprio → ChprioOk pid newprio k)
    {r : Kernel × Cont} (he : c.enter k = some r) : Entered strict c k r := by
  have hc := (enter_cont he).2
  have of_keeps : (∀ x, r.2 ≠ .kill x) → c.schedules = true → Entered strict c k r := fun hr hs =>
    have hk := enter_keeps h.settled hs hnull he
    ⟨h.keeps hk, fun x _ => Or.inl (hk.quiet.stays x), fun x hx => absurd hx (made_none hs _ x),
      fun x hx => absurd hx (hr x)⟩
  have of_bland : (∀ x, r.2 ≠ .kill x) → c.isBland = true → Entered strict c k r := fun hr hs =>
    have hb := enter_bland hs he
    ⟨h.bland hb, fun x _ => Or.inl (.of_prstate (hb.same.prstate x)),
      fun x hx => absurd hx (bland_made_none hs _ x), fun x hx => absurd hx (hr x)⟩
  cases c with
  | create f n p nm as => exact .returning_made he (fun _ => rfl) fun x hx => create_spec h hx
  | rcreate f n p nm as => exact .returning_made he (fun _ => rfl) fun x hx => rcreate_spec h hx
  | kill pid => exact .of_kill h rfl (fun _ => rfl) he
  | userret => exact .of_kill h rfl (fun _ => rfl) he
  | chprio pid newprio =>
    obtain rfl := Option.some.inj he
    exact ⟨chprio_keeps h fun hs => hok hs pid newprio rfl,
      fun y _ => Or.inl (.of_prstate (chprio_prstate pid newprio k y)),
      fun y hy => by simp [Call.made] at hy, by simp⟩
  | recvclr | send | cbregister | cbunregister | getmem | freemem | getstk | freestk =>
    exact of_bland (hc (by simp) (by simp)) rfl
  | _ => exact of_keeps (hc (by simp) (by simp)) rfl

/-- What the rest of a call does to the tables. -/
theorem finish_spec (h : KernelInv strict k) {c : Cont} (hc : ∀ x, c ≠ .kill x)
    {r : Kernel × Cont} (hf : finishCall k c = some r) : KernelInv strict r.1 ∧
      (∀ x, Stays k r.1 x) ∧ ∀ x, r.2 ≠ .kill x := by
  have bland : ∀ k', Bland k k' → KernelInv strict k' ∧ ∀ x, Stays k k' x := fun k' e =>
    ⟨h.bland e, fun x => .of_prstate (e.same.prstate x)⟩
  have same : KernelInv strict k ∧ ∀ x, Stays k k x := ⟨h, fun _ => .of_prstate rfl⟩
  cases c with
  | user => simp [finishCall] at hf
  | ret v => obtain rfl := Option.some.inj hf; exact ⟨same.1, same.2, by simp⟩
  | suspend pid => obtain rfl := Option.some.inj hf; exact ⟨same.1, same.2, by simp⟩
  | receive =>
    obtain rfl := Option.some.inj hf
    obtain ⟨h1, h2⟩ := bland _ (receiveTail_bland k)
    exact ⟨h1, h2, by simp⟩
  | recvtime =>
    obtain rfl := Option.some.inj hf
    obtain ⟨h1, h2⟩ := bland _ (recvtimeTail_bland k)
    exact ⟨h1, h2, by simp⟩
  | kill pid => exact absurd rfl (hc pid)
  | clkhandler =>
    rw [finishCall] at hf
    obtain ⟨k₁, h1, rfl⟩ := Option.map_eq_some_iff.mp hf
    have hk := clkhandlerTail_keeps h.settled h1
    exact ⟨h.keeps hk, hk.quiet.stays, by simp⟩
  | iret => obtain rfl := Option.some.inj hf; exact ⟨same.1, same.2, by simp⟩

/-- The clause about processes that ended themselves, after the current process has taken a
step that left it with `c`. -/
theorem ended_update {s : Sys} (h : SysInv strict s) {c : Cont}
    (hlife : ∀ x, (s.k.proctab x).prstate = .free → (k'.proctab x).prstate = .free)
    (hc : ∀ x, c = .kill x → (k'.proctab s.k.currpid).prstate = .free) (p x : Int)
    (hp : Function.update s.cont s.k.currpid c p = .kill x) : (k'.proctab p).prstate = .free := by
  by_cases hpc : p = s.k.currpid
  · subst hpc
    rw [Function.update_self] at hp
    exact hc x hp
  · rw [Function.update_of_ne hpc] at hp
    exact hlife p (h.ended p x hp)

/-- The current process has not been killed. -/
theorem SysInv.alive {s : Sys} (h : SysInv strict s) (x : Int) : s.cont s.k.currpid ≠ .kill x := by
  intro hx
  have hfree := h.ended _ x hx
  rw [h.kernel.settled.running] at hfree
  simp at hfree

/-- A callback shows in no table, and nobody is in another place after it. -/
theorem callback_bland {s s' : Sys} (hs : step s .callback = some s') :
    Bland s.k s'.k ∧ s'.cont = s.cont := by
  simp only [step] at hs
  split_ifs at hs with hg hc
  · obtain rfl := Option.some.inj hs
    exact ⟨usercb_bland s.k, rfl⟩
  · obtain rfl := Option.some.inj hs
    exact ⟨.refl s.k, rfl⟩

/-- **The step lemma.** -/
theorem step_inv {s s' : Sys} (h : SysInv strict s) {e : Event} (hok : strict → KeepsOrder s e)
    (hs : step s e = some s') : SysInv strict s' := by
  cases e with
  | call c =>
    simp only [step] at hs
    split_ifs at hs with hg
    obtain ⟨r, hr, rfl⟩ := Option.map_eq_some_iff.mp hs
    have he := enter_spec h.kernel hg.2.2 (fun hst pid newprio hc => by
      have := hok hst
      rwa [hc] at this) hr
    refine ⟨he.kernel, fun p x hp => ?_⟩
    simp only at hp ⊢
    cases hm : c.made r.2 with
    | none =>
      rw [hm] at hp
      exact ended_update h (fun y hy =>
        (he.stays y (by simp [hm])).elim (fun e => e.life.mpr hy) And.right)
        he.ended p x hp
    | some pid =>
      rw [hm] at hp
      have hpp : p ≠ pid := by
        rintro rfl
        simp [assignAt] at hp
      rw [assignAt, Function.update_of_ne hpp] at hp
      by_cases hpc : p = s.k.currpid
      · subst hpc
        rw [Function.update_self] at hp
        exact he.ended x hp
      · rw [Function.update_of_ne hpc] at hp
        exact (he.stays p (by rw [hm]; simpa using Ne.symm hpp)).elim
          (fun e => e.life.mpr (h.ended p x hp)) And.right
  | finish =>
    obtain ⟨r, hr, rfl⟩ := Option.map_eq_some_iff.mp hs
    obtain ⟨h1, h2, h3⟩ := finish_spec h.kernel h.alive hr
    exact ⟨h1, ended_update h (fun x hx => (h2 x).life.mpr hx) fun x hx => absurd hx (h3 x)⟩
  | callback =>
    obtain ⟨hb, hc⟩ := callback_bland hs
    exact ⟨h.kernel.bland hb, fun p x hp => (hb.life p).mpr (h.ended p x (hc ▸ hp))⟩
  | tick =>
    simp only [step] at hs
    split_ifs at hs with hg
    obtain ⟨k', hk, rfl⟩ := Option.map_eq_some_iff.mp hs
    have hkeeps := clkhandler_keeps h.kernel.settled hk
    exact ⟨h.kernel.keeps hkeeps,
      ended_update h (fun x hx => (hkeeps.quiet.stays x).life.mpr hx) (by simp)⟩
  | store a v =>
    simp only [step] at hs
    split_ifs at hs with hg
    obtain rfl := Option.some.inj hs
    have hb := Bland.setHeap s.k (s.k.heap.poke a v)
    exact ⟨h.kernel.bland hb, fun p x hp => (hb.life p).mpr (h.ended p x hp)⟩

/-! ## 8. The state after `sysinit`

`sysinit` makes a queue for each semaphore, the ready list and the sleep queue, all empty, and the
null process as the current one. -/

/-- The queues `newqueue` has made so far are empty lists. -/
def Fresh (n : Int) (t : QTab) : Prop := ∀ q, IsQueue q → q < n →
  t q = ⟨MAXKEY, q + 1, EMPTY⟩ ∧ t (q + 1) = ⟨MINKEY, EMPTY, q⟩

/-- **`newqueue` makes the next queue.** -/
theorem newqueue_fresh (h : Fresh k.nextqid k.queuetab) (hq : IsQueue k.nextqid) :
    ∃ t, newqueue k = ({ k.setQueue t with nextqid := k.nextqid + 2 }, k.nextqid) ∧
      Fresh (k.nextqid + 2) t := by
  have hlt : ¬ k.nextqid ≥ NQENT := by
    have := hq.2.1
    omega
  refine ⟨_, by rw [newqueue, if_neg hlt], fun q hq' hlt' => ?_⟩
  by_cases hqn : q = k.nextqid
  · -- the new queue
    subst hqn
    have hne : k.nextqid + 1 ≠ k.nextqid := by omega
    have hne' : k.nextqid ≠ k.nextqid + 1 := by omega
    simp [QTab.setNext, QTab.setPrev, QTab.setKey, hne, hne']
  · -- an older one
    have hlt'' : q < k.nextqid := by
      have h1 := hq.2.2
      have h2 := hq'.2.2
      omega
    have h1 : q ≠ k.nextqid + 1 := by omega
    have h2 : q + 1 ≠ k.nextqid := by
      have h1 := hq.2.2
      have h2 := hq'.2.2
      omega
    have h3 : q + 1 ≠ k.nextqid + 1 := by omega
    have := h q hq' hlt''
    simp only [QTab.setNext, QTab.setPrev, QTab.setKey, queuehead, queuetail,
      Function.update_of_ne hqn, Function.update_of_ne h1, Function.update_of_ne h2,
      Function.update_of_ne h3]
    exact this

/-- What the loop over the semaphores has done after `i` rounds. -/
structure SemsMade (k k' : Kernel) (i : Nat) : Prop where
  fresh : Fresh k'.nextqid k'.queuetab
  nextqid : k'.nextqid = NPROC + 2 * i
  squeue : ∀ s : Int, 0 ≤ s → s < i → (k'.semtab s).squeue = NPROC + 2 * s
  rest : k' = { k with queuetab := k'.queuetab, semtab := k'.semtab, nextqid := k'.nextqid }

theorem initSems_spec (h : Fresh k.nextqid k.queuetab) (hq : k.nextqid = NPROC) {i : Nat}
    (hi : i ≤ 100) : SemsMade k (initSems k i) i := by
  induction i with
  | zero => exact ⟨h, by rw [initSems, hq]; simp, fun s h1 h2 => by omega, rfl⟩
  | succ i ih =>
    have ih := ih (by omega)
    have hisq : IsQueue (initSems k i).nextqid := by
      rw [ih.nextqid]
      simp only [IsQueue, NPROC, NQENT, NSEM]
      omega
    obtain ⟨t, hn, hf⟩ := newqueue_fresh ih.fresh hisq
    have hs : initSems k (i + 1) = ({ (initSems k i).setQueue t with
        nextqid := (initSems k i).nextqid + 2 } : Kernel).setSem i
        fun _ => ⟨.free, 0, (initSems k i).nextqid⟩ := by
      rw [initSems, hn]
    rw [hs]
    refine ⟨hf, ?_, fun s h1 h2 => ?_, ?_⟩
    · show (initSems k i).nextqid + 2 = _
      rw [ih.nextqid]
      push_cast
      ring
    · by_cases hsi : s = i
      · subst hsi
        simp only [Kernel.setSem, Function.update_self]
        exact ih.nextqid
      · simp only [Kernel.setSem, Function.update_of_ne hsi]
        refine ih.squeue s h1 ?_
        push_cast at h2
        omega
    · conv_lhs => rw [ih.rest]
      rfl

/-- Tables whose queues are all empty and whose only process is the null process. -/
theorem KernelInv.initial (hf : Fresh NQENT k.queuetab)
    (hready : k.readylist = NPROC + 2 * NSEM) (hsleep : k.sleepq = NPROC + 2 * NSEM + 2)
    (hsem : ∀ s, ¬ isbadsem s → (k.semtab s).squeue = NPROC + 2 * s)
    (hnull : (k.proctab NULLPROC).prstate = .curr)
    (hfree : ∀ p, p ≠ NULLPROC → (k.proctab p).prstate = .free) (hcur : k.currpid = NULLPROC)
    (hcount : k.prcount = 1) (hdefer : k.defer.ndefers = 0) (hfed : k.starved = false)
    (hnext : 0 ≤ k.createNextpid ∧ 0 ≤ k.rcreateNextpid) : KernelInv strict k := by
  have hfresh : ∀ q, IsQueue q → k.queuetab q = ⟨MAXKEY, q + 1, EMPTY⟩ ∧
      k.queuetab (q + 1) = ⟨MINKEY, EMPTY, q⟩ := fun q hq => hf q hq (by
    have := hq.2.1
    omega)
  have hlinked : Linked k.queuetab fun _ => [] := by
    refine ⟨fun q hq => ?_, by simp, by simp, by simp, fun q hq => ?_, fun q hq => ?_⟩
    · exact ⟨congrArg Qentry.qnext (hfresh q hq).1, congrArg Qentry.qprev (hfresh q hq).2⟩
    · rw [(hfresh q hq).1]; exact ⟨rfl, rfl⟩
    · rw [(hfresh q hq).2]; exact ⟨rfl, rfl⟩
  have hst : ∀ p, (k.proctab p).prstate = if p = NULLPROC then .curr else .free := by
    intro p
    split_ifs with hp
    · rw [hp]; exact hnull
    · exact hfree p hp
  have hhome : ∀ p, home k p = none := by
    intro p
    simp only [home, hst]
    split_ifs <;> rfl
  have hqueues : Queues k := by
    have h1 : NPROC + 2 * NSEM = 300 := rfl
    refine ⟨by rw [hready]; decide, by rw [hready, hsleep]; decide, fun s hs => ?_⟩
    rw [hsem s hs, hready, hsleep]
    simp only [isbadsem, IsQueue, NPROC, NSEM, NQENT] at *
    omega
  have hplaced : Placed strict k (fun _ => []) none := {
    linked := hlinked
    placed := fun p q _ _ _ => by simp [hhome]
    absent := by simp
    curr := fun p _ hc => by
      rw [hst] at hc
      split_ifs at hc with hp
      rw [hp, hcur]
    currProc := by rw [hcur]; decide
    null := Or.inl hnull
    queues := hqueues
    waits := fun p _ hw => by
      rw [hst] at hw
      split_ifs at hw
    fed := hfed
    ordered := fun _ => ⟨by simp, List.Pairwise.nil⟩ }
  refine ⟨⟨⟨_, hplaced⟩, by rw [hcur]; exact hnull, hdefer, fun _ p _ hr => ?_⟩, ?_, hnext⟩
  · rw [hst] at hr
    split_ifs at hr
  · have hset : liveSet k = {0} := by
      ext j
      rw [mem_liveSet, hst]
      simp only [IsProc, NULLPROC, Finset.mem_singleton]
      constructor
      · rintro ⟨-, h2⟩
        by_contra hj
        have hj' : ¬ (j : Int) = 0 := by exact_mod_cast hj
        rw [if_neg hj'] at h2
        exact h2 rfl
      · rintro rfl
        decide
    rw [Counted, hcount, hset]
    rfl

theorem initNull_prstate (base : Nat) (k : Kernel) (p : Int) :
    ((initNull base k).proctab p).prstate = if p = NULLPROC then .curr else
      (k.proctab p).prstate := by
  by_cases hp : p = NULLPROC
  · subst hp
    simp only [initNull, setProc_same, initCallback, if_true]
  · simp only [initNull, setProc_of_ne _ _ hp, if_neg hp]

/-- **The tables after `initQueues`.** -/
theorem initQueues_inv (hq : k.nextqid = NPROC)
    (hnull : (k.proctab NULLPROC).prstate = .curr)
    (hfree : ∀ p, p ≠ NULLPROC → (k.proctab p).prstate = .free) (hcur : k.currpid = NULLPROC)
    (hcount : k.prcount = 1) (hdefer : k.defer.ndefers = 0) (hfed : k.starved = false)
    (hnext : 0 ≤ k.createNextpid ∧ 0 ≤ k.rcreateNextpid) : KernelInv strict (initQueues k) := by
  have hnone : Fresh k.nextqid k.queuetab := fun q hq' hlt => by
    have := hq'.1
    omega
  have hs := initSems_spec hnone hq (i := NSEM.toNat) (by decide)
  obtain ⟨t₁, h1, hf₁⟩ := newqueue_fresh hs.fresh (by rw [hs.nextqid]; decide)
  obtain ⟨t₂, h2, hf₂⟩ := newqueue_fresh (k := { (initSems k NSEM.toNat).setQueue t₁ with
      nextqid := (initSems k NSEM.toNat).nextqid + 2
      readylist := (initSems k NSEM.toNat).nextqid }) hf₁ (by
    show IsQueue ((initSems k NSEM.toNat).nextqid + 2)
    rw [hs.nextqid]
    decide)
  have hrest := hs.rest
  have hqid := hs.nextqid
  have hsq := hs.squeue
  unfold initQueues
  simp only [h1, h2]
  generalize initSems k NSEM.toNat = k₁ at *
  have hproc : k₁.proctab = k.proctab := (congrArg Kernel.proctab hrest :)
  refine KernelInv.initial ?_ hqid ?_ (fun s hs => ?_) ?_ (fun p hp => ?_) ?_ ?_ ?_ ?_ ?_
  · rw [hqid] at hf₂
    exact hf₂
  · show k₁.nextqid + 2 = _
    rw [hqid]
    rfl
  · simp only [isbadsem, not_or, not_lt, ge_iff_le, not_le, NSEM] at hs
    exact hsq s hs.1 hs.2
  · show (k₁.proctab NULLPROC).prstate = .curr
    rw [hproc]
    exact hnull
  · show (k₁.proctab p).prstate = .free
    rw [hproc]
    exact hfree p hp
  · exact (congrArg Kernel.currpid hrest).trans hcur
  · exact (congrArg Kernel.prcount hrest).trans hcount
  · exact (congrArg (fun k => k.defer.ndefers) hrest).trans hdefer
  · exact (congrArg Kernel.starved hrest).trans hfed
  · have h3 : k₁.createNextpid = k.createNextpid := (congrArg Kernel.createNextpid hrest :)
    have h4 : k₁.rcreateNextpid = k.rcreateNextpid := (congrArg Kernel.rcreateNextpid hrest :)
    show 0 ≤ k₁.createNextpid ∧ 0 ≤ k₁.rcreateNextpid
    rw [h3, h4]
    exact hnext

/-- **The tables after `sysinit`.** -/
theorem sysinit_inv {image : Image} {heap : Heap} (h : sysinit (bss image heap) = some k) :
    KernelInv strict k := by
  obtain ⟨⟨k₁, base⟩, hg, h⟩ := Option.bind_eq_some_iff.mp h
  obtain ⟨⟨heap', a⟩, -, hk₁⟩ := Option.bind_eq_some_iff.mp hg
  simp only [Option.pure_def, Option.some.injEq, Prod.mk.injEq] at hk₁
  obtain ⟨rfl, rfl⟩ := hk₁
  obtain rfl := Option.some.inj h
  have h01 : (0 : Int) ≤ 1 := by decide
  refine initQueues_inv rfl ?_ ?_ rfl rfl rfl rfl ⟨h01, h01⟩
  · rw [initNull_prstate, if_pos rfl]
  · intro p hp
    rw [initNull_prstate, if_neg hp]
    rfl

theorem boot_inv {image : Image} {heap : Heap} {s : Sys} (h : boot image heap = some s) :
    SysInv strict s := by
  obtain ⟨k, hk, rfl⟩ := Option.map_eq_some_iff.mp h
  exact ⟨sysinit_inv hk, by simp⟩

/-- **The invariant of every reachable state.** -/
theorem Reachable.inv (strict : Prop) {ok : Sys → Event → Prop} {s : Sys} (h : Reachable ok s)
    (hok : strict → ∀ s e, ok s e → KeepsOrder s e) : SysInv strict s := by
  obtain ⟨image, heap, s₀, hb, hr⟩ := h
  exact hr.invariant (boot_inv hb) fun t e u ht he hs =>
    step_inv ht (fun hst => hok hst t e he) hs

/-! ## 9. The tables agree

What the invariant says in the terms of the two tables alone. -/

/-- **The process table and the queue table in a reachable state**, for some lists `qs`. -/
structure TablesAgree (k : Kernel) (qs : Int → List Int) : Prop where
  /-- Every queue is a well-formed doubly linked list, and a process is on at most one. -/
  linked : Linked k.queuetab qs
  ready : ∀ p, IsProc p → ((k.proctab p).prstate = .ready ↔ p ∈ qs k.readylist)
  sleep : ∀ p, IsProc p →
    ((k.proctab p).prstate = .sleep ∨ (k.proctab p).prstate = .rectim ↔ p ∈ qs k.sleepq)
  wait : ∀ p, IsProc p → ((k.proctab p).prstate = .wait ↔
    ¬ isbadsem (k.proctab p).prsem ∧ p ∈ qs (k.semtab (k.proctab p).prsem).squeue)
  curr : ∀ p, IsProc p → ((k.proctab p).prstate = .curr ↔ p = k.currpid)
  other : ∀ p q, IsProc p → IsQueue q → p ∈ qs q → (k.proctab p).prstate = .ready ∨
    (k.proctab p).prstate = .sleep ∨ (k.proctab p).prstate = .rectim ∨ (k.proctab p).prstate = .wait
  queues : Queues k
  currProc : IsProc k.currpid
  prcount : k.prcount = (liveSet k).card
  /-- `resched` has never dequeued from an empty ready list. -/
  fed : k.starved = false

theorem KernelInv.agree (h : KernelInv strict k) : ∃ qs, TablesAgree k qs := by
  obtain ⟨qs, hp⟩ := h.settled.placed
  refine ⟨qs, hp.linked, fun p hpp => (hp.mem_ready hpp).symm, fun p hpp => ⟨fun hs => ?_,
    hp.mem_sleep hpp⟩, fun p hpp => ⟨fun hw => ?_, fun hw => ?_⟩, fun p hpp => ⟨hp.curr p hpp, ?_⟩,
    fun p q hpp hq hm => ?_, hp.queues, hp.currProc, h.counted, hp.fed⟩
  · refine (hp.placed p _ hpp hp.queues.sleep.1 (by simp)).mpr ?_
    rcases hs with e | e <;> simp [home, e]
  · have hsem := hp.waits p hpp hw
    exact ⟨hsem, (hp.placed p _ hpp (hp.queues.sem _ hsem).1 (by simp)).mpr (home_of_wait hw)⟩
  · obtain ⟨hq, hr, hs⟩ := hp.queues.sem _ hw.1
    exact hp.mem_sem hq hr hs hw.2
  · rintro rfl
    exact h.settled.running
  · have hh := (hp.placed p q hpp hq (by simp)).mp hm
    simp only [home] at hh
    split at hh
    · exact Or.inl ‹_›
    · exact Or.inr (Or.inl ‹_›)
    · exact Or.inr (Or.inr (Or.inl ‹_›))
    · exact Or.inr (Or.inr (Or.inr ‹_›))
    · simp at hh

/-- **In every reachable state the tables agree.** -/
theorem tables_agree {s : Sys} (h : Reachable Runs.always s) : ∃ qs, TablesAgree s.k qs :=
  (h.inv False fun hf => hf.elim).kernel.agree

/-- The tables after the first process was made, made another one and went to sleep. -/
theorem tables_agree_run : ∃ s, runFromBoot [makeMain ⟨20, by decide⟩, makeProcess ⟨10, by decide⟩,
    .finish, .call (.resume 2), .finish, .call (.sleepms 5)] = some s ∧ s.k.currpid = 2 ∧
    ∃ qs, TablesAgree s.k qs := by
  have h : (runFromBoot [makeMain ⟨20, by decide⟩, makeProcess ⟨10, by decide⟩, .finish,
      .call (.resume 2), .finish, .call (.sleepms 5)]).isSome = true := by decide +kernel
  obtain ⟨s, hs⟩ := Option.isSome_iff_exists.mp h
  have hc : (runFromBoot [makeMain ⟨20, by decide⟩, makeProcess ⟨10, by decide⟩, .finish,
      .call (.resume 2), .finish, .call (.sleepms 5)]).map (fun s => s.k.currpid) = some 2 := by
    decide +kernel
  rw [hs] at hc
  exact ⟨s, hs, Option.some.inj hc, tables_agree (reachable_runFromBoot hs)⟩

end Xinu
