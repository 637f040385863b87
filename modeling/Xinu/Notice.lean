/-
# Death notices

`kill` sends the pid of the dying process to `prparent`, "ID of the creating process".  A pid is
an index of the process table, and an entry is used again when its process has died, so the
index alone does not say which process it is.

A registrar beside the system (`Registry`) numbers the processes that use each entry and writes
down who made whom.  The notice goes to whoever uses the entry of the creator when the child
dies: to the creator, to nobody when the entry is free, or to a later process (`death_notice`).
-/
import Xinu.Mail

namespace Xinu

open Runs ByteMemory

variable {strict : Prop} {k k' : Kernel} {s s' : Sys} {p q : Int}

/-! ## 1. The registrar

The registrar has what the process table forgets: how often each entry has been used, and which
life of the creator's entry the creator had. -/

/-- One process of a run: the `number`-th that uses the entry `pid`. -/
structure Life where
  pid : Int
  number : Nat
deriving DecidableEq

structure Registry where
  /-- How many processes have been made in each entry. -/
  lives : Int → Nat
  /-- Who made the process that last used the entry. -/
  creator : Int → Life

/-- Nobody has been made yet. -/
def Registry.start : Registry := ⟨fun _ => 0, fun _ => ⟨0, 0⟩⟩

/-- The process that uses the entry now, or used it last. -/
def Registry.occupant (d : Registry) (pid : Int) : Life := ⟨pid, d.lives pid⟩

/-- `parent` has made a process in the entry `pid`. -/
def Registry.born (d : Registry) (pid parent : Int) : Registry where
  lives := Function.update d.lives pid (d.lives pid + 1)
  creator := Function.update d.creator pid (d.occupant parent)

/-- The process an event makes, if any. -/
def Event.made (e : Event) (k : Kernel) : Option Int :=
  match e with
  | .call c => (c.enter k).bind fun r => c.made r.2
  | _ => none

/-- The registrar at work. -/
def Registry.see (s : Sys) (e : Event) (_ : Sys) (d : Registry) : Registry :=
  match e.made s.k with
  | some pid => d.born pid s.k.currpid
  | none => d

/-- The entry of the creator of `pid` has been used again since. -/
def Registry.recycled (d : Registry) (pid : Int) : Prop :=
  (d.creator pid).number < d.lives (d.creator pid).pid

/-- The process that receives the notice when `pid` is killed, if any. -/
def Registry.recipient (d : Registry) (k : Kernel) (pid : Int) : Option Life :=
  if accepts (k.proctab pid).prparent k then some (d.occupant (k.proctab pid).prparent) else none

/-! ## 2. Who writes `prparent`

Only the two routines that make processes do, and only in the entry of the new process.  The other
functions of the kernel are gone through in turn. -/

/-- No entry has another parent than before. -/
def SameParents (k k' : Kernel) : Prop :=
  ∀ x, (k'.proctab x).prparent = (k.proctab x).prparent

theorem SameParents.trans {k₁ k₂ k₃ : Kernel} (h : SameParents k₁ k₂) (h' : SameParents k₂ k₃) :
    SameParents k₁ k₃ := fun x => (h' x).trans (h x)

theorem SameParents.setProc (k : Kernel) (p : Int) {f : Procent → Procent}
    (hf : ∀ e, (f e).prparent = e.prparent) : SameParents k (k.setProc p f) := by
  intro x
  by_cases hx : x = p
  · subst hx; rw [setProc_same, hf]
  · rw [setProc_of_ne k f hx]

theorem Quiet.parents (h : Quiet k k') : SameParents k k' := fun x =>
  (congrArg Procent.prparent (h.proc x) :)

theorem SchedOnly.parents (h : SchedOnly k k') : SameParents k k' := fun x =>
  (congrArg Procent.prparent (h.entries x) :)

theorem Killed.parents {pid : Int} (h : Killed strict pid k k') : SameParents k k' := fun x =>
  (congrArg Procent.prparent (h.proc x) :)

theorem send_parents {pid : Int} {msg : Nat} {r : Kernel × Int} (h : send pid msg k = some r) :
    SameParents k r.1 := by
  unfold send at h
  split_ifs at h with h1 h2
  · rw [← Option.some.inj h]; exact fun _ => rfl
  · rw [← Option.some.inj h]; exact fun _ => rfl
  · have hset : SameParents k (k.setProc pid fun p =>
      { p with prtmpvalid := 1, prtmpbuf := msg }) :=
      .setProc k pid fun _ => rfl
    simp only at h
    split_ifs at h with h3
    · obtain ⟨x, -, hx⟩ := Option.bind_eq_some_iff.mp h
      rw [← Option.some.inj hx]
      exact hset
    · rw [← Option.some.inj h]
      exact hset

theorem kill_parents (h : KernelInv strict k) {pid : Int} {r : Kernel × Cont}
    (hk : kill pid k = some r) : SameParents k r.1 := by
  rcases kill_cases hk with ⟨-, rfl⟩ | ⟨hgood, hnull, k₁, v₁, k₂, v₂, hs, hf, hk⟩
  · exact fun _ => rfl
  · obtain ⟨-, hkilled, -⟩ := kill_prefix h hgood hnull hs hf hk
    obtain ⟨y, -, hy⟩ := Option.bind_eq_some_iff.mp hf
    obtain ⟨rfl, -⟩ := Prod.mk.inj (Option.some.inj hy)
    have hsend : SameParents k k₁ := send_parents hs
    exact hsend.trans hkilled.parents

/-- The parent of a new process is whoever makes it. -/
structure NewParent (pid : Int) (k k' : Kernel) : Prop where
  self : (k'.proctab pid).prparent = k.currpid
  others : ∀ x, x ≠ pid → (k'.proctab x).prparent = (k.proctab x).prparent

theorem setupProc_parents {fill : Int → Kernel → Kernel} (f n : Nat) (prio : Pri16)
    (nm : Nat → UInt8) (as : List Nat) (pid : Int) (saddr : Nat) (k : Kernel)
    (hfill : ∀ k, SameParents k (fill pid k)) :
    NewParent pid k (setupProc fill f n prio nm as pid saddr k) := by
  unfold setupProc
  dsimp only
  obtain ⟨k₁, hk₁⟩ : ∃ k₁ : Kernel, k₁ = { k with prcount := k.prcount + 1 } := ⟨_, rfl⟩
  have ht : k₁.proctab = k.proctab ∧ k₁.currpid = k.currpid := by rw [hk₁]; exact ⟨rfl, rfl⟩
  rw [← hk₁, ← ht.2]
  have hfilled := hfill (k₁.setProc pid (initProc saddr n prio nm k₁.currpid))
  generalize fill pid (k₁.setProc pid (initProc saddr n prio nm k₁.currpid)) = k₂ at *
  have hptr : ∀ (h : Heap) (sp : Nat),
      SameParents k₂ ((k₂.setHeap h).setProc pid fun p => { p with prstkptr := sp }) :=
    fun h sp => SameParents.setProc (k₂.setHeap h) pid fun _ => rfl
  refine ⟨?_, fun x hx => ?_⟩
  · rw [hptr, hfilled, setProc_same, ← ht.2]
    rfl
  · rw [hptr, hfilled, setProc_of_ne _ _ hx, ht.1]

/-- The two routines that make processes leave the other parents alone. -/
theorem makeProc_parents {fill : Int → Kernel → Kernel} {f n : Nat} {prio : Pri16}
    {nm : Nat → UInt8} {as : List Nat} {pid : Int} {r : Kernel × Int}
    (hfill : ∀ k, SameParents k (fill pid k)) (h : makeProc fill f n prio nm as pid k = some r) :
    if r.2 = SYSERR then SameParents k r.1 else NewParent r.2 k r.1 := by
  have hg : ∀ k₁ a, k.getstk n = some (k₁, a) → k₁.proctab = k.proctab ∧
    k₁.currpid = k.currpid := by
    intro k₁ a hg
    obtain ⟨x, -, hx⟩ := Option.bind_eq_some_iff.mp hg
    obtain ⟨rfl, -⟩ := Prod.mk.inj (Option.some.inj hx)
    exact ⟨rfl, rfl⟩
  rcases makeProc_cases h with rfl | ⟨k₁, hs, rfl⟩ | ⟨h0, k₁, saddr, hs, -, rfl⟩
  · rw [if_pos rfl]
    exact fun _ => rfl
  · rw [if_pos rfl]
    exact fun x => by rw [(hg k₁ _ hs).1]
  · obtain ⟨ht, hc⟩ := hg k₁ _ hs
    have hn := setupProc_parents f n prio nm as pid saddr k₁ hfill
    rw [if_neg h0]
    exact ⟨by rw [hn.self, hc], fun x hx => by rw [hn.others x hx, ht]⟩

theorem createFill_parents (pid : Int) (k : Kernel) : SameParents k (createFill pid k) := by
  unfold createFill
  exact SameParents.setProc (k.setHeap _) pid fun _ => rfl

/-- What a call that makes the process `made` does to the parents. -/
def ParentsAfter (made : Option Int) (k k' : Kernel) : Prop :=
  match made with
  | some pid => NewParent pid k k'
  | none => SameParents k k'

theorem parentsAfter_iff {v : Int} :
    ParentsAfter (if v = SYSERR then none else some v) k k' ↔
      if v = SYSERR then SameParents k k' else NewParent v k k' := by
  by_cases hv : v = SYSERR
  · simp only [hv, if_true]
    exact Iff.rfl
  · simp only [hv, if_false]
    exact Iff.rfl

theorem create_parents {f n : Nat} {prio : Pri16} {nm : Nat → UInt8} {as : List Nat}
    {r : Kernel × Int} (h : create f n prio nm as k = some r) :
    if r.2 = SYSERR then SameParents k r.1 else NewParent r.2 k r.1 := by
  unfold create at h
  split_ifs at h with h1
  · rw [← Option.some.inj h, if_pos rfl]
    exact fun _ => rfl
  · simp only at h
    generalize newpid k.proctab k.createNextpid = pn at h
    have hm := makeProc_parents (createFill_parents pn.1) h
    split_ifs at hm ⊢ with hv
    · exact hm
    · exact ⟨hm.self, hm.others⟩

theorem rcreate_parents {f n : Nat} {prio : Pri16} {nm : Nat → UInt8} {as : List Nat}
    {r : Kernel × Int} (h : rcreate f n prio nm as k = some r) :
    if r.2 = SYSERR then SameParents k r.1 else NewParent r.2 k r.1 := by
  unfold rcreate at h
  split_ifs at h with h1
  · rw [← Option.some.inj h, if_pos rfl]
    exact fun _ => rfl
  · simp only at h
    generalize newpid k.proctab k.rcreateNextpid = pn at h
    obtain ⟨y, hy, h⟩ := Option.bind_eq_some_iff.mp h
    have hm := makeProc_parents (fun k _ => rfl) hy
    split_ifs at h hm with h2
    · rw [← Option.some.inj h, if_pos rfl]
      exact hm
    · obtain ⟨z, hz, h⟩ := Option.bind_eq_some_iff.mp h
      have hr := (ready_only hz).parents
      rw [← Option.some.inj h, if_neg h2]
      exact ⟨(hr _).trans hm.self, fun x hx => (hr x).trans (hm.others x hx)⟩

theorem recvclr_parents (k : Kernel) : SameParents k (recvclr k).1 := by
  unfold recvclr
  split_ifs
  · dsimp only
    exact SameParents.setProc k _ fun _ => rfl
  · exact fun _ => rfl

theorem chprio_parents (pid : Int) (newprio : Pri16) (k : Kernel) :
    SameParents k (chprio pid newprio k).1 := by
  unfold chprio
  split_ifs
  · exact fun _ => rfl
  · dsimp only
    exact SameParents.setProc k _ fun _ => rfl

theorem cbregister_parents (fp mbufptr : Nat) (k : Kernel) :
    SameParents k (cbregister fp mbufptr k).1 := by
  unfold cbregister
  split_ifs
  · exact fun _ => rfl
  · exact fun _ => rfl
  · exact fun _ => rfl
  · dsimp only
    exact SameParents.setProc k _ fun _ => rfl

theorem cbunregister_parents (k : Kernel) : SameParents k (cbunregister k).1 := by
  unfold cbunregister
  split_ifs
  · exact fun _ => rfl
  · dsimp only
    exact SameParents.setProc k _ fun _ => rfl

/-- **Entering a call** leaves the parents alone, but for the process it makes. -/
theorem enter_parents {c : Call} (h : KernelInv strict k)
    (hnull : k.currpid = NULLPROC → c.byNull = true) {r : Kernel × Cont}
    (he : c.enter k = some r) : ParentsAfter (c.made r.2) k r.1 := by
  cases c with
  | create f n p nm as =>
    obtain ⟨x, hx, rfl⟩ := returning_some he
    exact parentsAfter_iff.mpr (create_parents hx)
  | rcreate f n p nm as =>
    obtain ⟨x, hx, rfl⟩ := returning_some he
    exact parentsAfter_iff.mpr (rcreate_parents hx)
  | kill pid => exact kill_parents h he
  | userret => exact kill_parents h he
  | recvclr => rw [← Option.some.inj he]; exact recvclr_parents k
  | send pid msg =>
    obtain ⟨x, hx, rfl⟩ := returning_some he
    exact send_parents hx
  | chprio pid newprio => rw [← Option.some.inj he]; exact chprio_parents pid newprio k
  | cbregister fp b => rw [← Option.some.inj he]; exact cbregister_parents fp b k
  | cbunregister => rw [← Option.some.inj he]; exact cbunregister_parents k
  | getmem | freemem | getstk | freestk =>
    obtain ⟨h, hh⟩ := enter_heap rfl he
    rw [hh]
    exact fun _ => rfl
  | _ => exact (enter_keeps h.settled rfl hnull he).quiet.parents

theorem finish_parents (h : Settled strict k) {c : Cont} {r : Kernel × Cont}
    (hf : finishCall k c = some r) : SameParents k r.1 := by
  cases c with
  | user => simp [finishCall] at hf
  | ret v => rw [← Option.some.inj hf]; exact fun _ => rfl
  | suspend pid => rw [← Option.some.inj hf]; exact fun _ => rfl
  | receive =>
    rw [← Option.some.inj hf]
    dsimp only [receiveTail]
    exact SameParents.setProc k _ fun _ => rfl
  | recvtime =>
    rw [← Option.some.inj hf]
    dsimp only [recvtimeTail]
    split_ifs
    · dsimp only
      exact SameParents.setProc k _ fun _ => rfl
    · exact fun _ => rfl
  | kill pid =>
    obtain rfl := Option.some.inj hf
    exact ((unsleep_only pid k).trans (setState_only _ pid .free)).parents
  | clkhandler =>
    rw [finishCall] at hf
    obtain ⟨k₁, h1, rfl⟩ := Option.map_eq_some_iff.mp hf
    exact (clkhandlerTail_keeps h h1).quiet.parents
  | iret => rw [← Option.some.inj hf]; exact fun _ => rfl

theorem usercb_parents (k : Kernel) : SameParents k (usercb k) := by
  unfold usercb
  split_ifs
  · exact SameParents.setProc k _ fun _ => rfl
  · exact fun _ => rfl

/-- **A step** leaves the parents alone, but for the process it makes. -/
theorem step_parents {e : Event} (h : SysInv strict s) (hs : step s e = some s') :
    ParentsAfter (e.made s.k) s.k s'.k := by
  cases e with
  | call c =>
    simp only [step] at hs
    split_ifs at hs with hg
    obtain ⟨r, hr, rfl⟩ := Option.map_eq_some_iff.mp hs
    have he : Event.made (.call c) s.k = c.made r.2 := by simp [Event.made, hr]
    rw [he]
    exact enter_parents h.kernel hg.2.2 hr
  | finish =>
    obtain ⟨r, hr, rfl⟩ := Option.map_eq_some_iff.mp hs
    exact finish_parents h.kernel.settled hr
  | callback =>
    simp only [step] at hs
    split_ifs at hs with hg hb
    · rw [← Option.some.inj hs]; exact usercb_parents s.k
    · rw [← Option.some.inj hs]; exact fun _ => rfl
  | tick =>
    simp only [step] at hs
    split_ifs at hs with hg
    obtain ⟨k₁, h1, rfl⟩ := Option.map_eq_some_iff.mp hs
    exact (clkhandler_keeps h.kernel.settled h1).quiet.parents
  | store a v =>
    simp only [step] at hs
    split_ifs at hs with hg
    rw [← Option.some.inj hs]
    exact fun _ => rfl

/-! ## 3. The registrar and the table agree

The invariant ties the creator's pid that the registrar has written down to `prparent`.  A step
that makes no process leaves both alone. -/

/-- What the registrar has written down of the process in an entry. -/
structure Entry (k : Kernel) (d : Registry) (p : Int) : Prop where
  parent : (d.creator p).pid = (k.proctab p).prparent
  number : (d.creator p).number ≤ d.lives (d.creator p).pid

/-- Every process but the first has been registered. -/
structure RegistryInv (x : Sys × Registry) : Prop where
  sys : SysInv False x.1
  entry : ∀ p, p ≠ NULLPROC → (x.1.k.proctab p).prstate ≠ .free → Entry x.1.k x.2 p

theorem boot_registry {image : Image} {heap : Heap} (h : boot image heap = some s) :
    RegistryInv (s, .start) := by
  obtain ⟨base, hb⟩ := boot_spec h
  refine ⟨boot_inv h, fun p hp hl => absurd ?_ hl⟩
  rw [hb.proctab, Function.update_of_ne hp]
  rfl

/-- A process made keeps or raises the number of lives of every entry. -/
theorem Registry.lives_born (d : Registry) (pid parent q : Int) :
    d.lives q ≤ (d.born pid parent).lives q := by
  by_cases hq : q = pid
  · subst hq
    simp [Registry.born]
  · simp [Registry.born, Function.update_of_ne hq]

/-- Only a call that makes a process puts an entry to use. -/
theorem step_live {e : Event} (h : SysInv False s) (hs : step s e = some s')
    (hl : (s'.k.proctab p).prstate ≠ .free) :
    e.made s.k = some p ∨ (s.k.proctab p).prstate ≠ .free := by
  cases e with
  | call c =>
    obtain ⟨r, hc⟩ := call_step h False.elim hs
    by_cases hm : c.made r.2 = some p
    · exact Or.inl (by simp [Event.made, hc.enter, hm])
    · rcases hc.stays p hm with hst | ⟨-, hfree⟩
      · exact Or.inr fun hf => hl (hst.life.mpr hf)
      · exact absurd hfree hl
  | finish =>
    obtain ⟨r, hr, rfl⟩ := Option.map_eq_some_iff.mp hs
    obtain ⟨-, hst, -⟩ := finish_spec h.kernel h.alive hr
    exact Or.inr fun hf => hl ((hst p).life.mpr hf)
  | callback =>
    obtain ⟨hb, -⟩ := callback_bland hs
    exact Or.inr fun hf => hl ((hb.life p).mpr hf)
  | tick =>
    simp only [Xinu.step] at hs
    split_ifs at hs with hg
    obtain ⟨k₁, h1, rfl⟩ := Option.map_eq_some_iff.mp hs
    have hst := (clkhandler_keeps h.kernel.settled h1).quiet.stays p
    exact Or.inr fun hf => hl (hst.life.mpr hf)
  | store a v =>
    simp only [Xinu.step] at hs
    split_ifs at hs with hg
    obtain rfl := Option.some.inj hs
    exact Or.inr hl

theorem RegistryInv.step {d : Registry} {e : Event} (h : RegistryInv (s, d))
    (hs : Xinu.step s e = some s') : RegistryInv (s', d.see s e s') := by
  have hpar := step_parents h.sys hs
  refine ⟨step_inv h.sys False.elim hs, fun p hp hl => ?_⟩
  have hlive := step_live h.sys hs hl
  unfold Registry.see
  cases hm : e.made s.k with
  | none =>
    rw [hm] at hpar hlive
    have hold := h.entry p hp (hlive.resolve_left (by simp))
    exact ⟨hold.parent.trans (hpar p).symm, hold.number⟩
  | some pid =>
    rw [hm] at hpar hlive
    by_cases hpp : p = pid
    · subst hpp
      refine ⟨?_, ?_⟩
      · simp [Registry.born, Registry.occupant, hpar.self]
      · have := d.lives_born p s.k.currpid s.k.currpid
        simpa [Registry.born, Registry.occupant] using this
    · have hold := h.entry p hp (hlive.resolve_left (by simpa using Ne.symm hpp))
      have hc : (d.born pid s.k.currpid).creator p = d.creator p := Function.update_of_ne hpp _ _
      refine ⟨?_, ?_⟩
      · rw [hc, hpar.others p hpp]
        exact hold.parent
      · rw [hc]
        exact hold.number.trans (d.lives_born _ _ _)

theorem Watched.registry {x : Sys × Registry} (h : Watched Registry.see .start always x) :
    RegistryInv x := by
  obtain ⟨image, heap, s₀, hb, hr⟩ := h
  refine hr.invariant (boot_registry hb) fun y e z hy _ hs => ?_
  obtain ⟨t, ht, rfl⟩ := watch_some.mp hs
  exact hy.step ht

/-! ## 4. Where the notice goes

`death_notice` follows from the invariant and from what `kill` writes.  The run behind it has an
entry that was used again: the notice goes to a process that has not made the child. -/

/-- The message of a call that kills. -/
theorem victim_message {c : Call} {pid : Int} (hv : c.victim k = some pid) (hk : killable pid k) :
    c.message k = some ((k.proctab pid).prparent, pid.toNat) ∧
      ∀ v, c.mailOps k v = sendOps (c.message k) k := by
  cases c with
  | kill pid' =>
    obtain rfl := Option.some.inj hv
    exact ⟨if_pos hk, fun _ => rfl⟩
  | userret =>
    obtain rfl := Option.some.inj hv
    exact ⟨if_pos hk, fun _ => rfl⟩
  | _ => simp [Call.victim] at hv

/-- **Who receives a death notice.**  The notice of a kill goes to the process that uses the
entry of the creator, if there is one and it takes messages.  That is the creator as long as the
entry has not been used again, and a later process when it has. -/
theorem death_notice {x : Sys × Registry} {c : Call} {pid : Int} {t : Sys}
    (h : Watched Registry.see .start always x) (hv : c.victim x.1.k = some pid)
    (hk : killable pid x.1.k) (hs : step x.1 (.call c) = some t) :
    mail t.k = runOps ((x.2.recipient x.1.k pid).toList.map fun l => .deliver l.pid pid.toNat)
      (mail x.1.k) ∧
    (isbadpid x.1.k (x.2.creator pid).pid → x.2.recipient x.1.k pid = none) ∧
    ∀ l, x.2.recipient x.1.k pid = some l → l.pid = (x.2.creator pid).pid ∧
      (l = x.2.creator pid ↔ ¬ x.2.recycled pid) := by
  have hinv := h.registry
  obtain ⟨hparent, hnumber⟩ := hinv.entry pid hk.2 fun hf => hk.1 (Or.inr (Or.inr hf))
  obtain ⟨r, hc⟩ := call_step hinv.sys False.elim hs
  obtain ⟨hmsg, hops⟩ := victim_message hv hk
  refine ⟨?_, fun hbad => ?_, fun l hl => ?_⟩
  · rw [hc.mail, hops, hmsg]
    by_cases ha : accepts (x.1.k.proctab pid).prparent x.1.k
    · simp [sendOps, Registry.recipient, ha, Registry.occupant]
    · simp [sendOps, Registry.recipient, ha]
  · rw [hparent] at hbad
    exact if_neg fun ha => ha.1 hbad
  · unfold Registry.recipient at hl
    split_ifs at hl with ha
    obtain rfl := Option.some.inj hl
    refine ⟨hparent.symm, ?_⟩
    unfold Registry.recycled
    generalize x.2.creator pid = creator at *
    obtain ⟨cpid, number⟩ := creator
    simp only at hparent hnumber
    subst hparent
    simp only [Registry.occupant, Life.mk.injEq, true_and]
    exact ⟨fun e => by omega, fun e => by omega⟩

/-- The first process makes a second, which makes a third and waits for a message. -/
def threeGenerations : List Event :=
  [makeMain 20, makeProcess 30, .finish, .call (.resume 2),
    makeProcess 10, .finish, .call .receive, .finish]

/-- A call of `create` that finds no stack, which moves `nextpid` on all the same. -/
def failedCreate : List Event :=
  [.call (.create 0x100000 0x1000000 10 (fun _ => 0) []), .finish]

/-- After that the first process kills the second, and makes processes until the entry of the
second is used again. -/
def reuseEntry : List Event :=
  threeGenerations ++ [.call (.kill 2), .finish] ++ (List.replicate 96 failedCreate).flatten ++
    [makeProcess 10, .finish]

theorem death_notice_run : ∃ x t, Watched Registry.see .start always x ∧
    step x.1 (.call (.kill 3)) = some t ∧ x.2.recipient x.1.k 3 = some ⟨2, 1⟩ ∧
    (⟨2, 1⟩ = x.2.creator 3 ↔ ¬ x.2.recycled 3) := by
  have hrun : ((watchFromBoot Registry.see .start always threeGenerations).bind fun x =>
      step x.1 (.call (.kill 3))).isSome = true := by decide +kernel
  have hall : ∀ x ∈ watchFromBoot Registry.see .start always threeGenerations,
      killable 3 x.1.k ∧ x.2.recipient x.1.k 3 = some ⟨2, 1⟩ := by decide +kernel
  obtain ⟨t, ht⟩ := Option.isSome_iff_exists.mp hrun
  obtain ⟨x, hx, hs⟩ := Option.bind_eq_some_iff.mp ht
  obtain ⟨hk, hrec⟩ := hall x hx
  have hw := watched_watchFromBoot hx
  exact ⟨x, t, hw, hs, hrec, ((death_notice hw rfl hk hs).2.2 _ hrec).2⟩

/-- **A notice to a stranger**: the creator of process 3 has died, another process uses its entry,
and the notice is delivered to that one. -/
theorem notice_to_stranger : ∃ x t, Watched Registry.see .start always x ∧
    step x.1 (.call (.kill 3)) = some t ∧ x.2.creator 3 = ⟨2, 1⟩ ∧
    x.2.recipient x.1.k 3 = some ⟨2, 2⟩ ∧ (x.1.k.proctab 2).prtmpvalid = 0 ∧
    (t.k.proctab 2).prtmpvalid = 1 ∧ (t.k.proctab 2).prtmpbuf = 3 := by
  have hrun : ((watchFromBoot Registry.see .start always reuseEntry).bind fun x =>
      (step x.1 (.call (.kill 3))).map fun t => decide (x.2.creator 3 = ⟨2, 1⟩ ∧
        x.2.recipient x.1.k 3 = some ⟨2, 2⟩ ∧ (x.1.k.proctab 2).prtmpvalid = 0 ∧
        (t.k.proctab 2).prtmpvalid = 1 ∧ (t.k.proctab 2).prtmpbuf = 3)) = some true := by
    decide +kernel
  obtain ⟨x, hx, hs⟩ := Option.bind_eq_some_iff.mp hrun
  obtain ⟨t, ht, hall⟩ := Option.map_eq_some_iff.mp hs
  exact ⟨x, t, watched_watchFromBoot hx, ht, of_decide_eq_true hall⟩

end Xinu
