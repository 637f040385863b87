/-
# `send` against the routine it replaced

`send.c.orig` stores the message in `prmsg`, sets `prhasmsg` and wakes a process that waits in
`receive` or `recvtime`.  In `send.c` those statements are commented out for every receiver, not
only for one with a callback: a message goes to `prtmpbuf`, and nobody is woken.  `receive.c`,
`recvtime.c` and `recvclr.c` were not changed and look at `prhasmsg` only.

So the two routines agree exactly where both refuse.  Whatever is sent, `prhasmsg` is never set
in any run (`Reachable.silent`): `receive` never returns, `recvtime` always times out and
`recvclr` never finds a message.
-/
import Xinu.Mail

namespace Xinu

open Runs

variable {k k' : Kernel} {s s' : Sys}

/-! ## 1. One call

The two routines are called in one state, and what they leave in the tables is compared. -/

/-- The result of a call and what it leaves in the process table and the queue table. -/
def outcome (r : Option (Kernel × Int)) : Option (Int × (Int → Procent) × QTab) :=
  r.map fun x => (x.2, x.1.proctab, x.1.queuetab)

/-- `send` writes two of the message fields. -/
theorem send_mail_fields {pid : Int} {msg : Nat} {r : Kernel × Int} (h : send pid msg k = some r)
    (p : Int) : ∃ buf valid, mail r.1 p =
      { mail k p with prtmpbuf := buf, prtmpvalid := valid } := by
  rcases send_cases h with ⟨-, rfl⟩ | ⟨-, -, hm⟩
  · exact ⟨_, _, rfl⟩
  · rw [hm]
    by_cases hp : p = pid
    · subst hp
      exact ⟨msg, 1, Function.update_self _ _ _⟩
    · exact ⟨_, _, Function.update_of_ne hp _ _⟩

/-- `send` never touches `prhasmsg`. -/
theorem send_prhasmsg {pid : Int} {msg : Nat} {r : Kernel × Int} (h : send pid msg k = some r)
    (p : Int) : (r.1.proctab p).prhasmsg = (k.proctab p).prhasmsg := by
  obtain ⟨buf, valid, hm⟩ := send_mail_fields h p
  exact congrArg Mail.prhasmsg hm

/-- Nor `prmsg`. -/
theorem send_prmsg {pid : Int} {msg : Nat} {r : Kernel × Int} (h : send pid msg k = some r)
    (p : Int) : (r.1.proctab p).prmsg = (k.proctab p).prmsg := by
  obtain ⟨buf, valid, hm⟩ := send_mail_fields h p
  exact congrArg Mail.prmsg hm

/-- `send` does not return only when it searches a stack. -/
theorem send_none {pid : Int} {msg : Nat} (h : send pid msg k = none) :
    (k.proctab pid).prstate = .sleep := by
  unfold send at h
  split_ifs at h with h1 h2
  simp only at h
  split_ifs at h with h3
  rw [setProc_same] at h3
  exact h3

/-- The replaced routine: what it does to the message fields, for a process that exists. -/
theorem sendOrig_mail {pid : Int} {msg : Nat} {r : Kernel × Int} (hgood : ¬ isbadpid k pid)
    (h : sendOrig pid msg k = some r) :
    (k.proctab pid).prhasmsg ≠ 0 ∧ r = (k, SYSERR) ∨
      (k.proctab pid).prhasmsg = 0 ∧ mail r.1 = Function.update (mail k) pid
        { mail k pid with prmsg := msg, prhasmsg := TRUE } := by
  have hset : mail (k.setProc pid fun p => { p with prmsg := msg, prhasmsg := TRUE }) =
      Function.update (mail k) pid { mail k pid with prmsg := msg, prhasmsg := TRUE } :=
    mail_setProc k pid _
  unfold sendOrig at h
  rw [if_neg hgood] at h
  split_ifs at h with h1
  · exact Or.inl ⟨h1, (Option.some.inj h).symm⟩
  refine Or.inr ⟨not_not.mp h1, ?_⟩
  simp only at h
  split_ifs at h with h2 h3
  · obtain ⟨x, hx, h⟩ := Option.bind_eq_some_iff.mp h
    rw [← Option.some.inj h, (ready_only hx).mail]
    exact hset
  · obtain ⟨x, hx, h⟩ := Option.bind_eq_some_iff.mp h
    rw [← Option.some.inj h, (ready_only hx).mail, (unsleep_only pid _).mail]
    exact hset
  · rw [← Option.some.inj h]
    exact hset

/-- So the process has a message afterwards. -/
theorem sendOrig_some {pid : Int} {msg : Nat} {r : Kernel × Int} (hgood : ¬ isbadpid k pid)
    (h : sendOrig pid msg k = some r) :
    (k.proctab pid).prhasmsg ≠ 0 ∧ r = (k, SYSERR) ∨
      (k.proctab pid).prhasmsg = 0 ∧ (r.1.proctab pid).prhasmsg = TRUE := by
  rcases sendOrig_mail hgood h with hfull | ⟨hempty, hm⟩
  · exact Or.inl hfull
  · have hp := congrFun hm pid
    rw [Function.update_self] at hp
    exact Or.inr ⟨hempty, congrArg Mail.prhasmsg hp⟩

theorem sendOrig_none {pid : Int} {msg : Nat} (h : sendOrig pid msg k = none) :
    (k.proctab pid).prstate = .recv ∨ (k.proctab pid).prstate = .rectim := by
  unfold sendOrig at h
  split_ifs at h with h1 h2
  simp only at h
  split_ifs at h with h3 h4
  · rw [setProc_same] at h3
    exact Or.inl h3
  · rw [setProc_same] at h4
    exact Or.inr h4

/-- **`send` does what `send.c.orig` does exactly where it refuses the pid.** -/
theorem send_agrees_iff {pid : Int} (msg : Nat) (hcb : (k.proctab pid).prcbvalid = 0) :
    outcome (send pid msg k) = outcome (sendOrig pid msg k) ↔ isbadpid k pid := by
  constructor
  · intro h
    by_contra hgood
    have haccept : accepts pid k :=
      ⟨hgood, fun hv => by rw [hcb] at hv; exact absurd hv.1 (by decide)⟩
    cases hs : send pid msg k with
    | none =>
      -- one routine searches a stack for ever, the other a list
      rw [hs] at h
      have ho : sendOrig pid msg k = none := Option.map_eq_none_iff.mp h.symm
      have h1 := send_none hs
      rcases sendOrig_none ho with h2 | h2 <;> rw [h1] at h2 <;> simp at h2
    | some r =>
      rw [hs] at h
      obtain ⟨r', ho, he⟩ := Option.map_eq_some_iff.mp h.symm
      simp only [Prod.mk.injEq] at he
      have hok : r.2 = OK := by
        rcases send_cases hs with ⟨hno, -⟩ | ⟨-, hok, -⟩
        · exact absurd haccept hno
        · exact hok
      rcases sendOrig_some hgood ho with ⟨-, rfl⟩ | ⟨h1, h2⟩
      · rw [hok] at he
        exact absurd (show SYSERR = OK from he.1) (by decide)
      · rw [he.2.1, send_prhasmsg hs, h1] at h2
        exact absurd h2 (by decide)
  · intro h
    simp [send, sendOrig, h]

/-! ## 2. No message ever arrives

That `prhasmsg` is never set is an invariant of runs, and from it follows what each of the three
receiving routines does. -/

/-- Nobody has a message, and whoever called `receive` is still there. -/
structure Silent (s : Sys) : Prop where
  flags : ∀ p, (s.k.proctab p).prhasmsg = 0
  receiving : ∀ p, s.cont p = .receive →
    (s.k.proctab p).prstate = .recv ∨ (s.k.proctab p).prstate = .free

/-- No operation sets the flag. -/
theorem MailOp.on_prhasmsg (o : MailOp) {b : Mail} (h : b.prhasmsg = 0) :
    (o.on b).prhasmsg = 0 := by
  cases o <;> first | exact h | rfl

theorem runOps_prhasmsg {os : List MailOp} (h : ∀ p, (k.proctab p).prhasmsg = 0)
    (hm : mail k' = runOps os (mail k)) (p : Int) : (k'.proctab p).prhasmsg = 0 := by
  have hall : ∀ p, (runOps os (mail k) p).prhasmsg = 0 :=
    runOps_all (P := fun _ b => b.prhasmsg = 0) h fun o _ b hb => o.on_prhasmsg hb
  rw [← hm] at hall
  exact hall p

/-- `receive` without a message leaves its caller in `PR_RECV`. -/
theorem receive_blocks (h : Settled False k) (hflag : (k.proctab k.currpid).prhasmsg = 0)
    (hcur : k.currpid ≠ NULLPROC) {r : Kernel × Cont} (hr : receive k = some r) :
    (r.1.proctab k.currpid).prstate = .recv := by
  have hblock : receive k = (resched (k.setState k.currpid .recv)).bind fun k =>
      some (k, .receive) := by simp [receive, hflag]
  obtain ⟨k₁, h1, -, hq⟩ := block_settled h hcur (Or.inl rfl)
  rw [hblock, h1] at hr
  rw [← Option.some.inj hr]
  exact (hq.stays _).recv (by rw [setState_same])

/-- Only `receive` leaves the rest of `receive` to do. -/
theorem enter_receive {c : Call} {r : Kernel × Cont} (he : c.enter k = some r)
    (hr : r.2 = .receive) : c = .receive := by
  have hret : ∀ f : Option (Kernel × Int), returning f ≠ some r := by
    intro f hf
    obtain ⟨x, -, rfl⟩ := returning_some hf
    simp at hr
  have hkill : ∀ pid, kill pid k ≠ some r := by
    intro pid hk
    rcases kill_cases hk with ⟨-, rfl⟩ | ⟨-, -, -, -, k₂, -, -, -, hsw⟩
    · simp at hr
    · unfold killSwitch at hsw
      split at hsw
      · obtain ⟨y, -, hy⟩ := Option.bind_eq_some_iff.mp hsw
        rw [← Option.some.inj hy] at hr
        simp at hr
      all_goals
        rw [← Option.some.inj hsw] at hr
        simp at hr
  cases c with
  | receive => rfl
  | kill pid => exact absurd he (hkill pid)
  | userret => exact absurd he (hkill _)
  | suspend pid => rcases suspend_cont he with e | e <;> rw [e] at hr <;> simp at hr
  | recvtime w => rcases recvtime_cont he with e | e <;> rw [e] at hr <;> simp at hr
  | _ => exact absurd he (hret _)

/-- The rest of a call does not end in `receive`. -/
theorem finish_cont {c : Cont} {r : Kernel × Cont} (hf : finishCall k c = some r) :
    r.2 ≠ .receive := by
  cases c with
  | user => simp [finishCall] at hf
  | clkhandler =>
    rw [finishCall] at hf
    obtain ⟨k₁, -, rfl⟩ := Option.map_eq_some_iff.mp hf
    simp
  | _ =>
    obtain rfl := Option.some.inj hf
    simp

/-- **The step lemma.** -/
theorem Silent.step {e : Event} (h : Silent s) (hi : SysInv False s)
    (hs : Xinu.step s e = some s') : Silent s' := by
  have hrun := hi.kernel.settled.running
  cases e with
  | call c =>
    simp only [Xinu.step] at hs
    split_ifs at hs with hg
    obtain ⟨r, hr, rfl⟩ := Option.map_eq_some_iff.mp hs
    have he := enter_spec hi.kernel hg.2.2 False.elim hr
    refine ⟨runOps_prhasmsg h.flags (enter_mail hi.kernel hg.2.2 hr), fun p hp => ?_⟩
    by_cases hm : c.made r.2 = some p
    · simp [assignAt, hm] at hp
    · have hp' : Function.update s.cont s.k.currpid r.2 p = .receive :=
        (assignAt_of_ne hm).symm.trans hp
      by_cases hpc : p = s.k.currpid
      · subst hpc
        rw [Function.update_self] at hp'
        obtain rfl := enter_receive hr hp'
        exact Or.inl (receive_blocks hi.kernel.settled (h.flags _)
          (fun e => absurd (hg.2.2 e) (by simp [Call.byNull])) hr)
      · rw [Function.update_of_ne hpc] at hp'
        rcases he.stays p hm with hst | hst
        · exact (h.receiving p hp').imp hst.recv hst.life.mpr
        · exact Or.inr hst.2
  | finish =>
    obtain ⟨r, hr, rfl⟩ := Option.map_eq_some_iff.mp hs
    obtain ⟨-, hst, -⟩ := finish_spec hi.kernel hi.alive hr
    refine ⟨runOps_prhasmsg h.flags (finish_mail hi.kernel.settled hr), fun p hp => ?_⟩
    by_cases hpc : p = s.k.currpid
    · subst hpc
      simp only [Function.update_self] at hp
      exact absurd hp (finish_cont hr)
    · simp only [Function.update_of_ne hpc] at hp
      exact (h.receiving p hp).imp (hst p).recv (hst p).life.mpr
  | callback =>
    simp only [Xinu.step] at hs
    split_ifs at hs with hg hc
    · obtain rfl := Option.some.inj hs
      have hb := usercb_bland s.k
      refine ⟨runOps_prhasmsg h.flags (usercb_mail s.k), fun p hp => ?_⟩
      have hst := Stays.of_prstate (hb.same.prstate p)
      exact (h.receiving p hp).imp hst.recv hst.life.mpr
    · obtain rfl := Option.some.inj hs
      exact ⟨h.flags, h.receiving⟩
  | tick =>
    simp only [Xinu.step] at hs
    split_ifs at hs with hg
    obtain ⟨k₁, hk, rfl⟩ := Option.map_eq_some_iff.mp hs
    have hq := (clkhandler_keeps hi.kernel.settled hk).quiet
    have hm : mail k₁ = runOps [] (mail s.k) := hq.mail
    refine ⟨runOps_prhasmsg h.flags hm, fun p hp => ?_⟩
    by_cases hpc : p = s.k.currpid
    · subst hpc
      simp at hp
    · simp only [Function.update_of_ne hpc] at hp
      exact (h.receiving p hp).imp (hq.stays p).recv (hq.stays p).life.mpr
  | store a v =>
    simp only [Xinu.step] at hs
    split_ifs at hs with hg
    obtain rfl := Option.some.inj hs
    exact ⟨h.flags, h.receiving⟩

/-- Before the first process runs nobody has a message. -/
theorem boot_silent {image : Image} {heap : Heap} (h : boot image heap = some s) : Silent s := by
  obtain ⟨base, hb⟩ := boot_spec h
  refine ⟨fun p => ?_, fun p hp => ?_⟩
  · rw [hb.proctab]
    by_cases hp : p = NULLPROC
    · subst hp; rw [Function.update_self]; rfl
    · rw [Function.update_of_ne hp]; rfl
  · rw [hb.cont] at hp
    simp at hp

/-- **In every run, no process ever has a message to receive.** -/
theorem Reachable.silent {ok : Sys → Event → Prop} (h : Reachable ok s) : Silent s := by
  obtain ⟨image, heap, s₀, hb, hr⟩ := h
  have hinv := hr.invariant (I := fun s => SysInv False s ∧ Silent s)
    ⟨boot_inv hb, boot_silent hb⟩ fun t e u ht _ hs =>
      ⟨step_inv ht.1 False.elim hs, ht.2.step ht.1 hs⟩
  exact hinv.2

/-! ## 3. What was sent and what arrives

An observer keeps the accepted messages beside the system.  Where every message goes to a bad pid
it has nothing to note, and a message that was accepted is returned by no call. -/

/-- The messages `send` accepted and nobody received yet, and whether one was ever lost, repeated
or made up. -/
structure Mailbox where
  pending : Int → Option Nat
  broken : Bool

def Mailbox.empty : Mailbox := ⟨fun _ => none, false⟩

/-- `send` returns `OK`. -/
def Mailbox.accept (b : Mailbox) (pid : Int) (msg : Nat) : Mailbox :=
  ⟨Function.update b.pending pid (some msg), b.broken || (b.pending pid).isSome⟩

/-- `receive`, `recvtime` or `recvclr` returns to `pid` with the message `m`, or without one. -/
def Mailbox.returns (b : Mailbox) (pid : Int) (m : Option Nat) : Mailbox :=
  ⟨Function.update b.pending pid none, b.broken || decide (b.pending pid ≠ m)⟩

/-- The observer of messages.  A process that is made has none. -/
def Mailbox.see (s : Sys) (e : Event) (t : Sys) (b : Mailbox) : Mailbox :=
  match e with
  | .call c =>
    let b := match c.message s.k with
      | some (pid, msg) =>
        if (send pid msg s.k).map Prod.snd = some OK then b.accept pid msg else b
      | none => b
    let b := match c with
      | .recvclr => b.returns s.k.currpid (recvclr s.k).2
      | _ => b
    { b with pending := assignAt (c.made (t.cont s.k.currpid)) none b.pending }
  | .finish =>
    match s.cont s.k.currpid with
    | .receive => b.returns s.k.currpid (some (receiveTail s.k).2)
    | .recvtime => b.returns s.k.currpid (recvtimeTail s.k).2
    | _ => b
  | _ => b

/-- Every accepted message is returned once by the next receiving call, and nobody waits in
`receive` for a message that was accepted. -/
structure Delivers (x : Sys × Mailbox) : Prop where
  exact : x.2.broken = false
  woken : ∀ p, IsProc p → (x.1.k.proctab p).prstate = .recv → x.2.pending p = none

/-- Every message the step sends goes to a bad pid. -/
def SendsRefused (x : Sys × Mailbox) (e : Event) : Prop :=
  ∀ c pid, e = .call c → c.sendsTo x.1.k = some pid → isbadpid x.1.k pid

theorem Mailbox.returns_empty (pid : Int) : Mailbox.empty.returns pid none = .empty := by
  simp [Mailbox.returns, Mailbox.empty]

/-- **An observer of refused messages sees nothing.** -/
theorem Mailbox.see_refused {e : Event} (h : Silent s) (hi : SysInv False s)
    (hok : SendsRefused (s, .empty) e) : Mailbox.see s e s' .empty = .empty := by
  have hflag := h.flags s.k.currpid
  cases e with
  | call c =>
    have hsend : (match c.message s.k with
        | some (pid, msg) =>
          if (send pid msg s.k).map Prod.snd = some OK then Mailbox.empty.accept pid msg else .empty
        | none => Mailbox.empty) = .empty := by
      cases hm : c.message s.k with
      | none => rfl
      | some m =>
        have hbad : isbadpid s.k m.1 := hok c m.1 rfl (by rw [Call.sendsTo, hm]; rfl)
        have hne : ¬ SYSERR = OK := by decide
        simp [send, hbad, hne]
    have hclr : (match c with
        | .recvclr => Mailbox.empty.returns s.k.currpid (recvclr s.k).2
        | _ => Mailbox.empty) = .empty := by
      split
      · rw [recvclr, if_neg (by rw [hflag]; decide)]
        exact Mailbox.returns_empty _
      · rfl
    simp only [Mailbox.see, hsend, hclr]
    cases c.made (s'.cont s.k.currpid) with
    | none => rfl
    | some p => simp [assignAt, Mailbox.empty]
  | finish =>
    simp only [Mailbox.see]
    split
    · -- whoever is in `receive` does not run
      rename_i hc
      have hrun := hi.kernel.settled.running
      rcases h.receiving _ hc with e | e <;> rw [hrun] at e <;> simp at e
    · rw [recvtimeTail, if_neg (by rw [hflag]; decide)]
      exact Mailbox.returns_empty _
    · rfl
  | callback => rfl
  | tick => rfl
  | store a v => rfl

/-- **Where `send` is what it replaced.**  The two routines agree exactly on bad pids; and in
every run in which messages go to bad pids only, every accepted message arrives. -/
theorem send_refines (k : Kernel) (pid : Int) (msg : Nat) :
    ((k.proctab pid).prcbvalid = 0 →
      (outcome (send pid msg k) = outcome (sendOrig pid msg k) ↔ isbadpid k pid)) ∧
    ∀ x, Watched Mailbox.see .empty SendsRefused x → Delivers x := by
  refine ⟨fun hcb => send_agrees_iff msg hcb, fun x hx => ?_⟩
  obtain ⟨image, heap, s₀, hb, hr⟩ := hx
  have hinv := hr.invariant (I := fun x => SysInv False x.1 ∧ Silent x.1 ∧ x.2 = .empty)
    ⟨boot_inv hb, boot_silent hb, rfl⟩ fun y e z hy hok hs => by
      obtain ⟨t, ht, rfl⟩ := Runs.watch_some.mp hs
      obtain ⟨s, b⟩ := y
      obtain ⟨h1, h2, rfl⟩ := hy
      exact ⟨step_inv h1 False.elim ht, h2.step h1 ht, Mailbox.see_refused h2 h1 hok⟩
  obtain ⟨s, b⟩ := x
  obtain ⟨-, -, rfl⟩ := hinv
  exact ⟨rfl, fun _ _ _ => rfl⟩

/-- The first process makes a second one of higher priority, which waits for a message. -/
def awaitMessage : List Event :=
  [makeMain 20, makeProcess 30, .finish, .call (.resume 2),
    .call .receive, .finish]

/-- **A message is accepted and its receiver waits on**, where the replaced routine would have
made it ready. -/
theorem receiver_not_woken : ∃ s x, Reachable always s ∧ (s.k.proctab 2).prcbvalid = 0 ∧
    outcome (send 2 7 s.k) ≠ outcome (sendOrig 2 7 s.k) ∧
    Watched Mailbox.see .empty always x ∧ (x.1.k.proctab 2).prcbvalid = 0 ∧ ¬ Delivers x := by
  have h1 : (runFromBoot awaitMessage).map (fun s => ((s.k.proctab 2).prcbvalid,
      (outcome (send 2 7 s.k)).map (fun o => (o.2.1 2).prstate),
      (outcome (sendOrig 2 7 s.k)).map (fun o => (o.2.1 2).prstate))) =
      some (0, some .recv, some .curr) := by decide +kernel
  have h2 : (watchFromBoot Mailbox.see .empty always (awaitMessage ++ [.call (.send 2 7)])).map
    (fun x =>
      ((x.1.k.proctab 2).prcbvalid, (x.1.k.proctab 2).prstate, x.2.pending 2)) =
      some (0, .recv, some 7) := by decide +kernel
  obtain ⟨s, hs, he⟩ := Option.map_eq_some_iff.mp h1
  obtain ⟨x, hx, hf⟩ := Option.map_eq_some_iff.mp h2
  simp only [Prod.mk.injEq] at he hf
  refine ⟨s, x, reachable_runFromBoot hs, he.1, fun heq => ?_, watched_watchFromBoot hx, hf.1,
    fun hd => ?_⟩
  · rw [heq, he.2.2] at he
    simp at he
  · have := hd.woken 2 (by decide) hf.2.1
    rw [hf.2.2] at this
    simp at this

end Xinu
