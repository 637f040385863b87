/-
# The message fields as a machine of their own

Seven fields of a table entry have to do with messages and callbacks.  Few routines write them,
and each write is one of seven small operations on the fields of one process (`MailOp`).  This
module says which operations each kernel call amounts to (`enter_mail`) and that nothing else
touches the fields, so that results about messages are results about lists of `MailOp`s.

The operations lose nothing: `MailOp.run` on the fields before a step gives the fields after it.
So an observer of messages does not have to know the kernel, and a frame of messages is a list
without operations on a process.
-/
import Xinu.TableRuns

namespace Xinu

variable {strict : Prop} {k k' : Kernel} {p q : Int}

/-! ## 1. The fields and what is done to them

Each operation is about one process, and the entries of all others stay as they are.  A process
can deliver to another one; take, copy or clear its own message; register and unregister its
callback; and be made anew. -/

/-- The message and callback fields of `struct procent`. -/
structure Mail where
  prmsg : Nat
  prhasmsg : Bool8
  prcbvalid : Bool8
  prcbptr : Nat
  prmbufptr : Nat
  prtmpbuf : Nat
  prtmpvalid : Bool8
deriving DecidableEq

/-- Those fields of one entry. -/
def Procent.mail (e : Procent) : Mail :=
  ⟨e.prmsg, e.prhasmsg, e.prcbvalid, e.prcbptr, e.prmbufptr, e.prtmpbuf, e.prtmpvalid⟩

/-- Those fields of the whole process table. -/
def mail (k : Kernel) : Int → Mail := fun p => (k.proctab p).mail

/-- An operation on the message fields of one process. -/
inductive MailOp
  /-- `send` accepts a message. -/
  | deliver (pid : Int) (msg : Nat)
  /-- `receive`, `recvtime` or `recvclr` takes one. -/
  | take (pid : Int)
  | register (pid : Int) (fp mbufptr : Nat)
  | unregister (pid : Int)
  /-- `usercb` runs. -/
  | copy (pid : Int)
  /-- `create` makes the process. -/
  | fresh (pid : Int)
  /-- `rcreate` makes the process. -/
  | renew (pid : Int)

def MailOp.pid : MailOp → Int
  | .deliver pid _ | .take pid | .register pid _ _ | .unregister pid | .copy pid => pid
  | .fresh pid | .renew pid => pid

def MailOp.on : MailOp → Mail → Mail
  | .deliver _ msg, b => { b with prtmpvalid := 1, prtmpbuf := msg }
  | .take _, b => { b with prhasmsg := FALSE }
  | .register _ fp mbufptr, b => { b with prcbptr := fp, prmbufptr := mbufptr, prcbvalid := 1 }
  | .unregister _, b => { b with prcbvalid := 0 }
  | .copy _, b => { b with prmbufptr := b.prtmpbuf }
  | .fresh _, b =>
    { b with prhasmsg := FALSE, prcbvalid := 0, prcbptr := 0, prmbufptr := 0, prtmpbuf := 0,
             prtmpvalid := 0 }
  | .renew _, b => { b with prhasmsg := FALSE }

def MailOp.run (o : MailOp) (f : Int → Mail) : Int → Mail :=
  Function.update f o.pid (o.on (f o.pid))

def runOps (os : List MailOp) (f : Int → Mail) : Int → Mail := os.foldl (fun f o => o.run f) f

@[simp] theorem runOps_nil (f : Int → Mail) : runOps [] f = f := rfl

theorem runOps_cons (o : MailOp) (os : List MailOp) (f : Int → Mail) :
    runOps (o :: os) f = runOps os (o.run f) := rfl

/-- A property that every operation keeps at its process is kept. -/
theorem runOps_all {P : Int → Mail → Prop} {os : List MailOp} {f : Int → Mail}
    (h : ∀ p, P p (f p)) (hop : ∀ o ∈ os, ∀ b, P o.pid b → P o.pid (o.on b)) :
    ∀ p, P p (runOps os f p) := by
  induction os generalizing f with
  | nil => exact h
  | cons o os ih =>
    rw [runOps_cons]
    refine ih (fun p => ?_) fun o' ho' => hop o' (by simp [ho'])
    by_cases hp : p = o.pid
    · subst hp
      rw [MailOp.run, Function.update_self]
      exact hop o (by simp) _ (h _)
    · rw [MailOp.run, Function.update_of_ne hp]
      exact h p

/-- What one operation does to the entry of its process, and to the others. -/
theorem mail_run_self {o : MailOp} (h : mail k' = o.run (mail k)) :
    (k'.proctab o.pid).mail = o.on (k.proctab o.pid).mail := by
  have := congrFun h o.pid
  rw [MailOp.run, Function.update_self] at this
  exact this

theorem mail_run_of_ne {o : MailOp} (h : mail k' = o.run (mail k)) (hp : p ≠ o.pid) :
    (k'.proctab p).mail = (k.proctab p).mail := by
  have := congrFun h p
  rw [MailOp.run, Function.update_of_ne hp] at this
  exact this

/-! ## 2. What a call amounts to

Most calls amount to nothing.  `send` delivers when the recipient has no message; `kill` is a
`send` to the parent and whatever becomes of the victim's fields. -/

/-- The operation of an accepted `send`. -/
def sendOps (m : Option (Int × Nat)) (k : Kernel) : List MailOp :=
  match m with
  | none => []
  | some (pid, msg) => if accepts pid k then [.deliver pid msg] else []

/-- The operations a call, entered in `k` and leaving `v` to do, amounts to. -/
def Call.mailOps (c : Call) (k : Kernel) (v : Cont) : List MailOp :=
  match c with
  | .create .. => (c.made v).toList.map .fresh
  | .rcreate .. => (c.made v).toList.map .renew
  | .recvclr => if (k.proctab k.currpid).prhasmsg = TRUE then [.take k.currpid] else []
  | .cbregister fp mbufptr => if v = .ret OK then [.register k.currpid fp mbufptr] else []
  | .cbunregister => if v = .ret OK then [.unregister k.currpid] else []
  | _ => sendOps (c.message k) k

/-- The operations the rest of a call amounts to. -/
def Cont.mailOps (k : Kernel) : Cont → List MailOp
  | .receive => [.take k.currpid]
  | .recvtime => if (k.proctab k.currpid).prhasmsg ≠ 0 then [.take k.currpid] else []
  | _ => []

/-! ## 3. Which routines touch the fields

The routines one by one, from the assignments to the system's step.  Scheduling touches none of
the fields, and neither do the heap and the semaphores. -/

/-- An assignment to an entry is one to its message fields. -/
theorem mail_setProc (k : Kernel) (p : Int) (f : Procent → Procent) :
    mail (k.setProc p f) = Function.update (mail k) p (f (k.proctab p)).mail := by
  funext x
  by_cases hx : x = p
  · subst hx; rw [Function.update_self, mail, setProc_same]
  · rw [Function.update_of_ne hx, mail, setProc_of_ne k f hx, mail]

/-- One that leaves the message fields alone. -/
theorem mail_setProc_same (k : Kernel) (p : Int) {f : Procent → Procent}
    (hf : ∀ e, (f e).mail = e.mail) : mail (k.setProc p f) = mail k := by
  rw [mail_setProc, hf]
  exact Function.update_eq_self p _

/-- An assignment that is an operation. -/
theorem mail_setProc_op (k : Kernel) {p : Int} {f : Procent → Procent} (o : MailOp)
    (hp : o.pid = p) (hf : (f (k.proctab p)).mail = o.on (k.proctab p).mail) :
    mail (k.setProc p f) = o.run (mail k) := by
  subst hp
  rw [mail_setProc, hf]
  rfl

@[simp] theorem mail_setHeap (k : Kernel) (h : Heap) : mail (k.setHeap h) = mail k := rfl

theorem Quiet.mail (h : Quiet k k') : mail k' = mail k := by
  funext x
  have hx := h.proc x
  exact (congrArg Procent.mail hx :)

theorem SchedOnly.mail (h : SchedOnly k k') : Xinu.mail k' = Xinu.mail k := by
  funext x
  exact (congrArg Procent.mail (h.entries x) :)

/-- **`send` refuses and changes nothing, or accepts and delivers.** -/
theorem send_cases {pid : Int} {msg : Nat} {r : Kernel × Int} (h : send pid msg k = some r) :
    ¬ accepts pid k ∧ r = (k, SYSERR) ∨
      accepts pid k ∧ r.2 = OK ∧ mail r.1 = (MailOp.deliver pid msg).run (mail k) := by
  unfold send at h
  split_ifs at h with h1 h2
  · exact Or.inl ⟨fun ha => ha.1 h1, (Option.some.inj h).symm⟩
  · exact Or.inl ⟨fun ha => ha.2 h2, (Option.some.inj h).symm⟩
  · refine Or.inr ⟨⟨h1, h2⟩, ?_⟩
    have hm : mail (k.setProc pid fun p => { p with prtmpvalid := 1, prtmpbuf := msg }) =
        (MailOp.deliver pid msg).run (mail k) := mail_setProc k pid _
    simp only at h
    split_ifs at h with h3
    · obtain ⟨x, -, hx⟩ := Option.bind_eq_some_iff.mp h
      rw [← Option.some.inj hx]
      exact ⟨rfl, hm⟩
    · rw [← Option.some.inj h]
      exact ⟨rfl, hm⟩

/-- **`send`** on the message fields. -/
theorem send_mail {pid : Int} {msg : Nat} {r : Kernel × Int} (h : send pid msg k = some r) :
    mail r.1 = runOps (sendOps (some (pid, msg)) k) (mail k) := by
  rcases send_cases h with ⟨ha, rfl⟩ | ⟨ha, -, hm⟩
  · simp [sendOps, ha]
  · rw [hm]; simp [sendOps, ha, runOps]

/-- The calls that write the heap and nothing else. -/
def Call.isHeap : Call → Bool
  | .getmem _ | .freemem _ _ | .getstk _ | .freestk _ _ => true
  | _ => false

/-- A call of the allocator changes the heap only. -/
theorem enter_heap {c : Call} (hc : c.isHeap = true) {r : Kernel × Cont}
    (he : c.enter k = some r) : ∃ h, r.1 = k.setHeap h := by
  cases c with
  | getmem n | getstk n =>
    obtain ⟨x, hx, rfl⟩ := returning_some he
    obtain ⟨y, hy, rfl⟩ := Option.map_eq_some_iff.mp hx
    obtain ⟨z, -, hz⟩ := Option.bind_eq_some_iff.mp hy
    exact ⟨z.1, by rw [← Option.some.inj hz]⟩
  | freemem a n | freestk a n =>
    obtain ⟨x, hx, rfl⟩ := returning_some he
    obtain ⟨z, -, hz⟩ := Option.bind_eq_some_iff.mp hx
    exact ⟨z.1, by rw [← Option.some.inj hz]⟩
  | _ => simp [Call.isHeap] at hc

/-- The fields of a new process. -/
theorem setupProc_mail {fill : Int → Kernel → Kernel} {f n saddr : Nat} {prio : Pri16}
    {nm : Nat → UInt8} {as : List Nat} {pid : Int} {o : MailOp}
    (hfill : ∀ k, (k.proctab pid).prhasmsg = FALSE → mail (fill pid k) = o.run (mail k))
    (ho : o.run ((MailOp.renew pid).run (mail k)) = o.run (mail k)) :
    mail (setupProc fill f n prio nm as pid saddr k) = o.run (mail k) := by
  unfold setupProc
  dsimp only
  set k₁ : Kernel := { k with prcount := k.prcount + 1 }
  have h₁ : mail (k₁.setProc pid (initProc saddr n prio nm k₁.currpid)) =
      (MailOp.renew pid).run (mail k) := mail_setProc k₁ pid _
  have hflag : ((k₁.setProc pid (initProc saddr n prio nm k₁.currpid)).proctab pid).prhasmsg =
      FALSE := by rw [setProc_same]; rfl
  have h₂ := hfill _ hflag
  rw [h₁, ho] at h₂
  have hptr : ∀ (k : Kernel) (sp : Nat), mail (k.setProc pid fun p => { p with prstkptr := sp }) =
      mail k := fun k sp => mail_setProc_same k pid fun _ => rfl
  exact (hptr _ _).trans h₂

/-- What `create` clears of a new entry. -/
theorem createFill_mail (pid : Int) (k : Kernel) (h : (k.proctab pid).prhasmsg = FALSE) :
    mail (createFill pid k) = (MailOp.fresh pid).run (mail k) := by
  unfold createFill
  rw [mail_setProc]
  have he : (initCallback (k.proctab pid)).mail = (MailOp.fresh pid).on (mail k pid) := by
    simp only [initCallback, Procent.mail, MailOp.on, mail, h]
  exact congrArg (Function.update (mail k) pid) he

theorem makeProc_mail {fill : Int → Kernel → Kernel} {f n : Nat} {prio : Pri16}
    {nm : Nat → UInt8} {as : List Nat} {pid : Int} {r : Kernel × Int} (op : Int → MailOp)
    (hfill : ∀ k, (k.proctab pid).prhasmsg = FALSE → mail (fill pid k) = (op pid).run (mail k))
    (ho : ∀ k, (op pid).run ((MailOp.renew pid).run (mail k)) = (op pid).run (mail k))
    (h : makeProc fill f n prio nm as pid k = some r) :
    mail r.1 = runOps ((if r.2 = SYSERR then none else some r.2 : Option Int).toList.map op)
      (mail k) := by
  have hg : ∀ k₁ a, k.getstk n = some (k₁, a) → mail k₁ = mail k := by
    intro k₁ a hg
    obtain ⟨x, -, hx⟩ := Option.bind_eq_some_iff.mp hg
    obtain ⟨rfl, -⟩ := Prod.mk.inj (Option.some.inj hx)
    rfl
  rcases makeProc_cases h with rfl | ⟨k₁, hs, rfl⟩ | ⟨h0, k₁, saddr, hs, -, rfl⟩
  · simp
  · simp [hg k₁ _ hs]
  · simp only [h0, if_false, Option.toList_some, List.map_cons, List.map_nil, runOps_cons,
      runOps_nil]
    rw [setupProc_mail hfill (ho k₁), hg k₁ _ hs]

/-- Clearing all of the message fields makes up for what was done to them before. -/
theorem fresh_renew (pid : Int) (f : Int → Mail) :
    (MailOp.fresh pid).run ((MailOp.renew pid).run f) = (MailOp.fresh pid).run f := by
  simp [MailOp.run, MailOp.pid, MailOp.on]

theorem renew_renew (pid : Int) (f : Int → Mail) :
    (MailOp.renew pid).run ((MailOp.renew pid).run f) = (MailOp.renew pid).run f := by
  simp [MailOp.run, MailOp.pid, MailOp.on]

/-- `renew` clears a flag that is clear. -/
theorem renew_same {pid : Int} (h : (k.proctab pid).prhasmsg = FALSE) :
    (MailOp.renew pid).run (mail k) = mail k := by
  have he : (MailOp.renew pid).on (mail k pid) = mail k pid := by
    simp only [MailOp.on, mail, Procent.mail, h]
  rw [MailOp.run, MailOp.pid, he]
  exact Function.update_eq_self pid _

/-- **`kill`** sends a notice if the process can be killed. -/
theorem kill_mail (h : KernelInv strict k) {pid : Int} {r : Kernel × Cont}
    (hk : kill pid k = some r) : mail r.1 =
      runOps (sendOps (if killable pid k then some ((k.proctab pid).prparent, pid.toNat) else
        none) k)
        (mail k) := by
  rcases kill_cases hk with ⟨hbad, rfl⟩ | ⟨hgood, hnull, k₁, v₁, k₂, v₂, hs, hf, hk⟩
  · have hno : ¬ killable pid k := fun hb => hbad.elim hb.1 hb.2
    simp [hno, sendOps]
  · have hyes : killable pid k := ⟨hgood, hnull⟩
    obtain ⟨-, hkilled, -⟩ := kill_prefix h hgood hnull hs hf hk
    obtain ⟨y, -, hy⟩ := Option.bind_eq_some_iff.mp hf
    obtain ⟨rfl, -⟩ := Prod.mk.inj (Option.some.inj hy)
    have hm : mail r.1 = mail k₁ := by
      funext x
      have hx := hkilled.proc x
      exact (congrArg Procent.mail hx :)
    rw [if_pos hyes, hm]
    exact send_mail hs

/-- **`create`** clears the message fields of the new process. -/
theorem create_mail {f n : Nat} {prio : Pri16} {nm : Nat → UInt8} {as : List Nat}
    {r : Kernel × Int} (h : create f n prio nm as k = some r) : mail r.1 =
      runOps ((if r.2 = SYSERR then none else some r.2 : Option Int).toList.map .fresh)
        (mail k) := by
  unfold create at h
  split_ifs at h with h1
  · rw [← Option.some.inj h]; rfl
  · simp only at h
    exact (makeProc_mail .fresh (createFill_mail _) (fun k => fresh_renew _ _) h :)

/-- **`rcreate`** leaves the callback of the entry as it was. -/
theorem rcreate_mail {f n : Nat} {prio : Pri16} {nm : Nat → UInt8} {as : List Nat}
    {r : Kernel × Int} (h : rcreate f n prio nm as k = some r) : mail r.1 =
      runOps ((if r.2 = SYSERR then none else some r.2 : Option Int).toList.map .renew)
        (mail k) := by
  unfold rcreate at h
  split_ifs at h with h1
  · rw [← Option.some.inj h]; rfl
  · simp only at h
    obtain ⟨y, hy, h⟩ := Option.bind_eq_some_iff.mp h
    have hm := makeProc_mail .renew (fun k hk => (renew_same hk).symm) (fun k => renew_renew _ _) hy
    split_ifs at h with h2
    · rw [← Option.some.inj h]
      rw [h2] at hm
      exact hm
    · obtain ⟨z, hz, h⟩ := Option.bind_eq_some_iff.mp h
      rw [← Option.some.inj h]
      exact (ready_only hz).mail.trans hm

theorem take_mail (k : Kernel) (p : Int) :
    mail (k.setProc p fun e => { e with prhasmsg := FALSE }) = (MailOp.take p).run (mail k) :=
  mail_setProc_op k (.take p) rfl rfl

theorem register_mail (k : Kernel) (p : Int) (fp mbufptr : Nat) : mail (k.setProc p fun e =>
    { e with prcbptr := fp, prmbufptr := mbufptr, prcbvalid := 1 }) =
      (MailOp.register p fp mbufptr).run (mail k) :=
  mail_setProc_op k (.register p fp mbufptr) rfl rfl

theorem unregister_mail (k : Kernel) (p : Int) :
    mail (k.setProc p fun e => { e with prcbvalid := 0 }) = (MailOp.unregister p).run (mail k) :=
  mail_setProc_op k (.unregister p) rfl rfl

theorem copy_mail (k : Kernel) (p : Int) :
    mail (k.setProc p fun e => { e with prmbufptr := e.prtmpbuf }) =
      (MailOp.copy p).run (mail k) := mail_setProc_op k (.copy p) rfl rfl

/-- `recvclr` takes the message, if there is one. -/
theorem recvclr_mail (k : Kernel) : mail (recvclr k).1 =
    runOps (if (k.proctab k.currpid).prhasmsg = TRUE then [.take k.currpid] else []) (mail k) := by
  unfold recvclr
  split_ifs
  · exact take_mail k _
  · rfl

/-- `chprio` has nothing to do with messages. -/
theorem chprio_mail (pid : Int) (newprio : Pri16) (k : Kernel) :
    mail (chprio pid newprio k).1 = mail k := by
  unfold chprio
  split_ifs
  · rfl
  · dsimp only
    exact mail_setProc_same k pid fun _ => rfl

/-- `cbregister` registers, or is refused. -/
theorem cbregister_mail (fp mbufptr : Nat) (k : Kernel) : mail (cbregister fp mbufptr k).1 =
    runOps (if (cbregister fp mbufptr k).2 = OK then [.register k.currpid fp mbufptr] else [])
      (mail k) := by
  unfold cbregister
  split_ifs with h1 h2 h3 h4 h5 h6 h7
  all_goals first
    | rfl
    | exact absurd ‹SYSERR = OK› (by decide)
    | exact absurd rfl ‹¬ OK = OK›
    | exact register_mail k _ fp mbufptr

/-- `cbunregister` takes the registration back, or is refused. -/
theorem cbunregister_mail (k : Kernel) : mail (cbunregister k).1 =
    runOps (if (cbunregister k).2 = OK then [.unregister k.currpid] else []) (mail k) := by
  unfold cbunregister
  split_ifs with h1 h2 h3
  all_goals first
    | rfl
    | exact absurd ‹SYSERR = OK› (by decide)
    | exact absurd rfl ‹¬ OK = OK›
    | exact unregister_mail k _

/-- **Entering a call amounts to its operations.** -/
theorem enter_mail {c : Call} (h : KernelInv strict k)
    (hnull : k.currpid = NULLPROC → c.byNull = true) {r : Kernel × Cont}
    (he : c.enter k = some r) : mail r.1 = runOps (c.mailOps k r.2) (mail k) := by
  cases c with
  | create f n p nm as =>
    obtain ⟨x, hx, rfl⟩ := returning_some he
    exact create_mail hx
  | rcreate f n p nm as =>
    obtain ⟨x, hx, rfl⟩ := returning_some he
    exact rcreate_mail hx
  | kill pid => exact kill_mail h he
  | userret => exact kill_mail h he
  | recvclr => rw [← Option.some.inj he]; exact recvclr_mail k
  | send pid msg =>
    obtain ⟨x, hx, rfl⟩ := returning_some he
    exact send_mail hx
  | chprio pid newprio => rw [← Option.some.inj he]; exact chprio_mail pid newprio k
  | cbregister fp b =>
    rw [← Option.some.inj he]
    simpa only [Call.mailOps, Cont.ret.injEq] using cbregister_mail fp b k
  | cbunregister =>
    rw [← Option.some.inj he]
    simpa only [Call.mailOps, Cont.ret.injEq] using cbunregister_mail k
  | getmem | freemem | getstk | freestk =>
    obtain ⟨h, hh⟩ := enter_heap rfl he
    rw [hh]
    rfl
  | _ => exact (enter_keeps h.settled rfl hnull he).quiet.mail

/-- What a call step does, as far as messages and contexts go. -/
structure CallStep (s : Sys) (c : Call) (r : Kernel × Cont) (s' : Sys) : Prop where
  enter : c.enter s.k = some r
  idle : s.idle
  free : s.divert s.k.currpid = false
  kernel : s'.k = r.1
  mail : mail s'.k = runOps (c.mailOps s.k r.2) (mail s.k)
  stays : ∀ x, c.made r.2 ≠ some x →
    Stays s.k s'.k x ∨ c.victim s.k = some x ∧ (s'.k.proctab x).prstate = .free
  made : ∀ x, c.made r.2 = some x → (s.k.proctab x).prstate = .free
  /-- Who is in its own code after the step: a new process, or one that was before. -/
  user : ∀ x, s'.cont x = .user → c.made r.2 = some x ∨ x ≠ s.k.currpid ∧ s.cont x = .user
  divert : ∀ x, s'.divert x = true →
    c.made r.2 ≠ some x ∧ (c.diverts s.k = some x ∨ s.divert x = true)

/-- **A call**, by what it does to the messages and to who is where. -/
theorem call_step {s s' : Sys} {c : Call} (h : SysInv strict s)
    (hok : strict → KeepsOrder s (.call c)) (hs : step s (.call c) = some s') :
    ∃ r, CallStep s c r s' := by
  simp only [step] at hs
  split_ifs at hs with hg
  obtain ⟨r, hr, rfl⟩ := Option.map_eq_some_iff.mp hs
  have he := enter_spec h.kernel hg.2.2 (fun hst pid newprio hc => by
    have := hok hst
    rwa [hc] at this) hr
  refine ⟨r, hr, hg.1, hg.2.1, rfl, enter_mail h.kernel hg.2.2 hr, he.stays, he.made,
    fun x hx => ?_, fun x hx => ?_⟩
  · by_cases hm : c.made r.2 = some x
    · exact Or.inl hm
    · refine Or.inr ?_
      have hx' : Function.update s.cont s.k.currpid r.2 x = .user :=
        (assignAt_of_ne hm).symm.trans hx
      by_cases hxc : x = s.k.currpid
      · subst hxc
        rw [Function.update_self] at hx'
        exact absurd hx' (enter_cont hr).1
      · rw [Function.update_of_ne hxc] at hx'
        exact ⟨hxc, hx'⟩
  · by_cases hm : c.made r.2 = some x
    · simp [assignAt, hm] at hx
    · refine ⟨hm, ?_⟩
      have hx' : assignAt (c.diverts s.k) true s.divert x = true :=
        (assignAt_of_ne hm).symm.trans hx
      by_cases hd : c.diverts s.k = some x
      · exact Or.inl hd
      · rw [assignAt_of_ne hd] at hx'
        exact Or.inr hx'

/-- **The rest of a call amounts to its operations.** -/
theorem finish_mail (h : Settled strict k) {c : Cont} {r : Kernel × Cont}
    (hf : finishCall k c = some r) : mail r.1 = runOps (c.mailOps k) (mail k) := by
  cases c with
  | user => simp [finishCall] at hf
  | ret v => rw [← Option.some.inj hf]; rfl
  | suspend pid => rw [← Option.some.inj hf]; rfl
  | receive => rw [← Option.some.inj hf]; exact take_mail k _
  | recvtime =>
    rw [← Option.some.inj hf]
    simp only [recvtimeTail, Cont.mailOps]
    split_ifs
    · exact take_mail k _
    · rfl
  | kill pid =>
    obtain rfl := Option.some.inj hf
    exact ((unsleep_only pid k).trans (setState_only (unsleep pid k).1 pid .free)).mail
  | clkhandler =>
    rw [finishCall] at hf
    obtain ⟨k₁, h1, rfl⟩ := Option.map_eq_some_iff.mp hf
    exact (clkhandlerTail_keeps h h1).quiet.mail
  | iret => rw [← Option.some.inj hf]; rfl

/-- `usercb` copies, if it finds a valid message. -/
theorem usercb_mail (k : Kernel) : mail (usercb k) =
    runOps (if (k.proctab k.currpid).prtmpvalid = 1 then [.copy k.currpid] else []) (mail k) := by
  unfold usercb
  split_ifs
  · exact copy_mail k _
  · rfl

/-- The operations a step amounts to. -/
def Event.mailOps (e : Event) (s : Sys) : List MailOp :=
  match e with
  | .call c => ((c.enter s.k).map fun r => c.mailOps s.k r.2).getD []
  | .finish => (s.cont s.k.currpid).mailOps s.k
  | .callback =>
    if (s.k.proctab s.k.currpid).prcbptr = s.k.image.usercb ∧
      (s.k.proctab s.k.currpid).prtmpvalid = 1 then [.copy s.k.currpid] else []
  | _ => []

/-- **A step amounts to its operations.** -/
theorem step_mail {s s' : Sys} {e : Event} (h : SysInv False s) (hs : step s e = some s') :
    mail s'.k = runOps (e.mailOps s) (mail s.k) := by
  cases e with
  | call c =>
    obtain ⟨r, hc⟩ := call_step h False.elim hs
    simpa [Event.mailOps, hc.enter] using hc.mail
  | finish =>
    obtain ⟨r, hr, rfl⟩ := Option.map_eq_some_iff.mp hs
    exact finish_mail h.kernel.settled hr
  | callback =>
    simp only [step] at hs
    split_ifs at hs with hg hb
    · obtain rfl := Option.some.inj hs
      simpa [Event.mailOps, hb] using usercb_mail s.k
    · obtain rfl := Option.some.inj hs
      simp [Event.mailOps, hb]
  | tick =>
    simp only [step] at hs
    split_ifs at hs with hg
    obtain ⟨k₁, h1, rfl⟩ := Option.map_eq_some_iff.mp hs
    exact (clkhandler_keeps h.kernel.settled h1).quiet.mail
  | store a v =>
    simp only [step] at hs
    split_ifs at hs with hg
    obtain rfl := Option.some.inj hs
    rfl

end Xinu
