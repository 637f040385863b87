/-
# The system: processes calling the kernel, one step at a time

A state of the system is the kernel record together with, for each process, what it still has
to do of the call it is in (`Cont`).  The current process takes the next step: it makes a call,
finishes one, is interrupted by the clock, or writes its memory.  A call is entered in one step
and finished in another, and between the two any number of other processes may run.

A process whose return address `send` has rewritten goes to its callback before its own next
statement.  `divert` records that; which word on the stack was rewritten is the concern of
the frame model, not of this one.
-/
import Xinu.Lib.Runs
import Xinu.Semaphore
import Xinu.Process

namespace Xinu

open ByteMemory

/-! ## 1. Calls -/

/-- The kernel calls, with their arguments. -/
inductive Call
  | create (funcaddr ssize : Nat) (priority : Pri16) (name : Nat → UInt8) (args : List Nat)
  | rcreate (funcaddr ssize : Nat) (priority : Pri16) (name : Nat → UInt8) (args : List Nat)
  | resume (pid : Int)
  | suspend (pid : Int)
  | kill (pid : Int)
  | userret
  | wait (sem : Int)
  | signal (sem : Int)
  | signaln (sem count : Int)
  | semcreate (count : Int)
  | semdelete (sem : Int)
  | semreset (sem count : Int)
  | sleepms (delay : Int)
  | sleep (delay : Int)
  | yield
  | receive
  | recvtime (maxwait : Int)
  | recvclr
  | send (pid : Int) (msg : Nat)
  | chprio (pid : Int) (newprio : Pri16)
  | getprio (pid : Int)
  | getpid
  | cbregister (fp mbufptr : Nat)
  | cbunregister
  | getmem (nbytes : Nat)
  | freemem (blkaddr nbytes : Nat)
  | getstk (nbytes : Nat)
  | freestk (p len : Nat)

/-- The result of a call that cannot be switched out after its last read. -/
def returning (r : Option (Kernel × Int)) : Option (Kernel × Cont) :=
  r.map fun x => (x.1, .ret x.2)

/-- Run a call up to the point where the current process can be switched out. -/
def Call.enter : Call → Kernel → Option (Kernel × Cont)
  | .create f n p nm as, k => returning (Xinu.create f n p nm as k)
  | .rcreate f n p nm as, k => returning (Xinu.rcreate f n p nm as k)
  | .resume pid, k => returning (Xinu.resume pid k)
  | .suspend pid, k => Xinu.suspend pid k
  | .kill pid, k => Xinu.kill pid k
  | .userret, k => Xinu.userret k
  | .wait sem, k => returning (Xinu.wait sem k)
  | .signal sem, k => returning (Xinu.signal sem k)
  | .signaln sem n, k => returning (Xinu.signaln sem n k)
  | .semcreate n, k => returning (some (Xinu.semcreate n k))
  | .semdelete sem, k => returning (Xinu.semdelete sem k)
  | .semreset sem n, k => returning (Xinu.semreset sem n k)
  | .sleepms d, k => returning (Xinu.sleepms d k)
  | .sleep d, k => returning (Xinu.sleep d k)
  | .yield, k => returning (Xinu.yield k)
  | .receive, k => Xinu.receive k
  | .recvtime d, k => Xinu.recvtime d k
  | .recvclr, k => returning (some ((Xinu.recvclr k).1, ((Xinu.recvclr k).2.map Int.ofNat).getD OK))
  | .send pid msg, k => returning (Xinu.send pid msg k)
  | .chprio pid p, k => returning (some (Xinu.chprio pid p k))
  | .getprio pid, k => returning (some (k, Xinu.getprio pid k))
  | .getpid, k => returning (some (k, k.currpid))
  | .cbregister fp b, k => returning (some (Xinu.cbregister fp b k))
  | .cbunregister, k => returning (some (Xinu.cbunregister k))
  | .getmem n, k => returning ((k.getmem n).map fun r => (r.1, (r.2 : Int)))
  | .freemem a n, k => returning (k.freemem a n)
  | .getstk n, k => returning ((k.getstk n).map fun r => (r.1, (r.2 : Int)))
  | .freestk p n, k => returning (k.freestk p n)

/-- The null process calls `rcreate` at start-up and then loops. -/
def Call.byNull : Call → Bool
  | .rcreate .. => true
  | _ => false

/-- The process a call has just made, if any. -/
def Call.made : Call → Cont → Option Int
  | .create .., .ret v => if v = SYSERR then none else some v
  | .rcreate .., .ret v => if v = SYSERR then none else some v
  | _, _ => none

/-- `send(pid, _)` gets past its checks. -/
def accepts (pid : Int) (k : Kernel) : Prop :=
  ¬ isbadpid k pid ∧ ¬ ((k.proctab pid).prcbvalid = 1 ∧ (k.proctab pid).prtmpvalid = 1)

instance (pid : Int) (k : Kernel) : Decidable (accepts pid k) :=
  inferInstanceAs (Decidable (_ ∧ _))

/-- `send(pid, _)` rewrites a return address of `pid`. -/
def rewrites (pid : Int) (k : Kernel) : Prop :=
  accepts pid k ∧ (k.proctab pid).prstate = .sleep

instance (pid : Int) (k : Kernel) : Decidable (rewrites pid k) :=
  inferInstanceAs (Decidable (_ ∧ _))

/-- `cbregister(fp, mbufptr)` gets past its checks. -/
def registers (fp mbufptr : Nat) (k : Kernel) : Prop :=
  (k.proctab k.currpid).prcbvalid ≠ 1 ∧ ¬ (fp < k.image.text ∨ fp > k.image.etext) ∧
    ¬ (mbufptr > k.image.text ∧ mbufptr < k.image.etext)

instance (fp mbufptr : Nat) (k : Kernel) : Decidable (registers fp mbufptr k) :=
  inferInstanceAs (Decidable (_ ∧ _ ∧ _))

/-- `kill(pid)` gets past its checks. -/
def killable (pid : Int) (k : Kernel) : Prop := ¬ isbadpid k pid ∧ pid ≠ NULLPROC

instance (pid : Int) (k : Kernel) : Decidable (killable pid k) :=
  inferInstanceAs (Decidable (_ ∧ _))

/-- The message a call sends and to whom, if any: `kill` sends the victim's pid to its parent. -/
def Call.message : Call → Kernel → Option (Int × Nat)
  | .send pid msg, _ => some (pid, msg)
  | .kill pid, k => if killable pid k then some ((k.proctab pid).prparent, pid.toNat) else none
  | .userret, k =>
    if killable k.currpid k then some ((k.proctab k.currpid).prparent, k.currpid.toNat) else none
  | _, _ => none

/-- The process a call sends a message to, if any. -/
def Call.sendsTo (c : Call) (k : Kernel) : Option Int := (c.message k).map Prod.fst

/-- The process whose return address a call has rewritten, if any. -/
def Call.diverts (c : Call) (k : Kernel) : Option Int :=
  (c.sendsTo k).filter fun pid => decide (rewrites pid k)

/-! ## 2. Steps -/

/-- The kernel and where each process is. -/
structure Sys where
  k : Kernel
  cont : Int → Cont
  divert : Int → Bool

/-- What the current process does next. -/
inductive Event
  /-- It makes a kernel call. -/
  | call (c : Call)
  /-- It goes on with the call it is in. -/
  | finish
  /-- It runs the callback its return address was pointed at. -/
  | callback
  /-- The clock interrupts it. -/
  | tick
  /-- It writes a word of memory. -/
  | store (a v : Nat)

/-- The current process is executing its own code. -/
def Sys.idle (s : Sys) : Prop := s.cont s.k.currpid = .user

instance (s : Sys) : Decidable s.idle := inferInstanceAs (Decidable (_ = _))

/-- The value of an optional process becomes `v`. -/
def assignAt {α : Type*} (p : Option Int) (v : α) (f : Int → α) : Int → α :=
  match p with
  | none => f
  | some pid => Function.update f pid v

theorem assignAt_of_ne {α : Type*} {p : Option Int} {v : α} {f : Int → α} {x : Int}
    (h : p ≠ some x) : assignAt p v f x = f x := by
  cases p with
  | none => rfl
  | some q => exact Function.update_of_ne (fun e => h (by rw [e])) _ _

/-- Go on with the call the current process is in. -/
def finishCall (k : Kernel) : Cont → Option (Kernel × Cont)
  | .user => none
  | .ret _ => some (k, .user)
  | .suspend _ => some (k, .user)
  | .receive => some ((receiveTail k).1, .user)
  | .recvtime => some ((recvtimeTail k).1, .user)
  | .kill pid => some (killTail pid k, .user)
  | .clkhandler => (clkhandlerTail k).map fun k => (k, .iret)
  | .iret => some (k, .user)

/-- One step of the current process. -/
def step (s : Sys) : Event → Option Sys
  | .call c =>
    let cur := s.k.currpid
    if s.idle ∧ s.divert cur = false ∧ (cur = NULLPROC → c.byNull = true) then
      (c.enter s.k).map fun r =>
        { k := r.1
          cont := assignAt (c.made r.2) .user (Function.update s.cont cur r.2)
          divert := assignAt (c.made r.2) false (assignAt (c.diverts s.k) true s.divert) }
    else none
  | .finish =>
    (finishCall s.k (s.cont s.k.currpid)).map fun r =>
      { s with k := r.1, cont := Function.update s.cont s.k.currpid r.2 }
  | .callback =>
    if s.idle ∧ s.divert s.k.currpid = true then
      let k := if (s.k.proctab s.k.currpid).prcbptr = s.k.image.usercb then usercb s.k else s.k
      some { s with k := k, divert := Function.update s.divert s.k.currpid false }
    else none
  | .tick =>
    if s.idle then
      (clkhandler s.k).map fun k =>
        { s with k := k, cont := Function.update s.cont s.k.currpid .clkhandler }
    else none
  | .store a v =>
    if s.idle then some { s with k := s.k.setHeap (s.k.heap.poke a v) } else none

/-! ## 3. The state after `sysinit` -/

/-- An entry of `proctab` in the bss segment. -/
def zeroProc : Procent where
  prstate := .free
  prprio := ⟨0, by decide⟩
  prstkptr := 0
  prstkbase := 0
  prstklen := 0
  prname := fun _ => 0
  prsem := 0
  prparent := 0
  prmsg := 0
  prhasmsg := 0
  prdesc := fun _ => 0
  prheaphd := 0
  prcbvalid := 0
  prcbptr := 0
  prmbufptr := 0
  prtmpbuf := 0
  prtmpvalid := 0

/-- `"prnull"`. -/
def nullName : Nat → UInt8
  | 0 => 112
  | 1 => 114
  | 2 => 110
  | 3 => 117
  | 4 => 108
  | 5 => 108
  | _ => 0

/-- All kernel variables before `sysinit`, with `meminit` already done: what is initialised
statically, and zero elsewhere. -/
def bss (image : Image) (heap : Heap) : Kernel where
  heap := heap
  image := image
  proctab := fun _ => zeroProc
  queuetab := fun _ => ⟨0, 0, 0⟩
  semtab := fun _ => ⟨.free, 0, 0⟩
  defer := ⟨0, 0⟩
  prcount := 0
  currpid := 0
  readylist := 0
  sleepq := 0
  preempt := 0
  clktime := 0
  count1000 := 1000
  nextqid := NPROC
  nextsem := 0
  createNextpid := 1
  rcreateNextpid := 1
  starved := false

/-- The loop of `sysinit` over the semaphores, its first `n` rounds. -/
def initSems (k : Kernel) : Nat → Kernel
  | 0 => k
  | i + 1 =>
    let (k, q) := newqueue (initSems k i)
    k.setSem i fun _ => ⟨.free, 0, q⟩

/-- The assignments to the entry of the null process. -/
def initNull (base : Nat) (k : Kernel) : Kernel :=
  let k := k.setProc NULLPROC fun p =>
    { p with prstate := .curr, prprio := ⟨0, by decide⟩, prname := nullName,
             prstkbase := base, prstklen := NULLSTK, prstkptr := 0 }
  { k.setProc NULLPROC initCallback with currpid := NULLPROC }

/-- The queues of the semaphores, the ready list and, in `clkinit`, the sleep queue. -/
def initQueues (k : Kernel) : Kernel :=
  let k := initSems k NSEM.toNat
  let (k, q) := newqueue k
  let k := { k with readylist := q }
  let (k, q) := newqueue k
  { k with sleepq := q, preempt := QUANTUM, clktime := 0 }

/-- `sysinit()` from the initialisation of `prcount` on, with `clkinit()`.  The loop that makes
all entries free writes what the bss segment holds. -/
def sysinit (k : Kernel) : Option Kernel := do
  let k := { k with prcount := 1, defer := ⟨0, k.defer.attempt⟩ }
  let (k, base) ← k.getstk NULLSTK
  return initQueues (initNull base k)

/-- The system when the null process starts running, if `sysinit` gets that far. -/
def boot (image : Image) (heap : Heap) : Option Sys :=
  (sysinit (bss image heap)).map fun k =>
    { k := k, cont := fun _ => .user, divert := fun _ => false }

theorem newqueue_frame (k : Kernel) :
    (newqueue k).1.proctab = k.proctab ∧ (newqueue k).1.heap = k.heap ∧
      (newqueue k).1.image = k.image ∧ (newqueue k).1.currpid = k.currpid := by
  by_cases h : k.nextqid ≥ NQENT
  · have he : newqueue k = (k, SYSERR) := if_pos h
    rw [he]
    exact ⟨rfl, rfl, rfl, rfl⟩
  · rw [newqueue, if_neg h]
    exact ⟨rfl, rfl, rfl, rfl⟩

/-- Making queues changes no process and no memory. -/
theorem initQueues_frame (k : Kernel) :
    (initQueues k).proctab = k.proctab ∧ (initQueues k).heap = k.heap ∧
      (initQueues k).image = k.image ∧ (initQueues k).currpid = k.currpid := by
  have hsems : ∀ n, (initSems k n).proctab = k.proctab ∧ (initSems k n).heap = k.heap ∧
      (initSems k n).image = k.image ∧ (initSems k n).currpid = k.currpid := by
    intro n
    induction n with
    | zero => exact ⟨rfl, rfl, rfl, rfl⟩
    | succ n ih =>
      obtain ⟨h1, h2, h3, h4⟩ := newqueue_frame (initSems k n)
      exact ⟨h1.trans ih.1, h2.trans ih.2.1, h3.trans ih.2.2.1, h4.trans ih.2.2.2⟩
  obtain ⟨i1, i2, i3, i4⟩ := hsems NSEM.toNat
  unfold initQueues
  generalize initSems k NSEM.toNat = k₁ at *
  obtain ⟨h1, h2, h3, h4⟩ := newqueue_frame k₁
  obtain ⟨g1, g2, g3, g4⟩ := newqueue_frame
    { (newqueue k₁).1 with readylist := (newqueue k₁).2 }
  exact ⟨g1.trans (h1.trans i1), g2.trans (h2.trans i2), g3.trans (h3.trans i3),
    g4.trans (h4.trans i4)⟩

/-- The entry of the null process after `sysinit`. -/
def nullEntry (base : Nat) : Procent :=
  { zeroProc with prstate := .curr, prname := nullName, prstkbase := base, prstklen := NULLSTK }

/-- **What a boot leaves**: one stack is allocated, and one process exists. -/
structure Booted (image : Image) (heap : Heap) (base : Nat) (s : Sys) : Prop where
  stack : getstk NULLSTK heap = some (s.k.heap, base)
  image : s.k.image = image
  proctab : s.k.proctab = Function.update (fun _ => zeroProc) NULLPROC (nullEntry base)
  currpid : s.k.currpid = NULLPROC
  cont : s.cont = fun _ => .user
  divert : s.divert = fun _ => false

theorem boot_spec {image : Image} {heap : Heap} {s : Sys} (h : boot image heap = some s) :
    ∃ base, Booted image heap base s := by
  obtain ⟨k, hk, rfl⟩ := Option.map_eq_some_iff.mp h
  obtain ⟨⟨k₁, base⟩, hg, hk⟩ := Option.bind_eq_some_iff.mp hk
  obtain ⟨⟨heap', a⟩, hstk, hk₁⟩ := Option.bind_eq_some_iff.mp hg
  simp only [Option.pure_def, Option.some.injEq, Prod.mk.injEq] at hk₁
  obtain ⟨rfl, rfl⟩ := hk₁
  obtain rfl := Option.some.inj hk
  obtain ⟨h1, h2, h3, h4⟩ := initQueues_frame (initNull a
    (Kernel.setHeap { bss image heap with prcount := 1, defer :=
      ⟨0, (bss image heap).defer.attempt⟩ }
      heap'))
  refine ⟨a, ?_, h3, h1.trans ?_, h4, rfl, rfl⟩
  · rw [h2]; exact hstk
  · funext p
    by_cases hp : p = NULLPROC
    · subst hp
      simp only [initNull, Function.update_self, setProc_same, initCallback]
      rfl
    · simp only [initNull, Function.update_of_ne hp, setProc_of_ne _ _ hp]
      rfl

/-- The states a run can reach from a boot on the heap `heap`, every step meeting `ok`. -/
def Reachable (ok : Sys → Event → Prop) (s : Sys) : Prop :=
  ∃ image heap s₀, boot image heap = some s₀ ∧ Runs.Reaches step ok s₀ s

/-- The states of such runs with an observer beside them, which starts with `start`. -/
def Watched {γ : Type} (see : Sys → Event → Sys → γ → γ) (start : γ)
    (ok : Sys × γ → Event → Prop) (x : Sys × γ) : Prop :=
  ∃ image heap s₀, boot image heap = some s₀ ∧
    Runs.Reaches (Runs.watch step see) ok (s₀, start) x

/-! ## 4. A concrete machine

The addresses are those of `xinu.map`; the heap starts as one block of a megabyte. -/

/-- The linked image. -/
def xinuImage : Image where
  text := 0x100000
  etext := 0x11c271
  userret := 0x1060c4
  usercb := 0x106043

/-- The heap after `meminit` found a megabyte above `_end`. -/
def bootHeap : Heap where
  mem := store (store (store (store (fun _ => 0) 0x124590 0x142000) 0x124594 0x100000)
    0x142000 0) 0x142004 0x100000
  memlist := 0x124590
  minheap := 0x142000
  maxheap := 0x242000
  memblockkflag := 0

/-- Boot this machine and execute a list of events. -/
def runFromBoot (es : List Event) : Option Sys :=
  (boot xinuImage bootHeap).bind fun s => Runs.exec step Runs.always s es

theorem reachable_runFromBoot {es : List Event} {s : Sys} (h : runFromBoot es = some s) :
    Reachable Runs.always s := by
  obtain ⟨s₀, hb, hr⟩ := Option.bind_eq_some_iff.mp h
  exact ⟨xinuImage, bootHeap, s₀, hb, Runs.reaches_of_exec hr⟩

/-- The same with an observer and a condition. -/
def watchFromBoot {γ : Type} (see : Sys → Event → Sys → γ → γ) (start : γ)
    (ok : Sys × γ → Event → Prop) [DecidableRel ok] (es : List Event) : Option (Sys × γ) :=
  (boot xinuImage bootHeap).bind fun s => Runs.exec (Runs.watch step see) ok (s, start) es

theorem watched_watchFromBoot {γ : Type} {see : Sys → Event → Sys → γ → γ} {start : γ}
    {ok : Sys × γ → Event → Prop} [DecidableRel ok] {es : List Event} {x : Sys × γ}
    (h : watchFromBoot see start ok es = some x) : Watched see start ok x := by
  obtain ⟨s₀, hb, hr⟩ := Option.bind_eq_some_iff.mp h
  exact ⟨xinuImage, bootHeap, s₀, hb, Runs.reaches_of_exec hr⟩

/-- `rcreate` of a process with a stack of the minimum size and no arguments. -/
def makeMain (prio : Pri16) : Event := .call (.rcreate 0x100000 MINSTK prio (fun _ => 0) [])

/-- `create` of a process with a stack of the minimum size and no arguments. -/
def makeProcess (prio : Pri16) : Event := .call (.create 0x100000 MINSTK prio (fun _ => 0) [])

end Xinu
