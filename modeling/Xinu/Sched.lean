/-
# Scheduling: `resched.c`, `ready.c`, `wakeup.c`, `clkhandler.c`, `sleep.c` and their callers

A context switch is the assignment to `currpid` in `resched`; the switch of stacks that
`ctxsw` makes is not part of this record.  What the new current process does next is decided by
where IT last called `resched`, so a routine that can be switched out is modelled up to and
including its call of `resched`, and the statements after that call are what the process is
left with (`Cont`).  When those statements have no effect and read nothing, the value they
return is all that is left.
-/
import Xinu.Queue

namespace Xinu

open ByteMemory

/-- What a process still has to do of the routine it is in. -/
inductive Cont
  /-- Nothing: it is executing its own code. -/
  | user
  /-- Return `v` from the call. -/
  | ret (v : Int)
  /-- The end of `suspend(pid)`. -/
  | suspend (pid : Int)
  /-- The end of `receive()`. -/
  | receive
  /-- The end of `recvtime()`. -/
  | recvtime
  /-- The end of `kill(pid)` by the victim itself. -/
  | kill (pid : Int)
  /-- The end of `clkhandler()`, from the preemption counter on. -/
  | clkhandler
  /-- The return from the clock interrupt. -/
  | iret
deriving DecidableEq, Repr

/-! ## 1. `resched.c` and `ready.c` -/

/-- `currpid = pid`, `prstate = PR_CURR`, `preempt = QUANTUM`. -/
def Kernel.run (k : Kernel) (pid : Int) : Kernel :=
  { k.setState pid .curr with currpid := pid, preempt := QUANTUM }

/-- The last part of `resched`: run the first process of the ready list. -/
def dispatch (k : Kernel) : Kernel :=
  let (t, pid) := dequeue k.readylist k.queuetab
  let k := { k with starved := k.starved || decide (isempty k.queuetab k.readylist) }
  (k.setQueue t).run pid

/-- `resched()`. -/
def resched (k : Kernel) : Option Kernel :=
  if k.defer.ndefers > 0 then some (k.setDefer ⟨k.defer.ndefers, TRUE⟩)
  else if (k.proctab k.currpid).prstate = .curr then
    if (k.proctab k.currpid).prprio.val > firstkey k.queuetab k.readylist then some k
    else do
      let prio := (k.proctab k.currpid).prprio.val
      let k := k.setState k.currpid .ready
      let (k, _) ← insert k.currpid k.readylist prio k
      return dispatch k
  else some (dispatch k)

/-- `resched_cntl(defer)`. -/
def reschedCntl (defer : Int) (k : Kernel) : Option (Kernel × Int) :=
  if defer = DEFER_START then
    let attempt := if k.defer.ndefers = 0 then FALSE else k.defer.attempt
    some (k.setDefer ⟨int32 (k.defer.ndefers + 1), attempt⟩, OK)
  else if defer = DEFER_STOP then
    if k.defer.ndefers ≤ 0 then some (k, SYSERR)
    else
      let k := k.setDefer ⟨k.defer.ndefers - 1, k.defer.attempt⟩
      if k.defer.ndefers = 0 ∧ k.defer.attempt ≠ 0 then do
        let k ← resched k
        return (k, OK)
      else some (k, OK)
  else some (k, SYSERR)

/-- `ready(pid)`. -/
def ready (pid : Int) (k : Kernel) : Option (Kernel × Int) :=
  if isbadpid k pid then some (k, SYSERR)
  else do
    let k := k.setState pid .ready
    let (k, _) ← insert pid k.readylist (k.proctab pid).prprio.val k
    let k ← resched k
    return (k, OK)

/-! ## 2. The sleep queue and the clock -/

/-- `unsleep(pid)`. -/
def unsleep (pid : Int) (k : Kernel) : Kernel × Int :=
  if isbadpid k pid then (k, SYSERR)
  else if (k.proctab pid).prstate ≠ .sleep ∧ (k.proctab pid).prstate ≠ .rectim then (k, SYSERR)
  else
    let t := k.queuetab
    let pidnext := (t pid).qnext
    let t := if pidnext < NPROC then
        t.setKey pidnext (int32 ((t pidnext).qkey + (t pid).qkey))
      else t
    (k.setQueue (getitem pid t), OK)

/-- The loop of `wakeup`. -/
def wakeupLoop : Nat → Kernel → Option Kernel
  | 0, _ => none
  | fuel + 1, k =>
    if nonempty k.queuetab k.sleepq ∧ firstkey k.queuetab k.sleepq ≤ 0 then do
      let (t, pid) := dequeue k.sleepq k.queuetab
      let (k, _) ← ready pid (k.setQueue t)
      wakeupLoop fuel k
    else some k

/-- `wakeup()`. -/
def wakeup (k : Kernel) : Option Kernel := do
  let (k, _) ← reschedCntl DEFER_START k
  let k ← wakeupLoop NQENT.toNat k
  let (k, _) ← reschedCntl DEFER_STOP k
  return k

/-- The first statements of `clkhandler`: count milliseconds and seconds. -/
def countMs (k : Kernel) : Kernel :=
  let count1000 := (k.count1000 + addrSpace - 1) % addrSpace
  if count1000 = 0 then
    { k with clktime := (k.clktime + 1) % addrSpace, count1000 := 1000 }
  else { k with count1000 := count1000 }

/-- The statement of `clkhandler` that handles sleeping processes. -/
def clkSleepers (k : Kernel) : Option Kernel :=
  if isempty k.queuetab k.sleepq then some k
  else
    let first := firstid k.queuetab k.sleepq
    let key := int32 ((k.queuetab first).qkey - 1)
    let k := k.setQueue (k.queuetab.setKey first key)
    if key ≤ 0 then wakeup k else some k

/-- `clkhandler()` up to and including the call of `wakeup`. -/
def clkhandler (k : Kernel) : Option Kernel := clkSleepers (countMs k)

/-- The rest of `clkhandler()`: the preemption counter is unsigned, so `<= 0` is `= 0`. -/
def clkhandlerTail (k : Kernel) : Option Kernel :=
  let preempt := (k.preempt + addrSpace - 1) % addrSpace
  if preempt = 0 then resched { k with preempt := QUANTUM }
  else some { k with preempt := preempt }

/-! ## 3. System calls -/

/-- `yield()`. -/
def yield (k : Kernel) : Option (Kernel × Int) := do
  let k ← resched k
  return (k, OK)

/-- `sleepms(delay)`. -/
def sleepms (delay : Int) (k : Kernel) : Option (Kernel × Int) :=
  if delay < 0 then some (k, SYSERR)
  else if delay = 0 then yield k
  else do
    let (k, r) ← insertd k.currpid k.sleepq delay k
    if r = SYSERR then return (k, SYSERR)
    let k ← resched (k.setState k.currpid .sleep)
    return (k, OK)

/-- `sleep(delay)`. -/
def sleep (delay : Int) (k : Kernel) : Option (Kernel × Int) :=
  if delay < 0 ∨ delay > 2147483 then some (k, SYSERR)
  else do
    let (k, _) ← sleepms (int32 (1000 * delay)) k
    return (k, OK)

/-- `resume(pid)`. -/
def resume (pid : Int) (k : Kernel) : Option (Kernel × Int) :=
  if isbadpid k pid then some (k, SYSERR)
  else if (k.proctab pid).prstate ≠ .susp then some (k, SYSERR)
  else do
    let prio := (k.proctab pid).prprio.val
    let (k, _) ← ready pid k
    return (k, prio)

/-- `suspend(pid)` up to and including its call of `resched`. -/
def suspend (pid : Int) (k : Kernel) : Option (Kernel × Cont) :=
  if isbadpid k pid ∨ pid = NULLPROC then some (k, .ret SYSERR)
  else if (k.proctab pid).prstate ≠ .curr ∧ (k.proctab pid).prstate ≠ .ready then
    some (k, .ret SYSERR)
  else if (k.proctab pid).prstate = .ready then
    some ((k.setQueue (getitem pid k.queuetab)).setState pid .susp, .suspend pid)
  else do
    let k ← resched (k.setState pid .susp)
    return (k, .suspend pid)

/-- `chprio(pid, newprio)`. -/
def chprio (pid : Int) (newprio : Pri16) (k : Kernel) : Kernel × Int :=
  if isbadpid k pid then (k, SYSERR)
  else (k.setProc pid fun p => { p with prprio := newprio }, (k.proctab pid).prprio.val)

/-- `getprio(pid)`. -/
def getprio (pid : Int) (k : Kernel) : Int :=
  if isbadpid k pid then SYSERR else (k.proctab pid).prprio.val

end Xinu
