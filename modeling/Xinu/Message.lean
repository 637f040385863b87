/-
# Messages: `send.c`, `send.c.orig`, `receive.c`, `recvtime.c`, `recvclr.c`, `cbregister.c`,
# `cbunregister.c`, `usercb.c`

`send.c` replaces `send.c.orig`.  Both are kept: the replaced routine is what the other
message calls were written against.
-/
import Xinu.Sched

namespace Xinu

open ByteMemory

/-! ## 1. The replaced `send` -/

/-- `send(pid, msg)` of `send.c.orig`. -/
def sendOrig (pid : Int) (msg : Nat) (k : Kernel) : Option (Kernel × Int) :=
  if isbadpid k pid then some (k, SYSERR)
  else if (k.proctab pid).prhasmsg ≠ 0 then some (k, SYSERR)
  else do
    let k := k.setProc pid fun p => { p with prmsg := msg, prhasmsg := TRUE }
    if (k.proctab pid).prstate = .recv then
      let (k, _) ← ready pid k
      return (k, OK)
    if (k.proctab pid).prstate = .rectim then
      let (k, _) := unsleep pid k
      let (k, _) ← ready pid k
      return (k, OK)
    return (k, OK)

/-! ## 2. `send` -/

/-- The inner loop of the search for a return address: go down one word at a time until the
word `retaddr` points at equals `prevbaseptr`.  Addresses wrap below 0; a search through more
words than there are addresses never ends. -/
def frameScan (m : Mem) (prevbaseptr : Nat) : Nat → Nat → Option Nat
  | 0, _ => none
  | fuel + 1, retaddr =>
    if load m retaddr ≠ prevbaseptr then
      frameScan m prevbaseptr fuel ((retaddr + addrSpace - 4) % addrSpace)
    else some retaddr

/-- As many words as there are addresses. -/
def scanBound : Nat := addrSpace

/-- The outer loop, `stkframes` times. -/
def frameSearch (m : Mem) : Nat → Nat → Nat → Option Nat
  | 0, _, retaddr => some retaddr
  | stkframes + 1, prevbaseptr, retaddr => do
    let retaddr ← frameScan m prevbaseptr scanBound retaddr
    frameSearch m stkframes retaddr retaddr

/-- `send(pid, msg)`. -/
def send (pid : Int) (msg : Nat) (k : Kernel) : Option (Kernel × Int) :=
  if isbadpid k pid then some (k, SYSERR)
  else if (k.proctab pid).prcbvalid = 1 ∧ (k.proctab pid).prtmpvalid = 1 then some (k, SYSERR)
  else do
    let k := k.setProc pid fun p => { p with prtmpvalid := 1, prtmpbuf := msg }
    if (k.proctab pid).prstate = .sleep then
      let prstkbase := (k.proctab pid).prstkbase
      let retaddr ← frameSearch k.heap.mem 3 prstkbase prstkbase
      let retaddr := (retaddr + 4) % addrSpace
      return (k.setHeap (k.heap.poke retaddr ((k.proctab pid).prcbptr + 3)), OK)
    return (k, OK)

/-! ## 3. Receiving -/

/-- `receive()` up to and including its call of `resched`. -/
def receive (k : Kernel) : Option (Kernel × Cont) :=
  if (k.proctab k.currpid).prhasmsg = FALSE then do
    let k ← resched (k.setState k.currpid .recv)
    return (k, .receive)
  else some (k, .receive)

/-- The rest of `receive()`. -/
def receiveTail (k : Kernel) : Kernel × Nat :=
  (k.setProc k.currpid fun p => { p with prhasmsg := FALSE }, (k.proctab k.currpid).prmsg)

/-- `recvtime(maxwait)` up to and including its call of `resched`. -/
def recvtime (maxwait : Int) (k : Kernel) : Option (Kernel × Cont) :=
  if maxwait < 0 then some (k, .ret SYSERR)
  else if (k.proctab k.currpid).prhasmsg = FALSE then do
    let (k, r) ← insertd k.currpid k.sleepq maxwait k
    if r = SYSERR then return (k, .ret SYSERR)
    let k ← resched (k.setState k.currpid .rectim)
    return (k, .recvtime)
  else some (k, .recvtime)

/-- The rest of `recvtime()`: the message, or `none` for `TIMEOUT`. -/
def recvtimeTail (k : Kernel) : Kernel × Option Nat :=
  if (k.proctab k.currpid).prhasmsg ≠ 0 then
    (k.setProc k.currpid fun p => { p with prhasmsg := FALSE },
      some (k.proctab k.currpid).prmsg)
  else (k, none)

/-- `recvclr()`: the message, or `none` for `OK`. -/
def recvclr (k : Kernel) : Kernel × Option Nat :=
  if (k.proctab k.currpid).prhasmsg = TRUE then
    (k.setProc k.currpid fun p => { p with prhasmsg := FALSE },
      some (k.proctab k.currpid).prmsg)
  else (k, none)

/-! ## 4. Callbacks -/

/-- `cbregister(fp, mbufptr)`. -/
def cbregister (fp mbufptr : Nat) (k : Kernel) : Kernel × Int :=
  if (k.proctab k.currpid).prcbvalid = 1 then (k, SYSERR)
  else if fp < k.image.text ∨ fp > k.image.etext then (k, SYSERR)
  else if mbufptr > k.image.text ∧ mbufptr < k.image.etext then (k, SYSERR)
  else
    (k.setProc k.currpid fun p =>
      { p with prcbptr := fp, prmbufptr := mbufptr, prcbvalid := 1 }, OK)

/-- `cbunregister()`. -/
def cbunregister (k : Kernel) : Kernel × Int :=
  if (k.proctab k.currpid).prcbvalid = 0 then (k, SYSERR)
  else (k.setProc k.currpid fun p => { p with prcbvalid := 0 }, OK)

/-- `usercb()`.  The statement `(prptr->prmbufptr) = prptr->prtmpbuf` assigns to the pointer
itself, and `prptr->prtmpvalid == 0` is a comparison whose value is dropped. -/
def usercb (k : Kernel) : Kernel :=
  if (k.proctab k.currpid).prtmpvalid = 1 then
    k.setProc k.currpid fun p => { p with prmbufptr := p.prtmpbuf }
  else k

end Xinu
