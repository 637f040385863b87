/-
# Semaphores: `wait.c`, `signal.c`, `signaln.c`, `semcreate.c`, `semdelete.c`, `semreset.c`

The routines that release several processes do so between `DEFER_START` and `DEFER_STOP`, so
only their last statement can switch processes.  The loops over a semaphore's queue count the
semaphore up to zero or run until the queue is empty.
-/
import Xinu.Sched

namespace Xinu

/-! ## 1. One process at a time -/

/-- `wait(sem)`. -/
def wait (sem : Int) (k : Kernel) : Option (Kernel × Int) :=
  if isbadsem sem then some (k, SYSERR)
  else if (k.semtab sem).sstate = .free then some (k, SYSERR)
  else
    let k := k.setSem sem fun s => { s with scount := int32 (s.scount - 1) }
    if (k.semtab sem).scount < 0 then do
      let k := k.setProc k.currpid fun p => { p with prstate := .wait, prsem := sem }
      let (k, _) := enqueue k.currpid (k.semtab sem).squeue k
      let k ← resched k
      return (k, OK)
    else some (k, OK)

/-- The statement `if ((semptr->scount++) < 0) { ready(dequeue(semptr->squeue)); }`, which
`signal` and `signaln` share. -/
def signalOnce (sem : Int) (k : Kernel) : Option Kernel :=
  let count := (k.semtab sem).scount
  let k := k.setSem sem fun s => { s with scount := int32 (s.scount + 1) }
  if count < 0 then do
    let (t, pid) := dequeue (k.semtab sem).squeue k.queuetab
    let (k, _) ← ready pid (k.setQueue t)
    return k
  else some k

/-- `signal(sem)`. -/
def signal (sem : Int) (k : Kernel) : Option (Kernel × Int) :=
  if isbadsem sem then some (k, SYSERR)
  else if (k.semtab sem).sstate = .free then some (k, SYSERR)
  else do
    let k ← signalOnce sem k
    return (k, OK)

/-! ## 2. Many processes at a time -/

/-- The loop of `signaln`. -/
def signalnLoop (sem : Int) : Nat → Kernel → Option Kernel
  | 0, k => some k
  | count + 1, k => do
    let k ← signalOnce sem k
    signalnLoop sem count k

/-- `signaln(sem, count)`. -/
def signaln (sem count : Int) (k : Kernel) : Option (Kernel × Int) :=
  if isbadsem sem ∨ count < 0 then some (k, SYSERR)
  else if (k.semtab sem).sstate = .free then some (k, SYSERR)
  else do
    let (k, _) ← reschedCntl DEFER_START k
    let k ← signalnLoop sem count.toNat k
    let (k, _) ← reschedCntl DEFER_STOP k
    return (k, OK)

/-- The loop of `semdelete`: `while (semptr->scount++ < 0) ready(getfirst(semptr->squeue));`. -/
def semdeleteLoop (sem : Int) : Nat → Kernel → Option Kernel
  | 0, _ => none
  | fuel + 1, k =>
    let count := (k.semtab sem).scount
    let k := k.setSem sem fun s => { s with scount := int32 (s.scount + 1) }
    if count < 0 then do
      let (t, pid) := getfirst (k.semtab sem).squeue k.queuetab
      let (k, _) ← ready pid (k.setQueue t)
      semdeleteLoop sem fuel k
    else some k

/-- A count is at least `- 2 ^ 31`, so the loop of `semdelete` ends within this many rounds. -/
def countBound : Nat := 2147483649

/-- `semdelete(sem)`. -/
def semdelete (sem : Int) (k : Kernel) : Option (Kernel × Int) :=
  if isbadsem sem then some (k, SYSERR)
  else if (k.semtab sem).sstate = .free then some (k, SYSERR)
  else do
    let k := k.setSem sem fun s => { s with sstate := .free }
    let (k, _) ← reschedCntl DEFER_START k
    let k ← semdeleteLoop sem countBound k
    let (k, _) ← reschedCntl DEFER_STOP k
    return (k, OK)

/-- The loop of `semreset`: `while ((pid = getfirst(semqueue)) != EMPTY) ready(pid);`. -/
def semresetLoop (semqueue : Int) : Nat → Kernel → Option Kernel
  | 0, _ => none
  | fuel + 1, k =>
    let (t, pid) := getfirst semqueue k.queuetab
    if pid ≠ EMPTY then do
      let (k, _) ← ready pid (k.setQueue t)
      semresetLoop semqueue fuel k
    else some (k.setQueue t)

/-- `semreset(sem, count)`. -/
def semreset (sem count : Int) (k : Kernel) : Option (Kernel × Int) :=
  if count < 0 ∨ isbadsem sem ∨ (k.semtab sem).sstate = .free then some (k, SYSERR)
  else do
    let (k, _) ← reschedCntl DEFER_START k
    let k ← semresetLoop (k.semtab sem).squeue NQENT.toNat k
    let k := k.setSem sem fun s => { s with scount := count }
    let (k, _) ← reschedCntl DEFER_STOP k
    return (k, OK)

/-! ## 3. `semcreate.c` -/

/-- The loop of `newsem`. -/
def newsemLoop : Nat → Kernel → Kernel × Int
  | 0, k => (k, SYSERR)
  | fuel + 1, k =>
    let sem := k.nextsem
    let k := { k with nextsem := if sem + 1 ≥ NSEM then 0 else sem + 1 }
    if (k.semtab sem).sstate = .free then
      (k.setSem sem fun s => { s with sstate := .used }, sem)
    else newsemLoop fuel k

/-- `newsem()`. -/
def newsem (k : Kernel) : Kernel × Int := newsemLoop NSEM.toNat k

/-- `semcreate(count)`. -/
def semcreate (count : Int) (k : Kernel) : Kernel × Int :=
  if count < 0 then (k, SYSERR)
  else
    let (k, sem) := newsem k
    if sem = SYSERR then (k, SYSERR)
    else (k.setSem sem fun s => { s with scount := count }, sem)

end Xinu
