/-
# The kernel's data: process table, queue table, semaphore table, memory

This module is `process.h`, `queue.h`, `semaphore.h`, `memory.h`, `resched.h` and the global
variables of `initialize.c` and `clkinit.c`, as one record.  Every later module is a set of
functions on that record.

Conventions, used throughout:

* `int32`, `pid32`, `qid16`, `sid32` are `Int`; where an addition can leave the 32-bit range
  the code's result is taken through `int32`.
* `uint32`, pointers and message words are `Nat`; where they can wrap the wrap is written out.
* `bool8` is a byte, because the code compares it with `TRUE`, with `FALSE` and with nothing.
* The tables are functions on `Int`, so an index is used exactly as the code computes it.
* The heap, the stacks and everything else a pointer can reach are bytes of one flat memory.

Interrupt masks are not part of the record: every routine modelled here runs with interrupts
disabled from its first to its last statement, which is why it is one step.
-/
import Xinu.Lib.ByteMemory

namespace Xinu

open ByteMemory

/-! ## 1. Constants -/

/-- `NPROC` of `conf.h`. -/
abbrev NPROC : Int := 100

/-- `NSEM` of `conf.h`. -/
abbrev NSEM : Int := 100

/-- `NQENT` of `queue.h`. -/
abbrev NQENT : Int := NPROC + 4 + NSEM + NSEM

/-- `NULLPROC` of `process.h`. -/
abbrev NULLPROC : Int := 0

/-- `EMPTY` of `queue.h`. -/
abbrev EMPTY : Int := -1

/-- `MAXKEY` of `queue.h`. -/
abbrev MAXKEY : Int := 2147483647

/-- `MINKEY` of `queue.h`, as the `int32` it is stored in. -/
abbrev MINKEY : Int := -2147483648

/-- `OK` of `kernel.h`. -/
abbrev OK : Int := 1

/-- `SYSERR` of `kernel.h`. -/
abbrev SYSERR : Int := -1

/-- `TIMEOUT` of `kernel.h`. -/
abbrev TIMEOUT : Int := -3

/-- `EOF` of `kernel.h`. -/
def EOF : Int := -2

/-- `SYSERR` cast to a pointer or to a `uint32`. -/
abbrev sysErrPtr : Nat := 4294967295

/-- `QUANTUM` of `kernel.h`. -/
abbrev QUANTUM : Nat := 2

/-- `MINSTK` of `kernel.h`. -/
abbrev MINSTK : Nat := 400

/-- `NULLSTK` of `kernel.h`. -/
abbrev NULLSTK : Nat := 8192

/-- `STACKMAGIC` of `process.h`. -/
abbrev STACKMAGIC : Nat := 0x0A0AAAA9

/-- `CONSOLE` of `conf.h`, a device number. -/
abbrev CONSOLE : Int := 0

/-- `DEFER_START` of `resched.h`. -/
abbrev DEFER_START : Int := 1

/-- `DEFER_STOP` of `resched.h`. -/
abbrev DEFER_STOP : Int := 2

/-- `bool8`: a byte used as a truth value. -/
abbrev Bool8 := UInt8

/-- `FALSE` of `kernel.h`. -/
abbrev FALSE : Bool8 := 0

/-- `TRUE` of `kernel.h`. -/
abbrev TRUE : Bool8 := 1

/-- The value a 32-bit signed register holds after computing `x`. -/
def int32 (x : Int) : Int := Int.bmod x 4294967296

/-- A value in range is stored as it is. -/
theorem int32_eq {x : Int} (h : -2147483648 ≤ x) (h' : x ≤ 2147483647) : int32 x = x := by
  rw [int32, Int.bmod_eq_of_le] <;> omega

/-- `pri16`: a process priority fits 16 signed bits. -/
abbrev Pri16 := { p : Int // -32768 ≤ p ∧ p < 32768 }

/-- A number in the place of a `pri16` keeps its low 16 bits. -/
instance (n : Nat) : OfNat Pri16 n where
  ofNat := ⟨Int.bmod n 65536, Int.le_bmod (by decide), Int.bmod_lt (by decide)⟩

/-! ## 2. Table entries -/

/-- The process states `PR_FREE` to `PR_RECTIM`. -/
inductive PrState
  | free
  | curr
  | ready
  | recv
  | sleep
  | susp
  | wait
  | rectim
deriving DecidableEq, Repr

/-- `struct procent`.  The last six fields are the two modifications: the in-use list header
and the callback registration. -/
structure Procent where
  prstate : PrState
  prprio : Pri16
  prstkptr : Nat
  prstkbase : Nat
  prstklen : Nat
  prname : Nat → UInt8
  prsem : Int
  prparent : Int
  prmsg : Nat
  prhasmsg : Bool8
  prdesc : Nat → Int
  prheaphd : Nat
  prcbvalid : Bool8
  prcbptr : Nat
  prmbufptr : Nat
  prtmpbuf : Nat
  prtmpvalid : Bool8

/-- `struct qentry`. -/
structure Qentry where
  qkey : Int
  qnext : Int
  qprev : Int
deriving DecidableEq, Repr

/-- The type of `queuetab`. -/
abbrev QTab := Int → Qentry

/-- `S_FREE` and `S_USED`. -/
inductive SState
  | free
  | used
deriving DecidableEq, Repr

/-- `struct sentry`. -/
structure Sentry where
  sstate : SState
  scount : Int
  squeue : Int
deriving DecidableEq, Repr

/-- `struct defer`. -/
structure Defer where
  ndefers : Int
  attempt : Bool8
deriving DecidableEq, Repr

/-! ## 3. Memory and the kernel record -/

/-- What the allocator uses: the bytes, the bounds of the heap, the address of `memlist`
(a `struct memblk` in the bss segment) and `memblockkflag`. -/
structure Heap where
  mem : Mem
  memlist : Nat
  minheap : Nat
  maxheap : Nat
  memblockkflag : Bool8

/-- Addresses the linker fixes. -/
structure Image where
  text : Nat
  etext : Nat
  userret : Nat
  usercb : Nat

/-- All kernel variables the modelled routines read or write.  The two `newpid` functions of
`create.c` and `rcreate.c` have a static `nextpid` each.  `starved` is the one field that is not
in the source: a history variable, read by nothing, that says whether `resched` has ever
dequeued from an empty ready list. -/
structure Kernel where
  heap : Heap
  image : Image
  proctab : Int → Procent
  queuetab : QTab
  semtab : Int → Sentry
  defer : Defer
  prcount : Int
  currpid : Int
  readylist : Int
  sleepq : Int
  preempt : Nat
  clktime : Nat
  count1000 : Nat
  nextqid : Int
  nextsem : Int
  createNextpid : Int
  rcreateNextpid : Int
  starved : Bool

/-- `isbadpid(x)` of `process.h`. -/
def isbadpid (k : Kernel) (x : Int) : Prop :=
  x < 0 ∨ x ≥ NPROC ∨ (k.proctab x).prstate = .free

instance (k : Kernel) (x : Int) : Decidable (isbadpid k x) :=
  inferInstanceAs (Decidable (x < 0 ∨ x ≥ NPROC ∨ (k.proctab x).prstate = .free))

/-- `isbadqid(x)` of `queue.h`. -/
def isbadqid (x : Int) : Prop := x < NPROC ∨ x ≥ NQENT - 1

instance (x : Int) : Decidable (isbadqid x) :=
  inferInstanceAs (Decidable (x < NPROC ∨ x ≥ NQENT - 1))

/-- `isbadsem(s)` of `semaphore.h`. -/
def isbadsem (s : Int) : Prop := s < 0 ∨ s ≥ NSEM

instance (s : Int) : Decidable (isbadsem s) := inferInstanceAs (Decidable (s < 0 ∨ s ≥ NSEM))

/-! ## 4. Assignments to one table entry -/

/-- Assign to fields of `proctab[pid]`. -/
def Kernel.setProc (k : Kernel) (pid : Int) (f : Procent → Procent) : Kernel :=
  { k with proctab := Function.update k.proctab pid (f (k.proctab pid)) }

/-- `proctab[pid].prstate = st`. -/
def Kernel.setState (k : Kernel) (pid : Int) (st : PrState) : Kernel :=
  k.setProc pid fun p => { p with prstate := st }

/-- Assign to fields of `semtab[sem]`. -/
def Kernel.setSem (k : Kernel) (sem : Int) (f : Sentry → Sentry) : Kernel :=
  { k with semtab := Function.update k.semtab sem (f (k.semtab sem)) }

/-- Replace the queue table. -/
def Kernel.setQueue (k : Kernel) (t : QTab) : Kernel := { k with queuetab := t }

/-- Replace `Defer`. -/
def Kernel.setDefer (k : Kernel) (d : Defer) : Kernel := { k with defer := d }

/-- Replace what the allocator uses. -/
def Kernel.setHeap (k : Kernel) (h : Heap) : Kernel := { k with heap := h }

/-- `memory[a] = v`, one word. -/
def Heap.poke (h : Heap) (a v : Nat) : Heap := { h with mem := store h.mem a v }

theorem setProc_same (k : Kernel) (pid : Int) (f : Procent → Procent) :
    (k.setProc pid f).proctab pid = f (k.proctab pid) := Function.update_self _ _ _

theorem setProc_of_ne (k : Kernel) {pid q : Int} (f : Procent → Procent) (h : q ≠ pid) :
    (k.setProc pid f).proctab q = k.proctab q := Function.update_of_ne h _ _

@[simp] theorem setProc_heap (k : Kernel) (pid : Int) (f : Procent → Procent) :
    (k.setProc pid f).heap = k.heap := rfl

@[simp] theorem setProc_queuetab (k : Kernel) (pid : Int) (f : Procent → Procent) :
    (k.setProc pid f).queuetab = k.queuetab := rfl

@[simp] theorem setProc_semtab (k : Kernel) (pid : Int) (f : Procent → Procent) :
    (k.setProc pid f).semtab = k.semtab := rfl

@[simp] theorem setProc_defer (k : Kernel) (pid : Int) (f : Procent → Procent) :
    (k.setProc pid f).defer = k.defer := rfl

@[simp] theorem setProc_prcount (k : Kernel) (pid : Int) (f : Procent → Procent) :
    (k.setProc pid f).prcount = k.prcount := rfl

@[simp] theorem setProc_currpid (k : Kernel) (pid : Int) (f : Procent → Procent) :
    (k.setProc pid f).currpid = k.currpid := rfl

@[simp] theorem setProc_readylist (k : Kernel) (pid : Int) (f : Procent → Procent) :
    (k.setProc pid f).readylist = k.readylist := rfl

@[simp] theorem setProc_sleepq (k : Kernel) (pid : Int) (f : Procent → Procent) :
    (k.setProc pid f).sleepq = k.sleepq := rfl

@[simp] theorem setQueue_queuetab (k : Kernel) (t : QTab) : (k.setQueue t).queuetab = t := rfl

@[simp] theorem setQueue_proctab (k : Kernel) (t : QTab) :
    (k.setQueue t).proctab = k.proctab := rfl

@[simp] theorem setQueue_semtab (k : Kernel) (t : QTab) :
    (k.setQueue t).semtab = k.semtab := rfl

@[simp] theorem setQueue_defer (k : Kernel) (t : QTab) : (k.setQueue t).defer = k.defer := rfl

@[simp] theorem setQueue_currpid (k : Kernel) (t : QTab) :
    (k.setQueue t).currpid = k.currpid := rfl

@[simp] theorem setQueue_readylist (k : Kernel) (t : QTab) :
    (k.setQueue t).readylist = k.readylist := rfl

@[simp] theorem setQueue_sleepq (k : Kernel) (t : QTab) :
    (k.setQueue t).sleepq = k.sleepq := rfl

@[simp] theorem setDefer_defer (k : Kernel) (d : Defer) : (k.setDefer d).defer = d := rfl

@[simp] theorem setDefer_proctab (k : Kernel) (d : Defer) :
    (k.setDefer d).proctab = k.proctab := rfl

@[simp] theorem setDefer_currpid (k : Kernel) (d : Defer) :
    (k.setDefer d).currpid = k.currpid := rfl

@[simp] theorem setHeap_heap (k : Kernel) (h : Heap) : (k.setHeap h).heap = h := rfl

@[simp] theorem setHeap_proctab (k : Kernel) (h : Heap) :
    (k.setHeap h).proctab = k.proctab := rfl

@[simp] theorem setHeap_currpid (k : Kernel) (h : Heap) :
    (k.setHeap h).currpid = k.currpid := rfl

theorem setState_same (k : Kernel) (pid : Int) (st : PrState) :
    (k.setState pid st).proctab pid = { k.proctab pid with prstate := st } := setProc_same _ _ _

theorem setState_of_ne (k : Kernel) {pid q : Int} (st : PrState) (h : q ≠ pid) :
    (k.setState pid st).proctab q = k.proctab q := setProc_of_ne _ _ h

/-- The state after an assignment to `prstate`, at any process. -/
theorem setState_prstate (k : Kernel) (pid q : Int) (st : PrState) :
    ((k.setState pid st).proctab q).prstate = if q = pid then st else (k.proctab q).prstate := by
  by_cases h : q = pid
  · subst h; simp [setState_same]
  · simp [setState_of_ne k st h, h]

end Xinu
