/-
# Processes: `create.c`, `rcreate.c`, `kill.c`, `userret.c`

`create` and `rcreate` share most of their text; what they share is `makeProc`.  They differ in
two places: only `create` writes through `prheaphd` and resets the callback fields, and only
`rcreate` calls `ready`.  Each has a `newpid` with a `nextpid` of its own.

`kill` is cut after its call of `send`, because that call is a `send` like any other
(`kill_eq`).
-/
import Xinu.Memory
import Xinu.Message

namespace Xinu

open ByteMemory

/-! ## 1. The allocator as the current process calls it -/

/-- `getmem(nbytes)`. -/
def Kernel.getmem (nbytes : Nat) (k : Kernel) : Option (Kernel × Nat) := do
  let (h, a) ← Xinu.getmem (k.proctab k.currpid).prheaphd nbytes k.heap
  return (k.setHeap h, a)

/-- `freemem(blkaddr, nbytes)`. -/
def Kernel.freemem (blkaddr nbytes : Nat) (k : Kernel) : Option (Kernel × Int) := do
  let (h, r) ← Xinu.freemem (k.proctab k.currpid).prheaphd blkaddr nbytes k.heap
  return (k.setHeap h, r)

/-- `freestk(p, len)`. -/
def Kernel.freestk (p len : Nat) (k : Kernel) : Option (Kernel × Int) := do
  let (h, r) ← Xinu.freestk (k.proctab k.currpid).prheaphd p len k.heap
  return (k.setHeap h, r)

/-- `getstk(nbytes)`. -/
def Kernel.getstk (nbytes : Nat) (k : Kernel) : Option (Kernel × Nat) := do
  let (h, a) ← Xinu.getstk nbytes k.heap
  return (k.setHeap h, a)

/-! ## 2. `create.c` and `rcreate.c` -/

/-- The loop of `newpid`: the pid found (or `SYSERR`) and the new `nextpid`. -/
def newpidLoop (proctab : Int → Procent) : Nat → Int → Int × Int
  | 0, nextpid => (SYSERR, nextpid)
  | fuel + 1, nextpid =>
    let nextpid := nextpid.tmod NPROC
    if (proctab nextpid).prstate = .free then (nextpid, nextpid + 1)
    else newpidLoop proctab fuel (nextpid + 1)

/-- `newpid()`. -/
def newpid (proctab : Int → Procent) (nextpid : Int) : Int × Int :=
  newpidLoop proctab NPROC.toNat nextpid

/-- The loop that copies the name, from index `i` on. -/
def copyName (name : Nat → UInt8) : Nat → Nat → (Nat → UInt8) → Nat → UInt8
  | 0, _, prname => prname
  | fuel + 1, i, prname =>
    let prname := Function.update prname i (name i)
    if name i ≠ 0 then copyName name fuel (i + 1) prname else prname

/-- `PNMLEN` of `process.h`. -/
abbrev PNMLEN : Nat := 16

/-- The stack size `create` asks for. -/
def stackSize (ssize : Nat) : Nat := roundmb (if ssize < MINSTK then MINSTK else ssize)

/-- The initial contents of a stack, as if `funcaddr` had been called with `args` and had been
switched out by `ctxsw`.  Returns the memory and the saved stack pointer. -/
def buildStack (saddr funcaddr userret : Nat) (args : List Nat) (m : Mem) : Mem × Nat :=
  let m := store m saddr STACKMAGIC
  let (m, savsp) := pushAll m saddr (args.reverse ++ [userret, funcaddr, saddr])
  -- interrupts enabled, then what `pushal` would push
  let (m, pushsp) := pushAll m savsp [0x200, 0, 0, 0, 0, 0]
  let (m, sp) := pushAll m pushsp [savsp, 0, 0]
  (store m pushsp sp, sp)

/-- The three runs of pushes of `buildStack`. -/
theorem buildStack_eq (saddr funcaddr userret : Nat) (args : List Nat) (m : Mem) :
    ∃ r₁ r₂ r₃, r₁ = pushAll (store m saddr STACKMAGIC) saddr
        (args.reverse ++ [userret, funcaddr, saddr]) ∧
      r₂ = pushAll r₁.1 r₁.2 [0x200, 0, 0, 0, 0, 0] ∧ r₃ = pushAll r₂.1 r₂.2 [r₁.2, 0, 0] ∧
      buildStack saddr funcaddr userret args m = (store r₃.1 r₂.2 r₃.2, r₃.2) :=
  ⟨_, _, _, rfl, rfl, rfl, rfl⟩

/-- What the two routines assign to the new table entry before they differ. -/
def initProc (saddr ssize : Nat) (priority : Pri16) (name : Nat → UInt8) (parent : Int)
    (p : Procent) : Procent :=
  { p with
    prstate := .susp
    prprio := priority
    prstkbase := saddr
    prstklen := ssize
    prname := copyName name (PNMLEN - 1) 0 (Function.update p.prname (PNMLEN - 1) 0)
    prsem := -1
    prparent := parent
    prhasmsg := FALSE
    prdesc := fun i => if i < 3 then CONSOLE else p.prdesc i }

/-- The callback assignments of `create`. -/
def initCallback (p : Procent) : Procent :=
  { p with prcbvalid := 0, prcbptr := 0, prmbufptr := 0, prtmpbuf := 0, prtmpvalid := 0 }

/-- The three assignments of `create` through `prheaphd`. -/
def resetHeader (hdptr : Nat) (m : Mem) : Mem :=
  store (store (store m hdptr 0) (hdptr + 4) 0) (hdptr + 8) 0

/-- What `create` and `rcreate` do with a pid and a stack: fill the table entry, run `fill`
(where they differ) and build the stack. -/
def setupProc (fill : Int → Kernel → Kernel) (funcaddr ssize : Nat) (priority : Pri16)
    (name : Nat → UInt8) (args : List Nat) (pid : Int) (saddr : Nat) (k : Kernel) : Kernel :=
  let k := { k with prcount := k.prcount + 1 }
  let k := k.setProc pid (initProc saddr ssize priority name k.currpid)
  let k := fill pid k
  let (m, sp) := buildStack saddr funcaddr k.image.userret args k.heap.mem
  let k := k.setHeap { k.heap with mem := m }
  k.setProc pid fun p => { p with prstkptr := sp }

/-- The part `create` and `rcreate` share, given the outcome of `newpid`. -/
def makeProc (fill : Int → Kernel → Kernel) (funcaddr ssize : Nat) (priority : Pri16)
    (name : Nat → UInt8) (args : List Nat) (pid : Int) (k : Kernel) : Option (Kernel × Int) :=
  if pid = SYSERR then some (k, SYSERR)
  else do
    let (k, saddr) ← k.getstk ssize
    if saddr = sysErrPtr then return (k, SYSERR)
    return (setupProc fill funcaddr ssize priority name args pid saddr k, pid)

/-- **The three ways `makeProc` returns**: there is no pid, there is no stack, or there is a new
process. -/
theorem makeProc_cases {fill : Int → Kernel → Kernel} {f n : Nat} {prio : Pri16}
    {nm : Nat → UInt8} {as : List Nat} {pid : Int} {k : Kernel} {r : Kernel × Int}
    (h : makeProc fill f n prio nm as pid k = some r) :
    r = (k, SYSERR) ∨ (∃ k₁, k.getstk n = some (k₁, sysErrPtr) ∧ r = (k₁, SYSERR)) ∨
      pid ≠ SYSERR ∧ ∃ k₁ saddr, k.getstk n = some (k₁, saddr) ∧ saddr ≠ sysErrPtr ∧
        r = (setupProc fill f n prio nm as pid saddr k₁, pid) := by
  unfold makeProc at h
  split_ifs at h with h0
  · exact Or.inl (Option.some.inj h).symm
  obtain ⟨⟨k₁, saddr⟩, hg, h⟩ := Option.bind_eq_some_iff.mp h
  simp only at h
  split_ifs at h with h1
  · subst h1
    exact Or.inr (Or.inl ⟨k₁, hg, (Option.some.inj h).symm⟩)
  · exact Or.inr (Or.inr ⟨h0, k₁, saddr, hg, h1, (Option.some.inj h).symm⟩)

/-- What only `create` does to a new entry. -/
def createFill (pid : Int) (k : Kernel) : Kernel :=
  let m := resetHeader (k.proctab pid).prheaphd k.heap.mem
  (k.setHeap { k.heap with mem := m }).setProc pid initCallback

/-- `create(funcaddr, ssize, priority, name, nargs, args...)`. -/
def create (funcaddr ssize : Nat) (priority : Pri16) (name : Nat → UInt8) (args : List Nat)
    (k : Kernel) : Option (Kernel × Int) :=
  if priority.val < 1 then some (k, SYSERR)
  else
    let (pid, nextpid) := newpid k.proctab k.createNextpid
    makeProc createFill funcaddr (stackSize ssize) priority name args pid
      { k with createNextpid := nextpid }

/-- `rcreate(funcaddr, ssize, priority, name, nargs, args...)`. -/
def rcreate (funcaddr ssize : Nat) (priority : Pri16) (name : Nat → UInt8) (args : List Nat)
    (k : Kernel) : Option (Kernel × Int) :=
  if priority.val < 1 then some (k, SYSERR)
  else do
    let (pid, nextpid) := newpid k.proctab k.rcreateNextpid
    let (k, pid) ← makeProc (fun _ k => k) funcaddr (stackSize ssize) priority name args pid
      { k with rcreateNextpid := nextpid }
    if pid = SYSERR then return (k, SYSERR)
    let (k, _) ← ready pid k
    return (k, pid)

/-! ## 3. `kill.c` and `userret.c` -/

/-- `close(descrp)` of the console: its entry in the device switch is `ionull`. -/
def close (_descrp : Int) (k : Kernel) : Kernel := k

/-- `unsleep(pid); prptr->prstate = PR_FREE;`. -/
def killTail (pid : Int) (k : Kernel) : Kernel := (unsleep pid k).1.setState pid .free

/-- The `switch` of `kill`, up to its call of `resched` when the victim is the caller. -/
def killSwitch (pid : Int) (k : Kernel) : Option (Kernel × Cont) :=
  match (k.proctab pid).prstate with
  | .curr => do
    let k ← resched (k.setState pid .free)
    return (k, .kill pid)
  | .sleep | .rectim => some (killTail pid k, .ret OK)
  | .wait =>
    let k := k.setSem (k.proctab pid).prsem fun s => { s with scount := int32 (s.scount + 1) }
    some ((k.setQueue (getitem pid k.queuetab)).setState pid .free, .ret OK)
  | .ready =>
    some ((k.setQueue (getitem pid k.queuetab)).setState pid .free, .ret OK)
  | _ => some (k.setState pid .free, .ret OK)

/-- What `kill` does after `send`: close the descriptors, free the stack, remove the victim
from its queue.  The list at `prheaphd` is only read, into variables nothing uses. -/
def killRest (pid : Int) (k : Kernel) : Option (Kernel × Cont) := do
  let p := k.proctab pid
  let k := close (p.prdesc 2) (close (p.prdesc 1) (close (p.prdesc 0) k))
  let (k, _) ← k.freestk p.prstkbase p.prstklen
  killSwitch pid k

/-- `kill(pid)` up to its call of `resched`.  `xdone` halts the processor. -/
def kill (pid : Int) (k : Kernel) : Option (Kernel × Cont) :=
  if isbadpid k pid ∨ pid = NULLPROC ∨ (k.proctab pid).prstate = .free then
    some (k, .ret SYSERR)
  else
    let k := { k with prcount := k.prcount - 1 }
    if k.prcount ≤ 1 then none
    else do
      let (k, _) ← send (k.proctab pid).prparent pid.toNat k
      killRest pid k

/-- **`kill` sends, then frees.** -/
theorem kill_eq {pid : Int} {k : Kernel} (hbad : ¬ isbadpid k pid) (hnull : pid ≠ NULLPROC)
    (hcount : ¬ k.prcount - 1 ≤ 1) :
    kill pid k = (send (k.proctab pid).prparent pid.toNat
      { k with prcount := k.prcount - 1 }).bind fun r => killRest pid r.1 := by
  have hfree : (k.proctab pid).prstate ≠ .free := fun h => hbad (Or.inr (Or.inr h))
  unfold kill
  rw [if_neg (by rintro (h | h | h) <;> contradiction)]
  simp only [if_neg hcount]
  rfl

/-- **The two ways `kill` returns**: it refuses, or it sends, frees the stack and removes the
victim. -/
theorem kill_cases {pid : Int} {k : Kernel} {r : Kernel × Cont} (h : kill pid k = some r) :
    (isbadpid k pid ∨ pid = NULLPROC) ∧ r = (k, .ret SYSERR) ∨
      ¬ isbadpid k pid ∧ pid ≠ NULLPROC ∧ ∃ k₁ v₁ k₂ v₂,
      send (k.proctab pid).prparent pid.toNat { k with prcount := k.prcount - 1 } = some (k₁, v₁) ∧
        k₁.freestk (k₁.proctab pid).prstkbase (k₁.proctab pid).prstklen = some (k₂, v₂) ∧
        killSwitch pid k₂ = some r := by
  by_cases hbad : isbadpid k pid ∨ pid = NULLPROC ∨ (k.proctab pid).prstate = .free
  · unfold kill at h
    rw [if_pos hbad] at h
    refine Or.inl ⟨?_, (Option.some.inj h).symm⟩
    rcases hbad with h1 | h1 | h1
    · exact Or.inl h1
    · exact Or.inr h1
    · exact Or.inl (Or.inr (Or.inr h1))
  simp only [not_or] at hbad
  obtain ⟨hgood, hnull, hlive⟩ := hbad
  by_cases hcount : k.prcount - 1 ≤ 1
  · unfold kill at h
    rw [if_neg (by rintro (h1 | h1 | h1) <;> contradiction)] at h
    simp only [if_pos hcount] at h
    simp at h
  rw [kill_eq hgood hnull hcount] at h
  obtain ⟨⟨k₁, v₁⟩, hs, h⟩ := Option.bind_eq_some_iff.mp h
  obtain ⟨⟨k₂, v₂⟩, hf, h⟩ := Option.bind_eq_some_iff.mp h
  exact Or.inr ⟨hgood, hnull, k₁, v₁, k₂, v₂, hs, hf, h⟩

/-- `userret()`: what a process that returns from its top-level function executes. -/
def userret (k : Kernel) : Option (Kernel × Cont) := kill k.currpid k

end Xinu
