/-
# The queue table: `queue.h`, `queue.c`, `getitem.c`, `insert.c`, `insertd.c`, `newqueue.c`

One table of links serves every list of processes.  Entries `0 .. NPROC - 1` belong to
processes; a queue `q` is a pair of further entries, its head `q` and its tail `q + 1`.

`insert` and `insertd` search the list for the place of the new member.  On a list that ends at
its tail the search visits each entry of the table at most once; a search of more than `NQENT`
entries is a search of a broken list and gives `none`.
-/
import Xinu.Kernel

namespace Xinu

/-! ## 1. The inline functions of `queue.h` -/

/-- `queuehead(q)`. -/
abbrev queuehead (q : Int) : Int := q

/-- `queuetail(q)`. -/
abbrev queuetail (q : Int) : Int := q + 1

/-- `firstid(q)`. -/
abbrev firstid (t : QTab) (q : Int) : Int := (t (queuehead q)).qnext

/-- `isempty(q)`. -/
abbrev isempty (t : QTab) (q : Int) : Prop := firstid t q ≥ NPROC

/-- `nonempty(q)`. -/
abbrev nonempty (t : QTab) (q : Int) : Prop := firstid t q < NPROC

/-- `firstkey(q)`. -/
abbrev firstkey (t : QTab) (q : Int) : Int := (t (firstid t q)).qkey

/-! ## 2. Assignments to one entry -/

/-- `queuetab[i].qnext = v`. -/
def QTab.setNext (t : QTab) (i v : Int) : QTab := Function.update t i { t i with qnext := v }

/-- `queuetab[i].qprev = v`. -/
def QTab.setPrev (t : QTab) (i v : Int) : QTab := Function.update t i { t i with qprev := v }

/-- `queuetab[i].qkey = v`. -/
def QTab.setKey (t : QTab) (i v : Int) : QTab := Function.update t i { t i with qkey := v }

@[simp] theorem setNext_qnext (t : QTab) (i v j : Int) :
    (t.setNext i v j).qnext = if j = i then v else (t j).qnext := by
  by_cases h : j = i <;> simp [QTab.setNext, h]

@[simp] theorem setNext_qprev (t : QTab) (i v j : Int) : (t.setNext i v j).qprev = (t j).qprev := by
  by_cases h : j = i <;> simp [QTab.setNext, h]

@[simp] theorem setNext_qkey (t : QTab) (i v j : Int) : (t.setNext i v j).qkey = (t j).qkey := by
  by_cases h : j = i <;> simp [QTab.setNext, h]

@[simp] theorem setPrev_qprev (t : QTab) (i v j : Int) :
    (t.setPrev i v j).qprev = if j = i then v else (t j).qprev := by
  by_cases h : j = i <;> simp [QTab.setPrev, h]

@[simp] theorem setPrev_qnext (t : QTab) (i v j : Int) : (t.setPrev i v j).qnext = (t j).qnext := by
  by_cases h : j = i <;> simp [QTab.setPrev, h]

@[simp] theorem setPrev_qkey (t : QTab) (i v j : Int) : (t.setPrev i v j).qkey = (t j).qkey := by
  by_cases h : j = i <;> simp [QTab.setPrev, h]

@[simp] theorem setKey_qkey (t : QTab) (i v j : Int) :
    (t.setKey i v j).qkey = if j = i then v else (t j).qkey := by
  by_cases h : j = i <;> simp [QTab.setKey, h]

@[simp] theorem setKey_qnext (t : QTab) (i v j : Int) : (t.setKey i v j).qnext = (t j).qnext := by
  by_cases h : j = i <;> simp [QTab.setKey, h]

@[simp] theorem setKey_qprev (t : QTab) (i v j : Int) : (t.setKey i v j).qprev = (t j).qprev := by
  by_cases h : j = i <;> simp [QTab.setKey, h]

/-! ## 3. `getitem.c` and `queue.c` -/

/-- `getitem(pid)`: unlink a process from the list it is on. -/
def getitem (pid : Int) (t : QTab) : QTab :=
  let next := (t pid).qnext
  let prev := (t pid).qprev
  (t.setNext prev next).setPrev next prev

/-- `getfirst(q)`. -/
def getfirst (q : Int) (t : QTab) : QTab × Int :=
  if isempty t q then (t, EMPTY)
  else (getitem (t (queuehead q)).qnext t, (t (queuehead q)).qnext)

/-- `dequeue(q)`. -/
def dequeue (q : Int) (t : QTab) : QTab × Int :=
  if isbadqid q then (t, SYSERR)
  else if isempty t q then (t, EMPTY)
  else
    let (t, pid) := getfirst q t
    ((t.setPrev pid EMPTY).setNext pid EMPTY, pid)

/-- Link `pid` between two neighbours: the four assignments `enqueue`, `insert` and `insertd`
share. -/
def linkBetween (t : QTab) (pid prev next : Int) : QTab :=
  (((t.setNext pid next).setPrev pid prev).setNext prev pid).setPrev next pid

/-- `enqueue(pid, q)`. -/
def enqueue (pid q : Int) (k : Kernel) : Kernel × Int :=
  if isbadqid q ∨ isbadpid k pid then (k, SYSERR)
  else
    let tail := queuetail q
    let prev := (k.queuetab tail).qprev
    (k.setQueue (linkBetween k.queuetab pid prev tail), pid)

/-! ## 4. `insert.c` and `insertd.c` -/

/-- The search loop of `insert`. -/
def insertSearch (t : QTab) (key : Int) : Nat → Int → Option Int
  | 0, _ => none
  | fuel + 1, curr =>
    if (t curr).qkey ≥ key then insertSearch t key fuel (t curr).qnext else some curr

/-- `insert(pid, q, key)`: a list in descending order of keys. -/
def insert (pid q key : Int) (k : Kernel) : Option (Kernel × Int) :=
  if isbadqid q ∨ isbadpid k pid then some (k, SYSERR)
  else do
    let curr ← insertSearch k.queuetab key NQENT.toNat (firstid k.queuetab q)
    let prev := (k.queuetab curr).qprev
    return (k.setQueue (linkBetween (k.queuetab.setKey pid key) pid prev curr), OK)

/-- The search loop of `insertd`: the key left over and the two neighbours. -/
def insertdSearch (t : QTab) (q : Int) : Nat → Int → Int → Int → Option (Int × Int × Int)
  | 0, _, _, _ => none
  | fuel + 1, key, prev, next =>
    if next ≠ queuetail q ∧ (t next).qkey ≤ key then
      insertdSearch t q fuel (int32 (key - (t next).qkey)) next (t next).qnext
    else some (key, prev, next)

/-- `insertd(pid, q, key)`: a delta list. -/
def insertd (pid q key : Int) (k : Kernel) : Option (Kernel × Int) :=
  if isbadqid q ∨ isbadpid k pid then some (k, SYSERR)
  else do
    let (key, prev, next) ←
      insertdSearch k.queuetab q NQENT.toNat key (queuehead q) (firstid k.queuetab q)
    let t := linkBetween (k.queuetab.setKey pid key) pid prev next
    if next ≠ queuetail q then
      return (k.setQueue (t.setKey next (int32 ((t next).qkey - key))), OK)
    return (k.setQueue t, OK)

/-! ## 5. `newqueue.c` -/

/-- `newqueue()`: take the next two entries of the table for an empty queue. -/
def newqueue (k : Kernel) : Kernel × Int :=
  let q := k.nextqid
  if q ≥ NQENT then (k, SYSERR)
  else
    let t := ((k.queuetab.setNext (queuehead q) (queuetail q)).setPrev (queuehead q)
      EMPTY).setKey (queuehead q) MAXKEY
    let t := ((t.setNext (queuetail q) EMPTY).setPrev (queuetail q) (queuehead q)).setKey
      (queuetail q) MINKEY
    ({ k.setQueue t with nextqid := q + 2 }, q)

end Xinu
