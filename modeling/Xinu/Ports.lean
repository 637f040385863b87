/-
# Ports: `ports.h`, `ptinit.c`, `ptcreate.c`, `ptsend.c`, `ptrecv.c`, `ptclear.c`, `ptreset.c`,
`ptdelete.c`

A port is a queue of messages between two semaphores: a sender waits for room on the one and signals
the other, a receiver does the opposite.  The port routines are built on the kernel calls, and a
process can be switched out inside them: in `wait`, in `signal`, in the two calls of `semreset` or
`semdelete` of `_ptclear`, and in the caller's function that disposes of a message.  So a state here
is a state of the system below together with what each process still has to do of the port routines
it is in (`PortFrame`), the innermost first.  Interrupts are disabled in a port routine, and until
it reaches the next such place nothing else happens.

The message nodes stand in one array, which `ptinit` allocates and only the port routines touch.  A
pointer to a node is its index there, and `none` is `NULL`.
-/
import Xinu.Notice

namespace Xinu

open ByteMemory

/-! ## 1. The port table

The table and the nodes, with assignments to single fields. -/

/-- `NPORTS` of `ports.h`. -/
abbrev NPORTS : Int := 30

/-- `PT_FREE`, `PT_LIMBO` and `PT_ALLOC`, and what the bss segment holds before `ptinit`. -/
inductive PtState
  | unset
  | free
  | limbo
  | alloc
deriving DecidableEq, Repr

/-- `struct ptnode`. -/
structure Ptnode where
  ptmsg : Nat
  ptnext : Option Nat

/-- `struct ptentry`. -/
structure Ptentry where
  ptssem : Int
  ptrsem : Int
  ptstate : PtState
  ptmaxcnt : UInt16
  ptseq : Int
  pthead : Option Nat
  pttail : Option Nat

/-- The message nodes and the global variables of `ptinit.c`. -/
structure Ports where
  nodes : Nat → Ptnode
  ptfree : Option Nat
  porttab : Int → Ptentry
  ptnextid : Int

/-- `isbadport(portid)` of `ports.h`. -/
def isbadport (portid : Int) : Prop := portid < 0 ∨ portid ≥ NPORTS

instance (portid : Int) : Decidable (isbadport portid) :=
  inferInstanceAs (Decidable (portid < 0 ∨ portid ≥ NPORTS))

/-- Assign to fields of `porttab[portid]`. -/
def Ports.setPort (P : Ports) (portid : Int) (f : Ptentry → Ptentry) : Ports :=
  { P with porttab := Function.update P.porttab portid (f (P.porttab portid)) }

/-- `node->ptnext = v`. -/
def Ports.setNext (P : Ports) (node : Nat) (v : Option Nat) : Ports :=
  { P with nodes := Function.update P.nodes node { P.nodes node with ptnext := v } }

theorem setPort_same (P : Ports) (p : Int) (f : Ptentry → Ptentry) :
    (P.setPort p f).porttab p = f (P.porttab p) := Function.update_self ..

theorem setPort_of_ne (P : Ports) {p q : Int} (f : Ptentry → Ptentry) (h : q ≠ p) :
    (P.setPort p f).porttab q = P.porttab q := Function.update_of_ne h ..

@[simp] theorem setPort_nodes (P : Ports) (p : Int) (f : Ptentry → Ptentry) :
    (P.setPort p f).nodes = P.nodes := rfl

@[simp] theorem setPort_ptfree (P : Ports) (p : Int) (f : Ptentry → Ptentry) :
    (P.setPort p f).ptfree = P.ptfree := rfl

@[simp] theorem setNext_porttab (P : Ports) (i : Nat) (v : Option Nat) :
    (P.setNext i v).porttab = P.porttab := rfl

@[simp] theorem setNext_ptfree (P : Ports) (i : Nat) (v : Option Nat) :
    (P.setNext i v).ptfree = P.ptfree := rfl

/-! ## 2. `ptinit` and `ptcreate`

`getmem` and the calls of `semcreate` belong to the kernel below. -/

/-- The loop of `ptinit` over the nodes from `curr` on, and the assignment after it. -/
def ptinitLoop : Nat → Nat → Ports → Ports
  | 0, curr, P => P.setNext curr none
  | n + 1, curr, P => ptinitLoop n (curr + 1) (P.setNext curr (some (curr + 1)))

/-- `ptinit(maxmsgs)` once `getmem` has found the array of nodes. -/
def ptinit (maxmsgs : Int) (P : Ports) : Ports :=
  let P := { P with
    ptfree := some 0
    porttab := fun i =>
      if isbadport i then P.porttab i else { P.porttab i with ptstate := .free, ptseq := 0 }
    ptnextid := 0 }
  -- the loop test `--maxmsgs > 0`
  ptinitLoop (maxmsgs - 1).toNat 0 P

theorem ptinitLoop_porttab (n curr : Nat) (P : Ports) :
    (ptinitLoop n curr P).porttab = P.porttab := by
  induction n generalizing curr P with
  | zero => rfl
  | succ n ih => exact ih _ _

theorem ptinit_porttab {p : Int} (hp : ¬ isbadport p) (maxmsgs : Int) (P : Ports) :
    (ptinit maxmsgs P).porttab p = { P.porttab p with ptstate := .free, ptseq := 0 } := by
  rw [ptinit, ptinitLoop_porttab]
  exact if_neg hp

/-- The assignments of `ptcreate` to the entry it has found. -/
def Ptentry.made (count ptssem ptrsem : Int) (e : Ptentry) : Ptentry where
  ptssem := ptssem
  ptrsem := ptrsem
  ptstate := .alloc
  ptmaxcnt := UInt16.ofNat count.toNat
  ptseq := int32 (e.ptseq + 1)
  pthead := none
  pttail := none

/-- The loop of `ptcreate`. -/
def ptcreateLoop (count : Int) : Nat → Kernel → Ports → (Kernel × Ports) × Int
  | 0, k, P => ((k, P), SYSERR)
  | n + 1, k, P =>
    let ptnum := P.ptnextid
    let P := { P with ptnextid := if ptnum + 1 ≥ NPORTS then 0 else ptnum + 1 }
    if (P.porttab ptnum).ptstate = .free then
      let s := semcreate count k
      let r := semcreate 0 s.1
      ((r.1, P.setPort ptnum (Ptentry.made count s.2 r.2)), ptnum)
    else ptcreateLoop count n k P

/-- `ptcreate(count)`. -/
def ptcreate (count : Int) (k : Kernel) (P : Ports) : (Kernel × Ports) × Int :=
  if count < 0 then ((k, P), SYSERR) else ptcreateLoop count NPORTS.toNat k P

/-! ## 3. The queue of a port

What the routines do to the nodes between two kernel calls. -/

/-- `ptsend` between its checks and `signal`: a node off the free list goes to the tail of the
queue.  Without a free node the routine calls `panic`. -/
def Ports.enqueueMsg (portid : Int) (msg : Nat) (P : Ports) : Option Ports :=
  P.ptfree.map fun msgnode =>
    let tailnode := (P.porttab portid).pttail
    let P := { P with
      ptfree := (P.nodes msgnode).ptnext
      nodes := Function.update P.nodes msgnode ⟨msg, none⟩ }
    match tailnode with
    | none => P.setPort portid fun e => { e with pthead := some msgnode, pttail := some msgnode }
    | some t => (P.setNext t (some msgnode)).setPort portid fun e =>
        { e with pttail := some msgnode }

/-- `ptrecv` between its checks and `signal`: the node at the head of the queue goes to the free
list.  With an empty queue the routine would follow a null pointer. -/
def Ports.dequeueMsg (portid : Int) (P : Ports) : Option (Ports × Nat) :=
  (P.porttab portid).pthead.map fun msgnode =>
    let e := P.porttab portid
    let msg := (P.nodes msgnode).ptmsg
    let P :=
      if e.pthead = e.pttail then
        P.setPort portid fun e => { e with pthead := none, pttail := none }
      else P.setPort portid fun e => { e with pthead := (P.nodes msgnode).ptnext }
    ({ P.setNext msgnode P.ptfree with ptfree := some msgnode }, msg)

/-- What `_ptclear` does after its loop when there were messages: the whole queue goes in front of
the free list. -/
def Ports.freeQueue (portid : Int) (P : Ports) : Option Ports :=
  (P.porttab portid).pttail.map fun t =>
    { P.setNext t P.ptfree with ptfree := (P.porttab portid).pthead }

/-! ## 4. Processes inside port routines

A process has a stack of frames, since the function that disposes of messages may use ports
itself. -/

/-- Where a process is inside a port routine, with what the routine has in its variables. -/
inductive PortFrame
  /-- In the `wait` of `ptsend`. -/
  | send (portid seq : Int) (msg : Nat)
  /-- In the `wait` of `ptrecv`. -/
  | recv (portid seq : Int)
  /-- In the `signal` after which `ptsend` or `ptrecv` returns `value`. -/
  | signal (value : Int)
  /-- In the function that disposes of the message in the node `walk`. -/
  | dispose (portid : Int) (newstate : PtState) (walk : Nat)
  /-- In the `semreset` or `semdelete` of the senders' semaphore. -/
  | clearSend (portid : Int) (newstate : PtState)
  /-- In the `semreset` or `semdelete` of the receivers' semaphore. -/
  | clearRecv (portid : Int) (newstate : PtState)
deriving DecidableEq

/-- The system below, the ports, what each process is in, and what the last port routine that a
process has finished returned. -/
structure PortSys where
  sys : Sys
  ports : Ports
  frames : Int → List PortFrame
  value : Int → Int

/-- What the current process does next. -/
inductive PortEvent
  /-- A step of the system below, of the process's own code. -/
  | base (e : Event)
  | ptinit (maxmsgs : Int)
  | ptcreate (count : Int)
  | ptsend (portid : Int) (msg : Nat)
  | ptrecv (portid : Int)
  | ptreset (portid : Int)
  | ptdelete (portid : Int)
  /-- It goes on with the port routine it is in. -/
  | goOn

/-- A process inside the disposal function executes its own code. -/
def PortFrame.isUser : PortFrame → Bool
  | .dispose .. => true
  | _ => false

/-! ## 5. Steps

A step begins where the current process is and ends where it can be switched out the next time, or
where the routine returns. -/

namespace PortSys

/-- `currpid`. -/
abbrev cur (x : PortSys) : Int := x.sys.k.currpid

/-- The current process executes its own code. -/
def user (x : PortSys) : Prop := (x.frames x.cur).head?.all PortFrame.isUser = true

instance (x : PortSys) : Decidable x.user := inferInstanceAs (Decidable (_ = _))

/-- It is about to execute a statement of it that is no kernel call, and is not the null process. -/
def mayCall (x : PortSys) : Prop :=
  x.user ∧ x.sys.idle ∧ x.sys.divert x.cur = false ∧ x.cur ≠ NULLPROC

instance (x : PortSys) : Decidable x.mayCall := inferInstanceAs (Decidable (_ ∧ _))

/-- The current process is in `fs`. -/
def setFrames (x : PortSys) (fs : List PortFrame) : PortSys :=
  { x with frames := Function.update x.frames x.cur fs }

/-- The port routine of the current process returns `v`. -/
def reply (x : PortSys) (v : Int) : PortSys := { x with value := Function.update x.value x.cur v }

/-- The current process makes the kernel call `c` inside a port routine, and is in `f` until it
returns. -/
def call (x : PortSys) (c : Call) (f : PortFrame) : Option PortSys :=
  (Xinu.step x.sys (.call c)).map fun s => { x.setFrames (f :: x.frames x.cur) with sys := s }

/-- `_ptclear` from its `if (newstate == PT_ALLOC)` to the first kernel call. -/
def clearSend (x : PortSys) (portid : Int) (newstate : PtState) : Option PortSys :=
  let e := x.ports.porttab portid
  if newstate = .alloc then
    let P := x.ports.setPort portid fun e => { e with pthead := none, pttail := none }
    { x with ports := P }.call (.semreset e.ptssem e.ptmaxcnt.toNat) (.clearSend portid newstate)
  else x.call (.semdelete e.ptssem) (.clearSend portid newstate)

/-- From there to the second kernel call. -/
def clearRecv (x : PortSys) (portid : Int) (newstate : PtState) : Option PortSys :=
  let e := x.ports.porttab portid
  if newstate = .alloc then x.call (.semreset e.ptrsem 0) (.clearRecv portid newstate)
  else x.call (.semdelete e.ptrsem) (.clearRecv portid newstate)

/-- The last assignment of `_ptclear`, and that of `ptdelete`. -/
def clearDone (x : PortSys) (portid : Int) (newstate : PtState) : PortSys :=
  let P := x.ports.setPort portid fun e => { e with ptstate := newstate }
  let P := if newstate = .free then { P with ptnextid := portid } else P
  { x with ports := P }.reply OK

/-- `_ptclear(&porttab[portid], newstate, _)` to the first place where it can be switched out. -/
def ptclear (x : PortSys) (portid : Int) (newstate : PtState) : Option PortSys :=
  let P := x.ports.setPort portid fun e =>
    { e with ptstate := .limbo, ptseq := int32 (e.ptseq + 1) }
  let x := { x with ports := P }
  match (P.porttab portid).pthead with
  | some walk => some (x.setFrames (.dispose portid newstate walk :: x.frames x.cur))
  | none => x.clearSend portid newstate

/-- The statement of the loop of `_ptclear` that follows the call of the disposal function. -/
def disposed (x : PortSys) (portid : Int) (newstate : PtState) (walk : Nat) : Option PortSys :=
  match (x.ports.nodes walk).ptnext with
  | some walk => some (x.setFrames (.dispose portid newstate walk :: x.frames x.cur))
  | none => (x.ports.freeQueue portid).bind fun P => { x with ports := P }.clearSend portid newstate

/-- The test that `ptsend` and `ptrecv` make when `wait` has returned `v`. -/
def stillOpen (x : PortSys) (portid seq v : Int) : Prop :=
  ¬ (v = SYSERR ∨ (x.ports.porttab portid).ptstate ≠ .alloc ∨ (x.ports.porttab portid).ptseq ≠ seq)

instance (x : PortSys) (portid seq v : Int) : Decidable (x.stillOpen portid seq v) :=
  inferInstanceAs (Decidable (¬ _))

/-- The kernel call in the frame `f`, which is no longer there, has returned `v`. -/
def resume (x : PortSys) (v : Int) : PortFrame → Option PortSys
  | .send portid seq msg =>
    if x.stillOpen portid seq v then
      (x.ports.enqueueMsg portid msg).bind fun P =>
        { x with ports := P }.call (.signal (x.ports.porttab portid).ptrsem) (.signal OK)
    else some (x.reply SYSERR)
  | .recv portid seq =>
    if x.stillOpen portid seq v then
      (x.ports.dequeueMsg portid).bind fun r =>
        { x with ports := r.1 }.call (.signal (x.ports.porttab portid).ptssem) (.signal r.2)
    else some (x.reply SYSERR)
  | .signal value => some (x.reply value)
  | .dispose .. => none
  | .clearSend portid newstate => x.clearRecv portid newstate
  | .clearRecv portid newstate => some (x.clearDone portid newstate)

/-- The current process goes on in its innermost frame `f`, with `fs` around it. -/
def goOn (x : PortSys) (f : PortFrame) (fs : List PortFrame) : Option PortSys :=
  match f, x.sys.cont x.cur with
  | .dispose portid newstate walk, _ =>
    if x.mayCall then (x.setFrames fs).disposed portid newstate walk else none
  | f, .ret v => (Xinu.step x.sys .finish).bind fun s => { x.setFrames fs with sys := s }.resume v f
  | _, _ => none

/-- `portid` is the id of a port that can be used. -/
def usable (x : PortSys) (portid : Int) : Prop :=
  ¬ (isbadport portid ∨ (x.ports.porttab portid).ptstate ≠ .alloc)

instance (x : PortSys) (portid : Int) : Decidable (x.usable portid) :=
  inferInstanceAs (Decidable (¬ _))

/-- A call of a port routine with a port id, which does `f` if the port can be used. -/
def onPort (x : PortSys) (portid : Int) (f : PortSys → Option PortSys) : Option PortSys :=
  if x.mayCall then if x.usable portid then f x else some (x.reply SYSERR) else none

/-- One step of the current process. -/
def step (x : PortSys) : PortEvent → Option PortSys
  | .base e =>
    if x.user then
      (Xinu.step x.sys e).map fun s =>
        { x with sys := s, frames := assignAt (e.made x.sys.k) [] x.frames }
    else none
  | .ptinit maxmsgs =>
    -- a list longer than the array is not followed
    if x.mayCall ∧ maxmsgs * 8 < addrSpace then
      (x.sys.k.getmem (maxmsgs * 8 % addrSpace).toNat).bind fun r =>
        -- `panic("ptinit - insufficient memory")`
        if r.2 = sysErrPtr then none
        else some ({ x with
          sys := { x.sys with k := r.1 }, ports := Xinu.ptinit maxmsgs x.ports }.reply OK)
    else none
  | .ptcreate count =>
    if x.mayCall then
      let r := Xinu.ptcreate count x.sys.k x.ports
      some ({ x with sys := { x.sys with k := r.1.1 }, ports := r.1.2 }.reply r.2)
    else none
  | .ptsend portid msg => x.onPort portid fun x =>
    let e := x.ports.porttab portid
    x.call (.wait e.ptssem) (.send portid e.ptseq msg)
  | .ptrecv portid => x.onPort portid fun x =>
    let e := x.ports.porttab portid
    x.call (.wait e.ptrsem) (.recv portid e.ptseq)
  | .ptreset portid => x.onPort portid fun x => x.ptclear portid .alloc
  | .ptdelete portid => x.onPort portid fun x => x.ptclear portid .free
  | .goOn =>
    match x.frames x.cur with
    | [] => none
    | f :: fs => x.goOn f fs

end PortSys

/-! ## 6. Runs

From a boot of the kernel, with an observer for the counts that callers asked for: the port table
has a field for the count that is too small for some of them. -/

/-- `porttab` in the bss segment. -/
def zeroPort : Ptentry := ⟨0, 0, .unset, 0, 0, none, none⟩

/-- No port exists, and nobody is in a port routine. -/
def PortSys.start (s : Sys) : PortSys where
  sys := s
  ports := ⟨fun _ => ⟨0, none⟩, none, fun _ => zeroPort, 0⟩
  frames := fun _ => []
  value := fun _ => 0

/-- What a caller has asked for: the count of the last `ptcreate` that returned a port. -/
def askedSee (_ : PortSys) (e : PortEvent) (y : PortSys) (asked : Int → Int) : Int → Int :=
  match e with
  | .ptcreate count => Function.update asked (y.value y.cur) count
  | _ => asked

/-- The states of the runs from a boot in which every step meets `ok`, with the counts that were
asked for beside them. -/
def PortsReach (ok : PortSys × (Int → Int) → PortEvent → Prop) (x : PortSys × (Int → Int)) : Prop :=
  ∃ image heap s₀, boot image heap = some s₀ ∧
    Runs.Reaches (Runs.watch PortSys.step askedSee) ok (PortSys.start s₀, fun _ => 0) x

/-- Execute a list of events after a boot of the concrete machine. -/
def portsFromBoot (ok : PortSys × (Int → Int) → PortEvent → Prop) [DecidableRel ok]
    (es : List PortEvent) : Option (PortSys × (Int → Int)) :=
  (boot xinuImage bootHeap).bind fun s =>
    Runs.exec (Runs.watch PortSys.step askedSee) ok (PortSys.start s, fun _ => 0) es

theorem portsReach_portsFromBoot {ok : PortSys × (Int → Int) → PortEvent → Prop} [DecidableRel ok]
    {es : List PortEvent} {x : PortSys × (Int → Int)} (h : portsFromBoot ok es = some x) :
    PortsReach ok x := by
  obtain ⟨s₀, hb, hr⟩ := Option.bind_eq_some_iff.mp h
  exact ⟨xinuImage, bootHeap, s₀, hb, Runs.reaches_of_exec hr⟩

end Xinu
