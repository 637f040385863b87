/-
# The remote disk (`device/rds`, `include/rdisksys.h`)

Requests for a remote disk are buffers on a request queue.  The communication process `rdsprocess`
takes them off, exchanges them with a server, and keeps the blocks in a cache; `rdsread`, `rdswrite`
and the synchronization of `rdscontrol` put requests on the queue and look into both lists.

* A `struct rdbuff *` points to one of the buffers or to the heads and tails of the two doubly
  linked lists, which the code treats as buffers of which only the links are looked at.
* Device calls run with interrupts disabled, so a step of a call goes on until it waits.
* A step of `rdsprocess` is a *piece*: what it executes from one of its kernel calls to the next.
  It runs with interrupts enabled, so a device call can come into a piece as well.  Here none does;
  `Xinu.RdsProcess` takes the pieces apart, statement by statement, and carries the results over.
* Messages are passed by the `send` of `send.c.orig`: a message is refused while one is waiting.
* The server executes the requests in the order in which `rdscomm` sends them, and every exchange
  succeeds; a failed one is a panic.
* `none` is a panic, a walk that never ends, or a reference through a pointer that is not one.
-/
import Xinu.Kernel
import Xinu.Lib.Chains
import Xinu.Lib.Counting

namespace Xinu

open Chains Counting

/-! ## 1. Buffers and lists -/

abbrev RD_BUFFS : Nat := 64
abbrev RD_BLKSIZ : Nat := 512

/-- The content of a disk block. -/
abbrev RdBlock := Fin RD_BLKSIZ → UInt8

inductive RdOp where
  | RD_OP_READ
  | RD_OP_WRITE
  | RD_OP_SYNC
  deriving DecidableEq

inductive RdStatus where
  | RD_VALID
  | RD_INVALID
  deriving DecidableEq

inductive RdState where
  | RD_FREE
  | RD_OPEN
  deriving DecidableEq

/-- A `struct rdbuff *`: a buffer, the head and tail of the request queue, the head and tail of the
cache, or null. -/
inductive RdPtr where
  | buf (i : Fin RD_BUFFS)
  | rh
  | rt
  | ch
  | ct
  | null
  deriving DecidableEq

/-- The buffer pointed to. -/
def RdPtr.node : RdPtr → Option (Fin RD_BUFFS)
  | .buf i => some i
  | _ => none

/-- `struct rdbuff` without its links. -/
structure Rdbuff where
  rd_op : RdOp
  rd_refcnt : Int
  rd_blknum : Nat
  rd_status : RdStatus
  rd_pid : Nat
  rd_block : RdBlock

/-- `struct rdscblk`.  The links of all buffers, heads and tails are `rd_next` and `rd_prev`, so
`rd_rhnext` is `rd_next .rh`; the buffers are in `rd_buf`. -/
structure Rdscblk where
  rd_state : RdState
  rd_comruns : Bool
  rd_next : RdPtr → RdPtr
  rd_prev : RdPtr → RdPtr
  rd_free : RdPtr
  rd_buf : Fin RD_BUFFS → Rdbuff
  rd_availsem : Gate Nat
  rd_reqsem : Gate Unit

/-- More nodes than there are: a longer walk repeats itself and never ends. -/
def rdWalkLimit : Nat := RD_BUFFS + 6

namespace Rdscblk

variable (r : Rdscblk)

def setBuf (i : Fin RD_BUFFS) (b : Rdbuff) : Rdscblk :=
  { r with rd_buf := Function.update r.rd_buf i b }

/-- Unlink a buffer from the list it is on. -/
def unlink (i : Fin RD_BUFFS) : Rdscblk :=
  { r with
    rd_next := Function.update r.rd_next (r.rd_prev (.buf i)) (r.rd_next (.buf i))
    rd_prev := Function.update r.rd_prev (r.rd_next (.buf i)) (r.rd_prev (.buf i)) }

/-- Insert a buffer behind the head of the cache. -/
def pushCache (i : Fin RD_BUFFS) : Rdscblk :=
  { r with
    rd_next := Function.update (Function.update r.rd_next (.buf i) (r.rd_next .ch)) .ch (.buf i)
    rd_prev := Function.update (Function.update r.rd_prev (.buf i) .ch) (r.rd_next .ch) (.buf i) }

/-- Insert a request just before the tail of the request queue. -/
def append (i : Fin RD_BUFFS) : Rdscblk :=
  { r with
    rd_next := Function.update
      (Function.update r.rd_next (.buf i) (r.rd_next (r.rd_prev .rt))) (r.rd_prev .rt) (.buf i)
    rd_prev := Function.update (Function.update r.rd_prev .rt (.buf i)) (.buf i) (r.rd_prev .rt) }

/-- Move a buffer to the free list. -/
def pushFree (i : Fin RD_BUFFS) : Rdscblk :=
  { r with rd_next := Function.update r.rd_next (.buf i) r.rd_free, rd_free := .buf i }

/-- The first buffer, from `a` on up to `stop`, that passes the test. -/
def find (link : RdPtr → RdPtr) (test : Rdbuff → Bool) (stop a : RdPtr) :
    Option (Option (Fin RD_BUFFS)) :=
  search link RdPtr.node (fun i => test (r.rd_buf i)) stop rdWalkLimit a

end Rdscblk

/-- `rdsbufalloc.c` behind its wait: take a buffer from the free list, or the oldest one in the
cache that nobody refers to. -/
def rdsbufalloc (r : Rdscblk) : Option (Fin RD_BUFFS × Rdscblk) :=
  match r.rd_free with
  | .buf i => some (i, { r with rd_free := r.rd_next (.buf i) })
  | .null =>
    match r.find r.rd_prev (fun b => b.rd_refcnt ≤ 0) .ch (r.rd_prev .ct) with
    | some (some i) => some (i, r.unlink i)
    | _ => none
  | _ => none

/-! ## 2. Processes -/

/-- A call on the device. -/
inductive RdReq where
  | read (blk : Nat)
  | write (blk : Nat) (buff : RdBlock)
  | sync

/-- Where a process stands in its call. -/
inductive RdPc where
  | idle
  /-- The device is open and the communication process runs. -/
  | begun (req : RdReq)
  /-- In `rdsbufalloc`, at `wait(rd_availsem)`. -/
  | alloc (req : RdReq)
  /-- In `rdsread`, at `receive`. -/
  | receiving (blk : Nat)
  /-- In `rdscontrol`, at `receive`. -/
  | syncing

/-- A message to a caller: a buffer, or `OK`. -/
inductive RdMsg where
  | buffer (i : Fin RD_BUFFS)
  | ok

/-- Where `rdsprocess` stands. -/
inductive RdStage where
  /-- Not resumed yet. -/
  | off
  /-- Before `wait(rd_reqsem)`. -/
  | top
  /-- In it. -/
  | waiting
  /-- Behind it. -/
  | take
  /-- In `rdscomm`, with the read request of a buffer. -/
  | reading (i : Fin RD_BUFFS)
  /-- The block is in the cache and `rd_availsem` is signalled. -/
  | told (i : Fin RD_BUFFS)
  /-- The waiting process has its message. -/
  | scan (i : Fin RD_BUFFS)
  /-- In `rdscomm`, with a write request. -/
  | writing
  /-- The process that waits for a synchronization has its message. -/
  | synced (i : Fin RD_BUFFS)
  deriving DecidableEq

/-- The device, the callers with their messages and the buffers they read into, the communication
process with the message `msg` it builds, and the server's blocks. -/
structure Rds where
  cb : Rdscblk
  pc : Nat → RdPc
  mail : Nat → Option RdMsg
  buff : Nat → RdBlock
  stage : RdStage
  msg_blk : Nat
  msg_data : RdBlock
  server : Nat → RdBlock

namespace Rds

def setPc (s : Rds) (p : Nat) (c : RdPc) : Rds := { s with pc := Function.update s.pc p c }

/-- `send`. -/
def send (s : Rds) (p : Nat) (m : RdMsg) : Rds :=
  if (s.mail p).isSome then s else { s with mail := Function.update s.mail p (some m) }

/-- The request that a call makes of its buffer. -/
def request (p : Nat) (old : Rdbuff) : RdReq → Rdbuff
  | .read blk => { old with
    rd_op := .RD_OP_READ, rd_refcnt := 1, rd_blknum := blk, rd_status := .RD_INVALID, rd_pid := p }
  | .write blk buff =>
    { rd_op := .RD_OP_WRITE, rd_refcnt := 0, rd_blknum := blk, rd_status := .RD_VALID, rd_pid := p
      rd_block := buff }
  | .sync => { old with
    rd_op := .RD_OP_SYNC, rd_refcnt := 1, rd_blknum := 0, rd_status := .RD_INVALID, rd_pid := p }

/-- With a buffer in hand: insert the request, and go on to `receive`, or return from a write. -/
def enqueue (s : Rds) (p : Nat) (req : RdReq) (r : Rdscblk) (i : Fin RD_BUFFS) : Rds :=
  let r := (r.setBuf i (request p (r.rd_buf i) req)).append i
  let s := { s with cb := { r with rd_reqsem := r.rd_reqsem.signal 1 } }
  match req with
  | .read blk => { s.setPc p (.receiving blk) with mail := Function.update s.mail p none }
  | .write _ _ => s.setPc p .idle
  | .sync => { s.setPc p .syncing with mail := Function.update s.mail p none }

/-- `rdsbufalloc`, and the request with the buffer it returns. -/
def allocate (s : Rds) (p : Nat) (req : RdReq) : Option Rds :=
  (rdsbufalloc s.cb).map fun (i, r) => s.enqueue p req r i

/-- `wait(rd_availsem)` in `rdsbufalloc`. -/
def waitAvail (s : Rds) (p : Nat) (req : RdReq) : Option Rds :=
  let s' := { s with cb.rd_availsem := s.cb.rd_availsem.wait p }
  if 0 < s.cb.rd_availsem.sem.count then s'.allocate p req else some (s'.setPc p (.alloc req))

/-- `rdsread` returns with a block in the caller's buffer. -/
def answer (s : Rds) (p : Nat) (b : RdBlock) : Rds :=
  { s.setPc p .idle with buff := Function.update s.buff p b }

/-- The search of `rdsread` in the request list, from its tail. -/
def readQueue (s : Rds) (p blk : Nat) : Option Rds :=
  (s.cb.find s.cb.rd_prev (fun b => b.rd_blknum = blk) .rh (s.cb.rd_prev .rt)).bind fun found =>
    match found with
    | some i =>
      if (s.cb.rd_buf i).rd_op = .RD_OP_WRITE then some (s.answer p (s.cb.rd_buf i).rd_block)
      else s.waitAvail p (.read blk)
    | none => s.waitAvail p (.read blk)

/-- The searches of `rdsread`, in the cache first. -/
def readSearch (s : Rds) (p blk : Nat) : Option Rds :=
  (s.cb.find s.cb.rd_next (fun b => b.rd_blknum = blk) .ct (s.cb.rd_next .ch)).bind fun found =>
    match found with
    | some i =>
      if (s.cb.rd_buf i).rd_status = .RD_INVALID then s.readQueue p blk
      else some (s.answer p (s.cb.rd_buf i).rd_block)
    | none => s.readQueue p blk

/-- The search of `rdswrite` in the cache. -/
def writeCache (s : Rds) (p blk : Nat) (buff : RdBlock) : Option Rds :=
  (s.cb.find s.cb.rd_next (fun b => b.rd_blknum = blk) .ct (s.cb.rd_next .ch)).bind fun found =>
    match found with
    | some i =>
      if (s.cb.rd_buf i).rd_refcnt ≤ 0 then
        -- unlink it and reset the available semaphore accordingly
        let r := s.cb.unlink i
        let n := r.rd_availsem.sem.count - 1
        let r := if n < 0 then r else { r with rd_availsem := r.rd_availsem.reset n.toNat }
        some (s.enqueue p (.write blk buff) r i)
      else s.waitAvail p (.write blk buff)
    | none => s.waitAvail p (.write blk buff)

/-- The searches of `rdswrite`, in the request queue first. -/
def writeSearch (s : Rds) (p blk : Nat) (buff : RdBlock) : Option Rds :=
  (s.cb.find s.cb.rd_next (fun b => b.rd_blknum = blk ∧ b.rd_op = .RD_OP_WRITE) .rt
      (s.cb.rd_next .rh)).bind fun found =>
    match found with
    | some i =>
      some { s.setPc p .idle with
        cb := s.cb.setBuf i { s.cb.rd_buf i with rd_block := buff } }
    | none => s.writeCache p blk buff

/-- The end of `rdsread`: copy the block and drop the reference; a buffer nobody refers to is
freed when there is a newer one for the same block in the cache. -/
def readFinish (s : Rds) (p blk : Nat) (i : Fin RD_BUFFS) : Option Rds :=
  let b := s.cb.rd_buf i
  let r := s.cb.setBuf i { b with rd_refcnt := b.rd_refcnt - 1 }
  let s' := { s.answer p b.rd_block with cb := r, mail := Function.update s.mail p none }
  if b.rd_refcnt - 1 ≤ 0 then
    (r.find r.rd_next (fun b => b.rd_blknum = blk) (.buf i) (r.rd_next .ch)).map fun found =>
      match found with
      | some _ => { s' with cb := (r.unlink i).pushFree i }
      | none => s'
  else some s'

/-- The loop of `rdsclose`, from a buffer of the cache on. -/
def closeLoop : Nat → RdPtr → Rdscblk → Option Rdscblk
  | 0, _, _ => none
  | n + 1, ptr, r =>
    if ptr = .ct then some r
    else ptr.node.bind fun i =>
      closeLoop n (r.rd_next (.buf i))
        (((r.unlink i).pushFree i).setBuf i { r.rd_buf i with rd_status := .RD_INVALID })

/-- `rdsclose.c`. -/
def rdsclose (r : Rdscblk) : Option Rdscblk :=
  if r.rd_state ≠ .RD_OPEN then some r
  else if r.rd_next .rh ≠ .rt then some r
  else (closeLoop rdWalkLimit (r.rd_next .ch) r).map fun r => { r with rd_state := .RD_FREE }

/-! ## 3. `rdsprocess.c`

What a piece does when no device call comes into it.  `RdsMachine.step` has its statements. -/

/-- The loop over the request queue behind a read: tell one other process that waits for the block,
and unlink its request. -/
def scanQueue (s : Rds) (i : Fin RD_BUFFS) : Option Rds :=
  let r := s.cb
  (r.find r.rd_next (fun b => b.rd_blknum = (r.rd_buf i).rd_blknum) .rt (r.rd_next .rh)).map
    fun found =>
      match found with
      | none => { s with stage := .top }
      | some q =>
        let r := r.setBuf i { r.rd_buf i with rd_refcnt := (r.rd_buf i).rd_refcnt + 1 }
        let s := { s with cb := r }.send (r.rd_buf q).rd_pid (.buffer i)
        let r := { r with
          rd_next := Function.update r.rd_next (r.rd_prev (.buf q)) (r.rd_next (.buf i))
          rd_prev := Function.update r.rd_prev (r.rd_next (.buf q)) (r.rd_prev (.buf i)) }
        let r := r.pushFree q
        { s with cb := { r with rd_availsem := r.rd_availsem.signal 1 }, stage := .top }

/-- The next piece of `rdsprocess`, undisturbed. -/
def process (s : Rds) : Option Rds :=
  match s.stage with
  | .off => none
  | .top =>
    some { s with
      cb.rd_reqsem := s.cb.rd_reqsem.wait ()
      stage := if 0 < s.cb.rd_reqsem.sem.count then .take else .waiting }
  | .waiting =>
    if () ∈ s.cb.rd_reqsem.released then
      some { s with cb.rd_reqsem := s.cb.rd_reqsem.run (), stage := .take }
    else none
  | .take =>
    (s.cb.rd_next .rh).node.map fun i =>
      let b := s.cb.rd_buf i
      match b.rd_op with
      | .RD_OP_READ => { s with stage := .reading i }
      | .RD_OP_WRITE =>
        let r := ((s.cb.unlink i).pushCache i).setBuf i { b with rd_refcnt := 0 }
        { s with
          msg_blk := b.rd_blknum, msg_data := b.rd_block
          cb := { r with rd_availsem := r.rd_availsem.signal 1 }, stage := .writing }
      | .RD_OP_SYNC => { s.send b.rd_pid .ok with stage := .synced i }
  | .reading i =>
    -- the server answers with the block that the message names
    let b := s.cb.rd_buf i
    let r := ((s.cb.unlink i).pushCache i).setBuf i
      { b with rd_block := s.server s.msg_blk, rd_refcnt := 1 }
    some { s with cb := { r with rd_availsem := r.rd_availsem.signal 1 }, stage := .told i }
  | .told i => some { s.send (s.cb.rd_buf i).rd_pid (.buffer i) with stage := .scan i }
  | .scan i => s.scanQueue i
  | .writing =>
    some { s with server := Function.update s.server s.msg_blk s.msg_data, stage := .top }
  | .synced i =>
    let r := (s.cb.unlink i).pushFree i
    some { s with cb := { r with rd_availsem := r.rd_availsem.signal 1 }, stage := .top }

end Rds

/-! ## 4. Steps -/

inductive RdEvent where
  /-- A device call begins. -/
  | call (p : Nat) (req : RdReq)
  /-- It goes on, up to where it waits. -/
  | go (p : Nat)
  /-- A call that was released from `wait(rd_availsem)` goes on. -/
  | granted (p : Nat)
  /-- A call receives its message and ends. -/
  | finish (p : Nat)
  | close
  | open
  /-- `rdsprocess` goes on: here by a piece, in `RdsMachine` by a statement. -/
  | process

namespace Rds

/-- One step. -/
def step (s : Rds) : RdEvent → Option Rds
  | .call p req =>
    match s.pc p with
    | .idle =>
      if s.cb.rd_state ≠ .RD_OPEN then some s
      else some { s.setPc p (.begun req) with
        cb.rd_comruns := true, stage := if s.cb.rd_comruns then s.stage else .top }
    | _ => none
  | .go p =>
    match s.pc p with
    | .begun (.read blk) => s.readSearch p blk
    | .begun (.write blk buff) => s.writeSearch p blk buff
    | .begun .sync => s.waitAvail p .sync
    | _ => none
  | .granted p =>
    match s.pc p with
    | .alloc req =>
      if p ∈ s.cb.rd_availsem.released then
        { s with cb.rd_availsem := s.cb.rd_availsem.run p }.allocate p req
      else none
    | _ => none
  | .finish p =>
    match s.pc p, s.mail p with
    | .receiving blk, some (.buffer i) => s.readFinish p blk i
    | .syncing, some _ => some { s.setPc p .idle with mail := Function.update s.mail p none }
    | _, _ => none
  | .close => (rdsclose s.cb).map fun r => { s with cb := r }
  | .open =>
    if s.cb.rd_state = .RD_FREE then some { s with cb.rd_state := .RD_OPEN } else some s
  | .process => s.process

/-- `rdsinit.c`, and the disk opened.  `old` is what the memory of the buffers holds, and `msg` what
the message of `rdsprocess` holds before it is set. -/
def init (old : Fin RD_BUFFS → Rdbuff) (mail : Nat → Option RdMsg) (buff : Nat → RdBlock)
    (msg_blk : Nat) (msg_data : RdBlock) (server : Nat → RdBlock) : Rds where
  cb :=
    { rd_state := .RD_OPEN
      rd_comruns := false
      rd_next
        | .buf i => if h : i + 1 < RD_BUFFS then .buf ⟨i + 1, h⟩ else .null
        | .rh => .rt
        | .ch => .ct
        | _ => .null
      rd_prev
        | .rt => .rh
        | .ct => .ch
        | _ => .null
      rd_free := .buf 0
      rd_buf := fun i => { old i with rd_status := .RD_INVALID }
      rd_availsem := Gate.create RD_BUFFS
      rd_reqsem := Gate.create 0 }
  pc := fun _ => .idle
  mail := mail
  buff := buff
  stage := .off
  msg_blk := msg_blk
  msg_data := msg_data
  server := server

end Rds

end Xinu
