/-
# The buffers of a remote disk are on exactly one list

`Move v ev w` says what a step does, on lists instead of links (`RdView`): a buffer is allocated,
queued, cached, freed.  Under the condition `Orderly` every step of the code is such a move of the
lists that its links form (`step_move`), and moves keep the bookkeeping between the processes, the
lists and the semaphore of the request queue (`RdInv`).  So the lists stay well formed and the
semaphore counts the requests that `rdsprocess` has not claimed (`reaches_buffersKept`).

Two steps break this and are what `Orderly` excludes.  When a read is done and another request for
the same block is queued, `rdsprocess` unlinks that request with the neighbours of the wrong buffer.
When the disk is closed while a read waits for its buffer, the buffer is freed under it.

The proof has two halves that know nothing of each other.  The moves are about lists of numbers,
and that they keep the bookkeeping is a case analysis with one lemma for each kind of move
(section 2).  That the code moves the lists is about links, and uses one lemma of `RdsLists` for
each assignment (section 3).
-/
import Xinu.RdsLists
import Xinu.Lib.Runs

namespace Xinu

open Chains LinkedPath Counting Runs

/-! ## 1. Moves

`RdView` is the device with its links forgotten and the request queue, the cache and the free list
as lists.  Each constructor of `Move` is one path through one of the routines, with what the path
has found out: that a buffer is the first for its block, that its count of references is not
positive, and so on. -/

/-- The device with its lists. -/
structure RdView where
  Q : List (Fin RD_BUFFS)
  C : List (Fin RD_BUFFS)
  F : List (Fin RD_BUFFS)
  buf : Fin RD_BUFFS → Rdbuff
  avail : Gate Nat
  req : Gate Unit
  state : RdState
  comruns : Bool
  pc : Nat → RdPc
  mail : Nat → Option RdMsg
  buff : Nat → RdBlock
  stage : RdStage
  msg_blk : Nat
  msg_data : RdBlock
  server : Nat → RdBlock

/-- The device, of which the links form the lists `Q`, `C` and `F`. -/
def Rds.view (s : Rds) (Q C F : List (Fin RD_BUFFS)) : RdView where
  Q := Q
  C := C
  F := F
  buf := s.cb.rd_buf
  avail := s.cb.rd_availsem
  req := s.cb.rd_reqsem
  state := s.cb.rd_state
  comruns := s.cb.rd_comruns
  pc := s.pc
  mail := s.mail
  buff := s.buff
  stage := s.stage
  msg_blk := s.msg_blk
  msg_data := s.msg_data
  server := s.server

namespace RdView

variable (v : RdView)

def setPc (p : Nat) (c : RdPc) : RdView := { v with pc := Function.update v.pc p c }

def send (p : Nat) (m : RdMsg) : RdView :=
  if (v.mail p).isSome then v else { v with mail := Function.update v.mail p (some m) }

def answer (p : Nat) (b : RdBlock) : RdView :=
  { v.setPc p .idle with buff := Function.update v.buff p b }

/-- Where a call is once its request is queued. -/
def afterQueue : RdReq → RdPc
  | .read blk => .receiving blk
  | .write _ _ => .idle
  | .sync => .syncing

/-- The messages once the request is queued: a read and a synchronization clear theirs. -/
def clearMail (p : Nat) : RdReq → Nat → Option RdMsg
  | .write _ _ => v.mail
  | _ => Function.update v.mail p none

/-- The held buffer `i` becomes the last request. -/
def enqueue (p : Nat) (req : RdReq) (i : Fin RD_BUFFS) : RdView :=
  { v with
    Q := v.Q ++ [i], buf := Function.update v.buf i (Rds.request p (v.buf i) req)
    req := v.req.signal 1, pc := Function.update v.pc p (afterQueue req)
    mail := v.clearMail p req }

/-- `rdsbufalloc` takes a buffer: the first free one, or the oldest in the cache that nobody
refers to. -/
inductive Takes (v : RdView) : Fin RD_BUFFS → RdView → Prop
  | free {i F'} : v.F = i :: F' → Takes v i { v with F := F' }
  | oldest {i C₁ C₂} : v.F = [] → v.C = C₁ ++ i :: C₂ → (v.buf i).rd_refcnt ≤ 0 →
      (∀ j ∈ C₂, 0 < (v.buf j).rd_refcnt) → Takes v i { v with C := C₁ ++ C₂ }

/-- `i` is the first of a list that holds the block. -/
def First (xs : List (Fin RD_BUFFS)) (blk : Nat) (i : Fin RD_BUFFS) : Prop :=
  ∃ xs₁ xs₂, xs = xs₁ ++ i :: xs₂ ∧ (v.buf i).rd_blknum = blk ∧ ∀ j ∈ xs₁, (v.buf j).rd_blknum ≠ blk

/-- What a step does.  Why a search has come up empty is not recorded. -/
inductive Move : RdView → RdEvent → RdView → Prop
  /-- A call is refused. -/
  | refuse {v : RdView} {ev} :
      (∃ p req, ev = .call p req ∧ v.pc p = .idle) ∨ ev = .close ∨ ev = .open → Move v ev v
  | begin {v : RdView} {p req} : v.pc p = .idle → v.state = .RD_OPEN →
      Move v (.call p req) { v.setPc p (.begun req) with
        comruns := true, stage := if v.comruns then v.stage else .top }
  /-- A read finds a valid block in the cache. -/
  | hitCache {v : RdView} {p blk i} : v.pc p = .begun (.read blk) → v.First v.C blk i →
      (v.buf i).rd_status = .RD_VALID → Move v (.go p) (v.answer p (v.buf i).rd_block)
  /-- A read finds that the latest request for the block is a write. -/
  | hitQueue {v : RdView} {p blk i} : v.pc p = .begun (.read blk) → v.First v.Q.reverse blk i →
      (v.buf i).rd_op = .RD_OP_WRITE → Move v (.go p) (v.answer p (v.buf i).rd_block)
  /-- A write replaces the contents of the first queued write for the block. -/
  | replace {v : RdView} {p blk data i Q₁ Q₂} : v.pc p = .begun (.write blk data) →
      v.Q = Q₁ ++ i :: Q₂ → (v.buf i).rd_blknum = blk → (v.buf i).rd_op = .RD_OP_WRITE →
      (∀ j ∈ Q₁, ¬ ((v.buf j).rd_blknum = blk ∧ (v.buf j).rd_op = .RD_OP_WRITE)) →
      Move v (.go p) { v.setPc p .idle with
        buf := Function.update v.buf i { v.buf i with rd_block := data } }
  /-- A write takes the buffer that the cache has for the block. -/
  | reuse {v : RdView} {p blk data i C₁ C₂ avail} : v.pc p = .begun (.write blk data) →
      v.C = C₁ ++ i :: C₂ → (v.buf i).rd_blknum = blk → (∀ j ∈ C₁, (v.buf j).rd_blknum ≠ blk) →
      (v.buf i).rd_refcnt ≤ 0 →
      Move v (.go p) ({ v with C := C₁ ++ C₂, avail := avail }.enqueue p (.write blk data) i)
  /-- A call waits for a buffer. -/
  | block {v : RdView} {p req avail} : v.pc p = .begun req →
      Move v (.go p) ({ v with avail := avail }.setPc p (.alloc req))
  /-- It gets one at once. -/
  | pass {v : RdView} {w p req i avail} : v.pc p = .begun req →
      Takes { v with avail := avail } i w → Move v (.go p) (w.enqueue p req i)
  /-- It gets one after waiting. -/
  | granted {v : RdView} {w p req i avail} : v.pc p = .alloc req →
      Takes { v with avail := avail } i w → Move v (.granted p) (w.enqueue p req i)
  /-- A read returns with the block of its buffer, which stays in the cache, -/
  | finishKeep {v : RdView} {p blk i} : v.pc p = .receiving blk → v.mail p = some (.buffer i) →
      Move v (.finish p) { v.answer p (v.buf i).rd_block with
        mail := Function.update v.mail p none
        buf := Function.update v.buf i
          { v.buf i with rd_refcnt := (v.buf i).rd_refcnt - 1 } }
  /-- or is freed, when the cache has a newer one for the block. -/
  | finishFree {v : RdView} {p blk i j C₁ C₂} : v.pc p = .receiving blk →
      v.mail p = some (.buffer i) → v.C = C₁ ++ i :: C₂ → j ∈ C₁ → (v.buf j).rd_blknum = blk →
      Move v (.finish p) { v.answer p (v.buf i).rd_block with
        mail := Function.update v.mail p none
        buf := Function.update v.buf i
          { v.buf i with rd_refcnt := (v.buf i).rd_refcnt - 1 }
        C := C₁ ++ C₂, F := i :: v.F }
  | finishSync {v : RdView} {p} : v.pc p = .syncing → v.mail p ≠ none →
      Move v (.finish p) { v.setPc p .idle with mail := Function.update v.mail p none }
  /-- The cache is moved to the free list. -/
  | close {v : RdView} : v.Q = [] → (∀ p blk, v.pc p ≠ .receiving blk) →
      Move v .close { v with
        C := [], F := v.C.reverse ++ v.F, state := .RD_FREE
        buf := fun j => if j ∈ v.C then { v.buf j with rd_status := .RD_INVALID } else v.buf j }
  | reopen {v : RdView} : Move v .open { v with state := .RD_OPEN }
  /-- `rdsprocess` waits for a request. -/
  | wait {v : RdView} : v.stage = .top → Move v .process { v with
      req := v.req.wait (), stage := if 0 < v.req.sem.count then .take else .waiting }
  | run {v : RdView} : v.stage = .waiting → () ∈ v.req.released →
      Move v .process { v with req := v.req.run (), stage := .take }
  | takeRead {v : RdView} {i Q'} : v.stage = .take → v.Q = i :: Q' → (v.buf i).rd_op = .RD_OP_READ →
      Move v .process { v with stage := .reading i }
  /-- A write goes to the cache, and its copy to the server. -/
  | takeWrite {v : RdView} {i Q' avail} : v.stage = .take → v.Q = i :: Q' →
      (v.buf i).rd_op = .RD_OP_WRITE →
      Move v .process { v with
        Q := Q', C := i :: v.C, avail := avail, stage := .writing
        buf := Function.update v.buf i { v.buf i with rd_refcnt := 0 }
        msg_blk := (v.buf i).rd_blknum, msg_data := (v.buf i).rd_block }
  | takeSync {v : RdView} {i Q'} : v.stage = .take → v.Q = i :: Q' → (v.buf i).rd_op = .RD_OP_SYNC →
      Move v .process { v.send (v.buf i).rd_pid .ok with stage := .synced i }
  /-- The server's answer goes to the cache. -/
  | respond {v : RdView} {i Q' avail} : v.stage = .reading i → v.Q = i :: Q' →
      Move v .process { v with
        Q := Q', C := i :: v.C, avail := avail, stage := .told i
        buf := Function.update v.buf i
          { v.buf i with rd_block := v.server v.msg_blk, rd_refcnt := 1 } }
  | tell {v : RdView} {i} : v.stage = .told i →
      Move v .process { v.send (v.buf i).rd_pid (.buffer i) with stage := .scan i }
  /-- No other request is for the block that was read. -/
  | scan {v : RdView} {i} :
      v.stage = .scan i → (∀ j ∈ v.Q, (v.buf j).rd_blknum ≠ (v.buf i).rd_blknum) →
      Move v .process { v with stage := .top }
  | written {v : RdView} : v.stage = .writing →
      Move v .process { v with
        server := Function.update v.server v.msg_blk v.msg_data, stage := .top }
  | synced {v : RdView} {i Q' avail} : v.stage = .synced i → v.Q = i :: Q' →
      Move v .process { v with Q := Q', F := i :: v.F, avail := avail, stage := .top }

/-! ## 2. Bookkeeping

What the routines rely on between their steps.  `rdsprocess` has one request in hand at most, and
it is the first of the queue; for each request that has not been answered there is one process
waiting, without a message; a reader with a message finds its buffer in the cache, with its
reference on it.  The count of the request semaphore is what is left of the queue. -/

/-- Where a process waits for the answer to a request. -/
def awaited (b : Rdbuff) : RdPc :=
  if b.rd_op = .RD_OP_READ then .receiving b.rd_blknum else .syncing

/-- A request that a process waits for and that has not been answered. -/
def Pending (v : RdView) (i : Fin RD_BUFFS) : Prop :=
  (i ∈ v.Q ∧ (v.buf i).rd_op ≠ .RD_OP_WRITE ∧ v.stage ≠ .synced i) ∨ v.stage = .told i

end RdView

/-- The requests that `rdsprocess` has claimed, by its wait, and not unlinked: one or none. -/
def RdStage.claimed : RdStage → Nat
  | .waiting | .take | .reading _ | .synced _ => 1
  | _ => 0

/-- The bookkeeping between the lists, the semaphore of the requests, and the processes. -/
structure RdInv (v : RdView) : Prop where
  starts : v.comruns = false → v.stage = .off
  count : v.req.sem.count + v.stage.claimed = v.Q.length
  gate : v.req.sem.waiting.length + v.req.released.length = if v.stage = .waiting then 1 else 0
  reading : ∀ i, v.stage = .reading i → v.Q.head? = some i ∧ (v.buf i).rd_op = .RD_OP_READ
  synced : ∀ i, v.stage = .synced i → v.Q.head? = some i ∧ (v.buf i).rd_op = .RD_OP_SYNC
  told : ∀ i, v.stage = .told i →
    i ∈ v.C ∧ (v.buf i).rd_refcnt = 1 ∧ (v.buf i).rd_op = .RD_OP_READ
  pending : ∀ i, v.Pending i →
    v.mail (v.buf i).rd_pid = none ∧ v.pc (v.buf i).rd_pid = RdView.awaited (v.buf i)
  unique : ∀ i j, v.Pending i → v.Pending j → (v.buf i).rd_pid = (v.buf j).rd_pid → i = j
  mailed : ∀ p blk i, v.pc p = .receiving blk → v.mail p = some (.buffer i) →
    i ∈ v.C ∧ (v.buf i).rd_refcnt = 1 ∧ (v.buf i).rd_pid = p ∧ (v.buf i).rd_blknum = blk

/-- A process that waits for an answer. -/
def RdPc.Awaits : RdPc → Prop
  | .receiving _ => True
  | .syncing => True
  | _ => False

theorem RdView.awaits_awaited (b : Rdbuff) : (awaited b).Awaits := by
  rw [awaited]
  split_ifs <;> trivial

variable {v w : RdView} {p : Nat} {i : Fin RD_BUFFS} {c : RdPc} {C' F' : List (Fin RD_BUFFS)}
  {avail : Gate Nat} {req : RdReq}

namespace RdInv

/-- Who waits for an answer to a request stays where it is. -/
theorem pid_ne (h : RdInv v) (hp : ¬ (v.pc p).Awaits) (hi : v.Pending i) :
    (v.buf i).rd_pid ≠ p := by
  rintro rfl
  rw [(h.pending i hi).2] at hp
  exact hp (RdView.awaits_awaited _)

/-- A process that does not wait for an answer goes elsewhere. -/
theorem setPc (h : RdInv v) (hp : ¬ (v.pc p).Awaits) (hc : ¬ c.Awaits) : RdInv (v.setPc p c) where
  starts := h.starts
  count := h.count
  gate := h.gate
  reading := h.reading
  synced := h.synced
  told := h.told
  pending j hj := by
    refine ⟨(h.pending j hj).1, ?_⟩
    show Function.update v.pc p c (v.buf j).rd_pid = _
    rw [Function.update_of_ne (h.pid_ne hp hj)]
    exact (h.pending j hj).2
  unique := h.unique
  mailed q blk j hq hm := by
    have hq : Function.update v.pc p c q = .receiving blk := hq
    by_cases hqp : q = p
    · rw [hqp, Function.update_self] at hq
      rw [hq] at hc
      exact absurd trivial hc
    · rw [Function.update_of_ne hqp] at hq
      exact h.mailed q blk j hq hm

/-- `rdsprocess` is resumed. -/
theorem resume (h : RdInv v) :
    RdInv { v with comruns := true, stage := if v.comruns then v.stage else .top } := by
  cases hr : v.comruns with
  | true =>
    exact ⟨nofun, h.count, h.gate, h.reading, h.synced, h.told, h.pending, h.unique, h.mailed⟩
  | false =>
    have hoff := h.starts hr
    have hcount := h.count
    have hgate := h.gate
    rw [hoff] at hcount hgate
    have hpend : ∀ j, RdView.Pending { v with comruns := true, stage := .top } j → v.Pending j := by
      rintro j (⟨hj, hop, -⟩ | hj)
      · exact .inl ⟨hj, hop, by rw [hoff]; exact nofun⟩
      · exact absurd hj nofun
    exact ⟨nofun, hcount, hgate, nofun, nofun, nofun, fun j hj => h.pending j (hpend j hj),
      fun j k hj hk => h.unique j k (hpend j hj) (hpend k hk), h.mailed⟩

/-- Other contents of a buffer. -/
theorem setBlock (h : RdInv v) (i : Fin RD_BUFFS) (data : RdBlock) :
    RdInv { v with buf := Function.update v.buf i { v.buf i with rd_block := data } } := by
  have hb : ∀ j, Function.update v.buf i { v.buf i with rd_block := data } j =
      { v.buf j with rd_block :=
        (Function.update v.buf i { v.buf i with rd_block := data } j).rd_block } := by
    intro j
    by_cases hj : j = i
    · rw [hj, Function.update_self]
    · rw [Function.update_of_ne hj]
  have hpend : ∀ j, RdView.Pending
      { v with buf := Function.update v.buf i { v.buf i with rd_block := data } } j →
      v.Pending j := by
    rintro j (⟨hj, hop, hst⟩ | hj)
    · dsimp only at hop
      rw [hb] at hop
      exact .inl ⟨hj, hop, hst⟩
    · exact .inr hj
  refine ⟨h.starts, h.count, h.gate, fun j hj => ?_, fun j hj => ?_, fun j hj => ?_,
    fun j hj => ?_, fun j k hj hk he => ?_, fun q blk j hq hm => ?_⟩
  · dsimp only
    rw [hb]
    exact h.reading j hj
  · dsimp only
    rw [hb]
    exact h.synced j hj
  · dsimp only
    rw [hb]
    exact h.told j hj
  · dsimp only
    rw [hb]
    exact h.pending j (hpend j hj)
  · dsimp only at he
    rw [hb j, hb k] at he
    exact h.unique j k (hpend j hj) (hpend k hk) he
  · dsimp only
    rw [hb]
    exact h.mailed q blk j hq hm

/-- **A request is queued**, with a buffer that nobody refers to. -/
theorem enqueue (h : RdInv v) (hp : ¬ (v.pc p).Awaits) (hiQ : i ∉ v.Q)
    (hiC : i ∈ v.C → (v.buf i).rd_refcnt ≤ 0) (hC : ∀ j ∈ v.C, j ≠ i → j ∈ C') :
    RdInv ({ v with C := C', F := F', avail := avail }.enqueue p req i) := by
  have hother : ∀ j, j ≠ i → Function.update v.buf i (Rds.request p (v.buf i) req) j = v.buf j :=
    fun j hj => Function.update_of_ne hj ..
  have hself : Function.update v.buf i (Rds.request p (v.buf i) req) i =
      Rds.request p (v.buf i) req := Function.update_self ..
  have hpid : (Rds.request p (v.buf i) req).rd_pid = p := by cases req <;> rfl
  have htold : ∀ j, v.stage = .told j → j ≠ i := by
    rintro j hj rfl
    have hle := hiC (h.told j hj).1
    rw [(h.told j hj).2.1] at hle
    exact absurd hle (by decide)
  have hmail : ∀ q, q ≠ p → v.clearMail p req q = v.mail q := by
    intro q hq
    cases req with
    | read blk => exact Function.update_of_ne hq ..
    | write blk data => rfl
    | sync => exact Function.update_of_ne hq ..
  have hpc : ∀ q, q ≠ p → Function.update v.pc p (RdView.afterQueue req) q = v.pc q :=
    fun q hq => Function.update_of_ne hq ..
  -- but for the new request the pending ones are the old ones
  have hpend : ∀ j, ({ v with C := C', F := F', avail := avail }.enqueue p req i).Pending j →
      j = i ∧ (Rds.request p (v.buf i) req).rd_op ≠ .RD_OP_WRITE ∨ j ≠ i ∧ v.Pending j := by
    rintro j (⟨hj, hop, hst⟩ | hj)
    · by_cases hji : j = i
      · subst hji
        exact .inl ⟨rfl, by rwa [← hself]⟩
      · refine .inr ⟨hji, .inl ⟨?_, ?_, hst⟩⟩
        · exact (List.mem_append.mp hj).resolve_right (by simpa using hji)
        · rw [← hother j hji]
          exact hop
    · exact .inr ⟨htold j hj, .inr hj⟩
  have hcounted := h.count
  refine ⟨h.starts, ?_, ?_, fun j hj => ?_, fun j hj => ?_, fun j hj => ?_, fun j hj => ?_,
    fun j k hj hk he => ?_, fun q blk j hq hm => ?_⟩
  · simp only [RdView.enqueue, Gate.signal, Counter.signal, List.length_append,
      List.length_singleton, Nat.cast_add]
    omega
  · refine Eq.trans ?_ h.gate
    simp only [RdView.enqueue, Gate.signal, Counter.signal, List.length_append, List.length_drop,
      List.length_take]
    omega
  · obtain ⟨hhead, hop⟩ := h.reading j hj
    have hji : j ≠ i := fun he => hiQ (he ▸ List.mem_of_mem_head? hhead)
    refine ⟨by simp [RdView.enqueue, List.head?_append, hhead], ?_⟩
    show (Function.update v.buf i _ j).rd_op = _
    rw [hother j hji]
    exact hop
  · obtain ⟨hhead, hop⟩ := h.synced j hj
    have hji : j ≠ i := fun he => hiQ (he ▸ List.mem_of_mem_head? hhead)
    refine ⟨by simp [RdView.enqueue, List.head?_append, hhead], ?_⟩
    show (Function.update v.buf i _ j).rd_op = _
    rw [hother j hji]
    exact hop
  · obtain ⟨hjC, href⟩ := h.told j hj
    refine ⟨hC j hjC (htold j hj), ?_⟩
    show (Function.update v.buf i _ j).rd_refcnt = 1 ∧ (Function.update v.buf i _ j).rd_op = _
    rw [hother j (htold j hj)]
    exact href
  · show v.clearMail p req (Function.update v.buf i _ j).rd_pid = none ∧
      Function.update v.pc p _ (Function.update v.buf i _ j).rd_pid = _
    rcases hpend j hj with ⟨rfl, hop⟩ | ⟨hji, hj⟩
    · rw [hself, hpid, Function.update_self]
      cases req with
      | read blk =>
        refine ⟨Function.update_self .., ?_⟩
        show _ = RdView.awaited (Function.update v.buf j _ j)
        rw [hself]
        rfl
      | write blk data => exact absurd rfl hop
      | sync =>
        refine ⟨Function.update_self .., ?_⟩
        show _ = RdView.awaited (Function.update v.buf j _ j)
        rw [hself]
        rfl
    · have hne := h.pid_ne hp hj
      rw [hother j hji, hmail _ hne, hpc _ hne]
      refine ⟨(h.pending j hj).1, ?_⟩
      show _ = RdView.awaited (Function.update v.buf i _ j)
      rw [hother j hji]
      exact (h.pending j hj).2
  · have he : (Function.update v.buf i (Rds.request p (v.buf i) req) j).rd_pid =
      (Function.update v.buf i (Rds.request p (v.buf i) req) k).rd_pid := he
    rcases hpend j hj with ⟨rfl, -⟩ | ⟨hji, hj'⟩ <;> rcases hpend k hk with ⟨hki, -⟩ | ⟨hki, hk'⟩
    · exact hki.symm
    · rw [hself, hpid, hother k hki] at he
      exact absurd he.symm (h.pid_ne hp hk')
    · rw [hki, hself, hpid, hother j hji] at he
      exact absurd he (h.pid_ne hp hj')
    · rw [hother j hji, hother k hki] at he
      exact h.unique j k hj' hk' he
  · have hq : Function.update v.pc p (RdView.afterQueue req) q = .receiving blk := hq
    have hm : v.clearMail p req q = some (.buffer j) := hm
    by_cases hqp : q = p
    · rw [hqp, Function.update_self] at hq
      rw [hqp] at hm
      cases req with
      | read b => cases (Function.update_self ..).symm.trans hm
      | write b data => cases hq
      | sync => cases hq
    · rw [hpc q hqp] at hq
      rw [hmail q hqp] at hm
      obtain ⟨hjC, href, hrest⟩ := h.mailed q blk j hq hm
      have hji : j ≠ i := by
        rintro rfl
        have hle := hiC hjC
        rw [href] at hle
        exact absurd hle (by decide)
      refine ⟨hC j hjC hji, ?_⟩
      show (Function.update v.buf i _ j).rd_refcnt = 1 ∧ (Function.update v.buf i _ j).rd_pid = q ∧
        (Function.update v.buf i _ j).rd_blknum = blk
      rw [hother j hji]
      exact ⟨href, hrest⟩

/-- A process receives its message and goes on. -/
theorem receive (h : RdInv v) (hm : v.mail p ≠ none) :
    RdInv { v.setPc p .idle with mail := Function.update v.mail p none } where
  starts := h.starts
  count := h.count
  gate := h.gate
  reading := h.reading
  synced := h.synced
  told := h.told
  pending j hj := by
    have hne : (v.buf j).rd_pid ≠ p := by
      rintro rfl
      exact hm (h.pending j hj).1
    show Function.update v.mail p none (v.buf j).rd_pid = none ∧
      Function.update v.pc p .idle (v.buf j).rd_pid = _
    rw [Function.update_of_ne hne, Function.update_of_ne hne]
    exact h.pending j hj
  unique := h.unique
  mailed q blk j hq hm := by
    have hq : Function.update v.pc p .idle q = .receiving blk := hq
    have hm : Function.update v.mail p none q = some (.buffer j) := hm
    by_cases hqp : q = p
    · rw [hqp, Function.update_self] at hq
      exact absurd hq nofun
    · rw [Function.update_of_ne hqp] at hq hm
      exact h.mailed q blk j hq hm

/-- The reference count of a buffer that nobody waits for changes, and the buffer may leave the
cache. -/
theorem recount (h : RdInv v) (n : Int) (htold : ∀ j, v.stage = .told j → j ≠ i)
    (hmail : ∀ q blk, v.pc q = .receiving blk → v.mail q ≠ some (.buffer i))
    (hC : ∀ j ∈ v.C, j ≠ i → j ∈ C') :
    RdInv { v with
      buf := Function.update v.buf i { v.buf i with rd_refcnt := n }, C := C', F := F' } := by
  have hb : ∀ j, Function.update v.buf i { v.buf i with rd_refcnt := n } j =
      { v.buf j with rd_refcnt :=
        (Function.update v.buf i { v.buf i with rd_refcnt := n } j).rd_refcnt } := by
    intro j
    by_cases hj : j = i
    · rw [hj, Function.update_self]
    · rw [Function.update_of_ne hj]
  have hother : ∀ j, j ≠ i →
      Function.update v.buf i { v.buf i with rd_refcnt := n } j = v.buf j :=
    fun j hj => Function.update_of_ne hj ..
  have hpend : ∀ j, RdView.Pending { v with
      buf := Function.update v.buf i { v.buf i with rd_refcnt := n }, C := C', F := F' } j →
      v.Pending j := by
    rintro j (⟨hj, hop, hst⟩ | hj)
    · dsimp only at hop
      rw [hb] at hop
      exact .inl ⟨hj, hop, hst⟩
    · exact .inr hj
  refine ⟨h.starts, h.count, h.gate, fun j hj => ?_, fun j hj => ?_, fun j hj => ?_,
    fun j hj => ?_, fun j k hj hk he => ?_, fun q blk j hq hm => ?_⟩
  · dsimp only
    rw [hb]
    exact h.reading j hj
  · dsimp only
    rw [hb]
    exact h.synced j hj
  · have hji := htold j hj
    obtain ⟨hjC, hrest⟩ := h.told j hj
    refine ⟨hC j hjC hji, ?_⟩
    dsimp only
    rw [hother j hji]
    exact hrest
  · dsimp only
    rw [hb]
    exact h.pending j (hpend j hj)
  · dsimp only at he
    rw [hb j, hb k] at he
    exact h.unique j k (hpend j hj) (hpend k hk) he
  · have hji : j ≠ i := by
      rintro rfl
      exact hmail q blk hq hm
    obtain ⟨hjC, hrest⟩ := h.mailed q blk j hq hm
    refine ⟨hC j hjC hji, ?_⟩
    dsimp only
    rw [hother j hji]
    exact hrest

/-- **A read receives its buffer** and drops its reference to it. -/
theorem finish (h : RdInv v) (C' F' : List (Fin RD_BUFFS)) {blk : Nat}
    (hp : v.pc p = .receiving blk)
    (hm : v.mail p = some (.buffer i)) (n : Int) (hC : ∀ j ∈ v.C, j ≠ i → j ∈ C') :
    RdInv { v.setPc p .idle with
      mail := Function.update v.mail p none
      buf := Function.update v.buf i { v.buf i with rd_refcnt := n }, C := C', F := F' } := by
  have hpid := (h.mailed p blk i hp hm).2.2.1
  refine (h.receive (p := p) (by rw [hm]; nofun)).recount n (fun j hj hji => ?_)
    (fun q b hq hqm => ?_) hC
  · have hnone := (h.pending j (.inr hj)).1
    rw [hji, hpid, hm] at hnone
    exact absurd hnone nofun
  · have hq : Function.update v.pc p .idle q = .receiving b := hq
    have hqm : Function.update v.mail p none q = some (.buffer i) := hqm
    by_cases hqp : q = p
    · rw [hqp, Function.update_self] at hq
      exact absurd hq nofun
    · rw [Function.update_of_ne hqp] at hq hqm
      exact hqp ((h.mailed q b i hq hqm).2.2.1.symm.trans hpid)

/-- With no request queued and no read waiting, the buffers do not matter. -/
theorem close (h : RdInv v) (C' F' : List (Fin RD_BUFFS)) (hQ : v.Q = [])
    (hr : ∀ p blk, v.pc p ≠ .receiving blk)
    (buf : Fin RD_BUFFS → Rdbuff) : RdInv { v with C := C', F := F', buf := buf } := by
  have hntold : ∀ j, v.stage ≠ .told j := by
    intro j hj
    have hpc := (h.pending j (.inr hj)).2
    rw [RdView.awaited, if_pos (h.told j hj).2.2] at hpc
    exact hr _ _ hpc
  have hnpend : ∀ j, ¬ RdView.Pending { v with C := C', F := F', buf := buf } j := by
    rintro j (⟨hj, -⟩ | hj)
    · exact absurd (hQ ▸ hj) (by simp)
    · exact hntold j hj
  refine ⟨h.starts, h.count, h.gate, fun j hj => ?_, fun j hj => ?_,
    fun j hj => absurd hj (hntold j), fun j hj => absurd hj (hnpend j),
    fun j _ hj => absurd hj (hnpend j), fun q blk _ hq => absurd hq (hr q blk)⟩
  · have hhead := (h.reading j hj).1
    rw [hQ] at hhead
    exact absurd hhead nofun
  · have hhead := (h.synced j hj).1
    rw [hQ] at hhead
    exact absurd hhead nofun

/-- `rdsprocess` goes to a stage at which it has no request in hand. -/
theorem toStage (h : RdInv v) (st : RdStage) (r : Gate Unit) (hon : v.stage ≠ .off)
    (hold : ∀ i, v.stage ≠ .synced i) (hcount : r.sem.count + st.claimed = v.Q.length)
    (hgate : r.sem.waiting.length + r.released.length = if st = .waiting then 1 else 0)
    (hst : ∀ i, st ≠ .reading i ∧ st ≠ .synced i ∧ st ≠ .told i) :
    RdInv { v with req := r, stage := st } := by
  have hpend : ∀ j, RdView.Pending { v with req := r, stage := st } j → v.Pending j := by
    rintro j (⟨hj, hop, -⟩ | hj)
    · exact .inl ⟨hj, hop, hold j⟩
    · exact absurd hj (hst j).2.2
  exact ⟨fun hr => absurd (h.starts hr) hon, hcount, hgate, fun j hj => absurd hj (hst j).1,
    fun j hj => absurd hj (hst j).2.1, fun j hj => absurd hj (hst j).2.2,
    fun j hj => h.pending j (hpend j hj), fun j k hj hk => h.unique j k (hpend j hj) (hpend k hk),
    h.mailed⟩

variable {Q' : List (Fin RD_BUFFS)}

/-- `rdsprocess` takes a read request. -/
theorem takeRead (h : RdInv v) (hst : v.stage = .take) (hQ : v.Q = i :: Q')
    (hop : (v.buf i).rd_op = .RD_OP_READ) : RdInv { v with stage := .reading i } := by
  have hcount := h.count
  have hgate := h.gate
  rw [hst] at hcount hgate
  have hpend : ∀ j, RdView.Pending { v with stage := .reading i } j → v.Pending j := by
    rintro j (⟨hj, hop, -⟩ | hj)
    · exact .inl ⟨hj, hop, by rw [hst]; nofun⟩
    · exact absurd hj nofun
  refine ⟨fun hr => ?_, hcount, hgate, fun j hj => ?_, nofun, nofun,
    fun j hj => h.pending j (hpend j hj), fun j k hj hk => h.unique j k (hpend j hj) (hpend k hk),
    h.mailed⟩
  · exact absurd (hst.symm.trans (h.starts hr)) nofun
  · obtain rfl := RdStage.reading.inj hj
    refine ⟨?_, hop⟩
    show v.Q.head? = _
    rw [hQ]
    rfl

/-- It takes a write request, which goes to the cache. -/
theorem takeWrite (h : RdInv v) (hst : v.stage = .take) (hQ : v.Q = i :: Q')
    (hop : (v.buf i).rd_op = .RD_OP_WRITE) (hQC : ∀ j ∈ v.Q, j ∉ v.C) (blk : Nat)
    (data : RdBlock) :
    RdInv { v with
      Q := Q', C := i :: v.C, avail := avail, stage := .writing
      buf := Function.update v.buf i { v.buf i with rd_refcnt := 0 }
      msg_blk := blk, msg_data := data } := by
  have hcount := h.count
  have hgate := h.gate
  rw [hst] at hcount hgate
  rw [hQ] at hcount hQC
  have hiC := hQC i (by simp)
  have hother : ∀ j, j ≠ i →
      Function.update v.buf i { v.buf i with rd_refcnt := 0 } j = v.buf j :=
    fun j hj => Function.update_of_ne hj ..
  have hpend : ∀ j, RdView.Pending { v with
      Q := Q', C := i :: v.C, avail := avail, stage := .writing
      buf := Function.update v.buf i { v.buf i with rd_refcnt := 0 }
      msg_blk := blk, msg_data := data } j → j ≠ i ∧ v.Pending j := by
    rintro j (⟨hj, hop', -⟩ | hj)
    · have hji : j ≠ i := by
        rintro rfl
        dsimp only at hop'
        rw [Function.update_self] at hop'
        exact hop' hop
      dsimp only at hop'
      rw [hother j hji] at hop'
      exact ⟨hji, .inl ⟨by rw [hQ]; exact List.mem_cons_of_mem _ hj, hop', by rw [hst]; nofun⟩⟩
    · exact absurd hj nofun
  refine ⟨fun hr => absurd (hst.symm.trans (h.starts hr)) nofun, ?_, hgate, nofun, nofun, nofun,
    fun j hj => ?_, fun j k hj hk he => ?_, fun q b j hq hm => ?_⟩
  · simp only [RdStage.claimed, List.length_cons, Nat.cast_add, Nat.cast_one] at hcount ⊢
    omega
  · obtain ⟨hji, hj⟩ := hpend j hj
    dsimp only
    rw [hother j hji]
    exact h.pending j hj
  · obtain ⟨hji, hj⟩ := hpend j hj
    obtain ⟨hki, hk⟩ := hpend k hk
    dsimp only at he
    rw [hother j hji, hother k hki] at he
    exact h.unique j k hj hk he
  · obtain ⟨hjC, hrest⟩ := h.mailed q b j hq hm
    have hji : j ≠ i := fun he => hiC (he ▸ hjC)
    dsimp only
    rw [hother j hji]
    exact ⟨List.mem_cons_of_mem _ hjC, hrest⟩

/-- It takes a synchronization, and tells the process that waits for it. -/
theorem takeSync (h : RdInv v) (hst : v.stage = .take) (hQ : v.Q = i :: Q')
    (hop : (v.buf i).rd_op = .RD_OP_SYNC) :
    RdInv { v.send (v.buf i).rd_pid .ok with stage := .synced i } := by
  have hcount := h.count
  have hgate := h.gate
  rw [hst] at hcount hgate
  have hi : v.Pending i :=
    .inl ⟨by rw [hQ]; simp, by rw [hop]; nofun, by rw [hst]; nofun⟩
  have hsend : v.send (v.buf i).rd_pid .ok =
      { v with mail := Function.update v.mail (v.buf i).rd_pid (some .ok) } := by
    rw [RdView.send, (h.pending i hi).1]
    rfl
  rw [hsend]
  have hpend : ∀ j, RdView.Pending { v with
      mail := Function.update v.mail (v.buf i).rd_pid (some .ok), stage := .synced i } j →
      v.Pending j ∧ (v.buf j).rd_pid ≠ (v.buf i).rd_pid := by
    rintro j (⟨hj, hop', hsync⟩ | hj)
    · have hj' : v.Pending j := .inl ⟨hj, hop', by rw [hst]; nofun⟩
      refine ⟨hj', fun he => hsync ?_⟩
      rw [h.unique j i hj' hi he]
    · exact absurd hj nofun
  refine ⟨fun hr => absurd (hst.symm.trans (h.starts hr)) nofun, hcount, hgate, nofun,
    fun j hj => ?_, nofun, fun j hj => ?_, fun j k hj hk =>
      h.unique j k (hpend j hj).1 (hpend k hk).1, fun q b j hq hm => ?_⟩
  · obtain rfl := RdStage.synced.inj hj
    refine ⟨?_, hop⟩
    show v.Q.head? = _
    rw [hQ]
    rfl
  · obtain ⟨hj', hne⟩ := hpend j hj
    show Function.update v.mail _ _ (v.buf j).rd_pid = none ∧ _
    rw [Function.update_of_ne hne]
    exact h.pending j hj'
  · have hm : Function.update v.mail (v.buf i).rd_pid (some .ok) q = some (.buffer j) := hm
    by_cases hqp : q = (v.buf i).rd_pid
    · rw [hqp, Function.update_self] at hm
      exact absurd hm nofun
    · rw [Function.update_of_ne hqp] at hm
      exact h.mailed q b j hq hm

/-- **The answer of the server**: the buffer goes to the cache, held for the process that waits. -/
theorem respond (h : RdInv v) (hst : v.stage = .reading i) (hQ : v.Q = i :: Q')
    (hQC : ∀ j ∈ v.Q, j ∉ v.C) (data : RdBlock) :
    RdInv { v with
      Q := Q', C := i :: v.C, avail := avail, stage := .told i
      buf := Function.update v.buf i { v.buf i with rd_block := data, rd_refcnt := 1 } } := by
  have hcount := h.count
  have hgate := h.gate
  have hop := (h.reading i hst).2
  rw [hst] at hcount hgate
  rw [hQ] at hcount hQC
  have hiC := hQC i (by simp)
  have hb : ∀ j, Function.update v.buf i { v.buf i with rd_block := data, rd_refcnt := 1 } j =
      { v.buf j with
        rd_block :=
          (Function.update v.buf i { v.buf i with rd_block := data, rd_refcnt := 1 } j).rd_block
        rd_refcnt :=
          (Function.update v.buf i { v.buf i with rd_block := data, rd_refcnt := 1 } j).rd_refcnt }
      := by
    intro j
    by_cases hj : j = i
    · rw [hj, Function.update_self]
    · rw [Function.update_of_ne hj]
  have hpend : ∀ j, RdView.Pending { v with
      Q := Q', C := i :: v.C, avail := avail, stage := .told i
      buf := Function.update v.buf i { v.buf i with rd_block := data, rd_refcnt := 1 } } j →
      v.Pending j := by
    rintro j (⟨hj, hop', -⟩ | hj)
    · dsimp only at hop'
      rw [hb] at hop'
      exact .inl ⟨by rw [hQ]; exact List.mem_cons_of_mem _ hj, hop', by rw [hst]; nofun⟩
    · obtain rfl := RdStage.told.inj hj
      exact .inl ⟨by rw [hQ]; simp, by rw [hop]; nofun, by rw [hst]; nofun⟩
  refine ⟨fun hr => absurd (hst.symm.trans (h.starts hr)) nofun, ?_, hgate, nofun, nofun,
    fun j hj => ?_, fun j hj => ?_, fun j k hj hk he => ?_, fun q b j hq hm => ?_⟩
  · simp only [RdStage.claimed, List.length_cons, Nat.cast_add, Nat.cast_one] at hcount ⊢
    omega
  · obtain rfl := RdStage.told.inj hj
    dsimp only
    rw [Function.update_self]
    exact ⟨by simp, rfl, hop⟩
  · dsimp only
    rw [hb]
    exact h.pending j (hpend j hj)
  · dsimp only at he
    rw [hb j, hb k] at he
    exact h.unique j k (hpend j hj) (hpend k hk) he
  · obtain ⟨hjC, hrest⟩ := h.mailed q b j hq hm
    have hji : j ≠ i := fun he => hiC (he ▸ hjC)
    dsimp only
    rw [Function.update_of_ne hji]
    exact ⟨List.mem_cons_of_mem _ hjC, hrest⟩

/-- **The process that waits for a read is told.** -/
theorem tell (h : RdInv v) (hst : v.stage = .told i) (hQC : ∀ j ∈ v.Q, j ∉ v.C) :
    RdInv { v.send (v.buf i).rd_pid (.buffer i) with stage := .scan i } := by
  have hcount := h.count
  have hgate := h.gate
  rw [hst] at hcount hgate
  have hi : v.Pending i := .inr hst
  obtain ⟨hiC, href, hop⟩ := h.told i hst
  obtain ⟨hnone, hpc⟩ := h.pending i hi
  have hsend : v.send (v.buf i).rd_pid (.buffer i) =
      { v with mail := Function.update v.mail (v.buf i).rd_pid (some (.buffer i)) } := by
    rw [RdView.send, hnone]
    rfl
  rw [hsend]
  have hpend : ∀ j, RdView.Pending { v with
      mail := Function.update v.mail (v.buf i).rd_pid (some (.buffer i)), stage := .scan i } j →
      v.Pending j ∧ (v.buf j).rd_pid ≠ (v.buf i).rd_pid := by
    rintro j (⟨hj, hop', -⟩ | hj)
    · have hj' : v.Pending j := .inl ⟨hj, hop', by rw [hst]; simp⟩
      refine ⟨hj', fun he => ?_⟩
      rw [h.unique j i hj' hi he] at hj
      exact hQC i hj hiC
    · cases hj
  refine ⟨fun hr => absurd (hst.symm.trans (h.starts hr)) (by simp), hcount, hgate, by simp,
    by simp, by simp, fun j hj => ?_, fun j k hj hk => h.unique j k (hpend j hj).1 (hpend k hk).1,
    fun q b j hq hm => ?_⟩
  · obtain ⟨hj', hne⟩ := hpend j hj
    show Function.update v.mail _ _ (v.buf j).rd_pid = none ∧ _
    rw [Function.update_of_ne hne]
    exact h.pending j hj'
  · have hm : Function.update v.mail (v.buf i).rd_pid (some (.buffer i)) q =
      some (.buffer j) := hm
    by_cases hqp : q = (v.buf i).rd_pid
    · rw [hqp, Function.update_self] at hm
      obtain rfl := RdMsg.buffer.inj (Option.some.inj hm)
      have hq : v.pc q = .receiving b := hq
      rw [hqp, hpc, RdView.awaited, if_pos hop] at hq
      exact ⟨hiC, href, hqp.symm, RdPc.receiving.inj hq⟩
    · rw [Function.update_of_ne hqp] at hm
      exact h.mailed q b j hq hm

/-- A synchronization is done, and its buffer is freed. -/
theorem freeSync (h : RdInv v) (hst : v.stage = .synced i) (hQ : v.Q = i :: Q')
    (hnd : v.Q.Nodup) :
    RdInv { v with Q := Q', F := F', avail := avail, stage := .top } := by
  have hcount := h.count
  have hgate := h.gate
  rw [hst] at hcount hgate
  rw [hQ] at hcount hnd
  have hpend : ∀ j, RdView.Pending { v with Q := Q', F := F', avail := avail, stage := .top } j →
      v.Pending j := by
    rintro j (⟨hj, hop, -⟩ | hj)
    · refine .inl ⟨by rw [hQ]; exact List.mem_cons_of_mem _ hj, hop, fun hs => ?_⟩
      obtain rfl := RdStage.synced.inj (hst.symm.trans hs)
      exact (List.nodup_cons.mp hnd).1 hj
    · exact absurd hj nofun
  refine ⟨fun hr => absurd (hst.symm.trans (h.starts hr)) nofun, ?_, hgate, nofun, nofun, nofun,
    fun j hj => h.pending j (hpend j hj), fun j k hj hk => h.unique j k (hpend j hj) (hpend k hk),
    h.mailed⟩
  simp only [RdStage.claimed, List.length_cons, Nat.cast_add, Nat.cast_one] at hcount ⊢
  omega

/-- **Every move keeps the bookkeeping**, as long as no buffer is on two lists. -/
theorem move {ev : RdEvent} (h : RdInv v) (hnd : v.Q.Nodup) (hQC : ∀ j ∈ v.Q, j ∉ v.C)
    (hQF : ∀ j ∈ v.Q, j ∉ v.F) (hCF : ∀ j ∈ v.C, j ∉ v.F) (hm : RdView.Move v ev w) :
    RdInv w := by
  -- a buffer that is allocated is not queued, and nobody refers to it
  have htake : ∀ {a i w'} {p : Nat} {req : RdReq}, ¬ (v.pc p).Awaits →
      RdView.Takes { v with avail := a } i w' → RdInv (w'.enqueue p req i) := by
    intro a i w' p req hp ht
    cases ht with
    | free hF =>
      have hF : v.F = _ := hF
      refine h.enqueue hp (fun hj => hQF i hj (by rw [hF]; simp))
        (fun hj => absurd (by rw [hF]; simp) (hCF i hj)) fun j hj _ => hj
    | oldest _ hC href _ =>
      have hC : v.C = _ := hC
      refine h.enqueue hp (fun hj => hQC i hj (by rw [hC]; simp)) (fun _ => href)
        fun j hj hji => ?_
      rw [hC] at hj
      simpa [hji] using hj
  cases hm with
  | refuse _ => exact h
  | @begin p req hp _ =>
    exact (h.setPc (c := .begun req) (by rw [hp]; exact not_false) not_false).resume
  | hitCache hp _ _ =>
    have := h.setPc (c := .idle) (by rw [hp]; exact not_false) not_false
    exact ⟨this.1, this.2, this.3, this.4, this.5, this.6, this.7, this.8, this.9⟩
  | hitQueue hp _ _ =>
    have := h.setPc (c := .idle) (by rw [hp]; exact not_false) not_false
    exact ⟨this.1, this.2, this.3, this.4, this.5, this.6, this.7, this.8, this.9⟩
  | replace hp _ _ _ _ =>
    exact (h.setPc (c := .idle) (by rw [hp]; exact not_false) not_false).setBlock _ _
  | reuse hp hC _ _ href =>
    refine h.enqueue (by rw [hp]; exact not_false) (fun hj => hQC _ hj (by rw [hC]; simp))
      (fun _ => href)
      fun j hj hji => ?_
    rw [hC] at hj
    simpa [hji] using hj
  | @block p req _ hp =>
    have := h.setPc (c := .alloc req) (by rw [hp]; exact not_false) not_false
    exact ⟨this.1, this.2, this.3, this.4, this.5, this.6, this.7, this.8, this.9⟩
  | pass hp ht => exact htake (by rw [hp]; exact not_false) ht
  | granted hp ht => exact htake (by rw [hp]; exact not_false) ht
  | @finishKeep _ _ i hp hm =>
    have := h.finish v.C v.F hp hm ((v.buf i).rd_refcnt - 1) fun j hj _ => hj
    exact ⟨this.1, this.2, this.3, this.4, this.5, this.6, this.7, this.8, this.9⟩
  | @finishFree _ _ i _ C₁ C₂ hp hm hC _ _ =>
    have hkept : ∀ j ∈ v.C, j ≠ i → j ∈ C₁ ++ C₂ := by
      intro j hj hji
      rw [hC] at hj
      simpa [hji] using hj
    have := h.finish (C₁ ++ C₂) (i :: v.F) hp hm ((v.buf i).rd_refcnt - 1) hkept
    exact ⟨this.1, this.2, this.3, this.4, this.5, this.6, this.7, this.8, this.9⟩
  | finishSync hp hm => exact h.receive hm
  | close hQ hr =>
    have := h.close [] (v.C.reverse ++ v.F) hQ hr
      fun j => if j ∈ v.C then { v.buf j with rd_status := .RD_INVALID } else v.buf j
    exact ⟨this.1, this.2, this.3, this.4, this.5, this.6, this.7, this.8, this.9⟩
  | reopen => exact ⟨h.1, h.2, h.3, h.4, h.5, h.6, h.7, h.8, h.9⟩
  | wait hst =>
    have hcount := h.count
    have hgate := h.gate
    rw [hst] at hcount hgate
    refine h.toStage _ _ (by rw [hst]; simp) (fun i => by rw [hst]; simp) ?_ ?_ fun i => ?_
    · simp only [Gate.wait, Counter.wait, RdStage.claimed] at hcount ⊢
      split_ifs <;> dsimp only <;> omega
    · by_cases hc : 0 < v.req.sem.count
      · rw [if_pos hc]
        simp only [Gate.wait, Counter.wait_passes hc]
        exact hgate
      · rw [if_neg hc]
        simp only [Gate.wait, Counter.wait_blocks (not_lt.mp hc), List.length_append,
          List.length_singleton]
        simp only [reduceCtorEq, if_false] at hgate
        simp only [if_true]
        omega
    · split_ifs <;> exact ⟨by simp, by simp, by simp⟩
  | run hst hmem =>
    have hcount := h.count
    have hgate := h.gate
    have hpos := List.length_pos_of_mem hmem
    rw [hst] at hcount hgate
    refine h.toStage _ _ (by rw [hst]; simp) (fun i => by rw [hst]; simp) hcount ?_
      fun i => ⟨by simp, by simp, by simp⟩
    simp only [Gate.run, List.length_erase_of_mem hmem]
    simp only [if_true] at hgate
    simp only [reduceCtorEq, if_false]
    omega
  | takeRead hst hQ hop => exact h.takeRead hst hQ hop
  | takeWrite hst hQ hop => exact h.takeWrite hst hQ hop hQC _ _
  | takeSync hst hQ hop => exact h.takeSync hst hQ hop
  | respond hst hQ => exact h.respond hst hQ hQC _
  | tell hst => exact h.tell hst hQC
  | scan hst _ =>
    have hcount := h.count
    have hgate := h.gate
    rw [hst] at hcount hgate
    exact h.toStage _ _ (by rw [hst]; simp) (fun i => by rw [hst]; simp) hcount hgate
      fun i => ⟨by simp, by simp, by simp⟩
  | written hst =>
    have hcount := h.count
    have hgate := h.gate
    rw [hst] at hcount hgate
    have := h.toStage .top v.req (by rw [hst]; simp) (fun i => by rw [hst]; simp)
      hcount hgate fun i => ⟨by simp, by simp, by simp⟩
    exact ⟨this.1, this.2, this.3, this.4, this.5, this.6, this.7, this.8, this.9⟩
  | synced hst hQ => exact h.freeSync hst hQ hnd

end RdInv

/-! ## 3. Steps are moves

Every search of the code is a `List.find?` on the list it runs along, and every block of
assignments is an operation on the lists.  The two steps that are neither are excluded by
`Orderly`. -/

/-- The condition: behind a read no other request for its block is queued, and the disk is not
closed while a read waits for its buffer. -/
def Orderly (s : Rds) : RdEvent → Prop
  | .process => ∀ i, s.stage = .scan i →
      s.cb.find s.cb.rd_next (fun b => b.rd_blknum = (s.cb.rd_buf i).rd_blknum) .rt
        (s.cb.rd_next .rh) = some none
  | .close => s.cb.rd_state = .RD_OPEN → s.cb.rd_next .rh = .rt → ∀ p blk, s.pc p ≠ .receiving blk
  | _ => True

section Steps

variable {r r' : Rdscblk} {s s' : Rds} {Q C F H : List (Fin RD_BUFFS)} {blk : Nat} {data : RdBlock}
  {ev : RdEvent}

/-- What a step has to show. -/
def Moves (s : Rds) (Q C F : List (Fin RD_BUFFS)) (ev : RdEvent) (s' : Rds) : Prop :=
  ∃ Q' C' F', Lists s'.cb Q' C' F' [] ∧ RdView.Move (s.view Q C F) ev (s'.view Q' C' F')

theorem Lists.enqueue (h : Lists r Q C F [i]) :
    Lists (s.enqueue p req r i).cb (Q ++ [i]) C F [] ∧
      (s.enqueue p req r i).view (Q ++ [i]) C F = ({ s with cb := r }.view Q C F).enqueue
        p req i := by
  have hset : Lists (r.setBuf i (Rds.request p (r.rd_buf i) req)) Q C F [i] := h.congr rfl rfl rfl
  have ha := hset.append
  cases req <;> exact ⟨ha.congr rfl rfl rfl, rfl⟩

theorem Lists.first (Q C' F : List (Fin RD_BUFFS))
    (h : (C.find? fun j => decide ((s.cb.rd_buf j).rd_blknum = blk)) = some i) :
    (s.view Q C' F).First C blk i := by
  obtain ⟨hi, xs₁, xs₂, hxs, hne⟩ := List.find?_eq_some_iff_append.mp h
  exact ⟨xs₁, xs₂, hxs, of_decide_eq_true hi,
    fun j hj => decide_eq_false_iff_not.mp ((Bool.not_eq_true' _).mp (hne j hj))⟩

/-- `rdsbufalloc` takes a buffer. -/
theorem Lists.alloc (h : Lists s.cb Q C F []) (ha : rdsbufalloc s.cb = some (i, r)) :
    ∃ C' F', Lists r Q C' F' [i] ∧
      (s.view Q C F).Takes i ({ s with cb := r }.view Q C' F') := by
  cases F with
  | cons j F =>
    obtain ⟨hf, hl⟩ := h.popFree
    simp only [rdsbufalloc, hf, Option.some.injEq, Prod.mk.injEq] at ha
    obtain ⟨rfl, rfl⟩ := ha
    exact ⟨C, F, hl, .free rfl⟩
  | nil =>
    have hf : s.cb.rd_free = .null := h.free
    simp only [rdsbufalloc, hf, h.find_cache_back] at ha
    cases hfind : C.reverse.find? fun j => decide ((s.cb.rd_buf j).rd_refcnt ≤ 0) with
    | none =>
      rw [hfind] at ha
      exact absurd ha nofun
    | some j =>
      rw [hfind] at ha
      obtain ⟨rfl, rfl⟩ := Prod.mk.inj (Option.some.inj ha)
      obtain ⟨href, xs₁, xs₂, hxs, hpos⟩ := List.find?_eq_some_iff_append.mp hfind
      have hC : C = xs₂.reverse ++ j :: xs₁.reverse := by
        rw [← C.reverse_reverse, hxs]
        simp
      subst hC
      refine ⟨xs₂.reverse ++ xs₁.reverse, [], h.unlinkCache,
        .oldest rfl rfl (of_decide_eq_true href) fun k hk => ?_⟩
      have hk := (Bool.not_eq_true' _).mp (hpos k (List.mem_reverse.mp hk))
      exact not_le.mp (decide_eq_false_iff_not.mp hk)

theorem Lists.allocate (h : Lists s.cb Q C F []) (ha : s.allocate p req = some s') :
    ∃ Q' C' F' i w, Lists s'.cb Q' C' F' [] ∧ (s.view Q C F).Takes i w ∧
      s'.view Q' C' F' = w.enqueue p req i := by
  obtain ⟨⟨i, r⟩, hr, rfl⟩ := Option.map_eq_some_iff.mp ha
  obtain ⟨C', F', hl, ht⟩ := h.alloc hr
  exact ⟨Q ++ [i], C', F', i, _, hl.enqueue.1, ht, hl.enqueue.2⟩

/-- A call gets a buffer, or waits for one. -/
theorem Lists.waitAvail (h : Lists s.cb Q C F []) (hp : s.pc p = .begun req)
    (hs : s.waitAvail p req = some s') : Moves s Q C F (.go p) s' := by
  simp only [Rds.waitAvail] at hs
  split_ifs at hs with hc
  · have hl : Lists { s.cb with rd_availsem := s.cb.rd_availsem.wait p } Q C F [] :=
      h.congr rfl rfl rfl
    obtain ⟨Q', C', F', i, w, hl', ht, hv⟩ := Lists.allocate hl hs
    refine ⟨Q', C', F', hl', ?_⟩
    rw [hv]
    exact .pass hp ht
  · obtain rfl := Option.some.inj hs
    exact ⟨Q, C, F, h.congr rfl rfl rfl, .block hp⟩

theorem Lists.readQueue (h : Lists s.cb Q C F []) (hp : s.pc p = .begun (.read blk))
    (hs : s.readQueue p blk = some s') : Moves s Q C F (.go p) s' := by
  rw [Rds.readQueue, h.find_queue_back, Option.bind_some] at hs
  cases hfind : Q.reverse.find? fun j => decide ((s.cb.rd_buf j).rd_blknum = blk) with
  | none =>
    rw [hfind] at hs
    exact h.waitAvail hp hs
  | some i =>
    rw [hfind] at hs
    dsimp only at hs
    split_ifs at hs with hop
    · obtain rfl := Option.some.inj hs
      exact ⟨Q, C, F, h, .hitQueue hp (first Q C F hfind) hop⟩
    · exact h.waitAvail hp hs

/-- A read, up to where it waits or returns. -/
theorem Lists.readSearch (h : Lists s.cb Q C F []) (hp : s.pc p = .begun (.read blk))
    (hs : s.readSearch p blk = some s') : Moves s Q C F (.go p) s' := by
  rw [Rds.readSearch, h.find_cache, Option.bind_some] at hs
  cases hfind : C.find? fun j => decide ((s.cb.rd_buf j).rd_blknum = blk) with
  | none =>
    rw [hfind] at hs
    exact h.readQueue hp hs
  | some i =>
    rw [hfind] at hs
    dsimp only at hs
    split_ifs at hs with hst
    · exact h.readQueue hp hs
    · obtain rfl := Option.some.inj hs
      refine ⟨Q, C, F, h, .hitCache hp (first Q C F hfind) ?_⟩
      cases hv : (s.cb.rd_buf i).rd_status with
      | RD_VALID => exact hv
      | RD_INVALID => exact absurd hv hst

theorem Lists.writeCache (h : Lists s.cb Q C F []) (hp : s.pc p = .begun (.write blk data))
    (hs : s.writeCache p blk data = some s') : Moves s Q C F (.go p) s' := by
  rw [Rds.writeCache, h.find_cache, Option.bind_some] at hs
  cases hfind : C.find? fun j => decide ((s.cb.rd_buf j).rd_blknum = blk) with
  | none =>
    rw [hfind] at hs
    exact h.waitAvail hp hs
  | some i =>
    rw [hfind] at hs
    dsimp only at hs
    split_ifs at hs with href hn
    · obtain rfl := Option.some.inj hs
      obtain ⟨C₁, C₂, rfl, hblk, hne⟩ := Lists.first Q C F hfind
      have hl := h.unlinkCache
      refine ⟨_, _, _, hl.enqueue.1, ?_⟩
      rw [hl.enqueue.2]
      exact .reuse hp rfl hblk hne href
    · obtain rfl := Option.some.inj hs
      obtain ⟨C₁, C₂, rfl, hblk, hne⟩ := Lists.first Q C F hfind
      have hl : Lists { s.cb.unlink i with
          rd_availsem := s.cb.rd_availsem.reset (s.cb.rd_availsem.sem.count - 1).toNat }
          Q (C₁ ++ C₂) F [i] := h.unlinkCache.congr rfl rfl rfl
      refine ⟨_, _, _, hl.enqueue.1, ?_⟩
      exact (hl.enqueue (s := s)).2 ▸ .reuse hp rfl hblk hne href
    · exact h.waitAvail hp hs

/-- A write, up to where it waits or returns. -/
theorem Lists.writeSearch (h : Lists s.cb Q C F []) (hp : s.pc p = .begun (.write blk data))
    (hs : s.writeSearch p blk data = some s') : Moves s Q C F (.go p) s' := by
  rw [Rds.writeSearch, h.find_queue, Option.bind_some] at hs
  cases hfind : Q.find? fun j =>
      decide ((s.cb.rd_buf j).rd_blknum = blk ∧ (s.cb.rd_buf j).rd_op = .RD_OP_WRITE) with
  | none =>
    rw [hfind] at hs
    exact h.writeCache hp hs
  | some i =>
    rw [hfind] at hs
    obtain rfl := Option.some.inj hs
    obtain ⟨hi, Q₁, Q₂, hQ, hne⟩ := List.find?_eq_some_iff_append.mp hfind
    have hi := of_decide_eq_true hi
    exact ⟨Q, C, F, h.congr rfl rfl rfl, .replace hp hQ hi.1 hi.2
      fun j hj => decide_eq_false_iff_not.mp ((Bool.not_eq_true' _).mp (hne j hj))⟩

/-- The end of a read. -/
theorem Lists.readFinish (h : Lists s.cb Q C F []) (hi : i ∈ C) (hp : s.pc p = .receiving blk)
    (hm : s.mail p = some (.buffer i)) (hs : s.readFinish p blk i = some s') :
    Moves s Q C F (.finish p) s' := by
  have hl : Lists (s.cb.setBuf i { s.cb.rd_buf i with
      rd_refcnt := (s.cb.rd_buf i).rd_refcnt - 1 }) Q C F [] := h.congr rfl rfl rfl
  simp only [Rds.readFinish] at hs
  split_ifs at hs with href
  · obtain ⟨C₁, C₂, rfl⟩ := List.append_of_mem hi
    rw [hl.find_until, Option.map_some] at hs
    have hi := hl.apart.2.1
    cases hfind : C₁.find? fun j => decide (((s.cb.setBuf i { s.cb.rd_buf i with
        rd_refcnt := (s.cb.rd_buf i).rd_refcnt - 1 }).rd_buf j).rd_blknum = blk) with
    | none =>
      rw [hfind] at hs
      obtain rfl := Option.some.inj hs
      exact ⟨Q, _, F, hl, .finishKeep hp hm⟩
    | some j =>
      rw [hfind] at hs
      obtain rfl := Option.some.inj hs
      have hj := List.mem_of_find?_eq_some hfind
      have hji : j ≠ i := by
        rintro rfl
        rw [List.nodup_append] at hi
        exact hi.2.2 j hj j (by simp) rfl
      have hblk := of_decide_eq_true (List.find?_eq_some_iff_append.mp hfind).1
      rw [show ((s.cb.setBuf i { s.cb.rd_buf i with rd_refcnt :=
        (s.cb.rd_buf i).rd_refcnt - 1 }).rd_buf
        j) = s.cb.rd_buf j from Function.update_of_ne hji ..] at hblk
      exact ⟨Q, _, _, hl.unlinkCache.pushFree, .finishFree hp hm rfl hj hblk⟩
  · obtain rfl := Option.some.inj hs
    exact ⟨Q, C, F, hl, .finishKeep hp hm⟩

/-- What the loop of `rdsclose` leaves, with the cache `C` before it. -/
def closed (r : Rdscblk) (C : List (Fin RD_BUFFS)) (r' : Rdscblk) : Prop :=
  r'.rd_state = r.rd_state ∧ r'.rd_comruns = r.rd_comruns ∧ r'.rd_availsem = r.rd_availsem ∧
    r'.rd_reqsem = r.rd_reqsem ∧
    r'.rd_buf = fun j => if j ∈ C then { r.rd_buf j with rd_status := .RD_INVALID } else r.rd_buf j

/-- The loop of `rdsclose` moves the cache to the free list. -/
theorem Lists.closeLoop {n : Nat} (h : Lists r Q C F []) (hn : C.length < n) :
    ∃ r', Rds.closeLoop n (r.rd_next .ch) r = some r' ∧ Lists r' Q [] (C.reverse ++ F) [] ∧
      closed r C r' := by
  induction C generalizing r F n with
  | nil =>
    cases n with
    | zero => exact absurd hn (by simp)
    | succ n =>
      have hnext : r.rd_next .ch = .ct := h.cache.next_head
      exact ⟨r, if_pos hnext, h, rfl, rfl, rfl, rfl, by simp⟩
  | cons i C ih =>
    cases n with
    | zero => exact absurd hn (by simp)
    | succ n =>
      have hnd := h.apart.2.1
      have hnext : r.rd_next .ch = .buf i := h.cache.next_head
      have hmid : r.rd_next (.buf i) = (C.map RdPtr.buf).headD .ct :=
        Path.next_mid (show Path _ _ _ ([] ++ RdPtr.buf i :: C.map RdPtr.buf) _ from h.cache)
      -- the rest of the loop runs on a device without the first buffer of the cache
      have hl : Lists (((r.unlink i).pushFree i).setBuf i
          { r.rd_buf i with rd_status := .RD_INVALID }) Q C (i :: F) [] :=
        h.unlinkCacheHead.pushFree.congr rfl rfl rfl
      obtain ⟨r', hr', hl', hstate, hruns, havail, hreq, hbuf⟩ :=
        ih hl (by simpa using hn)
      rw [hl.cache.next_head, ← hmid] at hr'
      refine ⟨r', ?_, by simpa using hl', hstate, hruns, havail, hreq, ?_⟩
      · rw [Rds.closeLoop, hnext, if_neg nofun]
        exact hr'
      · rw [hbuf]
        funext j
        by_cases hj : j = i
        · subst hj
          rw [if_neg (List.nodup_cons.mp hnd).1, if_pos (by simp)]
          exact Function.update_self ..
        · simp only [List.mem_cons, hj, false_or]
          have hother : (((r.unlink i).pushFree i).setBuf i
              { r.rd_buf i with rd_status := .RD_INVALID }).rd_buf j = r.rd_buf j :=
            Function.update_of_ne hj ..
          rw [hother]

theorem Lists.rdsclose (h : Lists s.cb Q C F []) (ho : Orderly s .close)
    (hs : Rds.rdsclose s.cb = some r) : Moves s Q C F .close { s with cb := r } := by
  rw [Rds.rdsclose] at hs
  split_ifs at hs with hopen hQ
  · obtain rfl := Option.some.inj hs
    exact ⟨Q, C, F, h, .refuse (.inr (.inl rfl))⟩
  · obtain rfl := Option.some.inj hs
    exact ⟨Q, C, F, h, .refuse (.inr (.inl rfl))⟩
  · obtain ⟨r', hr', hl, hstate, hruns, havail, hreq, hbuf⟩ := h.closeLoop h.length_lt.2
    rw [hr'] at hs
    obtain rfl := Option.some.inj hs
    have hnil : Q = [] := by
      rw [not_not, h.queue.next_head] at hQ
      cases Q with
      | nil => rfl
      | cons i Q => exact absurd hQ nofun
    refine ⟨Q, [], C.reverse ++ F, hl.congr rfl rfl rfl, ?_⟩
    have hm := RdView.Move.close (v := s.view Q C F) hnil (ho (not_not.mp hopen) (not_not.mp hQ))
    have hv : ({ s with cb := { r' with rd_state := .RD_FREE } } : Rds).view Q [] (C.reverse ++ F) =
        { s.view Q C F with
          C := [], F := C.reverse ++ F, state := .RD_FREE
          buf := fun j =>
            if j ∈ C then { s.cb.rd_buf j with rd_status := .RD_INVALID } else s.cb.rd_buf j } := by
      simp only [Rds.view, hruns, havail, hreq, hbuf]
    rw [hv]
    exact hm

theorem send_cb (s : Rds) (p : Nat) (m : RdMsg) : (s.send p m).cb = s.cb := by
  rw [Rds.send]
  split_ifs <;> rfl

theorem view_send (s : Rds) (p : Nat) (m : RdMsg) :
    (s.send p m).view Q C F = (s.view Q C F).send p m := by
  rw [Rds.send, RdView.send, show (s.view Q C F).mail = s.mail from rfl]
  split_ifs <;> rfl

/-- A piece of `rdsprocess`. -/
theorem Lists.process (h : Lists s.cb Q C F []) (hi : RdInv (s.view Q C F))
    (ho : Orderly s .process) (hs : s.process = some s') : Moves s Q C F .process s' := by
  rw [Rds.process] at hs
  cases hst : s.stage with
  | off =>
    rw [hst] at hs
    exact absurd hs nofun
  | top =>
    rw [hst] at hs
    obtain rfl := Option.some.inj hs
    exact ⟨Q, C, F, h.congr rfl rfl rfl, .wait hst⟩
  | waiting =>
    rw [hst] at hs
    dsimp only at hs
    split_ifs at hs with hmem
    obtain rfl := Option.some.inj hs
    exact ⟨Q, C, F, h.congr rfl rfl rfl, .run hst hmem⟩
  | take =>
    rw [hst] at hs
    obtain ⟨i, hhead, hs⟩ := Option.map_eq_some_iff.mp hs
    rw [h.head] at hhead
    obtain ⟨Q', rfl⟩ := List.head?_eq_some_iff.mp hhead
    cases hop : (s.cb.rd_buf i).rd_op with
    | RD_OP_READ =>
      simp only [hop] at hs
      subst hs
      exact ⟨_, C, F, h, .takeRead hst rfl hop⟩
    | RD_OP_WRITE =>
      simp only [hop] at hs
      rw [← hop] at hs
      subst hs
      exact ⟨Q', i :: C, F, h.unlinkQueueHead.pushCache.congr rfl rfl rfl,
        .takeWrite hst rfl hop⟩
    | RD_OP_SYNC =>
      simp only [hop] at hs
      subst hs
      have hm := RdView.Move.takeSync (v := s.view (i :: Q') C F) hst rfl hop
      rw [show (s.view (i :: Q') C F).buf = s.cb.rd_buf from rfl, ← view_send] at hm
      exact ⟨i :: Q', C, F, by rw [send_cb]; exact h, hm⟩
  | reading i =>
    rw [hst] at hs
    obtain rfl := Option.some.inj hs
    obtain ⟨Q', rfl⟩ := List.head?_eq_some_iff.mp (hi.reading i hst).1
    exact ⟨Q', i :: C, F, h.unlinkQueueHead.pushCache.congr rfl rfl rfl,
      .respond hst rfl⟩
  | told i =>
    rw [hst] at hs
    obtain rfl := Option.some.inj hs
    have hm := RdView.Move.tell (v := s.view Q C F) hst
    rw [show (s.view Q C F).buf = s.cb.rd_buf from rfl, ← view_send] at hm
    exact ⟨Q, C, F, by rw [send_cb]; exact h, hm⟩
  | scan i =>
    rw [hst] at hs
    have hnone := ho i hst
    rw [h.find_queue] at hnone
    simp only [Rds.scanQueue, h.find_queue, Option.some.inj hnone, Option.map_some] at hs
    obtain rfl := Option.some.inj hs
    exact ⟨Q, C, F, h, .scan hst fun j hj he =>
      List.find?_eq_none.mp (Option.some.inj hnone) j hj (decide_eq_true he)⟩
  | writing =>
    rw [hst] at hs
    obtain rfl := Option.some.inj hs
    exact ⟨Q, C, F, h, .written hst⟩
  | synced i =>
    rw [hst] at hs
    obtain rfl := Option.some.inj hs
    obtain ⟨Q', rfl⟩ := List.head?_eq_some_iff.mp (hi.synced i hst).1
    exact ⟨Q', C, i :: F, h.unlinkQueueHead.pushFree.congr rfl rfl rfl,
      .synced hst rfl⟩

/-- **A step of the code is a move of its lists.** -/
theorem step_move (h : Lists s.cb Q C F []) (hi : RdInv (s.view Q C F)) (ho : Orderly s ev)
    (hs : s.step ev = some s') : Moves s Q C F ev s' := by
  cases ev with
  | call p req =>
    rw [Rds.step] at hs
    cases hp : s.pc p with
    | idle =>
      rw [hp] at hs
      dsimp only at hs
      by_cases hopen : s.cb.rd_state ≠ .RD_OPEN
      · rw [if_pos hopen] at hs
        obtain rfl := Option.some.inj hs
        exact ⟨Q, C, F, h, .refuse (.inl ⟨p, req, rfl, hp⟩)⟩
      · rw [if_neg hopen] at hs
        obtain rfl := Option.some.inj hs
        exact ⟨Q, C, F, h.congr rfl rfl rfl, .begin hp (not_not.mp hopen)⟩
    | begun _ | alloc _ | receiving _ | syncing =>
      rw [hp] at hs
      exact absurd hs nofun
  | go p =>
    rw [Rds.step] at hs
    cases hp : s.pc p with
    | begun req =>
      rw [hp] at hs
      cases req with
      | read blk => exact h.readSearch hp hs
      | write blk data => exact h.writeSearch hp hs
      | sync => exact h.waitAvail hp hs
    | idle | alloc _ | receiving _ | syncing =>
      rw [hp] at hs
      exact absurd hs nofun
  | granted p =>
    rw [Rds.step] at hs
    cases hp : s.pc p with
    | alloc req =>
      rw [hp] at hs
      dsimp only at hs
      split_ifs at hs with hmem
      have hl : Lists { s.cb with rd_availsem := s.cb.rd_availsem.run p } Q C F [] :=
        h.congr rfl rfl rfl
      obtain ⟨Q', C', F', i, w, hl', ht, hv⟩ := Lists.allocate hl hs
      refine ⟨Q', C', F', hl', ?_⟩
      rw [hv]
      exact .granted hp ht
    | idle | begun _ | receiving _ | syncing =>
      rw [hp] at hs
      exact absurd hs nofun
  | finish p =>
    rw [Rds.step] at hs
    split at hs
    · next blk i hp hm => exact h.readFinish (hi.mailed p blk i hp hm).1 hp hm hs
    · next m hp hm =>
      obtain rfl := Option.some.inj hs
      have hmail : (s.view Q C F).mail p ≠ none := fun hn => absurd (hm.symm.trans hn) nofun
      exact ⟨Q, C, F, h, .finishSync hp hmail⟩
    · exact absurd hs nofun
  | close =>
    obtain ⟨r, hr, rfl⟩ := Option.map_eq_some_iff.mp hs
    exact h.rdsclose ho hr
  | «open» =>
    rw [Rds.step] at hs
    split_ifs at hs with hfree
    · obtain rfl := Option.some.inj hs
      exact ⟨Q, C, F, h.congr rfl rfl rfl, .reopen⟩
    · obtain rfl := Option.some.inj hs
      exact ⟨Q, C, F, h, .refuse (.inr (.inr rfl))⟩
  | process => exact h.process hi ho hs

end Steps

/-! ## 4. Runs

`rdsinit` puts all buffers on the free list, and an orderly run keeps them on the three lists.
These are the runs of whole pieces of `rdsprocess`; `RdsProcess` has its statements. -/

/-- Every buffer is on exactly one list, both doubly linked lists are well formed in both
directions, and the semaphore counts the requests that `rdsprocess` has not claimed. -/
def BuffersKept (s : Rds) : Prop :=
  ∃ Q C F, Lists s.cb Q C F [] ∧ s.cb.rd_reqsem.sem.count + s.stage.claimed = Q.length

section Start

variable (old : Fin RD_BUFFS → Rdbuff) (mail : Nat → Option RdMsg) (buff : Nat → RdBlock)
  (blk : Nat) (data : RdBlock) (server : Nat → RdBlock)

/-- The free list that `rdsinit` links, from its `k`-th buffer on. -/
theorem free_walk (n k : Nat) (hk : n + k = RD_BUFFS) :
    Walk (Rds.init old mail buff blk data server).cb.rd_next
      (if h : k < RD_BUFFS then .buf ⟨k, h⟩ else .null)
      (((List.finRange RD_BUFFS).drop k).map .buf) .null := by
  induction n generalizing k with
  | zero =>
    rw [dif_neg (by omega), List.drop_of_length_le (by simp; omega)]
    rfl
  | succ n ih =>
    have hlt : k < RD_BUFFS := by omega
    rw [dif_pos hlt, List.drop_eq_getElem_cons (by simpa using hlt), List.map_cons,
      List.getElem_finRange]
    exact ⟨rfl, ih (k + 1) (by omega)⟩

theorem lists_init :
    Lists (Rds.init old mail buff blk data server).cb [] [] (List.finRange RD_BUFFS) [] where
  queue := ⟨rfl, rfl⟩
  cache := ⟨rfl, rfl⟩
  free := free_walk old mail buff blk data server RD_BUFFS 0 rfl
  all := by simp

theorem inv_init (F : List (Fin RD_BUFFS)) :
    RdInv ((Rds.init old mail buff blk data server).view [] [] F) where
  starts _ := rfl
  count := rfl
  gate := rfl
  reading := nofun
  synced := nofun
  told := nofun
  pending i hi := by
    rcases hi with ⟨hi, -⟩ | hi
    · exact absurd hi (by simp [Rds.view])
    · exact absurd hi nofun
  unique i _ hi := by
    rcases hi with ⟨hi, -⟩ | hi
    · exact absurd hi (by simp [Rds.view])
    · exact absurd hi nofun
  mailed := nofun

end Start

variable {old : Fin RD_BUFFS → Rdbuff} {mail : Nat → Option RdMsg}
  {buff : Nat → RdBlock} {blk : Nat}
  {data : RdBlock} {server : Nat → RdBlock} {s : Rds}

/-- In every state of an orderly run the links form lists, with the bookkeeping of `RdInv`. -/
theorem reaches_lists (hr : Reaches Rds.step Orderly (Rds.init old mail buff blk data server) s) :
    ∃ Q C F, Lists s.cb Q C F [] ∧ RdInv (s.view Q C F) := by
  refine hr.invariant (I := fun s => ∃ Q C F, Lists s.cb Q C F [] ∧ RdInv (s.view Q C F)) ?_ ?_
  · exact ⟨[], [], _, lists_init .., inv_init ..⟩
  · rintro s ev s' ⟨Q, C, F, hl, hi⟩ ho hs
    obtain ⟨Q', C', F', hl', hm⟩ := step_move hl hi ho hs
    obtain ⟨hQ, -, hQC, hQF, -, hCF, -⟩ := hl.apart
    exact ⟨Q', C', F', hl', hi.move hQ hQC hQF hCF hm⟩

/-- The buffers are kept, in every state of an orderly run. -/
theorem reaches_buffersKept
    (hr : Reaches Rds.step Orderly (Rds.init old mail buff blk data server) s) :
    BuffersKept s := by
  obtain ⟨Q, C, F, hl, hi⟩ := reaches_lists hr
  exact ⟨Q, C, F, hl, hi.count⟩

/-! ## 5. Three runs

The first is orderly.  The other two are not, and each shows one of the two defects. -/

def zeroBlock : RdBlock := fun _ => 0

/-- A disk of zeros, opened for the first time. -/
def freshRds : Rds :=
  Rds.init
    (fun _ =>
      { rd_op := .RD_OP_READ, rd_refcnt := 0, rd_blknum := 0, rd_status := .RD_INVALID, rd_pid := 0
        rd_block := zeroBlock })
    (fun _ => none) (fun _ => zeroBlock) 0 zeroBlock fun _ => zeroBlock

/-- A part of the condition that can be executed. -/
def tidy (s : Rds) : RdEvent → Bool
  | .process =>
    match s.stage with
    | .scan i => s.cb.find s.cb.rd_next (fun b => b.rd_blknum = (s.cb.rd_buf i).rd_blknum) .rt
        (s.cb.rd_next .rh) = some none
    | _ => true
  | .close => false
  | _ => true

theorem orderly_of_tidy {ev : RdEvent} (h : tidy s ev = true) : Orderly s ev := by
  cases ev with
  | process =>
    intro i hst
    rw [tidy, hst] at h
    exact of_decide_eq_true h
  | close => exact absurd h nofun
  | call _ _ | go _ | granted _ | finish _ | «open» => trivial

/-- A write, and a read of another block, up to its answer. -/
theorem twoBlocks_reached : ∃ s, Reaches Rds.step Orderly freshRds s ∧
    s.cb.rd_next .ch = .buf 1 ∧ s.cb.rd_next (.buf 1) = .buf 0 := by
  have h1 : (exec Rds.step (fun s ev => tidy s ev = true) freshRds
      [.call 1 (.write 9 zeroBlock), .go 1, .call 2 (.read 5), .go 2, .process, .process, .process,
        .process, .process, .process, .process, .process, .finish 2]).map
        (fun s => (s.cb.rd_next .ch, s.cb.rd_next (.buf 1))) = some (.buf 1, .buf 0) := by
    decide +kernel
  obtain ⟨s, hs, hl⟩ := Option.map_eq_some_iff.mp h1
  have hr : Reaches Rds.step Orderly freshRds s :=
    (reaches_of_exec hs).mono fun _ _ h => orderly_of_tidy h
  exact ⟨s, hr, (Prod.mk.inj hl).1, (Prod.mk.inj hl).2⟩

/-- Two processes read one block: the head of the request queue comes to point to the tail of the
cache. -/
theorem crossed_reached : ∃ s, Reaches Rds.step always freshRds s ∧
    s.cb.rd_next .rh = .ct ∧ ¬ BuffersKept s := by
  have h1 : (exec Rds.step always freshRds
      [.call 1 (.read 5), .go 1, .process, .process, .call 2 (.read 5), .go 2, .process, .process,
        .process, .process]).map (fun s => s.cb.rd_next .rh) = some .ct := by
    decide +kernel
  obtain ⟨s, hs, hrh⟩ := Option.map_eq_some_iff.mp h1
  refine ⟨s, reaches_of_exec hs, hrh, ?_⟩
  rintro ⟨Q, C, F, hl, -⟩
  have hnext := hl.queue.next_head
  rw [hrh] at hnext
  cases Q <;> exact absurd hnext nofun

/-- The disk is closed between a read and its message, and opened again.  The read's buffer, by then
that of a queued write, is taken off the queue, and the write is lost. -/
theorem buffers_freed_under_read : ∃ s, Reaches Rds.step always freshRds s ∧
    s.cb.rd_next .rh = .rt ∧ s.cb.rd_reqsem.sem.count = 1 ∧ ¬ BuffersKept s := by
  have h1 : (exec Rds.step always freshRds
      [.call 0 (.write 9 zeroBlock), .go 0, .process, .process, .process,
        .call 1 (.read 5), .go 1, .process, .process, .process, .process, .process, .close, .open,
        .call 2 (.write 5 zeroBlock), .go 2, .process, .process, .process,
        .call 3 (.write 6 zeroBlock), .go 3, .finish 1]).map
        (fun s => (s.cb.rd_next .rh, s.cb.rd_reqsem.sem.count)) = some (.rt, 1) := by
    decide +kernel
  obtain ⟨s, hs, hl⟩ := Option.map_eq_some_iff.mp h1
  obtain ⟨hrh, hcount⟩ := Prod.mk.inj hl
  refine ⟨s, reaches_of_exec hs, hrh, hcount, ?_⟩
  rintro ⟨Q, C, F, hq, hreq⟩
  have hnext := hq.queue.next_head
  rw [hrh] at hnext
  cases Q with
  | nil =>
    rw [hcount, List.length_nil] at hreq
    omega
  | cons i Q => exact absurd hnext nofun

end Xinu
