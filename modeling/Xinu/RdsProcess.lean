/-
# `rdsprocess`, statement by statement (`device/rds/rdsprocess.c`)

`rdsprocess` runs with interrupts enabled.  Between two of its statements an interrupt can pass the
processor to a process of a higher priority, whose device calls then find the lists half changed.
Here every statement of `rdsprocess` that touches the device is a step, and a device call may come
before each of them.

* A *piece* is what `rdsprocess` executes from one of its kernel calls up to and including the next.
  `todo` is what is left of the piece it is in.  The exchange with the server counts as one call,
  and the `send` in the loop behind a read does not end a piece.
* The arguments of a kernel call are read with the call.  `bptr` stays the same in a piece, so it
  stands in the statements, and so does `qptr`.
* A piece in which no device call comes does what `Rds.process` does in one step, so the steps of
  `Rds` are these pieces (`splits`).  What holds of its runs holds here as long as device calls come
  at kernel calls only (`Undisturbed`).

The last condition is needed: a write that comes while `rdsprocess` relinks the queue is lost
(`buffers_lost_inside`).  `rdsprocess` has the priority `RD_PRIO`, 200, so the condition is met when
no process of that priority or a higher one makes device calls.
-/
import Xinu.RdsAvail
import Xinu.RdsReads
import Xinu.Lib.Pieces

namespace Xinu

open Chains Counting LinkedPath Runs Pieces

/-! ## 1. Statements -/

/-- A pointer, computed from the local variables and the links. -/
inductive RdExpr where
  | ptr (p : RdPtr)
  | pptr
  | nptr
  | rd_free
  | rd_next (e : RdExpr)
  | rd_prev (e : RdExpr)

/-- What a pointer is assigned to. -/
inductive RdPlace where
  | pptr
  | nptr
  | rd_free
  | rd_next (e : RdExpr)
  | rd_prev (e : RdExpr)

/-- The statements of `rdsprocess` behind `wait(rd_reqsem)`.  `i` is `bptr`. -/
inductive RdStmt where
  | assign (l : RdPlace) (e : RdExpr)
  /-- `switch (bptr->rd_op)`. -/
  | switch (i : Fin RD_BUFFS)
  /-- `msg.rd_blk = bptr->rd_blknum`. -/
  | msgBlk (i : Fin RD_BUFFS)
  /-- The loop that copies a block into the message, at index `k`. -/
  | copyToMsg (i : Fin RD_BUFFS) (k : Nat)
  /-- The loop that copies the response into the buffer. -/
  | copyFromResp (i : Fin RD_BUFFS) (k : Nat)
  | setRefcnt (i : Fin RD_BUFFS) (n : Int)
  /-- `bptr->rd_refcnt++`. -/
  | incRefcnt (i : Fin RD_BUFFS)
  /-- The loop over the request queue behind a read. -/
  | scan (i : Fin RD_BUFFS) (qptr : RdPtr)
  /-- `send(qptr->rd_pid, bptr)`, in that loop. -/
  | sendBuffer (i q : Fin RD_BUFFS)
  /-- `send(bptr->rd_pid, OK)`. -/
  | sendOk (i : Fin RD_BUFFS)
  /-- `signal(rd_availsem)`, with which a piece ends. -/
  | signal (stage : RdStage)

section Code

variable (i q : Fin RD_BUFFS)

/-- Unlink a buffer, as for a read or a synchronization. -/
def unlinkCode : List RdStmt :=
  [.assign .nptr (.rd_next (.ptr (.buf i))),
    .assign .pptr (.rd_prev (.ptr (.buf i))),
    .assign (.rd_prev .nptr) (.rd_prev (.ptr (.buf i))),
    .assign (.rd_next .pptr) (.rd_next (.ptr (.buf i)))]

/-- Unlink a buffer, as for a write. -/
def unlinkWriteCode : List RdStmt :=
  [.assign .nptr (.rd_next (.ptr (.buf i))),
    .assign .pptr (.rd_prev (.ptr (.buf i))),
    .assign (.rd_next .pptr) .nptr,
    .assign (.rd_prev .nptr) .pptr]

/-- Insert a buffer in the cache. -/
def cacheCode : List RdStmt :=
  [.assign .pptr (.ptr .ch),
    .assign .nptr (.rd_next .pptr),
    .assign (.rd_next (.ptr (.buf i))) .nptr,
    .assign (.rd_prev (.ptr (.buf i))) .pptr,
    .assign (.rd_next .pptr) (.ptr (.buf i)),
    .assign (.rd_prev .nptr) (.ptr (.buf i))]

/-- Insert a buffer into the free list. -/
def freeCode : List RdStmt :=
  [.assign (.rd_next (.ptr (.buf i))) .rd_free,
    .assign .rd_free (.ptr (.buf i))]

/-- Behind `rdscomm`, in the branch of a read. -/
def readCode : List RdStmt :=
  .copyFromResp i 0 :: (unlinkCode i ++ (cacheCode i ++ [.setRefcnt i 1, .signal (.told i)]))

/-- The branch of a write, up to `rdscomm`. -/
def writeCode : List RdStmt :=
  .msgBlk i :: .copyToMsg i 0 ::
    (unlinkWriteCode i ++ (cacheCode i ++ [.setRefcnt i 0, .signal .writing]))

/-- Behind the message, in the branch of a synchronization. -/
def syncCode : List RdStmt := unlinkCode i ++ (freeCode i ++ [.signal .top])

/-- In the loop over the request queue, with another request for the block. -/
def foundCode : List RdStmt :=
  [.incRefcnt i,
    .sendBuffer i q,
    .assign .pptr (.rd_prev (.ptr (.buf q))),
    .assign .nptr (.rd_next (.ptr (.buf q))),
    -- the links of `bptr` instead of those of `qptr`
    .assign (.rd_next .pptr) (.rd_next (.ptr (.buf i))),
    .assign (.rd_prev .nptr) (.rd_prev (.ptr (.buf i)))] ++ (freeCode q ++ [.signal .top])

end Code

/-! ## 2. Steps

At a kernel call there is nothing left to do, and the stage of the device says at which call
`rdsprocess` is; inside a piece the stage is still that of the call before it. -/

/-- The device with `rdsprocess` between two statements: its local variables, and what is left of
the piece it is in. -/
structure RdsMachine where
  dev : Rds
  pptr : RdPtr
  nptr : RdPtr
  resp : RdBlock
  todo : List RdStmt

namespace RdsMachine

variable (t : RdsMachine)

/-- `rdsprocess` is at a kernel call. -/
def AtCall : Prop := t.todo = []

def eval : RdExpr → RdPtr
  | .ptr p => p
  | .pptr => t.pptr
  | .nptr => t.nptr
  | .rd_free => t.dev.cb.rd_free
  | .rd_next e => t.dev.cb.rd_next (eval e)
  | .rd_prev e => t.dev.cb.rd_prev (eval e)

def store (p : RdPtr) : RdPlace → RdsMachine
  | .pptr => { t with pptr := p }
  | .nptr => { t with nptr := p }
  | .rd_free => { t with dev.cb.rd_free := p }
  | .rd_next e => { t with dev.cb.rd_next := Function.update t.dev.cb.rd_next (t.eval e) p }
  | .rd_prev e => { t with dev.cb.rd_prev := Function.update t.dev.cb.rd_prev (t.eval e) p }

def setBuf (i : Fin RD_BUFFS) (b : Rdbuff) : RdsMachine := { t with dev.cb := t.dev.cb.setBuf i b }

/-- Execute a statement; `todo` is what comes behind it. -/
def exec : RdStmt → Option RdsMachine
  | .assign l e => some (t.store (t.eval e) l)
  | .switch i =>
    match (t.dev.cb.rd_buf i).rd_op with
    | .RD_OP_READ => some { t with dev.stage := .reading i }
    | .RD_OP_WRITE => some { t with todo := writeCode i ++ t.todo }
    | .RD_OP_SYNC => some { t with todo := .sendOk i :: t.todo }
  | .msgBlk i => some { t with dev.msg_blk := (t.dev.cb.rd_buf i).rd_blknum }
  | .copyToMsg i k =>
    if h : k < RD_BLKSIZ then some { t with
      dev.msg_data := Function.update t.dev.msg_data ⟨k, h⟩ ((t.dev.cb.rd_buf i).rd_block ⟨k, h⟩)
      todo := .copyToMsg i (k + 1) :: t.todo }
    else some t
  | .copyFromResp i k =>
    let b := t.dev.cb.rd_buf i
    if h : k < RD_BLKSIZ then some { t.setBuf i
        { b with rd_block := Function.update b.rd_block ⟨k, h⟩ (t.resp ⟨k, h⟩) } with
      todo := .copyFromResp i (k + 1) :: t.todo }
    else some t
  | .setRefcnt i n => some (t.setBuf i { t.dev.cb.rd_buf i with rd_refcnt := n })
  | .incRefcnt i =>
    let b := t.dev.cb.rd_buf i
    some (t.setBuf i { b with rd_refcnt := b.rd_refcnt + 1 })
  | .scan i qptr =>
    if qptr = .rt then some { t with dev.stage := .top }
    else qptr.node.map fun q =>
      if (t.dev.cb.rd_buf q).rd_blknum = (t.dev.cb.rd_buf i).rd_blknum then
        { t with todo := foundCode i q ++ t.todo }
      else { t with todo := .scan i (t.dev.cb.rd_next qptr) :: t.todo }
  | .sendBuffer i q => some { t with dev := t.dev.send (t.dev.cb.rd_buf q).rd_pid (.buffer i) }
  | .sendOk i => some { t with
      dev := { t.dev.send (t.dev.cb.rd_buf i).rd_pid .ok with stage := .synced i } }
  | .signal stage => some { t with
      dev.cb.rd_availsem := t.dev.cb.rd_availsem.signal 1, dev.stage := stage }

/-- `rdsprocess` goes on from a kernel call, or makes the next one at once. -/
def resume : Option RdsMachine :=
  match t.dev.stage with
  | .take => (t.dev.cb.rd_next .rh).node.map fun i => { t with todo := [.switch i] }
  -- the server answers with the block that the message names
  | .reading i => some { t with resp := t.dev.server t.dev.msg_blk, todo := readCode i }
  | .scan i => some { t with todo := [.scan i (t.dev.cb.rd_next .rh)] }
  | .synced i => some { t with todo := syncCode i }
  | .off | .top | .waiting | .told _ | .writing =>
    t.dev.process.map fun s => { t with dev := s }

/-- The next statement of `rdsprocess`. -/
def process : Option RdsMachine :=
  match t.todo with
  | [] => t.resume
  | c :: cs => { t with todo := cs }.exec c

/-- One step.  Device calls come at any time. -/
def step : RdEvent → Option RdsMachine
  | .process => t.process
  | ev => (t.dev.step ev).map fun s => { t with dev := s }

/-- No device call comes while `rdsprocess` is between two kernel calls, and at them the steps meet
the condition `ok`. -/
abbrev Undisturbed (ok : Rds → RdEvent → Prop) : RdsMachine → RdEvent → Prop :=
  Pieces.Undisturbed .process AtCall dev ok

/-- The piece that `rdsprocess` is in ends in the second state, when no device call comes. -/
abbrev Finishes : RdsMachine → RdsMachine → Prop := Pieces.Finishes step .process AtCall

end RdsMachine

/-! ## 3. Pieces

A piece is executed here without a break.  Each block of straight-line code is one operation of
`Rdscblk` on the links, whatever they are, and the loops copy a block or search the queue. -/

section Piece

variable {d s s' : Rds} {p n a : RdPtr} {r : RdBlock} {c : RdStmt} {cs : List RdStmt}
  {i q : Fin RD_BUFFS} {t u : RdsMachine}

/-- The piece that the machine is in ends with this device. -/
def Leads (t : RdsMachine) (s : Rds) : Prop := ∃ v, t.Finishes v ∧ v.dev = s

theorem leads_done : Leads ⟨d, p, n, r, []⟩ d := ⟨_, .done rfl, rfl⟩

/-- **One statement.** -/
theorem leads_step (hs : (⟨d, p, n, r, cs⟩ : RdsMachine).exec c = some u) (h : Leads u s) :
    Leads ⟨d, p, n, r, c :: cs⟩ s := by
  obtain ⟨v, hv, rfl⟩ := h
  exact ⟨v, .step (List.cons_ne_nil c cs) hs hv, rfl⟩

theorem leads_unlink
    (h : Leads ⟨{ d with cb := d.cb.unlink i }, d.cb.rd_prev (.buf i), d.cb.rd_next (.buf i), r, cs⟩
      s) : Leads ⟨d, p, n, r, unlinkCode i ++ cs⟩ s := by
  refine leads_step rfl (leads_step rfl (leads_step rfl (leads_step rfl ?_)))
  exact h

theorem leads_unlinkWrite
    (h : Leads ⟨{ d with cb := d.cb.unlink i }, d.cb.rd_prev (.buf i), d.cb.rd_next (.buf i), r, cs⟩
      s) : Leads ⟨d, p, n, r, unlinkWriteCode i ++ cs⟩ s := by
  refine leads_step rfl (leads_step rfl (leads_step rfl (leads_step rfl ?_)))
  exact h

theorem leads_cache
    (h : Leads ⟨{ d with cb := d.cb.pushCache i }, .ch, d.cb.rd_next .ch, r, cs⟩ s) :
    Leads ⟨d, p, n, r, cacheCode i ++ cs⟩ s := by
  refine leads_step rfl (leads_step rfl (leads_step rfl (leads_step rfl (leads_step rfl
    (leads_step rfl ?_)))))
  exact h

theorem leads_free (h : Leads ⟨{ d with cb := d.cb.pushFree i }, p, n, r, cs⟩ s) :
    Leads ⟨d, p, n, r, freeCode i ++ cs⟩ s := by
  refine leads_step rfl (leads_step rfl ?_)
  exact h

theorem setBuf_self (cb : Rdscblk) (b : Rdbuff) : (cb.setBuf i b).rd_buf i = b :=
  Function.update_self ..

theorem setBuf_setBuf (cb : Rdscblk) (b b' : Rdbuff) :
    (cb.setBuf i b).setBuf i b' = cb.setBuf i b' := by
  rw [Rdscblk.setBuf, Rdscblk.setBuf, Rdscblk.setBuf, Function.update_idem]

/-- One more byte is copied. -/
theorem copied_succ {f g : RdBlock} {k : Nat} (hk : k < RD_BLKSIZ)
    (hdone : ∀ x : Fin RD_BLKSIZ, x.val < k → f x = g x) (x : Fin RD_BLKSIZ)
    (hx : x.val < k + 1) : Function.update f ⟨k, hk⟩ (g ⟨k, hk⟩) x = g x := by
  by_cases hxk : x = ⟨k, hk⟩
  · rw [hxk]
    exact Function.update_self ..
  · have hne : x.val ≠ k := fun he => hxk (Fin.ext he)
    exact (Function.update_of_ne hxk ..).trans (hdone x (by omega))

/-- The loop that copies the response, when the first `k` bytes are copied. -/
theorem leads_copyFromResp {m k : Nat} (hm : m + k = RD_BLKSIZ)
    (hdone : ∀ x : Fin RD_BLKSIZ, x.val < k → (d.cb.rd_buf i).rd_block x = r x)
    (h : Leads ⟨{ d with cb := d.cb.setBuf i { d.cb.rd_buf i with rd_block := r } }, p, n, r, cs⟩
      s) : Leads ⟨d, p, n, r, .copyFromResp i k :: cs⟩ s := by
  induction m generalizing d k with
  | zero =>
    refine leads_step (dif_neg (by omega)) ?_
    have hsame : d.cb.setBuf i { d.cb.rd_buf i with rd_block := r } = d.cb := by
      have hr : (d.cb.rd_buf i).rd_block = r := funext fun x => hdone x (by omega)
      rw [← hr, Rdscblk.setBuf, Function.update_eq_self]
    rwa [hsame] at h
  | succ m ih =>
    have hk : k < RD_BLKSIZ := by omega
    set b := d.cb.rd_buf i
    set b' : Rdbuff := { b with rd_block := Function.update b.rd_block ⟨k, hk⟩ (r ⟨k, hk⟩) }
    have hb : (d.cb.setBuf i b').rd_buf i = b' := setBuf_self d.cb b'
    have hbyte : Leads ⟨{ d with cb := d.cb.setBuf i b' }, p, n, r, .copyFromResp i (k + 1) :: cs⟩
        s := by
      refine ih (by omega) (fun x hx => ?_) ?_
      · rw [hb]
        exact copied_succ hk hdone x hx
      · rw [hb, setBuf_setBuf]
        exact h
    exact leads_step (dif_pos hk) hbyte

/-- The loop that copies a block into the message. -/
theorem leads_copyToMsg {m k : Nat} (hm : m + k = RD_BLKSIZ)
    (hdone : ∀ x : Fin RD_BLKSIZ, x.val < k → d.msg_data x = (d.cb.rd_buf i).rd_block x)
    (h : Leads ⟨{ d with msg_data := (d.cb.rd_buf i).rd_block }, p, n, r, cs⟩ s) :
    Leads ⟨d, p, n, r, .copyToMsg i k :: cs⟩ s := by
  induction m generalizing d k with
  | zero =>
    refine leads_step (dif_neg (by omega)) ?_
    have hsame : (d.cb.rd_buf i).rd_block = d.msg_data := funext fun x => (hdone x (by omega)).symm
    rwa [hsame] at h
  | succ m ih =>
    have hk : k < RD_BLKSIZ := by omega
    exact leads_step (dif_pos hk) (ih (by omega) (copied_succ hk hdone) h)

/-- The branch of a read, with the response. -/
theorem leads_read (h : d.stage = .reading i) (hs : d.process = some s) :
    Leads ⟨d, p, n, d.server d.msg_blk, readCode i⟩ s := by
  rw [Rds.process, h] at hs
  obtain rfl := Option.some.inj hs
  refine leads_copyFromResp rfl (fun _ hx => absurd hx (Nat.not_lt_zero _)) ?_
  refine leads_unlink (leads_cache (leads_step rfl (leads_step rfl ?_)))
  refine ⟨_, .done rfl, ?_⟩
  simp only [Rdscblk.setBuf, Rdscblk.pushCache, Rdscblk.unlink, Function.update_self,
    Function.update_idem]

/-- The branch of a write. -/
theorem leads_write (h : d.stage = .take) (hi : (d.cb.rd_next .rh).node = some i)
    (hop : (d.cb.rd_buf i).rd_op = .RD_OP_WRITE) (hs : d.process = some s) :
    Leads ⟨d, p, n, r, writeCode i⟩ s := by
  simp only [Rds.process, h, hi, Option.map_some, hop, Option.some.injEq] at hs
  rw [← hop] at hs
  subst hs
  refine leads_step rfl (leads_copyToMsg rfl (fun _ hx => absurd hx (Nat.not_lt_zero _)) ?_)
  exact leads_unlinkWrite (leads_cache (leads_step rfl (leads_step rfl leads_done)))

/-- The branch of a synchronization, behind its message. -/
theorem leads_sync (h : d.stage = .synced i) (hs : d.process = some s) :
    Leads ⟨d, p, n, r, syncCode i⟩ s := by
  rw [Rds.process, h] at hs
  obtain rfl := Option.some.inj hs
  exact leads_unlink (leads_free (leads_step rfl leads_done))

/-- With another request for the block. -/
theorem leads_found
    (hfind : d.cb.find d.cb.rd_next (fun b => b.rd_blknum = (d.cb.rd_buf i).rd_blknum) .rt
      (d.cb.rd_next .rh) = some (some q)) (hs : d.scanQueue i = some s) :
    Leads ⟨d, p, n, r, foundCode i q⟩ s := by
  simp only [Rds.scanQueue, hfind, Option.map_some, Option.some.injEq] at hs
  subst hs
  refine leads_step rfl (leads_step rfl (leads_step rfl (leads_step rfl (leads_step rfl
    (leads_step rfl (leads_free (leads_step rfl ?_)))))))
  refine ⟨_, .done rfl, ?_⟩
  simp only [Rds.send]
  split_ifs <;> rfl

/-- The loop over the request queue. -/
theorem leads_scan {m : Nat} {o : Option (Fin RD_BUFFS)}
    (hfind : search d.cb.rd_next RdPtr.node
      (fun j => decide ((d.cb.rd_buf j).rd_blknum = (d.cb.rd_buf i).rd_blknum)) .rt m a = some o)
    (hnone : o = none → s = { d with stage := .top })
    (hfound : ∀ q, o = some q → Leads ⟨d, p, n, r, foundCode i q⟩ s) :
    Leads ⟨d, p, n, r, [.scan i a]⟩ s := by
  induction m generalizing a with
  | zero => exact absurd hfind nofun
  | succ m ih =>
    rw [search] at hfind
    split_ifs at hfind with hrt
    · obtain rfl := hnone (Option.some.inj hfind).symm
      exact leads_step (if_pos hrt) leads_done
    · obtain ⟨q, hq, hfind⟩ := Option.bind_eq_some_iff.mp hfind
      split_ifs at hfind with hblk
      · refine leads_step ?_ (hfound q (Option.some.inj hfind).symm)
        rw [RdsMachine.exec, if_neg hrt, hq, Option.map_some, if_pos (of_decide_eq_true hblk),
          List.append_nil]
      · refine leads_step ?_ (ih hfind)
        rw [RdsMachine.exec, if_neg hrt, hq, Option.map_some,
          if_neg fun he => hblk (decide_eq_true he)]

/-- **A piece in which no device call comes** is the step that `Rds.process` takes. -/
theorem piece (ht : t.AtCall) (hs : t.dev.process = some s) :
    ∃ u, t.step .process = some u ∧ Leads u s := by
  obtain ⟨d, p, n, r, cs⟩ := t
  obtain rfl : cs = [] := ht
  have hstep : (⟨d, p, n, r, []⟩ : RdsMachine).step .process =
    (⟨d, p, n, r, []⟩ : RdsMachine).resume := rfl
  rw [hstep, RdsMachine.resume]
  dsimp only at hs ⊢
  cases hst : d.stage with
  | off | top | waiting | told _ | writing => exact ⟨_, by rw [hs]; rfl, leads_done⟩
  | take =>
    obtain ⟨i, hi⟩ : ∃ i, (d.cb.rd_next .rh).node = some i := by
      rw [Rds.process, hst] at hs
      obtain ⟨i, hi, -⟩ := Option.map_eq_some_iff.mp hs
      exact ⟨i, hi⟩
    refine ⟨_, by rw [hi]; rfl, ?_⟩
    cases hop : (d.cb.rd_buf i).rd_op with
    | RD_OP_READ =>
      refine leads_step (by rw [RdsMachine.exec, hop]) ?_
      simp only [Rds.process, hst, hi, Option.map_some, hop, Option.some.injEq] at hs
      subst hs
      exact leads_done
    | RD_OP_WRITE =>
      refine leads_step (by rw [RdsMachine.exec, hop]) ?_
      rw [List.append_nil]
      exact leads_write hst hi hop hs
    | RD_OP_SYNC =>
      refine leads_step (by rw [RdsMachine.exec, hop]) (leads_step rfl ?_)
      simp only [Rds.process, hst, hi, Option.map_some, hop, Option.some.injEq] at hs
      subst hs
      exact leads_done
  | reading i => exact ⟨_, rfl, leads_read hst hs⟩
  | scan i =>
    have hs : d.scanQueue i = some s := by rwa [Rds.process, hst] at hs
    obtain ⟨o, hfind, -⟩ := Option.map_eq_some_iff.mp hs
    refine ⟨_, rfl, leads_scan hfind ?_ ?_⟩
    · rintro rfl
      have hnone : d.scanQueue i = some { d with stage := .top } := by
        simp only [Rds.scanQueue, hfind, Option.map_some]
      exact Option.some.inj (hs.symm.trans hnone)
    · rintro q rfl
      exact leads_found hfind hs
  | synced i => exact ⟨_, rfl, leads_sync hst hs⟩

/-- **The steps of `Rds` are the pieces of `rdsprocess`**, and the device calls. -/
theorem splits : Splits RdsMachine.step .process RdsMachine.AtCall RdsMachine.dev Rds.step where
  other t ev ht hev := by
    have hstep : t.step ev = (t.dev.step ev).map fun s => { t with dev := s } := by
      cases ev with
      | process => exact absurd rfl hev
      | call _ _ | go _ | granted _ | finish _ | close | «open» => rfl
    rw [hstep]
    refine ⟨?_, fun u hu => ?_⟩
    · rw [Option.map_map]
      exact congrFun Option.map_id _
    · obtain ⟨s, -, rfl⟩ := Option.map_eq_some_iff.mp hu
      exact ht
  piece t s ht hs := by
    obtain ⟨u, hu, v, hv, hd⟩ := piece ht hs
    exact ⟨u, v, hu, hv, hd⟩

/-- An orderly piece that begins is a step: only the loop behind a read could go on for ever. -/
theorem begins (ok : Rds → RdEvent → Prop) (hok : ∀ s, ok s .process → Orderly s .process) :
    Begins RdsMachine.step .process RdsMachine.AtCall RdsMachine.dev Rds.step ok := by
  rintro ⟨d, p, n, r, cs⟩ (rfl : cs = []) ho hne hnone
  refine hne ?_
  have hnone : d.process = none := hnone
  change RdsMachine.resume _ = none
  rw [RdsMachine.resume]
  cases hst : d.stage with
  | off | top | waiting | told _ | writing => exact Option.map_eq_none_iff.mpr hnone
  | take =>
    rw [Rds.process, hst] at hnone
    exact Option.map_eq_none_iff.mpr (Option.map_eq_none_iff.mp hnone)
  | reading i | synced i =>
    rw [Rds.process, hst] at hnone
    exact absurd hnone (Option.some_ne_none _)
  | scan i =>
    have hfind := hok d ho i hst
    rw [Rds.process, hst] at hnone
    simp only [Rds.scanQueue, hfind, Option.map_some] at hnone
    exact absurd hnone (Option.some_ne_none _)

end Piece

/-! ## 4. Runs

The results about the runs of `Rds`, for the runs of the statements. -/

section Runs

variable {old : Fin RD_BUFFS → Rdbuff} {mail : Nat → Option RdMsg} {buff : Nat → RdBlock}
  {blk : Nat} {data : RdBlock} {server : Nat → RdBlock} {p n : RdPtr} {r : RdBlock}
  {t : RdsMachine} {ev : RdEvent} {x : RdsMachine × RdWatch}

theorem atCall_start (d : Rds) : RdsMachine.AtCall ⟨d, p, n, r, []⟩ := rfl

/-- **The buffers are kept** in an orderly run, as long as device calls come at kernel calls of
`rdsprocess` only: whenever it is at one, and where it is inside a piece, at the end of the
piece. -/
theorem buffers_kept
    (hr : Reaches RdsMachine.step (RdsMachine.Undisturbed Orderly)
      ⟨Rds.init old mail buff blk data server, p, n, r, []⟩ t) :
    (t.AtCall → BuffersKept t.dev) ∧ ∃ v, t.Finishes v ∧ BuffersKept v.dev := by
  have hb := begins Orderly fun _ h => h
  refine ⟨fun ht => reaches_buffersKept (splits.reaches_idle hb (atCall_start _) hr ht), ?_⟩
  obtain ⟨v, hv, hr⟩ := splits.reaches hb (atCall_start _) hr
  exact ⟨v, hv, reaches_buffersKept hr⟩

/-- A fresh disk, with `rdsprocess` not resumed yet. -/
def freshMachine : RdsMachine := ⟨freshRds, .null, .null, zeroBlock, []⟩

/-- A write, and a read of another block, up to its answer. -/
theorem buffers_kept_twoBlocks : ∃ t,
    Reaches RdsMachine.step (RdsMachine.Undisturbed Orderly) freshMachine t ∧
      t.dev.cb.rd_next .ch = .buf 1 ∧ t.dev.cb.rd_next (.buf 1) = .buf 0 ∧ BuffersKept t.dev := by
  obtain ⟨s, hs, h1, h2⟩ := twoBlocks_reached
  obtain ⟨t, ht, rfl, hr⟩ := splits.lift (atCall_start freshRds) hs
  exact ⟨t, hr, h1, h2, (buffers_kept hr).1 ht⟩

/-- Two processes read one block, and no device call comes inside a piece: the head of the request
queue comes to point to the tail of the cache. -/
theorem buffers_not_kept : ∃ t,
    Reaches RdsMachine.step (RdsMachine.Undisturbed always) freshMachine t ∧
      t.AtCall ∧ t.dev.cb.rd_next .rh = .ct ∧ ¬ BuffersKept t.dev := by
  obtain ⟨s, hs, h1, h2⟩ := crossed_reached
  obtain ⟨t, ht, rfl, hr⟩ := splits.lift (atCall_start freshRds) hs
  exact ⟨t, hr, ht, h1, h2⟩

/-- **Device calls inside a piece break the lists.**  A write comes when `rdsprocess` has loaded the
neighbours of a request that it unlinks; the request queue has the write in one direction only. -/
theorem buffers_lost_inside : ∃ t,
    Reaches RdsMachine.step (fun t ev => Orderly t.dev ev) freshMachine t ∧
      t.AtCall ∧ t.dev.cb.rd_next .rh = .buf 1 ∧ t.dev.cb.rd_prev .rt = .rh ∧
      ¬ BuffersKept t.dev := by
  have h1 : (exec RdsMachine.step (fun t ev => tidy t.dev ev = true) freshMachine
      [.call 2 .sync, .go 2, .process, .process, .process, .process, .process, .process, .process,
        .call 1 (.write 9 zeroBlock), .go 1, .process, .process, .process, .process, .process]).map
        (fun t => (t.todo.length, t.dev.cb.rd_next .rh, t.dev.cb.rd_prev .rt)) =
      some (0, .buf 1, .rh) := by
    decide +kernel
  obtain ⟨t, ht, hl⟩ := Option.map_eq_some_iff.mp h1
  simp only [Prod.mk.injEq] at hl
  obtain ⟨htodo, hnext, hprev⟩ := hl
  refine ⟨t, (reaches_of_exec ht).mono fun _ _ h => orderly_of_tidy h,
    List.length_eq_zero_iff.mp htodo, hnext, hprev, ?_⟩
  rintro ⟨Q, C, F, hq, -⟩
  have hfront := hq.queue.next_head
  have hback := hq.queue.prev_tail
  rw [hnext] at hfront
  rw [hprev] at hback
  cases Q with
  | nil => exact absurd hfront nofun
  | cons i Q =>
    -- the queue has a last buffer, and the tail does not lead to it
    have hlast := getLastD_mem (Q.map RdPtr.buf) (.buf i)
    rw [List.map_cons, List.getLastD_cons] at hback
    rw [← hback, ← List.map_cons] at hlast
    exact absurd hlast (by simp)

/-- Watched runs. -/
abbrev RdsMachine.watched : RdsMachine × RdWatch → RdEvent → Option (RdsMachine × RdWatch) :=
  watch RdsMachine.step (watchThrough RdsMachine.dev fun s ev s' w => w.see s.pc ev s'.pc s'.buff)

/-- Watched pieces are steps of the watched device. -/
theorem splits_watched : Splits RdsMachine.watched .process (fun x => x.1.AtCall)
    (fun x => (x.1.dev, x.2)) Rds.watched := splits.watch fun _ _ _ => rfl

theorem lift_watched {ok : Rds → RdEvent → Prop} {d : Rds} {w : RdWatch} {y : Rds × RdWatch}
    (hy : Reaches Rds.watched (fun x => ok x.1) (d, w) y) :
    ∃ x, (x.1.dev, x.2) = y ∧
      Reaches RdsMachine.watched (fun x => RdsMachine.Undisturbed ok x.1)
        (⟨d, .null, .null, zeroBlock, []⟩, w) x := by
  let x₀ : RdsMachine × RdWatch := (⟨d, .null, .null, zeroBlock, []⟩, w)
  have h₀ : x₀.1.AtCall := rfl
  obtain ⟨x, -, hx, hr⟩ := splits_watched.lift h₀ hy
  exact ⟨x, hx, hr⟩

/-- **A read returns what its block held at some point in the course of the call**, by the writes
accepted until then: in every run whose steps meet the condition, and in which device calls come at
kernel calls of `rdsprocess` only. -/
theorem reads_see_writes
    (hr : Reaches RdsMachine.watched (fun x => RdsMachine.Undisturbed Careful x.1)
      (⟨Rds.init old mail buff blk data server, p, n, r, []⟩, RdWatch.start server) x) :
    ∀ a ∈ x.2.answers, a.data ∈ a.seen := by
  have hb := begins Careful fun _ h => h.1
  obtain ⟨y, hy, hr⟩ := splits_watched.reaches hb.watch (atCall_start _) hr
  -- inside a piece the observer has seen what he has at its end
  rw [← hy.watched_eq fun _ _ _ => rfl]
  exact reaches_answers hr

/-- A read from the server, a write, a read while it is queued, and one when it is in the cache. -/
theorem reads_see_writes_inTurn : ∃ x : RdsMachine × RdWatch,
    Reaches RdsMachine.watched (fun x => RdsMachine.Undisturbed Careful x.1)
      (⟨numberedRds 5, .null, .null, zeroBlock, []⟩, RdWatch.start fill) x ∧
      x.2.answers.map (fun a => (a.blk, a.data 0)) = [(5, 9), (5, 9), (5, 5)] ∧
      ∀ a ∈ x.2.answers, a.data ∈ a.seen := by
  obtain ⟨y, hy, hl⟩ := inTurn_reached
  obtain ⟨x, rfl, hr⟩ := lift_watched hy
  exact ⟨x, hr, hl, reads_see_writes hr⟩

/-- The first read of a disk returns block 0, whatever block is read. -/
theorem read_misses_block : ∃ x : RdsMachine × RdWatch,
    Reaches RdsMachine.watched (fun x => RdsMachine.Undisturbed always x.1)
      (⟨numberedRds 0, .null, .null, zeroBlock, []⟩, RdWatch.start fill) x ∧
      x.2.answers.map (fun a => (a.blk, a.data 0, a.seen.map fun b => b 0)) = [(5, 0, [5])] ∧
      ¬ ∀ a ∈ x.2.answers, a.data ∈ a.seen := by
  obtain ⟨y, hy, hl, hnot⟩ := missed_reached
  have hy : Reaches Rds.watched (fun x => always x.1) (numberedRds 0, RdWatch.start fill) y := hy
  obtain ⟨x, rfl, hr⟩ := lift_watched hy
  exact ⟨x, hr, hl, hnot⟩

/-- **When `rdsbufalloc` finds a buffer**, whenever `rdsprocess` is at a kernel call in a run with
orderly lists and counted reuse. -/
theorem rdsbufalloc_finds_iff
    (hr : Reaches RdsMachine.step (RdsMachine.Undisturbed Tallied)
      ⟨Rds.init old mail buff blk data server, p, n, r, []⟩ t) (ht : t.AtCall) :
    rdsbufalloc t.dev.cb ≠ none ↔ (t.dev.answered.card : Int) < t.dev.cb.rd_availsem.grants :=
  tallied_finds_iff (splits.reaches_idle (begins _ fun _ h => h.1) (atCall_start _) hr ht)

/-- **The panic of `rdsbufalloc` is not reached** in a run whose steps meet the condition, and in
which device calls come at kernel calls of `rdsprocess` only: a call that passes
`wait(rd_availsem)` finds a buffer. -/
theorem rdsbufalloc_finds
    (hr : Reaches RdsMachine.step (RdsMachine.Undisturbed AvailSpared)
      ⟨Rds.init old mail buff blk data server, p, n, r, []⟩ t)
    (hok : RdsMachine.Undisturbed AvailSpared t ev) (hp : t.dev.passes ev = true) :
    rdsbufalloc t.dev.cb ≠ none ∧ t.step ev ≠ none := by
  have hev : ev ≠ .process := by
    rintro rfl
    exact absurd hp nofun
  have ht := hok.1 hev
  have hcoarse := splits.reaches_idle (begins _ fun _ h => h.1.1) (atCall_start _) hr ht
  obtain ⟨hfound, hstep⟩ := spared_finds hcoarse (hok.2 ht) hp
  refine ⟨hfound, fun hnone => hstep ?_⟩
  rw [← (splits.other t ev ht hev).1, hnone, Option.map_none]

/-- A process has read a block and has not run since; a write then finds a buffer. -/
theorem rdsbufalloc_finds_write : ∃ t,
    Reaches RdsMachine.step (RdsMachine.Undisturbed AvailSpared) freshMachine t ∧
      t.dev.answered.card = 1 ∧ rdsbufalloc t.dev.cb ≠ none ∧ t.step (.go 1) ≠ none := by
  obtain ⟨s, hs, hcard, hok, hp⟩ := readAnswered_spared
  obtain ⟨t, ht, rfl, hr⟩ := splits.lift (atCall_start freshRds) hs
  exact ⟨t, hr, hcard, rdsbufalloc_finds hr ⟨fun _ => ht, fun _ => hok⟩ hp⟩

/-- **Two processes are enough for the panic**, with no device call inside a piece. -/
theorem rdsbufalloc_panics : ∃ t,
    Reaches RdsMachine.step (RdsMachine.Undisturbed always) freshMachine t ∧
      t.AtCall ∧ t.dev.passes (.go 1) = true ∧ rdsbufalloc t.dev.cb = none ∧
      t.step (.go 1) = none := by
  obtain ⟨s, hs, hp, hnone⟩ := readAnswered_panics
  obtain ⟨t, ht, rfl, hr⟩ := splits.lift (atCall_start freshRds) hs
  refine ⟨t, hr, ht, hp, hnone, ?_⟩
  have hstep := (splits.other t (.go 1) ht nofun).1
  rw [(Rds.step_eq_none_iff hp).mpr hnone] at hstep
  exact Option.map_eq_none_iff.mp hstep

end Runs

end Xinu
