/-
# A read of a remote disk returns what was written

An observer (`RdWatch`) remembers what each block holds by the writes that were accepted, and for a
read under way what its block has held since the call.  Under the condition `Careful`, every read
returns one of these (`reaches_answers`).

The proof follows the data of one block: it is what the last queued write for the block writes, or
else what `rdsprocess` is sending, or else what the server has (`ReadInv.current`), and a valid copy
in the cache agrees with it (`cached`).  A queued read will see the writes in front of it
(`queued`).

Four steps break this and are what `Careful` excludes: a read request whose message names another
block, because `rdsprocess` does not set the block number of a read; the step that breaks the
request queue (`Orderly`); a hit in the cache while a newer write is queued; and a write that
replaces the contents of a queued write with a later one behind it.
-/
import Xinu.RdsBuffers
import Xinu.Lib.WriteLog

namespace Xinu

open Counting Runs WriteLog

/-! ## 1. The observer

A write counts as accepted when its request is queued, or when it replaces a queued one.  From
then on the block holds the new data for the observer, and every read of the block that is under
way has seen it as well.  So a read may return the old or the new data of a write that goes on at
the same time. -/

/-- A read that has returned, with what its block has held in the course of the call. -/
structure RdAnswer where
  pid : Nat
  blk : Nat
  data : RdBlock
  seen : List RdBlock

structure RdWatch where
  latest : Nat → RdBlock
  seen : Nat → List RdBlock
  answers : List RdAnswer

/-- The block that a process is reading. -/
def RdPc.reads : RdPc → Option Nat
  | .begun (.read blk) => some blk
  | .alloc (.read blk) => some blk
  | .receiving blk => some blk
  | _ => none

namespace RdWatch

variable (w : RdWatch) (pc : Nat → RdPc)

/-- A read begins. -/
def begin (p blk : Nat) : RdWatch := { w with seen := Function.update w.seen p [w.latest blk] }

/-- A write is accepted. -/
def accept (blk : Nat) (data : RdBlock) : RdWatch :=
  { w with
    latest := Function.update w.latest blk data
    seen := fun q => if (pc q).reads = some blk then data :: w.seen q else w.seen q }

/-- A read returns. -/
def answer (p blk : Nat) (data : RdBlock) : RdWatch :=
  { w with answers := ⟨p, blk, data, w.seen p⟩ :: w.answers }

/-- A request is queued. -/
def queue : RdReq → RdWatch
  | .write blk data => w.accept pc blk data
  | _ => w

/-- A call returns. -/
def finish (p : Nat) (buff : Nat → RdBlock) : RdWatch :=
  match pc p with
  | .begun (.write blk data) => w.accept pc blk data
  | .alloc (.write blk data) => w.accept pc blk data
  | .begun (.read blk) => w.answer p blk (buff p)
  | .receiving blk => w.answer p blk (buff p)
  | _ => w

/-- What the observer remembers of a step, which takes the processes from `pc` to `pc'`. -/
def see (ev : RdEvent) (pc' : Nat → RdPc) (buff : Nat → RdBlock) : RdWatch :=
  let returned (p : Nat) := match pc' p with
    | .idle => w.finish pc p buff
    | _ => w
  match ev with
  | .call p (.read blk) => w.begin p blk
  | .go p => returned p
  | .granted p => returned p
  | .finish p => returned p
  | _ => w

/-- Before any step the blocks are what the server has. -/
def start (server : Nat → RdBlock) : RdWatch := ⟨server, fun _ => [], []⟩

end RdWatch

/-- Watched runs. -/
abbrev Rds.watched : Rds × RdWatch → RdEvent → Option (Rds × RdWatch) :=
  watch Rds.step fun s ev s' w => w.see s.pc ev s'.pc s'.buff

/-- A write request for the block. -/
def Rdbuff.WriteOf (blk : Nat) (b : Rdbuff) : Prop := b.rd_blknum = blk ∧ b.rd_op = .RD_OP_WRITE

instance (blk : Nat) (b : Rdbuff) : Decidable (b.WriteOf blk) := instDecidableAnd

/-- The condition: a read request goes out with the number of its block, behind it no other request
for the block is queued, a valid copy in the cache is used only when no write for the block is
queued, and a queued write is replaced only when it is the last one queued for its block. -/
def Careful (s : Rds) (ev : RdEvent) : Prop :=
  Orderly s ev ∧
    match ev with
    | .go p =>
      match s.pc p with
      | .begun (.read blk) => ∀ i,
        s.cb.find s.cb.rd_next (fun b => b.rd_blknum = blk) .ct (s.cb.rd_next .ch) = some (some i) →
        (s.cb.rd_buf i).rd_status = .RD_VALID →
        s.cb.find s.cb.rd_next (fun b => b.WriteOf blk) .rt (s.cb.rd_next .rh) = some none
      | .begun (.write blk _) =>
        s.cb.find s.cb.rd_next (fun b => b.WriteOf blk) .rt (s.cb.rd_next .rh) =
          s.cb.find s.cb.rd_prev (fun b => b.WriteOf blk) .rh (s.cb.rd_prev .rt)
      | _ => True
    | .process => ∀ i, s.stage = .reading i → s.msg_blk = (s.cb.rd_buf i).rd_blknum
    | .close => False
    | _ => True

/-! ## 2. Where the data of a block is

Data moves from the writer's buffer to the request queue, from there into the message of
`rdsprocess` and at the same time into the cache, and from the message to the server.  `replay`
goes through the queued writes of a block in order, starting from what the server has or is being
sent. -/

/-- What a buffer writes to the block. -/
def writes (buf : Fin RD_BUFFS → Rdbuff) (blk : Nat) (i : Fin RD_BUFFS) : Option RdBlock :=
  if (buf i).WriteOf blk then some (buf i).rd_block else none

/-- The first buffer of a list that holds the block. -/
def holder (buf : Fin RD_BUFFS → Rdbuff) (blk : Nat) (xs : List (Fin RD_BUFFS)) :
    Option (Fin RD_BUFFS) := xs.find? fun i => (buf i).rd_blknum = blk

/-- What the server has once it has executed what it is being sent. -/
def RdView.stored (v : RdView) : Nat → RdBlock :=
  match v.stage with
  | .writing => Function.update v.server v.msg_blk v.msg_data
  | _ => v.server

/-- Where the data of the blocks is, and what the readers have coming. -/
structure ReadInv (v : RdView) (w : RdWatch) : Prop where
  current : ∀ blk, replay (writes v.buf blk) (v.stored blk) v.Q = w.latest blk
  cached : ∀ blk i, holder v.buf blk v.C = some i → (v.buf i).rd_status = .RD_VALID →
    (∀ j ∈ v.Q, writes v.buf blk j = none) → (v.buf i).rd_block = w.latest blk
  unused : ∀ i ∈ v.C, (v.buf i).rd_status = .RD_VALID → (v.buf i).rd_refcnt ≤ 0
  invalid : ∀ i ∈ v.Q, (v.buf i).rd_op = .RD_OP_READ → (v.buf i).rd_status = .RD_INVALID
  queued : ∀ xs i, xs ++ [i] <+: v.Q → (v.buf i).rd_op = .RD_OP_READ →
    replay (writes v.buf (v.buf i).rd_blknum) (v.stored (v.buf i).rd_blknum) xs ∈
      w.seen (v.buf i).rd_pid
  told : ∀ i, v.stage = .told i → (v.buf i).rd_block ∈ w.seen (v.buf i).rd_pid
  mailed : ∀ p blk i, v.pc p = .receiving blk → v.mail p = some (.buffer i) →
    (v.buf i).rd_block ∈ w.seen p
  fresh : ∀ p blk, (v.pc p).reads = some blk → w.latest blk ∈ w.seen p
  answers : ∀ a ∈ w.answers, a.data ∈ a.seen

variable {v w' : RdView} {w : RdWatch} {buf buf' : Fin RD_BUFFS → Rdbuff} {blk p : Nat}
  {i j : Fin RD_BUFFS} {xs ys C' F' Q' : List (Fin RD_BUFFS)} {data : RdBlock} {avail : Gate Nat}
  {req : RdReq}

/-! ## 3. Data under updates

A change of one buffer changes what is replayed for its own block only, and a buffer that leaves a
list matters only if it was the first for its block. -/

theorem writes_self (h : (buf i).WriteOf blk) : writes buf blk i = some (buf i).rd_block := if_pos h

theorem writes_none (h : ¬ (buf i).WriteOf blk) : writes buf blk i = none := if_neg h

theorem writes_eq_none : writes buf blk i = none ↔ ¬ (buf i).WriteOf blk := by
  rw [writes]
  split_ifs with h <;> simp [h]

theorem writes_read (h : (buf i).rd_op = .RD_OP_READ) : writes buf blk i = none :=
  writes_none fun hw => absurd (h.symm.trans hw.2) nofun

theorem writes_sync (h : (buf i).rd_op = .RD_OP_SYNC) : writes buf blk i = none :=
  writes_none fun hw => absurd (h.symm.trans hw.2) nofun

/-- **Frame rule.** -/
theorem writes_congr (h : buf' i = buf i) : writes buf' blk i = writes buf blk i := by
  rw [writes, writes, h]

theorem holder_congr (h : ∀ j ∈ xs, (buf' j).rd_blknum = (buf j).rd_blknum) :
    holder buf' blk xs = holder buf blk xs :=
  List.find?_congr fun j hj => by rw [h j hj]

theorem holder_cons_self (h : (buf i).rd_blknum = blk) : holder buf blk (i :: xs) = some i := by
  rw [holder, List.find?_cons_of_pos (by simpa using h)]

theorem holder_cons_ne (h : (buf i).rd_blknum ≠ blk) :
    holder buf blk (i :: xs) = holder buf blk xs := by
  rw [holder, List.find?_cons_of_neg (by simpa using h)]
  rfl

/-- A buffer leaves the list, but not as the first that holds the block. -/
theorem holder_of_removed (h : holder buf blk (xs ++ ys) = some j)
    (hi : (buf i).rd_blknum = blk → ∃ k ∈ xs, (buf k).rd_blknum = blk) :
    holder buf blk (xs ++ i :: ys) = some j := by
  rw [holder, List.find?_append] at h ⊢
  cases hx : xs.find? fun k => decide ((buf k).rd_blknum = blk) with
  | some k =>
    rw [hx] at h
    exact h
  | none =>
    rw [hx] at h
    have hne : (buf i).rd_blknum ≠ blk := by
      intro he
      obtain ⟨k, hk, hkb⟩ := hi he
      exact absurd (List.find?_eq_none.mp hx k hk) (by simpa using hkb)
    rw [List.find?_cons_of_neg (by simpa using hne)]
    exact h

theorem mem_of_holder (h : holder buf blk xs = some i) : i ∈ xs ∧ (buf i).rd_blknum = blk :=
  ⟨List.mem_of_find?_eq_some h, of_decide_eq_true (List.find?_eq_some_iff_append.mp h).1⟩

namespace RdInv

/-- The process that a queued read or a buffer about to be announced is for. -/
theorem reader (h : RdInv v) (hi : i ∈ v.Q) (hop : (v.buf i).rd_op = .RD_OP_READ) :
    v.pc (v.buf i).rd_pid = .receiving (v.buf i).rd_blknum := by
  have hpend : v.Pending i :=
    .inl ⟨hi, by rw [hop]; nofun, fun hst => absurd (hop.symm.trans (h.synced i hst).2) nofun⟩
  rw [(h.pending i hpend).2, RdView.awaited, if_pos hop]

theorem told_reader (h : RdInv v) (hst : v.stage = .told i) :
    v.pc (v.buf i).rd_pid = .receiving (v.buf i).rd_blknum := by
  rw [(h.pending i (.inr hst)).2, RdView.awaited, if_pos (h.told i hst).2.2]

end RdInv

namespace ReadInv

/-! ## 4. Steps that leave the data where it is

Processes come and go, messages are passed and the server executes what it was sent.  None of this
changes where the newest data is. -/

/-- Only the lists, the buffers, the stage and the server, and who waits for what, matter. -/
theorem congr (h : ReadInv v w) (hQ : w'.Q = v.Q) (hC : w'.C = v.C) (hbuf : w'.buf = v.buf)
    (hstored : w'.stored = v.stored) (htold : ∀ i, w'.stage = .told i → v.stage = .told i)
    (hmail : ∀ p blk i, w'.pc p = .receiving blk → w'.mail p = some (.buffer i) →
      (v.buf i).rd_block ∈ w.seen p)
    (hfresh : ∀ p blk, (w'.pc p).reads = some blk → w.latest blk ∈ w.seen p) : ReadInv w' w where
  current := by rw [hQ, hbuf, hstored]; exact h.current
  cached := by rw [hQ, hC, hbuf]; exact h.cached
  unused := by rw [hC, hbuf]; exact h.unused
  invalid := by rw [hQ, hbuf]; exact h.invalid
  queued := by rw [hQ, hbuf, hstored]; exact h.queued
  told := by rw [hbuf]; exact fun i hi => h.told i (htold i hi)
  mailed := by rw [hbuf]; exact hmail
  fresh := hfresh
  answers := h.answers

/-- A process that does not read goes where it does not read either. -/
theorem setPc (h : ReadInv v w) {c : RdPc}
    (hc : ∀ blk, c.reads = some blk → w.latest blk ∈ w.seen p)
    (hr : ∀ blk, c ≠ .receiving blk) : ReadInv (v.setPc p c) w := by
  refine h.congr rfl rfl rfl rfl (fun i hi => hi) (fun q blk i hq hm => ?_) fun q blk hq => ?_
  · have hq : Function.update v.pc p c q = .receiving blk := hq
    by_cases hqp : q = p
    · rw [hqp, Function.update_self] at hq
      exact absurd hq (hr blk)
    · rw [Function.update_of_ne hqp] at hq
      exact h.mailed q blk i hq hm
  · have hq : (Function.update v.pc p c q).reads = some blk := hq
    by_cases hqp : q = p
    · rw [hqp, Function.update_self] at hq
      rw [hqp]
      exact hc blk hq
    · rw [Function.update_of_ne hqp] at hq
      exact h.fresh q blk hq

/-- What the observer remembers of a process that is not reading does not matter. -/
theorem begin (h : ReadInv v w) (hi : RdInv v) (hp : v.pc p = .idle) :
    ReadInv v (w.begin p blk) := by
  have hother : ∀ q, v.pc q ≠ .idle → (w.begin p blk).seen q = w.seen q := by
    intro q hq
    refine Function.update_of_ne (fun hqp => hq ?_) ..
    rw [hqp, hp]
  refine ⟨h.current, h.cached, h.unused, h.invalid, fun xs i hx hop => ?_, fun i hst => ?_,
    fun q b i hq hm => ?_, fun q b hq => ?_, h.answers⟩
  · have hmem : i ∈ v.Q := hx.subset (by simp)
    rw [hother _ (by rw [hi.reader hmem hop]; nofun)]
    exact h.queued xs i hx hop
  · rw [hother _ (by rw [hi.told_reader hst]; nofun)]
    exact h.told i hst
  · rw [hother _ (by rw [hq]; nofun)]
    exact h.mailed q b i hq hm
  · rw [hother _ (by rintro hidle; rw [hidle] at hq; exact absurd hq nofun)]
    exact h.fresh q b hq

/-- **A read returns.** -/
theorem answer (h : ReadInv v w) (hd : data ∈ w.seen p) : ReadInv v (w.answer p blk data) := by
  refine ⟨h.current, h.cached, h.unused, h.invalid, h.queued, h.told, h.mailed, h.fresh, ?_⟩
  intro a ha
  rcases List.mem_cons.mp ha with rfl | ha
  · exact hd
  · exact h.answers a ha

/-- The messages and the stage change; nobody is told anything. -/
theorem quiet (h : ReadInv v w) (mail : Nat → Option RdMsg) (st : RdStage) (r : Gate Unit)
    (hmail : ∀ p i, mail p = some (.buffer i) → v.mail p = some (.buffer i))
    (hold : v.stage ≠ .writing) (hst : st ≠ .writing ∧ ∀ i, st ≠ .told i) :
    ReadInv { v with mail := mail, stage := st, req := r } w := by
  refine h.congr rfl rfl rfl ?_ (fun i hi => absurd hi (hst.2 i))
    (fun q b i hq hm => h.mailed q b i hq (hmail q i hm)) h.fresh
  have h1 : v.stored = v.server := by
    rw [RdView.stored]
    split
    · next he => exact absurd he hold
    · rfl
  rw [h1, RdView.stored]
  split
  · next he => exact absurd he hst.1
  · rfl

/-- The server has executed a write. -/
theorem written (h : ReadInv v w) (hst : v.stage = .writing) :
    ReadInv { v with
      server := Function.update v.server v.msg_blk v.msg_data, stage := .top } w := by
  refine h.congr rfl rfl rfl ?_ (fun i hi => absurd hi nofun) h.mailed h.fresh
  rw [RdView.stored, RdView.stored, hst]

/-! ## 5. `rdsprocess`

A write goes out: it leaves the queue, and from then on counts as stored.  The answer to a read
arrives: it is what the block holds by the writes in front of it in the queue, of which there are
none. -/

theorem stored_eq_server (hst : v.stage ≠ .writing) : v.stored = v.server := by
  rw [RdView.stored]
  split
  · next he => exact absurd he hst
  · rfl

/-- **A write goes out**: what it writes is what the server will have, and the valid copy is in
front of the cache. -/
theorem takeWrite (h : ReadInv v w) (hst : v.stage = .take) (hQ : v.Q = i :: Q')
    (hop : (v.buf i).rd_op = .RD_OP_WRITE) :
    ReadInv { v with
      Q := Q', C := i :: v.C, avail := avail, stage := .writing
      buf := Function.update v.buf i { v.buf i with rd_refcnt := 0 }
      msg_blk := (v.buf i).rd_blknum, msg_data := (v.buf i).rd_block } w := by
  have hb : ∀ j, Function.update v.buf i { v.buf i with rd_refcnt := 0 } j =
      { v.buf j with rd_refcnt :=
        (Function.update v.buf i { v.buf i with rd_refcnt := 0 } j).rd_refcnt } := by
    intro j
    by_cases hj : j = i
    · rw [hj, Function.update_self]
    · rw [Function.update_of_ne hj]
  have hw : ∀ b, writes (Function.update v.buf i { v.buf i with rd_refcnt := 0 }) b =
      writes v.buf b := by
    intro b
    funext j
    rw [writes, hb]
    rfl
  have hholder : ∀ b xs, holder (Function.update v.buf i { v.buf i with rd_refcnt := 0 }) b xs =
      holder v.buf b xs := fun b xs => holder_congr fun k _ => by rw [hb k]
  have hserver : v.stored = v.server := stored_eq_server (by rw [hst]; nofun)
  -- the write leaves the queue and is what the server will have
  have hstored : ∀ b, Function.update v.server (v.buf i).rd_blknum (v.buf i).rd_block b =
      (writes v.buf b i).getD (v.stored b) := by
    intro b
    rw [hserver]
    by_cases hbi : (v.buf i).rd_blknum = b
    · rw [writes_self ⟨hbi, hop⟩, ← hbi, Function.update_self]
      rfl
    · rw [writes_none fun hwr => hbi hwr.1, Function.update_of_ne (Ne.symm hbi)]
      rfl
  refine ⟨fun b => ?_, fun b j hj hv hn => ?_, fun j hj hv => ?_, fun j hj hjop => ?_,
    fun xs j hx hjop => ?_, nofun, fun q b j hq hm => ?_, h.fresh, h.answers⟩
  · show replay (writes (Function.update v.buf i _) b) (Function.update v.server _ _ b) Q' = _
    rw [hw, hstored, ← replay_cons, ← hQ]
    exact h.current b
  · have hn : ∀ k ∈ Q', writes v.buf b k = none := by
      intro k hk
      rw [← hw]
      exact hn k hk
    have hj : holder (Function.update v.buf i _) b (i :: v.C) = some j := hj
    have hv : (Function.update v.buf i _ j).rd_status = .RD_VALID := hv
    rw [hholder] at hj
    rw [hb] at hv
    show (Function.update v.buf i _ j).rd_block = _
    rw [hb]
    by_cases hbi : (v.buf i).rd_blknum = b
    · rw [holder_cons_self hbi] at hj
      obtain rfl := Option.some.inj hj
      rw [← h.current b, hQ, replay_cons, writes_self ⟨hbi, hop⟩, replay_none hn]
      rfl
    · rw [holder_cons_ne hbi] at hj
      refine h.cached b j hj hv ?_
      rw [hQ]
      rintro k hk
      rcases List.mem_cons.mp hk with rfl | hk
      · exact writes_none fun hwr => hbi hwr.1
      · exact hn k hk
  · show (Function.update v.buf i _ j).rd_refcnt ≤ 0
    by_cases hji : j = i
    · rw [hji, Function.update_self]
    · have hv : (Function.update v.buf i _ j).rd_status = .RD_VALID := hv
      rw [Function.update_of_ne hji] at hv ⊢
      exact h.unused j ((List.mem_cons.mp hj).resolve_left hji) hv
  · dsimp only at hjop ⊢
    rw [hb] at hjop ⊢
    exact h.invalid j (by rw [hQ]; exact List.mem_cons_of_mem _ hj) hjop
  · dsimp only at hjop
    show replay (writes (Function.update v.buf i _) (Function.update v.buf i _ j).rd_blknum)
      (Function.update v.server _ _ (Function.update v.buf i _ j).rd_blknum) xs ∈
        w.seen (Function.update v.buf i _ j).rd_pid
    rw [hb] at hjop ⊢
    rw [hw, hstored, ← replay_cons]
    exact h.queued (i :: xs) j (by rw [hQ]; exact List.cons_prefix_cons.mpr ⟨rfl, hx⟩) hjop
  · dsimp only
    rw [hb]
    exact h.mailed q b j hq hm

/-- **The server's answer** is what the reads of the block in front of the queue have coming. -/
theorem respond (h : ReadInv v w) (hi : RdInv v) (hst : v.stage = .reading i) (hQ : v.Q = i :: Q')
    (hQC : ∀ j ∈ v.Q, j ∉ v.C) (hblk : v.msg_blk = (v.buf i).rd_blknum) :
    ReadInv { v with
      Q := Q', C := i :: v.C, avail := avail, stage := .told i
      buf := Function.update v.buf i
        { v.buf i with rd_block := v.server v.msg_blk, rd_refcnt := 1 } } w := by
  have hop := (hi.reading i hst).2
  have hiC : i ∉ v.C := hQC i (by rw [hQ]; simp)
  have hiQ : i ∈ v.Q := by rw [hQ]; simp
  have hother : ∀ j, j ≠ i → Function.update v.buf i
      { v.buf i with rd_block := v.server v.msg_blk, rd_refcnt := 1 } j = v.buf j :=
    fun j hj => Function.update_of_ne hj ..
  have hself : Function.update v.buf i
      { v.buf i with rd_block := v.server v.msg_blk, rd_refcnt := 1 } i =
        { v.buf i with rd_block := v.server v.msg_blk, rd_refcnt := 1 } := Function.update_self ..
  have hkeys : ∀ j, (Function.update v.buf i
      { v.buf i with rd_block := v.server v.msg_blk, rd_refcnt := 1 } j).rd_blknum =
        (v.buf j).rd_blknum ∧ (Function.update v.buf i
      { v.buf i with rd_block := v.server v.msg_blk, rd_refcnt := 1 } j).rd_op =
        (v.buf j).rd_op ∧ (Function.update v.buf i
      { v.buf i with rd_block := v.server v.msg_blk, rd_refcnt := 1 } j).rd_status =
        (v.buf j).rd_status ∧ (Function.update v.buf i
      { v.buf i with rd_block := v.server v.msg_blk, rd_refcnt := 1 } j).rd_pid =
        (v.buf j).rd_pid := by
    intro j
    by_cases hj : j = i
    · rw [hj, hself]
      exact ⟨rfl, rfl, rfl, rfl⟩
    · rw [hother j hj]
      exact ⟨rfl, rfl, rfl, rfl⟩
  have hw : ∀ b, writes (Function.update v.buf i
      { v.buf i with rd_block := v.server v.msg_blk, rd_refcnt := 1 }) b = writes v.buf b := by
    intro b
    funext j
    by_cases hj : j = i
    · rw [hj, writes_read hop, writes_read (by rw [hself]; exact hop)]
    · exact writes_congr (hother j hj)
  have hserver : v.stored = v.server := stored_eq_server (by rw [hst]; nofun)
  have hnone : ∀ b, writes v.buf b i = none := fun b => writes_read hop
  refine ⟨fun b => ?_, fun b j hj hv hn => ?_, fun j hj hv => ?_, fun j hj hjop => ?_,
    fun xs j hx hjop => ?_, fun j hj => ?_, fun q b j hq hm => ?_, h.fresh, h.answers⟩
  · show replay (writes (Function.update v.buf i _) b) (v.server b) Q' = _
    rw [hw, ← hserver, ← h.current b, hQ, replay_cons, hnone]
    rfl
  · have hj : holder (Function.update v.buf i _) b (i :: v.C) = some j := hj
    have hv : (Function.update v.buf i _ j).rd_status = .RD_VALID := hv
    rw [holder_congr fun k _ => (hkeys k).1] at hj
    rw [(hkeys j).2.2.1] at hv
    by_cases hbi : (v.buf i).rd_blknum = b
    · rw [holder_cons_self hbi] at hj
      rw [← Option.some.inj hj, h.invalid i hiQ hop] at hv
      exact absurd hv nofun
    · rw [holder_cons_ne hbi] at hj
      show (Function.update v.buf i _ j).rd_block = _
      rw [hother j fun hji => hiC (hji ▸ (mem_of_holder hj).1)]
      refine h.cached b j hj hv ?_
      rw [hQ]
      rintro k hk
      rcases List.mem_cons.mp hk with rfl | hk
      · exact hnone b
      · rw [← hw]
        exact hn k hk
  · have hv : (Function.update v.buf i _ j).rd_status = .RD_VALID := hv
    rw [(hkeys j).2.2.1] at hv
    have hji : j ≠ i := by
      intro he
      rw [he, h.invalid i hiQ hop] at hv
      exact absurd hv nofun
    show (Function.update v.buf i _ j).rd_refcnt ≤ 0
    rw [hother j hji]
    exact h.unused j ((List.mem_cons.mp hj).resolve_left hji) hv
  · have hjop : (Function.update v.buf i _ j).rd_op = .RD_OP_READ := hjop
    show (Function.update v.buf i _ j).rd_status = _
    rw [(hkeys j).2.1] at hjop
    rw [(hkeys j).2.2.1]
    exact h.invalid j (by rw [hQ]; exact List.mem_cons_of_mem _ hj) hjop
  · have hjop : (Function.update v.buf i _ j).rd_op = .RD_OP_READ := hjop
    show replay (writes (Function.update v.buf i _) (Function.update v.buf i _ j).rd_blknum)
      (v.server (Function.update v.buf i _ j).rd_blknum) xs ∈
        w.seen (Function.update v.buf i _ j).rd_pid
    rw [(hkeys j).2.1] at hjop
    rw [(hkeys j).1, (hkeys j).2.2.2, hw, ← hserver]
    have hx' := h.queued (i :: xs) j (by rw [hQ]; exact List.cons_prefix_cons.mpr ⟨rfl, hx⟩) hjop
    rw [replay_cons, hnone] at hx'
    exact hx'
  · obtain rfl := RdStage.told.inj hj
    show (Function.update v.buf i _ i).rd_block ∈ w.seen (Function.update v.buf i _ i).rd_pid
    rw [hself, hblk, ← hserver]
    exact h.queued [] i (by rw [hQ]; exact List.cons_prefix_cons.mpr ⟨rfl, List.nil_prefix⟩) hop
  · have hji : j ≠ i := fun he => hiC (he ▸ (hi.mailed q b j hq hm).1)
    show (Function.update v.buf i _ j).rd_block ∈ _
    rw [hother j hji]
    exact h.mailed q b j hq hm

/-- The reader is told. -/
theorem tell (h : ReadInv v w) (hi : RdInv v) (hst : v.stage = .told i) :
    ReadInv { v.send (v.buf i).rd_pid (.buffer i) with stage := .scan i } w := by
  have hsend : v.send (v.buf i).rd_pid (.buffer i) =
      { v with mail := Function.update v.mail (v.buf i).rd_pid (some (.buffer i)) } := by
    rw [RdView.send, (hi.pending i (.inr hst)).1]
    rfl
  rw [hsend]
  refine h.congr rfl rfl rfl ?_ (fun j hj => by cases hj) (fun q b j hq hm => ?_) h.fresh
  · rw [stored_eq_server (v := v) (by rw [hst]; simp)]
    rfl
  · have hm : Function.update v.mail (v.buf i).rd_pid (some (.buffer i)) q = some (.buffer j) := hm
    by_cases hqp : q = (v.buf i).rd_pid
    · rw [hqp, Function.update_self] at hm
      obtain rfl := RdMsg.buffer.inj (Option.some.inj hm)
      rw [hqp]
      exact h.told i hst
    · rw [Function.update_of_ne hqp] at hm
      exact h.mailed q b j hq hm

/-- A synchronization leaves the queue. -/
theorem synced (h : ReadInv v w) (hi : RdInv v) (hst : v.stage = .synced i) (hQ : v.Q = i :: Q') :
    ReadInv { v with Q := Q', F := F', avail := avail, stage := .top } w := by
  have hserver : v.stored = v.server := stored_eq_server (by rw [hst]; nofun)
  have hnone : ∀ b, writes v.buf b i = none := fun b => writes_sync (hi.synced i hst).2
  refine ⟨fun b => ?_, fun b j hj hv hn => ?_, h.unused, fun j hj => ?_, fun xs j hx hop => ?_,
    nofun, h.mailed, h.fresh, h.answers⟩
  · show replay (writes v.buf b) (v.server b) Q' = _
    rw [← h.current b, hQ, replay_cons, hnone, hserver]
    rfl
  · refine h.cached b j hj hv ?_
    rw [hQ]
    rintro k hk
    rcases List.mem_cons.mp hk with rfl | hk
    · exact hnone b
    · exact hn k hk
  · exact h.invalid j (by rw [hQ]; exact List.mem_cons_of_mem _ hj)
  · have hx' := h.queued (i :: xs) j (by rw [hQ]; exact List.cons_prefix_cons.mpr ⟨rfl, hx⟩) hop
    rw [replay_cons, hnone, hserver] at hx'
    exact hx'

/-! ## 6. Calls

A call puts a request at the end of the queue, replaces a queued write, or takes a buffer from the
cache.  The last does not lose data, because a valid copy in the cache is on the server or on its
way there. -/

/-- The cache loses buffers, but none behind which there is a valid copy of its block. -/
def Shrinks (v : RdView) (C' : List (Fin RD_BUFFS)) : Prop :=
  (∀ j ∈ C', j ∈ v.C) ∧ ∀ blk j, holder v.buf blk C' = some j → (v.buf j).rd_status = .RD_VALID →
    holder v.buf blk v.C = some j

/-- A reader drops its reference to a buffer, which may leave the cache. -/
theorem recount (h : ReadInv v w) (C' F' : List (Fin RD_BUFFS)) {n : Int}
    (hn : n ≤ (v.buf i).rd_refcnt) (hC : Shrinks v C') :
    ReadInv { v with
      buf := Function.update v.buf i { v.buf i with rd_refcnt := n }, C := C', F := F' } w := by
  have hb : ∀ j, Function.update v.buf i { v.buf i with rd_refcnt := n } j =
      { v.buf j with rd_refcnt :=
        (Function.update v.buf i { v.buf i with rd_refcnt := n } j).rd_refcnt } := by
    intro j
    by_cases hj : j = i
    · rw [hj, Function.update_self]
    · rw [Function.update_of_ne hj]
  have hw : ∀ b, writes (Function.update v.buf i { v.buf i with rd_refcnt := n }) b =
      writes v.buf b := by
    intro b
    funext j
    rw [writes, hb]
    rfl
  have hholder : ∀ b xs, holder (Function.update v.buf i { v.buf i with rd_refcnt := n }) b xs =
      holder v.buf b xs := fun b xs => holder_congr fun k _ => by rw [hb k]
  refine ⟨fun b => ?_, fun b j hj hv hnone => ?_, fun j hj hv => ?_, fun j hj hop => ?_,
    fun xs j hx hop => ?_, fun j hj => ?_, fun q b j hq hm => ?_, h.fresh, h.answers⟩
  · show replay (writes (Function.update v.buf i _) b) (v.stored b) v.Q = _
    rw [hw]
    exact h.current b
  · have hj : holder (Function.update v.buf i _) b C' = some j := hj
    have hv : (Function.update v.buf i _ j).rd_status = .RD_VALID := hv
    rw [hholder] at hj
    rw [hb] at hv
    show (Function.update v.buf i _ j).rd_block = _
    rw [hb]
    refine h.cached b j (hC.2 b j hj hv) hv fun k hk => ?_
    rw [← hw]
    exact hnone k hk
  · have hv : (Function.update v.buf i _ j).rd_status = .RD_VALID := hv
    rw [hb] at hv
    have hle := h.unused j (hC.1 j hj) hv
    show (Function.update v.buf i _ j).rd_refcnt ≤ 0
    by_cases hji : j = i
    · rw [hji, Function.update_self]
      rw [hji] at hle
      exact hn.trans hle
    · rw [Function.update_of_ne hji]
      exact hle
  · dsimp only at hop ⊢
    rw [hb] at hop ⊢
    exact h.invalid j hj hop
  · dsimp only at hop
    show replay (writes (Function.update v.buf i _) (Function.update v.buf i _ j).rd_blknum)
      (v.stored (Function.update v.buf i _ j).rd_blknum) xs ∈
        w.seen (Function.update v.buf i _ j).rd_pid
    rw [hb] at hop ⊢
    rw [hw]
    exact h.queued xs j hx hop
  · dsimp only
    rw [hb]
    exact h.told j hj
  · dsimp only
    rw [hb]
    exact h.mailed q b j hq hm

/-- A process receives its message and goes on. -/
theorem receive (h : ReadInv v w) :
    ReadInv { v.setPc p .idle with mail := Function.update v.mail p none } w := by
  refine (h.setPc (p := p) (c := .idle) nofun nofun).congr rfl rfl rfl rfl (fun i hi => hi)
    (fun q b i hq hm => ?_) (h.setPc (p := p) (c := .idle) nofun nofun).fresh
  have hm : Function.update v.mail p none q = some (.buffer i) := hm
  by_cases hqp : q = p
  · rw [hqp, Function.update_self] at hm
    exact absurd hm nofun
  · rw [Function.update_of_ne hqp] at hm
    exact (h.setPc (p := p) (c := .idle) nofun nofun).mailed q b i hq hm

/-- What was seen stays seen when a write is accepted. -/
theorem seen_accept {pc : Nat → RdPc} {q : Nat} {d : RdBlock} (hd : d ∈ w.seen q) :
    d ∈ (w.accept pc blk data).seen q := by
  show d ∈ if (pc q).reads = some blk then data :: w.seen q else w.seen q
  split_ifs
  · exact List.mem_cons_of_mem _ hd
  · exact hd

/-- Who reads the block sees the write. -/
theorem data_accept {pc : Nat → RdPc} {q : Nat} (hq : (pc q).reads = some blk) :
    data ∈ (w.accept pc blk data).seen q := by
  show data ∈ if (pc q).reads = some blk then data :: w.seen q else w.seen q
  rw [if_pos hq]
  simp

/-- The readers see what is accepted, and the writer is not one of them. -/
theorem fresh_accept (h : ReadInv v w) {c : RdPc} (hc : c.reads = none) (q b : Nat)
    (hq : (Function.update v.pc p c q).reads = some b) :
    (w.accept v.pc blk data).latest b ∈ (w.accept v.pc blk data).seen q := by
  have hqp : q ≠ p := by
    rintro rfl
    rw [Function.update_self, hc] at hq
    exact absurd hq nofun
  rw [Function.update_of_ne hqp] at hq
  show Function.update w.latest blk data b ∈ _
  by_cases hb : b = blk
  · rw [hb, Function.update_self]
    exact data_accept (hb ▸ hq)
  · rw [Function.update_of_ne hb]
    exact seen_accept (h.fresh q b hq)

/-- **A write replaces the contents of the only queued write** for its block. -/
theorem replace (h : ReadInv v w) (hi : RdInv v) (hiQ : i ∈ v.Q) (hnd : v.Q.Nodup)
    (hQC : ∀ j ∈ v.Q, j ∉ v.C) (hwr : (v.buf i).WriteOf blk)
    (honly : ∀ j ∈ v.Q, j ≠ i → ¬ (v.buf j).WriteOf blk) :
    ReadInv { v.setPc p .idle with
      buf := Function.update v.buf i { v.buf i with rd_block := data } }
      (w.accept v.pc blk data) := by
  have hother : ∀ j, j ≠ i →
      Function.update v.buf i { v.buf i with rd_block := data } j = v.buf j :=
    fun j hj => Function.update_of_ne hj ..
  have hiC : i ∉ v.C := hQC i hiQ
  have hb : ∀ j, Function.update v.buf i { v.buf i with rd_block := data } j =
      { v.buf j with rd_block :=
        (Function.update v.buf i { v.buf i with rd_block := data } j).rd_block } := by
    intro j
    by_cases hj : j = i
    · rw [hj, Function.update_self]
    · rw [hother j hj]
  have hholder : ∀ b xs, holder (Function.update v.buf i { v.buf i with rd_block := data }) b xs =
      holder v.buf b xs := fun b xs => holder_congr fun k _ => by rw [hb k]
  have hself : writes (Function.update v.buf i { v.buf i with rd_block := data }) blk i =
      some data := by
    rw [writes, Function.update_self]
    exact if_pos hwr
  have hw : ∀ b, b ≠ blk → writes (Function.update v.buf i { v.buf i with rd_block := data }) b =
      writes v.buf b := by
    intro b hbb
    funext j
    by_cases hj : j = i
    · subst hj
      have hne : ¬ (v.buf j).WriteOf b := fun he => hbb (he.1.symm.trans hwr.1)
      rw [writes_none hne]
      refine writes_none ?_
      rw [Function.update_self]
      exact hne
    · exact writes_congr (hother j hj)
  have hnone : ∀ j ∈ v.Q, j ≠ i →
      writes (Function.update v.buf i { v.buf i with rd_block := data }) blk j = none := by
    intro j hj hji
    rw [writes_congr (hother j hji)]
    exact writes_none (honly j hj hji)
  have hread : ∀ j, (v.buf j).rd_op = .RD_OP_READ → j ≠ i := by
    rintro j hop rfl
    exact absurd (hop.symm.trans hwr.2) nofun
  refine ⟨fun b => ?_, fun b j hj hv hn => ?_, fun j hj hv => ?_, fun j hj hop => ?_,
    fun xs j hx hop => ?_, fun j hj => ?_, fun q b j hq hm => ?_,
    h.fresh_accept rfl, h.answers⟩
  · show replay (writes (Function.update v.buf i _) b) (v.stored b) v.Q =
      Function.update w.latest blk data b
    by_cases hbb : b = blk
    · subst hbb
      obtain ⟨Q₁, Q₂, hQ⟩ := List.append_of_mem hiQ
      rw [hQ] at hnd hnone
      have hi2 : i ∉ Q₂ := (List.nodup_cons.mp (List.nodup_append.mp hnd).2.1).1
      rw [hQ, Function.update_self]
      refine replay_last hself fun j hj => hnone j (by simp [hj]) ?_
      exact fun he => hi2 (he ▸ hj)
    · rw [hw b hbb, Function.update_of_ne hbb]
      exact h.current b
  · have hj : holder (Function.update v.buf i _) b v.C = some j := hj
    have hv : (Function.update v.buf i _ j).rd_status = .RD_VALID := hv
    rw [hholder] at hj
    rw [hb] at hv
    have hbb : b ≠ blk := by
      rintro rfl
      exact absurd (hself.symm.trans (hn i hiQ)) nofun
    show (Function.update v.buf i _ j).rd_block = Function.update w.latest blk data b
    rw [hother j fun he => hiC (he ▸ (mem_of_holder hj).1), Function.update_of_ne hbb]
    refine h.cached b j hj hv fun k hk => ?_
    rw [← hw b hbb]
    exact hn k hk
  · dsimp only at hv ⊢
    rw [hb] at hv ⊢
    exact h.unused j hj hv
  · dsimp only at hop ⊢
    rw [hb] at hop ⊢
    exact h.invalid j hj hop
  · have hop : (Function.update v.buf i _ j).rd_op = .RD_OP_READ := hop
    rw [hb] at hop
    have hji := hread j hop
    have hjQ : j ∈ v.Q := hx.subset (by simp)
    show replay (writes (Function.update v.buf i _) (Function.update v.buf i _ j).rd_blknum)
      (v.stored (Function.update v.buf i _ j).rd_blknum) xs ∈
        (w.accept v.pc blk data).seen (Function.update v.buf i _ j).rd_pid
    rw [hother j hji]
    by_cases hbb : (v.buf j).rd_blknum = blk
    · by_cases hix : i ∈ xs
      · -- the reader's own write in front of it has changed, and the reader sees the new one
        obtain ⟨ys, zs, rfl⟩ := List.append_of_mem hix
        have hxs : (ys ++ i :: zs).Nodup :=
          (List.IsPrefix.sublist ((List.prefix_append _ _).trans hx)).nodup hnd
        have hzs : i ∉ zs := (List.nodup_cons.mp (List.nodup_append.mp hxs).2.1).1
        rw [hbb, replay_last hself fun k hk =>
          hnone k (hx.subset (by simp [hk])) fun he => hzs (he ▸ hk)]
        refine data_accept ?_
        rw [hi.reader hjQ hop, hbb]
        rfl
      · refine seen_accept ?_
        rw [replay_congr fun k hk => writes_congr (hother k fun he => hix (he ▸ hk))]
        exact h.queued xs j hx hop
    · rw [hw _ hbb]
      exact seen_accept (h.queued xs j hx hop)
  · have hji : j ≠ i := fun he => hiC (he ▸ (hi.told j hj).1)
    show (Function.update v.buf i _ j).rd_block ∈
      (w.accept v.pc blk data).seen (Function.update v.buf i _ j).rd_pid
    rw [hother j hji]
    exact seen_accept (h.told j hj)
  · have hq : Function.update v.pc p .idle q = .receiving b := hq
    have hqp : q ≠ p := by
      rintro rfl
      rw [Function.update_self] at hq
      exact absurd hq nofun
    rw [Function.update_of_ne hqp] at hq
    have hji : j ≠ i := fun he => hiC (he ▸ (hi.mailed q b j hq hm).1)
    show (Function.update v.buf i _ j).rd_block ∈ (w.accept v.pc blk data).seen q
    rw [hother j hji]
    exact seen_accept (h.mailed q b j hq hm)

theorem seen_queue {pc : Nat → RdPc} {q : Nat} {d : RdBlock} (hd : d ∈ w.seen q) :
    d ∈ (w.queue pc req).seen q := by
  cases req with
  | write blk data => exact seen_accept hd
  | read _ | sync => exact hd

/-- **A request is queued**, with a buffer that is neither queued nor referred to. -/
theorem enqueue (h : ReadInv v w) (hi : RdInv v)
    (hreq : ∀ blk, req = .read blk → (v.pc p).reads = some blk) (hiQ : i ∉ v.Q)
    (hiC : i ∈ v.C → (v.buf i).rd_refcnt ≤ 0) (hC : ∀ j ∈ C', j ∈ v.C ∧ j ≠ i)
    (hold : ∀ b j, holder v.buf b C' = some j → (v.buf j).rd_status = .RD_VALID →
      holder v.buf b v.C = some j ∨ ∃ d, req = .write b d) :
    ReadInv ({ v with C := C', F := F', avail := avail }.enqueue p req i) (w.queue v.pc req) := by
  have hother : ∀ j, j ≠ i →
      Function.update v.buf i (Rds.request p (v.buf i) req) j = v.buf j :=
    fun j hj => Function.update_of_ne hj ..
  have hself : Function.update v.buf i (Rds.request p (v.buf i) req) i =
      Rds.request p (v.buf i) req := Function.update_self ..
  have hQi : ∀ j ∈ v.Q, j ≠ i := fun j hj he => hiQ (he ▸ hj)
  have hw : ∀ b, ∀ j ∈ v.Q,
      writes (Function.update v.buf i (Rds.request p (v.buf i) req)) b j = writes v.buf b j :=
    fun b j hj => writes_congr (hother j (hQi j hj))
  have hholder : ∀ b, holder (Function.update v.buf i (Rds.request p (v.buf i) req)) b C' =
      holder v.buf b C' := fun b => holder_congr fun k hk => by rw [hother k (hC k hk).2]
  -- a buffer that somebody refers to is another one
  have href : ∀ j ∈ v.C, (v.buf j).rd_refcnt = 1 → j ≠ i := by
    rintro j hj h1 rfl
    have hle := hiC hj
    rw [h1] at hle
    exact absurd hle (by decide)
  have hlatest : ∀ b, (w.queue v.pc req).latest b =
      (writes (Function.update v.buf i (Rds.request p (v.buf i) req)) b i).getD (w.latest b) := by
    intro b
    cases req with
    | read blk =>
      rw [writes_read (by rw [hself]; rfl)]
      rfl
    | sync =>
      rw [writes_sync (by rw [hself]; rfl)]
      rfl
    | write blk data =>
      show Function.update w.latest blk data b = _
      by_cases hb : b = blk
      · rw [hb, Function.update_self, writes_self (by rw [hself]; exact ⟨rfl, rfl⟩), hself]
        rfl
      · rw [Function.update_of_ne hb, writes_none]
        · rfl
        · rw [hself]
          exact fun he => hb he.1.symm
  refine ⟨fun b => ?_, fun b j hj hv hn => ?_, fun j hj hv => ?_, fun j hj hop => ?_,
    fun xs j hx hop => ?_, fun j hj => ?_, fun q b j hq hm => ?_, fun q b hq => ?_, ?_⟩
  · show replay (writes (Function.update v.buf i _) b) (v.stored b) (v.Q ++ [i]) = _
    rw [replay_append, replay_congr (hw b), h.current b, hlatest]
    rfl
  · have hj : holder (Function.update v.buf i _) b C' = some j := hj
    have hv : (Function.update v.buf i _ j).rd_status = .RD_VALID := hv
    have hn : ∀ k ∈ v.Q ++ [i], writes (Function.update v.buf i _) b k = none := hn
    rw [hholder] at hj
    have hji := (hC j (mem_of_holder hj).1).2
    rw [hother j hji] at hv
    show (Function.update v.buf i _ j).rd_block = _
    rw [hother j hji, hlatest, hn i (by simp)]
    rcases hold b j hj hv with hj | ⟨d, rfl⟩
    · refine h.cached b j hj hv fun k hk => ?_
      rw [← hw b k hk]
      exact hn k (by simp [hk])
    · have hni := hn i (by simp)
      rw [writes_eq_none, hself] at hni
      exact absurd ⟨rfl, rfl⟩ hni
  · obtain ⟨hjC, hji⟩ := hC j hj
    dsimp only [RdView.enqueue] at hv ⊢
    rw [hother j hji] at hv ⊢
    exact h.unused j hjC hv
  · dsimp only [RdView.enqueue] at hop ⊢
    rcases List.mem_append.mp hj with hj | hj
    · rw [hother j (hQi j hj)] at hop ⊢
      exact h.invalid j hj hop
    · obtain rfl := List.mem_singleton.mp hj
      rw [hself] at hop ⊢
      cases req with
      | read blk => rfl
      | write blk data => exact absurd hop nofun
      | sync => rfl
  · have hop : (Function.update v.buf i _ j).rd_op = .RD_OP_READ := hop
    show replay (writes (Function.update v.buf i _) (Function.update v.buf i _ j).rd_blknum)
      (v.stored (Function.update v.buf i _ j).rd_blknum) xs ∈
        (w.queue v.pc req).seen (Function.update v.buf i _ j).rd_pid
    rcases List.prefix_concat_iff.mp hx with hx | hx
    · -- the new request has all the others in front of it
      obtain ⟨rfl, hji⟩ := List.append_inj' hx rfl
      obtain rfl := List.singleton_inj.mp hji
      rw [hself] at hop ⊢
      cases req with
      | read blk =>
        show replay (writes _ blk) (v.stored blk) v.Q ∈ w.seen p
        rw [replay_congr (hw blk), h.current blk]
        exact h.fresh p blk (hreq blk rfl)
      | write blk data => exact absurd hop nofun
      | sync => exact absurd hop nofun
    · have hjQ : j ∈ v.Q := hx.subset (by simp)
      rw [hother j (hQi j hjQ)] at hop ⊢
      refine seen_queue ?_
      rw [replay_congr fun k hk => hw _ k (hx.subset (by simp [hk]))]
      exact h.queued xs j hx hop
  · obtain ⟨hjC, hrc, -⟩ := hi.told j hj
    show (Function.update v.buf i _ j).rd_block ∈
      (w.queue v.pc req).seen (Function.update v.buf i _ j).rd_pid
    rw [hother j (href j hjC hrc)]
    exact seen_queue (h.told j hj)
  · have hq : Function.update v.pc p (RdView.afterQueue req) q = .receiving b := hq
    have hm : v.clearMail p req q = some (.buffer j) := hm
    have hqp : q ≠ p := by
      rintro rfl
      rw [Function.update_self] at hq
      cases req with
      | read blk => exact absurd ((Function.update_self ..).symm.trans hm) nofun
      | write blk data => exact absurd hq nofun
      | sync => exact absurd hq nofun
    rw [Function.update_of_ne hqp] at hq
    have hm : v.mail q = some (.buffer j) := by
      rw [← hm]
      cases req with
      | read blk => exact (Function.update_of_ne hqp ..).symm
      | write blk data => rfl
      | sync => exact (Function.update_of_ne hqp ..).symm
    obtain ⟨hjC, hrc, -⟩ := hi.mailed q b j hq hm
    show (Function.update v.buf i _ j).rd_block ∈ (w.queue v.pc req).seen q
    rw [hother j (href j hjC hrc)]
    exact seen_queue (h.mailed q b j hq hm)
  · have hq : (Function.update v.pc p (RdView.afterQueue req) q).reads = some b := hq
    cases req with
    | write blk data => exact h.fresh_accept rfl q b hq
    | read blk =>
      show w.latest b ∈ w.seen q
      by_cases hqp : q = p
      · rw [hqp, Function.update_self] at hq
        rw [hqp, ← Option.some.inj hq]
        exact h.fresh p blk (hreq blk rfl)
      · rw [Function.update_of_ne hqp] at hq
        exact h.fresh q b hq
    | sync =>
      show w.latest b ∈ w.seen q
      by_cases hqp : q = p
      · rw [hqp, Function.update_self] at hq
        exact absurd hq nofun
      · rw [Function.update_of_ne hqp] at hq
        exact h.fresh q b hq
  · intro a ha
    cases req with
    | read _ | write _ _ | sync => exact h.answers a ha

end ReadInv

/-! ## 7. Moves

The lemmas of the sections before, one for each kind of move. -/

namespace RdWatch

variable {pc pc' : Nat → RdPc} {buff : Nat → RdBlock} {ev : RdEvent}

theorem see_returned (hev : ev = .go p ∨ ev = .granted p ∨ ev = .finish p) (hp : pc' p = .idle) :
    w.see pc ev pc' buff = w.finish pc p buff := by
  rcases hev with rfl | rfl | rfl
  · simp only [see, hp]
  · simp only [see, hp]
  · simp only [see, hp]

theorem see_waits (hev : ev = .go p ∨ ev = .granted p) (hp : pc' p ≠ .idle) :
    w.see pc ev pc' buff = w := by
  rcases hev with rfl | rfl
  · simp only [see]
  · simp only [see]

theorem see_enqueue (hev : ev = .go p ∨ ev = .granted p)
    (hp : pc p = .begun req ∨ pc p = .alloc req)
    (hp' : pc' p = RdView.afterQueue req) : w.see pc ev pc' buff = w.queue pc req := by
  cases req with
  | write blk data =>
    rw [see_returned (hev.imp_right .inl) hp', finish]
    rcases hp with hp | hp
    · rw [hp]
      rfl
    · rw [hp]
      rfl
  | read blk => exact see_waits hev (by rw [hp']; nofun)
  | sync => exact see_waits hev (by rw [hp']; nofun)

end RdWatch

/-- The condition, on lists. -/
def RdView.Careful (v : RdView) : RdEvent → Prop
  | .go p =>
    (∀ blk i, v.pc p = .begun (.read blk) → holder v.buf blk v.C = some i →
      (v.buf i).rd_status = .RD_VALID → ∀ j ∈ v.Q, writes v.buf blk j = none) ∧
    ∀ blk data, v.pc p = .begun (.write blk data) → ∀ i ∈ v.Q, ∀ j ∈ v.Q,
      (v.buf i).WriteOf blk → (v.buf j).WriteOf blk → j = i
  | .process => ∀ i, v.stage = .reading i → v.msg_blk = (v.buf i).rd_blknum
  | .close => False
  | _ => True

namespace ReadInv

variable {ev : RdEvent}

/-- A call gets a buffer from `rdsbufalloc`. -/
theorem takes {u : RdView} (h : ReadInv v w) (hi : RdInv v)
    (hQC : ∀ j ∈ v.Q, j ∉ v.C) (hQF : ∀ j ∈ v.Q, j ∉ v.F) (hCF : ∀ j ∈ v.C, j ∉ v.F)
    (hC : v.C.Nodup) (hp : v.pc p = .begun req ∨ v.pc p = .alloc req)
    (ht : RdView.Takes { v with avail := avail } i u) :
    ReadInv (u.enqueue p req i) (w.queue v.pc req) := by
  have hreq : ∀ blk, req = .read blk → (v.pc p).reads = some blk := by
    rintro blk rfl
    rcases hp with hp | hp <;> rw [hp] <;> rfl
  cases ht with
  | free hF =>
    have hF : v.F = _ := hF
    have hiC : i ∉ v.C := fun hj => hCF i hj (by rw [hF]; simp)
    exact h.enqueue hi hreq (fun hj => hQF i hj (by rw [hF]; simp)) (fun hj => absurd hj hiC)
      (fun j hj => ⟨hj, fun he => hiC (he ▸ hj)⟩) fun b j hj _ => .inl hj
  | @oldest C₁ C₂ _ hc href hpos =>
    have hc : v.C = C₁ ++ i :: C₂ := hc
    rw [hc] at hC
    have hni : ∀ j ∈ C₁ ++ C₂, j ≠ i := by
      rintro j hj rfl
      have hnd := List.nodup_middle.mp hC
      exact (List.nodup_cons.mp hnd).1 hj
    have hsub : ∀ j ∈ C₁ ++ C₂, j ∈ v.C := by
      intro j hj
      rw [hc]
      rcases List.mem_append.mp hj with hj | hj
      · exact List.mem_append_left _ hj
      · exact List.mem_append_right _ (List.mem_cons_of_mem _ hj)
    refine h.enqueue hi hreq (fun hj => hQC i hj (by rw [hc]; simp)) (fun _ => href)
      (fun j hj => ⟨hsub j hj, hni j hj⟩) fun b j hj hv => .inl ?_
    rw [hc]
    refine holder_of_removed hj fun _ => ?_
    -- behind the buffer taken every other is referred to, so the valid copy is in front of it
    obtain ⟨hmem, hb⟩ := mem_of_holder hj
    have hle := h.unused j (hsub j hmem) hv
    rcases List.mem_append.mp hmem with hmem | hmem
    · exact ⟨j, hmem, hb⟩
    · exact absurd (hpos j hmem) (not_lt.mpr hle)

theorem send_ok (u : RdView) (m : RdMsg) : u.send p m = { u with
    mail := if (u.mail p).isSome then u.mail else Function.update u.mail p (some m) } := by
  rw [RdView.send]
  split_ifs <;> rfl

theorem enqueue_pc {u : RdView} : (u.enqueue p req i).pc p = RdView.afterQueue req :=
  Function.update_self ..

theorem holder_of_first (h : v.First xs blk i) : holder v.buf blk xs = some i := by
  obtain ⟨xs₁, xs₂, rfl, hblk, hne⟩ := h
  refine List.find?_eq_some_iff_append.mpr ⟨decide_eq_true hblk, xs₁, xs₂, rfl, fun j hj => ?_⟩
  exact (Bool.not_eq_true' _).mpr (decide_eq_false (hne j hj))

/-- `rdsprocess` is resumed. -/
theorem resume (h : ReadInv v w) (hoff : v.comruns = false → v.stage = .off) :
    ReadInv { v with comruns := true, stage := if v.comruns then v.stage else .top } w := by
  cases hr : v.comruns with
  | true => exact h.congr rfl rfl rfl rfl (fun _ hi => hi) h.mailed h.fresh
  | false =>
    refine h.congr rfl rfl rfl ?_ (fun _ hi => absurd hi nofun) h.mailed h.fresh
    rw [stored_eq_server (v := v) (by rw [hoff hr]; nofun)]
    rfl

/-- A read returns at once. -/
theorem hit (h : ReadInv v w) (hp : v.pc p = .begun (.read blk)) (hd : data ∈ w.seen p) :
    ReadInv (v.answer p data) (w.see v.pc (.go p) (v.answer p data).pc (v.answer p data).buff) := by
  have hsee : w.see v.pc (.go p) (v.answer p data).pc (v.answer p data).buff =
      w.answer p blk data := by
    have hidle : (v.answer p data).pc p = .idle := Function.update_self ..
    rw [RdWatch.see_returned (.inl rfl) hidle, RdWatch.finish, hp]
    show w.answer p blk (Function.update v.buff p data p) = _
    rw [Function.update_self]
  rw [hsee]
  have hans : ReadInv v (w.answer p blk data) := h.answer hd
  have ha := hans.setPc (p := p) (c := .idle) nofun nofun
  exact ha.congr rfl rfl rfl rfl (fun _ hi => hi) ha.mailed ha.fresh

/-- A read returns with the block of its buffer. -/
theorem finished (h : ReadInv v w) (hp : v.pc p = .receiving blk)
    (hm : v.mail p = some (.buffer i)) (C' F' : List (Fin RD_BUFFS)) (hC : Shrinks v C') :
    ReadInv { v.answer p (v.buf i).rd_block with
      mail := Function.update v.mail p none
      buf := Function.update v.buf i { v.buf i with rd_refcnt := (v.buf i).rd_refcnt - 1 }
      C := C', F := F' }
      (w.see v.pc (.finish p) (v.answer p (v.buf i).rd_block).pc
        (v.answer p (v.buf i).rd_block).buff) := by
  have hsee : w.see v.pc (.finish p) (v.answer p (v.buf i).rd_block).pc
      (v.answer p (v.buf i).rd_block).buff = w.answer p blk (v.buf i).rd_block := by
    have hidle : (v.answer p (v.buf i).rd_block).pc p = .idle := Function.update_self ..
    rw [RdWatch.see_returned (.inr (.inr rfl)) hidle, RdWatch.finish, hp]
    show w.answer p blk (Function.update v.buff p (v.buf i).rd_block p) = _
    rw [Function.update_self]
  rw [hsee]
  have hans : ReadInv v (w.answer p blk (v.buf i).rd_block) := h.answer (h.mailed p blk i hp hm)
  have ha := hans.receive (p := p)
  have hle : (v.buf i).rd_refcnt - 1 ≤ (v.buf i).rd_refcnt := by omega
  have hr := ha.recount C' F' hle hC
  exact hr.congr rfl rfl rfl rfl (fun _ hi => hi) hr.mailed hr.fresh

/-- **Every move keeps the data of the blocks where it is looked for.** -/
theorem move (h : ReadInv v w) (hi : RdInv v) (hnd : v.Q.Nodup) (hC : v.C.Nodup)
    (hQC : ∀ j ∈ v.Q, j ∉ v.C) (hQF : ∀ j ∈ v.Q, j ∉ v.F) (hCF : ∀ j ∈ v.C, j ∉ v.F)
    (hc : v.Careful ev) (hm : RdView.Move v ev w') : ReadInv w' (w.see v.pc ev w'.pc w'.buff) := by
  cases hm with
  | refuse hev =>
    rcases hev with ⟨p, req, rfl, hp⟩ | rfl | rfl
    · cases req with
      | read blk => exact h.begin hi hp
      | write _ _ | sync => exact h
    · exact h
    · exact h
  | @begin p req hp hopen =>
    refine resume ?_ hi.starts
    cases req with
    | read blk =>
      refine (h.begin hi hp).setPc (fun b hb => ?_) nofun
      rw [← Option.some.inj hb]
      show w.latest blk ∈ Function.update w.seen p [w.latest blk] p
      rw [Function.update_self]
      simp
    | write _ _ | sync => exact h.setPc nofun nofun
  | @hitCache p blk i hp hfirst hv =>
    have hholder := holder_of_first hfirst
    have hd : (v.buf i).rd_block ∈ w.seen p := by
      rw [h.cached blk i hholder hv (hc.1 blk i hp hholder hv)]
      exact h.fresh p blk (by rw [hp]; rfl)
    exact h.hit hp hd
  | @hitQueue p blk i hp hfirst hop =>
    obtain ⟨xs₁, xs₂, hxs, hblk, hne⟩ := hfirst
    have hQ : v.Q = xs₂.reverse ++ i :: xs₁.reverse := by
      rw [← v.Q.reverse_reverse, hxs]
      simp
    have hd : (v.buf i).rd_block ∈ w.seen p := by
      have hlast : replay (writes v.buf blk) (v.stored blk) v.Q = (v.buf i).rd_block := by
        rw [hQ]
        refine replay_last (writes_self ⟨hblk, hop⟩) fun j hj => writes_none fun hw => ?_
        exact hne j (List.mem_reverse.mp hj) hw.1
      rw [← hlast, h.current blk]
      exact h.fresh p blk (by rw [hp]; rfl)
    exact h.hit hp hd
  | @replace p blk data i Q₁ Q₂ hp hQ hblk hop _ =>
    have hiQ : i ∈ v.Q := by rw [hQ]; simp
    have hidle : (v.setPc p .idle).pc p = .idle := Function.update_self ..
    have hsee : w.see v.pc (.go p) (v.setPc p .idle).pc (v.setPc p .idle).buff =
        w.accept v.pc blk data := by
      rw [RdWatch.see_returned (.inl rfl) hidle, RdWatch.finish, hp]
    rw [hsee]
    refine h.replace hi hiQ hnd hQC ⟨hblk, hop⟩ fun j hj hji hw => ?_
    exact hji (hc.2 blk data hp i hiQ j hj ⟨hblk, hop⟩ hw)
  | @reuse p blk data i C₁ C₂ avail hp hcache hblk hne href =>
    rw [RdWatch.see_enqueue (.inl rfl) (.inl hp) enqueue_pc]
    rw [hcache] at hC
    have hiC := (List.nodup_cons.mp (List.nodup_middle.mp hC)).1
    refine h.enqueue hi nofun (fun hj => hQC i hj (by rw [hcache]; simp)) (fun _ => href)
      (fun j hj => ⟨?_, fun he => hiC (he ▸ hj)⟩) fun b j hj hv => ?_
    · rw [hcache]
      rcases List.mem_append.mp hj with hj | hj
      · exact List.mem_append_left _ hj
      · exact List.mem_append_right _ (List.mem_cons_of_mem _ hj)
    · by_cases hb : b = blk
      · exact .inr ⟨data, by rw [hb]⟩
      · rw [hcache]
        exact .inl (holder_of_removed hj fun he => absurd (he.symm.trans hblk) hb)
  | @block p req avail hp =>
    have hpc : (RdView.setPc { v with avail := avail } p (.alloc req)).pc p = .alloc req :=
      Function.update_self ..
    rw [RdWatch.see_waits (.inl rfl) (by rw [hpc]; nofun)]
    have hset := h.setPc (p := p) (c := .alloc req) (fun b hb => ?_) nofun
    · exact hset.congr rfl rfl rfl rfl (fun _ hi => hi) hset.mailed hset.fresh
    · cases req with
      | read blk => exact h.fresh p b (by rw [hp]; exact hb)
      | write _ _ | sync => exact absurd hb nofun
  | pass hp ht =>
    rw [RdWatch.see_enqueue (.inl rfl) (.inl hp) enqueue_pc]
    exact h.takes hi hQC hQF hCF hC (.inl hp) ht
  | granted hp ht =>
    rw [RdWatch.see_enqueue (.inr rfl) (.inr hp) enqueue_pc]
    exact h.takes hi hQC hQF hCF hC (.inr hp) ht
  | @finishKeep p blk i hp hm =>
    have hf := h.finished hp hm v.C v.F ⟨fun _ hj => hj, fun _ _ hj _ => hj⟩
    exact hf
  | @finishFree p blk i j C₁ C₂ hp hm hcache hj hblk =>
    refine h.finished hp hm (C₁ ++ C₂) (i :: v.F) ⟨fun k hk => ?_, fun b k hk _ => ?_⟩
    · rw [hcache]
      rcases List.mem_append.mp hk with hk | hk
      · exact List.mem_append_left _ hk
      · exact List.mem_append_right _ (List.mem_cons_of_mem _ hk)
    · rw [hcache]
      refine holder_of_removed hk fun he => ⟨j, hj, ?_⟩
      rw [hblk, ← he, (hi.mailed p blk i hp hm).2.2.2]
  | @finishSync p hp _ =>
    have hidle : (v.setPc p .idle).pc p = .idle := Function.update_self ..
    have hsee : w.see v.pc (.finish p) (v.setPc p .idle).pc (v.setPc p .idle).buff = w := by
      rw [RdWatch.see_returned (.inr (.inr rfl)) hidle, RdWatch.finish, hp]
    rw [hsee]
    exact h.receive
  | close _ _ => exact absurd hc not_false
  | reopen => exact h.congr rfl rfl rfl rfl (fun _ hi => hi) h.mailed h.fresh
  | wait hst =>
    refine h.quiet v.mail _ _ (fun _ _ hm => hm) (by rw [hst]; nofun) ?_
    split_ifs <;> exact ⟨nofun, nofun⟩
  | run hst _ => exact h.quiet v.mail _ _ (fun _ _ hm => hm) (by rw [hst]; nofun) ⟨nofun, nofun⟩
  | takeRead hst _ _ =>
    exact h.quiet v.mail _ v.req (fun _ _ hm => hm) (by rw [hst]; nofun) ⟨nofun, nofun⟩
  | takeWrite hst hQ hop => exact h.takeWrite hst hQ hop
  | @takeSync i _ hst hQ hop =>
    rw [send_ok]
    refine h.quiet _ _ v.req (fun q j hm => ?_) (by rw [hst]; nofun) ⟨nofun, nofun⟩
    by_cases hmail : (v.mail (v.buf i).rd_pid).isSome
    · rwa [if_pos hmail] at hm
    · rw [if_neg hmail] at hm
      have hm : Function.update v.mail (v.buf i).rd_pid (some .ok) q = some (.buffer j) := hm
      by_cases hq : q = (v.buf i).rd_pid
      · rw [hq, Function.update_self] at hm
        exact absurd hm nofun
      · rwa [Function.update_of_ne hq] at hm
  | respond hst hQ => exact h.respond hi hst hQ hQC (hc _ hst)
  | tell hst => exact h.tell hi hst
  | scan hst _ =>
    exact h.quiet v.mail _ v.req (fun _ _ hm => hm) (by rw [hst]; nofun) ⟨nofun, nofun⟩
  | written hst => exact h.written hst
  | synced hst hQ => exact h.synced hi hst hQ

end ReadInv

/-! ## 8. Runs

The condition is stated on links and read as one on lists.  These are the runs of whole pieces of
`rdsprocess`; `RdsProcess` carries the result to its statements. -/

section Runs

variable {s : Rds} {Q C F : List (Fin RD_BUFFS)} {ev : RdEvent}

/-- The searches of the condition are questions about the lists. -/
theorem careful_view (hl : Lists s.cb Q C F []) (hc : Careful s ev) :
    (s.view Q C F).Careful ev := by
  obtain ⟨-, hc⟩ := hc
  cases ev with
  | go p =>
    dsimp only at hc
    refine ⟨fun blk i hp hi hv j hj => ?_, fun blk data hp i hi j hj hwi hwj => ?_⟩
    · have hp : s.pc p = .begun (.read blk) := hp
      simp only [hp] at hc
      have hnone := hc i (by rw [hl.find_cache]; exact congrArg some hi) hv
      rw [hl.find_queue] at hnone
      have hj := List.find?_eq_none.mp (Option.some.inj hnone) j hj
      exact writes_none fun hw => hj (decide_eq_true hw)
    · have hp : s.pc p = .begun (.write blk data) := hp
      simp only [hp] at hc
      rw [hl.find_queue, hl.find_queue_back] at hc
      have hc := Option.some.inj hc
      obtain ⟨k, hk⟩ : ∃ k, (Q.find? fun k => decide ((s.cb.rd_buf k).WriteOf blk)) = some k :=
        Option.isSome_iff_exists.mp (List.find?_isSome.mpr ⟨i, hi, decide_eq_true hwi⟩)
      rw [hk] at hc
      have honly : ∀ l ∈ Q, (s.cb.rd_buf l).WriteOf blk → l = k := fun l hmem hw =>
        Chains.only_of_both_ends hl.apart.1 hk hc.symm hmem (decide_eq_true hw)
      rw [honly i hi hwi, honly j hj hwj]
  | process => exact hc
  | close => exact hc
  | call _ _ | granted _ | finish _ | «open» => trivial

variable (old : Fin RD_BUFFS → Rdbuff) (mail : Nat → Option RdMsg) (buff : Nat → RdBlock)
  (blk : Nat) (data : RdBlock) (server : Nat → RdBlock)

theorem readInv_init (F : List (Fin RD_BUFFS)) :
    ReadInv ((Rds.init old mail buff blk data server).view [] [] F) (RdWatch.start server) where
  current _ := rfl
  cached _ _ hi := absurd hi nofun
  unused _ hi := absurd hi (by simp [Rds.view])
  invalid _ hi := absurd hi (by simp [Rds.view])
  queued xs i hx := absurd (hx.subset (show i ∈ xs ++ [i] by simp)) (by simp [Rds.view])
  told := nofun
  mailed := nofun
  fresh := nofun
  answers _ ha := absurd ha (by simp [RdWatch.start])

variable {old mail buff blk data server} {x : Rds × RdWatch}

/-- A read returns what its block held at some point in the course of the call, by the writes
accepted until then: in every run whose steps meet the condition. -/
theorem reaches_answers
    (hr : Reaches Rds.watched (fun x => Careful x.1)
      (Rds.init old mail buff blk data server, RdWatch.start server) x) :
    ∀ a ∈ x.2.answers, a.data ∈ a.seen := by
  have hinv : ∃ Q C F, Lists x.1.cb Q C F [] ∧ RdInv (x.1.view Q C F) ∧
      ReadInv (x.1.view Q C F) x.2 := by
    refine hr.invariant (I := fun x => ∃ Q C F, Lists x.1.cb Q C F [] ∧ RdInv (x.1.view Q C F) ∧
      ReadInv (x.1.view Q C F) x.2) ?_ ?_
    · exact ⟨[], [], _, lists_init .., inv_init .., readInv_init ..⟩
    · rintro ⟨s, w⟩ ev y ⟨Q, C, F, hl, hi, h⟩ hc hs
      obtain ⟨s', hs', rfl⟩ := watch_some.mp hs
      obtain ⟨Q', C', F', hl', hm⟩ := step_move hl hi hc.1 hs'
      obtain ⟨hQ, hC, hQC, hQF, -, hCF, -⟩ := hl.apart
      exact ⟨Q', C', F', hl', hi.move hQ hQC hQF hCF hm,
        h.move hi hQ hC hQC hQF hCF (careful_view hl hc) hm⟩
  obtain ⟨_, _, _, _, _, h⟩ := hinv
  exact h.answers

end Runs

/-! ## 9. Two runs -/

/-- A block of one byte, repeated. -/
def fill (n : Nat) : RdBlock := fun _ => UInt8.ofNat n

/-- A disk whose blocks hold their numbers, opened for the first time, when the message that
`rdsprocess` builds names the block `blk`. -/
def numberedRds (blk : Nat) : Rds :=
  Rds.init freshRds.cb.rd_buf (fun _ => none) (fun _ => zeroBlock) blk zeroBlock fill

/-- A part of the condition that can be executed. -/
def tame (s : Rds) : RdEvent → Bool
  | .go p =>
    match s.pc p with
    | .begun (.read blk) => decide (∀ i,
      s.cb.find s.cb.rd_next (fun b => b.rd_blknum = blk) .ct (s.cb.rd_next .ch) = some (some i) →
      (s.cb.rd_buf i).rd_status = .RD_VALID →
      s.cb.find s.cb.rd_next (fun b => b.WriteOf blk) .rt (s.cb.rd_next .rh) = some none)
    | .begun (.write blk _) => decide
      (s.cb.find s.cb.rd_next (fun b => b.WriteOf blk) .rt (s.cb.rd_next .rh) =
        s.cb.find s.cb.rd_prev (fun b => b.WriteOf blk) .rh (s.cb.rd_prev .rt))
    | _ => true
  | .process =>
    tidy s .process && decide (∀ i, s.stage = .reading i → s.msg_blk = (s.cb.rd_buf i).rd_blknum)
  | .close => false
  | _ => true

theorem careful_of_tame {s : Rds} {ev : RdEvent} (h : tame s ev = true) : Careful s ev := by
  cases ev with
  | go p =>
    refine ⟨trivial, ?_⟩
    dsimp only
    rw [tame] at h
    split
    · next hp =>
      rw [hp] at h
      exact of_decide_eq_true h
    · next hp =>
      rw [hp] at h
      exact of_decide_eq_true h
    · trivial
  | process =>
    obtain ⟨h1, h2⟩ := Bool.and_eq_true_iff.mp h
    exact ⟨orderly_of_tidy h1, of_decide_eq_true h2⟩
  | close => exact absurd h nofun
  | call _ _ | granted _ | finish _ | «open» => exact ⟨trivial, trivial⟩

/-- A read from the server, a write, a read while it is queued, and one when it is in the cache. -/
theorem inTurn_reached : ∃ x : Rds × RdWatch,
    Reaches Rds.watched (fun x => Careful x.1) (numberedRds 5, RdWatch.start fill) x ∧
      x.2.answers.map (fun a => (a.blk, a.data 0)) = [(5, 9), (5, 9), (5, 5)] := by
  have h1 : (exec Rds.watched (fun x ev => tame x.1 ev = true) (numberedRds 5, RdWatch.start fill)
      [.call 1 (.read 5), .go 1, .process, .process, .process, .process, .finish 1, .process,
        .call 2 (.write 5 (fill 9)), .go 2, .call 1 (.read 5), .go 1, .process, .process, .process,
        .call 1 (.read 5), .go 1]).map
        (fun x => x.2.answers.map fun a => (a.blk, a.data 0)) =
      some [(5, 9), (5, 9), (5, 5)] := by
    decide +kernel
  obtain ⟨x, hx, hl⟩ := Option.map_eq_some_iff.mp h1
  have hr : Reaches Rds.watched (fun x => Careful x.1) (numberedRds 5, RdWatch.start fill) x :=
    (reaches_of_exec hx).mono fun _ _ h => careful_of_tame h
  exact ⟨x, hr, hl⟩

/-- The first read of a disk returns block 0, whatever block is read. -/
theorem missed_reached : ∃ x : Rds × RdWatch,
    Reaches Rds.watched always (numberedRds 0, RdWatch.start fill) x ∧
      x.2.answers.map (fun a => (a.blk, a.data 0, a.seen.map fun b => b 0)) = [(5, 0, [5])] ∧
      ¬ ∀ a ∈ x.2.answers, a.data ∈ a.seen := by
  have h1 : (exec Rds.watched always (numberedRds 0, RdWatch.start fill)
      [.call 1 (.read 5), .go 1, .process, .process, .process, .process, .finish 1]).map
        (fun x => x.2.answers.map fun a => (a.blk, a.data 0, a.seen.map fun b => b 0)) =
      some [(5, 0, [5])] := by
    decide +kernel
  obtain ⟨x, hx, hl⟩ := Option.map_eq_some_iff.mp h1
  refine ⟨x, reaches_of_exec hx, hl, fun hall => ?_⟩
  obtain ⟨a, ha, -⟩ := List.map_eq_singleton_iff.mp hl
  rw [ha] at hl hall
  have hseen := List.mem_map_of_mem (f := fun b : RdBlock => b 0) (hall a (by simp))
  simp only [List.map_cons, List.map_nil, List.cons.injEq, Prod.mk.injEq, and_true] at hl
  rw [hl.2.1, hl.2.2] at hseen
  exact absurd hseen (by decide)

end Xinu
