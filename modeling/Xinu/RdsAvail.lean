/-
# The semaphore of the available buffers

`rdsbufalloc` counts on `rd_availsem`: who has passed it finds a buffer on the free list, or one in
the cache that nobody refers to.  But `rdsprocess` signals the semaphore when it has put the answer
to a read into the cache, with the reader's reference on it, and the reader drops the reference
without a signal.  Until it does, the semaphore grants a buffer that cannot be had.  And a write
that takes a cached buffer for itself leaves the semaphore as it is when the count is not positive,
though the buffer may have been granted to a process that has not run since.

What the semaphore grants is the number of buffers that are not queued (`Accounted`).  As long as
it is more than the answers that no reader has picked up, a buffer is found, and exactly then
(`tallied_finds_iff`).
-/
import Xinu.RdsBuffers

namespace Xinu

open Chains Counting Runs

namespace Rds

/-! ## 1. Who comes to the allocation

A call needs a buffer when its searches have found nothing to return or to replace.  It passes the
wait at once, or later when it has been released. -/

/-- A read finds no queued write for its block. -/
def missesQueue (s : Rds) (blk : Nat) : Bool :=
  match s.cb.find s.cb.rd_prev (fun b => b.rd_blknum = blk) .rh (s.cb.rd_prev .rt) with
  | some (some i) => (s.cb.rd_buf i).rd_op ≠ .RD_OP_WRITE
  | some none => true
  | none => false

/-- A call needs a buffer from `rdsbufalloc`. -/
def needsBuffer (s : Rds) : RdReq → Bool
  | .read blk =>
    match s.cb.find s.cb.rd_next (fun b => b.rd_blknum = blk) .ct (s.cb.rd_next .ch) with
    | some (some i) => (s.cb.rd_buf i).rd_status = .RD_INVALID && s.missesQueue blk
    | some none => s.missesQueue blk
    | none => false
  | .write blk _ =>
    match s.cb.find s.cb.rd_next (fun b => b.rd_blknum = blk ∧ b.rd_op = .RD_OP_WRITE) .rt
        (s.cb.rd_next .rh) with
    | some none =>
      match s.cb.find s.cb.rd_next (fun b => b.rd_blknum = blk) .ct (s.cb.rd_next .ch) with
      | some (some i) => 0 < (s.cb.rd_buf i).rd_refcnt
      | some none => true
      | none => false
    | _ => false
  | .sync => true

/-- In this step a call passes `wait(rd_availsem)` and looks for a buffer. -/
def passes (s : Rds) : RdEvent → Bool
  | .go p =>
    match s.pc p with
    | .begun req => s.needsBuffer req && 0 < s.cb.rd_availsem.sem.count
    | _ => false
  | .granted p =>
    match s.pc p with
    | .alloc _ => p ∈ s.cb.rd_availsem.released
    | _ => false
  | _ => false

/-- In this step a write takes the buffer that the cache has for its block. -/
def reuses (s : Rds) : RdEvent → Bool
  | .go p =>
    match s.pc p with
    | .begun (.write blk _) =>
      match s.cb.find s.cb.rd_next (fun b => b.rd_blknum = blk ∧ b.rd_op = .RD_OP_WRITE) .rt
          (s.cb.rd_next .rh) with
      | some none =>
        match s.cb.find s.cb.rd_next (fun b => b.rd_blknum = blk) .ct (s.cb.rd_next .ch) with
        | some (some i) => (s.cb.rd_buf i).rd_refcnt ≤ 0
        | _ => false
      | _ => false
    | _ => false
  | _ => false

variable {s s' : Rds} {p blk : Nat} {req : RdReq} {ev : RdEvent} {data : RdBlock}

theorem waitAvail_of_missesQueue (h : s.missesQueue blk = true) :
    s.readQueue p blk = s.waitAvail p (.read blk) := by
  rw [missesQueue] at h
  rw [readQueue]
  split at h
  · next i hi =>
    rw [hi, Option.bind_some]
    exact if_neg (of_decide_eq_true h)
  · next hi =>
    rw [hi]
    rfl
  · exact absurd h Bool.false_ne_true

/-- A call that needs a buffer comes to the wait. -/
theorem step_of_needsBuffer (hp : s.pc p = .begun req) (h : s.needsBuffer req = true) :
    s.step (.go p) = s.waitAvail p req := by
  rw [step, hp]
  cases req with
  | sync => rfl
  | read blk =>
    rw [needsBuffer] at h
    dsimp only
    rw [readSearch]
    split at h
    · next i hi =>
      rw [Bool.and_eq_true] at h
      rw [hi, Option.bind_some]
      exact (if_pos (of_decide_eq_true h.1)).trans (waitAvail_of_missesQueue h.2)
    · next hi =>
      rw [hi]
      exact waitAvail_of_missesQueue h
    · exact absurd h Bool.false_ne_true
  | write blk data =>
    rw [needsBuffer] at h
    dsimp only
    rw [writeSearch]
    split at h
    · next hq =>
      rw [hq, Option.bind_some]
      dsimp only
      rw [writeCache]
      split at h
      · next i hi =>
        rw [hi, Option.bind_some]
        exact if_neg (not_le.mpr (of_decide_eq_true h))
      · next hi =>
        rw [hi]
        rfl
      · exact absurd h Bool.false_ne_true
    · exact absurd h Bool.false_ne_true

/-- `rdsbufalloc` looks at the lists and the references only. -/
theorem allocate_eq_none (avail : Gate Nat) :
    ({ s with cb.rd_availsem := avail } : Rds).allocate p req = none ↔ rdsbufalloc s.cb = none := by
  have h : ∀ r : Rdscblk, rdsbufalloc { r with rd_availsem := avail } = none ↔
      rdsbufalloc r = none := by
    intro r
    rw [rdsbufalloc, rdsbufalloc]
    have hfind : Rdscblk.find { r with rd_availsem := avail } = Rdscblk.find r := rfl
    rw [hfind]
    cases r.rd_free with
    | buf i => simp
    | null =>
      dsimp only
      split <;> simp
    | rh | rt | ch | ct => simp
  rw [allocate, Option.map_eq_none_iff]
  exact h s.cb

/-- **A call that passes the wait panics exactly when no buffer is found.** -/
theorem step_eq_none_iff (h : s.passes ev = true) : s.step ev = none ↔ rdsbufalloc s.cb = none := by
  cases ev with
  | go p =>
    rw [passes] at h
    split at h
    · next req hp =>
      rw [Bool.and_eq_true] at h
      have hcount := of_decide_eq_true h.2
      rw [step_of_needsBuffer hp h.1, waitAvail]
      dsimp only
      rw [if_pos hcount]
      exact allocate_eq_none _
    · exact absurd h Bool.false_ne_true
  | granted p =>
    rw [passes] at h
    split at h
    · next req hp =>
      rw [step, hp]
      dsimp only
      rw [if_pos (of_decide_eq_true h)]
      exact allocate_eq_none _
    · exact absurd h Bool.false_ne_true
  | call _ _ | finish _ | close | «open» | process => exact absurd h Bool.false_ne_true

/-! ## 2. The answers that nobody has picked up

These are the buffers that a reader holds a reference to: the one it is about to be told of, and
those named by the messages of readers that have not run. -/

/-- The answer to a read is in this buffer, and the reader has not run since. -/
def holdsAnswer (s : Rds) (i : Fin RD_BUFFS) : Bool :=
  decide (s.stage = .told i) ||
    match s.pc (s.cb.rd_buf i).rd_pid, s.mail (s.cb.rd_buf i).rd_pid with
    | .receiving _, some (.buffer j) => decide (j = i)
    | _, _ => false

/-- The buffers that hold such answers. -/
def answered (s : Rds) : Finset (Fin RD_BUFFS) := Finset.univ.filter fun i => s.holdsAnswer i

theorem mem_answered {i : Fin RD_BUFFS} : i ∈ s.answered ↔ s.stage = .told i ∨
    (∃ blk, s.pc (s.cb.rd_buf i).rd_pid = .receiving blk) ∧
      s.mail (s.cb.rd_buf i).rd_pid = some (.buffer i) := by
  rw [answered, Finset.mem_filter, holdsAnswer, Bool.or_eq_true, decide_eq_true_iff]
  simp only [Finset.mem_univ, true_and]
  refine or_congr Iff.rfl ?_
  split
  · next blk j hp hm =>
    rw [decide_eq_true_iff]
    constructor
    · rintro rfl
      exact ⟨⟨blk, hp⟩, hm⟩
    · rintro ⟨-, hm'⟩
      exact RdMsg.buffer.inj (Option.some.inj (hm.symm.trans hm'))
  · next hno =>
    refine iff_of_false Bool.false_ne_true ?_
    rintro ⟨⟨blk, hp⟩, hm⟩
    exact hno blk i hp hm

/-! ## 3. The account

What the semaphore grants, by its count and to those it has released, and the length of the
request queue add up to the number of buffers.  Each step that queues a buffer takes one grant,
and each that takes a buffer off the queue signals. -/

/-- What the semaphore of the buffers grants, and the requests. -/
def account (s : Rds) : Int :=
  s.cb.rd_availsem.grants + s.cb.rd_reqsem.sem.count + s.stage.claimed

/-- The semaphore grants the buffers that are not queued. -/
def Accounted (s : Rds) : Prop := s.account = RD_BUFFS

/-- **The condition on writes**: one takes the buffer of the cache only while the semaphore is
positive, so that the buffer has not been granted. -/
def CountedReuse (s : Rds) (ev : RdEvent) : Prop :=
  s.reuses ev = true → 0 < s.cb.rd_availsem.sem.count

instance : DecidableRel CountedReuse := fun _ _ => inferInstanceAs (Decidable (_ → _))

variable {r r' : Rdscblk} {i : Fin RD_BUFFS}

theorem sems_rdsbufalloc (h : rdsbufalloc r = some (i, r')) :
    r'.rd_availsem = r.rd_availsem ∧ r'.rd_reqsem = r.rd_reqsem := by
  rw [rdsbufalloc] at h
  split at h
  · obtain ⟨-, rfl⟩ := Prod.mk.inj (Option.some.inj h)
    exact ⟨rfl, rfl⟩
  · split at h
    · obtain ⟨-, rfl⟩ := Prod.mk.inj (Option.some.inj h)
      exact ⟨rfl, rfl⟩
    · cases h
  · cases h

theorem account_enqueue : (s.enqueue p req r i).account =
    r.rd_availsem.grants + r.rd_reqsem.sem.count + 1 + s.stage.claimed := by
  have h : (s.enqueue p req r i).account =
      r.rd_availsem.grants + (r.rd_reqsem.sem.count + 1) + s.stage.claimed := by
    cases req <;> rfl
  rw [h]
  omega

/-- A buffer is allocated and queued. -/
theorem account_allocate (h : s.allocate p req = some s') : s'.account = s.account + 1 := by
  obtain ⟨⟨i, r⟩, hr, rfl⟩ := Option.map_eq_some_iff.mp h
  obtain ⟨h1, h2⟩ := sems_rdsbufalloc hr
  rw [account_enqueue, h1, h2, account]
  omega

theorem account_waitAvail (h : s.waitAvail p req = some s') : s'.account = s.account := by
  rw [waitAvail] at h
  dsimp only at h
  split_ifs at h with hc
  · rw [account_allocate h, account, account]
    dsimp only
    rw [Gate.grants_wait_passes hc]
    omega
  · obtain rfl := Option.some.inj h
    have hg : (s.cb.rd_availsem.wait p).grants = s.cb.rd_availsem.grants :=
      Gate.grants_wait_blocks (not_lt.mp hc)
    rw [account, account]
    dsimp only [setPc]
    rw [hg]

theorem account_readQueue (h : s.readQueue p blk = some s') : s'.account = s.account := by
  obtain ⟨found, -, h⟩ := Option.bind_eq_some_iff.mp h
  cases found with
  | none => exact account_waitAvail h
  | some i =>
    dsimp only at h
    split_ifs at h
    · obtain rfl := Option.some.inj h
      rfl
    · exact account_waitAvail h

theorem account_readSearch (h : s.readSearch p blk = some s') : s'.account = s.account := by
  obtain ⟨found, -, h⟩ := Option.bind_eq_some_iff.mp h
  cases found with
  | none => exact account_readQueue h
  | some i =>
    dsimp only at h
    split_ifs at h
    · exact account_readQueue h
    · obtain rfl := Option.some.inj h
      rfl

/-- A write takes a buffer of the cache while the count is positive. -/
theorem account_writeSearch (hp : s.pc p = .begun (.write blk data))
    (hok : CountedReuse s (.go p)) (h : s.writeSearch p blk data = some s') :
    s'.account = s.account := by
  rw [CountedReuse, reuses, hp] at hok
  dsimp only at hok
  obtain ⟨found, hq, h⟩ := Option.bind_eq_some_iff.mp h
  cases found with
  | some i =>
    obtain rfl := Option.some.inj h
    rfl
  | none =>
    obtain ⟨found, hc, h⟩ := Option.bind_eq_some_iff.mp h
    rw [hq] at hok
    dsimp only at hok
    rw [hc] at hok
    cases found with
    | none => exact account_waitAvail h
    | some i =>
      dsimp only at h hok
      split_ifs at h with href hn
      · have hpos := hok (decide_eq_true href)
        have hsem : (s.cb.unlink i).rd_availsem = s.cb.rd_availsem := rfl
        rw [hsem] at hn
        omega
      · have hpos := hok (decide_eq_true href)
        obtain rfl := Option.some.inj h
        have hwait := Counter.waiting_eq_nil s.cb.rd_availsem.sem hpos.le
        rw [account_enqueue, account]
        simp only [Gate.grants, Gate.reset, Counter.create, Rdscblk.unlink, hwait, List.append_nil]
        omega
      · exact account_waitAvail h

theorem account_readFinish (h : s.readFinish p blk i = some s') : s'.account = s.account := by
  rw [readFinish] at h
  dsimp only at h
  split_ifs at h
  · obtain ⟨found, -, rfl⟩ := Option.map_eq_some_iff.mp h
    cases found <;> rfl
  · obtain rfl := Option.some.inj h
    rfl

theorem sems_closeLoop {n : Nat} {ptr : RdPtr} (h : closeLoop n ptr r = some r') :
    r'.rd_availsem = r.rd_availsem ∧ r'.rd_reqsem = r.rd_reqsem := by
  induction n generalizing ptr r with
  | zero => exact absurd h nofun
  | succ n ih =>
    rw [closeLoop] at h
    split_ifs at h
    · obtain rfl := Option.some.inj h
      exact ⟨rfl, rfl⟩
    · obtain ⟨i, -, h⟩ := Option.bind_eq_some_iff.mp h
      have hrest := ih h
      exact hrest

theorem sems_rdsclose (h : rdsclose r = some r') :
    r'.rd_availsem = r.rd_availsem ∧ r'.rd_reqsem = r.rd_reqsem := by
  rw [rdsclose] at h
  split_ifs at h
  · obtain rfl := Option.some.inj h
    exact ⟨rfl, rfl⟩
  · obtain rfl := Option.some.inj h
    exact ⟨rfl, rfl⟩
  · obtain ⟨r₁, h₁, rfl⟩ := Option.map_eq_some_iff.mp h
    have hloop := sems_closeLoop h₁
    exact hloop

theorem account_process (hok : Orderly s .process) (h : s.process = some s') :
    s'.account = s.account := by
  rw [process] at h
  cases hst : s.stage with
  | off =>
    rw [hst] at h
    cases h
  | top =>
    rw [hst] at h
    obtain rfl := Option.some.inj h
    simp only [account, hst, Gate.wait, Counter.wait, RdStage.claimed]
    split_ifs <;> dsimp only [Nat.cast_one, Nat.cast_zero] <;> omega
  | waiting =>
    rw [hst] at h
    dsimp only at h
    split_ifs at h
    obtain rfl := Option.some.inj h
    simp only [account, hst, Gate.run, RdStage.claimed]
  | take =>
    rw [hst] at h
    obtain ⟨i, -, rfl⟩ := Option.map_eq_some_iff.mp h
    cases hop : (s.cb.rd_buf i).rd_op with
    | RD_OP_READ => simp only [account, hst, hop, RdStage.claimed]
    | RD_OP_WRITE =>
      simp only [account, hst, hop, RdStage.claimed, Rdscblk.setBuf, Rdscblk.pushCache,
        Rdscblk.unlink, Gate.grants_signal, Nat.cast_one, Nat.cast_zero]
      omega
    | RD_OP_SYNC => simp only [account, hst, hop, RdStage.claimed, send_cb]
  | reading i =>
    rw [hst] at h
    obtain rfl := Option.some.inj h
    simp only [account, hst, RdStage.claimed, Rdscblk.setBuf, Rdscblk.pushCache, Rdscblk.unlink,
      Gate.grants_signal, Nat.cast_one, Nat.cast_zero]
    omega
  | told i =>
    rw [hst] at h
    obtain rfl := Option.some.inj h
    simp only [account, hst, RdStage.claimed, send_cb]
  | scan i =>
    rw [hst] at h
    simp only [scanQueue, hok i hst, Option.map_some, Option.some.injEq] at h
    subst h
    simp only [account, hst, RdStage.claimed]
  | writing =>
    rw [hst] at h
    obtain rfl := Option.some.inj h
    simp only [account, hst, RdStage.claimed]
  | synced i =>
    rw [hst] at h
    obtain rfl := Option.some.inj h
    simp only [account, hst, RdStage.claimed, Rdscblk.pushFree, Rdscblk.unlink,
      Gate.grants_signal, Nat.cast_one, Nat.cast_zero]
    omega

/-- **Every step keeps the account.** -/
theorem account_step (hoff : s.cb.rd_comruns = false → s.stage = .off) (ho : Orderly s ev)
    (hok : CountedReuse s ev) (h : s.step ev = some s') : s'.account = s.account := by
  cases ev with
  | call p req =>
    rw [step] at h
    split at h
    · by_cases hopen : s.cb.rd_state ≠ .RD_OPEN
      · rw [if_pos hopen] at h
        obtain rfl := Option.some.inj h
        rfl
      · rw [if_neg hopen] at h
        obtain rfl := Option.some.inj h
        cases hr : s.cb.rd_comruns with
        | true => simp [account, setPc]
        | false => simp [account, setPc, hoff hr, RdStage.claimed]
    · cases h
  | go p =>
    rw [step] at h
    split at h
    · exact account_readSearch h
    · next blk data hp => exact account_writeSearch hp hok h
    · exact account_waitAvail h
    · cases h
  | granted p =>
    rw [step] at h
    split at h
    · split_ifs at h with hmem
      rw [account_allocate h, account, account]
      dsimp only
      rw [Gate.grants_run hmem]
      omega
    · cases h
  | finish p =>
    rw [step] at h
    split at h
    · exact account_readFinish h
    · obtain rfl := Option.some.inj h
      rfl
    · cases h
  | close =>
    obtain ⟨r, hr, rfl⟩ := Option.map_eq_some_iff.mp h
    obtain ⟨h1, h2⟩ := sems_rdsclose hr
    rw [account, account, ← h1, ← h2]
  | «open» =>
    rw [step] at h
    split_ifs at h
    · obtain rfl := Option.some.inj h
      rfl
    · obtain rfl := Option.some.inj h
      rfl
  | process => exact account_process ho h

end Rds

/-! ## 4. Who holds a buffer of the cache

In an orderly run a buffer of the cache with references has one reader, and the reader has its
message or is about to get it. -/

/-- A buffer of the cache that is referred to holds an answer that nobody has picked up. -/
def Held (v : RdView) : Prop := ∀ i ∈ v.C, 0 < (v.buf i).rd_refcnt → v.stage = .told i ∨
  (∃ blk, v.pc (v.buf i).rd_pid = .receiving blk) ∧ v.mail (v.buf i).rd_pid = some (.buffer i)

variable {v w : RdView} {i : Fin RD_BUFFS} {p : Nat} {req : RdReq} {ev : RdEvent}

/-- The readers, their messages and their buffers stay as they are. -/
theorem Held.mono (h : Held v) (hC : ∀ j ∈ w.C, 0 < (w.buf j).rd_refcnt → j ∈ v.C ∧
      0 < (v.buf j).rd_refcnt ∧ (w.buf j).rd_pid = (v.buf j).rd_pid)
    (hstage : ∀ j, v.stage = .told j → w.stage = .told j)
    (hpc : ∀ q blk, v.pc q = .receiving blk → w.pc q = .receiving blk)
    (hmail : ∀ q blk, v.pc q = .receiving blk → w.mail q = v.mail q) : Held w := by
  intro j hj href
  obtain ⟨hjC, hjref, hpid⟩ := hC j hj href
  rw [hpid]
  refine (h j hjC hjref).imp (hstage j) ?_
  rintro ⟨⟨blk, hq⟩, hm⟩
  exact ⟨⟨blk, hpc _ _ hq⟩, (hmail _ _ hq).trans hm⟩

/-- A call that does not wait for an answer goes elsewhere. -/
theorem receiving_update {c : RdPc} (hp : ∀ blk, v.pc p ≠ .receiving blk) {q blk : Nat}
    (hq : v.pc q = .receiving blk) : Function.update v.pc p c q = .receiving blk := by
  have hqp : q ≠ p := fun he => hp blk (he ▸ hq)
  rw [Function.update_of_ne hqp]
  exact hq

theorem Held.setPc (h : Held v) (hp : ∀ blk, v.pc p ≠ .receiving blk) (c : RdPc) :
    Held (v.setPc p c) :=
  h.mono (fun _ hj href => ⟨hj, href, rfl⟩) (fun _ => id) (fun _ _ => receiving_update hp)
    fun _ _ _ => rfl

/-- `rdsprocess` goes on, when no reader is about to be told. -/
theorem Held.restage (h : Held v) (hst : ∀ j, v.stage ≠ .told j) (st : RdStage) :
    Held { v with stage := st } :=
  h.mono (fun _ hj href => ⟨hj, href, rfl⟩) (fun j hj => absurd hj (hst j)) (fun _ _ => id)
    fun _ _ _ => rfl

/-- A buffer leaves the cache. -/
theorem Held.uncache (h : Held v) {C₁ C₂ : List (Fin RD_BUFFS)} (hC : v.C = C₁ ++ i :: C₂) :
    Held { v with C := C₁ ++ C₂ } := by
  refine h.mono (fun j hj href => ⟨?_, href, rfl⟩) (fun _ => id) (fun _ _ => id) fun _ _ _ => rfl
  rw [hC]
  exact (List.mem_append.mp hj).elim (List.mem_append_left _)
    fun hj => List.mem_append_right _ (List.mem_cons_of_mem _ hj)

theorem Held.enqueue (h : Held v) (hp : ∀ blk, v.pc p ≠ .receiving blk) (hi : i ∉ v.C) :
    Held (v.enqueue p req i) := by
  refine h.mono (fun j hj href => ?_) (fun _ => id) (fun q blk => receiving_update hp)
    fun q blk hq => ?_
  · have hji : j ≠ i := fun he => hi (he ▸ hj)
    have hbuf : (v.enqueue p req i).buf j = v.buf j := Function.update_of_ne hji ..
    rw [hbuf] at href ⊢
    exact ⟨hj, href, rfl⟩
  · have hqp : q ≠ p := fun he => hp blk (he ▸ hq)
    cases req with
    | write _ _ => rfl
    | read _ => exact Function.update_of_ne hqp ..
    | sync => exact Function.update_of_ne hqp ..

/-- A buffer that is allocated is in the cache no more. -/
theorem Held.takes (h : Held v) (hC : v.C.Nodup) (hCF : ∀ j ∈ v.C, j ∉ v.F)
    (ht : RdView.Takes v i w) : Held w ∧ i ∉ w.C ∧ w.pc = v.pc := by
  cases ht with
  | free hF => exact ⟨h, fun hi => hCF i hi (by rw [hF]; simp), rfl⟩
  | oldest _ hsplit href _ =>
    have hkept := h.uncache hsplit
    rw [hsplit] at hC
    exact ⟨hkept, (List.nodup_cons.mp (List.nodup_middle.mp hC)).1, rfl⟩

/-- A reader picks up its answer. -/
theorem Held.finish (h : Held v) (hi : RdInv v) {blk : Nat} (hp : v.pc p = .receiving blk)
    (hm : v.mail p = some (.buffer i)) {C' F' : List (Fin RD_BUFFS)} (hC : ∀ j ∈ C', j ∈ v.C)
    (b : RdBlock) : Held { v.answer p b with
      mail := Function.update v.mail p none
      buf := Function.update v.buf i { v.buf i with rd_refcnt := (v.buf i).rd_refcnt - 1 }
      C := C', F := F' } := by
  obtain ⟨hiC, hone, hpid, -⟩ := hi.mailed p blk i hp hm
  intro j hj href
  dsimp only at hj href ⊢
  by_cases hji : j = i
  · subst hji
    rw [Function.update_self] at href
    dsimp only at href
    omega
  · rw [Function.update_of_ne hji] at href ⊢
    refine (h j (hC j hj) href).imp id ?_
    rintro ⟨⟨b, hq⟩, hmq⟩
    have hqp : (v.buf j).rd_pid ≠ p := by
      intro he
      rw [he, hm] at hmq
      exact hji (RdMsg.buffer.inj (Option.some.inj hmq)).symm
    refine ⟨⟨b, ?_⟩, ?_⟩
    · exact (Function.update_of_ne hqp ..).trans hq
    · exact (Function.update_of_ne hqp ..).trans hmq

/-- A reply is sent, to a process that has none. -/
theorem Held.send (h : Held v) {m : RdMsg} (hnone : v.mail p = none) {st : RdStage}
    (hstage : ∀ j, v.stage = .told j → st = .told j ∨
      ((∃ blk, v.pc (v.buf j).rd_pid = .receiving blk) ∧ (v.buf j).rd_pid = p ∧ m = .buffer j)) :
    Held { v.send p m with stage := st } := by
  have hsend : v.send p m = { v with mail := Function.update v.mail p (some m) } := by
    rw [RdView.send, hnone]
    rfl
  rw [hsend]
  intro j hj href
  rcases h j hj href with hst | ⟨hq, hm⟩
  · refine (hstage j hst).imp id ?_
    rintro ⟨hq, rfl, rfl⟩
    exact ⟨hq, Function.update_self ..⟩
  · refine .inr ⟨hq, ?_⟩
    have hne : (v.buf j).rd_pid ≠ p := fun he => by
      rw [he, hnone] at hm
      cases hm
    exact (Function.update_of_ne hne ..).trans hm

/-- **Every move keeps it.** -/
theorem Held.move (h : Held v) (hi : RdInv v) (hQC : ∀ j ∈ v.Q, j ∉ v.C) (hC : v.C.Nodup)
    (hCF : ∀ j ∈ v.C, j ∉ v.F) (hm : RdView.Move v ev w) : Held w := by
  have hidle : ∀ {p : Nat} {c : RdPc}, v.pc p = c → (∀ blk, c ≠ .receiving blk) →
      ∀ blk, v.pc p ≠ .receiving blk := fun hp hc blk => by
    rw [hp]
    exact hc blk
  have htake : ∀ {p : Nat} {req : RdReq} {avail : Gate Nat} {i : Fin RD_BUFFS} {w' : RdView},
      (∀ blk, v.pc p ≠ .receiving blk) → RdView.Takes { v with avail := avail } i w' →
      Held (w'.enqueue p req i) := by
    intro p req avail i w' hp ht
    obtain ⟨h1, h2, h3⟩ := Held.takes (v := { v with avail := avail }) h hC hCF ht
    exact h1.enqueue (by rw [h3]; exact hp) h2
  cases hm with
  | refuse _ => exact h
  | @begin p req hp _ =>
    refine h.mono (fun j hj href => ⟨hj, href, rfl⟩) (fun j hj => ?_)
      (fun q blk => receiving_update (hidle hp (by simp))) fun _ _ _ => rfl
    cases hr : v.comruns with
    | true => exact hj
    | false => cases hj.symm.trans (hi.starts hr)
  | hitCache hp _ _ => exact h.setPc (hidle hp (by simp)) .idle
  | hitQueue hp _ _ => exact h.setPc (hidle hp (by simp)) .idle
  | @replace p blk data i Q₁ Q₂ hp hQ _ _ _ =>
    refine h.mono (fun j hj href => ?_) (fun _ => id)
      (fun q blk => receiving_update (hidle hp (by simp))) fun _ _ _ => rfl
    have hji : j ≠ i := by
      rintro rfl
      exact hQC j (by rw [hQ]; simp) hj
    dsimp only at href ⊢
    rw [Function.update_of_ne hji] at href ⊢
    exact ⟨hj, href, rfl⟩
  | reuse hp hsplit _ _ _ =>
    have hkept := h.uncache hsplit
    rw [hsplit] at hC
    exact Held.enqueue hkept (hidle hp (by simp)) (List.nodup_cons.mp (List.nodup_middle.mp hC)).1
  | @block p req _ hp => exact h.setPc (hidle hp (by simp)) (.alloc req)
  | pass hp ht => exact htake (hidle hp (by simp)) ht
  | granted hp ht => exact htake (hidle hp (by simp)) ht
  | finishKeep hp hm => exact h.finish hi hp hm (fun j hj => hj) _
  | finishFree hp hm hsplit _ _ =>
    refine h.finish hi hp hm (fun j hj => ?_) _
    rw [hsplit]
    exact (List.mem_append.mp hj).elim (List.mem_append_left _)
      fun hj => List.mem_append_right _ (List.mem_cons_of_mem _ hj)
  | @finishSync p hp _ =>
    refine h.mono (fun j hj href => ⟨hj, href, rfl⟩) (fun _ => id)
      (fun q blk => receiving_update (hidle hp (by simp))) fun q blk hq => ?_
    have hqp : q ≠ p := by
      rintro rfl
      exact hidle hp (by simp) blk hq
    exact Function.update_of_ne hqp ..
  | close hQ hr => exact fun j hj => absurd hj (by simp)
  | reopen => exact h
  | wait hst => exact h.restage (fun j => by rw [hst]; simp) _
  | run hst _ => exact h.restage (fun j => by rw [hst]; simp) .take
  | @takeRead i _ hst _ _ => exact h.restage (fun j => by rw [hst]; simp) (.reading i)
  | @takeWrite i Q' avail hst _ _ =>
    refine h.mono (fun j hj href => ?_) (fun j hj => by cases hst.symm.trans hj)
      (fun _ _ => id) fun _ _ _ => rfl
    dsimp only at hj href ⊢
    by_cases hji : j = i
    · rw [hji, Function.update_self] at href
      exact absurd href (lt_irrefl 0)
    · rw [Function.update_of_ne hji] at href ⊢
      exact ⟨(List.mem_cons.mp hj).resolve_left hji, href, rfl⟩
  | takeSync hst hQ hop =>
    refine h.send (hi.pending _ (.inl ⟨by rw [hQ]; simp, by rw [hop]; simp, ?_⟩)).1 fun j hj => ?_
    · rw [hst]
      simp
    · cases hst.symm.trans hj
  | @respond i Q' avail hst hQ =>
    intro j hj href
    dsimp only at hj href ⊢
    by_cases hji : j = i
    · exact .inl (by rw [hji])
    · rw [Function.update_of_ne hji] at href ⊢
      refine (h j ((List.mem_cons.mp hj).resolve_left hji) href).imp (fun hs => ?_) id
      cases hst.symm.trans hs
  | @tell i hst =>
    obtain ⟨-, -, hop⟩ := hi.told i hst
    obtain ⟨hnone, hpc⟩ := hi.pending i (.inr hst)
    rw [RdView.awaited, if_pos hop] at hpc
    refine h.send hnone fun j hj => .inr ?_
    obtain rfl := RdStage.told.inj (hst.symm.trans hj)
    exact ⟨⟨_, hpc⟩, rfl, rfl⟩
  | scan hst _ => exact h.restage (fun j => by rw [hst]; simp) .top
  | written hst => exact h.restage (fun j => by rw [hst]; simp) .top
  | synced hst _ => exact h.restage (fun j => by rw [hst]; simp) .top

/-! ## 5. A buffer is found

Free buffers and cached ones without references can be had, so one is found if the grants are more
than the answers. -/

/-- The condition of a step under which the account is kept. -/
def Tallied (s : Rds) (ev : RdEvent) : Prop := Orderly s ev ∧ s.CountedReuse ev

/-- **The condition of a step**: besides, when a call passes the wait, fewer answers have not been
picked up than the semaphore grants. -/
def AvailSpared (s : Rds) (ev : RdEvent) : Prop :=
  Tallied s ev ∧ (s.passes ev = true → (s.answered.card : Int) < s.cb.rd_availsem.grants)

variable {s : Rds} {Q C F : List (Fin RD_BUFFS)}

/-- What `rdsbufalloc` finds, on the lists. -/
theorem Lists.finds_iff (h : Lists s.cb Q C F []) :
    rdsbufalloc s.cb ≠ none ↔ F ≠ [] ∨ ∃ i ∈ C, (s.cb.rd_buf i).rd_refcnt ≤ 0 := by
  cases F with
  | cons j F =>
    refine iff_of_true ?_ (.inl (List.cons_ne_nil _ _))
    simp only [rdsbufalloc, h.popFree.1]
    exact Option.some_ne_none _
  | nil =>
    have hf : s.cb.rd_free = .null := h.free
    simp only [rdsbufalloc, hf, h.find_cache_back]
    cases hfind : C.reverse.find? fun j => decide ((s.cb.rd_buf j).rd_refcnt ≤ 0) with
    | none =>
      refine iff_of_false (not_not.mpr rfl) ?_
      rintro (hF | ⟨i, hi, href⟩)
      · exact hF rfl
      · exact List.find?_eq_none.mp hfind i (List.mem_reverse.mpr hi) (decide_eq_true href)
    | some i =>
      refine iff_of_true (Option.some_ne_none _) (.inr ⟨i, ?_, ?_⟩)
      · exact List.mem_reverse.mp (List.mem_of_find?_eq_some hfind)
      · exact of_decide_eq_true (List.find?_eq_some_iff_append.mp hfind).1

/-- The lists and the account of a state in which the readers hold what is referred to. -/
theorem Lists.finds_iff_grants (h : Lists s.cb Q C F []) (hi : RdInv (s.view Q C F))
    (hh : Held (s.view Q C F)) (ha : s.Accounted) :
    rdsbufalloc s.cb ≠ none ↔ (s.answered.card : Int) < s.cb.rd_availsem.grants := by
  -- the semaphore grants the buffers that are free or in the cache
  have hgrants : s.cb.rd_availsem.grants = C.length + F.length := by
    have hlen := h.all.length_eq
    have hcount : s.cb.rd_reqsem.sem.count + s.stage.claimed = Q.length := hi.count
    rw [Rds.Accounted, Rds.account] at ha
    simp only [List.length_append, List.length_nil, List.length_finRange] at hlen
    omega
  -- an answer is in a buffer of the cache, with one reference
  have hanswer : ∀ i ∈ s.answered, i ∈ C ∧ (s.cb.rd_buf i).rd_refcnt = 1 := by
    intro i hmem
    rcases Rds.mem_answered.mp hmem with hst | ⟨⟨blk, hp⟩, hm⟩
    · exact ⟨(hi.told i hst).1, (hi.told i hst).2.1⟩
    · exact ⟨(hi.mailed _ blk i hp hm).1, (hi.mailed _ blk i hp hm).2.1⟩
  have hsub : s.answered ⊆ C.toFinset := fun i hmem => List.mem_toFinset.mpr (hanswer i hmem).1
  have hcard : C.toFinset.card = C.length := List.toFinset_card_of_nodup h.apart.2.1
  rw [h.finds_iff, hgrants]
  constructor
  · rintro (hF | ⟨i, hiC, href⟩)
    · have hle := Finset.card_le_card hsub
      have hpos := List.length_pos_of_ne_nil hF
      omega
    · have hnot : i ∉ s.answered := fun hmem => by
        rw [(hanswer i hmem).2] at href
        exact absurd href (by decide)
      have hlt : s.answered.card < C.toFinset.card :=
        Finset.card_lt_card ⟨hsub, fun hall => hnot (hall (List.mem_toFinset.mpr hiC))⟩
      omega
  · intro hlt
    by_contra hnone
    rw [not_or, not_not] at hnone
    obtain ⟨rfl, hall⟩ := hnone
    have hle : C.toFinset.card ≤ s.answered.card := by
      refine Finset.card_le_card fun i hmem => Rds.mem_answered.mpr ?_
      have hiC := List.mem_toFinset.mp hmem
      exact hh i hiC (not_le.mp fun href => hall ⟨i, hiC, href⟩)
    rw [List.length_nil] at hlt
    omega

section Runs

variable {old : Fin RD_BUFFS → Rdbuff} {mail : Nat → Option RdMsg} {buff : Nat → RdBlock}
  {blk : Nat} {data : RdBlock} {server : Nat → RdBlock}

/-- When `rdsbufalloc` finds a buffer, in every state that steps with orderly lists and counted
reuse lead to. -/
theorem tallied_finds_iff
    (hr : Reaches Rds.step Tallied (Rds.init old mail buff blk data server) s) :
    rdsbufalloc s.cb ≠ none ↔ (s.answered.card : Int) < s.cb.rd_availsem.grants := by
  obtain ⟨Q, C, F, hl, hi, hh, ha⟩ : ∃ Q C F, Lists s.cb Q C F [] ∧ RdInv (s.view Q C F) ∧
      Held (s.view Q C F) ∧ s.Accounted := by
    refine hr.invariant (I := fun s => ∃ Q C F, Lists s.cb Q C F [] ∧ RdInv (s.view Q C F) ∧
      Held (s.view Q C F) ∧ s.Accounted) ?_ ?_
    · refine ⟨[], [], _, lists_init .., inv_init .., fun j hj => absurd hj (by simp [Rds.view]), ?_⟩
      rfl
    · rintro s ev s' ⟨Q, C, F, hl, hi, hh, ha⟩ ⟨ho, hreuse⟩ hs
      obtain ⟨Q', C', F', hl', hm⟩ := step_move hl hi ho hs
      obtain ⟨hQ, hC, hQC, hQF, -, hCF, -⟩ := hl.apart
      exact ⟨Q', C', F', hl', hi.move hQ hQC hQF hCF hm, hh.move hi hQC hC hCF hm,
        (Rds.account_step hi.starts ho hreuse hs).trans ha⟩
  exact hl.finds_iff_grants hi hh ha

/-- The panic of `rdsbufalloc` is not reached in a run whose steps meet the condition: a call that
passes `wait(rd_availsem)` finds a buffer. -/
theorem spared_finds
    (hr : Reaches Rds.step AvailSpared (Rds.init old mail buff blk data server) s)
    (hok : AvailSpared s ev) (hp : s.passes ev = true) :
    rdsbufalloc s.cb ≠ none ∧ s.step ev ≠ none := by
  have hfound := (tallied_finds_iff (hr.mono fun _ _ h => h.1)).mpr (hok.2 hp)
  exact ⟨hfound, fun hnone => hfound ((Rds.step_eq_none_iff hp).mp hnone)⟩

end Runs

/-- A process reads a block and has not run since it was answered. -/
def readAnswered : List RdEvent :=
  [.call 2 (.read 5), .go 2, .process, .process, .process, .process, .process]

/-- A write can then pass the wait. -/
theorem readAnswered_spared : ∃ s, Reaches Rds.step AvailSpared freshRds s ∧
    s.answered.card = 1 ∧ AvailSpared s (.go 1) ∧ s.passes (.go 1) = true := by
  have h1 : (exec Rds.step (fun s ev => tidy s ev = true ∧ s.CountedReuse ev ∧
      (s.passes ev = true → (s.answered.card : Int) < s.cb.rd_availsem.grants)) freshRds
      (readAnswered ++ [.call 1 (.write 7 zeroBlock)])).map
        (fun s => (s.passes (.go 1), decide (s.CountedReuse (.go 1)), s.answered.card,
          s.cb.rd_availsem.grants)) = some (true, true, 1, 64) := by
    decide +kernel
  obtain ⟨s, hs, hl⟩ := Option.map_eq_some_iff.mp h1
  simp only [Prod.mk.injEq, decide_eq_true_eq] at hl
  obtain ⟨hp, hreuse, hcard, hgrants⟩ := hl
  have hr : Reaches Rds.step AvailSpared freshRds s :=
    (reaches_of_exec hs).mono fun _ _ h => ⟨⟨orderly_of_tidy h.1, h.2.1⟩, h.2.2⟩
  refine ⟨s, hr, hcard, ⟨⟨trivial, hreuse⟩, fun _ => ?_⟩, hp⟩
  rw [hcard, hgrants]
  decide

/-- **Two processes are enough for the panic.**  While the first block that process 1 writes is on
its way to the server, it writes so many others that only the buffer with the answer for process 2,
which has not run, is not queued. -/
theorem readAnswered_panics : ∃ s, Reaches Rds.step always freshRds s ∧
    s.passes (.go 1) = true ∧ rdsbufalloc s.cb = none := by
  have h1 : (exec Rds.step always freshRds
      (readAnswered ++ [.call 1 (.write 100 zeroBlock), .go 1, .process, .process] ++
        (List.range 63).flatMap (fun k => [.call 1 (.write (101 + k) zeroBlock), .go 1]) ++
        [.call 1 (.write 200 zeroBlock)])).map
        (fun s => (s.passes (.go 1), (rdsbufalloc s.cb).isNone)) = some (true, true) := by
    decide +kernel
  obtain ⟨s, hs, hl⟩ := Option.map_eq_some_iff.mp h1
  obtain ⟨hp, hnone⟩ := Prod.mk.inj hl
  have hnone := Option.isNone_iff_eq_none.mp hnone
  exact ⟨s, reaches_of_exec hs, hp, hnone⟩

end Xinu
