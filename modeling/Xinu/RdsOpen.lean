/-
# Opening a remote disk (`rdsopen.c`, `rdsclose.c`)

`rdsopen` sets the state of the device to `RD_PEND` before it looks at the disk's identifier.  The
exits behind the exchange with the server set it back to `RD_FREE`; the two that refuse an
identifier do not, and after one of them every later open fails.  As long as the identifiers are
neither empty nor too long, the device can always be opened again (`rdsopen_recovers_iff`).

The exchange with the server is any function of the message; `rdscomm` is one (`rdsExchange`).  A
copy loop works on the bytes from the start of its target on and keeps a list of the offsets it
writes to.
-/
import Xinu.RdsComm
import Xinu.LfsOpen

namespace Xinu

open Layouts

/-! ## 1. The device

The copies of the identifier keep the offsets that they write to, so that a write beyond its end
could be seen. -/

abbrev RD_IDLEN : Nat := 64
abbrev RD_MSG_OREQ : Nat := 0x0030

/-- The offset of `rd_id` in a message. -/
abbrev rd_msg_id : Nat := 8

inductive RdDevState
  | RD_FREE
  | RD_OPEN
  | RD_PEND
  deriving DecidableEq

/-- What opening and closing use of `struct rdscblk`: the state, the bytes from `rd_id` on, and how
many requests are queued. -/
structure RdDev where
  rd_state : RdDevState
  rd_id : Bytes
  requests : Nat

/-- Memory, with the offsets that were written to. -/
structure Written where
  mem : Bytes
  offsets : List Nat

def Written.put (w : Written) (i : Nat) (c : UInt8) : Written :=
  ⟨Function.update w.mem i c, i :: w.offsets⟩

/-- The loop that copies the identifier into the control block; `none` is the length that is too
large. -/
def copyId : List UInt8 → Nat → Written → Option Nat × Written
  | [], len, w => (some len, w.put len 0)
  | c :: idfrom, len, w =>
    if len + 1 ≥ RD_IDLEN then (none, w.put len c) else copyId idfrom (len + 1) (w.put len c)

/-- The loop that copies it into the request. -/
def copyRequestId : List UInt8 → Nat → Written → Written
  | [], idto, w => w.put idto 0
  | c :: idfrom, idto, w => copyRequestId idfrom (idto + 1) (w.put idto c)

/-- The request, with an empty identifier. -/
def openRequest (old : Bytes) : Bytes :=
  fillReply old ([0, UInt8.ofNat RD_MSG_OREQ, 0, 0, 0, 0, 0, 0] ++ List.replicate RD_IDLEN 0)

/-- What `rdsopen` returns, the device, and the offsets it has written to from `rd_id` on and in the
request. -/
structure RdOpen where
  retval : Int
  dev : RdDev
  idWrites : List Nat
  msgWrites : List Nat

/-- `rdsopen.c`; `old` is what the stack holds in the place of the message. -/
def rdsopen (dvnum : Nat) (exchange : Bytes → Int × Bytes) (old : Bytes) (diskid : Str)
    (d : RdDev) : RdOpen :=
  if d.rd_state ≠ .RD_FREE then ⟨SYSERR, d, [], []⟩
  else
    let copied := copyId diskid.1 0 ⟨d.rd_id, []⟩
    let d := { d with rd_state := .RD_PEND, rd_id := copied.2.mem }
    match copied.1 with
    | none => ⟨SYSERR, d, copied.2.offsets, []⟩
    | some len =>
      if len = 0 then ⟨SYSERR, d, copied.2.offsets, []⟩
      else
        let msg := copyRequestId diskid.1 rd_msg_id ⟨openRequest old, []⟩
        let r := exchange msg.mem
        if r.1 = SYSERR then
          ⟨SYSERR, { d with rd_state := .RD_FREE }, copied.2.offsets, msg.offsets⟩
        else if r.1 = TIMEOUT then
          ⟨SYSERR, { d with rd_state := .RD_FREE }, copied.2.offsets, msg.offsets⟩
        else if netShort r.2 rd_status ≠ 0 then
          ⟨SYSERR, { d with rd_state := .RD_FREE }, copied.2.offsets, msg.offsets⟩
        else ⟨dvnum, { d with rd_state := .RD_OPEN }, copied.2.offsets, msg.offsets⟩

/-- `rdsclose.c`, as far as the state goes. -/
def RdDev.rdsclose (d : RdDev) : Int × RdDev :=
  if d.rd_state ≠ .RD_OPEN then (SYSERR, d)
  else if d.requests ≠ 0 then (SYSERR, d)
  else (OK, { d with rd_state := .RD_FREE })

/-- The exchange by `rdscomm`. -/
def rdsExchange (w : CommWorld) (resp : Bytes) (c : CommBlock) (msg : Bytes) : Int × Bytes :=
  ((rdscomm w msg resp c).1.retval, (rdscomm w msg resp c).1.reply)

/-! ## 2. One open after the other

What callers may rely on, for any sequence of opens. -/

/-- An open, with the exchange it makes. -/
structure Attempt where
  diskid : Str
  exchange : Bytes → Int × Bytes
  old : Bytes

variable (dvnum : Nat)

def Attempt.open (a : Attempt) (d : RdDev) : RdOpen := rdsopen dvnum a.exchange a.old a.diskid d

/-- An open that fails, or one that succeeds and the close that completes it, with no request left
on the queue. -/
def Attempt.run (d : RdDev) (a : Attempt) : RdDev :=
  let r := a.open dvnum d
  if r.retval = SYSERR then r.dev else ({ r.dev with requests := 0 } : RdDev).rdsclose.2

/-- Not empty, and short enough. -/
def GoodId (diskid : Str) : Prop := 0 < diskid.1.length ∧ diskid.1.length < RD_IDLEN

instance (diskid : Str) : Decidable (GoodId diskid) := inferInstanceAs (Decidable (_ ∧ _))

/-- The server answers, and grants the open. -/
def Willing (exchange : Bytes → Int × Bytes) : Prop :=
  ∀ msg, (exchange msg).1 = OK ∧ netShort (exchange msg).2 rd_status = 0

/-- **What is wanted of the opens of a device**, one after the other from the state `d` on: one that
fails leaves the device free, nothing is written outside of the two identifiers, and an open with a
good identifier and a willing server succeeds in the end. -/
structure Reopens (as : List Attempt) (d : RdDev) : Prop where
  failed : ∀ bs a cs, as = bs ++ a :: cs → (bs.foldl (Attempt.run dvnum) d).rd_state = .RD_FREE →
    (a.open dvnum (bs.foldl (Attempt.run dvnum) d)).retval = SYSERR →
    (a.open dvnum (bs.foldl (Attempt.run dvnum) d)).dev.rd_state = .RD_FREE
  inside : ∀ bs a cs, as = bs ++ a :: cs →
    (∀ i ∈ (a.open dvnum (bs.foldl (Attempt.run dvnum) d)).idWrites, i < RD_IDLEN) ∧
      ∀ i ∈ (a.open dvnum (bs.foldl (Attempt.run dvnum) d)).msgWrites,
        rd_msg_id ≤ i ∧ i < rd_msg_id + RD_IDLEN
  later : ∀ a : Attempt, GoodId a.diskid → Willing a.exchange →
    (a.open dvnum (as.foldl (Attempt.run dvnum) d)).retval = dvnum

/-! ## 3. What a single open does

By the exits of `rdsopen`, in their order. -/

variable {dvnum : Nat} {idfrom : List UInt8} {len idto n : Nat} {w : Written} {a : Attempt}
  {d : RdDev} {as : List Attempt}

theorem copyId_length (h : len < RD_IDLEN) : (copyId idfrom len w).1 =
    if len + idfrom.length < RD_IDLEN then some (len + idfrom.length) else none := by
  induction idfrom generalizing len w with
  | nil => exact (if_pos h).symm
  | cons c idfrom ih =>
    rw [copyId, List.length_cons]
    split_ifs with h1 h2 h2
    · omega
    · rfl
    · rw [ih (by omega), if_pos (by omega)]
      congr 1
      omega
    · rw [ih (by omega), if_neg (by omega)]

/-- **Nothing is written behind the identifier**, however long it is. -/
theorem copyId_offsets (h : len < RD_IDLEN) (hw : ∀ i ∈ w.offsets, i < RD_IDLEN) :
    ∀ i ∈ (copyId idfrom len w).2.offsets, i < RD_IDLEN := by
  have hput : ∀ c, ∀ i ∈ (w.put len c).offsets, i < RD_IDLEN := by
    intro c i hi
    rcases List.mem_cons.mp hi with rfl | hi
    · exact h
    · exact hw i hi
  induction idfrom generalizing len w with
  | nil => exact hput 0
  | cons c idfrom ih =>
    rw [copyId]
    split_ifs with h1
    · exact hput c
    · have hlen : len + 1 < RD_IDLEN := not_le.mp h1
      refine ih hlen (hput c) fun b i hi => ?_
      rcases List.mem_cons.mp hi with rfl | hi
      · exact hlen
      · exact hput c i hi

theorem copyRequestId_offsets (h : idto + idfrom.length < n) (hm : rd_msg_id ≤ idto)
    (hw : ∀ i ∈ w.offsets, rd_msg_id ≤ i ∧ i < n) :
    ∀ i ∈ (copyRequestId idfrom idto w).offsets, rd_msg_id ≤ i ∧ i < n := by
  have hput : ∀ c, ∀ i ∈ (w.put idto c).offsets, rd_msg_id ≤ i ∧ i < n := by
    intro c i hi
    rcases List.mem_cons.mp hi with rfl | hi
    · exact ⟨hm, by omega⟩
    · exact hw i hi
  induction idfrom generalizing idto w with
  | nil => exact hput 0
  | cons c idfrom ih =>
    rw [List.length_cons] at h
    refine ih (by omega) (by omega) (hput c) fun b i hi => ?_
    rcases List.mem_cons.mp hi with rfl | hi
    · exact ⟨by omega, by omega⟩
    · exact hput c i hi

/-- An identifier that is not good is refused, with the device pending. -/
theorem open_of_bad (hd : d.rd_state = .RD_FREE) (ha : ¬ GoodId a.diskid) :
    (a.open dvnum d).retval = SYSERR ∧ (a.open dvnum d).dev.rd_state = .RD_PEND := by
  have hlen := @copyId_length a.diskid.1 0 ⟨d.rd_id, []⟩ (by decide)
  rw [Nat.zero_add] at hlen
  rw [Attempt.open, rdsopen, if_neg (not_not.mpr hd)]
  dsimp only
  by_cases h1 : a.diskid.1.length < RD_IDLEN
  · have h0 : a.diskid.1.length = 0 := by
      by_contra hne
      exact ha ⟨Nat.pos_of_ne_zero hne, h1⟩
    rw [hlen, if_pos h1]
    dsimp only
    rw [if_pos h0]
    exact ⟨rfl, rfl⟩
  · rw [hlen, if_neg h1]
    exact ⟨rfl, rfl⟩

/-- With a good identifier the exchange decides. -/
theorem open_of_good (hd : d.rd_state = .RD_FREE) (ha : GoodId a.diskid) :
    (a.open dvnum d).retval = SYSERR ∧ (a.open dvnum d).dev.rd_state = .RD_FREE ∨
      (a.open dvnum d).retval = dvnum ∧ (a.open dvnum d).dev.rd_state = .RD_OPEN := by
  have hlen := @copyId_length a.diskid.1 0 ⟨d.rd_id, []⟩ (by decide)
  rw [Nat.zero_add, if_pos ha.2] at hlen
  rw [Attempt.open, rdsopen, if_neg (not_not.mpr hd)]
  dsimp only
  rw [hlen]
  dsimp only
  rw [if_neg ha.1.ne']
  split_ifs
  · exact .inl ⟨rfl, rfl⟩
  · exact .inl ⟨rfl, rfl⟩
  · exact .inl ⟨rfl, rfl⟩
  · exact .inr ⟨rfl, rfl⟩

/-- A willing server lets it succeed. -/
theorem open_of_willing (hd : d.rd_state = .RD_FREE) (ha : GoodId a.diskid)
    (hw : Willing a.exchange) : (a.open dvnum d).retval = dvnum := by
  have hlen := @copyId_length a.diskid.1 0 ⟨d.rd_id, []⟩ (by decide)
  rw [Nat.zero_add, if_pos ha.2] at hlen
  rw [Attempt.open, rdsopen, if_neg (not_not.mpr hd)]
  dsimp only
  rw [hlen]
  dsimp only
  obtain ⟨hret, hstatus⟩ := hw (copyRequestId a.diskid.1 rd_msg_id ⟨openRequest a.old, []⟩).mem
  rw [if_neg ha.1.ne', hret, if_neg (by decide), if_neg (by decide), if_neg (not_not.mpr hstatus)]

/-- A device that is not free is not opened. -/
theorem open_of_not_free (hd : d.rd_state ≠ .RD_FREE) : a.open dvnum d = ⟨SYSERR, d, [], []⟩ := by
  rw [Attempt.open, rdsopen, if_pos hd]

/-- **No open writes outside of the identifiers.** -/
theorem open_inside (a : Attempt) (d : RdDev) :
    (∀ i ∈ (a.open dvnum d).idWrites, i < RD_IDLEN) ∧
      ∀ i ∈ (a.open dvnum d).msgWrites, rd_msg_id ≤ i ∧ i < rd_msg_id + RD_IDLEN := by
  have hid : ∀ i ∈ (copyId a.diskid.1 0 ⟨d.rd_id, []⟩).2.offsets, i < RD_IDLEN :=
    copyId_offsets (by decide) nofun
  have hlen := @copyId_length a.diskid.1 0 ⟨d.rd_id, []⟩ (by decide)
  rw [Nat.zero_add] at hlen
  by_cases hd : d.rd_state ≠ .RD_FREE
  · rw [open_of_not_free hd]
    exact ⟨nofun, nofun⟩
  rw [Attempt.open, rdsopen, if_neg hd]
  dsimp only
  by_cases h1 : a.diskid.1.length < RD_IDLEN
  · rw [hlen, if_pos h1]
    have hmsg := @copyRequestId_offsets a.diskid.1 rd_msg_id (rd_msg_id + RD_IDLEN)
      ⟨openRequest a.old, []⟩ (by omega) le_rfl nofun
    dsimp only
    split_ifs
    · exact ⟨hid, nofun⟩
    · exact ⟨hid, hmsg⟩
    · exact ⟨hid, hmsg⟩
    · exact ⟨hid, hmsg⟩
    · exact ⟨hid, hmsg⟩
  · rw [hlen, if_neg h1]
    exact ⟨hid, nofun⟩

/-! ## 4. The result

By induction on the opens. -/

/-- Once the device is pending, it stays so. -/
theorem run_pending (as : List Attempt) (hd : d.rd_state = .RD_PEND) :
    (as.foldl (Attempt.run dvnum) d).rd_state = .RD_PEND := by
  induction as generalizing d with
  | nil => exact hd
  | cons a as ih =>
    refine ih ?_
    rw [Attempt.run, open_of_not_free (by rw [hd]; decide)]
    exact hd

/-- **The device after opens and closes**: free, unless an identifier was not good. -/
theorem run_state (hd : d.rd_state = .RD_FREE) (as : List Attempt) :
    (as.foldl (Attempt.run dvnum) d).rd_state =
      if ∀ a ∈ as, GoodId a.diskid then .RD_FREE else .RD_PEND := by
  induction as generalizing d with
  | nil => exact hd
  | cons a as ih =>
    rw [List.foldl_cons]
    by_cases ha : GoodId a.diskid
    · have hfree : (Attempt.run dvnum d a).rd_state = .RD_FREE := by
        rw [Attempt.run]
        dsimp only
        rcases @open_of_good dvnum _ _ hd ha with ⟨h1, h2⟩ | ⟨h1, h2⟩
        · rw [if_pos h1]
          exact h2
        · have hret : (dvnum : Int) ≠ SYSERR := by
            rw [SYSERR]
            omega
          rw [if_neg (h1 ▸ hret), RdDev.rdsclose, if_neg (not_not.mpr h2), if_neg (by simp)]
      rw [ih hfree]
      simp [ha]
    · obtain ⟨h1, h2⟩ := @open_of_bad dvnum _ _ hd ha
      have hpend : (Attempt.run dvnum d a).rd_state = .RD_PEND := by
        rw [Attempt.run]
        dsimp only
        rw [if_pos h1]
        exact h2
      rw [run_pending as hpend, if_neg fun hall => ha (hall a (by simp))]

/-- **When a device can always be opened again**: exactly when no open has an identifier that is
empty or too long. -/
theorem rdsopen_recovers_iff (dvnum : Nat) (as : List Attempt) (d : RdDev)
    (hd : d.rd_state = .RD_FREE) :
    Reopens dvnum as d ↔ ∀ a ∈ as, GoodId a.diskid := by
  constructor
  · intro h
    by_contra hbad
    have hpend := @run_state dvnum _ hd as
    rw [if_neg hbad] at hpend
    have hopen := h.later ⟨⟨[97], by decide⟩, fun _ => (OK, fun _ => 0), fun _ => 0⟩ (by decide)
      fun _ => ⟨rfl, rfl⟩
    rw [open_of_not_free (by rw [hpend]; decide)] at hopen
    dsimp only [SYSERR] at hopen
    omega
  · intro hgood
    refine ⟨?_, fun bs a cs _ => open_inside a _, fun a ha hw => ?_⟩
    · rintro bs a cs rfl hfree hret
      rcases @open_of_good dvnum _ _ hfree (hgood a (by simp)) with h | ⟨h, -⟩
      · exact h.2
      · rw [h, SYSERR] at hret
        omega
    · have hfree := @run_state dvnum _ hd as
      rw [if_pos hgood] at hfree
      exact open_of_willing hfree ha hw

/-- The device after `rdsinit`. -/
def freshDev : RdDev := ⟨.RD_FREE, fun _ => 0, 0⟩

/-- A server that is not there. -/
def silentWorld : CommWorld := ⟨0, true, 0, fun _ => OK, fun _ => (TIMEOUT, [])⟩

/-- An open that times out can be tried again. -/
theorem rdsopen_recovers_timeout :
    Reopens 14 [⟨nameA, rdsExchange silentWorld (fun _ => 0) ⟨1, true, 0⟩, fun _ => 0⟩] freshDev :=
  (rdsopen_recovers_iff 14 _ freshDev rfl).mpr (by decide)

/-- **An empty identifier disables the device**: the next open fails, though the server would grant
it. -/
theorem rdsopen_disables : ¬ Reopens 14
    [⟨⟨[], by decide⟩, rdsExchange silentWorld (fun _ => 0) ⟨1, true, 0⟩, fun _ => 0⟩]
    freshDev := by
  intro h
  have hopen := h.later ⟨nameA, fun _ => (OK, fun _ => 0), fun _ => 0⟩ (by decide)
    fun _ => ⟨rfl, rfl⟩
  exact absurd hopen (by decide)

end Xinu
