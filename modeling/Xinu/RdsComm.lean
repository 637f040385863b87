/-
# Exchanges with a remote server (`rdscomm.c`, `rfscomm.c`)

Both functions send a request, wait for a reply, and try again a few times; a reply that is not the
one to this request is passed over.  `rdscomm` means to pass over a reply with a smaller sequence
number as well, and not to send again because of it, but goes on to look at its type.  So a late
reply to an earlier request of the same kind ends the exchange.  Without such replies it is ended
by the reply to this request only (`rdscomm_matched_iff`), as `rfscomm` always is
(`rfscomm_matched`).

What the other functions return is an oracle, the `i`-th call of `udp_sendto` and of `udp_recv` for
every `i`.
-/
import Xinu.Kernel
import Xinu.Lib.Layout

namespace Xinu

open Layouts

/-! ## 1. Messages

A message is its bytes, with the fields of the header at their offsets. -/

abbrev RD_RETRIES : Nat := 3
abbrev RF_RETRIES : Nat := 3
abbrev RD_MSG_RESPONSE : Nat := 0x0100
abbrev RF_MSG_RESPONSE : Nat := 0x0100

/-- `ntohs` of the word at an offset. -/
def netShort (b : Bytes) (i : Nat) : Nat := 256 * (b i).toNat + (b (i + 1)).toNat

/-- `ntohl` of the word at an offset. -/
def netLong (b : Bytes) (i : Nat) : Nat := 65536 * netShort b i + netShort b (i + 2)

/-- The word at an offset set to `htonl(x)`. -/
def setNetLong (b : Bytes) (i x : Nat) : Bytes := fun j =>
  if i ≤ j ∧ j < i + 4 then UInt8.ofNat (x / 256 ^ (3 - (j - i))) else b j

/-- Offsets in `struct rd_msg_hdr`, and in `struct rf_msg_hdr`. -/
abbrev rd_type : Nat := 0
abbrev rd_status : Nat := 2
abbrev rd_seq : Nat := 4

/-- A `uint16` that is put into an `int16`. -/
def toInt16 (x : Nat) : Int := if x < 32768 then x else (x : Int) - 65536

/-- Copy bytes into the beginning of a buffer. -/
def fillReply (b : Bytes) (data : List UInt8) : Bytes := fun i => data.getD i (b i)

/-! ## 2. The loops

Both functions have the same loop around a judgement of the reply, which is a parameter here. -/

/-- What the calls return: `udp_register`, `getlocalip`, and the `i`-th `udp_sendto` and `udp_recv`,
this one with the bytes that it puts into the buffer. -/
structure CommWorld where
  udp_register : Int
  ipvalid : Bool
  getlocalip : Int
  udp_sendto : Nat → Int
  udp_recv : Nat → Int × List UInt8

/-- What is made of a reply: try again, with or without sending, or return. -/
inductive Verdict
  | again (xmit : Bool)
  | done (retval : Int)

/-- What an exchange returns, with its buffer for the reply, how many replies it has waited for, and
whether a reply has ended it. -/
structure CommResult where
  retval : Int
  reply : Bytes
  waits : Nat
  replied : Bool

/-- The loop of an exchange, with `n` tries left after `i`. -/
def commLoop (w : CommWorld) (judge : Int → Bytes → Verdict) :
    Nat → Nat → Bool → Bytes → CommResult
  | 0, i, _, reply => ⟨TIMEOUT, reply, i, false⟩
  | n + 1, i, xmit, reply =>
    if xmit ∧ w.udp_sendto i = SYSERR then ⟨SYSERR, reply, i, false⟩
    else
      let retval := (w.udp_recv i).1
      if retval = TIMEOUT then commLoop w judge n (i + 1) true reply
      else if retval = SYSERR then ⟨SYSERR, reply, i + 1, false⟩
      else
        let reply := fillReply reply (w.udp_recv i).2
        match judge retval reply with
        | .again xmit => commLoop w judge n (i + 1) xmit reply
        | .done r => ⟨r, reply, i + 1, true⟩

/-- The replies that it looks at. -/
def heard (w : CommWorld) (judge : Int → Bytes → Verdict) :
    Nat → Nat → Bool → Bytes → List (Int × Bytes)
  | 0, _, _, _ => []
  | n + 1, i, xmit, reply =>
    if xmit ∧ w.udp_sendto i = SYSERR then []
    else
      let retval := (w.udp_recv i).1
      if retval = TIMEOUT then heard w judge n (i + 1) true reply
      else if retval = SYSERR then []
      else
        let reply := fillReply reply (w.udp_recv i).2
        (retval, reply) :: match judge retval reply with
        | .again xmit => heard w judge n (i + 1) xmit reply
        | .done _ => []

/-- The fields of `struct rdscblk` and of `struct rfdata` that an exchange uses. -/
structure CommBlock where
  seq : Int
  registered : Bool
  slot : Int

/-- `rd_registered` and `rd_udpslot` once the port is registered. -/
def CommBlock.register (c : CommBlock) (w : CommWorld) : CommBlock :=
  if c.registered then c else { c with registered := true, slot := w.udp_register }

/-- The next sequence number is taken. -/
def CommBlock.take (c : CommBlock) : CommBlock := { c with seq := int32 (c.seq + 1) }

/-- A sequence number as a `uint32`, which is what it is compared as. -/
def unsigned (seq : Int) : Nat := (seq % 4294967296).toNat

/-- What `rdscomm` makes of a reply. -/
def rdsJudge (msg : Bytes) (seq : Int) (_ : Int) (reply : Bytes) : Verdict :=
  let xmit := ¬ netLong reply rd_seq < unsigned seq
  if xmit ∧ netLong reply rd_seq ≠ unsigned seq then .again true
  else
    let rtype := toInt16 (netShort reply rd_type)
    if rtype ≠ ((netShort msg rd_type ||| RD_MSG_RESPONSE : Nat) : Int) then .again xmit
    else if netShort reply rd_status ≠ 0 then .done SYSERR
    else .done OK

/-- The port cannot be registered, or there is no local address. -/
def rdsFails (w : CommWorld) (c : CommBlock) : Prop :=
  (c.registered = false ∧ w.udp_register = SYSERR) ∨ (w.ipvalid = false ∧ w.getlocalip = SYSERR)

instance (w : CommWorld) (c : CommBlock) : Decidable (rdsFails w c) :=
  inferInstanceAs (Decidable (_ ∨ _))

/-- `rdscomm.c`, with the control block after it. -/
def rdscomm (w : CommWorld) (msg reply : Bytes) (c : CommBlock) : CommResult × CommBlock :=
  if c.registered = false ∧ w.udp_register = SYSERR then (⟨SYSERR, reply, 0, false⟩, c)
  else if w.ipvalid = false ∧ w.getlocalip = SYSERR then
    (⟨SYSERR, reply, 0, false⟩, c.register w)
  else
    let msg := setNetLong msg rd_seq (unsigned c.seq)
    (commLoop w (rdsJudge msg c.seq) RD_RETRIES 0 true reply, (c.register w).take)

/-- What `rfscomm` makes of a reply. -/
def rfsJudge (msg : Bytes) (seq : Int) (retval : Int) (reply : Bytes) : Verdict :=
  if netLong reply rd_seq ≠ unsigned seq then .again true
  else
    let rtype := toInt16 (netShort reply rd_type)
    if rtype ≠ ((netShort msg rd_type ||| RF_MSG_RESPONSE : Nat) : Int) then .again true
    else .done retval

/-- `rfscomm.c`. -/
def rfscomm (w : CommWorld) (msg reply : Bytes) (c : CommBlock) : CommResult × CommBlock :=
  if c.registered = false ∧ w.udp_register = SYSERR then (⟨SYSERR, reply, 0, false⟩, c)
  else
    let msg := setNetLong msg rd_seq (unsigned c.seq)
    (commLoop w (rfsJudge msg c.seq) RF_RETRIES 0 true reply, (c.register w).take)

/-! ## 3. What ends an exchange

What is said about the loop holds for any judgement. -/

variable {w : CommWorld} {judge : Int → Bytes → Verdict} {n i : Nat} {xmit : Bool}
  {msg reply : Bytes} {c : CommBlock} {seq : Int}

/-- The loop tries as often as it may. -/
theorem commLoop_waits (h : i + n = RD_RETRIES) :
    (commLoop w judge n i xmit reply).waits ≤ RD_RETRIES := by
  induction n generalizing i xmit reply with
  | zero => exact h.le
  | succ n ih =>
    have hnext : ∀ xmit reply, (commLoop w judge n (i + 1) xmit reply).waits ≤ RD_RETRIES :=
      fun _ _ => ih (by omega)
    rw [commLoop]
    dsimp only
    split_ifs
    · dsimp only
      omega
    · exact hnext _ _
    · dsimp only
      omega
    · split
      · exact hnext _ _
      · dsimp only
        omega

/-- **A reply ends the exchange** when it is looked at and judged so, -/
theorem commLoop_replied (h : (commLoop w judge n i xmit reply).replied = true) :
    ∃ x ∈ heard w judge n i xmit reply, (commLoop w judge n i xmit reply).reply = x.2 ∧
      judge x.1 x.2 = .done (commLoop w judge n i xmit reply).retval := by
  induction n generalizing i xmit reply with
  | zero => exact absurd h Bool.false_ne_true
  | succ n ih =>
    rw [commLoop] at h ⊢
    rw [heard]
    dsimp only at h ⊢
    split_ifs at h ⊢ with h1 h2 h3
    · exact ih h
    · cases hj : judge (w.udp_recv i).1 (fillReply reply (w.udp_recv i).2) with
      | again x =>
        rw [hj] at h
        obtain ⟨y, hy, hrest⟩ := ih h
        exact ⟨y, List.mem_cons_of_mem _ hy, hrest⟩
      | done r => exact ⟨_, List.mem_cons_self .., rfl, hj⟩

/-- and every reply that is judged so ends it. -/
theorem commLoop_of_done {x : Int × Bytes} {r : Int} (hx : x ∈ heard w judge n i xmit reply)
    (hj : judge x.1 x.2 = .done r) : (commLoop w judge n i xmit reply).replied = true ∧
      (commLoop w judge n i xmit reply).reply = x.2 ∧
      (commLoop w judge n i xmit reply).retval = r := by
  induction n generalizing i xmit reply with
  | zero => exact absurd hx (List.not_mem_nil)
  | succ n ih =>
    rw [heard] at hx
    rw [commLoop]
    dsimp only at hx ⊢
    split_ifs at hx ⊢ with h1 h2 h3
    · exact absurd hx List.not_mem_nil
    · exact ih hx
    · exact absurd hx List.not_mem_nil
    · rcases List.mem_cons.mp hx with rfl | hx
      · dsimp only at hj
        rw [hj]
        exact ⟨rfl, rfl, rfl⟩
      · cases hy : judge (w.udp_recv i).1 (fillReply reply (w.udp_recv i).2) with
        | again y =>
          rw [hy] at hx
          exact ih hx
        | done r =>
          rw [hy] at hx
          exact absurd hx List.not_mem_nil

/-- Without a reply the exchange is not a success. -/
theorem commLoop_not_replied (h : (commLoop w judge n i xmit reply).replied = false) :
    (commLoop w judge n i xmit reply).retval = SYSERR ∨
      (commLoop w judge n i xmit reply).retval = TIMEOUT := by
  induction n generalizing i xmit reply with
  | zero => exact .inr rfl
  | succ n ih =>
    rw [commLoop] at h ⊢
    dsimp only at h ⊢
    split_ifs at h ⊢
    · exact .inl rfl
    · exact ih h
    · exact .inl rfl
    · cases hy : judge (w.udp_recv i).1 (fillReply reply (w.udp_recv i).2) with
      | again y =>
        rw [hy] at h
        exact ih h
      | done r =>
        rw [hy] at h
        exact absurd h.symm Bool.false_ne_true

/-! ## 4. The result

The judgement of `rdscomm` is compared with the one that is meant. -/

/-- The reply to a request, by its number and type. -/
def Matches (msg : Bytes) (seq : Int) (response : Nat) (reply : Bytes) : Prop :=
  netLong reply rd_seq = unsigned seq ∧ netShort reply rd_type = netShort msg rd_type ||| response

/-- **What is wanted of `rdscomm`**: it gives up after some tries, a reply ends it only if it is the
one to the request, and `OK` is returned with such a reply and a zero status. -/
def ExchangeOk (w : CommWorld) (msg reply : Bytes) (c : CommBlock) : Prop :=
  let r := (rdscomm w msg reply c).1
  r.waits ≤ RD_RETRIES ∧ (r.replied = true → Matches msg c.seq RD_MSG_RESPONSE r.reply) ∧
    (r.retval = OK → r.replied = true ∧ netShort r.reply rd_status = 0)

/-- The replies that `rdscomm` looks at. -/
def rdsHeard (w : CommWorld) (msg reply : Bytes) (c : CommBlock) : List (Int × Bytes) :=
  if rdsFails w c then []
  else heard w (rdsJudge (setNetLong msg rd_seq (unsigned c.seq)) c.seq) RD_RETRIES 0 true reply

/-- The number of a message does not show in its type. -/
theorem netShort_setNetLong (x : Nat) :
    netShort (setNetLong msg rd_seq x) rd_type = netShort msg rd_type := rfl

theorem netShort_lt (b : Bytes) (i : Nat) : netShort b i < 65536 := by
  have h0 := (b i).toNat_lt
  have h1 := (b (i + 1)).toNat_lt
  rw [netShort]
  omega

/-- What is compared as an `int16` is equal as it is. -/
theorem toInt16_eq {x y : Nat} (hx : x < 65536) (h : toInt16 x = y) : x = y := by
  rw [toInt16] at h
  split_ifs at h
  · exact Int.ofNat.inj h
  · omega

/-- When `rdscomm` judges a reply to be the end. -/
theorem rdsJudge_done {r v : Int} : rdsJudge msg seq v reply = .done r ↔
    netLong reply rd_seq ≤ unsigned seq ∧
      toInt16 (netShort reply rd_type) = ((netShort msg rd_type ||| RD_MSG_RESPONSE : Nat) : Int) ∧
      r = if netShort reply rd_status ≠ 0 then SYSERR else OK := by
  rw [rdsJudge]
  dsimp only
  by_cases h1 : ¬ netLong reply rd_seq < unsigned seq ∧ netLong reply rd_seq ≠ unsigned seq
  · rw [if_pos (by simpa using h1)]
    refine iff_of_false nofun fun h => ?_
    omega
  rw [if_neg (by simpa using h1)]
  by_cases h2 : toInt16 (netShort reply rd_type) ≠
      ((netShort msg rd_type ||| RD_MSG_RESPONSE : Nat) : Int)
  · rw [if_pos h2]
    exact iff_of_false nofun fun h => h2 h.2.1
  rw [if_neg h2]
  have hle : netLong reply rd_seq ≤ unsigned seq := by omega
  rw [not_not] at h2
  split_ifs
  · rw [Verdict.done.injEq]
    exact ⟨fun h => ⟨hle, h2, h.symm⟩, fun h => h.2.2.symm⟩
  · rw [Verdict.done.injEq]
    exact ⟨fun h => ⟨hle, h2, h.symm⟩, fun h => h.2.2.symm⟩

/-- **When `rdscomm` does what is wanted**: exactly when none of the replies that it looks at has
the type of the reply to this request and a smaller sequence number. -/
theorem rdscomm_matched_iff (w : CommWorld) (msg reply : Bytes) (c : CommBlock) :
    ExchangeOk w msg reply c ↔ ∀ x ∈ rdsHeard w msg reply c,
      toInt16 (netShort x.2 rd_type) = ((netShort msg rd_type ||| RD_MSG_RESPONSE : Nat) : Int) →
      ¬ netLong x.2 rd_seq < unsigned c.seq := by
  by_cases hf : rdsFails w c
  · -- neither a request is sent nor a reply received
    have hr : (rdscomm w msg reply c).1 = ⟨SYSERR, reply, 0, false⟩ := by
      rw [rdscomm]
      by_cases h1 : c.registered = false ∧ w.udp_register = SYSERR
      · rw [if_pos h1]
      · rw [if_neg h1, if_pos (hf.resolve_left h1)]
    rw [ExchangeOk, hr, rdsHeard, if_pos hf]
    exact iff_of_true ⟨Nat.zero_le _, nofun, nofun⟩ nofun
  obtain ⟨h1, h2⟩ := not_or.mp hf
  have hr : (rdscomm w msg reply c).1 = commLoop w
      (rdsJudge (setNetLong msg rd_seq (unsigned c.seq)) c.seq) RD_RETRIES 0 true reply := by
    rw [rdscomm, if_neg h1, if_neg h2]
  rw [ExchangeOk, hr, rdsHeard, if_neg hf]
  constructor
  · rintro ⟨-, hok, -⟩ x hx htype hlt
    have hdone : rdsJudge (setNetLong msg rd_seq (unsigned c.seq)) c.seq x.1 x.2 = .done _ :=
      rdsJudge_done.mpr ⟨hlt.le, by rw [netShort_setNetLong]; exact htype, rfl⟩
    obtain ⟨hreplied, hreply, -⟩ := commLoop_of_done hx hdone
    have hmatch := (hok hreplied).1
    rw [hreply] at hmatch
    omega
  · intro hall
    have hmatched : (commLoop w (rdsJudge (setNetLong msg rd_seq (unsigned c.seq)) c.seq)
        RD_RETRIES 0 true reply).replied = true → _ := commLoop_replied
    refine ⟨commLoop_waits rfl, fun hreplied => ?_, fun hret => ?_⟩
    · obtain ⟨x, hx, hreply, hdone⟩ := hmatched hreplied
      obtain ⟨hle, htype, -⟩ := rdsJudge_done.mp hdone
      rw [netShort_setNetLong] at htype
      rw [hreply]
      exact ⟨le_antisymm hle (not_lt.mp (hall x hx htype)), toInt16_eq (netShort_lt _ _) htype⟩
    · have hreplied : (commLoop w (rdsJudge (setNetLong msg rd_seq (unsigned c.seq)) c.seq)
          RD_RETRIES 0 true reply).replied = true := by
        by_contra hno
        rcases commLoop_not_replied (Bool.not_eq_true _ ▸ hno) with h | h
        · exact absurd (h.symm.trans hret) (by decide)
        · exact absurd (h.symm.trans hret) (by decide)
      obtain ⟨x, -, hreply, hdone⟩ := hmatched hreplied
      obtain ⟨-, -, hstatus⟩ := rdsJudge_done.mp hdone
      refine ⟨hreplied, ?_⟩
      rw [hret] at hstatus
      rw [hreply]
      by_contra hne
      rw [if_pos hne] at hstatus
      exact absurd hstatus (by decide)

/-- A read request with the number 2, which hears the reply to the one with the number 1. -/
def lateWorld : CommWorld where
  udp_register := 0
  ipvalid := true
  getlocalip := 0
  udp_sendto _ := OK
  udp_recv _ := (8, [0x01, 0x10, 0, 0, 0, 0, 0, 1])

def rdRequest : Bytes := fillReply (fun _ => 0) [0x00, 0x10]

/-- **A late reply is taken for the one to this request.** -/
theorem rdscomm_takes_late :
    ¬ ExchangeOk lateWorld rdRequest (fun _ => 0) ⟨2, true, 0⟩ := by
  rintro ⟨-, hmatch, -⟩
  have hreplied : (rdscomm lateWorld rdRequest (fun _ => 0) ⟨2, true, 0⟩).1.replied = true := by
    decide
  exact absurd (hmatch hreplied).1 (by decide)

/-- **A reply ends an exchange of `rfscomm` only if it is the one to the request.** -/
theorem rfscomm_matched (w : CommWorld) (msg reply : Bytes) (c : CommBlock)
    (h : (rfscomm w msg reply c).1.replied = true) :
    Matches msg c.seq RF_MSG_RESPONSE (rfscomm w msg reply c).1.reply := by
  rw [rfscomm] at h ⊢
  split_ifs at h ⊢
  obtain ⟨x, -, hreply, hdone⟩ := commLoop_replied h
  rw [rfsJudge] at hdone
  dsimp only at hdone
  split_ifs at hdone with h1 h2
  dsimp only
  rw [hreply]
  rw [netShort_setNetLong, not_not] at h2
  exact ⟨not_not.mp h1, toInt16_eq (netShort_lt _ _) h2⟩

end Xinu
