/-
# Remote files (`rflread.c`, `rflwrite.c`, `rfsopen.c`, `rflclose.c`, `rflseek.c`)

Each operation forms a request with the file's name, and hands it to `rfscomm`.  `rflread` takes the
number of bytes to copy from the reply and compares it with nothing, so it does what its caller
asked for if and only if the server has sent no more than was requested (`rflread_iff`).

The name is copied by loops that stop at a null.  The list of the offsets that they write to is
kept.
-/
import Xinu.RdsOpen
import Xinu.Doprnt

namespace Xinu

open Layouts

/-! ## 1. Control blocks and messages

Messages are the bytes of the C structures, with the fields at their offsets.  The bytes of the
stack that a message is built in are part of the environment. -/

abbrev Nrfl : Nat := 10
abbrev RF_NAMLEN : Nat := 128
abbrev RF_DATALEN : Nat := 1024
abbrev RF_MODE_R : Nat := 1
abbrev RF_MODE_W : Nat := 2

abbrev RF_MSG_RREQ : Nat := 1
abbrev RF_MSG_WREQ : Nat := 2
abbrev RF_MSG_OREQ : Nat := 3

/-- Offsets in the messages, behind those of `struct rf_msg_hdr`. -/
abbrev rf_name : Nat := 8
abbrev rf_pos : Nat := 136
abbrev rf_mode : Nat := 136
abbrev rf_len : Nat := 140
abbrev rf_data : Nat := 144

inductive RfState
  | RF_FREE
  | RF_USED
  deriving DecidableEq

structure Rflcblk where
  rfstate : RfState
  rfdev : Int
  rfname : Bytes
  rfpos : Nat
  rfmode : Nat

/-- The bytes from `rfname` on.  A walk through those of an open file ends in the control block,
because its mode has a null byte. -/
def Rflcblk.fromName (b : Rflcblk) (i : Nat) : UInt8 :=
  if i < RF_NAMLEN then b.rfname i
  else if i < RF_NAMLEN + 4 then UInt8.ofNat (b.rfpos / 256 ^ (i - RF_NAMLEN))
  else UInt8.ofNat (b.rfmode / 256 ^ (i - (RF_NAMLEN + 4)))

/-- The bytes of a string. -/
def CString.byte (s : CString) (i : Nat) : UInt8 := s.chars.getD i 0

/-- `rfltab`, and what an exchange uses of `Rf_data`. -/
structure Rfs where
  rfltab : Nat → Rflcblk
  comm : CommBlock

def Rfs.setBlock (s : Rfs) (i : Nat) (b : Rflcblk) : Rfs :=
  { s with rfltab := Function.update s.rfltab i b }

/-- What a call finds: what the functions that `rfscomm` calls return, and what the stack holds in
the place of the request and of the reply. -/
structure RfsEnv where
  world : CommWorld
  msg : Bytes
  resp : Bytes

/-- What a call returns and leaves, the request it sends, the offsets in it that copying the name
has written to, and, of a read, the offsets in the reply that are read and the bytes that are put
into the caller's buffer. -/
structure RfsRun where
  retval : Int
  rfs : Rfs
  sent : Option Bytes
  nameWrites : List Nat
  respReads : List Nat
  buff : List UInt8

/-- Nothing is sent. -/
def refused (s : Rfs) : RfsRun := ⟨SYSERR, s, none, [], [], []⟩

/-! ## 2. The code

The offsets that copying writes to, and those that a read copies to, are kept beside the result,
so that a write outside of a message or a buffer can be seen. -/

/-- `while ( (*to++ = *from++) )` with `n` characters left before the name is too long: the length
of the name, if it is not. -/
def copyRfName (src : Nat → UInt8) (dst : Nat) : Nat → Nat → Written → Option Nat × Written
  | 0, _, w => (none, w)
  | n + 1, len, w =>
    let w := w.put (dst + len) (src len)
    if src len = 0 then (some len, w) else copyRfName src dst n (len + 1) w

/-- The same loop without a limit, which comes to a null in `n` rounds. -/
def copyRfRest (src : Nat → UInt8) (dst : Nat) : Nat → Nat → Written → Written
  | 0, _, w => w
  | n + 1, k, w =>
    let w := w.put (dst + k) (src k)
    if src k = 0 then w else copyRfRest src dst n (k + 1) w

/-- Type, status and sequence number, and a name of null bytes. -/
def requestHeader (type : Nat) (msg : Bytes) : Written :=
  ⟨fillReply msg ([0, UInt8.ofNat type, 0, 0, 0, 0, 0, 0] ++ List.replicate RF_NAMLEN 0), []⟩

/-- The request as `rfscomm` sends it, unless it cannot register its port. -/
def rfsSent (w : CommWorld) (msg : Bytes) (c : CommBlock) : Option Bytes :=
  if c.registered = false ∧ w.udp_register = SYSERR then none
  else some (setNetLong msg rd_seq (unsigned c.seq))

/-- The reply is there, and reports no error. -/
def CommResult.Accepted (r : CommResult) : Prop :=
  r.retval ≠ SYSERR ∧ r.retval ≠ TIMEOUT ∧ netShort r.reply rd_status = 0

instance (r : CommResult) : Decidable r.Accepted := inferInstanceAs (Decidable (_ ∧ _))

/-- The position and the count are set in a request. -/
def setPosLen (msg : Bytes) (pos : Nat) (count : Int) : Bytes :=
  setNetLong (setNetLong msg rf_pos pos) rf_len count.toNat

def rflread (env : RfsEnv) (s : Rfs) (minor : Nat) (count : Int) : RfsRun :=
  let rfptr := s.rfltab minor
  if count ≤ 0 ∨ count > RF_DATALEN then refused s
  else if rfptr.rfstate = .RF_FREE then refused s
  else if rfptr.rfmode &&& RF_MODE_R = 0 then refused s
  else
    let named := copyRfName rfptr.fromName rf_name RF_NAMLEN 0 (requestHeader RF_MSG_RREQ env.msg)
    if named.1 = none then refused s
    else
      let msg := setPosLen named.2.mem rfptr.rfpos count
      let sent := rfsSent env.world msg s.comm
      let r := rfscomm env.world msg env.resp s.comm
      let s := { s with comm := r.2 }
      let run := { refused s with sent := sent, nameWrites := named.2.offsets }
      if ¬ r.1.Accepted then run
      else
        -- the loop over `i < ntohl(resp.rf_len)`
        let n := netLong r.1.reply rf_len
        { run with
          retval := int32 n
          rfs := s.setBlock minor { rfptr with rfpos := (rfptr.rfpos + n) % 2 ^ 32 }
          respReads := (List.range n).map (rf_data + ·)
          buff := (List.range n).map fun i => r.1.reply (rf_data + i) }

/-- The data of a write request, with null bytes behind it. -/
def copyData (msg buff : Bytes) (count : Int) : Bytes := fun j =>
  if rf_data ≤ j ∧ j < rf_data + RF_DATALEN then
    if ((j - rf_data : Nat) : Int) < count then buff (j - rf_data) else 0
  else msg j

def rflwrite (env : RfsEnv) (s : Rfs) (minor : Nat) (buff : Bytes) (count : Int) : RfsRun :=
  let rfptr := s.rfltab minor
  if count ≤ 0 ∨ count > RF_DATALEN then refused s
  else if rfptr.rfstate = .RF_FREE ∨ rfptr.rfmode &&& RF_MODE_W = 0 then refused s
  else
    let named := copyRfName rfptr.fromName rf_name RF_NAMLEN 0 (requestHeader RF_MSG_WREQ env.msg)
    match named.1 with
    | none => refused s
    | some len =>
      -- the second loop goes on behind the null
      let named := copyRfRest rfptr.fromName rf_name (RF_NAMLEN + 8 - (len + 1)) (len + 1) named.2
      let msg := copyData (setPosLen named.mem rfptr.rfpos count) buff count
      let sent := rfsSent env.world msg s.comm
      let r := rfscomm env.world msg env.resp s.comm
      let s := { s with comm := r.2 }
      let run := { refused s with sent := sent, nameWrites := named.offsets }
      if ¬ r.1.Accepted then run
      else
        let n := netLong r.1.reply rf_len
        { run with
          retval := int32 n
          rfs := s.setBlock minor { rfptr with rfpos := (rfptr.rfpos + n) % 2 ^ 32 } }

/-- `rfsgetmode.c`, which parses a mode string as `lfgetmode.c` does. -/
def rfsgetmode (mode : Str) : Option Nat := lfgetmode mode

def rfsopen (env : RfsEnv) (s : Rfs) (name : CString) (mode : Str) : RfsRun :=
  match (List.range Nrfl).find? fun i => (s.rfltab i).rfstate = .RF_FREE with
  | none => refused s
  | some i =>
    let copied := copyRfName name.byte 0 RF_NAMLEN 0 ⟨(s.rfltab i).rfname, []⟩
    let rfptr := { s.rfltab i with rfname := copied.2.mem }
    match copied.1 with
    | none => refused (s.setBlock i rfptr)
    | some len =>
      if len = 0 then refused (s.setBlock i rfptr)
      else match rfsgetmode mode with
      | none => refused (s.setBlock i { rfptr with rfmode := 0xffffffff })
      | some rfmode =>
        let rfptr := { rfptr with rfmode := rfmode }
        let named := copyRfRest name.byte rf_name (name.chars.length + 1) 0
          (requestHeader RF_MSG_OREQ env.msg)
        let msg := setNetLong named.mem rf_mode rfmode
        let sent := rfsSent env.world msg s.comm
        let r := rfscomm env.world msg env.resp s.comm
        let s := { s.setBlock i rfptr with comm := r.2 }
        let run := { refused s with sent := sent, nameWrites := named.offsets }
        if ¬ r.1.Accepted then run
        else
          { run with
            retval := rfptr.rfdev
            rfs := s.setBlock i { rfptr with rfpos := 0, rfstate := .RF_USED } }

def rflclose (s : Rfs) (minor : Nat) : RfsRun :=
  let rfptr := s.rfltab minor
  if rfptr.rfstate = .RF_FREE then refused s
  else { refused (s.setBlock minor { rfptr with rfstate := .RF_FREE }) with retval := OK }

def rflseek (s : Rfs) (minor : Nat) (pos : UInt32) : RfsRun :=
  let rfptr := s.rfltab minor
  if rfptr.rfstate = .RF_FREE then refused s
  else { refused (s.setBlock minor { rfptr with rfpos := pos.toNat }) with retval := OK }

/-! ## 3. Copying a name

The loops stop at a null, and whether one comes in time depends on what the control block holds. -/

variable {src : Nat → UInt8} {dst n a b z : Nat} {w : Written}

/-- The bytes `a` to `b` are copied. -/
def Written.copied (w : Written) (src : Nat → UInt8) (dst a b : Nat) : Written where
  mem j := if dst + a ≤ j ∧ j < dst + b then src (j - dst) else w.mem j
  offsets := ((List.range' a (b - a)).map (dst + ·)).reverse ++ w.offsets

theorem Written.copied_self : w.copied src dst a a = w := by
  simp [Written.copied, show ∀ j, ¬ (dst + a ≤ j ∧ j < dst + a) by omega]

theorem Written.put_copied (h : a < b) :
    (w.put (dst + a) (src a)).copied src dst (a + 1) b = w.copied src dst a b := by
  have hrange : List.range' a (b - a) = a :: List.range' (a + 1) (b - (a + 1)) := by
    rw [show b - a = b - (a + 1) + 1 by omega, List.range'_succ]
  simp only [Written.copied, Written.put, hrange, Written.mk.injEq, List.map_cons,
    List.reverse_cons, List.append_assoc, List.singleton_append, and_true]
  funext j
  by_cases hj : j = dst + a
  · subst hj
    simp [h]
  · by_cases hin : dst + (a + 1) ≤ j ∧ j < dst + b
    · rw [if_pos hin, if_pos (by omega)]
    · rw [if_neg hin, if_neg (by omega), Function.update_of_ne hj]

/-- **A name that ends in time** is copied with its null. -/
theorem copyRfName_of_null (haz : a ≤ z) (hz : z < a + n) (hsrc : ∀ k, a ≤ k → k < z → src k ≠ 0)
    (hnull : src z = 0) : copyRfName src dst n a w = (some z, w.copied src dst a (z + 1)) := by
  induction n generalizing a w with
  | zero => omega
  | succ n ih =>
    rw [copyRfName]
    rcases haz.eq_or_lt with rfl | hlt
    · rw [if_pos hnull, ← Written.put_copied (by omega), Written.copied_self]
    · rw [if_neg (hsrc a le_rfl hlt), ih hlt (by omega) (fun k hk => hsrc k (by omega)),
        Written.put_copied (by omega)]

/-- A name that does not is copied as far as there is room. -/
theorem copyRfName_of_long (hsrc : ∀ k, a ≤ k → k < a + n → src k ≠ 0) :
    copyRfName src dst n a w = (none, w.copied src dst a (a + n)) := by
  induction n generalizing a w with
  | zero => rw [copyRfName, Nat.add_zero, Written.copied_self]
  | succ n ih =>
    rw [copyRfName]
    rw [if_neg (hsrc a le_rfl (by omega)), ih fun k hk hlt => hsrc k (by omega) (by omega),
      show a + 1 + n = a + (n + 1) by omega, Written.put_copied (by omega)]

/-- The loop without a limit copies up to the first null. -/
theorem copyRfRest_of_null (haz : a ≤ z) (hz : z < a + n) (hsrc : ∀ k, a ≤ k → k < z → src k ≠ 0)
    (hnull : src z = 0) : copyRfRest src dst n a w = w.copied src dst a (z + 1) := by
  induction n generalizing a w with
  | zero => omega
  | succ n ih =>
    rw [copyRfRest]
    rcases haz.eq_or_lt with rfl | hlt
    · rw [if_pos hnull, ← Written.put_copied (by omega), Written.copied_self]
    · rw [if_neg (hsrc a le_rfl hlt), ih hlt (by omega) (fun k hk => hsrc k (by omega)),
        Written.put_copied (by omega)]

/-- The name in the control block has a null behind `len` characters. -/
structure NameEnds (rfptr : Rflcblk) (len : Nat) : Prop where
  fits : len < RF_NAMLEN
  char : ∀ k < len, rfptr.rfname k ≠ 0
  null : rfptr.rfname len = 0

variable {rfptr : Rflcblk} {len : Nat}

theorem NameEnds.copyRfName (h : NameEnds rfptr len) (w : Written) :
    Xinu.copyRfName rfptr.fromName dst RF_NAMLEN 0 w =
      (some len, w.copied rfptr.fromName dst 0 (len + 1)) := by
  have hfits := h.fits
  refine copyRfName_of_null (Nat.zero_le _) (by omega) (fun k _ hk => ?_) ?_
  · rw [Rflcblk.fromName, if_pos (by omega)]
    exact h.char k hk
  · rw [Rflcblk.fromName, if_pos hfits]
    exact h.null

/-- With no null in it the name is refused. -/
theorem copyRfName_unended (h : ∀ len, ¬ NameEnds rfptr len) (w : Written) :
    (copyRfName rfptr.fromName dst RF_NAMLEN 0 w).1 = none := by
  rw [copyRfName_of_long]
  intro k _ hk hnull
  rw [Rflcblk.fromName, if_pos (by omega)] at hnull
  have hex : ∃ k, rfptr.rfname k = 0 := ⟨k, hnull⟩
  refine h (Nat.find hex) ⟨?_, fun j => Nat.find_min hex, Nat.find_spec hex⟩
  have := Nat.find_min' hex hnull
  omega

/-! ## 4. Reading

A read that is allowed is one exchange, and the rest depends on what the exchange ends with. -/

variable {env : RfsEnv} {s : Rfs} {minor : Nat} {count : Int}

/-- The file is open for reading, and the count is legitimate. -/
def ReadAllowed (s : Rfs) (minor : Nat) (count : Int) : Prop :=
  (0 < count ∧ count ≤ RF_DATALEN) ∧ (s.rfltab minor).rfstate = .RF_USED ∧
    (s.rfltab minor).rfmode &&& RF_MODE_R ≠ 0

/-- What the exchange of a read request ends with. -/
def readReply (env : RfsEnv) (s : Rfs) : CommResult :=
  (rfscomm env.world (requestHeader RF_MSG_RREQ env.msg).mem env.resp s.comm).1

/-- Of the request, an exchange looks at the type only. -/
theorem rfscomm_congr {w : CommWorld} {msg msg' reply : Bytes} {c : CommBlock}
    (h : netShort msg rd_type = netShort msg' rd_type) :
    rfscomm w msg reply c = rfscomm w msg' reply c := by
  have hjudge : rfsJudge (setNetLong msg rd_seq (unsigned c.seq)) c.seq =
      rfsJudge (setNetLong msg' rd_seq (unsigned c.seq)) c.seq := by
    funext retval reply
    rw [rfsJudge, rfsJudge, netShort_setNetLong, netShort_setNetLong, h]
  simp only [rfscomm, hjudge]

/-- The type is not among what is set behind it. -/
theorem netShort_setPosLen (pos : Nat) (msg : Bytes) :
    netShort (setPosLen msg pos count) rd_type = netShort msg rd_type := rfl

theorem Written.netShort_copied :
    netShort (w.copied src rf_name a b).mem rd_type = netShort w.mem rd_type := by
  have hframe : ∀ j < 2, (w.copied src rf_name a b).mem j = w.mem j := fun j hj =>
    if_neg (by simp only [rf_name]; omega)
  rw [netShort, netShort, hframe _ (by decide), hframe _ (by decide)]

theorem rflread_refused (h : ¬ (ReadAllowed s minor count ∧ ∃ len, NameEnds (s.rfltab minor) len)) :
    rflread env s minor count = refused s := by
  rw [rflread]
  dsimp only
  split_ifs with h1 h2 h3 h4
  · rfl
  · rfl
  · rfl
  · rfl
  all_goals
    exfalso
    refine h ⟨⟨by omega, ?_, h3⟩, ?_⟩
    · cases hst : (s.rfltab minor).rfstate with
      | RF_FREE => exact absurd hst h2
      | RF_USED => rfl
    · by_contra hno
      exact h4 (copyRfName_unended (not_exists.mp hno) _)

/-- The read request that is handed to `rfscomm`. -/
def readRequest (env : RfsEnv) (rfptr : Rflcblk) (len : Nat) (count : Int) : Written :=
  let named := (requestHeader RF_MSG_RREQ env.msg).copied rfptr.fromName rf_name 0 (len + 1)
  ⟨setPosLen named.mem rfptr.rfpos count, named.offsets⟩

/-- **A read that is allowed.** -/
theorem rflread_allowed (env : RfsEnv) (h : ReadAllowed s minor count)
    (hname : NameEnds (s.rfltab minor) len) :
    let rfptr := s.rfltab minor
    let msg := readRequest env rfptr len count
    let reply := (readReply env s).reply
    let n := netLong reply rf_len
    ∃ c, rflread env s minor count =
      if ¬ (readReply env s).Accepted then
        ⟨SYSERR, ⟨s.rfltab, c⟩, rfsSent env.world msg.mem s.comm, msg.offsets, [], []⟩
      else
        ⟨int32 n,
          Rfs.setBlock ⟨s.rfltab, c⟩ minor { rfptr with rfpos := (rfptr.rfpos + n) % 2 ^ 32 },
          rfsSent env.world msg.mem s.comm, msg.offsets, (List.range n).map (rf_data + ·),
          (List.range n).map fun i => reply (rf_data + i)⟩ := by
  intro rfptr msg reply n
  have hreply : (rfscomm env.world msg.mem env.resp s.comm).1 = readReply env s := by
    rw [readReply, rfscomm_congr]
    exact (netShort_setPosLen _ _).trans Written.netShort_copied
  refine ⟨(rfscomm env.world msg.mem env.resp s.comm).2, ?_⟩
  have hused : (s.rfltab minor).rfstate ≠ .RF_FREE := by rw [h.2.1]; decide
  rw [rflread]
  simp only [hname.copyRfName]
  rw [if_neg (by have := h.1; omega), if_neg hused, if_neg h.2.2, if_neg (by simp)]
  simp only [msg, readRequest] at hreply ⊢
  rw [hreply]
  rfl

/-! ## 5. What a read does

The condition is about the length in the reply, which the server chooses. -/

/-- **What is wanted of a read**: either it is refused, and nothing happens, or some bytes are
copied, no more than were asked for, from inside the reply, and the position is advanced by their
number, which is returned. -/
def ReadRight (s : Rfs) (minor : Nat) (count : Int) (run : RfsRun) : Prop :=
  (run.retval = SYSERR ∧ run.rfs.rfltab = s.rfltab ∧ run.buff = [] ∧ run.respReads = []) ∨
    ((0 ≤ run.retval ∧ run.retval ≤ count) ∧ (run.buff.length : Int) ≤ count ∧
      (∀ i ∈ run.respReads, rf_data ≤ i ∧ i < rf_data + RF_DATALEN) ∧
      ((run.rfs.rfltab minor).rfpos : Int) =
        ((s.rfltab minor).rfpos + run.retval) % 4294967296)

/-- **The exact condition**: a read does what is wanted if and only if the length in the reply that
it takes is no larger than the count. -/
theorem rflread_iff (env : RfsEnv) (s : Rfs) (minor : Nat) (count : Int) :
    ReadRight s minor count (rflread env s minor count) ↔
      (ReadAllowed s minor count → (∃ len, NameEnds (s.rfltab minor) len) →
        (readReply env s).Accepted → (netLong (readReply env s).reply rf_len : Int) ≤ count) := by
  by_cases hall : ReadAllowed s minor count ∧ ∃ len, NameEnds (s.rfltab minor) len
  · obtain ⟨h, len, hname⟩ := hall
    have hcount := h.1
    obtain ⟨c, hrun⟩ := rflread_allowed env h hname
    rw [hrun]
    by_cases hacc : (readReply env s).Accepted
    · rw [if_neg (not_not.mpr hacc)]
      set n := netLong (readReply env s).reply rf_len with hn
      have hint : n < 2147483648 → int32 n = n := fun hlt =>
        Int.bmod_eq_of_le (by omega) (by omega)
      simp only [h, hacc, show (∃ len, NameEnds (s.rfltab minor) len) from ⟨len, hname⟩,
        forall_const]
      constructor
      · rintro (⟨-, -, hbuff, -⟩ | ⟨-, hbuff, -⟩)
        · simp only [List.map_eq_nil_iff, List.range_eq_nil] at hbuff
          omega
        · simpa using hbuff
      · intro hle
        have hnlt : n ≤ 1024 := by
          have : RF_DATALEN = 1024 := rfl
          omega
        refine .inr ⟨?_, by simpa using hle, ?_, ?_⟩
        · simp only [hint (by omega)]
          omega
        · intro i hi
          obtain ⟨k, hk, rfl⟩ := List.mem_map.mp hi
          have := List.mem_range.mp hk
          simp only [RF_DATALEN]
          omega
        · simp [Rfs.setBlock, hint (by omega)]
    · rw [if_pos hacc]
      exact iff_of_true (.inl ⟨rfl, rfl, rfl, rfl⟩) fun _ _ ha => absurd ha hacc
  · rw [rflread_refused hall]
    exact iff_of_true (.inl ⟨rfl, rfl, rfl, rfl⟩) fun ha he => absurd ⟨ha, he⟩ hall

/-- A server that answers a read request, the first with the number 1, with a reply of its own. -/
def rfsServer (data : List UInt8) : RfsEnv where
  world := { udp_register := 0, ipvalid := true, getlocalip := 0, udp_sendto := fun _ => OK
             udp_recv := fun _ => (data.length, data) }
  msg _ := 0
  resp _ := 0

/-- A file `f` that is open for reading. -/
def openFile : Rfs where
  rfltab _ := ⟨.RF_USED, 20, fun i => if i = 0 then 0x66 else 0, 0, RF_MODE_R⟩
  comm := ⟨1, true, 0⟩

/-- The reply to a read request, with its length field, and no data. -/
def readResponse (len : Nat) : List UInt8 :=
  (List.range 144).map (setNetLong (setNetLong (fillReply (fun _ => 0) [1, 1]) rd_seq 1) rf_len len)

/-- **The caller's buffer overflows.**  One byte is asked for, and two are copied. -/
theorem rflread_overruns :
    ¬ ReadRight openFile 0 1 (rflread (rfsServer (readResponse 2)) openFile 0 1) := by
  have hbuff : (rflread (rfsServer (readResponse 2)) openFile 0 1).buff.length = 2 := by
    decide +kernel
  rintro (⟨-, -, hnil, -⟩ | ⟨-, hle, -⟩)
  · rw [hnil] at hbuff
    exact absurd hbuff (by decide)
  · rw [hbuff] at hle
    exact absurd hle (by decide)

end Xinu
