/-
# The names in the requests of remote files

Opening a file copies its name to the front of a control block, behind which an older name may go
on.  `rflread` and `rfsopen` copy a name up to its null.  `rflwrite` has a second loop, which goes
on behind the null up to the next one.

So every request carries what it should if and only if, in every write, the byte behind the null of
the name is another null in the name field (`rfs_requests_iff`).

The specification of a request is written from the message format alone: type, sequence number,
the name of the file padded with nulls, position and length.  The names that files were opened
under are kept beside the state, since the control block may hold more than the name.
-/
import Xinu.Rfs
import Xinu.LfsModes
import Mathlib.Data.List.GetD

namespace Xinu

open Layouts

/-! ## 1. What is to be sent

A call is right when what it sends is the request that belongs to it, and when copying the name
has changed no other field.  `CopiesStale` is the state in which a write does more. -/

/-- The operations on remote files, and what else uses `Rf_data`. -/
inductive RfsCall
  | rfsopen (env : RfsEnv) (name : CString) (mode : Str)
  | rflclose (minor : Nat)
  | rflread (env : RfsEnv) (minor : Nat) (count : Int)
  | rflwrite (env : RfsEnv) (minor : Nat) (buff : Bytes) (count : Int)
  | rflseek (minor : Nat) (pos : UInt32)
  | exchange (comm : CommBlock)

def RfsCall.run (s : Rfs) : RfsCall → RfsRun
  | .rfsopen env name mode => Xinu.rfsopen env s name mode
  | .rflclose minor => Xinu.rflclose s minor
  | .rflread env minor count => Xinu.rflread env s minor count
  | .rflwrite env minor buff count => Xinu.rflwrite env s minor buff count
  | .rflseek minor pos => Xinu.rflseek s minor pos
  | .exchange comm => { refused { s with comm := comm } with retval := OK }

/-- The remote files, with the name that each of them was opened under. -/
structure RfsFiles where
  rfs : Rfs
  names : Nat → List UInt8

/-- The name that a call gives to the file in a control block. -/
def RfsCall.nameAfter (x : RfsFiles) (t : Rfs) (i : Nat) : RfsCall → List UInt8
  | .rfsopen _ name _ =>
    if (x.rfs.rfltab i).rfstate = .RF_FREE ∧ (t.rfltab i).rfstate = .RF_USED then name.chars
    else x.names i
  | _ => x.names i

def RfsFiles.step (x : RfsFiles) (call : RfsCall) : RfsFiles :=
  let t := (call.run x.rfs).rfs
  ⟨t, fun i => call.nameAfter x t i⟩

def RfsFiles.after (x : RfsFiles) (calls : List RfsCall) : RfsFiles := calls.foldl RfsFiles.step x

/-- The exchange gets to sending. -/
def Registers (env : RfsEnv) (s : Rfs) : Prop :=
  ¬ (s.comm.registered = false ∧ env.world.udp_register = SYSERR)

/-- The file is open for writing, and the count is legitimate. -/
def WriteAllowed (s : Rfs) (minor : Nat) (count : Int) : Prop :=
  (0 < count ∧ count ≤ RF_DATALEN) ∧ (s.rfltab minor).rfstate = .RF_USED ∧
    (s.rfltab minor).rfmode &&& RF_MODE_W ≠ 0

/-- A read or a write that is to send a request. -/
def RfsCall.Sends (s : Rfs) : RfsCall → Prop
  | .rflread env minor count => ReadAllowed s minor count ∧ Registers env s
  | .rflwrite env minor _ count => WriteAllowed s minor count ∧ Registers env s
  | _ => False

/-- Type, status, sequence number and name. -/
structure HeaderIs (msg : Bytes) (type : Nat) (comm : CommBlock) (name : List UInt8) : Prop where
  type : netShort msg rd_type = type
  status : netShort msg rd_status = 0
  seq : netLong msg rd_seq = unsigned comm.seq
  name : ∀ k < RF_NAMLEN, msg (rf_name + k) = name.getD k 0

/-- The request of a call. -/
def RfsCall.Request (x : RfsFiles) (msg : Bytes) : RfsCall → Prop
  | .rfsopen _ name mode =>
    HeaderIs msg RF_MSG_OREQ x.rfs.comm name.chars ∧ rfsgetmode mode = some (netLong msg rf_mode)
  | .rflread _ minor count =>
    HeaderIs msg RF_MSG_RREQ x.rfs.comm (x.names minor) ∧
      netLong msg rf_pos = (x.rfs.rfltab minor).rfpos ∧ (netLong msg rf_len : Int) = count
  | .rflwrite _ minor buff count =>
    HeaderIs msg RF_MSG_WREQ x.rfs.comm (x.names minor) ∧
      netLong msg rf_pos = (x.rfs.rfltab minor).rfpos ∧ (netLong msg rf_len : Int) = count ∧
      ∀ k < RF_DATALEN, msg (rf_data + k) = if (k : Int) < count then buff k else 0
  | _ => False

/-- **What is wanted of a call**: reads and writes of an open file send a request, and what is sent
is the request, whose other fields copying the name has not touched. -/
def CallRight (x : RfsFiles) (call : RfsCall) : Prop :=
  (call.Sends x.rfs → (call.run x.rfs).sent ≠ none) ∧
    ∀ msg, (call.run x.rfs).sent = some msg → call.Request x msg ∧
      ∀ k ∈ (call.run x.rfs).nameWrites, rf_name ≤ k ∧ k < rf_name + RF_NAMLEN

/-- A write copies an older name. -/
def CopiesStale (x : RfsFiles) (call : RfsCall) : Prop :=
  ∃ env minor buff count, call = .rflwrite env minor buff count ∧ call.Sends x.rfs ∧
    ¬ ((x.names minor).length + 1 < RF_NAMLEN ∧
      (x.rfs.rfltab minor).rfname ((x.names minor).length + 1) = 0)

/-! ## 2. Fields of a message

The fields lie one behind the other, so storing one leaves the others as they are, and reading one
back gives what was stored. -/

variable {msg : Bytes} {i j type : Nat} {src : Nat → UInt8} {w : Written} {old : Bytes}
  {c : CommBlock} {name : List UInt8}

theorem netLong_setNetLong {v : Nat} (h : v < 4294967296) : netLong (setNetLong msg i v) i = v := by
  simp only [netLong, netShort, setNetLong]
  rw [if_pos (by omega), if_pos (by omega), if_pos (by omega), if_pos (by omega)]
  simp only [Nat.sub_self, Nat.add_sub_cancel_left, show i + 2 + 1 - i = 3 by omega,
    UInt8.toNat_ofNat']
  omega

/-- A word that lies elsewhere. -/
theorem netLong_congr {msg msg' : Bytes} (h : ∀ k < 4, msg (i + k) = msg' (i + k)) :
    netLong msg i = netLong msg' i := by
  have h0 := h 0 (by decide)
  have h1 := h 1 (by decide)
  have h2 := h 2 (by decide)
  have h3 := h 3 (by decide)
  simp only [Nat.add_zero] at h0
  simp only [netLong, netShort, h0, h1, h2, Nat.add_assoc, h3]

theorem setNetLong_of_lt {v : Nat} (h : j < i ∨ i + 4 ≤ j) : setNetLong msg i v j = msg j :=
  if_neg (by omega)

theorem unsigned_lt (seq : Int) : unsigned seq < 4294967296 := by
  rw [unsigned]
  omega

/-- The header with a name copied into it, when what is behind it has been set. -/
theorem headerIs_of_copied {e : Nat} (htype : type < 256)
    (hmsg : ∀ j < rf_pos, msg j = ((requestHeader type old).copied src rf_name 0 e).mem j)
    (hname : ∀ k < RF_NAMLEN, (if k < e then src k else 0) = name.getD k 0) :
    HeaderIs (setNetLong msg rd_seq (unsigned c.seq)) type c name where
  type := by
    have h0 : msg 0 = 0 := hmsg 0 (by decide)
    have h1 : msg 1 = UInt8.ofNat type := hmsg 1 (by decide)
    rw [netShort_setNetLong, netShort, h0, h1]
    simp only [UInt8.toNat_ofNat']
    simp
    omega
  status := by
    have h2 : msg 2 = 0 := hmsg 2 (by decide)
    have h3 : msg 3 = 0 := hmsg 3 (by decide)
    have hframe : netShort (setNetLong msg rd_seq (unsigned c.seq)) rd_status =
        netShort msg rd_status := rfl
    rw [hframe, netShort, h2, h3]
    rfl
  seq := netLong_setNetLong (unsigned_lt _)
  name k hk := by
    have hpos : rf_name + k < rf_pos := by simp only [rf_name, rf_pos, RF_NAMLEN] at *; omega
    rw [setNetLong_of_lt (.inr (by simp only [rf_name, rd_seq]; omega)), hmsg _ hpos, ← hname k hk,
      Written.copied]
    dsimp only
    by_cases hke : k < e
    · rw [if_pos ⟨by omega, by omega⟩, if_pos hke, Nat.add_sub_cancel_left]
    · rw [if_neg (by omega), if_neg hke, requestHeader]
      simp only [fillReply, List.getD_eq_getElem?_getD]
      rw [List.getElem?_append_right (by simp)]
      simp [hk]

/-! ## 3. What the calls send

`rflread` and `rflwrite` refuse what the mode or the count does not allow, and send nothing then.
Otherwise they copy the name, set the fields behind it, and hand the message to `rfscomm`. -/

variable {env : RfsEnv} {s : Rfs} {minor len z : Nat} {count : Int} {buff : Bytes}
  {rfptr : Rflcblk}

/-- Behind an exchange the file is where it was, or has another position. -/
def MovesPos (s t : Rfs) (minor : Nat) : Prop :=
  t.rfltab = s.rfltab ∨ ∃ pos < 4294967296,
    t.rfltab = Function.update s.rfltab minor { s.rfltab minor with rfpos := pos }

theorem rflread_moves (env : RfsEnv) (s : Rfs) (minor : Nat) (count : Int) :
    MovesPos s (rflread env s minor count).rfs minor := by
  by_cases h : ReadAllowed s minor count ∧ ∃ len, NameEnds (s.rfltab minor) len
  · obtain ⟨hread, len, hname⟩ := h
    obtain ⟨c, hrun⟩ := rflread_allowed env hread hname
    rw [hrun]
    split_ifs
    · exact .inr ⟨_, Nat.mod_lt _ (by decide), rfl⟩
    · exact .inl rfl
  · rw [rflread_refused h]
    exact .inl rfl

theorem rflread_sent (env : RfsEnv) (h : ReadAllowed s minor count)
    (hname : NameEnds (s.rfltab minor) len) :
    let msg := readRequest env (s.rfltab minor) len count
    (rflread env s minor count).sent = rfsSent env.world msg.mem s.comm ∧
      (rflread env s minor count).nameWrites = msg.offsets := by
  obtain ⟨c, hrun⟩ := rflread_allowed env h hname
  rw [hrun]
  split_ifs
  · exact ⟨rfl, rfl⟩
  · exact ⟨rfl, rfl⟩

/-- A read that is not allowed sends nothing. -/
theorem rflread_allowed_of_sent (h : (rflread env s minor count).sent = some msg) :
    ReadAllowed s minor count := by
  by_contra hno
  rw [rflread_refused fun hr => hno hr.1] at h
  simp [refused] at h

/-- The write request that is handed to `rfscomm`, when the copying ends at `e`. -/
def writeRequest (env : RfsEnv) (rfptr : Rflcblk) (e : Nat) (buff : Bytes) (count : Int) :
    Written :=
  let named := (requestHeader RF_MSG_WREQ env.msg).copied rfptr.fromName rf_name 0 e
  ⟨copyData (setPosLen named.mem rfptr.rfpos count) buff count, named.offsets⟩

/-- The first null from an offset on. -/
structure NullAt (src : Nat → UInt8) (a z : Nat) : Prop where
  le : a ≤ z
  char : ∀ k, a ≤ k → k < z → src k ≠ 0
  null : src z = 0

theorem exists_nullAt {a b : Nat} (hab : a ≤ b) (h : src b = 0) : ∃ z ≤ b, NullAt src a z := by
  have hex : ∃ k, a ≤ k ∧ src k = 0 := ⟨b, hab, h⟩
  refine ⟨Nat.find hex, Nat.find_min' hex ⟨hab, h⟩, (Nat.find_spec hex).1, fun k hak hk hnull => ?_,
    (Nat.find_spec hex).2⟩
  exact Nat.find_min hex hk ⟨hak, hnull⟩

/-- What is copied in two parts. -/
theorem Written.copied_copied {dst a b e : Nat} (hab : a ≤ b) (hbe : b ≤ e) :
    (w.copied src dst a b).copied src dst b e = w.copied src dst a e := by
  have hrange : List.range' a (e - a) = List.range' a (b - a) ++ List.range' b (e - b) := by
    rw [show e - a = b - a + (e - b) by omega, ← List.range'_append_1,
      show a + (b - a) = b by omega]
  simp only [Written.copied, hrange, Written.mk.injEq, List.map_append, List.reverse_append,
    List.append_assoc, and_true]
  funext j
  by_cases h1 : dst + b ≤ j ∧ j < dst + e
  · rw [if_pos h1, if_pos (by omega)]
  · rw [if_neg h1]
    by_cases h2 : dst + a ≤ j ∧ j < dst + b
    · rw [if_pos h2, if_pos (by omega)]
    · rw [if_neg h2, if_neg (by omega)]

theorem rflwrite_refused (h : ¬ WriteAllowed s minor count) :
    rflwrite env s minor buff count = refused s := by
  rw [rflwrite]
  dsimp only
  by_cases hcount : count ≤ 0 ∨ count > RF_DATALEN
  · rw [if_pos hcount]
  · rw [if_neg hcount, if_pos]
    by_contra hno
    obtain ⟨hstate, hmode⟩ := not_or.mp hno
    refine h ⟨by omega, ?_, hmode⟩
    cases hst : (s.rfltab minor).rfstate with
    | RF_FREE => exact absurd hst hstate
    | RF_USED => rfl

/-- **A write that is allowed** copies up to the second null. -/
theorem rflwrite_allowed (env : RfsEnv) (buff : Bytes) (h : WriteAllowed s minor count)
    (hname : NameEnds (s.rfltab minor) len)
    (hz : NullAt (s.rfltab minor).fromName (len + 1) z) (hlt : z < RF_NAMLEN + 8) :
    let msg := writeRequest env (s.rfltab minor) (z + 1) buff count
    MovesPos s (rflwrite env s minor buff count).rfs minor ∧
      (rflwrite env s minor buff count).sent = rfsSent env.world msg.mem s.comm ∧
      (rflwrite env s minor buff count).nameWrites = msg.offsets := by
  have hused : (s.rfltab minor).rfstate ≠ .RF_FREE := by rw [h.2.1]; decide
  have hle := hz.le
  rw [rflwrite]
  simp only [hname.copyRfName]
  rw [if_neg (by have := h.1; omega), if_neg (not_or.mpr ⟨hused, h.2.2⟩),
    copyRfRest_of_null hz.le (by omega) hz.char hz.null,
    Written.copied_copied (Nat.zero_le _) (by omega)]
  split_ifs
  · exact ⟨.inr ⟨_, Nat.mod_lt _ (by decide), rfl⟩, rfl, rfl⟩
  · exact ⟨.inl rfl, rfl, rfl⟩

/-! ## 4. The requests

The message that was handed over, compared with the request, field by field.  A read request is
always right; a write request is if the byte behind the null is a null. -/

theorem rfsSent_eq_some {sent : Bytes} :
    rfsSent env.world msg s.comm = some sent ↔
      Registers env s ∧ setNetLong msg rd_seq (unsigned s.comm.seq) = sent := by
  rw [rfsSent, Registers]
  by_cases h : s.comm.registered = false ∧ env.world.udp_register = SYSERR
  · rw [if_pos h]
    simp [h]
  · rw [if_neg h]
    simp [h]

/-- The control block holds a name, and a position and a mode that fit. -/
structure NameHeld (rfptr : Rflcblk) (name : List UInt8) : Prop where
  fits : name.length < RF_NAMLEN
  nonnull : 0 ∉ name
  held : ∀ k ≤ name.length, rfptr.rfname k = name.getD k 0
  pos : rfptr.rfpos < 4294967296
  mode : rfptr.rfmode < 16

theorem NameHeld.ends (h : NameHeld rfptr name) : NameEnds rfptr name.length where
  fits := h.fits
  char k hk := by
    rw [h.held k hk.le, List.getD_eq_getElem _ _ hk]
    intro h0
    exact h.nonnull (h0 ▸ List.getElem_mem hk)
  null := by
    rw [h.held _ le_rfl, List.getD_eq_default _ _ le_rfl]

theorem NameHeld.fromName (h : NameHeld rfptr name) {k : Nat} (hk : k ≤ name.length) :
    rfptr.fromName k = name.getD k 0 := by
  have hfits := h.fits
  rw [Rflcblk.fromName, if_pos (by omega), h.held k hk]

/-- The mode has a null byte, so that a walk ends there at the latest. -/
theorem NameHeld.nullAt (h : NameHeld rfptr name) :
    ∃ z < RF_NAMLEN + 8, NullAt rfptr.fromName (name.length + 1) z := by
  have hfits := h.fits
  have hmode := h.mode
  have hnull : rfptr.fromName (RF_NAMLEN + 7) = 0 := by
    rw [Rflcblk.fromName, if_neg (by omega), if_neg (by omega),
      show RF_NAMLEN + 7 - (RF_NAMLEN + 4) = 3 by omega, Nat.div_eq_of_lt (by omega)]
    rfl
  obtain ⟨z, hz, hat⟩ := exists_nullAt (show name.length + 1 ≤ RF_NAMLEN + 7 by omega) hnull
  exact ⟨z, by omega, hat⟩

theorem setPosLen_of_lt {pos : Nat} (h : j < rf_pos) : setPosLen msg pos count j = msg j := by
  have hpos : rf_pos = 136 := rfl
  rw [setPosLen, setNetLong_of_lt (.inl (by simp only [rf_len]; omega)), setNetLong_of_lt (.inl h)]

theorem setPosLen_pos {pos : Nat} (h : pos < 4294967296) :
    netLong (setPosLen msg pos count) rf_pos = pos := by
  have hframe : netLong (setPosLen msg pos count) rf_pos =
      netLong (setNetLong msg rf_pos pos) rf_pos :=
    netLong_congr fun k hk => setNetLong_of_lt (.inl (by simp only [rf_pos, rf_len]; omega))
  rw [hframe, netLong_setNetLong h]

theorem setPosLen_len {pos : Nat} (h : 0 < count ∧ count ≤ RF_DATALEN) :
    (netLong (setPosLen msg pos count) rf_len : Int) = count := by
  have hlen : RF_DATALEN = 1024 := rfl
  rw [setPosLen, netLong_setNetLong (by omega)]
  omega

/-- The number does not show in the fields behind the name. -/
theorem netLong_setSeq {v : Nat} (h : rf_pos ≤ i) :
    netLong (setNetLong msg rd_seq v) i = netLong msg i := by
  have hpos : rf_pos = 136 := rfl
  exact netLong_congr fun k hk => setNetLong_of_lt (.inr (by simp only [rd_seq]; omega))

theorem readRequest_right (h : NameHeld rfptr name) (hcount : 0 < count ∧ count ≤ RF_DATALEN) :
    let sent := setNetLong (readRequest env rfptr name.length count).mem rd_seq (unsigned c.seq)
    HeaderIs sent RF_MSG_RREQ c name ∧ netLong sent rf_pos = rfptr.rfpos ∧
      (netLong sent rf_len : Int) = count := by
  refine ⟨headerIs_of_copied (by decide) (fun j hj => setPosLen_of_lt hj) fun k hk => ?_, ?_, ?_⟩
  · by_cases hkl : k < name.length + 1
    · rw [if_pos hkl, h.fromName (by omega)]
    · rw [if_neg hkl, List.getD_eq_default _ _ (by omega)]
  · rw [netLong_setSeq le_rfl]
    exact setPosLen_pos h.pos
  · rw [netLong_setSeq (by decide)]
    exact setPosLen_len hcount

/-- What copying writes to. -/
theorem mem_copied_offsets {k dst e : Nat} :
    k ∈ ((requestHeader type old).copied src dst 0 e).offsets ↔ dst ≤ k ∧ k < dst + e := by
  simp only [Written.copied, requestHeader, List.append_nil, List.mem_reverse, List.mem_map,
    List.mem_range'_1]
  constructor
  · rintro ⟨a, ha, rfl⟩
    omega
  · intro h
    exact ⟨k - dst, by omega, by omega⟩

theorem copyData_of_lt (h : j < rf_data) : copyData msg buff count j = msg j :=
  if_neg (by omega)

theorem copyData_data {k : Nat} (hk : k < RF_DATALEN) :
    copyData msg buff count (rf_data + k) = if (k : Int) < count then buff k else 0 := by
  rw [copyData, if_pos ⟨by omega, by omega⟩, Nat.add_sub_cancel_left]

/-- **A write request is right** if and only if nothing of an older name is copied. -/
theorem writeRequest_right_iff (env : RfsEnv) (buff : Bytes) (c : CommBlock)
    (h : NameHeld rfptr name) (hcount : 0 < count ∧ count ≤ RF_DATALEN)
    (hz : NullAt rfptr.fromName (name.length + 1) z) :
    let req := writeRequest env rfptr (z + 1) buff count
    let sent := setNetLong req.mem rd_seq (unsigned c.seq)
    ((HeaderIs sent RF_MSG_WREQ c name ∧ netLong sent rf_pos = rfptr.rfpos ∧
        (netLong sent rf_len : Int) = count ∧
        ∀ k < RF_DATALEN, sent (rf_data + k) = if (k : Int) < count then buff k else 0) ∧
      ∀ k ∈ req.offsets, rf_name ≤ k ∧ k < rf_name + RF_NAMLEN) ↔
    name.length + 1 < RF_NAMLEN ∧ rfptr.rfname (name.length + 1) = 0 := by
  intro req sent
  have hle := hz.le
  have hfits := h.fits
  have hframe : ∀ j < rf_pos, req.mem j =
      ((requestHeader RF_MSG_WREQ env.msg).copied rfptr.fromName rf_name 0 (z + 1)).mem j :=
    fun j hj => (copyData_of_lt (by simp only [rf_pos, rf_data] at hj ⊢; omega)).trans
      (setPosLen_of_lt hj)
  have hoffsets : req.offsets =
      ((requestHeader RF_MSG_WREQ env.msg).copied rfptr.fromName rf_name 0 (z + 1)).offsets := rfl
  have hsent : ∀ j, rf_name ≤ j → sent j = req.mem j := fun j hj =>
    setNetLong_of_lt (.inr (by simp only [rf_name, rd_seq] at hj ⊢; omega))
  rw [hoffsets]
  constructor
  · rintro ⟨⟨hheader, -⟩, hin⟩
    have hroom : name.length + 1 < RF_NAMLEN := by
      have := (hin (rf_name + z) (mem_copied_offsets.mpr ⟨by omega, by omega⟩)).2
      omega
    refine ⟨hroom, ?_⟩
    by_contra hne
    have hbyte := hheader.name _ hroom
    have hpos : rf_name + (name.length + 1) < rf_pos := by
      simp only [rf_name, rf_pos, RF_NAMLEN] at hroom ⊢
      omega
    rw [List.getD_eq_default _ _ (by omega), hsent _ (by omega), hframe _ hpos,
      Written.copied] at hbyte
    dsimp only at hbyte
    rw [if_pos ⟨by omega, by omega⟩, Nat.add_sub_cancel_left, Rflcblk.fromName,
      if_pos hroom] at hbyte
    exact hne hbyte
  · rintro ⟨hroom, hnull⟩
    obtain rfl : z = name.length + 1 := by
      by_contra hne
      refine hz.char _ le_rfl (by omega) ?_
      rw [Rflcblk.fromName, if_pos hroom, hnull]
    refine ⟨⟨headerIs_of_copied (by decide) hframe fun k hk => ?_, ?_, ?_, fun k hk => ?_⟩,
      fun k hk => ?_⟩
    · by_cases hkl : k < name.length + 1
      · rw [if_pos (by omega), h.fromName (by omega)]
      · rw [List.getD_eq_default _ _ (by omega)]
        by_cases hke : k = name.length + 1
        · rw [if_pos (by omega), hke, Rflcblk.fromName, if_pos hroom, hnull]
        · rw [if_neg (by omega)]
    · have hframe : netLong req.mem rf_pos = netLong (setPosLen _ rfptr.rfpos count) rf_pos :=
        netLong_congr fun k hk => copyData_of_lt (by simp only [rf_pos, rf_data]; omega)
      rw [netLong_setSeq le_rfl, hframe, setPosLen_pos h.pos]
    · have hframe : netLong req.mem rf_len = netLong (setPosLen _ rfptr.rfpos count) rf_len :=
        netLong_congr fun k hk => copyData_of_lt (by simp only [rf_len, rf_data]; omega)
      rw [netLong_setSeq (by decide), hframe, setPosLen_len hcount]
    · exact (hsent _ (by simp only [rf_name, rf_data]; omega)).trans (copyData_data hk)
    · have := mem_copied_offsets.mp hk
      omega

/-! ## 5. Opening a file

`rfsopen` writes the name to the front of a free control block and clears nothing behind it, also
when the server then refuses. -/

variable {str : CString} {mode : Str}

theorem CString.byte_ne (str : CString) {k : Nat} (hk : k < str.chars.length) : str.byte k ≠ 0 := by
  rw [CString.byte, List.getD_eq_getElem _ _ hk]
  intro h0
  exact str.nonnull (h0 ▸ List.getElem_mem hk)

theorem CString.byte_null (str : CString) : str.byte str.chars.length = 0 :=
  List.getD_eq_default _ _ le_rfl

theorem rfsgetmode_lt {rfmode : Nat} (h : rfsgetmode mode = some rfmode) : rfmode < 16 := by
  obtain ⟨m, hm, rfl⟩ := Option.map_eq_some_iff.mp h
  have hlt := lfgetmodeLoop_lt (by decide) hm
  have hall : ∀ m < 12, (if m &&& LF_MODE_RW = 0 then m ||| LF_MODE_RW else m) < 16 := by decide
  exact hall m hlt

/-- The request that opens a file. -/
theorem openRequest_right (old : Bytes) (c : CommBlock) {rfmode : Nat}
    (hlen : str.chars.length < RF_NAMLEN)
    (hmode : rfmode < 4294967296) :
    let named := (requestHeader RF_MSG_OREQ old).copied str.byte rf_name 0 (str.chars.length + 1)
    let sent := setNetLong (setNetLong named.mem rf_mode rfmode) rd_seq (unsigned c.seq)
    (HeaderIs sent RF_MSG_OREQ c str.chars ∧ netLong sent rf_mode = rfmode) ∧
      ∀ k ∈ named.offsets, rf_name ≤ k ∧ k < rf_name + RF_NAMLEN := by
  refine ⟨⟨headerIs_of_copied (by decide) (fun j hj => setNetLong_of_lt (.inl hj)) fun k hk => ?_,
    ?_⟩, fun k hk => ?_⟩
  · by_cases hkl : k < str.chars.length + 1
    · rw [if_pos hkl, CString.byte]
    · rw [if_neg hkl, List.getD_eq_default _ _ (by omega)]
  · rw [netLong_setSeq le_rfl, netLong_setNetLong hmode]
  · have := mem_copied_offsets.mp hk
    omega

theorem Rfs.setBlock_of_ne {s : Rfs} {i j : Nat} (b : Rflcblk) (h : j ≠ i) :
    (s.setBlock i b).rfltab j = s.rfltab j :=
  Function.update_of_ne h ..

theorem Rfs.setBlock_self (s : Rfs) (i : Nat) (b : Rflcblk) : (s.setBlock i b).rfltab i = b :=
  Function.update_self ..

/-- A control block behind an attempt to open a file. -/
def Reopened (s t : Rfs) (str : CString) (j : Nat) : Prop :=
  t.rfltab j = s.rfltab j ∨ ((s.rfltab j).rfstate = .RF_FREE ∧
    ((t.rfltab j).rfstate = .RF_USED → NameHeld (t.rfltab j) str.chars))

/-- A free control block is written to, and stays free. -/
theorem reopened_free {i : Nat} {b : Rflcblk} (hfree : (s.rfltab i).rfstate = .RF_FREE)
    (hb : b.rfstate = .RF_FREE) (j : Nat) : Reopened s (s.setBlock i b) str j := by
  by_cases hj : j = i
  · subst hj
    refine .inr ⟨hfree, fun hused => ?_⟩
    rw [Rfs.setBlock_self, hb] at hused
    exact absurd hused (by decide)
  · exact .inl (Rfs.setBlock_of_ne _ hj)

/-- **Opening a file** sends what it should, and leaves its name in a control block. -/
theorem rfsopen_spec (env : RfsEnv) (s : Rfs) (str : CString) (mode : Str) :
    (∀ j, Reopened s (rfsopen env s str mode).rfs str j) ∧
      ∀ msg, (rfsopen env s str mode).sent = some msg →
        (HeaderIs msg RF_MSG_OREQ s.comm str.chars ∧ rfsgetmode mode = some (netLong msg rf_mode)) ∧
        ∀ k ∈ (rfsopen env s str mode).nameWrites, rf_name ≤ k ∧ k < rf_name + RF_NAMLEN := by
  rw [rfsopen]
  cases hfind : (List.range Nrfl).find? fun i => (s.rfltab i).rfstate = .RF_FREE with
  | none => exact ⟨fun j => .inl rfl, by rintro _ ⟨⟩⟩
  | some i =>
    have hfree : (s.rfltab i).rfstate = .RF_FREE := by simpa using List.find?_some hfind
    dsimp only
    by_cases hlen : str.chars.length < RF_NAMLEN
    · rw [copyRfName_of_null (Nat.zero_le _) (by omega) (fun k _ hk => str.byte_ne hk)
        str.byte_null]
      dsimp only
      by_cases hempty : str.chars.length = 0
      · rw [if_pos hempty]
        exact ⟨reopened_free hfree hfree, by rintro _ ⟨⟩⟩
      rw [if_neg hempty]
      cases hmode : rfsgetmode mode with
      | none => exact ⟨reopened_free hfree hfree, by rintro _ ⟨⟩⟩
      | some rfmode =>
        have hlt := rfsgetmode_lt hmode
        dsimp only
        rw [copyRfRest_of_null (Nat.zero_le _) (by omega) (fun k _ hk => str.byte_ne hk)
          str.byte_null]
        have hrequest := openRequest_right env.msg s.comm hlen
          (show rfmode < 4294967296 by omega)
        have hsent : ∀ msg, rfsSent env.world
            (setNetLong ((requestHeader RF_MSG_OREQ env.msg).copied str.byte rf_name 0
              (str.chars.length + 1)).mem rf_mode rfmode) s.comm = some msg →
            (HeaderIs msg RF_MSG_OREQ s.comm str.chars ∧ some rfmode = some (netLong msg rf_mode)) ∧
            ∀ k ∈ ((requestHeader RF_MSG_OREQ env.msg).copied str.byte rf_name 0
              (str.chars.length + 1)).offsets, rf_name ≤ k ∧ k < rf_name + RF_NAMLEN := by
          intro msg hmsg
          obtain ⟨-, rfl⟩ := rfsSent_eq_some.mp hmsg
          exact ⟨⟨hrequest.1.1, by rw [hrequest.1.2]⟩, hrequest.2⟩
        split_ifs
        · refine ⟨fun j => ?_, hsent⟩
          by_cases hj : j = i
          · subst hj
            refine .inr ⟨hfree, fun _ => ?_⟩
            simp only [Rfs.setBlock, Function.update_self]
            refine ⟨hlen, str.nonnull, fun k hk => ?_, Nat.zero_lt_succ _, hlt⟩
            simp only [Written.copied]
            rw [if_pos ⟨by omega, by omega⟩, Nat.sub_zero, CString.byte]
          · exact .inl ((Rfs.setBlock_of_ne _ hj).trans (Rfs.setBlock_of_ne _ hj))
        · exact ⟨reopened_free hfree hfree, hsent⟩
    · rw [copyRfName_of_long fun k _ hk => str.byte_ne (by omega)]
      exact ⟨reopened_free hfree hfree, by rintro _ ⟨⟩⟩

/-! ## 6. Runs

The control block of an open file holds its name at the front, through all calls.  So the requests
of a whole sequence are right exactly if no write of it copies an older name. -/

variable {x : RfsFiles} {call : RfsCall}

/-- The control block of an open file holds its name. -/
def FilesInv (x : RfsFiles) : Prop :=
  ∀ i, (x.rfs.rfltab i).rfstate = .RF_USED → NameHeld (x.rfs.rfltab i) (x.names i)

theorem NameHeld.move {pos : Nat} (h : NameHeld rfptr name) (hpos : pos < 4294967296) :
    NameHeld { rfptr with rfpos := pos } name :=
  ⟨h.fits, h.nonnull, h.held, hpos, h.mode⟩

/-- Moving in a file keeps the names. -/
theorem FilesInv.moves (h : FilesInv x) {t : Rfs} (hmoves : MovesPos x.rfs t minor) :
    FilesInv ⟨t, x.names⟩ := by
  intro i hused
  rcases hmoves with hsame | ⟨pos, hpos, hmoved⟩
  · simp only [hsame] at hused ⊢
    exact h i hused
  · simp only [hmoved] at hused ⊢
    by_cases hi : i = minor
    · subst hi
      rw [Function.update_self] at hused ⊢
      exact (h i hused).move hpos
    · rw [Function.update_of_ne hi] at hused ⊢
      exact h i hused

/-- Opening one keeps them, and gives it its own. -/
theorem FilesInv.reopened (h : FilesInv x) {t : Rfs} (hre : ∀ j, Reopened x.rfs t str j) :
    FilesInv ⟨t, fun i => RfsCall.nameAfter x t i (.rfsopen env str mode)⟩ := by
  intro i hused
  simp only [RfsCall.nameAfter] at hused ⊢
  rcases hre i with hsame | ⟨hfree, hheld⟩
  · rw [hsame] at hused
    rw [if_neg (by rw [hused]; exact fun hf => absurd hf.1 (by decide)), hsame]
    exact h i hused
  · rw [if_pos ⟨hfree, hused⟩]
    exact hheld hused

theorem rflwrite_moves (h : FilesInv x) (env : RfsEnv) (minor : Nat) (buff : Bytes) (count : Int) :
    MovesPos x.rfs (rflwrite env x.rfs minor buff count).rfs minor := by
  by_cases hall : WriteAllowed x.rfs minor count
  · have hname := h minor hall.2.1
    obtain ⟨z, hlt, hz⟩ := hname.nullAt
    exact (rflwrite_allowed env buff hall hname.ends hz hlt).1
  · rw [rflwrite_refused hall]
    exact .inl rfl

/-- **Every call** keeps the names. -/
theorem FilesInv.step (h : FilesInv x) (call : RfsCall) : FilesInv (x.step call) := by
  cases call with
  | rfsopen env str mode => exact h.reopened (rfsopen_spec env x.rfs str mode).1
  | rflclose minor =>
    intro i hused
    simp only [RfsFiles.step, RfsCall.nameAfter, RfsCall.run, Xinu.rflclose] at hused ⊢
    split_ifs at hused ⊢
    · exact h i hused
    · by_cases hi : i = minor
      · subst hi
        simp [refused, Rfs.setBlock] at hused
      · simp only [refused, Rfs.setBlock_of_ne _ hi] at hused ⊢
        exact h i hused
  | rflread env minor count => exact h.moves (rflread_moves env x.rfs minor count)
  | rflwrite env minor buff count => exact h.moves (rflwrite_moves h env minor buff count)
  | rflseek minor pos =>
    refine h.moves (?_ : MovesPos x.rfs _ minor)
    simp only [RfsCall.run, Xinu.rflseek]
    split_ifs
    · exact .inl rfl
    · exact .inr ⟨pos.toNat, pos.toNat_lt, rfl⟩
  | exchange comm => exact h

theorem FilesInv.after (h : FilesInv x) (calls : List RfsCall) : FilesInv (x.after calls) := by
  induction calls generalizing x with
  | nil => exact h
  | cons call calls ih => exact ih (h.step call)

/-- **One call** does what is wanted if and only if it copies no older name. -/
theorem FilesInv.right_iff (h : FilesInv x) (call : RfsCall) :
    CallRight x call ↔ ¬ CopiesStale x call := by
  cases call with
  | rfsopen env str mode =>
    exact iff_of_true ⟨False.elim, (rfsopen_spec env x.rfs str mode).2⟩ (by simp [CopiesStale])
  | rflclose minor =>
    refine iff_of_true ⟨False.elim, ?_⟩ (by simp [CopiesStale])
    simp only [RfsCall.run, Xinu.rflclose]
    split_ifs <;> exact nofun
  | rflread env minor count =>
    refine iff_of_true ⟨?_, fun msg hmsg => ?_⟩ (by simp [CopiesStale])
    · rintro ⟨hall, hreg⟩
      have hsent := (rflread_sent env hall (h minor hall.2.1).ends).1
      rw [RfsCall.run, hsent, rfsSent, if_neg hreg]
      exact nofun
    · have hall := rflread_allowed_of_sent hmsg
      have hname := h minor hall.2.1
      obtain ⟨hsent, hwrites⟩ := rflread_sent env hall hname.ends
      rw [RfsCall.run, hsent] at hmsg
      obtain ⟨-, rfl⟩ := rfsSent_eq_some.mp hmsg
      refine ⟨readRequest_right hname hall.1, ?_⟩
      rw [RfsCall.run, hwrites]
      intro k hk
      have hfits := hname.fits
      have hcopied : k ∈ ((requestHeader RF_MSG_RREQ env.msg).copied (x.rfs.rfltab minor).fromName
        rf_name 0 ((x.names minor).length + 1)).offsets := hk
      have := mem_copied_offsets.mp hcopied
      omega
  | rflwrite env minor buff count =>
    by_cases hsends : RfsCall.Sends x.rfs (.rflwrite env minor buff count)
    · obtain ⟨hall, hreg⟩ := hsends
      have hname := h minor hall.2.1
      obtain ⟨z, hlt, hz⟩ := hname.nullAt
      obtain ⟨-, hsent, hwrites⟩ :=
        rflwrite_allowed env buff hall hname.ends hz hlt
      have hright := writeRequest_right_iff env buff x.rfs.comm hname hall.1 hz
      have hstale : CopiesStale x (.rflwrite env minor buff count) ↔
          ¬ ((x.names minor).length + 1 < RF_NAMLEN ∧
            (x.rfs.rfltab minor).rfname ((x.names minor).length + 1) = 0) := by
        constructor
        · rintro ⟨_, _, _, _, hcall, -, hnot⟩
          cases hcall
          exact hnot
        · exact fun hnot => ⟨env, minor, buff, count, rfl, ⟨hall, hreg⟩, hnot⟩
      rw [rfsSent, if_neg hreg] at hsent
      rw [hstale, not_not, CallRight, RfsCall.run, hsent, hwrites]
      refine ⟨fun hr => hright.mp (hr.2 _ rfl), fun hr => ⟨fun _ => nofun, fun msg hmsg => ?_⟩⟩
      obtain rfl := Option.some.inj hmsg
      exact hright.mpr hr
    · have hnone : (rflwrite env x.rfs minor buff count).sent = none := by
        by_cases hall : WriteAllowed x.rfs minor count
        · have hname := h minor hall.2.1
          obtain ⟨z, hlt, hz⟩ := hname.nullAt
          rw [(rflwrite_allowed env buff hall hname.ends hz hlt).2.1, rfsSent, if_pos]
          by_contra hreg
          exact hsends ⟨hall, hreg⟩
        · rw [rflwrite_refused hall]
          rfl
      refine iff_of_true ⟨fun hs => absurd hs hsends, ?_⟩ ?_
      · rw [RfsCall.run, hnone]
        exact nofun
      · rintro ⟨_, _, _, _, hcall, hs, -⟩
        cases hcall
        exact hsends hs
  | rflseek minor pos =>
    refine iff_of_true ⟨False.elim, ?_⟩ (by simp [CopiesStale])
    simp only [RfsCall.run, Xinu.rflseek]
    split_ifs <;> exact nofun
  | exchange comm => exact iff_of_true ⟨False.elim, nofun⟩ (by simp [CopiesStale])

/-- **The exact condition**: from a table without open files, whatever the names in it, every call
of a sequence does what is wanted if and only if none of its writes copies an older name. -/
theorem rfs_requests_iff (x : RfsFiles) (h : ∀ i, (x.rfs.rfltab i).rfstate = .RF_FREE)
    (calls : List RfsCall) :
    (∀ before call behind, calls = before ++ call :: behind → CallRight (x.after before) call) ↔
      ∀ before call behind, calls = before ++ call :: behind →
        ¬ CopiesStale (x.after before) call := by
  have hinv : FilesInv x := fun i hused => by
    rw [h i] at hused
    exact absurd hused (by decide)
  constructor
  · intro hright before call behind hcalls
    exact ((hinv.after before).right_iff call).mp (hright before call behind hcalls)
  · intro hnot before call behind hcalls
    exact ((hinv.after before).right_iff call).mpr (hnot before call behind hcalls)

/-- No file is open. -/
def noFiles : RfsFiles where
  rfs := { rfltab := fun i => ⟨.RF_FREE, i, fun _ => 0, 0, 0⟩, comm := ⟨1, true, 0⟩ }
  names _ := []

/-- The server opens the file of the request with a number. -/
def openResponse (seq : Nat) : RfsEnv :=
  rfsServer ((List.range 140).map (setNetLong (fillReply (fun _ => 0) [1, 3]) rd_seq seq))

/-- `abcd` is opened and closed, and then `a` is opened in the same place. -/
def reopenCalls : List RfsCall :=
  [.rfsopen (openResponse 1) ⟨[0x61, 0x62, 0x63, 0x64], by decide⟩ ∅,
    .rflclose 0,
    .rfsopen (openResponse 2) ⟨fileA.val, fileA.property⟩ ∅]

theorem rfs_requests_iff_reopen :
    (∀ i, (noFiles.rfs.rfltab i).rfstate = .RF_FREE) ∧
      ((∀ before call behind, reopenCalls = before ++ call :: behind →
        CallRight (noFiles.after before) call) ↔
      ∀ before call behind, reopenCalls = before ++ call :: behind →
        ¬ CopiesStale (noFiles.after before) call) :=
  ⟨fun _ => rfl, rfs_requests_iff noFiles (fun _ => rfl) reopenCalls⟩

/-- **The end of an older name is sent.**  The name in the write request for `a` has a `c` behind
its null. -/
theorem rflwrite_sends_stale :
    let calls := reopenCalls ++ [.rflwrite (rfsServer []) 0 (fun _ => 0x78) 1]
    ¬ ∀ before call behind, calls = before ++ call :: behind →
      CallRight (noFiles.after before) call := by
  intro calls hall
  have hright := hall reopenCalls (.rflwrite (rfsServer []) 0 (fun _ => 0x78) 1) [] rfl
  have hsent : ((RfsCall.run (noFiles.after reopenCalls).rfs
      (.rflwrite (rfsServer []) 0 (fun _ => 0x78) 1)).sent.map (· (rf_name + 2))) = some 0x63 := by
    decide +kernel
  have hname : (noFiles.after reopenCalls).names 0 = [0x61] := by decide +kernel
  obtain ⟨msg, hmsg, hbyte⟩ := Option.map_eq_some_iff.mp hsent
  have := (hright.2 msg hmsg).1.1.name 2 (by decide)
  rw [hbyte, hname] at this
  exact absurd this (by decide)

end Xinu
