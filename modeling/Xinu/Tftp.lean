/-
# Downloads: `tftp.c`

`tftpget` asks a server for a file and acknowledges its blocks one by one; `tftp_send1` sends a
request and reads messages until the block that is expected next is there.  Block numbers have 16
bits on the wire and in the code.

The network keeps every packet that has been sent, and delivers any of them at any time, as often as
it likes and in any order, to the server (`Event.serve`) and to the client (`Event.deliver`).  It
delivers none after the client has gone on by more than 32767 blocks since it was sent.  A block
that is delivered answers a request that was delivered, so it is late by 65534 blocks at most, and
its number says which block it is.  From this comes the invariant (`Inv`), and that what `tftpget`
has returned is the size of the file and has left the file in the buffer (`tftpget_right`).
-/
import Xinu.Lib.Runs
import Xinu.NetPacket
import Xinu.Doprnt

namespace Xinu.Tftp

open Net Runs

/-! ## 1. The client

The source runs from one call of the UDP functions to the next, and each of these stretches is a
function here.  `Place` says at which call the client is. -/

abbrev TFTP_RRQ : Nat := 1
abbrev TFTP_DATA : Nat := 3
abbrev TFTP_ACK : Nat := 4
abbrev TFTP_ERROR : Nat := 5
abbrev TFTP_MAXNAM : Nat := 64
abbrev TFTP_MAXDATA : Nat := 512
abbrev TFTP_MAXRETRIES : Nat := 3

/-- `TFTP_FUNC_MAGIC`, the length that says that `user_ptr` is a function. -/
abbrev TFTP_FUNC_MAGIC : Nat := 0xFFFFFF00

/-- `sizeof(struct tftp_msg)`. -/
abbrev tftp_msgsize : Nat := 4 + TFTP_MAXDATA

/-- Offsets of the fields of `struct tftp_msg`. -/
abbrev tf_opcode : Nat := 0
abbrev tf_dblk : Nat := 2
abbrev tf_data : Nat := 4

/-- A `uint16` after `htons`. -/
def net16Bytes (x : Nat) : List UInt8 := [UInt8.ofNat (x / 256), UInt8.ofNat x]

/-- The arguments of `tftpget`, and the socket that `udp_register` returns. -/
structure Args where
  serverip : Nat
  filename : Option CString
  user_ptr : Nat
  user_len : Nat
  sock : Int

/-- Where the client is: in front of `udp_sendto` or of `udp_recvaddr` in `tftp_send1`, in front of
the last `udp_sendto`, or behind a `return`. -/
inductive Place
  | sending
  | receiving
  | lastAck
  | returned (ret : Int)
deriving DecidableEq, Repr

/-- The variables of `tftpget`, and the memory. -/
structure Client where
  place : Place
  i : Nat
  expected : Nat
  filesiz : Int
  /-- The first `mlen` bytes. -/
  outmsg : List UInt8
  bptr : Nat
  mem : Nat → UInt8
  /-- The calls of the user's function: `tf_dblk`, the data, `lastpkt`. -/
  calls : List (Option Nat × List UInt8 × Bool)

/-- What `udp_recvaddr` returns, with `inmsg` up to the length. -/
inductive Received
  | sysErr
  | timeout
  | message (inmsg : List UInt8)

/-- The body of the loop of `tftp_send1`: what is returned, if the loop ends. -/
def tftp_send1_body (expected : Nat) : Received → Option Int
  | .sysErr => some SYSERR
  | .timeout => some TIMEOUT
  | .message inmsg =>
    if inmsg.length < 4 then none
    else if net16 inmsg tf_opcode = some TFTP_ERROR then some SYSERR
    else if net16 inmsg tf_opcode = some TFTP_DATA ∧ net16 inmsg tf_dblk = some expected then
      some inmsg.length
    else none

/-- The read request: the opcode, the name and the mode. -/
def readRequest (filename : CString) : List UInt8 :=
  net16Bytes TFTP_RRQ ++ filename.chars ++ [0] ++ "octet".toList.map ch ++ [0]

def ackMessage (block : Nat) : List UInt8 := net16Bytes TFTP_ACK ++ net16Bytes block

/-- One byte of a block: the body of the loop that fills the buffer. -/
def Client.putByte (a : Args) (c : Client) (x : UInt8) : Client :=
  let c := if a.user_len ≠ TFTP_FUNC_MAGIC ∧ c.filesiz % 2 ^ 32 < a.user_len then
    { c with mem := Function.update c.mem c.bptr x, bptr := c.bptr + 1 } else c
  { c with filesiz := int32 (c.filesiz + 1) }

/-- `tftpget` with a block of `n` bytes. -/
def Client.takeBlock (a : Args) (c : Client) (n : Int) (inmsg : List UInt8) : Client :=
  let dlen := n - 2 - 2
  let lastpkt := decide (dlen < 512)
  let data := (inmsg.drop tf_data).take dlen.toNat
  let c := data.foldl (Client.putByte a) c
  let c := if a.user_len = TFTP_FUNC_MAGIC then
    { c with calls := (net16 inmsg tf_dblk, data, lastpkt) :: c.calls } else c
  let c := { c with outmsg := ackMessage c.expected }
  if lastpkt then { c with place := .lastAck }
  else { c with expected := (c.expected + 1) % 65536, i := 0, place := .sending }

/-- `tftpget`, when `tftp_send1` has returned `n`. -/
def Client.resume (a : Args) (c : Client) (n : Int) (inmsg : List UInt8) : Client :=
  if 0 < n then c.takeBlock a n inmsg
  else if n = SYSERR then { c with place := .returned SYSERR }
  else if c.i + 1 < TFTP_MAXRETRIES then { c with i := c.i + 1, place := .sending }
  else { c with place := .returned SYSERR }

/-- `tftpget` up to its first `udp_sendto`. -/
def tftpget (a : Args) (mem : Nat → UInt8) : Client :=
  let c : Client := ⟨.returned SYSERR, 0, 1, 0, [], a.user_ptr, mem, []⟩
  match a.filename with
  | none => c
  | some filename =>
    if a.serverip = 0 ∨ a.user_ptr = 0 ∨ a.user_len = 0 then c
    else if filename.chars.length = 0 ∨ TFTP_MAXNAM < filename.chars.length then c
    else if a.sock = SYSERR then c
    else { c with place := .sending, outmsg := readRequest filename }

/-! ## 2. The network and the server

Each packet in the network carries, beside its bytes, how far the client was when it was sent.
The code does not see this; it is there to say how late a packet is. -/

/-- A request in the network, and how many blocks the client had taken when it was sent.  These are
the blocks that it acknowledges. -/
structure Request where
  bytes : List UInt8
  acked : Nat
deriving DecidableEq, Repr

/-- A block in the network, which one it is, and how many blocks the client had taken when it was
sent. -/
structure Block where
  bytes : List UInt8
  number : Nat
  sent : Nat
deriving DecidableEq, Repr

/-- The client, how many blocks it has taken, and what has been sent. -/
structure System where
  client : Client
  taken : Nat
  requests : List Request
  blocks : List Block

/-- The number of the last block of a file, which is not full. -/
def lastBlock (file : List UInt8) : Nat := file.length / 512 + 1

def blockData (file : List UInt8) (number : Nat) : List UInt8 :=
  (file.drop (512 * (number - 1))).take 512

def dataMessage (number : Nat) (data : List UInt8) : List UInt8 :=
  net16Bytes TFTP_DATA ++ net16Bytes number ++ data

/-- How many blocks late a packet may be delivered. -/
abbrev maxLate : Nat := 32767

inductive Event
  /-- `udp_sendto` returns `OK` or `SYSERR`. -/
  | send (ok : Bool)
  /-- The server gets a request and answers it. -/
  | serve (r : Request)
  /-- `udp_recvaddr` returns with a block. -/
  | deliver (b : Block)
  | timeout
  | recvError

/-- `udp_recvaddr` returns, and the code runs up to the next call. -/
def System.receive (a : Args) (s : System) (r : Received) (inmsg : List UInt8) : System :=
  match tftp_send1_body s.client.expected r with
  | none => s
  | some n => { s with
      client := s.client.resume a n inmsg
      taken := if 0 < n then s.taken + 1 else s.taken }

/-- The packet of `udp_sendto` is in the network. -/
def System.sent (s : System) : System :=
  { s with requests := ⟨s.client.outmsg, s.taken⟩ :: s.requests }

def System.goto (s : System) (place : Place) : System :=
  { s with client := { s.client with place := place } }

def step (a : Args) (file : List UInt8) (s : System) : Event → Option System
  | .send ok =>
    match s.client.place with
    | .sending => some (if ok then s.sent.goto .receiving else s.goto (.returned SYSERR))
    | .lastAck =>
      some (if ok then s.sent.goto (.returned s.client.filesiz) else s.goto (.returned SYSERR))
    | _ => none
  | .serve r =>
    if r ∈ s.requests ∧ s.taken ≤ r.acked + maxLate ∧ r.acked < lastBlock file then
      some { s with blocks :=
        ⟨dataMessage (r.acked + 1) (blockData file (r.acked + 1)), r.acked + 1, s.taken⟩ ::
          s.blocks }
    else none
  | .deliver b =>
    if s.client.place = .receiving ∧ b ∈ s.blocks ∧ s.taken ≤ b.sent + maxLate then
      some (s.receive a (.message (b.bytes.take tftp_msgsize)) (b.bytes.take tftp_msgsize))
    else none
  | .timeout => if s.client.place = .receiving then some (s.receive a .timeout []) else none
  | .recvError => if s.client.place = .receiving then some (s.receive a .sysErr []) else none

/-- `tftpget` is called, and nothing has been sent. -/
def start (a : Args) (mem : Nat → UInt8) : System := ⟨tftpget a mem, 0, [], []⟩

/-! ## 3. Messages

What `tftp_send1` reads out of a message that the server has sent. -/

theorem net16_net16Bytes (x : Nat) (l : List UInt8) :
    net16 (net16Bytes x ++ l) 0 = some (x % 65536) := by
  simp only [net16, net16Bytes, List.cons_append, List.nil_append, List.getElem?_cons_zero,
    List.getElem?_cons_succ, Option.bind_eq_bind, Option.bind_some, UInt8.toNat_ofNat',
    Option.some.injEq]
  omega

theorem net16_append_two {h l : List UInt8} (hh : h.length = 2) (i : Nat) :
    net16 (h ++ l) (2 + i) = net16 l i := by
  have hget : ∀ j, (h ++ l)[2 + j]? = l[j]? := by
    intro j
    rw [List.getElem?_append_right (by omega)]
    congr 1
    omega
  rw [net16, net16, hget, Nat.add_assoc, hget]

section Messages

variable {number : Nat} {data : List UInt8}

theorem dataMessage_length : (dataMessage number data).length = 4 + data.length := by
  simp [dataMessage, net16Bytes]
  omega

theorem dataMessage_opcode : net16 (dataMessage number data) tf_opcode = some TFTP_DATA := by
  rw [dataMessage, List.append_assoc, net16_net16Bytes]
  rfl

theorem dataMessage_block : net16 (dataMessage number data) tf_dblk = some (number % 65536) := by
  rw [dataMessage, List.append_assoc, ← net16_net16Bytes number data]
  exact net16_append_two rfl 0

theorem dataMessage_drop : (dataMessage number data).drop tf_data = data := rfl

/-- A block ends the loop of `tftp_send1` exactly if its number is expected. -/
theorem tftp_send1_data (expected : Nat) :
    tftp_send1_body expected (.message (dataMessage number data)) =
      if number % 65536 = expected then some ((4 + data.length : Nat) : Int) else none := by
  have hlen : ¬ (dataMessage number data).length < 4 := by
    rw [dataMessage_length]
    omega
  rw [tftp_send1_body, if_neg hlen, dataMessage_opcode, dataMessage_block, dataMessage_length,
    if_neg (by decide)]
  simp only [true_and, Option.some.injEq]

end Messages

section File

variable {file : List UInt8} {n : Nat}

theorem blockData_length (n : Nat) :
    (blockData file (n + 1)).length = min 512 (file.length - 512 * n) := by
  rw [blockData, List.length_take, List.length_drop, Nat.add_sub_cancel]

/-- The blocks up to one and the next one. -/
theorem take_blockData (n : Nat) :
    file.take (512 * n) ++ blockData file (n + 1) = file.take (512 * (n + 1)) := by
  rw [blockData, Nat.add_sub_cancel, Nat.mul_add_one, List.take_add]

/-- Only the last block is not full. -/
theorem blockData_short (h : n < lastBlock file) :
    (blockData file (n + 1)).length < 512 ↔ n + 1 = lastBlock file := by
  rw [blockData_length]
  rw [lastBlock] at h ⊢
  omega

theorem take_lastBlock : file.take (512 * lastBlock file) = file := by
  apply List.take_of_length_le
  rw [lastBlock]
  omega

end File

/-! ## 4. The buffer

The client counts every byte and writes those that fit. -/

/-- What the client has counted and written, after these bytes of the file. -/
structure Holds (a : Args) (mem : Nat → UInt8) (c : Client) (l : List UInt8) : Prop where
  filesiz : c.filesiz = l.length
  bptr : c.bptr = a.user_ptr + min l.length a.user_len
  mem : ∀ p, c.mem p = if a.user_ptr ≤ p ∧ p < a.user_ptr + a.user_len then
    l[p - a.user_ptr]?.getD (mem p) else mem p

section Buffer

variable {a : Args} {mem : Nat → UInt8} {c : Client} {l d : List UInt8} {x : UInt8}

/-- One byte more. -/
theorem Holds.putByte (h : Holds a mem c l) (hm : a.user_len ≠ TFTP_FUNC_MAGIC)
    (hlen : l.length + 1 < 2 ^ 31) : Holds a mem (c.putByte a x) (l ++ [x]) := by
  have hsize : int32 (c.filesiz + 1) = ((l ++ [x]).length : Nat) := by
    rw [h.filesiz, int32_eq (by omega) (by omega), List.length_append, List.length_singleton]
    rfl
  have hroom : c.filesiz % 2 ^ 32 < a.user_len ↔ l.length < a.user_len := by
    rw [h.filesiz]
    omega
  rw [Client.putByte]
  by_cases hin : l.length < a.user_len
  · have hbptr : c.bptr = a.user_ptr + l.length := by
      rw [h.bptr]
      omega
    rw [if_pos ⟨hm, hroom.mpr hin⟩]
    refine ⟨hsize, ?_, fun p => ?_⟩
    · simp only [hbptr, List.length_append, List.length_singleton]
      omega
    · simp only [Function.update_apply, hbptr, h.mem p]
      by_cases hp : p = a.user_ptr + l.length
      · subst hp
        rw [if_pos rfl, if_pos ⟨by omega, by omega⟩, Nat.add_sub_cancel_left,
          List.getElem?_concat_length, Option.getD_some]
      · rw [if_neg hp]
        split_ifs with hbuf
        · have hne : p - a.user_ptr ≠ l.length := by omega
          rw [List.getElem?_append]
          split_ifs with hlt
          · rfl
          · rw [List.getElem?_eq_none (by omega), List.getElem?_eq_none (by simp; omega)]
        · rfl
  · rw [if_neg fun e => hin (hroom.mp e.2)]
    refine ⟨hsize, ?_, fun p => ?_⟩
    · simp only [h.bptr, List.length_append, List.length_singleton]
      omega
    · simp only [h.mem p]
      split_ifs with hbuf
      · rw [List.getElem?_append_left (by omega)]
      · rfl

/-- The loop that fills the buffer. -/
theorem Holds.putBytes (h : Holds a mem c l) (hm : a.user_len ≠ TFTP_FUNC_MAGIC)
    (hlen : (l ++ d).length < 2 ^ 31) :
    Holds a mem (d.foldl (Client.putByte a) c) (l ++ d) := by
  induction d generalizing c l with
  | nil => rwa [List.append_nil]
  | cons x d ih =>
    rw [List.length_append, List.length_cons] at hlen
    rw [List.foldl_cons, ← List.singleton_append, ← List.append_assoc]
    refine ih (h.putByte hm (by omega)) ?_
    simp only [List.length_append, List.length_singleton]
    omega

theorem foldl_putByte_expected (d : List UInt8) (c : Client) :
    (d.foldl (Client.putByte a) c).expected = c.expected := by
  induction d generalizing c with
  | nil => rfl
  | cons x d ih =>
    rw [List.foldl_cons, ih, Client.putByte]
    split_ifs <;> rfl

/-- `tftpget` with a block: the buffer, the acknowledgement, and where it goes on. -/
theorem takeBlock_data (h : Holds a mem c l) (hm : a.user_len ≠ TFTP_FUNC_MAGIC) {number : Nat}
    (hlen : (l ++ d).length < 2 ^ 31) :
    ∃ c', c.takeBlock a ((4 + d.length : Nat) : Int) (dataMessage number d) = c' ∧
      Holds a mem c' (l ++ d) ∧ c'.outmsg = ackMessage c.expected ∧
      (if d.length < 512 then c'.place = .lastAck
        else c'.place = .sending ∧ c'.expected = (c.expected + 1) % 65536) := by
  have hdlen : ((4 + d.length : Nat) : Int) - 2 - 2 = d.length := by omega
  have hput := h.putBytes hm hlen
  refine ⟨_, rfl, ?_⟩
  simp only [Client.takeBlock, hdlen, Int.toNat_natCast, dataMessage_drop, List.take_length,
    if_neg hm, foldl_putByte_expected, decide_eq_true_eq, Nat.cast_lt_ofNat]
  split_ifs with hlast
  · exact ⟨⟨hput.filesiz, hput.bptr, hput.mem⟩, rfl, rfl⟩
  · exact ⟨⟨hput.filesiz, hput.bptr, hput.mem⟩, rfl, rfl, rfl⟩

end Buffer

/-! ## 5. The invariant

It has a part for the client, one for the requests in the network and one for the blocks.  A step
either moves the client or adds one packet, and there is a lemma for each way to do it. -/

/-- The request after so many blocks. -/
def requestFor (filename : CString) (taken : Nat) : List UInt8 :=
  if taken = 0 then readRequest filename else ackMessage (taken % 65536)

/-- A request in the network is the one for the blocks that it acknowledges. -/
structure Request.Sound (filename : CString) (taken : Nat) (r : Request) : Prop where
  bytes : r.bytes = requestFor filename r.acked
  le : r.acked ≤ taken

/-- A block in the network answers a request that has been delivered. -/
structure Block.Sound (file : List UInt8) (taken : Nat) (b : Block) : Prop where
  bytes : b.bytes = dataMessage b.number (blockData file b.number)
  pos : 0 < b.number
  last : b.number ≤ lastBlock file
  sent : b.sent ≤ taken
  answers : b.number ≤ b.sent + 1
  late : b.sent + 1 ≤ b.number + maxLate

/-- What the client is to do next. -/
def Waits (filename : CString) (file : List UInt8) (c : Client) (taken : Nat) : Prop :=
  taken < lastBlock file ∧ c.expected = (taken + 1) % 65536 ∧ c.outmsg = requestFor filename taken

/-- The client is where it has to be after so many blocks. -/
def InPlace (filename : CString) (file : List UInt8) (c : Client) (taken : Nat) : Prop :=
  match c.place with
  | .sending => Waits filename file c taken
  | .receiving => Waits filename file c taken
  | .lastAck => taken = lastBlock file ∧ c.outmsg = requestFor filename taken
  | .returned ret => 0 ≤ ret → taken = lastBlock file ∧ ret = c.filesiz

structure Inv (a : Args) (filename : CString) (file : List UInt8) (mem : Nat → UInt8)
    (s : System) : Prop where
  holds : Holds a mem s.client (file.take (512 * s.taken))
  place : InPlace filename file s.client s.taken
  requests : ∀ r ∈ s.requests, r.Sound filename s.taken
  blocks : ∀ b ∈ s.blocks, b.Sound file s.taken

section Steps

variable {a : Args} {filename : CString} {file : List UInt8} {mem : Nat → UInt8}
  {s t : System}

/-- **The number of a block says which one it is.**  One that is delivered is late by less than
65536 blocks, since its request was late by 32767 at most and so is the block. -/
theorem Block.Sound.eq_of_mod {b : Block} (h : b.Sound file s.taken)
    (hlate : s.taken ≤ b.sent + maxLate) (hmod : b.number % 65536 = (s.taken + 1) % 65536) :
    b.number = s.taken + 1 := by
  have h1 := h.sent
  have h2 := h.answers
  have h3 := h.late
  have hmax : maxLate = 32767 := rfl
  omega

theorem Holds.goto {l : List UInt8} (h : Holds a mem s.client l) (place : Place) :
    Holds a mem (s.goto place).client l := ⟨h.filesiz, h.bptr, h.mem⟩

theorem Request.Sound.mono {n m : Nat} {r : Request} (h : r.Sound filename n) (hnm : n ≤ m) :
    r.Sound filename m := ⟨h.bytes, h.le.trans hnm⟩

theorem Block.Sound.mono {n m : Nat} {b : Block} (h : b.Sound file n) (hnm : n ≤ m) :
    b.Sound file m := ⟨h.bytes, h.pos, h.last, h.sent.trans hnm, h.answers, h.late⟩

/-- A return with an error. -/
theorem Inv.fail (h : Inv a filename file mem s) :
    Inv a filename file mem (s.goto (.returned SYSERR)) :=
  ⟨h.holds.goto _, fun hret => absurd hret (by decide), h.requests, h.blocks⟩

/-- A request is sent. -/
theorem Inv.send (h : Inv a filename file mem s) {place : Place}
    (hmsg : s.client.outmsg = requestFor filename s.taken)
    (hplace : InPlace filename file (s.goto place).client s.taken) :
    Inv a filename file mem (s.sent.goto place) := by
  refine ⟨h.holds.goto place, hplace, fun r hr => ?_, h.blocks⟩
  rcases List.mem_cons.mp hr with rfl | hr
  · exact ⟨hmsg, le_rfl⟩
  · exact h.requests r hr

/-- A request is answered. -/
theorem Inv.serve (h : Inv a filename file mem s) {r : Request} (hr : r ∈ s.requests)
    (hlate : s.taken ≤ r.acked + maxLate) (hlast : r.acked < lastBlock file) :
    Inv a filename file mem { s with blocks :=
      ⟨dataMessage (r.acked + 1) (blockData file (r.acked + 1)), r.acked + 1, s.taken⟩ ::
        s.blocks } := by
  refine ⟨h.holds, h.place, h.requests, fun b hb => ?_⟩
  rcases List.mem_cons.mp hb with rfl | hb
  · have hle := (h.requests r hr).le
    have hsucc : s.taken + 1 ≤ r.acked + 1 + maxLate := by omega
    exact ⟨rfl, Nat.succ_pos _, hlast, le_rfl, Nat.succ_le_succ hle, hsucc⟩
  · exact h.blocks b hb

/-- `udp_recvaddr` has timed out, or failed. -/
theorem Inv.receive_none (h : Inv a filename file mem s) (hplace : s.client.place = .receiving)
    {r : Received} (hr : r = .timeout ∨ r = .sysErr) :
    Inv a filename file mem (s.receive a r []) := by
  have hwaits : Waits filename file s.client s.taken := by
    have := h.place
    rwa [InPlace, hplace] at this
  have hretry : Inv a filename file mem
      { s with client := { s.client with i := s.client.i + 1, place := .sending } } :=
    ⟨⟨h.holds.filesiz, h.holds.bptr, h.holds.mem⟩, hwaits, h.requests, h.blocks⟩
  rcases hr with rfl | rfl
  · by_cases hi : s.client.i + 1 < TFTP_MAXRETRIES
    · have hs : s.receive a .timeout [] =
          { s with client := { s.client with i := s.client.i + 1, place := .sending } } := by
        simp [System.receive, tftp_send1_body, Client.resume, hi]
      exact hs ▸ hretry
    · have hs : s.receive a .timeout [] = s.goto (.returned SYSERR) := by
        simp [System.receive, tftp_send1_body, Client.resume, hi, System.goto]
      exact hs ▸ h.fail
  · exact h.fail

/-- The next block is taken. -/
theorem Inv.take (h : Inv a filename file mem s) (hm : a.user_len ≠ TFTP_FUNC_MAGIC)
    (hfile : file.length < 2 ^ 31) (hwaits : Waits filename file s.client s.taken) :
    Inv a filename file mem { s with
      client := s.client.takeBlock a ((4 + (blockData file (s.taken + 1)).length : Nat) : Int)
        (dataMessage (s.taken + 1) (blockData file (s.taken + 1)))
      taken := s.taken + 1 } := by
  obtain ⟨hlt, hexp, -⟩ := hwaits
  have hlen : (file.take (512 * s.taken) ++ blockData file (s.taken + 1)).length < 2 ^ 31 := by
    rw [take_blockData]
    exact (List.length_take_le' _ _).trans_lt hfile
  obtain ⟨c', hc', hholds, hmsg, hplace⟩ := takeBlock_data h.holds hm hlen
  rw [take_blockData] at hholds
  have hrequest : c'.outmsg = requestFor filename (s.taken + 1) := by
    rw [hmsg, hexp, requestFor, if_neg (Nat.succ_ne_zero _)]
  rw [hc']
  refine ⟨hholds, ?_, fun r hr => (h.requests r hr).mono (Nat.le_succ _),
    fun b hb => (h.blocks b hb).mono (Nat.le_succ _)⟩
  by_cases hshort : (blockData file (s.taken + 1)).length < 512
  · rw [if_pos hshort] at hplace
    simp only [InPlace, hplace]
    exact ⟨(blockData_short hlt).mp hshort, hrequest⟩
  · rw [if_neg hshort] at hplace
    simp only [InPlace, hplace.1]
    refine ⟨?_, ?_, hrequest⟩
    · have := mt (blockData_short hlt).mpr hshort
      omega
    · rw [hplace.2, hexp]
      omega

/-- A block is delivered. -/
theorem Inv.deliver (h : Inv a filename file mem s) (hm : a.user_len ≠ TFTP_FUNC_MAGIC)
    (hfile : file.length < 2 ^ 31) {b : Block} (hplace : s.client.place = .receiving)
    (hb : b ∈ s.blocks) (hlate : s.taken ≤ b.sent + maxLate) :
    Inv a filename file mem
      (s.receive a (.message (b.bytes.take tftp_msgsize)) (b.bytes.take tftp_msgsize)) := by
  have hsound := h.blocks b hb
  have hwaits : Waits filename file s.client s.taken := by
    have := h.place
    rwa [InPlace, hplace] at this
  have hfits : b.bytes.take tftp_msgsize = b.bytes := by
    refine List.take_of_length_le ?_
    rw [hsound.bytes, dataMessage_length, blockData, List.length_take]
    exact Nat.add_le_add_left (Nat.min_le_left _ _) 4
  rw [hfits, hsound.bytes, System.receive, tftp_send1_data]
  by_cases hmod : b.number % 65536 = s.client.expected
  · have hnum := hsound.eq_of_mod hlate (hmod.trans hwaits.2.1)
    have hpos : 0 < ((4 + (blockData file (s.taken + 1)).length : Nat) : Int) := by omega
    rw [if_pos hmod, hnum]
    simp only [Client.resume, if_pos hpos]
    exact h.take hm hfile hwaits
  · rw [if_neg hmod]
    exact h

/-- **Every step keeps the invariant.** -/
theorem Inv.step (h : Inv a filename file mem s) (hm : a.user_len ≠ TFTP_FUNC_MAGIC)
    (hfile : file.length < 2 ^ 31) (e : Event) (hs : step a file s e = some t) :
    Inv a filename file mem t := by
  cases e with
  | send ok =>
    have hinplace := h.place
    rw [InPlace] at hinplace
    cases hplace : s.client.place with
    | sending =>
      simp only [Tftp.step, hplace, Option.some.injEq] at hs
      rw [hplace] at hinplace
      cases ok with
      | true => exact hs ▸ h.send hinplace.2.2 hinplace
      | false => exact hs ▸ h.fail
    | lastAck =>
      simp only [Tftp.step, hplace, Option.some.injEq] at hs
      rw [hplace] at hinplace
      cases ok with
      | true => exact hs ▸ h.send hinplace.2 fun _ => ⟨hinplace.1, rfl⟩
      | false => exact hs ▸ h.fail
    | receiving =>
      simp only [Tftp.step, hplace, reduceCtorEq] at hs
    | returned ret =>
      simp only [Tftp.step, hplace, reduceCtorEq] at hs
  | serve r =>
    obtain ⟨⟨hr, hlate, hlast⟩, heq⟩ := Option.ite_none_right_eq_some.mp hs
    exact Option.some.inj heq ▸ h.serve hr hlate hlast
  | deliver b =>
    obtain ⟨⟨hplace, hb, hlate⟩, heq⟩ := Option.ite_none_right_eq_some.mp hs
    exact Option.some.inj heq ▸ h.deliver hm hfile hplace hb hlate
  | timeout =>
    obtain ⟨hplace, heq⟩ := Option.ite_none_right_eq_some.mp hs
    exact Option.some.inj heq ▸ h.receive_none hplace (.inl rfl)
  | recvError =>
    obtain ⟨hplace, heq⟩ := Option.ite_none_right_eq_some.mp hs
    exact Option.some.inj heq ▸ h.receive_none hplace (.inr rfl)

end Steps

/-! ## 6. What is returned

The client only returns a size when it has taken a block that is not full, and that is the last
one. -/

section Result

variable {a : Args} {file : List UInt8} {mem : Nat → UInt8} {s : System}

/-- A call that fails has sent nothing and written nothing; else the read request is next. -/
theorem start_inv (a : Args) (file : List UInt8) (mem : Nat → UInt8) :
    ∃ filename, Inv a filename file mem (start a mem) := by
  have hholds : ∀ place outmsg, Holds a mem ⟨place, 0, 1, 0, outmsg, a.user_ptr, mem, []⟩ [] := by
    intro place outmsg
    refine ⟨rfl, by simp, fun p => ?_⟩
    split_ifs <;> rfl
  have hinv : ∀ filename place outmsg,
      InPlace filename file ⟨place, 0, 1, 0, outmsg, a.user_ptr, mem, []⟩ 0 →
      Inv a filename file mem ⟨⟨place, 0, 1, 0, outmsg, a.user_ptr, mem, []⟩, 0, [], []⟩ :=
    fun filename place outmsg hplace =>
      ⟨by simpa using hholds place outmsg, hplace, by simp, by simp⟩
  have hfail : ∀ filename, InPlace filename file
      ⟨.returned SYSERR, 0, 1, 0, [], a.user_ptr, mem, []⟩ 0 :=
    fun _ hret => absurd hret (by decide)
  rw [start, tftpget]
  cases a.filename with
  | none => exact ⟨⟨[], by simp⟩, hinv _ _ _ (hfail _)⟩
  | some filename =>
    refine ⟨filename, ?_⟩
    dsimp only
    split_ifs
    · exact hinv _ _ _ (hfail _)
    · exact hinv _ _ _ (hfail _)
    · exact hinv _ _ _ (hfail _)
    · exact hinv _ _ _ ⟨Nat.succ_pos _, rfl, rfl⟩

/-- The invariant along a run. -/
theorem reaches_inv (hm : a.user_len ≠ TFTP_FUNC_MAGIC) (hfile : file.length < 2 ^ 31)
    (h : Reaches (step a file) always (start a mem) s) : ∃ filename, Inv a filename file mem s := by
  obtain ⟨filename, h0⟩ := start_inv a file mem
  exact ⟨filename, h.invariant h0 fun _ e _ hinv _ hs => hinv.step hm hfile e hs⟩

/-- **A download is the file.**  If `tftpget` returns a size, it is that of the file, and the buffer
holds as much of the file as it has room for.  Nothing is written outside the buffer, and nothing
behind the file. -/
theorem tftpget_right (hm : a.user_len ≠ TFTP_FUNC_MAGIC) (hfile : file.length < 2 ^ 31) {n : Int}
    (h : Reaches (step a file) always (start a mem) s) (hret : s.client.place = .returned n)
    (hn : 0 ≤ n) :
    n = file.length ∧
      (∀ i, i < min file.length a.user_len → some (s.client.mem (a.user_ptr + i)) = file[i]?) ∧
      ∀ p, p < a.user_ptr ∨ a.user_ptr + min file.length a.user_len ≤ p →
        s.client.mem p = mem p := by
  obtain ⟨filename, hinv⟩ := reaches_inv hm hfile h
  have hplace := hinv.place
  rw [InPlace, hret] at hplace
  obtain ⟨htaken, hsize⟩ := hplace hn
  have hholds := hinv.holds
  rw [htaken, take_lastBlock] at hholds
  refine ⟨hsize.trans hholds.filesiz, fun i hi => ?_, fun p hp => ?_⟩
  · have hlt : i < file.length := by omega
    rw [hholds.mem, if_pos ⟨by omega, by omega⟩, Nat.add_sub_cancel_left,
      List.getElem?_eq_getElem hlt, Option.getD_some]
  · rw [hholds.mem]
    split_ifs with hbuf
    · rw [List.getElem?_eq_none (by omega), Option.getD_none]
    · rfl

end Result

/-! ## 7. A run

Everything is sent twice, and the late copy does no harm. -/

/-- A file of one byte, and a call for it. -/
def oneByteCall : Args := ⟨1, some ⟨[ch 'f'], by decide⟩, 1000, 10, 0⟩

/-- The read request is sent twice and answered twice; the block comes twice. -/
def oneByteRun : List Event :=
  let rrq : Request := ⟨readRequest ⟨[ch 'f'], by decide⟩, 0⟩
  let block : Block := ⟨dataMessage 1 [7], 1, 0⟩
  [.send true, .serve rrq, .timeout, .send true, .serve rrq, .deliver block, .send true]

theorem tftpget_right_oneByte : ∃ s, Reaches (step oneByteCall [7]) always
    (start oneByteCall fun _ => 0) s ∧ s.client.mem 1000 = 7 ∧ s.client.mem 1001 = 0 := by
  have hrun : ((exec (step oneByteCall [7]) always (start oneByteCall fun _ => 0) oneByteRun).map
      fun s => s.client.place) = some (.returned 1) := by decide +kernel
  obtain ⟨s, hs, hplace⟩ := Option.map_eq_some_iff.mp hrun
  obtain ⟨-, hbuf, hframe⟩ := tftpget_right (by decide) (by decide) (reaches_of_exec hs) hplace
    (by decide)
  exact ⟨s, reaches_of_exec hs, Option.some.inj (hbuf 0 (by decide)),
    hframe 1001 (.inr (by decide))⟩

end Xinu.Tftp
