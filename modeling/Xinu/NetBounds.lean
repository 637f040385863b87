/-
# Which bytes the receive path reads and writes

This module is what `icmp_in`, `icmp_mkpkt`, `icmp_recv`, `udp_in`, `udp_recv` and `udp_recvaddr` do
with the bytes of a packet and of the caller's buffer.  Together with `ip_in` this is the way of a
received packet through the system.

A received packet is in a buffer of `netbufpool`.  The bytes that follow the buffer in memory are
there too, and a run that reads them goes on with them: so whether a packet passes the checks is
asked of the buffer together with whatever follows it, and whether the code stays in bounds of the
buffer alone.
-/
import Xinu.NetChecksum
import Xinu.IcmpQueue
import Xinu.UdpSlots

namespace Xinu.Net

/-! ## 1. Copying

Both ways in which the code copies bytes.  `none` is an access outside of one of the two arrays. -/

/-- A loop that copies `n` bytes from `src` at `i` to `dst` at `j`. -/
def copyBytes (src : List UInt8) : Nat → Nat → List UInt8 → Nat → Option (List UInt8)
  | 0, _, dst, _ => some dst
  | n + 1, i, dst, j => do
    let b ← src[i]?
    if j < dst.length then copyBytes src n (i + 1) (dst.set j b) (j + 1) else none

/-- `memcpy` of `memcpy.c`, whose `n` is an `int`: a negative one copies nothing. -/
def memcpy (dst : List UInt8) (j : Nat) (src : List UInt8) (i : Nat) (n : Int) :
    Option (List UInt8) :=
  copyBytes src n.toNat i dst j

/-! ## 2. ICMP

The buffer of a reply is another buffer of the pool, of the same size.  `icmp_recv` copies as much
as the length in the IP header says, or as the caller has room for. -/

/-- `ICMP_ECHOREPLY` of `icmp.h`. -/
abbrev ICMP_ECHOREPLY : Nat := 0

/-- `ICMP_ECHOREQST` of `icmp.h`. -/
abbrev ICMP_ECHOREQST : Nat := 8

/-- The fields that `icmp_mkpkt` stores before it copies the data. -/
def icmp_header (net : Network) (ipident : Nat) (pkt : Packet) (remip type ident seq : Nat)
    (len : Int) : Option Packet := do
  let pkt ← memcpy pkt net_ethsrc net.ethucast.1 0 6
  let pkt ← store16 pkt net_ethtype 0x800
  let pkt ← store8 pkt net_ipvh 0x45
  let pkt ← store8 pkt net_iptos 0
  let pkt ← store16 pkt net_iplen (((IP_HDR_LEN + ICMP_HDR_LEN : Nat) + len) % 65536).toNat
  let pkt ← store16 pkt net_ipid ipident
  let pkt ← store16 pkt net_ipfrag 0
  let pkt ← store8 pkt net_ipttl 0xff
  let pkt ← store8 pkt net_ipproto IP_ICMP
  let pkt ← store16 pkt net_ipcksum 0
  let pkt ← store32 pkt net_ipsrc net.ipucast
  let pkt ← store32 pkt net_ipdst remip
  let pkt ← store8 pkt net_ictype type
  let pkt ← store8 pkt net_iccode 0
  let pkt ← store16 pkt net_iccksum 0
  let pkt ← store16 pkt net_icident ident
  store16 pkt net_icseq seq

/-- `icmp_mkpkt`, in the new buffer `pkt`; the data to be sent begins in `buf` at `i`. -/
def icmp_mkpkt (net : Network) (ipident : Nat) (pkt : Packet) (remip type ident seq : Nat)
    (buf : List UInt8) (i : Nat) (len : Int) : Option Packet := do
  let pkt ← icmp_header net ipident pkt remip type ident seq len
  memcpy pkt net_icdata buf i len

/-- What `icmp_in` does with a packet. -/
inductive IcmpIn
  | freed
  /-- It answers with this packet. -/
  | reply (pkt : Packet)
  /-- It puts the packet into the queue of a slot. -/
  | queued (tab : Icmp.Icmptab)

/-- `icmp_in`.  A reply is built in the buffer `fresh`. -/
def icmp_in (net : Network) (ipident : Nat) (fresh : Packet) (tab : Icmp.Icmptab) (pktptr : Nat)
    (pkt : Packet) : Option IcmpIn := do
  let type ← load8 pkt net_ictype
  if type ≠ ICMP_ECHOREPLY ∧ type ≠ ICMP_ECHOREQST then some .freed
  else if type = ICMP_ECHOREQST then do
    let ipsrc ← load32 pkt net_ipsrc
    let ident ← load16 pkt net_icident
    let seq ← load16 pkt net_icseq
    let iplen ← load16 pkt net_iplen
    let replypkt ← icmp_mkpkt net ipident fresh ipsrc ICMP_ECHOREPLY ident seq pkt net_icdata
      ((iplen : Int) - IP_HDR_LEN - ICMP_HDR_LEN)
    some (.reply replypkt)
  else do
    let ident ← load16 pkt net_icident
    let ipsrc ← load32 pkt net_ipsrc
    some (.queued (Icmp.icmp_in tab ident ipsrc pktptr))

/-- The loop of `icmp_recv`: at most `n` more bytes, and no more than `len` in all. -/
def icmp_loop (pkt : Packet) (len : Int) : Nat → Nat → List UInt8 → Option (Nat × List UInt8)
  | 0, i, buff => some (i, buff)
  | n + 1, i, buff =>
    if (i : Int) ≥ len then some (i, buff)
    else do
      let b ← pkt[net_icdata + i]?
      if i < buff.length then icmp_loop pkt len n (i + 1) (buff.set i b) else none

/-- `icmp_recv` after it has taken `pkt` out of the queue: its result and the caller's buffer. -/
def icmp_copy (pkt : Packet) (buff : List UInt8) (len : Int) : Option (Nat × List UInt8) := do
  let iplen ← load16 pkt net_iplen
  icmp_loop pkt len ((iplen : Int) - IP_HDR_LEN - ICMP_HDR_LEN).toNat 0 buff

/-! ## 3. UDP

`udp_in` reads the ports of a packet and queues it.  What is copied later depends on the length in
the UDP header, which nothing compares with the IP header. -/

/-- What `udp_in` reads of a packet. -/
def udp_header (pkt : Packet) : Option Udp.Header := do
  let dport ← load16 pkt net_udpdport
  let sport ← load16 pkt net_udpsport
  let src ← load32 pkt net_ipsrc
  some ⟨sport, dport, src⟩

/-- `udp_in`. -/
def udp_in (tab : Udp.Udptab) (pktptr : Nat) (pkt : Packet) : Option Udp.Udptab := do
  let h ← udp_header pkt
  some (Udp.udp_in tab h pktptr)

/-- `udp_recv` after it has taken `pkt` out of the queue: its result and the caller's buffer. -/
def udp_copy (pkt : Packet) (buff : List UInt8) (len : Int) : Option (Int × List UInt8) := do
  let udplen ← load16 pkt net_udplen
  let msglen := (udplen : Int) - UDP_HDR_LEN
  let msglen := if len < msglen then len else msglen
  let buff ← copyBytes pkt msglen.toNat net_udpdata buff 0
  some (msglen, buff)

/-- `udp_recvaddr` after it has taken `pkt` out of the queue: the sender's address and port, its
result and the caller's buffer. -/
def udp_copyaddr (pkt : Packet) (buff : List UInt8) (len : Int) :
    Option (Nat × Nat × Int × List UInt8) := do
  let remip ← load32 pkt net_ipsrc
  let remport ← load16 pkt net_udpsport
  let (msglen, buff) ← udp_copy pkt buff len
  some (remip, remport, msglen, buff)

/-! ## 4. A packet is handled in bounds

The property has one part for each routine on the way.  `LengthsFit` is the condition on the
packet under which all of them hold. -/

/-- The way of a packet through the system reads the buffer `p` only and writes the buffer of a
reply or the caller's buffer only, and a receive returns a number of bytes that the caller has room
for. -/
structure InBounds (net : Network) (p : Packet) : Prop where
  input : ip_in net p ≠ none
  icmp : ∀ q, ip_in net p = some (.icmp_in q) →
    (∀ ipident fresh tab pktptr, fresh.length = netbufsize →
      icmp_in net ipident fresh tab pktptr q ≠ none) ∧
    ∀ buff, icmp_copy q buff buff.length ≠ none
  udp : ∀ q, ip_in net p = some (.udp_in q) →
    (∀ tab pktptr, udp_in tab pktptr q ≠ none) ∧
    ∀ buff : List UInt8, (∃ n buff', udp_copy q buff buff.length = some (n, buff') ∧ 0 ≤ n ∧
        n ≤ buff.length) ∧
      ∃ remip remport n buff', udp_copyaddr q buff buff.length = some (remip, remport, n, buff') ∧
        0 ≤ n ∧ n ≤ buff.length

/-- The length fields are right for the buffer: an ICMP packet ends in it, and a UDP packet has a
header and ends in it. -/
def LengthsFit (p : Packet) : Prop :=
  (load8 p net_ipproto = some IP_ICMP → ∀ iplen ∈ net16 p net_iplen,
    ETH_HDR_LEN + iplen ≤ netbufsize) ∧
  (load8 p net_ipproto = some IP_UDP → ∀ udplen ∈ net16 p net_udplen,
    UDP_HDR_LEN ≤ udplen ∧ net_udpsport + udplen ≤ netbufsize)

/-! ## 5. Accesses that stay inside

A step that succeeds on every packet of `n` bytes composes with another one (`Keeps.bind`), so a
routine stays inside when its largest index does. -/

section Inside

variable {p q : Packet} {i j n x : Nat}

/-- A copy inside of both buffers succeeds. -/
theorem copyBytes_some {src : List UInt8} : ∀ {n i j : Nat} {dst : List UInt8},
    i + n ≤ src.length → j + n ≤ dst.length →
      ∃ r, copyBytes src n i dst j = some r ∧ r.length = dst.length := by
  intro n
  induction n with
  | zero =>
    intro i j dst _ _
    exact ⟨dst, rfl, rfl⟩
  | succ n ih =>
    intro i j dst hs hd
    have hi : i < src.length := by omega
    obtain ⟨r, hr, hlen⟩ := @ih (i + 1) (j + 1) (dst.set j src[i]) (by omega)
      (by rw [List.length_set]; omega)
    refine ⟨r, ?_, by rw [hlen, List.length_set]⟩
    rw [copyBytes, List.getElem?_eq_getElem hi, Option.bind_eq_bind, Option.bind_some,
      if_pos (by omega), hr]

/-- A copy that succeeds has read inside of its source. -/
theorem of_copyBytes {src : List UInt8} : ∀ {n i j : Nat} {dst r : List UInt8},
    copyBytes src n i dst j = some r → n = 0 ∨ i + n ≤ src.length := by
  intro n
  induction n with
  | zero =>
    intro i j dst r _
    exact .inl rfl
  | succ n ih =>
    intro i j dst r h
    simp only [copyBytes, Option.bind_eq_bind, Option.bind_eq_some_iff,
      Option.ite_none_right_eq_some] at h
    obtain ⟨b, hb, -, hrec⟩ := h
    have hi := (List.getElem?_eq_some_iff.mp hb).1
    rcases ih hrec with h0 | hle
    · exact .inr (by omega)
    · exact .inr (by omega)

/-- The loop of `icmp_recv` counts up to the smaller of the two bounds. -/
theorem icmp_loop_some {pkt : Packet} : ∀ {n i : Nat} {buff : List UInt8},
    net_icdata + i + n ≤ pkt.length → ∃ r, icmp_loop pkt buff.length n i buff = some r := by
  intro n
  induction n with
  | zero =>
    intro i buff _
    exact ⟨(i, buff), rfl⟩
  | succ n ih =>
    intro i buff h
    rw [icmp_loop]
    split_ifs with hlen hbuff
    · exact ⟨(i, buff), rfl⟩
    · have hi : net_icdata + i < pkt.length := by omega
      obtain ⟨r, hr⟩ := @ih (i + 1) (buff.set i pkt[net_icdata + i]) (by omega)
      rw [List.length_set] at hr
      refine ⟨r, ?_⟩
      rw [List.getElem?_eq_getElem hi, Option.bind_eq_bind, Option.bind_some, hr]
    · exact absurd (by omega) hbuff

/-- A word inside of the packet can be read. -/
theorem load32_some (h : i + 3 < p.length) : ∃ x, load32 p i = some x := by
  have h2 : i + 2 + 1 < p.length := by omega
  exact ⟨_, by rw [load32, load16_eq (by omega), load16_eq h2]; rfl⟩

/-- So can half of one. -/
theorem load16_some (h : i + 1 < p.length) : ∃ x, load16 p i = some x := ⟨_, load16_eq h⟩

/-- The step succeeds on packets of at least `n` bytes, and keeps their length. -/
def Keeps (n : Nat) (f : Packet → Option Packet) : Prop :=
  ∀ p, n ≤ p.length → ∃ q, f p = some q ∧ q.length = p.length

/-- One write after the other. -/
theorem Keeps.bind {f g : Packet → Option Packet} (hf : Keeps n f) (hg : Keeps n g) :
    Keeps n fun p => f p >>= g := by
  intro p hp
  obtain ⟨q, hq, hlq⟩ := hf p hp
  obtain ⟨r, hr, hlr⟩ := hg q (by rw [hlq]; exact hp)
  exact ⟨r, by simp [hq, hr], by rw [hlr, hlq]⟩

/-- A byte inside of the packet can be written, and the packet keeps its length. -/
theorem keeps_store8 (h : i < n) : Keeps n fun p => store8 p i x := fun p hp =>
  ⟨_, if_pos (by omega), by rw [List.length_set]⟩

theorem keeps_store16 (h : i + 1 < n) : Keeps n fun p => store16 p i x :=
  (keeps_store8 (by omega)).bind (keeps_store8 h)

theorem keeps_store32 (h : i + 3 < n) : Keeps n fun p => store32 p i x :=
  (keeps_store16 (by omega)).bind (keeps_store16 (by omega))

theorem keeps_swap16 (h : i + 1 < n) : Keeps n fun p => swap16 p i := fun p hp => by
  obtain ⟨q, hq, ht, -⟩ := swap16_spec (p := p) (i := i) (by omega)
  exact ⟨q, hq, ht.length⟩

/-- What `udp_ntoh` converts ends at byte 40. -/
theorem keeps_udp_ntoh : Keeps 40 udp_ntoh :=
  (keeps_swap16 (by decide)).bind ((keeps_swap16 (by decide)).bind (keeps_swap16 (by decide)))

/-- What `icmp_ntoh` converts ends at byte 42. -/
theorem keeps_icmp_ntoh : Keeps 42 icmp_ntoh :=
  (keeps_swap16 (by decide)).bind ((keeps_swap16 (by decide)).bind (keeps_swap16 (by decide)))

/-- Building the header of a reply. -/
theorem keeps_icmp_header (net : Network) (ipident remip type ident seq : Nat) (len : Int) :
    Keeps 42 fun pkt => icmp_header net ipident pkt remip type ident seq len :=
  have hmac : Keeps 42 fun pkt => memcpy pkt net_ethsrc net.ethucast.1 0 6 := fun p hp =>
    copyBytes_some (by rw [net.ethucast.2]; decide)
      (le_trans (show net_ethsrc + (6 : Int).toNat ≤ 42 by decide) hp)
  hmac.bind <| (keeps_store16 (by decide)).bind <| (keeps_store8 (by decide)).bind <|
    (keeps_store8 (by decide)).bind <| (keeps_store16 (by decide)).bind <|
    (keeps_store16 (by decide)).bind <| (keeps_store16 (by decide)).bind <|
    (keeps_store8 (by decide)).bind <| (keeps_store8 (by decide)).bind <|
    (keeps_store16 (by decide)).bind <| (keeps_store32 (by decide)).bind <|
    (keeps_store32 (by decide)).bind <| (keeps_store8 (by decide)).bind <|
    (keeps_store8 (by decide)).bind <| (keeps_store16 (by decide)).bind <|
    (keeps_store16 (by decide)).bind (keeps_store16 (by decide))

/-- The words that are summed lie in the buffer. -/
theorem of_addWords {buf : List UInt8} : ∀ {n ptr c : Nat} {r : Nat × Nat},
    addWords buf n ptr c = some r → r.1 = ptr + 2 * n ∧ (n = 0 ∨ ptr + 2 * n ≤ buf.length) := by
  intro n
  induction n with
  | zero =>
    intro ptr c r h
    rw [addWords, Option.some.injEq] at h
    subst h
    exact ⟨rfl, .inl rfl⟩
  | succ n ih =>
    intro ptr c r h
    simp only [addWords, Option.bind_eq_bind, Option.bind_eq_some_iff] at h
    obtain ⟨word, hw, hrec⟩ := h
    have hlt := of_load16 hw
    obtain ⟨h1, h2⟩ := ih hrec
    exact ⟨by rw [h1]; ring, .inr (by omega)⟩

/-- `icmp_cksum` reads the `n` bytes it is asked for. -/
theorem of_icmp_cksum {buf : List UInt8} {n : Int} {c : Nat} (h : icmp_cksum buf n = some c) :
    n ≤ buf.length := by
  simp only [icmp_cksum, Option.bind_eq_bind, Option.bind_eq_some_iff] at h
  obtain ⟨⟨sptr, sum⟩, hw, h⟩ := h
  obtain ⟨hs, hle⟩ := of_addWords hw
  by_cases hodd : n % 2 ≠ 0
  · rw [if_pos hodd] at h
    obtain ⟨b, hb, -⟩ := Option.bind_eq_some_iff.mp h
    have hlt := (List.getElem?_eq_some_iff.mp hb).1
    simp only at hs
    omega
  · omega

/-- It reads no more, except that it reads one byte where an odd `n` is negative. -/
theorem icmp_cksum_some {buf : List UInt8} {n : Int} (h : n ≤ buf.length) (h0 : 0 < buf.length) :
    ∃ c, icmp_cksum buf n = some c := by
  have hw := @addWords_eq buf (n / 2).toNat 0 0 (by omega) (by norm_num)
  simp only [icmp_cksum, hw, Option.bind_eq_bind, Option.bind_some]
  by_cases hodd : n % 2 ≠ 0
  · have hlt : 0 + 2 * (n / 2).toNat < buf.length := by omega
    rw [if_pos hodd, List.getElem?_eq_getElem hlt]
    exact ⟨_, rfl⟩
  · rw [if_neg hodd]
    exact ⟨_, rfl⟩

end Inside

/-! ## 6. More memory behind the packet

What the checks of `ip_in` find may depend on bytes behind the buffer.  A step that stays inside
does the same whatever follows (`Extends.bind`). -/

section Behind

variable {p q e : Packet} {i x : Nat}

/-- The step does the same if more bytes follow. -/
def Extends (e : Packet) (f : Packet → Option Packet) : Prop :=
  ∀ p q, f p = some q → f (p ++ e) = some (q ++ e)

/-- What is appended stays behind one write and behind the next. -/
theorem Extends.bind {f g : Packet → Option Packet} (hf : Extends e f) (hg : Extends e g) :
    Extends e fun p => f p >>= g := by
  intro p r h
  obtain ⟨q, hq, hr⟩ := Option.bind_eq_some_iff.mp h
  exact Option.bind_eq_some_iff.mpr ⟨q ++ e, hf p q hq, hg q r hr⟩

/-- Reading does not see what is appended to the packet. -/
theorem load8_append (h : load8 p i = some x) : load8 (p ++ e) i = some x := by
  simp only [load8, Option.bind_eq_bind, Option.bind_eq_some_iff] at h ⊢
  obtain ⟨b, hb, hx⟩ := h
  exact ⟨b, by rw [List.getElem?_append_left (List.getElem?_eq_some_iff.mp hb).1, hb], hx⟩

theorem load16_append (h : load16 p i = some x) : load16 (p ++ e) i = some x := by
  have hi := of_load16 h
  rw [load16, List.getElem?_append_left (by omega), List.getElem?_append_left hi]
  exact h

theorem load32_append (h : load32 p i = some x) : load32 (p ++ e) i = some x := by
  simp only [load32, Option.bind_eq_bind, Option.bind_eq_some_iff] at h ⊢
  obtain ⟨y, hy, z, hz, hx⟩ := h
  exact ⟨y, load16_append hy, z, load16_append hz, hx⟩

/-- Nor does writing. -/
theorem extends_store8 : Extends e fun p => store8 p i x := by
  intro p q h
  simp only [store8, Option.ite_none_right_eq_some, Option.some.injEq] at h ⊢
  obtain ⟨hi, rfl⟩ := h
  exact ⟨by rw [List.length_append]; omega, List.set_append_left _ _ hi⟩

theorem extends_store16 : Extends e fun p => store16 p i x := extends_store8.bind extends_store8

theorem extends_swap16 : Extends e fun p => swap16 p i := by
  intro p q h
  simp only [swap16, Option.bind_eq_bind, Option.bind_eq_some_iff] at h ⊢
  obtain ⟨y, hy, hq⟩ := h
  exact ⟨y, load16_append hy, extends_store16 p q hq⟩

theorem extends_swap32 : Extends e fun p => swap32 p i := by
  intro p q h
  simp only [swap32, Option.bind_eq_bind, Option.bind_eq_some_iff] at h ⊢
  obtain ⟨y, hy, z, hz, r, hr, hq⟩ := h
  exact ⟨y, load16_append hy, z, load16_append hz, r ++ e, extends_store16 p r hr,
    extends_store16 r q hq⟩

theorem extends_ip_ntoh : Extends e ip_ntoh :=
  extends_swap16.bind
    (extends_swap16.bind (extends_swap16.bind (extends_swap32.bind extends_swap32)))

theorem extends_udp_ntoh : Extends e udp_ntoh :=
  extends_swap16.bind (extends_swap16.bind extends_swap16)

theorem extends_icmp_ntoh : Extends e icmp_ntoh :=
  extends_swap16.bind (extends_swap16.bind extends_swap16)

/-- Nor does a sum. -/
theorem addWords_append {r : Nat × Nat} : ∀ {n ptr c : Nat},
    addWords p n ptr c = some r → addWords (p ++ e) n ptr c = some r := by
  intro n
  induction n with
  | zero =>
    intro ptr c h
    exact h
  | succ n ih =>
    intro ptr c h
    simp only [addWords, Option.bind_eq_bind, Option.bind_eq_some_iff] at h ⊢
    obtain ⟨word, hw, hrec⟩ := h
    exact ⟨word, load16_append hw, ih hrec⟩

/-- The checksums of a packet are those of the longer one. -/
theorem ipcksum_append {c : Nat} (h : ipcksum p = some c) : ipcksum (p ++ e) = some c := by
  simp only [ipcksum, Option.bind_eq_bind, Option.bind_eq_some_iff] at h ⊢
  obtain ⟨r, hr, hc⟩ := h
  exact ⟨r, addWords_append hr, hc⟩

theorem icmp_cksum_append {n : Int} {c : Nat} (h : icmp_cksum p n = some c) :
    icmp_cksum (p ++ e) n = some c := by
  simp only [icmp_cksum, Option.bind_eq_bind, Option.bind_eq_some_iff] at h ⊢
  obtain ⟨r, hr, hc⟩ := h
  refine ⟨r, addWords_append hr, ?_⟩
  by_cases hodd : n % 2 ≠ 0
  · rw [if_pos hodd] at hc ⊢
    obtain ⟨b, hb, hx⟩ := Option.bind_eq_some_iff.mp hc
    refine Option.bind_eq_some_iff.mpr ⟨b, ?_, hx⟩
    rw [List.getElem?_append_left (List.getElem?_eq_some_iff.mp hb).1, hb]
  · rw [if_neg hodd] at hc ⊢
    exact hc

/-- So are the tests made with them. -/
theorem icmp_passes_append {b : Bool} (h : icmp_passes p = some b) :
    icmp_passes (p ++ e) = some b := by
  simp only [icmp_passes, Option.bind_eq_bind, Option.bind_eq_some_iff] at h ⊢
  obtain ⟨iplen, hl, c, hc, hb⟩ := h
  refine ⟨iplen, load16_append hl, c, ?_, hb⟩
  -- the message begins in the packet, or else nothing of it could be read
  rcases Nat.lt_or_ge p.length net_ictype with hlt | hge
  · have hlt' := of_load16 hl
    rw [List.drop_eq_nil_of_le hlt.le] at hc
    have hn := of_icmp_cksum hc
    rw [List.length_nil] at hn
    rw [icmp_cksum, Option.bind_eq_bind] at hc ⊢
    have hz : (((iplen : Int) - (IP_HDR_LEN : Nat)) / 2).toNat = 0 := by
      push_cast at hn ⊢
      omega
    rw [hz] at hc ⊢
    simp only [addWords, Option.bind_some] at hc ⊢
    split_ifs at hc ⊢
    · simp at hc
    · exact hc
  · rw [List.drop_append_of_le_length hge]
    exact icmp_cksum_append hc

/-- The packet an arrival carries, with the bytes behind it. -/
def Arrival.append (e : Packet) : Arrival → Arrival
  | .freed => .freed
  | .udp_in q => .udp_in (q ++ e)
  | .icmp_in q => .icmp_in (q ++ e)

/-- The first `switch` does the same when more bytes follow, -/
theorem ip_verify_append {v : Option Packet} (h : ip_verify p = some v) :
    ip_verify (p ++ e) = some (v.map (· ++ e)) := by
  simp only [ip_verify, Option.bind_eq_bind, Option.bind_eq_some_iff] at h
  obtain ⟨proto, hp, h⟩ := h
  simp only [ip_verify, load8_append hp, Option.bind_eq_bind, Option.bind_some]
  by_cases hu : proto = IP_UDP
  · rw [if_pos hu] at h ⊢
    obtain ⟨q, hq, hv⟩ := Option.bind_eq_some_iff.mp h
    rw [Option.some.injEq] at hv
    rw [extends_udp_ntoh p q hq, ← hv]
    rfl
  rw [if_neg hu] at h ⊢
  by_cases hi : proto = IP_ICMP
  · rw [if_pos hi] at h ⊢
    obtain ⟨passes, hb, hv⟩ := Option.bind_eq_some_iff.mp h
    rw [icmp_passes_append hb, Option.bind_some]
    by_cases ht : passes = true
    · rw [if_pos ht] at hv ⊢
      obtain ⟨q, hq, hv⟩ := Option.bind_eq_some_iff.mp hv
      rw [Option.some.injEq] at hv
      rw [extends_icmp_ntoh p q hq, ← hv]
      rfl
    · rw [if_neg ht, Option.some.injEq] at hv
      rw [if_neg ht, ← hv]
      rfl
  · rw [if_neg hi, Option.some.injEq] at h
    rw [if_neg hi, ← h]
    rfl

/-- and so does `ip_local`, -/
theorem ip_local_append {a : Arrival} (h : ip_local p = some a) :
    ip_local (p ++ e) = some (a.append e) := by
  simp only [ip_local, Option.bind_eq_bind, Option.bind_eq_some_iff, Option.some.injEq] at h
  obtain ⟨proto, hp, rfl⟩ := h
  simp only [ip_local, load8_append hp, Option.bind_eq_bind, Option.bind_some]
  split_ifs <;> rfl

/-- and the rest of `ip_in`. -/
theorem ip_accept_append {net : Network} {a : Arrival} (h : ip_accept net p = some a) :
    ip_accept net (p ++ e) = some (a.append e) := by
  simp only [ip_accept, Option.bind_eq_bind, Option.bind_eq_some_iff] at h
  obtain ⟨dst, hd, proto, hp, h⟩ := h
  simp only [ip_accept, load32_append hd, load8_append hp, Option.bind_eq_bind, Option.bind_some]
  have hfreed : ∀ b : Arrival, (some Arrival.freed = some b) →
      some Arrival.freed = some (b.append e) := by
    rintro b hb
    rw [Option.some.injEq] at hb
    rw [← hb]
    rfl
  split_ifs at h ⊢
  · exact ip_local_append h
  · exact ip_local_append h
  · exact hfreed a h
  · exact ip_local_append h
  · exact hfreed a h

/-- **With more bytes behind the packet `ip_in` does the same**, if it stays in bounds without
them. -/
theorem ip_in_append {net : Network} {a : Arrival} (h : ip_in net p = some a) :
    ip_in net (p ++ e) = some (a.append e) := by
  simp only [ip_in, Option.bind_eq_bind, Option.bind_eq_some_iff] at h
  obtain ⟨cksum, hc, h⟩ := h
  simp only [ip_in, ipcksum_append hc, Option.bind_eq_bind, Option.bind_some]
  by_cases hbad : cksum ≠ 0
  · rw [if_pos hbad, Option.some.injEq] at h
    rw [if_pos hbad, ← h]
    rfl
  rw [if_neg hbad] at h ⊢
  obtain ⟨p₁, h₁, h⟩ := Option.bind_eq_some_iff.mp h
  obtain ⟨vh, hvh, h⟩ := Option.bind_eq_some_iff.mp h
  rw [extends_ip_ntoh p p₁ h₁, Option.bind_some, load8_append hvh, Option.bind_some]
  by_cases hv : vh ≠ 0x45
  · rw [if_pos hv, Option.some.injEq] at h
    rw [if_pos hv, ← h]
    rfl
  rw [if_neg hv] at h ⊢
  obtain ⟨v, hver, h⟩ := Option.bind_eq_some_iff.mp h
  rw [ip_verify_append hver, Option.bind_some]
  cases v with
  | none =>
    rw [Option.some.injEq] at h
    rw [← h]
    rfl
  | some q => exact ip_accept_append h

end Behind

/-! ## 7. Packets that are delivered

A packet that passes all checks goes to `udp_in` or `icmp_in`.  From there on the condition is
exact: for each length that does not fit there is memory with which an access leaves the bounds. -/

section Delivered

variable {net : Network} {p q : Packet} {a : Arrival} {i x : Nat}

/-- A packet that is not freed is handed on to UDP or to ICMP, by its protocol. -/
theorem ip_local_cases (h : ip_local p = some a) (ha : a ≠ .freed) :
    a = .udp_in p ∧ load8 p net_ipproto = some IP_UDP ∨
      a = .icmp_in p ∧ load8 p net_ipproto = some IP_ICMP := by
  simp only [ip_local, Option.bind_eq_bind, Option.bind_eq_some_iff, Option.some.injEq] at h
  obtain ⟨proto, hp, rfl⟩ := h
  split_ifs at ha ⊢ with hu hi
  · exact .inl ⟨rfl, by rw [hp, hu]⟩
  · exact .inr ⟨rfl, by rw [hp, hi]⟩
  · exact absurd rfl ha

/-- It has gone through `ip_local` then. -/
theorem ip_accept_cases (h : ip_accept net p = some a) (ha : a ≠ .freed) : ip_local p = some a := by
  simp only [ip_accept, Option.bind_eq_bind, Option.bind_eq_some_iff] at h
  obtain ⟨dst, -, proto, -, h⟩ := h
  have hfreed : ¬some Arrival.freed = some a := fun hc => ha (Option.some.inj hc).symm
  split_ifs at h
  · exact h
  · exact h
  · exact absurd h hfreed
  · exact h
  · exact absurd h hfreed

/-- What the first `switch` lets pass, by the protocol: converted, or as it is. -/
theorem ip_verify_cases (h : ip_verify p = some (some q)) :
    load8 p net_ipproto = some IP_UDP ∧ udp_ntoh p = some q ∨
      load8 p net_ipproto = some IP_ICMP ∧ icmp_passes p = some true ∧ icmp_ntoh p = some q ∨
      load8 p net_ipproto ≠ some IP_UDP ∧ load8 p net_ipproto ≠ some IP_ICMP ∧ q = p := by
  simp only [ip_verify, Option.bind_eq_bind, Option.bind_eq_some_iff] at h
  obtain ⟨proto, hp, h⟩ := h
  by_cases hu : proto = IP_UDP
  · rw [if_pos hu] at h
    obtain ⟨r, hr, hv⟩ := Option.bind_eq_some_iff.mp h
    simp only [Option.some.injEq] at hv
    exact .inl ⟨by rw [hp, hu], by rw [hr, hv]⟩
  rw [if_neg hu] at h
  by_cases hi : proto = IP_ICMP
  · rw [if_pos hi] at h
    obtain ⟨passes, hb, hv⟩ := Option.bind_eq_some_iff.mp h
    split_ifs at hv with ht
    · obtain ⟨r, hr, hv⟩ := Option.bind_eq_some_iff.mp hv
      simp only [Option.some.injEq] at hv
      exact .inr (.inl ⟨by rw [hp, hi], by rw [hb, ht], by rw [hr, hv]⟩)
    · simp at hv
  · rw [if_neg hi, Option.some.injEq, Option.some.injEq] at h
    refine .inr (.inr ⟨?_, ?_, h.symm⟩)
    · rw [hp, ne_eq, Option.some.injEq]
      exact hu
    · rw [hp, ne_eq, Option.some.injEq]
      exact hi

/-- **How a packet is delivered**: to `udp_in` or `icmp_in` by its protocol, with its headers
converted, and an ICMP message after its test. -/
theorem delivered (h : ip_in net p = some a) (ha : a ≠ .freed) :
    ∃ p₁ q, ip_ntoh p = some p₁ ∧
      (a = .udp_in q ∧ load8 p net_ipproto = some IP_UDP ∧ udp_ntoh p₁ = some q ∨
        a = .icmp_in q ∧ load8 p net_ipproto = some IP_ICMP ∧ icmp_passes p₁ = some true ∧
          icmp_ntoh p₁ = some q) := by
  simp only [ip_in, Option.bind_eq_bind, Option.bind_eq_some_iff] at h
  obtain ⟨cksum, -, h⟩ := h
  have hfreed : ¬some Arrival.freed = some a := fun hc => ha (Option.some.inj hc).symm
  by_cases hbad : cksum ≠ 0
  · rw [if_pos hbad] at h
    exact absurd h hfreed
  rw [if_neg hbad] at h
  obtain ⟨p₁, h₁, h⟩ := Option.bind_eq_some_iff.mp h
  obtain ⟨vh, -, h⟩ := Option.bind_eq_some_iff.mp h
  by_cases hv : vh ≠ 0x45
  · rw [if_pos hv] at h
    exact absurd h hfreed
  rw [if_neg hv] at h
  obtain ⟨v, hver, h⟩ := Option.bind_eq_some_iff.mp h
  cases v with
  | none => exact absurd h hfreed
  | some q =>
    have hlocal := ip_local_cases (ip_accept_cases h ha) ha
    have hproto := ip_ntoh_proto h₁
    refine ⟨p₁, q, h₁, ?_⟩
    rcases ip_verify_cases hver with ⟨hp, hq⟩ | ⟨hp, hpass, hq⟩ | ⟨hnu, hni, rfl⟩
    · have hq' : load8 q net_ipproto = some IP_UDP := by
        rw [(of_udp_ntoh hq).1.load8 (by decide), hp]
      rcases hlocal with ⟨rfl, -⟩ | ⟨-, hc⟩
      · exact .inl ⟨rfl, by rw [← hproto, hp], hq⟩
      · rw [hq'] at hc
        exact absurd hc (by decide)
    · have hq' : load8 q net_ipproto = some IP_ICMP := by
        rw [(of_icmp_ntoh hq).load8 (by decide), hp]
      rcases hlocal with ⟨-, hc⟩ | ⟨rfl, -⟩
      · rw [hq'] at hc
        exact absurd hc (by decide)
      · exact .inr ⟨rfl, by rw [← hproto, hp], hpass, hq⟩
    · rcases hlocal with ⟨-, hc⟩ | ⟨-, hc⟩
      · exact absurd hc hnu
      · exact absurd hc hni

/-- **`ip_in` stays in bounds** if an ICMP packet ends in the buffer. -/
theorem ip_in_some (hp : p.length = netbufsize)
    (hfit : load8 p net_ipproto = some IP_ICMP → ∀ iplen ∈ net16 p net_iplen,
      ETH_HDR_LEN + iplen ≤ netbufsize) : ip_in net p ≠ none := by
  have hlen : p.length = 1516 := hp
  obtain ⟨p₁, h₁⟩ := ip_ntoh_some (p := p) (by omega)
  obtain ⟨t₁, hl, -⟩ := of_ip_ntoh h₁
  have hlen₁ : p₁.length = 1516 := by rw [t₁.length, hlen]
  have h45 : load8 p₁ net_ipvh = some (p₁[14].toNat) := load8_eq (i := 14) (by omega)
  have haccept : ∀ r : Packet, r.length = 1516 → ip_accept net r ≠ none := by
    intro r hr
    obtain ⟨dst, hd⟩ := load32_some (p := r) (i := net_ipdst) (by unfold net_ipdst; omega)
    have h23 : load8 r net_ipproto = some (r[23].toNat) := load8_eq (i := 23) (by omega)
    simp only [ip_accept, ip_local, hd, h23, Option.bind_eq_bind, Option.bind_some]
    split_ifs <;> simp
  have hverify : ∃ v, ip_verify p₁ = some v ∧ ∀ r, v = some r → r.length = 1516 := by
    have h23 : load8 p₁ net_ipproto = some (p₁[23].toNat) := load8_eq (i := 23) (by omega)
    simp only [ip_verify, h23, Option.bind_eq_bind, Option.bind_some]
    by_cases hu : p₁[23].toNat = IP_UDP
    · obtain ⟨q, hq, hql⟩ := keeps_udp_ntoh p₁ (by omega)
      rw [if_pos hu, hq]
      exact ⟨some q, rfl, fun r hr => by rw [← Option.some.inj hr, hql, hlen₁]⟩
    rw [if_neg hu]
    by_cases hi : p₁[23].toNat = IP_ICMP
    · obtain ⟨iplen, hiplen⟩ := load16_some (p := p₁) (i := net_iplen) (by unfold net_iplen; omega)
      have hle : ETH_HDR_LEN + iplen ≤ netbufsize := by
        refine hfit ?_ iplen ?_
        · rw [← ip_ntoh_proto h₁, h23, hi]
        · rw [← hl, hiplen]
          rfl
      obtain ⟨c, hc⟩ := @icmp_cksum_some (p₁.drop net_ictype) ((iplen : Int) - (IP_HDR_LEN : Nat))
        (by
          rw [List.length_drop, hlen₁]
          unfold ETH_HDR_LEN netbufsize PACKLEN net_icdata at hle
          unfold IP_HDR_LEN net_ictype
          push_cast
          omega)
        (by rw [List.length_drop, hlen₁]; decide)
      have hpass : icmp_passes p₁ = some (c == 0) := by
        simp only [icmp_passes, hiplen, hc, Option.bind_eq_bind, Option.bind_some]
      rw [if_pos hi, hpass, Option.bind_some]
      obtain ⟨q, hq, hql⟩ := keeps_icmp_ntoh p₁ (by omega)
      split_ifs
      · rw [hq]
        exact ⟨some q, rfl, fun r hr => by rw [← Option.some.inj hr, hql, hlen₁]⟩
      · exact ⟨none, rfl, fun r hr => by simp at hr⟩
    · rw [if_neg hi]
      exact ⟨some p₁, rfl, fun r hr => by rw [← Option.some.inj hr, hlen₁]⟩
  obtain ⟨v, hv, hvl⟩ := hverify
  simp only [ip_in, ipcksum_eq (show 34 ≤ p.length by omega), h₁, h45, hv, Option.bind_eq_bind,
    Option.bind_some]
  split_ifs
  · simp
  · simp
  · cases v with
    | none => simp
    | some r => exact haccept r (hvl r rfl)

/-- **`udp_recv` is right for every buffer of the caller's exactly when the UDP length is.** -/
theorem udp_copy_iff {u : Nat} (hq : q.length = netbufsize) (hu : load16 q net_udplen = some u) :
    (∀ buff : List UInt8, ∃ n buff', udp_copy q buff buff.length = some (n, buff') ∧ 0 ≤ n ∧
      n ≤ buff.length) ↔ UDP_HDR_LEN ≤ u ∧ net_udpsport + u ≤ netbufsize := by
  have hlen : q.length = 1516 := hq
  constructor
  · intro h
    have hshort : 8 ≤ u := by
      obtain ⟨n, buff', hc, h0, -⟩ := h []
      simp only [udp_copy, hu, Option.bind_eq_bind, Option.bind_some, Option.bind_eq_some_iff] at hc
      obtain ⟨_, -, he⟩ := hc
      rw [Option.some.injEq, Prod.mk.injEq] at he
      have hn := he.1
      unfold UDP_HDR_LEN at hn
      rw [List.length_nil] at hn
      split_ifs at hn with hlt
      · push_cast at hlt
        omega
      · push_cast at hn
        omega
    refine ⟨hshort, ?_⟩
    -- a buffer one byte larger than what is left of the packet
    obtain ⟨n, buff', hc, -, -⟩ := h (List.replicate 1475 0)
    simp only [udp_copy, hu, Option.bind_eq_bind, Option.bind_some, Option.bind_eq_some_iff,
      List.length_replicate] at hc
    obtain ⟨_, hcopy, -⟩ := hc
    have hb := of_copyBytes hcopy
    clear h hcopy
    unfold UDP_HDR_LEN net_udpdata at hb
    unfold net_udpsport netbufsize PACKLEN net_icdata
    split_ifs at hb with hlt
    · rw [Int.toNat_natCast] at hb
      omega
    · push_cast at hlt hb
      omega
  · rintro ⟨h8, hfit⟩ buff
    unfold UDP_HDR_LEN at h8
    unfold net_udpsport netbufsize PACKLEN net_icdata at hfit
    have hmin : ∃ m : Nat, (if (buff.length : Int) < (u : Int) - (UDP_HDR_LEN : Nat) then
        (buff.length : Int) else (u : Int) - (UDP_HDR_LEN : Nat)) = m ∧ m ≤ buff.length ∧
          m ≤ u - 8 := by
      unfold UDP_HDR_LEN
      split_ifs with hlt
      · exact ⟨buff.length, rfl, le_rfl, by push_cast at hlt; omega⟩
      · exact ⟨u - 8, by push_cast; omega, by push_cast at hlt; omega, le_rfl⟩
    obtain ⟨m, hm, hmb, hmu⟩ := hmin
    obtain ⟨r, hr, -⟩ := @copyBytes_some q m net_udpdata 0 buff
      (by unfold net_udpdata; omega) (by omega)
    refine ⟨m, r, ?_, by omega, by omega⟩
    simp only [udp_copy, hu, Option.bind_eq_bind, Option.bind_some, hm, Int.toNat_natCast, hr]

/-- **What `icmp_in` and `icmp_recv` do with a message that ends in the buffer stays in bounds.** -/
theorem icmp_in_bounds {iplen : Nat} (hq : q.length = netbufsize)
    (hl : load16 q net_iplen = some iplen) (hfit : ETH_HDR_LEN + iplen ≤ netbufsize) :
    (∀ ipident fresh tab pktptr, fresh.length = netbufsize →
      icmp_in net ipident fresh tab pktptr q ≠ none) ∧
    ∀ buff, icmp_copy q buff buff.length ≠ none := by
  have hlen : q.length = 1516 := hq
  unfold ETH_HDR_LEN netbufsize PACKLEN net_icdata at hfit
  constructor
  · intro ipident fresh tab pktptr hfresh
    have hfl : fresh.length = 1516 := hfresh
    have htype : load8 q net_ictype = some (q[34].toNat) := load8_eq (i := 34) (by omega)
    obtain ⟨src, hsrc⟩ := load32_some (p := q) (i := 26) (by omega)
    obtain ⟨ident, hident⟩ := load16_some (p := q) (i := 38) (by omega)
    obtain ⟨seq, hseq⟩ := load16_some (p := q) (i := 40) (by omega)
    simp only [icmp_in, icmp_mkpkt, htype, hsrc, hident, hseq, hl, Option.bind_eq_bind,
      Option.bind_some]
    split_ifs
    · simp
    · obtain ⟨r, hr, hrl⟩ := keeps_icmp_header net ipident src ICMP_ECHOREPLY ident seq
        ((iplen : Int) - (IP_HDR_LEN : Nat) - (ICMP_HDR_LEN : Nat)) fresh (by omega)
      obtain ⟨r', hr', -⟩ := @copyBytes_some q
        ((iplen : Int) - (IP_HDR_LEN : Nat) - (ICMP_HDR_LEN : Nat)).toNat net_icdata net_icdata r
        (by unfold net_icdata IP_HDR_LEN ICMP_HDR_LEN; push_cast; omega)
        (by unfold net_icdata IP_HDR_LEN ICMP_HDR_LEN; push_cast; omega)
      simp only at hr
      rw [hr, Option.bind_some, memcpy, hr']
      simp
    · simp
  · intro buff
    obtain ⟨r, hr⟩ := @icmp_loop_some q
      ((iplen : Int) - (IP_HDR_LEN : Nat) - (ICMP_HDR_LEN : Nat)).toNat 0 buff
      (by unfold net_icdata IP_HDR_LEN ICMP_HDR_LEN; push_cast; omega)
    simp only [icmp_copy, hl, Option.bind_eq_bind, Option.bind_some, hr]
    exact Option.some_ne_none r

/-- **The receive path stays in bounds exactly when the length fields fit the buffer**: for a frame
in a buffer of the pool, of whatever bytes, that passes the checks of `ip_in` with whatever bytes
are behind the buffer. -/
theorem receive_in_bounds_iff (net : Network) (p rest : Packet) (a : Arrival)
    (hp : p.length = netbufsize) (hpass : ip_in net (p ++ rest) = some a) (ha : a ≠ .freed) :
    InBounds net p ↔ LengthsFit p := by
  have hlen : p.length = 1516 := hp
  constructor
  · intro h
    obtain ⟨b, hb⟩ := Option.ne_none_iff_exists'.mp h.input
    have hbf : b ≠ .freed := by
      intro hf
      rw [ip_in_append hb, hf, Option.some.injEq] at hpass
      exact ha hpass.symm
    obtain ⟨p₁, q, h₁, ⟨rfl, hproto, hq⟩ | ⟨rfl, hproto, hpassed, hq⟩⟩ := delivered hb hbf
    · refine ⟨fun hc => by rw [hproto] at hc; exact absurd hc (by decide), fun _ u hu => ?_⟩
      obtain ⟨tq, hlu⟩ := of_udp_ntoh hq
      have t₁ := (of_ip_ntoh h₁).1
      have hql : q.length = netbufsize := by rw [tq.length, t₁.length, hp]
      refine (udp_copy_iff hql ?_).mp fun buff => ((h.udp q hb).2 buff).1
      rw [hlu, t₁.net16 (by decide)]
      exact hu
    · refine ⟨fun _ iplen hi => ?_, fun hc => by rw [hproto] at hc; exact absurd hc (by decide)⟩
      obtain ⟨t₁, hl, -⟩ := of_ip_ntoh h₁
      have hload : load16 p₁ net_iplen = some iplen := by
        rw [hl]
        exact hi
      -- the test has read the whole message
      simp only [icmp_passes, hload, Option.bind_eq_bind, Option.bind_some,
        Option.bind_eq_some_iff] at hpassed
      obtain ⟨c, hc, -⟩ := hpassed
      have hle := of_icmp_cksum hc
      rw [List.length_drop, t₁.length, hlen] at hle
      unfold IP_HDR_LEN net_ictype at hle
      unfold ETH_HDR_LEN netbufsize PACKLEN net_icdata
      push_cast at hle
      omega
  · intro hfit
    refine ⟨ip_in_some hp hfit.1, fun q hq => ?_, fun q hq => ?_⟩
    · obtain ⟨p₁, r, h₁, ⟨he, -, -⟩ | ⟨he, hproto, -, hr⟩⟩ := delivered hq (by simp)
      · exact absurd he (by simp)
      · obtain rfl := Arrival.icmp_in.inj he
        obtain ⟨t₁, hl, -⟩ := of_ip_ntoh h₁
        have tr := of_icmp_ntoh hr
        have hql : q.length = netbufsize := by rw [tr.length, t₁.length, hp]
        have h16 := net16_eq (p := p) (i := net_iplen) (by unfold net_iplen; omega)
        refine icmp_in_bounds hql ?_ (hfit.1 hproto _ h16)
        rw [tr.load16 (by decide), hl, h16]
    · obtain ⟨p₁, r, h₁, ⟨he, hproto, hr⟩ | ⟨he, -, -, -⟩⟩ := delivered hq (by simp)
      · obtain rfl := Arrival.udp_in.inj he
        obtain ⟨tr, hlu⟩ := of_udp_ntoh hr
        have t₁ := (of_ip_ntoh h₁).1
        have hql : q.length = netbufsize := by rw [tr.length, t₁.length, hp]
        have hql' : q.length = 1516 := hql
        have h16 := net16_eq (p := p) (i := net_udplen) (by unfold net_udplen; omega)
        have hu := (udp_copy_iff hql (by rw [hlu, t₁.net16 (by decide), h16])).mpr
          (hfit.2 hproto _ h16)
        obtain ⟨dport, hdp⟩ := load16_some (p := q) (i := 36) (by omega)
        obtain ⟨sport, hsp⟩ := load16_some (p := q) (i := 34) (by omega)
        obtain ⟨src, hsrc⟩ := load32_some (p := q) (i := 26) (by omega)
        refine ⟨fun tab pktptr => ?_, fun buff => ⟨hu buff, ?_⟩⟩
        · simp [udp_in, udp_header, hdp, hsp, hsrc]
        · obtain ⟨n, buff', hc, h0, hle⟩ := hu buff
          exact ⟨src, sport, n, buff', by simp [udp_copyaddr, hsrc, hsp, hc], h0, hle⟩
      · exact absurd he (by simp)

end Delivered

/-! ## 8. Lengths that do not fit

Two packets that a network can bring, with a UDP length that is too small or too large. -/

/-- The headers of a UDP packet for 255.255.255.255 with this UDP length. -/
def udpHead (hi lo : UInt8) : Packet :=
  List.replicate 12 0 ++ [0x08, 0x00,
    0x45, 0x00, 0x00, 0x1b, 0x00, 0x00, 0x00, 0x00, 0x40, 0x11, 0x70, 0xd2,
    0x0a, 0x00, 0x00, 0x01, 0xff, 0xff, 0xff, 0xff,
    0x00, 0x01, 0x00, 0x44, hi, lo, 0x00, 0x00]

/-- The buffer with such a packet. -/
def udpFrame (hi lo : UInt8) : Packet := udpHead hi lo ++ List.replicate 1474 0

/-- A computer without an address. -/
def noAddress : Network := ⟨0, 0, 0, ⟨List.replicate 6 0, rfl⟩⟩

/-- The UDP length that `udp_recv` will see, if the packet is delivered to `udp_in`. -/
def deliveredLength (p : Packet) : Option Nat := do
  match ← ip_in noAddress p with
  | .udp_in q => load16 q net_udplen
  | _ => none

/-- Both headers are delivered with the UDP length that stands in them. -/
theorem udpHead_delivered :
    deliveredLength (udpHead 0 7) = some 7 ∧ deliveredLength (udpHead 5 203) = some 1483 := by
  decide +kernel

/-- The frames fill a buffer. -/
theorem udpFrame_length (hi lo : UInt8) : (udpFrame hi lo).length = netbufsize := by
  rw [udpFrame, List.length_append, List.length_replicate, udpHead, List.length_append,
    List.length_replicate]
  rfl

/-- The header decides what is delivered, not what stands behind it. -/
theorem delivered_append {p rest : Packet} {u : Nat} (h : deliveredLength p = some u)
    (hlen : (p ++ rest).length = netbufsize) :
    ∃ q, ip_in noAddress (p ++ rest) = some (.udp_in q) ∧ q.length = netbufsize ∧
      load16 q net_udplen = some u := by
  obtain ⟨a, ha, hq⟩ := Option.bind_eq_some_iff.mp h
  cases a with
  | freed => simp at hq
  | icmp_in q => simp at hq
  | udp_in q =>
    have hin : ip_in noAddress (p ++ rest) = some (.udp_in (q ++ rest)) := ip_in_append ha
    refine ⟨q ++ rest, hin, ?_, load16_append hq⟩
    obtain ⟨p₁, r, h₁, ⟨he, -, hr⟩ | ⟨he, -, -, -⟩⟩ := delivered hin (by simp)
    · rw [Arrival.udp_in.inj he, (of_udp_ntoh hr).1.length, (of_ip_ntoh h₁).1.length, hlen]
    · exact absurd he (by simp)

/-- So the frame goes to `udp_in` with the length that its header says. -/
theorem udpFrame_delivered {hi lo : UInt8} {u : Nat}
    (h : deliveredLength (udpHead hi lo) = some u) :
    ∃ q, ip_in noAddress (udpFrame hi lo) = some (.udp_in q) ∧ q.length = netbufsize ∧
      load16 q net_udplen = some u := by
  have hlen := udpFrame_length hi lo
  unfold udpFrame at hlen ⊢
  exact delivered_append h hlen

/-- A datagram of seven octets, which is less than its header. -/
theorem receive_in_bounds_iff_udpFrame :
    InBounds noAddress (udpFrame 0 7) ↔ LengthsFit (udpFrame 0 7) := by
  obtain ⟨q, hq, -⟩ := udpFrame_delivered udpHead_delivered.1
  exact receive_in_bounds_iff noAddress (udpFrame 0 7) [] (.udp_in q) (udpFrame_length 0 7)
    (by rw [List.append_nil, hq]) (by simp)

/-- **Two frames that are delivered and leave the bounds**: of a UDP length of 7, for which
`udp_recv` returns -1, and of 1483, for which it reads the byte behind the buffer. -/
theorem receive_out_of_bounds :
    ((∃ q, ip_in noAddress (udpFrame 0 7) = some (.udp_in q)) ∧
      ¬InBounds noAddress (udpFrame 0 7)) ∧
      (∃ q, ip_in noAddress (udpFrame 5 203) = some (.udp_in q)) ∧
        ¬InBounds noAddress (udpFrame 5 203) := by
  obtain ⟨q, hq, hlen, hu⟩ := udpFrame_delivered udpHead_delivered.1
  obtain ⟨r, hr, hlen', hu'⟩ := udpFrame_delivered udpHead_delivered.2
  refine ⟨⟨⟨q, hq⟩, fun h => ?_⟩, ⟨r, hr⟩, fun h => ?_⟩
  · have hfit := (udp_copy_iff hlen hu).mp fun buff => ((h.udp q hq).2 buff).1
    exact absurd hfit.1 (by decide)
  · have hfit := (udp_copy_iff hlen' hu').mp fun buff => ((h.udp r hr).2 buff).1
    exact absurd hfit.2 (by decide)

end Xinu.Net
