/-
# Network packets in their buffers

This module is `struct netpacket` of `net.h`, the byte order macros of `prototypes.h` and the
functions that convert a packet between network and host byte order.

A packet is the bytes of the memory from the packet's first byte on.  A read or a write of a byte
that this memory does not have is `none`: with the bytes of one buffer for the packet, `none` says
that the code leaves the buffer.  The machine keeps the low byte of a `uint16` or `uint32` first,
and the network the high byte.
-/
import Xinu.Kernel

namespace Xinu.Net

/-- Bytes from the start of a packet on. -/
abbrev Packet := List UInt8

/-! ## 1. Where the fields stand -/

abbrev net_ethdst : Nat := 0
abbrev net_ethsrc : Nat := 6
abbrev net_ethtype : Nat := 12
abbrev net_ipvh : Nat := 14
abbrev net_iptos : Nat := 15
abbrev net_iplen : Nat := 16
abbrev net_ipid : Nat := 18
abbrev net_ipfrag : Nat := 20
abbrev net_ipttl : Nat := 22
abbrev net_ipproto : Nat := 23
abbrev net_ipcksum : Nat := 24
abbrev net_ipsrc : Nat := 26
abbrev net_ipdst : Nat := 30
abbrev net_udpsport : Nat := 34
abbrev net_udpdport : Nat := 36
abbrev net_udplen : Nat := 38
abbrev net_udpcksum : Nat := 40
abbrev net_udpdata : Nat := 42
abbrev net_ictype : Nat := 34
abbrev net_iccode : Nat := 35
abbrev net_iccksum : Nat := 36
abbrev net_icident : Nat := 38
abbrev net_icseq : Nat := 40
abbrev net_icdata : Nat := 42

/-- `PACKLEN`, the size of `struct netpacket`. -/
abbrev PACKLEN : Nat := net_icdata + (1500 - 28)

/-- The bytes of a buffer of `netbufpool`: `mkbufpool` rounds `PACKLEN` up to a multiple of 4. -/
abbrev netbufsize : Nat := (PACKLEN + 3) / 4 * 4

/-- `ETH_HDR_LEN` of `ether.h`. -/
abbrev ETH_HDR_LEN : Nat := 14

/-- `IP_HDR_LEN` of `ip.h`. -/
abbrev IP_HDR_LEN : Nat := 20

/-- `ICMP_HDR_LEN` of `icmp.h`. -/
abbrev ICMP_HDR_LEN : Nat := 8

/-- `UDP_HDR_LEN` of `udp.h`. -/
abbrev UDP_HDR_LEN : Nat := 8

/-- `IP_ICMP` of `ip.h`. -/
abbrev IP_ICMP : Nat := 1

/-- `IP_UDP` of `ip.h`. -/
abbrev IP_UDP : Nat := 17

/-- `IP_BCAST` of `ip.h`. -/
abbrev IP_BCAST : Nat := 0xffffffff

/-! ## 2. Loads and stores -/

/-- The macro `htons`, which is also `ntohs`. -/
def htons (x : Nat) : Nat := x / 256 % 256 + x % 256 * 256

/-- The macro `htonl`, which is also `ntohl`. -/
def htonl (x : Nat) : Nat :=
  x / 2 ^ 24 % 256 + x / 2 ^ 16 % 256 * 2 ^ 8 + x / 2 ^ 8 % 256 * 2 ^ 16 + x % 256 * 2 ^ 24

def load8 (p : Packet) (i : Nat) : Option Nat := do
  let b ← p[i]?
  some b.toNat

def load16 (p : Packet) (i : Nat) : Option Nat := do
  let b ← p[i]?
  let c ← p[i + 1]?
  some (b.toNat + c.toNat * 256)

def load32 (p : Packet) (i : Nat) : Option Nat := do
  let x ← load16 p i
  let y ← load16 p (i + 2)
  some (x + y * 65536)

def store8 (p : Packet) (i x : Nat) : Option Packet :=
  if i < p.length then some (p.set i (UInt8.ofNat x)) else none

def store16 (p : Packet) (i x : Nat) : Option Packet := do
  let p ← store8 p i x
  store8 p (i + 1) (x / 256)

def store32 (p : Packet) (i x : Nat) : Option Packet := do
  let p ← store16 p i x
  store16 p (i + 2) (x / 65536)

/-- `p->f = ntohs(p->f)` for a `uint16` field. -/
def swap16 (p : Packet) (i : Nat) : Option Packet := do
  let x ← load16 p i
  store16 p i (htons x)

/-- `p->f = ntohl(p->f)` for a `uint32` field: the four bytes in the other order. -/
def swap32 (p : Packet) (i : Nat) : Option Packet := do
  let x ← load16 p i
  let y ← load16 p (i + 2)
  let p ← store16 p i (htons y)
  store16 p (i + 2) (htons x)

/-! ## 3. Conversions -/

/-- `ip_ntoh`, and with the same statements `ip_hton`. -/
def ip_ntoh (p : Packet) : Option Packet := do
  let p ← swap16 p net_iplen
  let p ← swap16 p net_ipid
  let p ← swap16 p net_ipfrag
  let p ← swap32 p net_ipsrc
  swap32 p net_ipdst

def ip_hton (p : Packet) : Option Packet := ip_ntoh p

/-- `udp_ntoh`, and with the same statements `udp_hton`. -/
def udp_ntoh (p : Packet) : Option Packet := do
  let p ← swap16 p net_udpsport
  let p ← swap16 p net_udpdport
  swap16 p net_udplen

def udp_hton (p : Packet) : Option Packet := udp_ntoh p

/-- `icmp_ntoh`, and with the same statements `icmp_hton`. -/
def icmp_ntoh (p : Packet) : Option Packet := do
  let p ← swap16 p net_iccksum
  let p ← swap16 p net_icident
  swap16 p net_icseq

def icmp_hton (p : Packet) : Option Packet := icmp_ntoh p

def eth_hton (p : Packet) : Option Packet := swap16 p net_ethtype

/-! ## 4. What they do -/

/-- The value of a `uint16` field in network byte order. -/
def net16 (p : Packet) (i : Nat) : Option Nat := do
  let b ← p[i]?
  let c ← p[i + 1]?
  some (b.toNat * 256 + c.toNat)

section Accesses

variable {p q : Packet} {i j n x : Nat}

/-- The packet `q` has as many bytes as `p`, and differs from it in `n` bytes from `i` on at
most. -/
structure Touched (p q : Packet) (i n : Nat) : Prop where
  length : q.length = p.length
  apart : ∀ j, j < i ∨ i + n ≤ j → q[j]? = p[j]?

theorem Touched.refl (p : Packet) (i n : Nat) : Touched p p i n := ⟨rfl, fun _ _ => rfl⟩

/-- Two changes are a change of any range that has both of theirs. -/
theorem Touched.trans {r : Packet} {m k : Nat} (h : Touched p q i n) (h' : Touched q r j m)
    {l : Nat} (hi : l ≤ i) (hj : l ≤ j) (hn : i + n ≤ l + k) (hm : j + m ≤ l + k) :
    Touched p r l k := by
  refine ⟨h'.length.trans h.length, fun a ha => ?_⟩
  rw [h'.apart a (by omega), h.apart a (by omega)]

/-- What stands elsewhere is read as before. -/
theorem Touched.load8 (h : Touched p q i n) (hj : j < i ∨ i + n ≤ j) :
    Net.load8 q j = Net.load8 p j := by
  rw [Net.load8, Net.load8, h.apart j hj]

theorem Touched.load16 (h : Touched p q i n) (hj : j + 1 < i ∨ i + n ≤ j) :
    Net.load16 q j = Net.load16 p j := by
  rw [Net.load16, Net.load16, h.apart j (by omega), h.apart (j + 1) (by omega)]

theorem Touched.net16 (h : Touched p q i n) (hj : j + 1 < i ∨ i + n ≤ j) :
    Net.net16 q j = Net.net16 p j := by
  rw [Net.net16, Net.net16, h.apart j (by omega), h.apart (j + 1) (by omega)]

/-- What stands after the bytes that were touched. -/
theorem Touched.drop (h : Touched p q i n) (hj : i + n ≤ j) : q.drop j = p.drop j := by
  apply List.ext_getElem?
  intro a
  rw [List.getElem?_drop, List.getElem?_drop]
  exact h.apart _ (by omega)

/-- What stands before them. -/
theorem Touched.take (h : Touched p q i n) (hj : j ≤ i) : q.take j = p.take j := by
  apply List.ext_getElem?
  intro a
  rw [List.getElem?_take, List.getElem?_take]
  split_ifs
  · exact h.apart _ (by omega)
  · rfl

/-- What a load inside of the packet reads. -/
theorem load8_eq (h : i < p.length) : load8 p i = some (p[i].toNat) := by
  simp [load8, h]

theorem load16_eq (h : i + 1 < p.length) :
    load16 p i = some (p[i].toNat + p[i + 1].toNat * 256) := by
  simp [load16, h, show i < p.length by omega]

theorem net16_eq (h : i + 1 < p.length) :
    net16 p i = some (p[i].toNat * 256 + p[i + 1].toNat) := by
  simp [net16, h, show i < p.length by omega]

theorem store16_eq (h : i + 1 < p.length) :
    store16 p i x = some ((p.set i (UInt8.ofNat x)).set (i + 1) (UInt8.ofNat (x / 256))) := by
  simp [store16, store8, h, show i < p.length by omega]

/-- **A store touches its field and nothing else.** -/
theorem store16_touched (h : store16 p i x = some q) : Touched p q i 2 ∧ i + 1 < p.length := by
  simp only [store16, store8, Option.bind_eq_bind, Option.bind_eq_some_iff,
    Option.ite_none_right_eq_some, Option.some.injEq] at h
  obtain ⟨_, ⟨-, rfl⟩, h1, rfl⟩ := h
  rw [List.length_set] at h1
  refine ⟨⟨by simp, fun j hj => ?_⟩, h1⟩
  rw [List.getElem?_set_ne (by omega), List.getElem?_set_ne (by omega)]

/-- A store inside of the packet changes two bytes. -/
theorem store16_some (h : i + 1 < p.length) : ∃ q, store16 p i x = some q ∧ Touched p q i 2 :=
  ⟨_, store16_eq h, (store16_touched (store16_eq h)).1⟩

/-- `htons` exchanges the two bytes. -/
theorem htons_bytes {b c : Nat} (hb : b < 256) (hc : c < 256) :
    htons (b + c * 256) = c + b * 256 := by
  have h1 : (b + c * 256) / 256 = c := by omega
  have h2 : (b + c * 256) % 256 = b := by omega
  rw [htons, h1, h2, Nat.mod_eq_of_lt hc]

/-- A value stored with `htons` stands in memory with the high byte first. -/
theorem toNat_htons {x : Nat} (h : x < 65536) :
    (UInt8.ofNat (htons x)).toNat = x / 256 ∧ (UInt8.ofNat (htons x / 256)).toNat = x % 256 := by
  have hx : htons x = x / 256 + x % 256 * 256 := by rw [htons, Nat.mod_eq_of_lt (by omega)]
  have h1 : x / 256 < 256 := by omega
  have h2 : x % 256 < 256 := by omega
  rw [UInt8.toNat_ofNat', UInt8.toNat_ofNat', hx]
  generalize x / 256 = u at h1 ⊢
  generalize x % 256 = v at h2 ⊢
  have hq : (u + v * 256) / 256 = v := by omega
  rw [hq]
  constructor <;> omega

theorem ofNat_low (b c : UInt8) : UInt8.ofNat (b.toNat + c.toNat * 256) = b := by
  have := b.toNat_lt
  apply UInt8.toNat_inj.mp
  rw [UInt8.toNat_ofNat']
  omega

theorem ofNat_high (b c : UInt8) : UInt8.ofNat ((b.toNat + c.toNat * 256) / 256) = c := by
  have := b.toNat_lt
  have := c.toNat_lt
  apply UInt8.toNat_inj.mp
  rw [UInt8.toNat_ofNat']
  omega

/-- **Conversion exchanges the two bytes.** -/
theorem swap16_eq (h : i + 1 < p.length) :
    swap16 p i = some ((p.set i p[i + 1]).set (i + 1) p[i]) := by
  rw [swap16, load16_eq h, Option.bind_eq_bind, Option.bind_some, store16_eq h,
    htons_bytes p[i].toNat_lt p[i + 1].toNat_lt, ofNat_low, ofNat_high]

/-- A conversion of two bytes inside of the packet. -/
theorem swap16_spec (h : i + 1 < p.length) :
    ∃ q, swap16 p i = some q ∧ Touched p q i 2 ∧ load16 q i = net16 p i ∧
      net16 q i = load16 p i := by
  have hq := swap16_eq h
  refine ⟨_, hq, ?_, ?_, ?_⟩
  · rw [swap16, load16_eq h] at hq
    exact (store16_touched hq).1
  · rw [load16_eq (by simpa using h), net16_eq h]
    simp
    omega
  · rw [net16_eq (by simpa using h), load16_eq h]
    simp
    omega

/-- And of four. -/
theorem swap32_spec (h : i + 3 < p.length) : ∃ q, swap32 p i = some q ∧ Touched p q i 4 := by
  have h1 : i + 1 < p.length := by omega
  have h2 : i + 2 + 1 < p.length := by omega
  obtain ⟨r, hr, tr⟩ := store16_some (x := htons (p[i + 2].toNat + p[i + 2 + 1].toNat * 256)) h1
  obtain ⟨q, hq, tq⟩ := store16_some (p := r) (i := i + 2)
    (x := htons (p[i].toNat + p[i + 1].toNat * 256)) (by rw [tr.length]; omega)
  refine ⟨q, ?_, tr.trans tq le_rfl (by omega) (by omega) (by omega)⟩
  simp only [swap32, load16_eq h1, load16_eq h2, hr, hq, Option.bind_eq_bind, Option.bind_some]

/-- What was read is in the packet. -/
theorem of_load16 (h : load16 p i = some x) : i + 1 < p.length := by
  simp only [load16, Option.bind_eq_bind, Option.bind_eq_some_iff] at h
  obtain ⟨b, -, c, hc, -⟩ := h
  exact (List.getElem?_eq_some_iff.mp hc).1

/-- What a conversion that succeeds has done. -/
theorem of_swap16 (h : swap16 p i = some q) :
    Touched p q i 2 ∧ load16 q i = net16 p i ∧ net16 q i = load16 p i := by
  have hlt : i + 1 < p.length := by
    simp only [swap16, Option.bind_eq_bind, Option.bind_eq_some_iff] at h
    obtain ⟨x, hx, -⟩ := h
    exact of_load16 hx
  obtain ⟨q', hq', hs⟩ := swap16_spec hlt
  rw [h, Option.some.injEq] at hq'
  subst hq'
  exact hs

theorem of_swap32 (h : swap32 p i = some q) : Touched p q i 4 := by
  have hlt : i + 2 + 1 < p.length := by
    simp only [swap32, Option.bind_eq_bind, Option.bind_eq_some_iff] at h
    obtain ⟨x, -, y, hy, -⟩ := h
    exact of_load16 hy
  obtain ⟨q', hq', ht⟩ := swap32_spec hlt
  rw [h, Option.some.injEq] at hq'
  subst hq'
  exact ht

/-- **Converting the IP header** touches the header only and exchanges the bytes of the length. -/
theorem of_ip_ntoh (h : ip_ntoh p = some q) :
    Touched p q 16 18 ∧ load16 q net_iplen = net16 p net_iplen ∧
      net16 q net_iplen = load16 p net_iplen := by
  simp only [ip_ntoh, Option.bind_eq_bind, Option.bind_eq_some_iff] at h
  obtain ⟨p₁, h₁, p₂, h₂, p₃, h₃, p₄, h₄, h₅⟩ := h
  obtain ⟨t₁, l₁, n₁⟩ := of_swap16 h₁
  have t₂ := ((of_swap16 h₂).1.trans (of_swap16 h₃).1 (l := 18) (k := 4) (by decide) (by decide)
    (by decide) (by decide))
  have t₃ := ((of_swap32 h₄).trans (of_swap32 h₅) (l := 26) (k := 8) (by decide) (by decide)
    (by decide) (by decide))
  have t := t₂.trans t₃ (l := 18) (k := 16) (by decide) (by decide) (by decide) (by decide)
  refine ⟨t₁.trans t (by decide) (by decide) (by decide) (by decide), ?_, ?_⟩
  · rw [t.load16 (by decide), l₁]
  · rw [t.net16 (by decide), n₁]

/-- `ip_ntoh` leaves the protocol alone. -/
theorem ip_ntoh_proto (h : ip_ntoh p = some q) : load8 q net_ipproto = load8 p net_ipproto := by
  simp only [ip_ntoh, Option.bind_eq_bind, Option.bind_eq_some_iff] at h
  obtain ⟨p₁, h₁, p₂, h₂, p₃, h₃, p₄, h₄, h₅⟩ := h
  rw [(of_swap32 h₅).load8 (by decide), (of_swap32 h₄).load8 (by decide),
    (of_swap16 h₃).1.load8 (by decide), (of_swap16 h₂).1.load8 (by decide),
    (of_swap16 h₁).1.load8 (by decide)]

/-- It stays inside of a packet that has the two headers. -/
theorem ip_ntoh_some (h : 34 ≤ p.length) : ∃ q, ip_ntoh p = some q := by
  obtain ⟨p₁, h₁, t₁, -⟩ := swap16_spec (p := p) (i := 16) (by omega)
  have l₁ := t₁.length
  obtain ⟨p₂, h₂, t₂, -⟩ := swap16_spec (p := p₁) (i := 18) (by omega)
  have l₂ := t₂.length
  obtain ⟨p₃, h₃, t₃, -⟩ := swap16_spec (p := p₂) (i := 20) (by omega)
  have l₃ := t₃.length
  obtain ⟨p₄, h₄, t₄⟩ := swap32_spec (p := p₃) (i := 26) (by omega)
  have l₄ := t₄.length
  obtain ⟨p₅, h₅, -⟩ := swap32_spec (p := p₄) (i := 30) (by omega)
  exact ⟨p₅, by simp [ip_ntoh, h₁, h₂, h₃, h₄, h₅]⟩

/-- Converting the UDP ports and length, or three fields of the ICMP header. -/
theorem of_udp_ntoh (h : udp_ntoh p = some q) :
    Touched p q 34 6 ∧ load16 q net_udplen = net16 p net_udplen := by
  simp only [udp_ntoh, Option.bind_eq_bind, Option.bind_eq_some_iff] at h
  obtain ⟨p₁, h₁, p₂, h₂, h₃⟩ := h
  have t := (of_swap16 h₁).1.trans (of_swap16 h₂).1 (l := 34) (k := 4) (by decide) (by decide)
    (by decide) (by decide)
  obtain ⟨t₃, l₃, -⟩ := of_swap16 h₃
  refine ⟨t.trans t₃ (by decide) (by decide) (by decide) (by decide), ?_⟩
  rw [l₃, t.net16 (by decide)]

theorem of_icmp_ntoh (h : icmp_ntoh p = some q) : Touched p q 36 6 := by
  simp only [icmp_ntoh, Option.bind_eq_bind, Option.bind_eq_some_iff] at h
  obtain ⟨p₁, h₁, p₂, h₂, h₃⟩ := h
  have t := (of_swap16 h₁).1.trans (of_swap16 h₂).1 (l := 36) (k := 4) (by decide) (by decide)
    (by decide) (by decide)
  exact t.trans (of_swap16 h₃).1 (by decide) (by decide) (by decide) (by decide)

end Accesses

end Xinu.Net
