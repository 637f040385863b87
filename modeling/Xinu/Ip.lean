/-
# IP input and output

This module is `ip_in`, `ip_out` and `ipcksum` of `ip.c` and `icmp_cksum` of `icmp.c`, on the bytes
of a packet.  As everywhere on packets, `none` says that a byte outside the memory at hand is read
or written.

`ip_in` ends by giving the packet to `udp_in` or `icmp_in` or by freeing it; `ip_out` ends by
handing the frame to the Ethernet device.
-/
import Xinu.NetPacket

namespace Xinu.Net

/-! ## 1. Checksums -/

/-- The loop of `ipcksum` and `icmp_cksum`: `n` words from `ptr` on are added in network byte order
to the `uint32` sum.  The second and third component are `ptr` and the sum after the loop. -/
def addWords (buf : List UInt8) : Nat → Nat → Nat → Option (Nat × Nat)
  | 0, ptr, cksum => some (ptr, cksum)
  | n + 1, ptr, cksum => do
    let word ← load16 buf ptr
    addWords buf n (ptr + 2) ((cksum + htons word) % 4294967296)

def ipcksum (pkt : Packet) : Option Nat := do
  let (_, cksum) ← addWords pkt 10 net_ipvh 0
  let cksum := (cksum + cksum / 65536) % 4294967296
  let cksum := 65535 - cksum % 65536
  -- all ones are used for zero
  some (if cksum = 65535 then 0 else cksum)

/-- The value of a `char`, which is signed here. -/
def char (b : UInt8) : Int := if b.toNat < 128 then b.toNat else b.toNat - 256

def icmp_cksum (buf : List UInt8) (buflen : Int) : Option Nat := do
  let (sptr, cksum) ← addWords buf (buflen / 2).toNat 0 0
  let cksum ← if buflen % 2 ≠ 0 then do
      let b ← buf[sptr]?
      some ((cksum + char b * 256) % 4294967296).toNat
    else some cksum
  let cksum := (cksum + cksum / 65536) % 4294967296
  some (65535 - cksum % 65536)

/-! ## 2. Input -/

/-- The fields of `struct network` that are read when packets arrive. -/
structure Network where
  ipucast : Nat
  ipbcast : Nat
  ipvalid : Bool8
  ethucast : { a : List UInt8 // a.length = 6 }

/-- Where `ip_in` leaves a packet. -/
inductive Arrival
  | freed
  | udp_in (p : Packet)
  | icmp_in (p : Packet)
deriving DecidableEq

/-- The test of `ip_in` on an ICMP message, after the IP header is in host byte order. -/
def icmp_passes (p : Packet) : Option Bool := do
  let iplen ← load16 p net_iplen
  let cksum ← icmp_cksum (p.drop net_ictype) ((iplen : Int) - IP_HDR_LEN)
  some (cksum == 0)

/-- The first `switch` of `ip_in`: the encapsulated protocol is verified and converted.  The result
`some none` stands for the packet freed. -/
def ip_verify (p : Packet) : Option (Option Packet) := do
  let proto ← load8 p net_ipproto
  if proto = IP_UDP then do
    let p ← udp_ntoh p
    some (some p)
  else if proto = IP_ICMP then do
    let passes ← icmp_passes p
    if passes then do
      let p ← icmp_ntoh p
      some (some p)
    else some none
  else some (some p)

def ip_local (p : Packet) : Option Arrival := do
  let proto ← load8 p net_ipproto
  some (if proto = IP_UDP then .udp_in p else if proto = IP_ICMP then .icmp_in p else .freed)

/-- The rest of `ip_in`: is the packet for this computer? -/
def ip_accept (net : Network) (p : Packet) : Option Arrival := do
  let dst ← load32 p net_ipdst
  let proto ← load8 p net_ipproto
  if dst = IP_BCAST then ip_local p
  else if net.ipvalid = 0 then
    if proto = IP_UDP then ip_local p else some .freed
  else if dst = net.ipucast ∨ dst = net.ipbcast ∨ dst = IP_BCAST then ip_local p
  else some .freed

def ip_in (net : Network) (p : Packet) : Option Arrival := do
  let cksum ← ipcksum p
  if cksum ≠ 0 then some .freed
  else do
    let p ← ip_ntoh p
    let vh ← load8 p net_ipvh
    if vh ≠ 0x45 then some .freed
    else do
      let verified ← ip_verify p
      match verified with
      | none => some .freed
      | some p => ip_accept net p

/-! ## 3. Output -/

/-- The case of `ip_out` for an ICMP message. -/
def ip_out_icmp (p : Packet) : Option Packet := do
  let p ← icmp_hton p
  let p ← store16 p net_iccksum 0
  let iplen ← load16 p net_iplen
  let cksum ← icmp_cksum (p.drop net_ictype) ((iplen : Int) - IP_HDR_LEN)
  store16 p net_iccksum (htons cksum)

/-- The `switch` of `ip_out`. -/
def ip_out_proto (p : Packet) : Option Packet := do
  let proto ← load8 p net_ipproto
  if proto = IP_UDP then do
    let p ← store16 p net_udpcksum 0
    udp_hton p
  else if proto = IP_ICMP then ip_out_icmp p
  else some p

/-- `ip_out`, and the frame that it writes to the Ethernet. -/
def ip_out (p : Packet) : Option (List UInt8) := do
  let iplen ← load16 p net_iplen
  let pktlen := iplen + ETH_HDR_LEN
  let p ← ip_out_proto p
  let p ← ip_hton p
  let p ← store16 p net_ipcksum 0
  let cksum ← ipcksum p
  let p ← store16 p net_ipcksum (htons cksum)
  let p ← eth_hton p
  if pktlen ≤ p.length then some (p.take pktlen) else none

end Xinu.Net
