/-
# The interrupt mask on the way out

`ip_send`, `icmp_send` and `usercb` disable interrupts and are to restore the mask that they found.
`ip_send` has six ways out.  It restores the mask before the local stack and `ip_out` have their
return values passed on, but not where it finds no route and not where the next hop is not resolved,
although there too it frees the packet.  `icmp_send` forgets it when there is no packet, and
`usercb` when there is no message.

What the callees do to the mask does not matter where it is restored afterwards.  Every way out of
`arp_resolve` and of `freebuf` leaves the mask as it was found, so where `ip_send` does not restore
it, interrupts stay disabled.

`mask_restored_iff`: the packet is handed on or freed once on all ways out, and the mask is restored
on exactly these.
-/
import Xinu.NetBounds
import Xinu.System

namespace Xinu.Net

/-! ## 1. The mask and the packet -/

/-- What becomes of a packet: it is given to the local stack, which may free it, or to `ip_out`,
which frees it after it has written it to the Ethernet. -/
inductive Fate
  | ip_local (a : Arrival)
  | ip_out (p : Packet)
deriving DecidableEq

/-- Whether interrupts are enabled, and what has become of packets. -/
structure Outgoing where
  enabled : Bool
  fates : List Fate
deriving DecidableEq

/-- `disable()`: the mask, and the state after it. -/
def Outgoing.disable (s : Outgoing) : Bool × Outgoing := (s.enabled, { s with enabled := false })

/-- `restore(mask)`. -/
def Outgoing.restore (mask : Bool) (s : Outgoing) : Outgoing := { s with enabled := mask }

/-- The fields of `NetData` that `ip_send` reads. -/
structure SendData where
  ipucast : Nat
  ipmask : Nat
  ipprefix : Nat
  iprouter : Nat
  ipbcast : Nat
  ethbcast : { a : List UInt8 // a.length = 6 }

/-- The outcomes of the calls: what `arp_resolve` returns and puts into the packet, what `ip_out`
returns, and the mask that the call leaves that takes a packet. -/
structure Outcomes where
  arp_resolve : Nat → Int × { a : List UInt8 // a.length = 6 }
  ip_out : Packet → Int
  leaves : Fate → Bool

/-- A packet is passed on. -/
def Outgoing.give (s : Outgoing) (calls : Outcomes) (f : Fate) : Outgoing :=
  ⟨calls.leaves f, s.fates ++ [f]⟩

/-- `freebuf`, which restores the mask that it finds. -/
def Outgoing.freebuf (s : Outgoing) : Outgoing := { s with fates := s.fates ++ [.ip_local .freed] }

/-! ## 2. `ip.c`, `icmp.c` and `usercb.c` -/

/-- If destination is on the local network, next hop is the destination; otherwise, next hop is
default router. -/
def SendData.nxthop (net : SendData) (dest : Nat) : Nat :=
  if dest &&& net.ipmask = net.ipprefix then dest else net.iprouter

/-- `ip_send(pktptr)`. -/
def ip_send (net : SendData) (calls : Outcomes) (pktptr : Packet) (s : Outgoing) :
    Option (Outgoing × Int) := do
  let (mask, s) := s.disable
  let dest ← load32 pktptr net_ipdst
  if dest &&& 0xff000000 = 0x7f000000 then
    let a ← ip_local pktptr
    return ((s.give calls (.ip_local a)).restore mask, OK)
  else if dest = net.ipucast then
    let a ← ip_local pktptr
    return ((s.give calls (.ip_local a)).restore mask, OK)
  else if dest = IP_BCAST ∨ dest = net.ipbcast then
    let pktptr ← memcpy pktptr net_ethdst net.ethbcast 0 6
    return ((s.give calls (.ip_out pktptr)).restore mask, calls.ip_out pktptr)
  else if net.nxthop dest = 0 then
    return (s.freebuf, SYSERR)
  else if (calls.arp_resolve (net.nxthop dest)).1 ≠ OK then
    return (s.freebuf, SYSERR)
  else
    let pktptr ← memcpy pktptr net_ethdst (calls.arp_resolve (net.nxthop dest)).2 0 6
    return ((s.give calls (.ip_out pktptr)).restore mask, calls.ip_out pktptr)

/-- `icmp_send`, when `icmp_mkpkt` returns `pkt`, or `SYSERR` if there is none. -/
def icmp_send (net : SendData) (calls : Outcomes) (pkt : Option Packet) (s : Outgoing) :
    Option (Outgoing × Int) := do
  let (mask, s) := s.disable
  match pkt with
  | none => return (s, SYSERR)
  | some pkt =>
    let (s, retval) ← ip_send net calls pkt s
    return (s.restore mask, retval)

/-- `usercb()`, and whether interrupts are enabled after it. -/
def usercbMask (k : Kernel) (enabled : Bool) : Kernel × Bool :=
  let mask := enabled
  let enabled := false
  if (k.proctab k.currpid).prtmpvalid = 1 then (usercb k, mask) else (usercb k, enabled)

/-! ## 3. The ways out -/

/-- The call returns, has passed on `n` packets, and has restored the mask. -/
def Restores (n : Nat) (s : Outgoing) (r : Option (Outgoing × Int)) : Prop :=
  ∃ t v, r = some (t, v) ∧ t.fates.length = s.fates.length + n ∧ t.enabled = s.enabled

/-- **A packet for `dest` gets away**: to the local stack, to all, or to a next hop that there is
and that is resolved. -/
def GetsAway (net : SendData) (calls : Outcomes) (dest : Nat) : Prop :=
  dest &&& 0xff000000 = 0x7f000000 ∨ dest = net.ipucast ∨ dest = IP_BCAST ∨ dest = net.ipbcast ∨
    net.nxthop dest ≠ 0 ∧ (calls.arp_resolve (net.nxthop dest)).1 = OK

instance (net : SendData) (calls : Outcomes) (dest : Nat) : Decidable (GetsAway net calls dest) :=
  inferInstanceAs (Decidable (_ ∨ _))

variable {net : SendData} {calls : Outcomes} {p : Packet} {s : Outgoing} {dest : Nat}

theorem ip_local_some (h : PACKLEN ≤ p.length) : ∃ a, ip_local p = some a := by
  have hlt : net_ipproto < p.length := lt_of_lt_of_le (by decide) h
  exact ⟨_, by rw [ip_local, load8_eq hlt]; rfl⟩

theorem memcpy_ethdst (h : PACKLEN ≤ p.length) (mac : { a : List UInt8 // a.length = 6 }) :
    ∃ q, memcpy p net_ethdst mac 0 6 = some q := by
  obtain ⟨q, hq, -⟩ := @copyBytes_some mac (6 : Int).toNat 0 net_ethdst p
    (by rw [mac.2]; decide) (le_trans (by decide) h)
  exact ⟨q, hq⟩

/-- **`ip_send` passes its packet on once**, and restores the mask if the packet gets away. -/
theorem ip_send_spec (h : PACKLEN ≤ p.length) (hd : load32 p net_ipdst = some dest) :
    ∃ t v, ip_send net calls p s = some (t, v) ∧ t.fates.length = s.fates.length + 1 ∧
      t.enabled = if GetsAway net calls dest then s.enabled else false := by
  obtain ⟨a, ha⟩ := ip_local_some h
  unfold ip_send
  dsimp only [Outgoing.disable]
  rw [hd, Option.bind_eq_bind, Option.bind_some]
  by_cases hloop : dest &&& 0xff000000 = 0x7f000000
  · have haway : GetsAway net calls dest := Or.inl hloop
    rw [if_pos hloop, ha, if_pos haway]
    exact ⟨_, _, rfl, List.length_append, rfl⟩
  rw [if_neg hloop]
  by_cases hself : dest = net.ipucast
  · have haway : GetsAway net calls dest := Or.inr (Or.inl hself)
    rw [if_pos hself, ha, if_pos haway]
    exact ⟨_, _, rfl, List.length_append, rfl⟩
  rw [if_neg hself]
  by_cases hall : dest = IP_BCAST ∨ dest = net.ipbcast
  · have haway : GetsAway net calls dest := Or.inr (Or.inr (or_assoc.mp (Or.inl hall)))
    obtain ⟨q, hq⟩ := memcpy_ethdst h net.ethbcast
    rw [if_pos hall, hq, if_pos haway]
    exact ⟨_, _, rfl, List.length_append, rfl⟩
  rw [if_neg hall]
  have hiff : GetsAway net calls dest ↔
      net.nxthop dest ≠ 0 ∧ (calls.arp_resolve (net.nxthop dest)).1 = OK := by
    unfold GetsAway
    rw [or_iff_right hloop, or_iff_right hself, ← or_assoc, or_iff_right hall]
  rw [if_congr hiff rfl rfl]
  by_cases hhop : net.nxthop dest = 0
  · rw [if_pos hhop, if_neg fun hn => hn.1 hhop]
    exact ⟨_, _, rfl, List.length_append, rfl⟩
  rw [if_neg hhop]
  by_cases harp : (calls.arp_resolve (net.nxthop dest)).1 = OK
  · obtain ⟨q, hq⟩ := memcpy_ethdst h (calls.arp_resolve (net.nxthop dest)).2
    rw [if_neg (not_not.mpr harp), hq, if_pos ⟨hhop, harp⟩]
    exact ⟨_, _, rfl, List.length_append, rfl⟩
  · rw [if_pos harp, if_neg fun hn => harp hn.2]
    exact ⟨_, _, rfl, List.length_append, rfl⟩

/-- What a call that returns has to have done. -/
theorem restores_iff {n : Nat} {t : Outgoing} {v : Int} {r : Option (Outgoing × Int)}
    (hr : r = some (t, v)) (hn : t.fates.length = s.fates.length + n) :
    Restores n s r ↔ t.enabled = s.enabled := by
  constructor
  · rintro ⟨t', v', heq, -, hmask⟩
    obtain ⟨rfl, -⟩ := Prod.mk.inj (Option.some.inj (hr.symm.trans heq))
    exact hmask
  · intro hmask
    exact ⟨t, v, hr, hn, hmask⟩

theorem ip_send_restores_iff (h : PACKLEN ≤ p.length) (hd : load32 p net_ipdst = some dest) :
    Restores 1 s (ip_send net calls p s) ↔ GetsAway net calls dest ∨ s.enabled = false := by
  obtain ⟨t, v, hr, hn, hmask⟩ := @ip_send_spec net calls p s dest h hd
  rw [restores_iff hr hn, hmask]
  by_cases haway : GetsAway net calls dest
  · rw [if_pos haway]
    exact iff_of_true rfl (Or.inl haway)
  · rw [if_neg haway, or_iff_right haway]
    exact eq_comm

/-- `icmp_send` restores the mask once more, also where `ip_send` does not. -/
theorem icmp_send_restores_iff {pkt : Option Packet} (h : ∀ p ∈ pkt, PACKLEN ≤ p.length) :
    Restores pkt.toList.length s (icmp_send net calls pkt s) ↔
      pkt ≠ none ∨ s.enabled = false := by
  cases pkt with
  | none =>
    rw [or_iff_right (not_not.mpr rfl)]
    exact (restores_iff (t := s.disable.2) (v := SYSERR) rfl rfl).trans eq_comm
  | some p =>
    have hlen := h p rfl
    obtain ⟨dest, hd⟩ := @load32_some p net_ipdst (lt_of_lt_of_le (by decide) hlen)
    obtain ⟨t, v, hr, hn, -⟩ := @ip_send_spec net calls p s.disable.2 dest hlen hd
    refine iff_of_true ⟨t.restore s.enabled, v, ?_, hn, rfl⟩ (Or.inl (Option.some_ne_none p))
    unfold icmp_send
    dsimp only [Outgoing.disable] at hr ⊢
    rw [hr]
    rfl

theorem usercbMask_restores_iff (k : Kernel) (enabled : Bool) :
    (usercbMask k enabled).2 = enabled ↔
      (k.proctab k.currpid).prtmpvalid = 1 ∨ enabled = false := by
  unfold usercbMask
  by_cases hvalid : (k.proctab k.currpid).prtmpvalid = 1
  · rw [if_pos hvalid]
    exact iff_of_true rfl (Or.inl hvalid)
  · rw [if_neg hvalid, or_iff_right hvalid]
    exact eq_comm

/-- **Where the mask is restored.**  On every way out of `ip_send` and `icmp_send` the packet has
been passed on once.  The mask is restored, if it was not disabled anyway, exactly where the packet
gets away, where there is a packet, and where there is a message for the callback. -/
theorem mask_restored_iff (net : SendData) (calls : Outcomes) (p : Packet) (pkt : Option Packet)
    (s : Outgoing) (k : Kernel) (dest : Nat) (h : PACKLEN ≤ p.length)
    (hd : load32 p net_ipdst = some dest) (hpkt : ∀ p ∈ pkt, PACKLEN ≤ p.length) :
    (Restores 1 s (ip_send net calls p s) ↔ GetsAway net calls dest ∨ s.enabled = false) ∧
    (Restores pkt.toList.length s (icmp_send net calls pkt s) ↔
      pkt ≠ none ∨ s.enabled = false) ∧
    ((usercbMask k s.enabled).2 = s.enabled ↔
      (k.proctab k.currpid).prtmpvalid = 1 ∨ s.enabled = false) :=
  ⟨ip_send_restores_iff h hd, icmp_send_restores_iff hpkt, usercbMask_restores_iff k s.enabled⟩

/-! ## 4. A packet without a route -/

/-- A computer without a router, calls that succeed, and a packet to another network. -/
def noRouter : SendData :=
  ⟨0xc0a80105, 0xffffff00, 0xc0a80100, 0, 0xc0a801ff, ⟨[0, 0, 0, 0, 0, 0], rfl⟩⟩
def goodCalls : Outcomes := ⟨fun _ => (OK, ⟨[2, 0, 0, 0, 0, 1], rfl⟩), fun _ => OK, fun _ => false⟩
def farPacket : Packet := List.replicate 30 0 ++ ([8, 8, 8, 8] ++ List.replicate 1480 0)

theorem farPacket_length : PACKLEN ≤ farPacket.length := by
  rw [farPacket, List.length_append, List.length_append, List.length_replicate,
    List.length_replicate]
  decide

theorem mask_restored_iff_far :
    (Restores 1 ⟨true, []⟩ (ip_send noRouter goodCalls farPacket ⟨true, []⟩) ↔
      GetsAway noRouter goodCalls 0x08080808 ∨ true = false) ∧
    (Restores 1 ⟨true, []⟩ (icmp_send noRouter goodCalls (some farPacket) ⟨true, []⟩) ↔
      some farPacket ≠ none ∨ true = false) ∧
    ((usercbMask (bss xinuImage bootHeap) true).2 = true ↔
      ((bss xinuImage bootHeap).proctab (bss xinuImage bootHeap).currpid).prtmpvalid = 1 ∨
        true = false) :=
  mask_restored_iff noRouter goodCalls farPacket (some farPacket) ⟨true, []⟩ _ 0x08080808
    farPacket_length rfl fun _ hp => Option.mem_some_iff.mp hp ▸ farPacket_length

/-- **Interrupts stay disabled** after a packet without a route, and after a callback without a
message. -/
theorem mask_lost : load32 farPacket net_ipdst = some 0x08080808 ∧
    ip_send noRouter goodCalls farPacket ⟨true, []⟩ =
      some (⟨false, [.ip_local .freed]⟩, SYSERR) ∧
    icmp_send noRouter goodCalls none ⟨true, []⟩ = some (⟨false, []⟩, SYSERR) ∧
    (usercbMask (bss xinuImage bootHeap) true).2 = false := by
  exact ⟨rfl, by decide +kernel, rfl, rfl⟩

end Xinu.Net
