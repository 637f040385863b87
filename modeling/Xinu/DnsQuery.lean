/-
# The query: `dnslookup`

`dnslookup` builds one query and sends it up to three times.  `dns_bldq` looks at the room for the
characters of the name, but not for the five bytes behind them, and never at the length of a label;
and where it does refuse a name, `dnslookup` takes the error for the length of the query and sends
it.  So no name is refused (`query_safe_iff`).

What the other functions return is an oracle, the `i`-th call of `udp_recv` for every `i`.
-/
import Xinu.DnsNames

namespace Xinu.Dns

open Net

/-! ## 1. The code -/

/-- `DNSRETRY` of `dns.h`. -/
abbrev DNSRETRY : Nat := 3

/-- What the calls return, and the fields of `NetData` that are read: `udp_recv` returns the
response, or an error or the timeout. -/
structure LookupWorld where
  getlocalip : Nat
  dnsserver : Nat
  udp_register : Nat
  currpid : Nat
  net : NetData
  udp_recv : Nat → Option Packet

/-- The queries that `dnslookup` has sent, each with its length, and what it returns; that is `none`
when `dns_geta` has left its bounds. -/
structure Lookup where
  sent : List (Packet × Nat)
  value : Option Nat

/-- The first fields of the query. -/
def queryHeader (currpid : Nat) : Packet :=
  [UInt8.ofNat currpid, UInt8.ofNat (currpid / 256), 1, 0, 0, 1, 0, 0, 0, 0, 0, 0]

/-- The loop of `dnslookup`, with `n` tries left after `i`. -/
def lookupLoop (fuel : Nat) (w : LookupWorld) (dname : CString) (qpkt : Packet) (qlen : Nat) :
    Nat → Nat → Lookup
  | 0, _ => ⟨[], some sysErrPtr⟩
  | n + 1, i =>
    let rest := lookupLoop fuel w dname qpkt qlen n (i + 1)
    match w.udp_recv i with
    | none => ⟨(qpkt, qlen) :: rest.sent, rest.value⟩
    | some rpkt =>
      match dns_geta fuel w.net dname rpkt with
      | none => ⟨[(qpkt, qlen)], none⟩
      | some ipaddr =>
        if ipaddr = sysErrPtr then ⟨(qpkt, qlen) :: rest.sent, rest.value⟩
        else ⟨[(qpkt, qlen)], some (htonl ipaddr)⟩

/-- `dnslookup(dname)`, where `none` is a null pointer: `none` if it writes behind the query. -/
def dnslookup (fuel : Nat) (w : LookupWorld) (dname : Option CString) : Option Lookup :=
  match dname with
  | none => some ⟨[], some sysErrPtr⟩
  | some dname =>
    if w.getlocalip = sysErrPtr ∨ w.dnsserver = 0 then some ⟨[], some sysErrPtr⟩
    else if w.udp_register = sysErrPtr then some ⟨[], some sysErrPtr⟩
    else do
      let (data, qlen) ← dns_bldq dname (List.replicate DNSDATASIZ 0)
      some (lookupLoop fuel w dname (queryHeader w.currpid ++ data) qlen DNSRETRY 0)

/-! ## 2. Where `dns_bldq` writes -/

section Writes

variable {dname : List UInt8} {buf : Packet} {i x llptr qlen : Nat}

theorem store8_isSome (h : i < buf.length) (x : Nat) :
    ∃ buf', store8 buf i x = some buf' ∧ buf'.length = buf.length :=
  ⟨_, if_pos h, List.length_set ..⟩

theorem load8_isSome (h : i < buf.length) : ∃ b, load8 buf i = some b :=
  ⟨_, by rw [load8, List.getElem?_eq_getElem h]; rfl⟩

/-- One character in a buffer that has room for it. -/
theorem addChars_cons (c : UInt8) (dname : List UInt8) (hq : qlen < buf.length)
    (hbuf : buf.length = DNSDATASIZ) (hl : llptr < qlen) :
    ∃ buf' llptr', buf'.length = DNSDATASIZ ∧ llptr' < qlen + 1 ∧
      addChars (c :: dname) buf qlen llptr qlen =
        addChars dname buf' (qlen + 1) llptr' (qlen + 1) := by
  have hroom : ¬ qlen ≥ DNSDATASIZ := by omega
  by_cases hdot : c ≠ ch '.'
  · obtain ⟨buf₁, h1, hlen₁⟩ := store8_isSome hq c.toNat
    obtain ⟨b, h2⟩ := @load8_isSome buf₁ llptr (by omega)
    obtain ⟨buf₂, h3, hlen₂⟩ := @store8_isSome buf₁ llptr (by omega) (b + 1)
    refine ⟨buf₂, llptr, by omega, by omega, ?_⟩
    rw [addChars, if_neg hroom, if_pos hdot]
    simp only [h1, h2, h3, Option.bind_eq_bind, Option.bind_some]
  · obtain ⟨buf₁, h1, hlen₁⟩ := store8_isSome hq 0
    refine ⟨buf₁, qlen, by omega, by omega, ?_⟩
    rw [addChars, if_neg hroom, if_neg hdot]
    simp only [h1, Option.bind_eq_bind, Option.bind_some]

/-- **The loop stays in the data area**, and gives up at its end. -/
theorem addChars_spec (dname : List UInt8) (hbuf : buf.length = DNSDATASIZ) (hl : llptr < qlen)
    (hq : qlen ≤ DNSDATASIZ) : ∃ buf', buf'.length = DNSDATASIZ ∧
      addChars dname buf qlen llptr qlen = some (if qlen + dname.length ≤ DNSDATASIZ then
        .ok (buf', qlen + dname.length, qlen + dname.length) else .error buf') := by
  induction dname generalizing buf llptr qlen with
  | nil => exact ⟨buf, hbuf, by rw [if_pos (by simpa using hq)]; rfl⟩
  | cons c dname ih =>
    rw [List.length_cons]
    by_cases hroom : qlen < DNSDATASIZ
    · obtain ⟨buf₁, llptr₁, hbuf₁, hl₁, hstep⟩ := addChars_cons c dname (hbuf ▸ hroom) hbuf hl
      obtain ⟨buf₂, hbuf₂, hrest⟩ := ih hbuf₁ hl₁ (by omega)
      have hsum : qlen + 1 + dname.length = qlen + (dname.length + 1) := by omega
      rw [hsum] at hrest
      exact ⟨buf₂, hbuf₂, hstep.trans hrest⟩
    · refine ⟨buf, hbuf, ?_⟩
      rw [addChars, if_pos (by omega), if_neg (by omega)]

end Writes

/-- **`dns_bldq` stays in the data area** if the five bytes behind the name fit too, or if the
characters of the name do not. -/
theorem dns_bldq_isSome (dname : CString) {buf : Packet} (hbuf : buf.length = DNSDATASIZ) :
    (dns_bldq dname buf).isSome ↔
      dname.chars.length + 6 ≤ DNSDATASIZ ∨ DNSDATASIZ ≤ dname.chars.length := by
  have hsize : DNSDATASIZ = 500 := rfl
  obtain ⟨buf₀, h0, hlen₀⟩ := @store8_isSome buf 0 (by omega) 0
  obtain ⟨buf₁, hbuf₁, hloop⟩ := @addChars_spec buf₀ 0 1 dname.chars (hlen₀.trans hbuf) (by omega)
    (by omega)
  unfold dns_bldq
  simp only [h0, hloop, Option.bind_eq_bind, Option.bind_some]
  by_cases hfit : 1 + dname.chars.length ≤ DNSDATASIZ
  · rw [if_pos hfit]
    rw [iff_comm, or_iff_left (by omega)]
    constructor
    · intro h
      obtain ⟨buf₂, h2, hlen₂⟩ := @store8_isSome buf₁ (1 + dname.chars.length) (by omega) 0
      obtain ⟨buf₃, h3, ht₃⟩ := @store16_some buf₂ (1 + dname.chars.length + 1) (htons DNS_QT_A)
        (by omega)
      obtain ⟨buf₄, h4, -⟩ := @store16_some buf₃ (1 + dname.chars.length + 3) (htons DNS_QC_IN)
        (by rw [ht₃.length]; omega)
      simp only [h2, h3, h4, Option.bind_some, Option.isSome_some]
    · intro h
      obtain ⟨r, hr⟩ := Option.isSome_iff_exists.mp h
      obtain ⟨buf₂, h2, hr⟩ := Option.bind_eq_some_iff.mp hr
      obtain ⟨buf₃, h3, hr⟩ := Option.bind_eq_some_iff.mp hr
      obtain ⟨buf₄, h4, -⟩ := Option.bind_eq_some_iff.mp hr
      obtain ⟨ht₃, -⟩ := store16_touched h3
      obtain ⟨-, hlast⟩ := store16_touched h4
      have hlen₂ : buf₂.length = buf₁.length := by
        obtain ⟨-, h2⟩ := Option.ite_none_right_eq_some.mp h2
        rw [← Option.some.inj h2]
        exact List.length_set ..
      have hlen₃ := ht₃.length
      omega
  · rw [if_neg hfit]
    exact iff_of_true rfl (.inr (by omega))

/-! ## 3. Which names are safe -/

/-- The query has room for the name, and no label is too long. -/
def NameFits (dname : CString) : Prop :=
  dname.chars.length + 6 ≤ DNSDATASIZ ∧ ∀ l ∈ dname.chars.splitOn (ch '.'), l.length ≤ 63

instance (dname : CString) : Decidable (NameFits dname) := inferInstanceAs (Decidable (_ ∧ _))

/-- `dns_bldq` writes to the data area only, and a name that does not fit is refused before a query
is sent. -/
structure QuerySafe (dname : CString) : Prop where
  inside : ∀ data : Packet, data.length = DNSDATASIZ → (dns_bldq dname data).isSome
  refused : ¬ NameFits dname → ∀ fuel w,
    dnslookup fuel w (some dname) = some ⟨[], some sysErrPtr⟩

/-- A name server that does not answer. -/
def silentServer : LookupWorld := ⟨0x0a000001, 0x0a000002, 0, 1, ⟨0, 0⟩, fun _ => none⟩

/-- **What `dns_bldq` returns is sent.** -/
theorem dnslookup_silent (fuel : Nat) {dname : CString} {data : Packet} {qlen : Nat}
    (h : dns_bldq dname (List.replicate DNSDATASIZ 0) = some (data, qlen)) :
    dnslookup fuel silentServer (some dname) =
      some ⟨List.replicate 3 (queryHeader 1 ++ data, qlen), some sysErrPtr⟩ := by
  have hserver : ¬ (silentServer.getlocalip = sysErrPtr ∨ silentServer.dnsserver = 0) := by decide
  have hslot : silentServer.udp_register ≠ sysErrPtr := by decide
  simp only [dnslookup, if_neg hserver, if_neg hslot, h, Option.bind_eq_bind, Option.bind_some]
  rfl

/-- **The names that are dealt with as they should be are those that fit.** -/
theorem query_safe_iff (dname : CString) : QuerySafe dname ↔ NameFits dname := by
  constructor
  · intro h
    by_contra hno
    obtain ⟨⟨data, qlen⟩, hdata⟩ :=
      Option.isSome_iff_exists.mp (h.inside (List.replicate DNSDATASIZ 0) List.length_replicate)
    have hrefused := h.refused hno 0 silentServer
    rw [dnslookup_silent 0 hdata] at hrefused
    simp at hrefused
  · intro h
    exact ⟨fun data hdata => (dns_bldq_isSome dname hdata).mpr (.inl h.1),
      fun hno => absurd h hno⟩

/-- A name of `n` times `a`. -/
def longName (n : Nat) : CString :=
  ⟨List.replicate n (ch 'a'), fun h => absurd (List.eq_of_mem_replicate h) (by decide)⟩

/-- **A name of 495 characters** is written behind the data area; a query with a label of 64 is
sent, and for a name of 500 characters one whose length is the error. -/
theorem query_unsafe : ¬ QuerySafe (longName 495) ∧
      dns_bldq (longName 495) (List.replicate DNSDATASIZ 0) = none ∧
      (∃ data, dnslookup 0 silentServer (some (longName 64)) =
        some ⟨List.replicate 3 (queryHeader 1 ++ data, 82), some sysErrPtr⟩) ∧
      (∃ data, dnslookup 0 silentServer (some (longName 500)) =
        some ⟨List.replicate 3 (queryHeader 1 ++ data, sysErrPtr), some sysErrPtr⟩) := by
  have hnone : dns_bldq (longName 495) (List.replicate DNSDATASIZ 0) = none := by
    have hlen : (longName 495).chars.length = 495 := List.length_replicate
    rw [← Option.not_isSome_iff_eq_none, dns_bldq_isSome _ List.length_replicate, hlen]
    decide
  refine ⟨fun h => ?_, hnone, ?_, ?_⟩
  · have hinside := h.inside (List.replicate DNSDATASIZ 0) List.length_replicate
    rw [hnone] at hinside
    simp at hinside
  · have hq : (dns_bldq (longName 64) (List.replicate DNSDATASIZ 0)).map Prod.snd = some 82 := by
      decide +kernel
    obtain ⟨r, hdata, hlen⟩ := Option.map_eq_some_iff.mp hq
    have hsent := dnslookup_silent 0 hdata
    rw [hlen] at hsent
    exact ⟨r.1, hsent⟩
  · have hq : (dns_bldq (longName 500) (List.replicate DNSDATASIZ 0)).map Prod.snd =
        some sysErrPtr := by
      decide +kernel
    obtain ⟨r, hdata, hlen⟩ := Option.map_eq_some_iff.mp hq
    have hsent := dnslookup_silent 0 hdata
    rw [hlen] at hsent
    exact ⟨r.1, hsent⟩

end Xinu.Dns
