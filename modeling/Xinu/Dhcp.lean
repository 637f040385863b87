/-
# DHCP options: `dhcp.c`

A message ends in an option area: options, each a code, a length and so many octets; pad octets,
which stand alone; and an end octet.  `dhcp_get_opt_val` and the loop in `getlocalip` read it,
`dhcp_bld_disc` and `dhcp_bld_req` write it.

Both readers take every octet that they come to for a code and the next one for a length, a pad as
well.  Two pads in a row are passed over as they should be; one pad in front of an option is not:
the code of the option is taken for a length.  So the readers find what is there as long as no odd
run of pads stands in front of an option (`InStep`), and the option behind such a run is never found
(`Skipped`).  Both writers write one pad behind their first option.

Octets are counted from `dc_opt` on.  The octets behind the area are what is in memory.
-/
import Xinu.NetPacket

namespace Xinu.Dhcp

open Net

/-! ## 1. The code

Memory from `dc_opt` on is a function on octets, so that a reader can run over the end of a
message, as the source does.  Both loops go two octets forward or more each time, and so end. -/

/-- The memory from `dc_opt` on. -/
abbrev Octets := Nat → UInt8

/-- `offsetof(struct dhcpmsg, dc_opt)`. -/
abbrev optOffset : Nat := 240

/-- `struct dhcpmsg`; `dc_opt` is its last field. -/
structure Dhcpmsg where
  dc_bop : UInt8
  dc_htype : UInt8
  dc_hlen : UInt8
  dc_hops : UInt8
  dc_xid : Nat
  dc_secs : Nat
  dc_flags : Nat
  dc_cip : Nat
  dc_yip : Nat
  dc_sip : Nat
  dc_gip : Nat
  dc_chaddr : List UInt8
  dc_bootp : List UInt8
  dc_cookie : Nat
  dc_opt : Octets
deriving Inhabited

/-- `DHCP_SERVER_ID` of `dhcp.h`. -/
abbrev DHCP_SERVER_ID : UInt8 := 54

/-- The loop of `dhcp_get_opt_val`, from `opt_tmp` on. -/
def getOptFrom (dc_opt : Octets) (eom : Nat) (option_key : UInt8) (opt_tmp : Nat) : Option Nat :=
  if opt_tmp < eom then
    if dc_opt opt_tmp = option_key then some (opt_tmp + 2)
    else getOptFrom dc_opt eom option_key (opt_tmp + 1 + ((dc_opt (opt_tmp + 1)).toNat + 1))
  else none
termination_by eom - opt_tmp

/-- `dhcp_get_opt_val`: the offset from `dc_opt` on; `none` is `NULL`. -/
def dhcp_get_opt_val (dmsg : Dhcpmsg) (dmsg_size : Nat) (option_key : UInt8) : Option Nat :=
  getOptFrom dmsg.dc_opt (dmsg_size - 1 - optOffset) option_key 0

/-- `NetData.ethucast`. -/
abbrev Ethucast := Vector UInt8 6

/-- `memcpy` of a `uint32`, the low byte first. -/
def bytes32 (x : Nat) : List UInt8 :=
  [UInt8.ofNat x, UInt8.ofNat (x / 2 ^ 8), UInt8.ofNat (x / 2 ^ 16), UInt8.ofNat (x / 2 ^ 24)]

/-- The four octets that `memcpy` takes from an option area. -/
def octets4 (dc_opt : Octets) (p : Nat) : List UInt8 :=
  [dc_opt p, dc_opt (p + 1), dc_opt (p + 2), dc_opt (p + 3)]

/-- `memcpy` to a `uint32`. -/
def word32 (dc_opt : Octets) (p : Nat) : Nat :=
  (dc_opt p).toNat + (dc_opt (p + 1)).toNat * 2 ^ 8 + (dc_opt (p + 2)).toNat * 2 ^ 16 +
    (dc_opt (p + 3)).toNat * 2 ^ 24

def dhcp_bld_bootp_msg (ethucast : Ethucast) (dmsg : Dhcpmsg) : Dhcpmsg where
  dc_bop := 0x01
  dc_htype := 0x01
  dc_hlen := 0x06
  dc_hops := 0x00
  dc_xid := htonl (word32 (fun i => ethucast.toList.getD i 0) 0)
  dc_secs := 0x0000
  dc_flags := 0x0000
  dc_cip := 0x00000000
  dc_yip := 0x00000000
  dc_sip := 0x00000000
  dc_gip := 0x00000000
  dc_chaddr := ethucast.toList ++ List.replicate 10 0
  dc_bootp := List.replicate 192 0
  dc_cookie := htonl 0x63825363
  -- `memset` of the whole message
  dc_opt := fun i => if i < 1024 then 0 else dmsg.dc_opt i

/-- The option area while it is written, and `j`. -/
structure Area where
  dc_opt : Octets
  j : Nat

/-- `dmsg->dc_opt[j++] = c`. -/
def Area.put (a : Area) (c : UInt8) : Area := ⟨Function.update a.dc_opt a.j c, a.j + 1⟩

/-- `memcpy(&dmsg->dc_opt[j], .., ..)`, and `j` moved behind the copy. -/
def Area.copy (a : Area) (bytes : List UInt8) : Area := bytes.foldl Area.put a

/-- The message, and the length that is returned. -/
def Area.finish (a : Area) (dmsg : Dhcpmsg) : Dhcpmsg × Int :=
  ({ dmsg with dc_opt := a.dc_opt }, ((optOffset + a.j + 1 : Nat) : Int))

def dhcp_bld_disc (ethucast : Ethucast) (dmsg : Dhcpmsg) : Dhcpmsg × Int :=
  let dmsg := dhcp_bld_bootp_msg ethucast dmsg
  let a : Area := ⟨dmsg.dc_opt, 0⟩
  let a := (((a.put 53).put 1).put 1).put 0
  let a := ((((a.put 55).put 2).put 1).put 3).put 0xff
  a.finish dmsg

def dhcp_bld_req (ethucast : Ethucast) (dmsg dmsg_offer : Dhcpmsg) (dmsg_offer_size : Nat) :
    Dhcpmsg × Int :=
  let dmsg := { dhcp_bld_bootp_msg ethucast dmsg with dc_sip := dmsg_offer.dc_sip }
  let a : Area := ⟨dmsg.dc_opt, 0⟩
  let a := (((a.put 53).put 1).put 3).put 0
  let a := ((a.put 50).put 4).copy (bytes32 dmsg_offer.dc_yip)
  match dhcp_get_opt_val dmsg_offer dmsg_offer_size DHCP_SERVER_ID with
  | none => ({ dmsg with dc_opt := a.dc_opt }, SYSERR)
  | some server_ip =>
    let a := ((a.put 54).put 4).copy (octets4 dmsg_offer.dc_opt server_ip)
    let a := a.put 0xff
    a.finish dmsg

/-- The variables of `getlocalip` that its loop over the options sets. -/
structure Scan where
  msgtype : Nat
  addrmask : Nat
  routeraddr : Nat
  dnsaddr : Nat
  ntpaddr : Nat
deriving DecidableEq, Repr

/-- The `switch` of that loop. -/
def Scan.read (s : Scan) (dc_opt : Octets) (optptr : Nat) : Scan :=
  if dc_opt optptr = 53 then { s with msgtype := (dc_opt (optptr + 2)).toNat }
  else if dc_opt optptr = 1 then { s with addrmask := htonl (word32 dc_opt (optptr + 2)) }
  else if dc_opt optptr = 3 then { s with routeraddr := htonl (word32 dc_opt (optptr + 2)) }
  else if dc_opt optptr = 6 then { s with dnsaddr := htonl (word32 dc_opt (optptr + 2)) }
  else if dc_opt optptr = 42 then { s with ntpaddr := htonl (word32 dc_opt (optptr + 2)) }
  else s

def scanFrom (dc_opt : Octets) (eop : Nat) (optptr : Nat) (s : Scan) : Scan :=
  if optptr < eop then
    scanFrom dc_opt eop (optptr + 1 + ((dc_opt (optptr + 1)).toNat + 1)) (s.read dc_opt optptr)
  else s
termination_by eop - optptr

/-- The loop of `getlocalip` over the options of a message of `inlen` bytes. -/
def scanOptions (dmsg_rvc : Dhcpmsg) (inlen : Nat) : Scan :=
  scanFrom dmsg_rvc.dc_opt (inlen - 1 - optOffset) 0 ⟨0, 0, 0, 0, 0⟩

/-! ## 2. Option areas

The other side of the comparison: what an option area consists of, and what should be found in
it. -/

/-- A code that is not that of a pad or of the end. -/
abbrev Code := {c : UInt8 // c ≠ 0 ∧ c ≠ 255}

structure DhcpOption where
  code : Code
  value : List UInt8
  short : value.length ≤ 255

inductive Field
  | pad
  | option (o : DhcpOption)

/-- The octets of a field. -/
def Field.octets : Field → List UInt8
  | .pad => [0]
  | .option o => o.code :: UInt8.ofNat o.value.length :: o.value

/-- The octets of the fields, and the end octet. -/
def area (fs : List Field) : List UInt8 := fs.flatMap Field.octets ++ [255]

/-- The message with an option area, and with `behind` in memory behind it. -/
def holding (dmsg : Dhcpmsg) (fs : List Field) (behind : Octets) : Dhcpmsg :=
  { dmsg with dc_opt := fun i => (area fs)[i]?.getD (behind i) }

/-- The size of a message with an option area. -/
def sizeWith (fs : List Field) : Nat := optOffset + (area fs).length

/-- Where the value of the first option with a code stands. -/
def firstValue (key : UInt8) : List Field → Option Nat
  | [] => none
  | .pad :: fs => (firstValue key fs).map (1 + ·)
  | .option o :: fs =>
    if o.code = key then some 2 else (firstValue key fs).map (2 + o.value.length + ·)

/-- Where the value of the last one stands. -/
def lastValue (key : UInt8) : List Field → Option Nat
  | [] => none
  | .pad :: fs => (lastValue key fs).map (1 + ·)
  | .option o :: fs => ((lastValue key fs).map (2 + o.value.length + ·)).or
      (if o.code = key then some 2 else none)

/-- The fields up to the first option with a code. -/
def upTo (key : UInt8) : List Field → List Field
  | [] => []
  | .pad :: fs => .pad :: upTo key fs
  | .option o :: fs => .option o :: if o.code = key then [] else upTo key fs

/-- No odd run of pads stands in front of an option. -/
def InStep : List Field → Prop
  | [] => True
  | [.pad] => True
  | .pad :: .pad :: fs => InStep fs
  | .pad :: .option _ :: _ => False
  | .option _ :: fs => InStep fs

/-- The first option with the code is the first one that stands behind an odd run of pads. -/
def Skipped (key : UInt8) : List Field → Prop
  | [] => False
  | [.pad] => False
  | .pad :: .pad :: fs => Skipped key fs
  | .pad :: .option o :: _ => o.code = key
  | .option o :: fs => (o.code : UInt8) ≠ key ∧ Skipped key fs

/-! ## 3. The readers, field by field

`At` says that some fields stand in memory from a position on.  A reader at the beginning of a
field that is an option, or of two pads, is afterwards at the beginning of the next one; at a
single pad it gets out of step.  The two main lemmas are inductions on `InStep` and `Skipped`. -/

section Readers

variable {dc_opt : Octets} {p eom : Nat} {key : UInt8} {fs : List Field} {o : DhcpOption}

/-- The octets from `p` on are those of the fields and the end octet. -/
def At (dc_opt : Octets) (p : Nat) (fs : List Field) : Prop :=
  ∀ i c, (area fs)[i]? = some c → dc_opt (p + i) = c

/-- The first octet. -/
theorem At.head {l : List UInt8} {c : UInt8} (h : At dc_opt p fs) (ha : area fs = c :: l) :
    dc_opt p = c := h 0 c (by rw [ha]; rfl)

/-- The second one. -/
theorem At.second {l : List UInt8} {c d : UInt8} (h : At dc_opt p fs) (ha : area fs = c :: d :: l) :
    dc_opt (p + 1) = d := h 1 d (by rw [ha]; rfl)

/-- What follows the first octets. -/
theorem At.behind {fs' : List Field} {l : List UInt8} (h : At dc_opt p fs)
    (ha : area fs = l ++ area fs') : At dc_opt (p + l.length) fs' := by
  intro i c hi
  rw [Nat.add_assoc]
  refine h (l.length + i) c ?_
  rw [ha, List.getElem?_append_right (Nat.le_add_right _ _), Nat.add_sub_cancel_left]
  exact hi

theorem area_pad : area (.pad :: fs) = 0 :: area fs := rfl

/-- An option in front: its code, its length and its value. -/
theorem area_option : area (.option o :: fs) =
    (o.code.val :: UInt8.ofNat o.value.length :: o.value) ++ area fs := by
  simp [area, Field.octets]

/-- The length of a value fits into its octet. -/
theorem length_byte (o : DhcpOption) : (UInt8.ofNat o.value.length).toNat = o.value.length := by
  have := o.short
  rw [UInt8.toNat_ofNat']
  omega

/-- What the octets of an option say to a reader. -/
theorem At.option (h : At dc_opt p (.option o :: fs)) :
    dc_opt p = o.code ∧ (dc_opt (p + 1)).toNat = o.value.length ∧
      At dc_opt (p + (2 + o.value.length)) fs := by
  refine ⟨h.head area_option, ?_, ?_⟩
  · rw [h.second area_option, length_byte]
  · have hlen : (o.code.val :: UInt8.ofNat o.value.length :: o.value).length =
        2 + o.value.length := by
      simp only [List.length_cons]
      omega
    exact hlen ▸ h.behind area_option

/-- A pad is one octet, and the other fields stand behind it. -/
theorem At.pad (h : At dc_opt p (.pad :: fs)) : dc_opt p = 0 ∧ At dc_opt (p + 1) fs :=
  ⟨h.head area_pad, h.behind (l := [0]) area_pad⟩

/-- Behind the last field stands the end octet. -/
theorem At.nil (h : At dc_opt p []) : dc_opt p = 255 := h.head rfl

/-- The octets in front of the end octet. -/
def size (fs : List Field) : Nat := (area fs).length - 1

theorem size_nil : size [] = 0 := rfl

theorem size_pad : size (.pad :: fs) = 1 + size fs := by
  simp [size, area, Field.octets]
  omega

theorem size_option : size (.option o :: fs) = 2 + o.value.length + size fs := by
  simp [size, area, Field.octets]
  omega

/-- The octet is the code that is looked for. -/
theorem getOptFrom_hit (h : p < eom) (hk : dc_opt p = key) :
    getOptFrom dc_opt eom key p = some (p + 2) := by
  rw [getOptFrom, if_pos h, if_pos hk]

/-- It is not, and the octet behind it is taken for the length of an option. -/
theorem getOptFrom_miss (h : p < eom) (hk : dc_opt p ≠ key) {n : Nat}
    (hn : (dc_opt (p + 1)).toNat = n) :
    getOptFrom dc_opt eom key p = getOptFrom dc_opt eom key (p + (2 + n)) := by
  have hp : p + 1 + (n + 1) = p + (2 + n) := by omega
  rw [getOptFrom, if_pos h, if_neg hk, hn, hp]

/-- The search is at its end. -/
theorem getOptFrom_end (h : eom ≤ p) : getOptFrom dc_opt eom key p = none := by
  rw [getOptFrom, if_neg (by omega)]

/-- Two pads: the second is taken for a length, which is 0. -/
theorem getOptFrom_pads (hkey : key ≠ 0) (ha : At dc_opt p (.pad :: .pad :: fs)) :
    At dc_opt (p + 2) fs ∧ getOptFrom dc_opt (p + size (.pad :: .pad :: fs)) key p =
      getOptFrom dc_opt (p + 2 + size fs) key (p + 2) := by
  obtain ⟨h0, ha⟩ := ha.pad
  obtain ⟨h1, ha⟩ := ha.pad
  have hlen : (dc_opt (p + 1)).toNat = 0 := by rw [h1]; rfl
  have heom : p + (1 + (1 + size fs)) = p + 2 + size fs := by omega
  refine ⟨ha, ?_⟩
  rw [size_pad, size_pad, heom, getOptFrom_miss (by omega) (h0 ▸ hkey.symm) hlen]

/-- An option with another code. -/
theorem getOptFrom_option (hk : (o.code : UInt8) ≠ key) (ha : At dc_opt p (.option o :: fs)) :
    At dc_opt (p + (2 + o.value.length)) fs ∧
      getOptFrom dc_opt (p + size (.option o :: fs)) key p =
        getOptFrom dc_opt (p + (2 + o.value.length) + size fs) key (p + (2 + o.value.length)) := by
  obtain ⟨hcode, hlen, ha⟩ := ha.option
  refine ⟨ha, ?_⟩
  rw [size_option, ← Nat.add_assoc p, getOptFrom_miss (by omega) (hcode ▸ hk) hlen]

/-- What is found stands behind the place where the search begins. -/
theorem le_of_getOptFrom {r : Nat} (h : getOptFrom dc_opt eom key p = some r) : p + 2 ≤ r := by
  induction p using getOptFrom.induct dc_opt eom key with
  | case1 p hlt hk =>
    rw [getOptFrom_hit hlt hk] at h
    exact (Option.some.inj h).le
  | case2 p hlt hk ih =>
    rw [getOptFrom, if_pos hlt, if_neg hk] at h
    have := ih h
    omega
  | case3 p hge =>
    rw [getOptFrom_end (by omega)] at h
    cases h

/-- Offsets add up. -/
theorem map_shift (r : Option Nat) (m n : Nat) :
    (r.map (n + ·)).map (m + ·) = r.map (m + n + ·) := by
  rw [Option.map_map]
  exact congrArg (r.map ·) (funext fun k => (Nat.add_assoc m n k).symm)

/-- Two pads in front move everything by two. -/
theorem firstValue_pads (key : UInt8) (fs : List Field) (p : Nat) :
    (firstValue key (.pad :: .pad :: fs)).map (p + ·) = (firstValue key fs).map (p + 2 + ·) := by
  rw [firstValue, firstValue, map_shift, map_shift]

/-- An option with another code moves it by the octets of that option. -/
theorem firstValue_option (hk : (o.code : UInt8) ≠ key) (fs : List Field) (p : Nat) :
    (firstValue key (.option o :: fs)).map (p + ·) =
      (firstValue key fs).map (p + (2 + o.value.length) + ·) := by
  rw [firstValue, if_neg hk, map_shift]

/-- **In step, the first option with the key is found**, and nothing if there is none. -/
theorem getOptFrom_inStep (hkey : key ≠ 0) (h : InStep (upTo key fs)) (ha : At dc_opt p fs) :
    getOptFrom dc_opt (p + size fs) key p = (firstValue key fs).map (p + ·) := by
  induction fs using InStep.induct generalizing p with
  | case1 =>
    rw [size_nil]
    exact getOptFrom_end le_rfl
  | case2 =>
    -- the end octet behind the pad is taken for a length
    obtain ⟨h0, ha⟩ := ha.pad
    have hlen : (dc_opt (p + 1)).toNat = 255 := by rw [ha.nil]; rfl
    rw [size_pad, size_nil, getOptFrom_miss (by omega) (h0 ▸ hkey.symm) hlen]
    exact getOptFrom_end (by omega)
  | case3 fs ih =>
    obtain ⟨ha, hget⟩ := getOptFrom_pads hkey ha
    rw [hget, firstValue_pads]
    exact ih h ha
  | case4 o fs => exact h.elim
  | case5 o fs ih =>
    by_cases hk : (o.code : UInt8) = key
    · rw [size_option, firstValue, if_pos hk]
      exact getOptFrom_hit (by omega) (ha.option.1.trans hk)
    · obtain ⟨ha, hget⟩ := getOptFrom_option hk ha
      rw [upTo, if_neg hk] at h
      rw [hget, firstValue_option hk]
      exact ih h ha

/-- **An option that is skipped is not found.** -/
theorem getOptFrom_skipped (hkey : key ≠ 0) (h : Skipped key fs) (ha : At dc_opt p fs) :
    getOptFrom dc_opt (p + size fs) key p ≠ (firstValue key fs).map (p + ·) := by
  induction fs using InStep.induct generalizing p with
  | case1 => exact h.elim
  | case2 => exact h.elim
  | case3 fs ih =>
    obtain ⟨ha, hget⟩ := getOptFrom_pads hkey ha
    rw [hget, firstValue_pads]
    exact ih h ha
  | case4 o fs =>
    -- the jump from the pad goes behind the code octet of the option
    obtain ⟨h0, ha⟩ := ha.pad
    have hcode : (o.code : UInt8) = key := h
    have hpos : (dc_opt (p + 1)).toNat ≠ 0 := by
      rw [ha.option.1]
      exact fun h0 => o.code.property.1 (UInt8.toNat_inj.mp h0)
    have hfirst : (firstValue key (.pad :: .option o :: fs)).map (p + ·) = some (p + 3) := by
      rw [firstValue, firstValue, if_pos hcode]
      rfl
    rw [size_pad, hfirst, getOptFrom_miss (by omega) (h0 ▸ hkey.symm) rfl]
    intro hfound
    have := le_of_getOptFrom hfound
    omega
  | case5 o fs ih =>
    obtain ⟨hk, h⟩ := h
    obtain ⟨ha, hget⟩ := getOptFrom_option hk ha
    rw [hget, firstValue_option hk]
    exact ih h ha

end Readers

/-! ## 4. The loop of `getlocalip`

It goes through the area as `dhcp_get_opt_val` does but does not stop at an option, so that of two
options with one code it takes the last one. -/

/-- The options that the loop takes. -/
inductive Taken
  | messageType
  | subnetMask
  | router
  | dnsServer
  | ntpServer
deriving DecidableEq, Repr

def Taken.code : Taken → UInt8
  | .messageType => 53
  | .subnetMask => 1
  | .router => 3
  | .dnsServer => 6
  | .ntpServer => 42

/-- What is taken from a value. -/
def Taken.take (t : Taken) (dc_opt : Octets) (value : Nat) : Nat :=
  match t with
  | .messageType => (dc_opt value).toNat
  | _ => htonl (word32 dc_opt value)

/-- What is taken from a value, if there is one; the variables are 0 at first. -/
def Taken.of (t : Taken) (dc_opt : Octets) (value : Option Nat) : Nat :=
  (value.map (t.take dc_opt)).getD 0

def Scan.get (s : Scan) : Taken → Nat
  | .messageType => s.msgtype
  | .subnetMask => s.addrmask
  | .router => s.routeraddr
  | .dnsServer => s.dnsaddr
  | .ntpServer => s.ntpaddr

section Scanning

variable {dc_opt : Octets} {p eop : Nat} {fs : List Field} {s : Scan} {t : Taken}

/-- One round of the loop sets the variable of the code that it sees, and no other. -/
theorem Scan.get_read (s : Scan) (dc_opt : Octets) (p : Nat) (t : Taken) :
    (s.read dc_opt p).get t =
      if dc_opt p = t.code then t.take dc_opt (p + 2) else s.get t := by
  by_cases h : dc_opt p = t.code
  · rw [if_pos h]
    cases t <;> simp only [Taken.code] at h <;> simp [Scan.read, h, Scan.get, Taken.take]
  · rw [if_neg h, Scan.read]
    split_ifs with h1 h2 h3 h4 h5
    all_goals first | rfl | (cases t <;> simp_all [Scan.get, Taken.code])

/-- None of the codes is that of a pad. -/
theorem Taken.code_ne_zero (t : Taken) : t.code ≠ 0 := by
  cases t <;> decide

/-- One round. -/
theorem scanFrom_step (h : p < eop) {n : Nat} (hn : (dc_opt (p + 1)).toNat = n) :
    scanFrom dc_opt eop p s = scanFrom dc_opt eop (p + (2 + n)) (s.read dc_opt p) := by
  have hp : p + 1 + (n + 1) = p + (2 + n) := by omega
  rw [scanFrom, if_pos h, hn, hp]

/-- The loop is at its end. -/
theorem scanFrom_end (h : eop ≤ p) : scanFrom dc_opt eop p s = s := by
  rw [scanFrom, if_neg (by omega)]

/-- A pad is none of the options. -/
theorem get_read_pad (h : dc_opt p = 0) : (s.read dc_opt p).get t = s.get t := by
  rw [Scan.get_read, if_neg (h ▸ t.code_ne_zero.symm)]

/-- **In step, the last option with a code is taken.** -/
theorem scanFrom_inStep (h : InStep fs) (ha : At dc_opt p fs) :
    (scanFrom dc_opt (p + size fs) p s).get t =
      ((lastValue t.code fs).map fun v => t.take dc_opt (p + v)).getD (s.get t) := by
  induction fs using InStep.induct generalizing p s with
  | case1 =>
    rw [size_nil, scanFrom_end (by omega)]
    rfl
  | case2 =>
    obtain ⟨h0, ha⟩ := ha.pad
    have hlen : (dc_opt (p + 1)).toNat = 255 := by rw [ha.nil]; rfl
    rw [size_pad, size_nil, scanFrom_step (by omega) hlen, scanFrom_end (by omega),
      get_read_pad h0]
    rfl
  | case3 fs ih =>
    obtain ⟨h0, ha⟩ := ha.pad
    obtain ⟨h1, ha⟩ := ha.pad
    have hlen : (dc_opt (p + 1)).toNat = 0 := by rw [h1]; rfl
    have heop : p + (1 + (1 + size fs)) = p + (2 + 0) + size fs := by omega
    rw [size_pad, size_pad, scanFrom_step (by omega) hlen, heop, ih h ha, get_read_pad h0,
      lastValue, lastValue, map_shift, Option.map_map]
    congr 2
    funext v
    simp only [Function.comp_apply, Nat.add_assoc]
  | case4 o fs => exact h.elim
  | case5 o fs ih =>
    obtain ⟨hcode, hlen, ha⟩ := ha.option
    rw [size_option, scanFrom_step (by omega) hlen, ← Nat.add_assoc p, ih h ha, Scan.get_read,
      hcode, lastValue]
    cases lastValue t.code fs with
    | some v => simp only [Option.map_some, Option.getD_some, Option.some_or, Nat.add_assoc]
    | none =>
      simp only [Option.map_none, Option.getD_none, Option.none_or]
      split_ifs <;> rfl

end Scanning

/-! ## 5. The writers

Both begin with the message type, a pad, and an option behind it, so that one lemma says for both
what can be read back. -/

section Writers

/-- What stands at an offset after a copy. -/
theorem Area.copy_octet (a : Area) (l : List UInt8) (i : Nat) :
    (a.copy l).dc_opt i = if a.j ≤ i then l[i - a.j]?.getD (a.dc_opt i) else a.dc_opt i := by
  induction l generalizing a with
  | nil => simp [Area.copy]
  | cons c l ih =>
    rw [Area.copy, List.foldl_cons, ← Area.copy, ih, Area.put]
    by_cases hi : a.j = i
    · subst hi
      simp
    · by_cases hle : a.j ≤ i
      · obtain ⟨k, rfl⟩ : ∃ k, i = a.j + 1 + k := ⟨i - (a.j + 1), by omega⟩
        have hk : a.j + 1 + k - a.j = k + 1 := by omega
        simp only [hk, hle, if_true, Nat.le_add_right, Nat.add_sub_cancel_left,
          List.getElem?_cons_succ, Function.update_of_ne (Ne.symm hi)]
      · have hle' : ¬ a.j + 1 ≤ i := by omega
        simp only [hle, hle', if_false, Function.update_of_ne (Ne.symm hi)]

/-- An area that is written from `dc_opt` on. -/
theorem at_copy (dc_opt : Octets) (fs : List Field) :
    At ((⟨dc_opt, 0⟩ : Area).copy (area fs)).dc_opt 0 fs := by
  intro i c hi
  rw [Area.copy_octet, if_pos (by simp), Nat.zero_add, Nat.sub_zero, hi, Option.getD_some]

def messageType (n : UInt8) : DhcpOption := ⟨⟨53, by decide⟩, [n], by simp⟩

def parameterList : DhcpOption := ⟨⟨55, by decide⟩, [1, 3], by decide⟩

def requestedIp (dmsg_offer : Dhcpmsg) : DhcpOption :=
  ⟨⟨50, by decide⟩, bytes32 dmsg_offer.dc_yip, by simp [bytes32]⟩

def serverId (dmsg_offer : Dhcpmsg) (server_ip : Nat) : DhcpOption :=
  ⟨⟨54, by decide⟩, octets4 dmsg_offer.dc_opt server_ip, by simp [octets4]⟩

/-- The fields that `dhcp_bld_disc` writes. -/
def discFields : List Field := [.option (messageType 1), .pad, .option parameterList]

/-- The fields that `dhcp_bld_req` writes. -/
def reqFields (dmsg_offer : Dhcpmsg) (server_ip : Nat) : List Field :=
  [.option (messageType 3), .pad, .option (requestedIp dmsg_offer),
    .option (serverId dmsg_offer server_ip)]

variable {ethucast : Ethucast} {dmsg dmsg_offer : Dhcpmsg} {n server_ip : Nat}

/-- The area of a discovery, as one copy. -/
theorem disc_eq : dhcp_bld_disc ethucast dmsg =
    ({ dhcp_bld_bootp_msg ethucast dmsg with
        dc_opt := ((⟨(dhcp_bld_bootp_msg ethucast dmsg).dc_opt, 0⟩ : Area).copy
          (area discFields)).dc_opt }, ((sizeWith discFields + 1 : Nat) : Int)) := rfl

/-- The area of a request, as one copy, when the offer names its server. -/
theorem req_eq (h : dhcp_get_opt_val dmsg_offer n DHCP_SERVER_ID = some server_ip) :
    dhcp_bld_req ethucast dmsg dmsg_offer n =
      ({ dhcp_bld_bootp_msg ethucast dmsg with
          dc_sip := dmsg_offer.dc_sip
          dc_opt := ((⟨(dhcp_bld_bootp_msg ethucast dmsg).dc_opt, 0⟩ : Area).copy
            (area (reqFields dmsg_offer server_ip))).dc_opt },
        ((sizeWith (reqFields dmsg_offer server_ip) + 1 : Nat) : Int)) := by
  rw [dhcp_bld_req, h]
  rfl

/-- With one pad behind the first option, only that option is found: the search goes on behind the
message if the code of the second one is not small. -/
theorem getOptFrom_behind_pad {dc_opt : Octets} {o o' : DhcpOption} {fs : List Field} {eom : Nat}
    {key : UInt8} (ha : At dc_opt 0 (.option o :: .pad :: .option o' :: fs)) (hpos : 0 < eom)
    (hfar : eom ≤ 2 + o.value.length + (2 + o'.code.val.toNat)) (hkey : key ≠ 0) :
    getOptFrom dc_opt eom key 0 = if o.code = key then some 2 else none := by
  obtain ⟨hcode, hlen, ha⟩ := ha.option
  obtain ⟨h0, ha⟩ := ha.pad
  split_ifs with hk
  · exact getOptFrom_hit hpos (hcode.trans hk)
  · rw [getOptFrom_miss hpos (hcode ▸ hk) hlen]
    by_cases hin : 0 + (2 + o.value.length) < eom
    · rw [getOptFrom_miss hin (h0 ▸ hkey.symm) rfl, ha.option.1]
      exact getOptFrom_end (by omega)
    · exact getOptFrom_end (by omega)

/-- An option of a message is found, with its length and its value. -/
def ReadBack (message : Dhcpmsg × Int) (o : DhcpOption) : Prop :=
  ∃ value, dhcp_get_opt_val message.1 message.2.toNat o.code = some value ∧
    (message.1.dc_opt (value - 1)).toNat = o.value.length ∧
    ∀ i c, o.value[i]? = some c → message.1.dc_opt (value + i) = c

/-- Of a message that begins in this way the first option is read back, and no other.  The length
counts one octet behind the end octet. -/
theorem readBack_iff {dmsg : Dhcpmsg} (o o' : DhcpOption) (fs : List Field)
    (ha : At dmsg.dc_opt 0 (.option o :: .pad :: .option o' :: fs))
    (hfar : (area (.option o :: .pad :: .option o' :: fs)).length ≤
      2 + o.value.length + (2 + o'.code.val.toNat))
    (p : DhcpOption) (hp : p.code = o.code → p = o) :
    ReadBack (dmsg, ((sizeWith (.option o :: .pad :: .option o' :: fs) + 1 : Nat) : Int)) p ↔
      p.code.val = o.code.val := by
  have heom : ((sizeWith (.option o :: .pad :: .option o' :: fs) + 1 : Nat) : Int).toNat - 1 -
      optOffset = (area (.option o :: .pad :: .option o' :: fs)).length := by
    rw [Int.toNat_natCast, sizeWith]
    omega
  have hpos : 0 < (area (.option o :: .pad :: .option o' :: fs)).length := Nat.zero_lt_succ _
  have hget : dhcp_get_opt_val dmsg
      ((sizeWith (.option o :: .pad :: .option o' :: fs) + 1 : Nat) : Int).toNat p.code =
        if o.code.val = p.code then some 2 else none := by
    rw [dhcp_get_opt_val, heom]
    exact getOptFrom_behind_pad ha hpos hfar p.code.property.1
  constructor
  · rintro ⟨value, hvalue, -⟩
    by_contra hne
    rw [hget, if_neg fun e => hne e.symm] at hvalue
    cases hvalue
  · intro hcode
    obtain rfl := hp (Subtype.ext hcode)
    refine ⟨2, hget.trans (if_pos rfl), ?_, fun i c hi => ?_⟩
    · have := ha.option.2.1
      rwa [Nat.zero_add] at this
    · have := ha (2 + i) c ?_
      · rwa [Nat.zero_add] at this
      · have hlt := (List.getElem?_eq_some_iff.mp hi).1
        rw [area_option, List.getElem?_append_left (by simp only [List.length_cons]; omega),
          Nat.add_comm 2 i]
        exact hi

end Writers

/-! ## 6. What is read

The readers are compared with `firstValue` for every key, and the two together where no code is
there twice. -/

/-- `dhcp_get_opt_val` returns the value of the first option with the key, and `NULL` if there is
none. -/
def ReadsFirst (dmsg : Dhcpmsg) (fs : List Field) (behind : Octets) (key : Code) : Prop :=
  dhcp_get_opt_val (holding dmsg fs behind) (sizeWith fs) key = firstValue key fs

/-- The loop of `getlocalip` takes the same. -/
def TakesFirst (dmsg : Dhcpmsg) (fs : List Field) (behind : Octets) (t : Taken) : Prop :=
  (scanOptions (holding dmsg fs behind) (sizeWith fs)).get t =
    t.of (holding dmsg fs behind).dc_opt (firstValue t.code fs)

section Reading

variable {fs : List Field} {key : Code}

/-- The fields of an area stand at its beginning. -/
theorem at_holding (dmsg : Dhcpmsg) (fs : List Field) (behind : Octets) :
    At (holding dmsg fs behind).dc_opt 0 fs := by
  intro i c hi
  rw [Nat.zero_add]
  simp only [holding, hi, Option.getD_some]

/-- `eom` is in front of the end octet. -/
theorem eom_holding (fs : List Field) : sizeWith fs - 1 - optOffset = 0 + size fs := by
  rw [sizeWith, size]
  omega

/-- **In step up to the option, a key is read right.** -/
theorem readsFirst_of_inStep (dmsg : Dhcpmsg) (behind : Octets) (h : InStep (upTo key fs)) :
    ReadsFirst dmsg fs behind key := by
  have := getOptFrom_inStep key.property.1 h (at_holding dmsg fs behind)
  rw [ReadsFirst, dhcp_get_opt_val, eom_holding, this]
  simp

/-- **An option behind an odd run of pads is not found.** -/
theorem not_readsFirst_of_skipped (dmsg : Dhcpmsg) (behind : Octets) (h : Skipped key fs) :
    ¬ ReadsFirst dmsg fs behind key := by
  have := getOptFrom_skipped key.property.1 h (at_holding dmsg fs behind)
  rw [ReadsFirst, dhcp_get_opt_val, eom_holding]
  simpa using this

/-- In step, the two readers agree about a code if the first and the last option with it have one
value. -/
theorem takesFirst_iff (dmsg : Dhcpmsg) (behind : Octets) (t : Taken) (h : InStep fs) :
    TakesFirst dmsg fs behind t ↔
      t.of (holding dmsg fs behind).dc_opt (lastValue t.code fs) =
        t.of (holding dmsg fs behind).dc_opt (firstValue t.code fs) := by
  have hscan : (scanOptions (holding dmsg fs behind) (sizeWith fs)).get t =
      t.of (holding dmsg fs behind).dc_opt (lastValue t.code fs) := by
    rw [scanOptions, eom_holding, scanFrom_inStep h (at_holding dmsg fs behind), Taken.of]
    have hzero : (⟨0, 0, 0, 0, 0⟩ : Scan).get t = 0 := by cases t <;> rfl
    simp only [Nat.zero_add, hzero]
  rw [TakesFirst, hscan]

/-- An area in step is in step up to any option. -/
theorem inStep_upTo (key : UInt8) (h : InStep fs) : InStep (upTo key fs) := by
  induction fs using InStep.induct with
  | case1 => trivial
  | case2 => trivial
  | case3 fs ih => exact ih h
  | case4 o fs => exact h.elim
  | case5 o fs ih =>
    rw [upTo]
    split_ifs
    · trivial
    · exact ih h

/-- The codes of the options. -/
def codes : List Field → List Code
  | [] => []
  | .pad :: fs => codes fs
  | .option o :: fs => o.code :: codes fs

/-- If no code is there twice, an option out of step is skipped. -/
theorem exists_skipped (hnd : (codes fs).Nodup) (h : ¬ InStep fs) :
    ∃ key ∈ codes fs, Skipped key fs := by
  induction fs using InStep.induct with
  | case1 => exact absurd trivial h
  | case2 => exact absurd trivial h
  | case3 fs ih => exact ih hnd h
  | case4 o fs => exact ⟨o.code, List.mem_cons_self, rfl⟩
  | case5 o fs ih =>
    obtain ⟨hnot, hnd⟩ := List.nodup_cons.mp hnd
    obtain ⟨key, hkey, hskip⟩ := ih hnd h
    refine ⟨key, List.mem_cons_of_mem _ hkey, fun e => hnot ?_, hskip⟩
    exact Subtype.ext e ▸ hkey

end Reading

/-- **Where no code is there twice, every key is read right exactly if the area is in step.** -/
theorem readsFirst_all_iff (dmsg : Dhcpmsg) (fs : List Field) (behind : Octets)
    (hnd : (codes fs).Nodup) : (∀ key, ReadsFirst dmsg fs behind key) ↔ InStep fs := by
  constructor
  · intro h
    by_contra hout
    obtain ⟨key, -, hskip⟩ := exists_skipped hnd hout
    exact not_readsFirst_of_skipped dmsg behind hskip (h key)
  · intro h key
    exact readsFirst_of_inStep dmsg behind (inStep_upTo key h)

/-- Out of step, another key may be found by accident: here the length that is taken from the code 5
leads to the option behind. -/
example : dhcp_get_opt_val
    (holding default [.pad, .option ⟨⟨5, by decide⟩, [10, 0, 0, 1], by decide⟩,
      .option ⟨⟨1, by decide⟩, [255, 255, 255, 0], by decide⟩] fun _ => 0) 254 1 = some 9 := by
  rw [dhcp_get_opt_val, getOptFrom_miss (by decide) (by decide) rfl]
  exact getOptFrom_hit (by decide) rfl

/-- **Of a discovery only the message type is read back.** -/
theorem disc_readBack (ethucast : Ethucast) (dmsg : Dhcpmsg) (o : DhcpOption)
    (ho : .option o ∈ discFields) : ReadBack (dhcp_bld_disc ethucast dmsg) o ↔ o.code.val = 53 := by
  rw [disc_eq]
  refine readBack_iff (messageType 1) parameterList [] (at_copy _ discFields) (by decide) o ?_
  simp only [discFields, List.mem_cons, Field.option.injEq, reduceCtorEq, List.not_mem_nil,
    or_false, false_or] at ho
  rcases ho with rfl | rfl
  · exact fun _ => rfl
  · exact fun e => absurd e (by decide)

/-- So it is for a request. -/
theorem req_readBack (ethucast : Ethucast) (dmsg dmsg_offer : Dhcpmsg) (n server_ip : Nat)
    (h : dhcp_get_opt_val dmsg_offer n DHCP_SERVER_ID = some server_ip) (o : DhcpOption)
    (ho : .option o ∈ reqFields dmsg_offer server_ip) :
    ReadBack (dhcp_bld_req ethucast dmsg dmsg_offer n) o ↔ o.code.val = 53 := by
  have h50 : (50 : UInt8) ≠ 53 := by decide
  have h54 : (54 : UInt8) ≠ 53 := by decide
  have hfar : (area (reqFields dmsg_offer server_ip)).length ≤ 2 + 1 + (2 + 50) := by
    simp [reqFields, area, Field.octets, messageType, requestedIp, serverId, bytes32, octets4]
  rw [req_eq h]
  refine readBack_iff (messageType 3) (requestedIp dmsg_offer)
    [.option (serverId dmsg_offer server_ip)] (at_copy _ (reqFields dmsg_offer server_ip)) hfar o ?_
  simp only [reqFields, List.mem_cons, Field.option.injEq, reduceCtorEq, List.not_mem_nil,
    or_false, false_or] at ho
  rcases ho with rfl | rfl | rfl
  · exact fun _ => rfl
  · exact fun e => absurd (congrArg Subtype.val e) h50
  · exact fun e => absurd (congrArg Subtype.val e) h54

/-- **What the readers make of an option area.**  `dhcp_get_opt_val` is right for a key if no odd
run of pads stands in front of an option, up to the first one with the key, and wrong if such a run
stands in front of that one and of none before it; where no code is there twice it is right for
every key exactly if the area is in step.  In step, the loop of `getlocalip` takes the last option
for the first.  Of what is written, only option 53 is read back. -/
theorem options_read (dmsg dmsg_offer : Dhcpmsg) (fs : List Field) (behind : Octets) (key : Code)
    (t : Taken) (ethucast : Ethucast) (n server_ip : Nat) (o : DhcpOption) :
    (InStep (upTo key fs) → ReadsFirst dmsg fs behind key) ∧
    (Skipped key fs → ¬ ReadsFirst dmsg fs behind key) ∧
    ((codes fs).Nodup → ((∀ key, ReadsFirst dmsg fs behind key) ↔ InStep fs)) ∧
    (InStep fs → (TakesFirst dmsg fs behind t ↔
      t.of (holding dmsg fs behind).dc_opt (lastValue t.code fs) =
        t.of (holding dmsg fs behind).dc_opt (firstValue t.code fs))) ∧
    (.option o ∈ discFields → (ReadBack (dhcp_bld_disc ethucast dmsg) o ↔ o.code.val = 53)) ∧
    (dhcp_get_opt_val dmsg_offer n DHCP_SERVER_ID = some server_ip →
      .option o ∈ reqFields dmsg_offer server_ip →
        (ReadBack (dhcp_bld_req ethucast dmsg dmsg_offer n) o ↔ o.code.val = 53)) :=
  ⟨readsFirst_of_inStep dmsg behind, not_readsFirst_of_skipped dmsg behind,
    readsFirst_all_iff dmsg fs behind, takesFirst_iff dmsg behind t, disc_readBack ethucast dmsg o,
    fun h => req_readBack ethucast dmsg dmsg_offer n server_ip h o⟩

/-- A subnet mask. -/
def maskOption : DhcpOption := ⟨⟨1, by decide⟩, [255, 255, 255, 0], by decide⟩

/-- Behind two pads a mask is found. -/
theorem options_read_padded_mask : ReadsFirst default [.pad, .pad, .option maskOption] (fun _ => 0)
    maskOption.code :=
  (options_read default default _ _ maskOption.code .subnetMask (Vector.replicate 6 0) 0 0
    maskOption).1 trivial

/-- The mask behind one pad is not found. -/
theorem mask_behind_pad : ¬ ∀ dmsg fs behind key, ReadsFirst dmsg fs behind key := by
  intro h
  have hskip : Skipped maskOption.code [.pad, .option maskOption] := rfl
  exact not_readsFirst_of_skipped default (fun _ => 0) hskip (h _ _ _ _)

end Xinu.Dhcp
