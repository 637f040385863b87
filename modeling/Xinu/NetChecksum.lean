/-
# The IP and ICMP checksums

`ipcksum` and `icmp_cksum` add the words of a header or a message in 32 bits and then fold the carry
back ONCE.  The fold can produce a carry of its own, which is lost.  So the result is the Internet
checksum exactly when the first fold leaves no carry; for `icmp_cksum` there are two more
conditions, that an odd last byte is not taken for a negative number and that the sum fits 32 bits.

Where the condition holds, a header or message that was sent verifies, and an ICMP message that was
altered in one word does not.

Both functions are compared with the one's-complement sum of the library.  The words they add are
a natural number `t` below a bound, and adding the carry once is right or wrong depending on `t`
alone; so each exact condition is a statement about one number.
-/
import Xinu.Ip
import Xinu.Lib.OnesComplement

namespace Xinu.Net

open OnesComplement

/-! ## 1. The loop

Both functions have the same loop, which adds 16-bit words in 32 bits. -/

/-- **The loop adds the words**, modulo `2 ^ 32`. -/
theorem addWords_eq {buf : List UInt8} (n : Nat) :
    ∀ {ptr c : Nat}, ptr + 2 * n ≤ buf.length → c < 4294967296 →
      addWords buf n ptr c =
        some (ptr + 2 * n, (c + total ((buf.drop ptr).take (2 * n))) % 4294967296) := by
  induction n with
  | zero =>
    intro ptr c _ hc
    simp [addWords, Nat.mod_eq_of_lt hc]
  | succ n ih =>
    intro ptr c h hc
    have h0 : ptr + 1 < buf.length := by omega
    rw [addWords, load16_eq h0, Option.bind_eq_bind, Option.bind_some,
      ih (by omega) (Nat.mod_lt _ (by norm_num)), htons_bytes (UInt8.toNat_lt _) (UInt8.toNat_lt _)]
    have hd : (buf.drop ptr).take (2 * (n + 1)) =
        buf[ptr] :: buf[ptr + 1] :: (buf.drop (ptr + 2)).take (2 * n) := by
      rw [List.drop_eq_getElem_cons (by omega), List.drop_eq_getElem_cons h0,
        show 2 * (n + 1) = 2 * n + 1 + 1 by ring, List.take_succ_cons, List.take_succ_cons]
    rw [hd, total_cons_cons]
    simp only [Option.some.injEq, Prod.mk.injEq]
    omega

/-- The low 16 bits of the sum with its carry added once. -/
theorem carry_once {s : Nat} : (s + s / 65536) % 4294967296 % 65536 = fold s % 65536 := by
  unfold fold
  omega

/-! ## 2. The IP header

Ten words cannot overflow 32 bits.  The header that is sent is the one whose sum was computed,
with the result in place of zero, so a receiver that adds all words gets all ones. -/

/-- The twenty bytes of the IP header. -/
def header (p : Packet) : List UInt8 := (p.drop net_ipvh).take IP_HDR_LEN

/-- A header with zero for its checksum. -/
def clearHeader (h : List UInt8) : List UInt8 := (h.set 10 0).set 11 0

theorem clearHeader_idem (h : List UInt8) : clearHeader (clearHeader h) = clearHeader h := by
  simp [clearHeader, List.set_comm]

/-- What `ipcksum` returns for words of the ordinary sum `t`. -/
def ipResult (t : Nat) : Nat := if fold t % 65536 = 0 then 0 else 65535 - fold t % 65536

theorem ipcksum_eq {p : Packet} (h : 34 ≤ p.length) :
    ipcksum p = some (ipResult (total (header p))) := by
  have ht : total (header p) < 4294967296 := by
    have hl := total_le (header p)
    have : (header p).length ≤ 20 := List.length_take_le _ _
    omega
  have hw : addWords p 10 net_ipvh 0 = some (net_ipvh + 2 * 10, total (header p)) := by
    rw [addWords_eq 10 h (by norm_num), zero_add]
    exact congrArg (fun t => some (net_ipvh + 2 * 10, t)) (Nat.mod_eq_of_lt ht)
  have hlt := Nat.mod_lt (fold (total (header p))) (show 65536 > 0 by norm_num)
  simp only [ipcksum, hw, Option.bind_eq_bind, Option.bind_some, carry_once, ipResult]
  split_ifs <;> first | rfl | omega

theorem ipResult_le (t : Nat) : ipResult t ≤ 65535 := by
  unfold ipResult
  split_ifs <;> omega

/-- **The code's result is the complement of the sum exactly when one fold is enough.** -/
theorem ipResult_eq_iff {t : Nat} (h0 : 0 < t) (h : t < 4294967296) :
    ipResult t = 65535 - reduce t ↔ fold t < 65536 := by
  have hle := reduce_le t
  have hpos : 0 < reduce t := by
    unfold reduce
    split_ifs <;> omega
  have hm := Nat.mod_lt (fold t) (show 65536 > 0 by norm_num)
  rw [← fold_mod_eq_reduce_iff h]
  unfold ipResult
  split_ifs with h1
  · constructor
    · intro he
      -- all ones would be the sum; but the fold left zero
      exfalso
      have hr := reduce_mod t
      have hf := fold_mod t
      have hf2 : fold t ≤ 131070 := by
        unfold fold
        omega
      have hf3 : 0 < fold t := by
        unfold fold
        omega
      omega
    · intro he
      omega
  · constructor
    · intro he
      omega
    · intro he
      omega

/-- The word that is stored makes the sum all ones. -/
theorem verifies_ipResult {t : Nat} (h0 : 0 < t) (hf : fold t < 65536) :
    0 < t + ipResult t ∧ (t + ipResult t) % 65535 = 0 := by
  have hm := fold_mod t
  have hpos : 0 < fold t := by
    unfold fold
    omega
  unfold ipResult
  rw [Nat.mod_eq_of_lt hf, if_neg (by omega)]
  omega

/-- A store of a word at an even place changes two bytes of the header. -/
theorem header_set (p : Packet) (b c : UInt8) :
    header ((p.set net_ipcksum b).set (net_ipcksum + 1) c) = ((header p).set 10 b).set 11 c := by
  unfold header
  rw [List.drop_set, if_neg (by decide), List.drop_set, if_neg (by decide), List.take_set,
    List.take_set]
  rfl

/-- **The header that `ip_out` sends** is the one it computed the checksum of, with the result in
its field. -/
theorem ip_out_header {p : Packet} {frame : List UInt8} (h : ip_out p = some frame)
    (hlen : (header frame).length = 20) :
    ∃ r c, 34 ≤ r.length ∧ ipcksum r = some c ∧ header r = clearHeader (header frame) ∧
      header frame = ((header r).set 10 (UInt8.ofNat (htons c))).set 11
        (UInt8.ofNat (htons c / 256)) := by
  simp only [ip_out, Option.bind_eq_bind, Option.bind_eq_some_iff, Option.ite_none_right_eq_some,
    Option.some.injEq] at h
  obtain ⟨iplen, -, p₁, -, p₂, -, r, hr, c, hc, r', hr', r'', hr'', hle, rfl⟩ := h
  have hlong : 34 ≤ iplen + ETH_HDR_LEN := by
    rw [header, List.length_take, List.length_drop, List.length_take] at hlen
    unfold net_ipvh at hlen
    omega
  obtain ⟨tr, hr0⟩ := store16_touched hr
  obtain ⟨tr', hr0'⟩ := store16_touched hr'
  obtain ⟨tr'', -⟩ := of_swap16 hr''
  have hr34 : 34 ≤ r.length := by
    rw [← tr'.length, ← tr''.length]
    omega
  have hhead : header (r''.take (iplen + ETH_HDR_LEN)) = header r' := by
    rw [header, List.drop_take, List.take_take, min_eq_left (Nat.le_sub_of_add_le hlong)]
    exact congrArg (List.take 20) (tr''.drop (by decide))
  rw [store16_eq hr0', Option.some.injEq] at hr'
  rw [store16_eq hr0, Option.some.injEq] at hr
  have h1 : header r = ((header p₂).set 10 0).set 11 0 := by
    rw [← hr, header_set]
    rfl
  have h2 : header r' = ((header r).set 10 (UInt8.ofNat (htons c))).set 11
      (UInt8.ofNat (htons c / 256)) := by rw [← hr', header_set]
  refine ⟨r, c, hr34, hc, ?_, by rw [hhead, h2]⟩
  rw [hhead, h2, h1, clearHeader]
  simp [List.set_comm]

theorem total_header_pos {p : Packet} (hp : 34 ≤ p.length) (hv : p[net_ipvh]? = some 0x45) :
    0 < total (header p) ∧ total (header p) < 4294967296 := by
  have hl := total_le (header p)
  have : (header p).length ≤ 20 := List.length_take_le _ _
  refine ⟨?_, by omega⟩
  have h14 : 14 < p.length := by omega
  have h15 : 15 < p.length := by omega
  have hd : header p = p[14] :: p[15] :: ((p.drop 16).take 18) := by
    rw [header, List.drop_eq_getElem_cons h14, List.drop_eq_getElem_cons h15]
    rfl
  have hfirst : p[14].toNat = 69 := by
    rw [List.getElem?_eq_getElem h14, Option.some.injEq] at hv
    rw [hv]
    rfl
  rw [hd, total_cons_cons]
  omega

theorem checksum_header {p : Packet} (hp : 34 ≤ p.length) (hv : p[net_ipvh]? = some 0x45) :
    ipcksum p = some (checksum (header p)) ↔ fold (total (header p)) < 65536 := by
  obtain ⟨h0, ht⟩ := total_header_pos hp hv
  rw [ipcksum_eq hp, checksum_eq, Option.some.injEq, ipResult_eq_iff h0 ht]

/-- Where one fold is enough, the test of `ip_in` is the test of a correct receiver. -/
theorem ipcksum_zero_iff {p : Packet} (hp : 34 ≤ p.length)
    (hf : fold (total (header p)) < 65536) (h0 : 0 < total (header p)) :
    ipcksum p = some 0 ↔ Verifies (header p) := by
  have hm := fold_mod (total (header p))
  have hpos : 0 < fold (total (header p)) := by
    unfold fold
    omega
  rw [ipcksum_eq hp, Option.some.injEq, ipResult, Nat.mod_eq_of_lt hf, if_neg (by omega),
    verifies_iff, ← hm]
  constructor
  · intro h
    exact ⟨h0, by omega⟩
  · rintro ⟨-, h⟩
    omega

/-- **The IP checksum is right exactly when one fold of the carry is enough**: for a header, the
value of `ipcksum`, the frames that `ip_out` sends with this header around their checksum field, and
the test of `ip_in`. -/
theorem ip_checksum_right_iff (p : Packet) (hp : 34 ≤ p.length) (hv : p[net_ipvh]? = some 0x45) :
    (ipcksum p = some (checksum (header p)) ∧
      (∀ q frame, ip_out q = some frame → clearHeader (header frame) = header p →
        Verifies (header frame)) ∧
      (ipcksum p = some 0 ↔ Verifies (header p))) ↔
    fold (total (header p)) < 65536 := by
  constructor
  · rintro ⟨h, -, -⟩
    exact (checksum_header hp hv).mp h
  · intro hf
    obtain ⟨h0, -⟩ := total_header_pos hp hv
    refine ⟨(checksum_header hp hv).mpr hf, ?_, ipcksum_zero_iff hp hf h0⟩
    intro q frame hq hc
    have hlen : (header p).length = 20 := by
      rw [header, List.length_take, List.length_drop]
      unfold net_ipvh IP_HDR_LEN
      omega
    have hlen' : (header frame).length = 20 := by
      rw [← hc, clearHeader, List.length_set, List.length_set] at hlen
      exact hlen
    obtain ⟨r, c, hr, hcr, hhr, hframe⟩ := ip_out_header hq hlen'
    rw [ipcksum_eq hr, Option.some.injEq, hhr, hc] at hcr
    have hc16 : c < 65536 := by
      have := ipResult_le (total (header p))
      omega
    -- the field holds the checksum, high byte first
    obtain ⟨hhi, hlo⟩ := toNat_htons hc16
    have hzero : ((header r).set 10 0).set (10 + 1) 0 = header p := by
      have hi := clearHeader_idem (header frame)
      rw [hc] at hi
      rw [hhr, hc]
      exact hi
    have hlen'' : (header r).length = 20 := by rwa [hhr, hc]
    rw [verifies_iff, hframe, total_set (by norm_num) (by omega), hzero, hhi, hlo,
      show c / 256 * 256 + c % 256 = c by omega, ← hcr]
    exact verifies_ipResult h0 hf

/-- An ICMP packet from 192.168.1.100 to 192.168.1.2 with identification `0xf7f4`: the words of its
header add up to `0x3ffff`. -/
def carriesTwice : Packet :=
  List.replicate 12 0 ++ [0x08, 0x00,
    0x45, 0x00, 0x00, 0x54, 0xf7, 0xf4, 0x40, 0x00, 0xff, 0x01, 0x00, 0x00,
    0xc0, 0xa8, 0x01, 0x64, 0xc0, 0xa8, 0x01, 0x02]

theorem ip_checksum_right_iff_carriesTwice :
    (ipcksum carriesTwice = some (checksum (header carriesTwice)) ∧
      (∀ q frame, ip_out q = some frame → clearHeader (header frame) = header carriesTwice →
        Verifies (header frame)) ∧
      (ipcksum carriesTwice = some 0 ↔ Verifies (header carriesTwice))) ↔
    fold (total (header carriesTwice)) < 65536 :=
  ip_checksum_right_iff carriesTwice (by decide) (by decide)

/-- The second carry is lost: the code computes `0xfffd`, and the checksum is `0xfffc`. -/
theorem ipcksum_loses_carry :
    ipcksum carriesTwice = some 0xfffd ∧ checksum (header carriesTwice) = 0xfffc := by
  decide

/-! ## 3. ICMP messages

A message has any length, so the sum can pass 32 bits, and an odd last byte is added as a signed
character.  Each of the three things that can go wrong changes the sum by an amount that no
complement makes up for. -/

/-- An odd last byte that is negative as a `char`. -/
def LastNegative (bs : List UInt8) : Prop := bs.length % 2 = 1 ∧ 128 ≤ (bs.getLastD 0).toNat

instance (bs : List UInt8) : Decidable (LastNegative bs) := inferInstanceAs (Decidable (_ ∧ _))

/-- The 32-bit sum that `icmp_cksum` forms.  A negative byte, shifted, is `65536` less than it
should be. -/
def icmpSum (bs : List UInt8) : Nat :=
  (total bs + if LastNegative bs then 4294967296 - 65536 else 0) % 4294967296

/-- A message whose sum `icmp_cksum` forms rightly: the last byte counts as it should, the sum fits
32 bits, and one fold of its carry leaves none. -/
def OneFold (bs : List UInt8) : Prop :=
  ¬LastNegative bs ∧ total bs < 4294967296 ∧ fold (total bs) < 65536

instance (bs : List UInt8) : Decidable (OneFold bs) := inferInstanceAs (Decidable (_ ∧ _))

theorem total_concat {xs : List UInt8} (h : xs.length % 2 = 0) (b : UInt8) :
    total (xs ++ [b]) = total xs + b.toNat * 256 := by
  rw [total_append h, total_singleton]

theorem lastNegative_concat {xs : List UInt8} (h : xs.length % 2 = 0) {b : UInt8} :
    LastNegative (xs ++ [b]) ↔ 128 ≤ b.toNat := by
  have hlast : (xs ++ [b]).getLastD 0 = b := by simp
  have hodd : (xs ++ [b]).length % 2 = 1 := by
    rw [List.length_append, List.length_singleton]
    omega
  unfold LastNegative
  rw [hlast]
  exact and_iff_right hodd

theorem icmpSum_lt (bs : List UInt8) : icmpSum bs < 4294967296 := Nat.mod_lt _ (by norm_num)

theorem icmp_cksum_eq (bs rest : List UInt8) :
    icmp_cksum (bs ++ rest) bs.length = some (65535 - fold (icmpSum bs) % 65536) := by
  rcases Nat.mod_two_eq_zero_or_one bs.length with he | ho
  · have hk : ((bs.length : Int) / 2).toNat = bs.length / 2 := by omega
    have hodd : ¬(bs.length : Int) % 2 ≠ 0 := by omega
    have hn : ¬LastNegative bs := fun ⟨h1, _⟩ => by omega
    have htake : ((bs ++ rest).drop 0).take (2 * (bs.length / 2)) = bs := by
      rw [List.drop_zero, show 2 * (bs.length / 2) = bs.length by omega, List.take_left']
      rfl
    have hw := @addWords_eq (bs ++ rest) (bs.length / 2) 0 0
      (by rw [List.length_append]; omega) (by norm_num)
    rw [htake, zero_add, zero_add] at hw
    simp only [icmp_cksum, hk, hw, if_neg hodd, Option.bind_eq_bind, Option.bind_some, carry_once,
      icmpSum, if_neg hn, add_zero]
  · obtain ⟨xs, b, rfl⟩ : ∃ xs b, bs = xs ++ [b] := by
      rcases List.eq_nil_or_concat bs with rfl | ⟨xs, b, rfl⟩
      · simp at ho
      · exact ⟨xs, b, by simp⟩
    have hx : xs.length % 2 = 0 := by
      rw [List.length_append, List.length_singleton] at ho
      omega
    have hlen : ((xs ++ [b]).length : Int) = xs.length + 1 := by simp
    have hk : (((xs.length : Int) + 1) / 2).toNat = xs.length / 2 := by omega
    have hodd : ((xs.length : Int) + 1) % 2 ≠ 0 := by omega
    have htake : ((xs ++ [b] ++ rest).drop 0).take (2 * (xs.length / 2)) = xs := by
      rw [List.drop_zero, show 2 * (xs.length / 2) = xs.length by omega, List.append_assoc,
        List.take_left']
      rfl
    have hw := @addWords_eq (xs ++ [b] ++ rest) (xs.length / 2) 0 0
      (by simp only [List.length_append, List.length_singleton]; omega) (by norm_num)
    rw [htake, zero_add, zero_add, show 2 * (xs.length / 2) = xs.length by omega] at hw
    have hb : (xs ++ [b] ++ rest)[xs.length]? = some b := by simp
    have hsum : ((((total xs % 4294967296 : Nat) : Int) + char b * 256) % 4294967296).toNat =
        icmpSum (xs ++ [b]) := by
      have hb := b.toNat_lt
      rw [icmpSum, total_concat hx]
      unfold char
      by_cases h : b.toNat < 128
      · rw [if_pos h, if_neg (fun hl => by have := (lastNegative_concat hx).mp hl; omega)]
        omega
      · rw [if_neg h, if_pos ((lastNegative_concat hx).mpr (by omega))]
        omega
    simp only [icmp_cksum, hlen, hk, hw, if_pos hodd, hb, Option.bind_eq_bind, Option.bind_some,
      hsum, carry_once]

theorem OneFold.icmpSum {bs : List UInt8} (h : OneFold bs) : icmpSum bs = total bs := by
  rw [Net.icmpSum, if_neg h.1, add_zero, Nat.mod_eq_of_lt h.2.1]

/-- A negative last byte alone makes the sum large. -/
theorem LastNegative.total_ge {bs : List UInt8} (h : LastNegative bs) : 32768 ≤ total bs := by
  rcases List.eq_nil_or_concat bs with rfl | ⟨xs, b, rfl⟩
  · exact absurd h (by decide)
  · rw [List.concat_eq_append] at h ⊢
    have hx : xs.length % 2 = 0 := by
      have := h.1
      rw [List.length_append, List.length_singleton] at this
      omega
    have := (lastNegative_concat hx).mp h
    rw [total_concat hx]
    omega

/-- What one fold leaves of `u`, if it has the residue of `t`: at most one carry is lost. -/
theorem lost_carry {u r t : Nat} (hu : u < 4294967296) (hr : r % 65535 = t % 65535)
    (he : fold u % 65536 = r) :
    ∃ j : Int, ∃ k ≤ 1, (t : Int) = u - (k : Nat) + 65535 * j ∧ fold u < 65536 * (k + 1) := by
  have hf := fold_mod u
  have hle : fold u ≤ 131070 := by
    unfold fold
    omega
  refine ⟨(t - (u - (fold u / 65536 : Nat))) / 65535, fold u / 65536, by omega, ?_, by omega⟩
  omega

/-- A borrow from a small sum. -/
theorem fold_borrow {t : Nat} (ht : t < 65536) (h0 : 0 < t) :
    fold ((t + (4294967296 - 65536)) % 4294967296) % 65536 = t - 1 := by
  have h1 : (t + (4294967296 - 65536)) % 4294967296 = t + 65535 * 65536 := by omega
  have h2 : (t + 65535 * 65536) % 65536 = t := by omega
  have h3 : (t + 65535 * 65536) / 65536 = 65535 := by omega
  rw [h1, fold, h2, h3]
  omega

/-- **What `icmp_cksum` leaves is the one's-complement sum exactly under the three conditions.**  A
lost carry, a negative byte or a sum past 32 bits each change the residue modulo 65535. -/
theorem icmpSum_right_iff {bs : List UInt8} (hlen : bs.length < 2147483648) :
    fold (icmpSum bs) % 65536 = reduce (total bs) ↔ OneFold bs := by
  constructor
  · intro he
    have ht := total_le bs
    by_cases hn : LastNegative bs
    · have hge := hn.total_ge
      have hs : icmpSum bs = (total bs + (4294967296 - 65536)) % 4294967296 := by
        rw [icmpSum, if_pos hn]
      rcases Nat.lt_or_ge (total bs) 65536 with hsmall | hbig
      · rw [reduce_of_lt hsmall, hs, fold_borrow hsmall (by omega)] at he
        omega
      · obtain ⟨j, k, hk, hj, -⟩ := lost_carry (icmpSum_lt bs) (reduce_mod (total bs)) he
        interval_cases k <;> omega
    · have hs : icmpSum bs = total bs % 4294967296 := by rw [icmpSum, if_neg hn, add_zero]
      obtain ⟨j, k, hk, hj, hfold⟩ := lost_carry (icmpSum_lt bs) (reduce_mod (total bs)) he
      have ht32 : total bs < 4294967296 := by interval_cases k <;> omega
      rw [Nat.mod_eq_of_lt ht32] at hs
      have hk0 : k = 0 := by interval_cases k <;> omega
      rw [hs, hk0] at hfold
      exact ⟨hn, ht32, by omega⟩
  · intro h
    rw [h.icmpSum, fold_mod_eq_reduce_iff h.2.1]
    exact h.2.2

theorem icmp_checksum_iff {bs : List UInt8} (hlen : bs.length < 2147483648) :
    icmp_cksum bs bs.length = some (checksum bs) ↔ OneFold bs := by
  have h := icmp_cksum_eq bs []
  have hm := Nat.mod_lt (fold (icmpSum bs)) (show 65536 > 0 by norm_num)
  have hr := reduce_le (total bs)
  rw [List.append_nil] at h
  rw [h, checksum_eq, Option.some.injEq, ← icmpSum_right_iff hlen]
  constructor
  · intro he
    omega
  · intro he
    rw [he]

/-! ## 4. Messages that are sent

The message that `ip_out` sends carries the result in its field.  A receiver accepts it, and no
longer does when one word has been changed. -/

/-- What follows the IP header. -/
def message (frame : List UInt8) : List UInt8 := frame.drop net_ictype

/-- A message with zero for its checksum. -/
def clearMessage (m : List UInt8) : List UInt8 := (m.set 2 0).set 3 0

/-- The received packet passes the ICMP checksum test of `ip_in`. -/
def Passes (r : Packet) : Prop := ∃ q, ip_ntoh r = some q ∧ icmp_passes q = some true

theorem clearMessage_idem (m : List UInt8) : clearMessage (clearMessage m) = clearMessage m := by
  simp [clearMessage, List.set_comm]

/-- **The test of `ip_in`** is on as many bytes after the header as the length says. -/
theorem passes_iff {r : Packet} {m rest : List UInt8} (hdrop : r.drop net_ictype = m ++ rest)
    (hlen : net16 r net_iplen = some (IP_HDR_LEN + m.length)) (h34 : 34 ≤ r.length) :
    Passes r ↔ fold (icmpSum m) % 65536 = 65535 := by
  obtain ⟨q, hq⟩ := ip_ntoh_some h34
  obtain ⟨t, hl, -⟩ := of_ip_ntoh hq
  have hqd : q.drop net_ictype = m ++ rest := by rw [t.drop (by decide), hdrop]
  have hn : ((IP_HDR_LEN + m.length : Nat) : Int) - (IP_HDR_LEN : Nat) = m.length := by
    push_cast
    ring
  have hm := Nat.mod_lt (fold (icmpSum m)) (show 65536 > 0 by norm_num)
  have hp : icmp_passes q = some (65535 - fold (icmpSum m) % 65536 == 0) := by
    simp only [icmp_passes, hl, hlen, Option.bind_eq_bind, Option.bind_some, hqd, hn,
      icmp_cksum_eq]
  constructor
  · rintro ⟨q', hq', hpass⟩
    rw [hq, Option.some.injEq] at hq'
    rw [← hq', hp, Option.some.injEq, beq_iff_eq] at hpass
    omega
  · intro h
    refine ⟨q, hq, ?_⟩
    rw [hp, h]
    rfl

/-- A store of a word in the message. -/
theorem message_set (p : Packet) (b c : UInt8) :
    message ((p.set net_iccksum b).set (net_iccksum + 1) c) = ((message p).set 2 b).set 3 c := by
  unfold message
  rw [List.drop_set, if_neg (by decide), List.drop_set, if_neg (by decide)]
  rfl

theorem ip_out_icmp_message {p q : Packet} {n : Nat} (h : ip_out_icmp p = some q)
    (hlen : load16 p net_iplen = some (IP_HDR_LEN + n)) (hn : n ≤ (message q).length) :
    Touched p q 34 8 ∧ ∃ c, c = 65535 - fold (icmpSum (clearMessage ((message q).take n))) % 65536 ∧
      (message q).take n = ((clearMessage ((message q).take n)).set 2 (UInt8.ofNat (htons c))).set 3
        (UInt8.ofNat (htons c / 256)) := by
  simp only [ip_out_icmp, Option.bind_eq_bind, Option.bind_eq_some_iff] at h
  obtain ⟨a, ha, b, hb, iplen, hi, c, hc, hq⟩ := h
  obtain ⟨tb, hb0⟩ := store16_touched hb
  obtain ⟨tq, hq0⟩ := store16_touched hq
  have tab := (of_icmp_ntoh ha).trans tb (l := 34) (k := 8) (by decide) (by decide) (by decide)
    (by decide)
  have hset : (message q).take n = (((message b).take n).set 2 (UInt8.ofNat (htons c))).set 3
      (UInt8.ofNat (htons c / 256)) := by
    rw [store16_eq hq0, Option.some.injEq] at hq
    rw [← hq, message_set, List.take_set, List.take_set]
  -- the message the checksum is computed of has zero in the field
  have hzero : clearMessage ((message b).take n) = (message b).take n := by
    rw [store16_eq hb0, Option.some.injEq] at hb
    rw [← hb, message_set, List.take_set, List.take_set]
    exact clearMessage_idem _
  have hmb : clearMessage ((message q).take n) = (message b).take n := by
    rw [hset, ← hzero]
    simp [clearMessage, List.set_comm]
  refine ⟨tab.trans tq (by decide) (by decide) (by decide) (by decide), c, ?_, ?_⟩
  · rw [tab.load16 (by decide), hlen, Option.some.injEq] at hi
    have hsplit : b.drop net_ictype = (message b).take n ++ (message b).drop n :=
      (List.take_append_drop n (message b)).symm
    have hbl : ((message b).take n).length = n := by
      rw [List.length_take, min_eq_left]
      rw [message, List.length_drop] at hn ⊢
      rwa [tq.length] at hn
    have hlen' : (iplen : Int) - (IP_HDR_LEN : Nat) = ((message b).take n).length := by
      rw [hbl, ← hi]
      push_cast
      ring
    rw [hsplit, hlen', icmp_cksum_eq, Option.some.injEq] at hc
    rw [hmb, hc]
  · rw [hmb]
    exact hset

theorem net16_take {p : Packet} {n i : Nat} (h : i + 1 < n) : net16 (p.take n) i = net16 p i := by
  rw [net16, net16, List.getElem?_take_of_lt (by omega), List.getElem?_take_of_lt h]

/-- **The message that `ip_out` sends** is the one it computed the checksum of, with the result in
its field, and the length in the header is right. -/
theorem ip_out_message {p : Packet} {frame : List UInt8} (hp : load8 p net_ipproto = some IP_ICMP)
    (h : ip_out p = some frame) (hlen : 0 < (message frame).length) :
    34 ≤ frame.length ∧ net16 frame net_iplen = some (IP_HDR_LEN + (message frame).length) ∧
      ∃ c, c = 65535 - fold (icmpSum (clearMessage (message frame))) % 65536 ∧
        message frame = ((clearMessage (message frame)).set 2 (UInt8.ofNat (htons c))).set 3
          (UInt8.ofNat (htons c / 256)) := by
  simp only [ip_out, Option.bind_eq_bind, Option.bind_eq_some_iff, Option.ite_none_right_eq_some,
    Option.some.injEq] at h
  obtain ⟨iplen, hi, p₁, h₁, p₂, h₂, r, hr, _, _, r', hr', r'', hr'', hle, rfl⟩ := h
  have hfl : (r''.take (iplen + ETH_HDR_LEN)).length = iplen + 14 := by
    rw [List.length_take, min_eq_left hle]
  obtain ⟨n, hn0, rfl⟩ : ∃ n, 0 < n ∧ iplen = IP_HDR_LEN + n := by
    rw [message, List.length_drop, hfl] at hlen
    unfold net_ictype at hlen
    exact ⟨iplen - 20, by omega, by unfold IP_HDR_LEN; omega⟩
  have t₂ := of_ip_ntoh h₂
  obtain ⟨tr, -⟩ := store16_touched hr
  obtain ⟨tr', -⟩ := store16_touched hr'
  obtain ⟨tr'', -⟩ := of_swap16 hr''
  have t := (t₂.1.trans tr (l := 16) (k := 18) (by decide) (by decide) (by decide)
    (by decide)).trans tr' (l := 16) (k := 18) (by decide) (by decide) (by decide) (by decide)
  have hmsg : message (r''.take (IP_HDR_LEN + n + ETH_HDR_LEN)) = (message p₁).take n := by
    rw [message, List.drop_take, tr''.drop (by decide), t.drop (by decide), message]
    congr 1
    unfold IP_HDR_LEN ETH_HDR_LEN net_ictype
    omega
  have hproto : ip_out_proto p = ip_out_icmp p := by
    simp only [ip_out_proto, hp, Option.bind_eq_bind, Option.bind_some]
    rfl
  rw [hproto] at h₁
  have hn : n ≤ (message p₁).length := by
    rw [message, List.length_drop, ← t.length, ← tr''.length]
    unfold IP_HDR_LEN ETH_HDR_LEN at hle
    unfold net_ictype
    omega
  obtain ⟨t₁, hc⟩ := ip_out_icmp_message h₁ hi hn
  have hml : (message (r''.take (IP_HDR_LEN + n + ETH_HDR_LEN))).length = n := by
    rw [hmsg, List.length_take, min_eq_left hn]
  refine ⟨?_, ?_, ?_⟩
  · rw [hfl]
    unfold IP_HDR_LEN
    omega
  · have h16 : net16 r'' net_iplen = some (IP_HDR_LEN + n) := by
      rw [tr''.net16 (by decide), tr'.net16 (by decide), tr.net16 (by decide), t₂.2.2,
        t₁.load16 (by decide), hi]
    rw [hml, ← h16]
    refine net16_take ?_
    unfold IP_HDR_LEN ETH_HDR_LEN net_iplen
    omega
  · rw [hmsg]
    exact hc

theorem lastNegative_clear {m : List UInt8} (h : 8 ≤ m.length) :
    LastNegative (clearMessage m) ↔ LastNegative m := by
  have hlast : (clearMessage m).getLastD 0 = m.getLastD 0 := by
    rw [List.getLastD_eq_getLast?, List.getLastD_eq_getLast?, List.getLast?_eq_getElem?,
      List.getLast?_eq_getElem?, clearMessage, List.length_set, List.length_set,
      List.getElem?_set_ne (by omega), List.getElem?_set_ne (by omega)]
  unfold LastNegative
  rw [hlast, clearMessage, List.length_set, List.length_set]

/-- The sum of a message that carries its checksum is a multiple of `0xffff`. -/
theorem OneFold.sent {m : List UInt8} {c : Nat} (h : OneFold (clearMessage m)) (hlen : 8 ≤ m.length)
    (hc : c = 65535 - fold (Net.icmpSum (clearMessage m)) % 65536)
    (hm : m = ((clearMessage m).set 2 (UInt8.ofNat (htons c))).set 3
      (UInt8.ofNat (htons c / 256))) :
    ∃ k < 65536, total m = 65535 * (k + 1) := by
  obtain ⟨-, ht, hf⟩ := id h
  rw [h.icmpSum, Nat.mod_eq_of_lt hf] at hc
  obtain ⟨hhi, hlo⟩ := toNat_htons (x := c) (by omega)
  have hclear : ((clearMessage m).set 2 0).set (2 + 1) 0 = clearMessage m := clearMessage_idem m
  have hcl : (clearMessage m).length = m.length := by
    rw [clearMessage, List.length_set, List.length_set]
  have htot : total m = total (clearMessage m) + c := by
    conv_lhs => rw [hm]
    rw [total_set (by norm_num) (by omega), hclear, hhi, hlo]
    omega
  refine ⟨total (clearMessage m) / 65536, by omega, ?_⟩
  unfold fold at hc hf
  omega

theorem fold_multiple {k : Nat} (hk : k < 65536) : fold (65535 * (k + 1)) = 65535 := by
  have h1 : 65535 * (k + 1) = 65536 * k + (65535 - k) := by omega
  unfold fold
  omega

/-- A carry that is lost leaves less than all ones. -/
theorem fold_eq_max {u : Nat} (hu : u < 4294967296) (h : fold u % 65536 = 65535) :
    u % 65535 = 0 := by
  have hle : fold u ≤ 131070 := by
    unfold fold
    omega
  have hm := fold_mod u
  omega

/-- **An altered message does not sum to all ones.** -/
theorem altered_sum {m m' : List UInt8} {w w' k : Nat} (hn : ¬LastNegative m) (hk : k < 65536)
    (hm : total m = 65535 * (k + 1)) (ha : Altered m m' w w') :
    fold (icmpSum m') % 65536 ≠ 65535 := by
  intro he
  have h0 := fold_eq_max (icmpSum_lt m') he
  have ht := ha.total
  have hlt := ha.lt
  by_cases hn' : LastNegative m'
  · -- then the last byte is what was altered
    obtain ⟨ys, c, rfl⟩ : ∃ ys c, m' = ys ++ [c] := by
      rcases List.eq_nil_or_concat m' with rfl | ⟨ys, c, rfl⟩
      · exact absurd hn' (by decide)
      · exact ⟨ys, c, List.concat_eq_append⟩
    obtain ⟨xs, b, rfl⟩ : ∃ xs b, m = xs ++ [b] := by
      have hl := ha.length
      rcases List.eq_nil_or_concat m with rfl | ⟨xs, b, rfl⟩
      · simp at hl
      · exact ⟨xs, b, List.concat_eq_append⟩
    have hx : xs.length % 2 = 0 := by
      have h1 := hn'.1
      rw [ha.length, List.length_append, List.length_singleton] at h1
      omega
    have hy : ys.length % 2 = 0 := by
      have h1 := hn'.1
      rw [List.length_append, List.length_singleton] at h1
      omega
    have hb : b.toNat < 128 := not_le.mp (mt (lastNegative_concat hx).mpr hn)
    have hc := (lastNegative_concat hy).mp hn'
    have hc' := c.toNat_lt
    obtain ⟨rfl, rfl⟩ := ha.last hx (fun h => by rw [h] at hb; omega)
    have hs : icmpSum (ys ++ [c]) =
        (total (ys ++ [c]) + (4294967296 - 65536)) % 4294967296 := by
      rw [icmpSum, if_pos hn']
    obtain ⟨d, hd0, hd, hdt⟩ : ∃ d, 0 < d ∧ d < 256 ∧
        total (ys ++ [c]) = 65535 * (k + 1) + 256 * d := ⟨c.toNat - b.toNat, by omega⟩
    rw [hdt] at hs
    rcases Nat.lt_or_ge (65535 * (k + 1) + 256 * d) 65536 with hsmall | hbig
    · omega
    · have hs' : icmpSum (ys ++ [c]) = 65535 * k + (256 * d - 1) := by omega
      omega
  · have hs : icmpSum m' = total m' := by
      rw [icmpSum, if_neg hn', add_zero, Nat.mod_eq_of_lt (by omega)]
    rw [hs] at h0
    exact ha.residue (by omega)

/-- **The ICMP checksum is right exactly when one fold of the carry is enough**, the sum fits 32
bits and no odd last byte is negative: the value of `icmp_cksum`, the test of `ip_in` on the
messages that `ip_out` sends with these bytes around their checksum field, and the same test on such
a message altered in one word. -/
theorem icmp_checksum_right_iff (buf : List UInt8) (hlen : buf.length < 2147483648) :
    (icmp_cksum buf buf.length = some (checksum buf) ∧
      ∀ p frame, load8 p net_ipproto = some IP_ICMP → ip_out p = some frame →
        clearMessage (message frame) = buf → ICMP_HDR_LEN ≤ buf.length →
        (∀ rest, Passes (frame ++ rest)) ∧
        ∀ m rest w w', Altered (message frame) m w w' →
          ¬Passes (frame.take net_ictype ++ m ++ rest)) ↔
    OneFold buf := by
  constructor
  · rintro ⟨h, -⟩
    exact (icmp_checksum_iff hlen).mp h
  · intro hone
    refine ⟨(icmp_checksum_iff hlen).mpr hone, ?_⟩
    intro p frame hp hout hclear h8
    have hlen8 : 8 ≤ (message frame).length := by
      rw [← hclear, clearMessage, List.length_set, List.length_set] at h8
      exact h8
    obtain ⟨h34, h16, c, hc, hm⟩ := ip_out_message hp hout (by omega)
    rw [← hclear] at hone
    obtain ⟨k, hk, htot⟩ := hone.sent hlen8 hc hm
    have hneg : ¬LastNegative (message frame) := mt (lastNegative_clear hlen8).mpr hone.1
    constructor
    · intro rest
      rw [@passes_iff _ (message frame) rest, icmpSum, if_neg hneg, add_zero, htot,
        Nat.mod_eq_of_lt (show 65535 * (k + 1) < 4294967296 by omega), fold_multiple hk]
      · rw [message, List.drop_append_of_le_length h34]
      · rw [net16, List.getElem?_append_left (by unfold net_iplen; omega),
          List.getElem?_append_left (by unfold net_iplen; omega)]
        exact h16
      · rw [List.length_append]
        omega
    · intro m rest w w' ha
      have htl : (frame.take net_ictype).length = 34 := by
        rw [List.length_take, min_eq_left h34]
      rw [@passes_iff _ m rest]
      · exact altered_sum hneg hk htot ha
      · rw [List.append_assoc, List.drop_left' htl]
      · rw [ha.length, ← h16, List.append_assoc, net16,
          List.getElem?_append_left (by rw [htl]; decide),
          List.getElem?_append_left (by rw [htl]; decide)]
        exact net16_take (by decide)
      · simp only [List.length_append, htl]
        omega

/-- An echo request with one byte of data, `0x80`, and zero for its checksum. -/
def oddMessage : List UInt8 := [8, 0, 0, 0, 0, 1, 0, 1, 0x80]

theorem icmp_checksum_right_iff_oddMessage :
    (icmp_cksum oddMessage oddMessage.length = some (checksum oddMessage) ∧
      ∀ p frame, load8 p net_ipproto = some IP_ICMP → ip_out p = some frame →
        clearMessage (message frame) = oddMessage → ICMP_HDR_LEN ≤ oddMessage.length →
        (∀ rest, Passes (frame ++ rest)) ∧
        ∀ m rest w w', Altered (message frame) m w w' →
          ¬Passes (frame.take net_ictype ++ m ++ rest)) ↔
    OneFold oddMessage :=
  icmp_checksum_right_iff oddMessage (by decide)

/-- An odd last byte of `0x80` is subtracted instead of added, and a carry is lost without any odd
byte. -/
theorem icmp_cksum_wrong :
    icmp_cksum oddMessage 9 ≠ some (checksum oddMessage) ∧
      icmp_cksum [0xff, 0xff, 0xff, 0xff, 0x00, 0x01] 6 ≠
        some (checksum [0xff, 0xff, 0xff, 0xff, 0x00, 0x01]) := by
  decide

end Xinu.Net
