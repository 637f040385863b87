/-
# IP addresses in dotted decimal: `dot2ip.c`

`dot2ip` scans up to four segments of up to three digits, each with a dot or the end of the string
behind it.  It stops at the end of the string wherever that is, so it takes one, two or three
numbers for an address as well (`dot2ip_iff`).
-/
import Xinu.Doscan

namespace Xinu

/-! ## 1. The code -/

/-- `*dotted++`, where behind the string is its null character. -/
def nextDotted : List UInt8 → UInt8 × List UInt8
  | [] => (0, [])
  | c :: dotted => (c, dotted)

/-- The loop over the characters of a segment, with `n` rounds left: the value, the last character
and what is behind it, or `none` for the return of `SYSERR`. -/
def scanSegment : Nat → Nat → UInt8 → Nat → List UInt8 → Option (Nat × UInt8 × List UInt8)
  | 0, _, ch', val, dotted => some (val, ch', dotted)
  | n + 1, nch, _, val, dotted =>
    let (c, dotted) := nextDotted dotted
    if c = 0 ∨ c = ch '.' then
      if nch = 0 then none else some (val, c, dotted)
    else if nch ≥ 3 ∨ c < ch '0' ∨ c > ch '9' then none
    else scanSegment n (nch + 1) c (10 * val + (c.toNat - (ch '0').toNat)) dotted

/-- The loop over the segments, with `n` left, and the test behind it. -/
def scanSegments : Nat → Nat → List UInt8 → Option Nat
  | 0, _, _ => none
  | n + 1, ipaddr, dotted =>
    match scanSegment 4 0 0 0 dotted with
    | none => none
    | some (val, c, dotted) =>
      if val > 255 then none
      else
        let ipaddr := (ipaddr <<< 8) % 2 ^ 32 ||| val
        if c = 0 then some ipaddr else scanSegments n ipaddr dotted

/-- `dot2ip(dotted, &result)`: what it returns, and `result`. -/
def dot2ip (dotted : CString) (result : Nat) : Int × Nat :=
  match scanSegments 4 0 dotted.chars with
  | some ipaddr => (OK, ipaddr)
  | none => (SYSERR, result)

/-! ## 2. Dotted decimal -/

/-- The value of a number. -/
def decimal (l : List UInt8) : Nat := l.foldl (fun val c => 10 * val + (c.toNat - (ch '0').toNat)) 0

/-- A decimal number of one to three digits, at most 255. -/
def IsSegment (l : List UInt8) : Prop :=
  (1 ≤ l.length ∧ l.length ≤ 3) ∧ (∀ c ∈ l, isdigit c) ∧ decimal l ≤ 255

instance (l : List UInt8) : Decidable (IsSegment l) := inferInstanceAs (Decidable (_ ∧ _))

/-- The string without its dots. -/
def segments (s : CString) : List (List UInt8) := s.chars.splitOn (ch '.')

/-- The string is `n` such numbers, with single dots between them. -/
def IsDotted (n : Nat) (s : CString) : Prop :=
  (segments s).length = n ∧ ∀ l ∈ segments s, IsSegment l

instance (n : Nat) (s : CString) : Decidable (IsDotted n s) := inferInstanceAs (Decidable (_ ∧ _))

/-- The numbers, from the high byte on. -/
def combine (ls : List (List UInt8)) (ipaddr : Nat) : Nat :=
  ls.foldl (fun ipaddr l => 256 * ipaddr + decimal l) ipaddr

/-! ## 3. What is scanned -/

variable {l seg tail : List UInt8} {nch val : Nat}

/-- The end of a segment: of the string, or a dot. -/
inductive SegmentEnd : List UInt8 → UInt8 → List UInt8 → Prop
  | null : SegmentEnd [] 0 []
  | dot (tail : List UInt8) : SegmentEnd (ch '.' :: tail) (ch '.') tail

theorem SegmentEnd.next {rest : List UInt8} {c : UInt8} (h : SegmentEnd rest c tail) :
    nextDotted rest = (c, tail) ∧ (c = 0 ∨ c = ch '.') := by
  cases h
  · exact ⟨rfl, .inl rfl⟩
  · exact ⟨rfl, .inr rfl⟩

/-- What a character that is neither a dot nor the null does. -/
theorem scanSegment_cons {d : UInt8} (hnull : d ≠ 0) (hdot : d ≠ ch '.') (n : Nat) (c₀ : UInt8) :
    scanSegment (n + 1) nch c₀ val (d :: l) =
      if nch < 3 ∧ isdigit d then
        scanSegment n (nch + 1) d (10 * val + (d.toNat - (ch '0').toNat)) l
      else none := by
  have hsegment : scanSegment (n + 1) nch c₀ val (d :: l) =
      if d = 0 ∨ d = ch '.' then if nch = 0 then none else some (val, d, l)
      else if nch ≥ 3 ∨ d < ch '0' ∨ d > ch '9' then none
      else scanSegment n (nch + 1) d (10 * val + (d.toNat - (ch '0').toNat)) l := rfl
  rw [hsegment, if_neg (by simp [hnull, hdot])]
  by_cases hd : nch < 3 ∧ isdigit d
  · obtain ⟨hlt, hlo, hhi⟩ := hd
    rw [if_neg (by simp [not_or, UInt8.not_lt, hlt, hlo, hhi]), if_pos ⟨hlt, hlo, hhi⟩]
  · rw [if_pos, if_neg hd]
    by_contra h
    simp only [not_or, not_le, UInt8.not_lt] at h
    exact hd h

/-- What the end of a segment does. -/
theorem scanSegment_end {rest : List UInt8} {c : UInt8} (h : SegmentEnd rest c tail) (n : Nat)
    (c₀ : UInt8) :
    scanSegment (n + 1) nch c₀ val rest = if nch = 0 then none else some (val, c, tail) := by
  obtain ⟨hnext, hc⟩ := h.next
  simp only [scanSegment, hnext, if_pos hc]

/-- **A segment is scanned** if it has one to three characters, all of them digits. -/
theorem scanSegment_eq {rest : List UInt8} {c : UInt8} (h : SegmentEnd rest c tail) (c₀ : UInt8)
    (val : Nat) (hnull : 0 ∉ seg) (hdot : ch '.' ∉ seg) (hn : nch ≤ 3) :
    scanSegment (4 - nch) nch c₀ val (seg ++ rest) =
      if (1 ≤ nch + seg.length ∧ nch + seg.length ≤ 3) ∧ seg.all (isdigit ·) then
        some (seg.foldl (fun val c => 10 * val + (c.toNat - (ch '0').toNat)) val, c, tail)
      else none := by
  induction seg generalizing nch val c₀ with
  | nil =>
    rw [show 4 - nch = 3 - nch + 1 by omega, List.nil_append, scanSegment_end h]
    by_cases h0 : nch = 0
    · simp [h0]
    · simp [h0, show 1 ≤ nch by omega, hn]
  | cons d seg ih =>
    simp only [List.mem_cons, not_or] at hnull hdot
    rw [show 4 - nch = 3 - nch + 1 by omega, List.cons_append,
      scanSegment_cons (Ne.symm hnull.1) (Ne.symm hdot.1)]
    by_cases hd : nch < 3 ∧ isdigit d
    · rw [if_pos hd, show 3 - nch = 4 - (nch + 1) by omega, ih _ _ hnull.2 hdot.2 (by omega)]
      simp [hd.2, Nat.add_assoc, Nat.add_comm 1]
    · rw [if_neg hd, if_neg]
      rintro ⟨⟨-, hlen⟩, hdigits⟩
      simp only [List.length_cons] at hlen
      rw [List.all_cons, Bool.and_eq_true, decide_eq_true_eq] at hdigits
      exact hd ⟨by omega, hdigits.1⟩

/-! ## 4. What is accepted -/

theorem combine_cons (l : List UInt8) (ls : List (List UInt8)) (ipaddr : Nat) :
    combine (l :: ls) ipaddr = combine ls (256 * ipaddr + decimal l) := rfl

/-- The shift makes room for a byte. -/
theorem shift_or {ipaddr n : Nat} (hip : ipaddr < 2 ^ 24) (hn : n ≤ 255) :
    (ipaddr <<< 8) % 2 ^ 32 ||| n = 256 * ipaddr + n := by
  rw [Nat.mod_eq_of_lt (by rw [Nat.shiftLeft_eq]; omega),
    ← Nat.shiftLeft_add_eq_or_of_lt (by omega), Nat.shiftLeft_eq]
  omega

/-- A segment and what is behind it. -/
theorem scanSegments_step {rest : List UInt8} {c : UInt8} (h : SegmentEnd rest c tail)
    {ipaddr : Nat} (hip : ipaddr < 2 ^ 24) (hnull : 0 ∉ seg) (hdot : ch '.' ∉ seg) (n : Nat) :
    scanSegments (n + 1) ipaddr (seg ++ rest) =
      if IsSegment seg then
        if c = 0 then some (256 * ipaddr + decimal seg)
        else scanSegments n (256 * ipaddr + decimal seg) tail
      else none := by
  have hscan : scanSegment 4 0 0 0 (seg ++ rest) =
      if (1 ≤ seg.length ∧ seg.length ≤ 3) ∧ ∀ d ∈ seg, isdigit d then
        some (decimal seg, c, tail)
      else none := by
    simpa [decimal] using scanSegment_eq h 0 0 hnull hdot (Nat.zero_le 3)
  rw [scanSegments, hscan]
  by_cases hseg : (1 ≤ seg.length ∧ seg.length ≤ 3) ∧ ∀ d ∈ seg, isdigit d
  · rw [if_pos hseg]
    by_cases hval : decimal seg ≤ 255
    · have : ¬ decimal seg > 255 := by omega
      rw [if_pos (show IsSegment seg from ⟨hseg.1, hseg.2, hval⟩)]
      simp only [if_neg this, shift_or hip hval]
    · rw [if_neg (fun h : IsSegment seg => hval h.2.2)]
      simp only [if_pos (show decimal seg > 255 by omega)]
  · rw [if_neg hseg, if_neg (fun h : IsSegment seg => hseg ⟨h.1, h.2.1⟩)]

/-- **The loop over the segments**: at most `n` numbers, and their combination. -/
theorem scanSegments_eq {n ipaddr : Nat} (hip : ipaddr < 256 ^ (4 - n)) (hn : n ≤ 4)
    (hnull : 0 ∉ l) :
    scanSegments n ipaddr l =
      if (l.splitOn (ch '.')).length ≤ n ∧ ∀ seg ∈ l.splitOn (ch '.'), IsSegment seg then
        some (combine (l.splitOn (ch '.')) ipaddr)
      else none := by
  induction n generalizing ipaddr l with
  | zero => simp [scanSegments, List.splitOn_ne_nil]
  | succ n ih =>
    have hip' : ipaddr < 2 ^ 24 :=
      lt_of_lt_of_le hip (by
        calc 256 ^ (4 - (n + 1)) ≤ 256 ^ 3 := Nat.pow_le_pow_right (by omega) (by omega)
          _ = 2 ^ 24 := by norm_num)
    by_cases hmem : ch '.' ∈ l
    · obtain ⟨seg, tail, rfl, hdot⟩ := List.eq_append_cons_of_mem hmem
      simp only [List.mem_append, List.mem_cons, not_or] at hnull
      rw [scanSegments_step (.dot tail) hip' hnull.1 hdot, if_neg (show ch '.' ≠ 0 by decide),
        List.splitOn_append_cons_self_of_not_mem hdot]
      by_cases hseg : IsSegment seg
      · have hip'' : 256 * ipaddr + decimal seg < 256 ^ (4 - n) := by
          have := hseg.2.2
          rw [show 4 - n = 4 - (n + 1) + 1 by omega, Nat.pow_succ]
          omega
        rw [if_pos hseg, ih hip'' (by omega) hnull.2.2, combine_cons]
        simp [hseg]
      · rw [if_neg hseg, if_neg (by simp [hseg])]
    · have hlast : scanSegments (n + 1) ipaddr (l ++ []) = _ :=
        scanSegments_step .null hip' hnull hmem n
      rw [List.append_nil, if_pos rfl] at hlast
      rw [hlast, List.splitOn_eq_singleton hmem]
      simp [combine]

/-- **`dot2ip` takes** one, two, three or four numbers. -/
theorem dot2ip_eq (s : CString) (result : Nat) :
    dot2ip s result =
      if (segments s).length ≤ 4 ∧ ∀ l ∈ segments s, IsSegment l then (OK, combine (segments s) 0)
      else (SYSERR, result) := by
  have hscan : scanSegments 4 0 s.chars =
      if (segments s).length ≤ 4 ∧ ∀ l ∈ segments s, IsSegment l then
        some (combine (segments s) 0)
      else none :=
    scanSegments_eq (by omega) le_rfl s.nonnull
  rw [dot2ip, hscan]
  by_cases h : (segments s).length ≤ 4 ∧ ∀ l ∈ segments s, IsSegment l
  · rw [if_pos h, if_pos h]
  · rw [if_neg h, if_neg h]

/-- **The exact condition**: `dot2ip` takes dotted decimal, and nothing else, but for one, two or
three numbers. -/
theorem dot2ip_iff (s : CString) (result : Nat) :
    (((dot2ip s result).1 = OK ↔ IsDotted 4 s) ∧
      (IsDotted 4 s → dot2ip s result = (OK, combine (segments s) 0))) ↔
    ¬ ∃ n, n < 4 ∧ IsDotted n s := by
  rw [dot2ip_eq]
  constructor
  · rintro ⟨hiff, -⟩ ⟨n, hn, hlen, hseg⟩
    rw [if_pos ⟨by omega, hseg⟩] at hiff
    exact absurd (hiff.mp rfl).1 (by omega)
  · intro h
    by_cases hacc : (segments s).length ≤ 4 ∧ ∀ l ∈ segments s, IsSegment l
    · have hfour : IsDotted 4 s := by
        refine ⟨?_, hacc.2⟩
        by_contra hne
        exact h ⟨_, by omega, rfl, hacc.2⟩
      rw [if_pos hacc]
      exact ⟨⟨fun _ => hfour, fun _ => rfl⟩, fun _ => rfl⟩
    · have hfour : ¬ IsDotted 4 s := fun hd => hacc ⟨by rw [hd.1], hd.2⟩
      rw [if_neg hacc]
      exact ⟨⟨fun hok => absurd hok (show SYSERR ≠ OK by decide), fun hd => absurd hd hfour⟩,
        fun hd => absurd hd hfour⟩

/-- `10.1` is taken for the address 10.1 = 0.0.10.1. -/
theorem dot2ip_short :
    let s : CString := ⟨[ch '1', ch '0', ch '.', ch '1'], by decide⟩
    dot2ip s 0 = (OK, 0x0a01) ∧ ¬ IsDotted 4 s := by
  decide +kernel

end Xinu
