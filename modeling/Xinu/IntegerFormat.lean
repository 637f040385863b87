/-
# Integer conversions

An integer conversion should write the numeral of the value in the base, with a minus sign in front
of a negative decimal, and pad it so that it still denotes the number (`Padded`).  It does, the two
formatters agree and `string` is large enough, exactly where none of four things happens
(`formatted_iff`): `_fdoprnt` negates the most negative number, a binary numeral is longer than
`string`, zeros are filled in behind the number, or the width is over `MAXSTR`.

The way from a value to the text has three parts, and each is a section: the digit routines write
the numeral into `string` (sections 2 and 4), the directive is read off the format (section 3),
and the field is padded (section 5).  Everything the two formatters have in common is stated once,
with the `_prtl10` of either as a parameter.
-/
import Xinu.Doprnt

namespace Xinu

open Numerals

variable {k n : Nat}

/-! ## 1. The conversions

What each conversion should write, said without the code: a base, the characters of the digits,
whether there is a minus sign, and the number that the digits denote. -/

inductive Conv
  | d | u | o | x | X | b
  deriving DecidableEq

def Conv.char : Conv → UInt8
  | d => ch 'd'
  | u => ch 'u'
  | o => ch 'o'
  | x => ch 'x'
  | X => ch 'X'
  | b => ch 'b'

def Conv.base : Conv → Nat
  | d | u => 10
  | o => 8
  | x | X => 16
  | b => 2

/-- The characters of the digits. -/
def Conv.digit : Conv → Nat → UInt8
  | X, i => upperHex.getD i 0
  | _, i => lowerHex.getD i 0

/-- The value is written with a minus sign. -/
def Conv.negative (c : Conv) (v : BitVec 32) : Bool := c = d ∧ v.toInt < 0

/-- The number that the digits denote. -/
def Conv.magnitude (c : Conv) (v : BitVec 32) : Nat := if c = d then v.toInt.natAbs else v.toNat

/-- The digits of the value, the leading one first and not zero. -/
def Conv.digits (c : Conv) (v : BitVec 32) : List UInt8 :=
  (numeral c.base (c.magnitude v)).map c.digit

def Conv.signOf (c : Conv) (v : BitVec 32) : List UInt8 := if c.negative v then [ch '-'] else []

/-- The most negative number. -/
def intMin : BitVec 32 := 0x80000000

theorem toInt_cases (v : BitVec 32) : v.toNat < 2 ^ 32 ∧
    (v.toInt = v.toNat ∧ v.toNat < 2 ^ 31 ∨ v.toInt = v.toNat - 2 ^ 32 ∧ 2 ^ 31 ≤ v.toNat) := by
  refine ⟨v.isLt, ?_⟩
  rw [BitVec.toInt_eq_toNat_cond]
  split <;> omega

theorem Conv.magnitude_lt (c : Conv) (v : BitVec 32) : c.magnitude v < 2 ^ 32 := by
  have hv := toInt_cases v
  rw [Conv.magnitude]
  split <;> omega

theorem Conv.one_lt_base (c : Conv) : 1 < c.base := by cases c <;> decide

theorem Conv.base_le (c : Conv) : c.base ≤ 16 := by cases c <;> decide

/-! ## 2. The digit routines write numerals

A digit routine fills a table with the digits, the last one first, and copies it back without
leading zeros.  The table is filled by dividing by the base; the routines for hexadecimal, octal
and binary mask and shift a number that may be negative, so a division that rounds down takes the
place of the other. -/

/-- Filling `temp` by a rule that keeps a number and a natural number together. -/
theorem fillTemp_table {char : Int → UInt8} {next : Int → Int} {f : Nat → UInt8} {b : Nat}
    (R : Nat → Int → Nat → Prop)
    (h : ∀ k num n, R (k + 1) num n → char num = f (n % b) ∧ R k (next num) (n / b))
    {num : Int} (hR : R k num n) : fillTemp char next k num = (table b k n).map f := by
  induction k generalizing num n with
  | zero => rfl
  | succ k ih =>
    obtain ⟨hchar, hnext⟩ := h k num n hR
    rw [fillTemp, table, List.map_cons, hchar, ih hnext]

/-- Dividing a number by the base, rounding down: `k` digits of the numbers that agree up to a
multiple of `b ^ k`. -/
theorem fillTemp_floor (char : Int → UInt8) {f : Nat → UInt8} {b : Nat} (hb : 0 < b)
    (hchar : ∀ num, char num = f (num % b).toNat) (k n : Nat) (q : Int) :
    fillTemp char (fun num => num / b) k (n + b ^ k * q) = (table b k n).map f := by
  refine fillTemp_table (fun k num n => ∃ q : Int, num = n + b ^ k * q) ?_ ⟨q, rfl⟩
  rintro k _ n ⟨q, rfl⟩
  have hpow : (b : Int) ^ (k + 1) * q = b * (b ^ k * q) := by ring
  refine ⟨?_, b ^ k * 0 + q, ?_⟩
  · rw [hchar, hpow, Int.add_mul_emod_self_left]
    norm_cast
  · rw [hpow, Int.add_mul_ediv_left _ _ (by omega)]
    push_cast
    ring

theorem lowerHex_eq (hn : n < 10) : toChar (n + 48) = lowerHex.getD n 0 := by
  interval_cases n <;> decide

/-- Dividing a natural number by ten. -/
theorem fillTemp_ten (k n : Nat) :
    fillTemp (fun num => toChar (num.tmod 10 + 48)) (fun num => num.tdiv 10) k n =
      (table 10 k n).map fun i => lowerHex.getD i 0 := by
  refine fillTemp_table (fun _ num n => num = n) ?_ rfl
  rintro k _ n rfl
  refine ⟨?_, ?_⟩
  · rw [← lowerHex_eq (Nat.mod_lt n (by decide))]
    norm_cast
  · norm_cast

theorem Conv.digit_zero (c : Conv) : c.digit 0 = ch '0' := by cases c <;> decide

theorem Conv.digit_ne (c : Conv) {i : Nat} (hi : i < c.base) (h0 : i ≠ 0) : c.digit i ≠ ch '0' := by
  have hlt := Nat.lt_of_lt_of_le hi c.base_le
  cases c <;> (interval_cases i <;> first | exact absurd rfl h0 | decide)

/-- A full table of digits becomes the numeral. -/
theorem unloadTemp_table (c : Conv) (hk : 0 < k) (hn : n < c.base ^ k) :
    unloadTemp ((table c.base k n).map c.digit) = (numeral c.base n).map c.digit := by
  rw [unloadTemp, ← c.digit_zero, trim_map, trim_table c.one_lt_base hk hn]
  intro i hi
  constructor
  · intro he
    by_contra h0
    exact c.digit_ne (table_lt (Nat.zero_lt_of_lt c.one_lt_base) i hi) h0 (he.trans c.digit_zero)
  · rintro rfl
    rfl

theorem Fdoprnt.prtl10_eq (hn : n < 10 ^ 10) :
    Fdoprnt.prtl10 n = (numeral 10 n).map Conv.d.digit := by
  rw [Fdoprnt.prtl10, fillTemp_ten]
  exact unloadTemp_table .d (by decide) hn

/-- `_prtl10` of `doprnt.c` leaves the sign out. -/
theorem Doprnt.prtl10_eq {num : Int} (hn : num.natAbs < 10 ^ 10) :
    Doprnt.prtl10 num = (numeral 10 num.natAbs).map Conv.d.digit := by
  have hfirst : (if num < 0 then -(num.tmod 10) else num.tmod 10) = (num.natAbs % 10 : Nat) ∧
      num.tdiv (if num < 0 then -10 else 10) = (num.natAbs / 10 : Nat) := by
    by_cases hneg : num < 0
    · obtain ⟨m, rfl⟩ : ∃ m : Nat, num = -m := ⟨num.natAbs, by omega⟩
      rw [if_pos hneg, if_pos hneg, Int.neg_tmod, Int.neg_neg, Int.neg_tdiv_neg, Int.natAbs_neg,
        Int.natAbs_natCast]
      exact ⟨rfl, rfl⟩
    · obtain ⟨m, rfl⟩ := Int.eq_ofNat_of_zero_le (Int.not_lt.mp hneg)
      rw [if_neg hneg, if_neg hneg, Int.natAbs_natCast]
      exact ⟨rfl, rfl⟩
  rw [Doprnt.prtl10, hfirst.1, hfirst.2, fillTemp_ten, lowerHex_eq (Nat.mod_lt _ (by decide))]
  exact unloadTemp_table .d (by decide) hn

/-- A word and its value without sign differ by a multiple of the range. -/
theorem toInt_eq (v : BitVec 32) : ∃ q : Int, v.toInt = v.toNat + 2 ^ 32 * q := by
  rcases (toInt_cases v).2 with ⟨he, -⟩ | ⟨he, -⟩
  · exact ⟨0, by omega⟩
  · exact ⟨-1, by omega⟩

theorem prtHex_eq (c : Conv) (hc : c.base = 16) {digits : List UInt8}
    (hd : ∀ i, c.digit i = digits.getD i 0) (v : BitVec 32) :
    prtHex digits v.toInt = (numeral 16 v.toNat).map c.digit := by
  obtain ⟨q, hq⟩ := toInt_eq v
  have hfill := fillTemp_floor (fun num => digits.getD (num % 16).toNat 0) (b := 16) (by decide)
    (fun num => (hd _).symm) 8 v.toNat q
  have htable := unloadTemp_table c (k := 8) (n := v.toNat) (by decide) (by rw [hc]; exact v.isLt)
  rw [hc] at htable
  rw [← htable, ← hfill, prtHex, hq]
  rfl

theorem prtl2_eq (v : BitVec 32) : prtl2 v.toInt = (numeral 2 v.toNat).map Conv.b.digit := by
  have hchar : ∀ num : Int, (if num.tmod 2 = 0 then ch '0' else ch '1') =
      Conv.b.digit (num % (2 : Nat)).toNat := by
    intro num
    have hiff : num.tmod 2 = 0 ↔ num % 2 = 0 :=
      Int.dvd_iff_tmod_eq_zero.symm.trans Int.dvd_iff_emod_eq_zero
    rcases Int.emod_two_eq_zero_or_one num with h | h
    · rw [if_pos (hiff.mpr h), Nat.cast_ofNat, h]
      decide
    · rw [if_neg (by omega), Nat.cast_ofNat, h]
      decide
  obtain ⟨q, hq⟩ := toInt_eq v
  refine Eq.trans ?_ (unloadTemp_table .b (k := 32) (by decide) v.isLt)
  rw [prtl2, hq]
  exact congrArg unloadTemp (fillTemp_floor _ (by decide) hchar 32 v.toNat q)

/-- The eleventh octal digit has bits of the sign in it, which `& '3'` clears. -/
theorem prtl8_eq (v : BitVec 32) : prtl8 v.toInt = (numeral 8 v.toNat).map Conv.o.digit := by
  have hchar : ∀ num : Int, toChar (num % 8 + 48) = Conv.o.digit (num % (8 : Nat)).toNat := by
    intro num
    obtain ⟨m, hm⟩ := Int.eq_ofNat_of_zero_le (Int.emod_nonneg num (by decide : (8 : Int) ≠ 0))
    have hlt := Int.emod_lt_of_pos num (by decide : (0 : Int) < 8)
    rw [Nat.cast_ofNat, hm]
    exact lowerHex_eq (by omega)
  obtain ⟨m, q, hm, hq⟩ : ∃ (m : Nat) (q : Int), m < 2 ∧
      v.toInt = ((v.toNat + 8 ^ 10 * (4 * m) : Nat) : Int) + 8 ^ 11 * q := by
    obtain ⟨q, hq⟩ := toInt_eq v
    exact ⟨(q % 2).toNat, q / 2, by omega, by omega⟩
  have hv : v.toNat / 8 ^ 10 < 4 := by omega
  have hdiv : (v.toNat + 8 ^ 10 * (4 * m)) / 8 ^ 10 % 8 = v.toNat / 8 ^ 10 + 4 * m := by omega
  have hmask : Conv.o.digit (v.toNat / 8 ^ 10 + 4 * m) &&& ch '3' =
      Conv.o.digit (v.toNat / 8 ^ 10 % 8) := by
    interval_cases m <;> interval_cases v.toNat / 8 ^ 10 <;> decide
  refine Eq.trans ?_ (unloadTemp_table .o (k := 10 + 1) (n := v.toNat) (by decide) (by
    have := v.isLt
    rw [Conv.base]
    omega))
  have hfill := fillTemp_floor _ (by decide) hchar (10 + 1) (v.toNat + 8 ^ 10 * (4 * m)) q
  rw [table_add, table_add_mul (by decide)] at hfill
  have hlast : ∀ (l : List UInt8) (x : UInt8), l.length = 10 →
      (l ++ [x]).modify 10 (· &&& ch '3') = l ++ [x &&& ch '3'] := by
    intro l x hl
    rw [List.modify_eq_take_drop, ← hl, List.take_left, List.drop_left]
    rfl
  rw [prtl8, hq, Conv.base, table_add, List.map_append]
  refine congrArg unloadTemp ((congrArg _ hfill).trans ?_)
  rw [List.map_append]
  refine (hlast ((table 8 10 v.toNat).map Conv.o.digit) _ (by simp)).trans ?_
  rw [hdiv, hmask]
  rfl

theorem unsign_nonneg (fuel n : Nat) (digit1 : UInt8) :
    unsign (fuel + 1) n digit1 = some ((n : Int), digit1) := by
  rw [unsign, if_neg (by omega)]

/-- A value of `2 ^ 31` or more takes as many rounds as its distance to `2 ^ 31` has billions. -/
theorem unsign_neg (j : Nat) (hn : 2 ^ 31 ≤ n) (hlt : n < 2 ^ 32)
    (hj : n < 2 ^ 31 + (j + 1) * 10 ^ 9)
    (digit1 : UInt8) :
    ∃ i m : Nat, unsign (j + 2) (n - 2 ^ 32) digit1 = some ((m : Int), digit1 + UInt8.ofNat i) ∧
      i ≤ j + 1 ∧ 10 ^ 9 ≤ m ∧ m < 2 ^ 31 ∧ n = m + i * 10 ^ 9 := by
  have hneg : (n : Int) - 2 ^ 32 < 0 := by omega
  induction j generalizing n digit1 with
  | zero =>
    have hl : toLong ((n : Int) - 2 ^ 32 - 1000000000) = (n - 10 ^ 9 : Nat) := by
      rw [toLong]
      omega
    refine ⟨1, n - 10 ^ 9, ?_, le_rfl, by omega, by omega, by omega⟩
    rw [unsign, if_pos hneg, hl, unsign_nonneg]
    rfl
  | succ j ih =>
    by_cases hlast : n < 2 ^ 31 + 10 ^ 9
    · have hl : toLong ((n : Int) - 2 ^ 32 - 1000000000) = (n - 10 ^ 9 : Nat) := by
        rw [toLong]
        omega
      refine ⟨1, n - 10 ^ 9, ?_, by omega, by omega, by omega, by omega⟩
      rw [unsign, if_pos hneg, hl, unsign_nonneg]
      rfl
    · have hl : toLong ((n : Int) - 2 ^ 32 - 1000000000) = (n - 10 ^ 9 : Nat) - 2 ^ 32 := by
        rw [toLong]
        omega
      obtain ⟨i, m, hu, hi, hm, hm31, hsum⟩ := ih (n := n - 10 ^ 9) (by omega) (by omega) (by omega)
        (digit1 + 1) (by omega)
      refine ⟨i + 1, m, ?_, by omega, hm, hm31, by omega⟩
      rw [unsign, if_pos hneg, hl, hu, UInt8.add_assoc, UInt8.add_comm 1, UInt8.ofNat_add]
      rfl

theorem digit_add {i j : Nat} (h : i + j < 10) :
    Conv.d.digit i + UInt8.ofNat j = Conv.d.digit (i + j) := by
  have hdigit : ∀ i < 10, Conv.d.digit i = ch '0' + UInt8.ofNat i := by decide
  rw [hdigit i (by omega), hdigit _ h, UInt8.ofNat_add, UInt8.add_assoc]

/-- The digits of a value without sign: what was taken off is put back onto the leading digit. -/
theorem prtu_eq {prtl10 : Int → List UInt8}
    (h10 : ∀ n : Nat, n < 2 ^ 31 → prtl10 n = (numeral 10 n).map Conv.d.digit) (v : BitVec 32) :
    prtu prtl10 v.toInt = some ((numeral 10 v.toNat).map Conv.d.digit) := by
  obtain ⟨hlt, ⟨he, hpos⟩ | ⟨he, hneg⟩⟩ := toInt_cases v
  · rw [he, prtu, unsign_nonneg]
    refine congrArg some ?_
    have hid : (fun c : UInt8 => c + 0) = id := funext UInt8.add_zero
    rw [h10 _ hpos, hid, List.modifyHead_id]
    rfl
  · obtain ⟨i, m, hu, hi, hm, hm31, hsum⟩ := unsign_neg 2 hneg hlt (by omega) 0
    obtain ⟨ds, h1, h2⟩ := numeral_add_leading (b := 10) (k := 9) (by decide) hm i (by omega)
    rw [he, prtu, hu]
    refine congrArg some ?_
    rw [h10 m hm31, hsum, h1, h2]
    refine congrArg₂ List.cons ?_ rfl
    rw [UInt8.zero_add]
    exact digit_add (by omega)

/-! ## 3. Directives

A directive is a `%`, flags, a width and a conversion.  Its text is defined here, and the
formatters read from the text what it was made of. -/

/-- A minimum width: digits in the format, none for 0, or `*` and an argument. -/
inductive Width
  | literal (w : Nat)
  | star (w : BitVec 32)

/-- The width asked for; a negative argument asks for none. -/
def Width.toNat : Width → Nat
  | literal w => w
  | star w => w.toInt.toNat

/-- How a width stands in the format. -/
def Width.text : Width → List UInt8
  | literal w => if w = 0 then [] else (numeral 10 w).map Conv.d.digit
  | star _ => [ch '*']

structure Directive where
  leftjust : Bool
  zero : Bool
  width : Width
  conv : Conv

/-- The format. -/
def Directive.text (s : Directive) : List UInt8 :=
  ch '%' :: ((if s.leftjust then [ch '-'] else []) ++ ((if s.zero then [ch '0'] else []) ++
    (s.width.text ++ [s.conv.char])))

/-- The arguments after the format. -/
def Directive.args (s : Directive) (v : BitVec 32) : List Arg :=
  match s.width with
  | .literal _ => [.word v]
  | .star w => [.word w, .word v]

/-- `fmin` as it is read. -/
def Width.fmin : Width → Int
  | literal w => (number (Width.literal w).text 0).1
  | star w => w.toInt

def Directive.fill (s : Directive) : UInt8 := if s.zero then ch '0' else ch ' '

/-- The field as it is read. -/
def Directive.field (s : Directive) : Field := ⟨s.leftjust, s.fill, s.width.fmin, 0⟩

theorem skip_of_ne {c : UInt8} {fmt : List UInt8} (h : fmt.head? ≠ some c) :
    skip c fmt = (false, fmt) := if_neg h

/-- A flag that is there or not is skipped. -/
theorem skip_flag (on : Bool) {c : UInt8} {fmt : List UInt8} (h : fmt.head? ≠ some c) :
    skip c ((if on then [c] else []) ++ fmt) = (on, fmt) := by
  cases on with
  | false => exact skip_of_ne h
  | true => exact if_pos rfl

theorem number_append {ds : List UInt8} (hds : ∀ c ∈ ds, ch '0' ≤ c ∧ c ≤ ch '9') {f : UInt8}
    (hf : ¬(ch '0' ≤ f ∧ f ≤ ch '9')) (fmt : List UInt8) (n : Int) :
    number (ds ++ f :: fmt) n = ((number ds n).1, f :: fmt) := by
  induction ds generalizing n with
  | nil => exact if_neg hf
  | cons c ds ih =>
    rw [List.cons_append, number, number, if_pos (hds c List.mem_cons_self),
      if_pos (hds c List.mem_cons_self), ih fun d hd => hds d (List.mem_cons_of_mem _ hd)]

theorem digit_mem {c : UInt8} (hc : c ∈ (numeral 10 n).map Conv.d.digit) :
    ch '0' ≤ c ∧ c ≤ ch '9' := by
  have hdigit : ∀ i < 10, ch '0' ≤ Conv.d.digit i ∧ Conv.d.digit i ≤ ch '9' := by decide
  obtain ⟨i, hi, rfl⟩ := List.mem_map.mp hc
  exact hdigit i (numeral_lt (by decide) i hi)

theorem number_digits {ds : List Nat} (hds : ∀ d ∈ ds, d < 10) (m : Nat)
    (hlt : valueFrom 10 m ds < 2 ^ 31) :
      (number (ds.map Conv.d.digit) m).1 = valueFrom 10 m ds := by
  have hdigit : ∀ i < 10, (ch '0' ≤ Conv.d.digit i ∧ Conv.d.digit i ≤ ch '9') ∧
      (Conv.d.digit i).toNat = i + 48 := by decide
  induction ds generalizing m with
  | nil => rfl
  | cons d ds ih =>
    obtain ⟨hrange, hval⟩ := hdigit d (hds d List.mem_cons_self)
    have hle := le_valueFrom (b := 10) (by decide) (m * 10 + d) ds
    have hstep : toLong ((m : Int) * 10 + (Conv.d.digit d).toNat - 48) = (m * 10 + d : Nat) := by
      rw [valueFrom_cons] at hlt
      rw [hval, toLong]
      omega
    rw [List.map_cons, number, if_pos hrange, hstep]
    exact ih (fun e he => hds e (List.mem_cons_of_mem _ he)) _ hlt

/-- A width in the format is read right, unless it leaves the range of an `int`. -/
theorem Width.fmin_literal {w : Nat} (hw : w < 2 ^ 31) : (Width.literal w).fmin = w := by
  rw [Width.fmin, Width.text]
  split
  · rename_i h0
    rw [h0]
    rfl
  · have hval := value_numeral (b := 10) (by decide) w
    exact (number_digits (numeral_lt (by decide)) 0 (by rwa [← value, hval])).trans
      (congrArg _ hval)

theorem Width.text_head (w : Width) (f : UInt8) :
    (w.text ++ [f]).head? = some f ∨ (w.text ++ [f]).head? = some (ch '*') ∧ (∃ a, w = .star a) ∨
      ∃ c, (w.text ++ [f]).head? = some c ∧ ch '0' < c ∧ c ≤ ch '9' := by
  cases w with
  | star a => exact .inr (.inl ⟨rfl, a, rfl⟩)
  | literal w =>
    by_cases h0 : w = 0
    · exact .inl (by rw [h0]; rfl)
    · refine .inr (.inr ?_)
      obtain ⟨d, ds, hds⟩ := List.exists_cons_of_ne_nil (numeral_ne_nil 10 w)
      have hd : d ≠ 0 := numeral_head h0 (by rw [hds]; rfl)
      have hlt : d < 10 := numeral_lt (by decide) d (by rw [hds]; exact List.mem_cons_self)
      have hdigit : ∀ i < 10, i ≠ 0 → ch '0' < Conv.d.digit i ∧ Conv.d.digit i ≤ ch '9' := by decide
      refine ⟨Conv.d.digit d, ?_, hdigit d hlt hd⟩
      rw [Width.text, if_neg h0, hds]
      rfl

/-- The format characters have no other meaning. -/
theorem Conv.char_spec (c : Conv) : ¬(ch '0' ≤ c.char ∧ c.char ≤ ch '9') ∧ c.char ≠ ch '-' ∧
    c.char ≠ ch '*' ∧ c.char ≠ ch '.' ∧ c.char ≠ ch '%' := by
  cases c <;> decide

/-- The flags are read off. -/
theorem Width.text_flags (w : Width) (c : Conv) :
    (w.text ++ [c.char]).head? ≠ some (ch '-') ∧ (w.text ++ [c.char]).head? ≠ some (ch '0') ∧
      (w.text ++ [c.char]).head? ≠ some (ch '%') := by
  have hc := c.char_spec
  rcases w.text_head c.char with h | ⟨h, -⟩ | ⟨d, h, hlo, hhi⟩
  · rw [h]
    refine ⟨?_, ?_, ?_⟩ <;> intro he <;> rw [Option.some.inj he] at hc
    · exact hc.2.1 rfl
    · exact hc.1 (by decide)
    · exact hc.2.2.2.2 rfl
  · rw [h]
    decide
  · rw [h]
    refine ⟨?_, ?_, ?_⟩ <;> intro he <;> rw [Option.some.inj he] at hlo hhi
    · exact absurd hlo (by decide)
    · exact absurd hlo (by decide)
    · exact absurd hlo (by decide)

/-- The width is read off. -/
theorem size_width (s : Directive) (v : BitVec 32) :
    size (s.width.text ++ [s.conv.char]) (s.args v) =
      some (s.width.fmin, [s.conv.char], [.word v]) := by
  have hc := s.conv.char_spec
  rw [Directive.args]
  cases hw : s.width with
  | star a => rfl
  | literal w =>
    have hhead : ((Width.literal w).text ++ [s.conv.char]).head? ≠ some (ch '*') := by
      rcases (Width.literal w).text_head s.conv.char with h | ⟨-, a, h⟩ | ⟨d, h, hlo, -⟩
      · rw [h]
        exact fun he => hc.2.2.1 (Option.some.inj he)
      · cases h
      · rw [h]
        intro he
        rw [Option.some.inj he] at hlo
        exact absurd hlo (by decide)
    have hdigits : ∀ d ∈ (Width.literal w).text, ch '0' ≤ d ∧ d ≤ ch '9' := by
      intro d hd
      rw [Width.text] at hd
      split at hd
      · cases hd
      · exact digit_mem hd
    rw [size, if_neg hhead, number_append hdigits hc.1]
    rfl

/-- What stands between the `%` and the format character is read off. -/
theorem field_text (s : Directive) (v : BitVec 32) :
    field s.text.tail (s.args v) = some (s.field, [s.conv.char], [.word v]) := by
  obtain ⟨hminus, hzero, -⟩ := s.width.text_flags s.conv
  have hminus' : ((if s.zero then [ch '0'] else []) ++
      (s.width.text ++ [s.conv.char])).head? ≠ some (ch '-') := by
    cases s.zero with
    | false => exact hminus
    | true =>
      intro h
      exact absurd (Option.some.inj h) (by decide)
  have hpoint : skip (ch '.') [s.conv.char] = (false, [s.conv.char]) :=
    skip_of_ne fun he => s.conv.char_spec.2.2.2.1 (Option.some.inj he)
  have hskip := skip_flag s.leftjust hminus'
  have hskip0 := skip_flag s.zero hzero
  have hsize := size_width s v
  simp [Directive.text, field, Directive.field, Directive.fill, hskip, hskip0, hsize, hpoint]

/-- The formatters on a directive: what the `switch` leaves is put in the field. -/
theorem format_text (convert : UInt8 → Field → List Arg → Option (Converted × List Arg))
    (s : Directive) (v : BitVec 32) : format convert (s.text.length + 1) s.text (s.args v) =
      (convert s.conv.char s.field [.word v]).bind fun p =>
        (format convert s.text.length [] p.2).map (putField s.leftjust s.width.fmin p.1 ++ ·) := by
  have hpercent : s.text.tail.head? ≠ some (ch '%') := by
    have hw := (s.width.text_flags s.conv).2.2
    rw [Directive.text, List.tail_cons]
    cases s.leftjust <;> cases s.zero <;>
      first | exact hw | exact fun h => absurd (Option.some.inj h) (by decide)
  have hfield := field_text s v
  have htext : s.text = ch '%' :: s.text.tail := rfl
  rw [htext, format, if_neg (not_not_intro rfl), if_neg hpercent, hfield]
  rfl

/-! ## 4. The conversions of the two formatters

The `switch` of either formatter leaves digits, a sign and a length.  They differ in the decimal
only, and there only in one value. -/

theorem Conv.digit_ne_zero (c : Conv) {i : Nat} (hi : i < c.base) : c.digit i ≠ 0 := by
  have hlt := Nat.lt_of_lt_of_le hi c.base_le
  cases c <;> (interval_cases i <;> decide)

/-- The digits are written to `string` when they and the null character fit. -/
theorem inString_digits (c : Conv) (v : BitVec 32) :
    inString (c.digits v) = if (c.digits v).length + 1 ≤ stringSize then
      some (c.digits v) else none := by
  have hall : (c.digits v).takeWhile (· ≠ 0) = c.digits v := by
    refine List.takeWhile_eq_self_iff.mpr fun x hx => ?_
    obtain ⟨i, hi, rfl⟩ := List.mem_map.mp hx
    simpa using c.digit_ne_zero (numeral_lt c.one_lt_base i hi)
  rw [inString, hall]

/-- What a `switch` should leave. -/
def Directive.converted (s : Directive) (v : BitVec 32) : Option (Converted × List Arg) :=
  (inString (s.conv.digits v)).map fun str => (⟨str, s.conv.negative v, s.fill, 0⟩, [])

/-- The cases that the two copies have in common, with any `_prtl10` that is right where no sign is
needed. -/
theorem convertCommon_eq {prtl10 : Int → List UInt8}
    (h10 : ∀ n : Nat, n < 2 ^ 31 → prtl10 n = (numeral 10 n).map Conv.d.digit) (s : Directive)
    (hd : s.conv ≠ .d) (v : BitVec 32) :
    convertCommon prtl10 s.conv.char s.field [.word v] = s.converted v := by
  obtain ⟨lj, z, w, c⟩ := s
  have hword : ∀ prt : Int → Option (List UInt8), prt v.toInt = some (c.digits v) →
      convertWord prt (Directive.mk lj z w c).field [.word v] =
        (Directive.mk lj z w c).converted v := by
    intro prt hprt
    have hneg : c.negative v = false := by simpa [Conv.negative] using fun h => absurd h hd
    rw [convertWord, argWord, Directive.converted, hneg]
    simp only [Option.bind_eq_bind, Option.bind_some, hprt]
    cases inString (c.digits v) <;> rfl
  have hdig : c.digits v = (numeral c.base v.toNat).map c.digit := by
    rw [Conv.digits, Conv.magnitude, if_neg hd]
  cases c with
  | d => exact absurd rfl hd
  | u => exact hword (prtu prtl10) ((prtu_eq h10 v).trans (congrArg some hdig.symm))
  | o => exact hword (fun larg => some (prtl8 larg)) (congrArg some ((prtl8_eq v).trans hdig.symm))
  | x =>
    exact hword (fun larg => some (prtl16 larg))
      (congrArg some ((prtHex_eq .x rfl (fun _ => rfl) v).trans hdig.symm))
  | X =>
    exact hword (fun larg => some (prtX16 larg))
      (congrArg some ((prtHex_eq .X rfl (fun _ => rfl) v).trans hdig.symm))
  | b => exact hword (fun larg => some (prtl2 larg)) (congrArg some ((prtl2_eq v).trans hdig.symm))

theorem converted_d {s : Directive} (hd : s.conv = .d) (v : BitVec 32) :
    s.converted v = (inString ((numeral 10 v.toInt.natAbs).map Conv.d.digit)).map fun str =>
      (⟨str, decide (v.toInt < 0), s.fill, 0⟩, []) := by
  have hneg : s.conv.negative v = decide (v.toInt < 0) := by simp [Conv.negative, hd]
  have hdig : s.conv.digits v = (numeral 10 v.toInt.natAbs).map Conv.d.digit := by
    rw [Conv.digits, Conv.magnitude, hd, if_pos rfl]
    rfl
  rw [Directive.converted, hneg, hdig]

theorem Doprnt.convert_d {s : Directive} (hd : s.conv = .d) (v : BitVec 32) :
    Doprnt.convert s.conv.char s.field [.word v] = (inString (Doprnt.prtl10 v.toInt)).map fun str =>
      (⟨str, decide (v.toInt < 0), s.fill, 0⟩, []) := by
  have hchar : Conv.d.char = ch 'd' := rfl
  rw [hd, Doprnt.convert, if_pos hchar]
  simp only [argWord, Option.bind_eq_bind, Option.bind_some]
  cases inString (Doprnt.prtl10 v.toInt) <;> rfl

theorem Doprnt.convert_eq (s : Directive) (v : BitVec 32) :
    Doprnt.convert s.conv.char s.field [.word v] = s.converted v := by
  by_cases hd : s.conv = .d
  · have hv := toInt_cases v
    rw [Doprnt.convert_d hd, converted_d hd, Doprnt.prtl10_eq (by omega)]
  · have h10 : ∀ n : Nat, n < 2 ^ 31 → Doprnt.prtl10 n = (numeral 10 n).map Conv.d.digit :=
      fun n hn => Doprnt.prtl10_eq (by omega : (n : Int).natAbs < 10 ^ 10)
    rw [← convertCommon_eq h10 s hd, Doprnt.convert, if_neg, if_neg, if_neg] <;>
      (cases hc : s.conv <;> first | exact absurd hc hd | decide)

theorem Fdoprnt.convert_d {s : Directive} (hd : s.conv = .d) (v : BitVec 32) :
    Fdoprnt.convert s.conv.char s.field [.word v] =
      (inString (Fdoprnt.prtl10 (if v.toInt < 0 then toLong (-v.toInt) else
        v.toInt))).map fun str =>
        (⟨str, decide (v.toInt < 0), s.fill, 0⟩, []) := by
  have hchar : Conv.d.char = ch 'd' := rfl
  rw [hd, Fdoprnt.convert, if_pos hchar]
  simp only [argWord, Option.bind_eq_bind, Option.bind_some]
  cases inString (Fdoprnt.prtl10 (if v.toInt < 0 then toLong (-v.toInt) else v.toInt)) <;> rfl

/-- `_fdoprnt` leaves the same, but for the most negative number. -/
theorem Fdoprnt.convert_eq (s : Directive) {v : BitVec 32} (hv : ¬(s.conv = .d ∧ v = intMin)) :
    Fdoprnt.convert s.conv.char s.field [.word v] = s.converted v := by
  have h10 : ∀ n : Nat, n < 2 ^ 31 → Fdoprnt.prtl10 n = (numeral 10 n).map Conv.d.digit :=
    fun n hn => Fdoprnt.prtl10_eq (by omega)
  by_cases hd : s.conv = .d
  · have hne : v.toNat ≠ 2 ^ 31 := fun he => hv ⟨hd, BitVec.eq_of_toNat_eq he⟩
    have habs : (if v.toInt < 0 then toLong (-v.toInt) else v.toInt) = v.toInt.natAbs := by
      have hcases := toInt_cases v
      rw [toLong]
      split <;> omega
    have hlt := toInt_cases v
    rw [Fdoprnt.convert_d hd, converted_d hd, habs, h10 _ (by omega)]
  · rw [← convertCommon_eq h10 s hd, Fdoprnt.convert, if_neg]
    cases hc : s.conv <;> first | exact absurd hc hd | decide

/-! ## 5. Padding

The field is the sign, the fill characters and the digits in one of three orders.  It denotes the
number unless zeros come behind the digits, and it has the width asked for unless that is over
`MAXSTR`. -/

/-- The number of fill characters. -/
def padding (fmin : Int) (n : Nat) : Nat :=
    ((if fmin > MAXSTR ∨ fmin < 0 then 0 else fmin) - n).toNat

/-- The sign, the fill characters and the digits. -/
theorem putField_eq (leftjust zero : Bool) (fmin : Int) (str sign : List UInt8) (neg : Bool)
    (hsign : sign = if neg then [ch '-'] else []) :
    putField leftjust fmin ⟨str, neg, if zero then ch '0' else ch ' ', 0⟩ =
      match leftjust, zero with
      | false, false =>
        List.replicate (padding fmin (sign.length + str.length)) (ch ' ') ++ sign ++ str
      | false, true =>
        sign ++ List.replicate (padding fmin (sign.length + str.length)) (ch '0') ++ str
      | true, false =>
        sign ++ str ++ List.replicate (padding fmin (sign.length + str.length)) (ch ' ')
      | true, true =>
        sign ++ str ++ List.replicate (padding fmin (sign.length + str.length)) (ch '0') := by
  have hzero : ch '0' ≠ ch ' ' := by decide
  rw [padding, putField, hsign]
  generalize (if fmin > MAXSTR ∨ fmin < 0 then 0 else fmin) = w
  have hleading : (if (0 : Int) ≠ 0 ∨ w ≠ 0 then
      (if w ≠ 0 then w - str.length else 0) - (if neg then 1 else 0) else 0).toNat =
      (w - ((if neg then [ch '-'] else []).length + str.length : Nat)).toNat := by
    cases neg <;> by_cases hw : w = 0 <;> simp [hw] <;> omega
  have hmax : (if (0 : Int) > MAXSTR ∨ (0 : Int) < 0 then (0 : Int) else 0) = 0 := by decide
  simp only [hmax, ne_eq, not_true_eq_false, false_and, if_false, Int.toNat_natCast,
    List.take_length]
  simp only [ne_eq, not_true_eq_false] at hleading
  simp only [hleading]
  cases leftjust <;> cases zero <;> cases neg <;> simp [hzero, hzero.symm]

/-- Strings of one length leave different fields. -/
theorem putField_inj {leftjust : Bool} (zero : Bool) {fmin : Int} {str str' : List UInt8}
    {neg : Bool}
    (hlen : str.length = str'.length)
    (h : putField leftjust fmin ⟨str, neg, if zero then ch '0' else ch ' ', 0⟩ =
      putField leftjust fmin ⟨str', neg, if zero then ch '0' else ch ' ', 0⟩) : str = str' := by
  rw [putField_eq _ _ _ _ _ _ rfl, putField_eq _ _ _ _ _ _ rfl, hlen] at h
  cases leftjust <;> cases zero <;> simpa using h

theorem padding_le (fmin : Int) (n : Nat) : padding fmin n + n ≤ max 80 n := by
  rw [padding, MAXSTR]
  split <;> omega

/-- A width that is not over `MAXSTR` is kept. -/
theorem padding_eq {w : Width} (hw : w.toNat ≤ 80) (n : Nat) : padding w.fmin n = w.toNat - n := by
  cases w with
  | literal w =>
    have hw' : w ≤ 80 := hw
    rw [Width.fmin_literal (by omega), padding, MAXSTR, Width.toNat, if_neg (by omega)]
    omega
  | star w =>
    rw [Width.toNat] at hw ⊢
    rw [padding, MAXSTR, Width.fmin]
    split <;> omega

/-- The width, filled with characters that do not change the number: blanks in front, zeros between
the sign and the digits, or blanks behind. -/
def Padded (width : Nat) (sign ds out : List UInt8) : Prop :=
  (∃ i j k, out = List.replicate i (ch ' ') ++ sign ++ List.replicate j (ch '0') ++ ds ++
    List.replicate k (ch ' ')) ∧ out.length = max width (sign.length + ds.length)

/-- Zeros behind the digits change the number. -/
theorem not_padded_zeros (width : Nat) {k : Nat} (sign : List UInt8) {ds : List UInt8} {d : UInt8}
    (hk : 0 < k) (hsign : ∀ c ∈ sign, c ≠ ch ' ') (hd : ds.head? = some d) (h0 : d ≠ ch '0')
    (hb : d ≠ ch ' ') :
    ¬Padded width sign ds (sign ++ ds ++ List.replicate k (ch '0')) := by
  rintro ⟨⟨i, j, l, he⟩, -⟩
  have hlen := congrArg List.length he
  simp only [List.length_append, List.length_replicate] at hlen
  have hne : ch '0' ≠ ch ' ' := by decide
  have hl : l = 0 := by
    by_contra hl
    obtain ⟨l, rfl⟩ := Nat.exists_eq_succ_of_ne_zero hl
    obtain ⟨k, rfl⟩ := Nat.exists_eq_succ_of_ne_zero hk.ne'
    have hlast := congrArg List.getLast? he
    rw [List.replicate_succ', List.replicate_succ', ← List.append_assoc, ← List.append_assoc,
      List.getLast?_concat, List.getLast?_concat] at hlast
    exact hne (Option.some.inj hlast)
  have hi : i = 0 := by
    by_contra hi
    obtain ⟨i, rfl⟩ := Nat.exists_eq_succ_of_ne_zero hi
    have hhead := congrArg List.head? he
    cases sign with
    | nil =>
      rw [List.nil_append, List.head?_append, hd] at hhead
      exact hb (Option.some.inj hhead)
    | cons c sign => exact hsign c List.mem_cons_self (Option.some.inj hhead)
  subst hl hi
  obtain ⟨j, rfl⟩ : ∃ j', j = j' + 1 := ⟨j - 1, by omega⟩
  rw [List.replicate_zero, List.append_nil, List.nil_append, List.append_assoc,
    List.append_assoc] at he
  have hhead := congrArg List.head? (List.append_cancel_left he)
  rw [List.head?_append, hd] at hhead
  exact h0 (Option.some.inj hhead)

/-! ## 6. What the formatters write

The sections before, put together for a directive and a value. -/

theorem Conv.digits_fit_iff (c : Conv) (v : BitVec 32) :
    (c.digits v).length + 1 ≤ stringSize ↔ (c = .b → v.toNat < 2 ^ 19) := by
  have hmag := c.magnitude_lt v
  rw [Conv.digits, List.length_map, stringSize, Nat.succ_le_succ_iff,
    length_numeral_le_iff c.one_lt_base (by decide)]
  cases c with
  | b => exact ⟨fun h _ => h, fun h => h rfl⟩
  | _ => exact ⟨fun _ h => (nomatch h), fun _ => lt_trans hmag (by decide)⟩

theorem Conv.magnitude_eq_zero_iff (c : Conv) (v : BitVec 32) : c.magnitude v = 0 ↔ v = 0 := by
  have hv := toInt_cases v
  have hiff : v.toNat = 0 ↔ v = 0 := ⟨fun h => BitVec.eq_of_toNat_eq h, fun h => by rw [h]; rfl⟩
  rw [Conv.magnitude, ← hiff]
  split <;> omega

/-- The leading digit of a value other than 0. -/
theorem Conv.digits_head (c : Conv) {v : BitVec 32} (hv : v ≠ 0) :
    ∃ d, (c.digits v).head? = some d ∧ d ≠ ch '0' ∧ d ≠ ch ' ' := by
  obtain ⟨i, ds, hds⟩ := List.exists_cons_of_ne_nil (numeral_ne_nil c.base (c.magnitude v))
  have hi : i ≠ 0 := numeral_head (mt (c.magnitude_eq_zero_iff v).mp hv) (by rw [hds]; rfl)
  have hlt : i < c.base := numeral_lt c.one_lt_base i (by rw [hds]; exact List.mem_cons_self)
  refine ⟨c.digit i, by rw [Conv.digits, hds]; rfl, c.digit_ne hlt hi, ?_⟩
  have h16 := Nat.lt_of_lt_of_le hlt c.base_le
  cases c <;> (interval_cases i <;> decide)

theorem Conv.digits_zero (c : Conv) : c.digits 0 = [ch '0'] := by
  rw [Conv.digits, (c.magnitude_eq_zero_iff 0).mpr rfl, numeral_zero, List.map_singleton,
    c.digit_zero]

/-- What is written when the digits fit. -/
def Directive.written (s : Directive) (v : BitVec 32) : List UInt8 :=
  putField s.leftjust s.width.fmin ⟨s.conv.digits v, s.conv.negative v, s.fill, 0⟩

theorem format_converted {convert : UInt8 → Field → List Arg → Option (Converted × List Arg)}
    {s : Directive} {v : BitVec 32}
    (h : convert s.conv.char s.field [.word v] = s.converted v) :
    format convert (s.text.length + 1) s.text (s.args v) =
      if (s.conv.digits v).length + 1 ≤ stringSize then some (s.written v) else none := by
  rw [format_text, h, Directive.converted, inString_digits]
  split
  · have htext : s.text.length = s.text.tail.length + 1 := rfl
    rw [htext]
    simp [format, Directive.written]
  · rfl

/-- The number of characters of the sign and the digits. -/
def Conv.chars (c : Conv) (v : BitVec 32) : Nat := (c.signOf v).length + (c.digits v).length

theorem Directive.written_eq (s : Directive) (v : BitVec 32) :
    s.written v =
      let pad := List.replicate (padding s.width.fmin (s.conv.chars v)) s.fill
      if s.leftjust then s.conv.signOf v ++ s.conv.digits v ++ pad
      else if s.zero then s.conv.signOf v ++ pad ++ s.conv.digits v
      else pad ++ s.conv.signOf v ++ s.conv.digits v := by
  have h := putField_eq s.leftjust s.zero s.width.fmin (s.conv.digits v) (s.conv.signOf v)
    (s.conv.negative v) rfl
  rw [Directive.written, Directive.fill, h]
  cases s.leftjust <;> cases s.zero <;> rfl

theorem Directive.length_written (s : Directive) (v : BitVec 32) :
    (s.written v).length = padding s.width.fmin (s.conv.chars v) + s.conv.chars v := by
  rw [s.written_eq, Conv.chars]
  cases s.leftjust <;> cases s.zero <;> simp <;> omega

/-- What is written is padded right unless zeros go behind the digits or the width is too large. -/
theorem padded_written_iff (s : Directive) (v : BitVec 32)
    (hfit : (s.conv.digits v).length + 1 ≤ stringSize) :
    Padded s.width.toNat (s.conv.signOf v) (s.conv.digits v) (s.written v) ↔
      (s.leftjust = true → s.zero = true → v = 0 ∨ s.width.toNat ≤ s.conv.chars v) ∧
        s.width.toNat ≤ 80 := by
  have hsign : (s.conv.signOf v).length ≤ 1 := by
    rw [Conv.signOf]
    split <;> simp
  have hchars : s.conv.chars v ≤ 20 := by
    rw [stringSize] at hfit
    rw [Conv.chars]
    omega
  have hlen := s.length_written v
  by_cases hw : s.width.toNat ≤ 80
  · have hpad := padding_eq hw (s.conv.chars v)
    have hmax : (s.written v).length =
        max s.width.toNat ((s.conv.signOf v).length + (s.conv.digits v).length) := by
      rw [hlen, hpad, ← Conv.chars]
      omega
    have hwritten := s.written_eq v
    rw [hpad] at hwritten
    have hpadded : ∀ i j k, s.written v = List.replicate i (ch ' ') ++ s.conv.signOf v ++
        List.replicate j (ch '0') ++ s.conv.digits v ++ List.replicate k (ch ' ') →
        Padded s.width.toNat (s.conv.signOf v) (s.conv.digits v) (s.written v) :=
      fun i j k he => ⟨⟨i, j, k, he⟩, hmax⟩
    rw [and_iff_left hw]
    cases hlj : s.leftjust with
    | false =>
      refine iff_of_true ?_ (fun h => nomatch h)
      cases hz : s.zero with
      | false =>
        refine hpadded (s.width.toNat - s.conv.chars v) 0 0 ?_
        simp [hwritten, hlj, hz, Directive.fill]
      | true =>
        refine hpadded 0 (s.width.toNat - s.conv.chars v) 0 ?_
        simp [hwritten, hlj, hz, Directive.fill]
    | true =>
      cases hz : s.zero with
      | false =>
        refine iff_of_true ?_ (fun _ h => nomatch h)
        refine hpadded 0 0 (s.width.toNat - s.conv.chars v) ?_
        simp [hwritten, hlj, hz, Directive.fill]
      | true =>
        have hzeros : s.written v = s.conv.signOf v ++ s.conv.digits v ++
            List.replicate (s.width.toNat - s.conv.chars v) (ch '0') := by
          simp [hwritten, hlj, hz, Directive.fill]
        by_cases hle : s.width.toNat ≤ s.conv.chars v
        · refine iff_of_true (hpadded 0 0 0 ?_) fun _ _ => .inr hle
          simp [hzeros, Nat.sub_eq_zero_of_le hle]
        · by_cases hv : v = 0
          · refine iff_of_true (hpadded 0 (s.width.toNat - s.conv.chars v) 0 ?_) fun _ _ => .inl hv
            rw [hzeros, hv, s.conv.digits_zero, List.append_assoc, List.singleton_append,
              ← List.replicate_succ, List.replicate_succ']
            simp
          · obtain ⟨d, hd, h0, hb⟩ := s.conv.digits_head hv
            have hnot := not_padded_zeros s.width.toNat (k := s.width.toNat - s.conv.chars v)
              (s.conv.signOf v) (by omega) ?_ hd h0 hb
            · rw [← hzeros] at hnot
              exact iff_of_false hnot fun h => (h rfl rfl).elim hv hle
            · intro c hc
              rw [Conv.signOf] at hc
              split at hc
              · rw [List.mem_singleton.mp hc]
                decide
              · cases hc
  · refine iff_of_false ?_ fun h => hw h.2
    rintro ⟨-, hmax⟩
    have hle := padding_le s.width.fmin (s.conv.chars v)
    rw [hlen] at hmax
    omega

/-! ## 7. Integer formatting

What should happen, and exactly when it does. -/

/-- What should happen: both formatters write the sign and the digits, padded to the width, and
`string` has room for the digits and the null character. -/
structure Formatted (s : Directive) (v : BitVec 32) : Prop where
  out : ∃ out, doprnt s.text (s.args v) = some out ∧ fdoprnt s.text (s.args v) = some out ∧
    Padded s.width.toNat (s.conv.signOf v) (s.conv.digits v) out
  fits : (s.conv.digits v).length + 1 ≤ stringSize

theorem doprnt_text (s : Directive) (v : BitVec 32) : doprnt s.text (s.args v) =
    if (s.conv.digits v).length + 1 ≤ stringSize then some (s.written v) else none :=
  format_converted (Doprnt.convert_eq s v)

theorem fdoprnt_text {s : Directive} {v : BitVec 32} (hv : ¬(s.conv = .d ∧ v = intMin)) :
    fdoprnt s.text (s.args v) =
      if (s.conv.digits v).length + 1 ≤ stringSize then some (s.written v) else none :=
  format_converted (Fdoprnt.convert_eq s hv)

/-- `_fdoprnt` does not write the digits of the most negative number. -/
theorem fdoprnt_intMin {s : Directive} (hs : s.conv = .d) :
    fdoprnt s.text (s.args intMin) ≠ doprnt s.text (s.args intMin) := by
  have hneg : intMin.toInt = -2147483648 := rfl
  have hdoprnt : Doprnt.prtl10 (-2147483648) =
      ['2', '1', '4', '7', '4', '8', '3', '6', '4', '8'].map ch := by decide
  have hfdoprnt : Fdoprnt.prtl10 (toLong 2147483648) =
      ['.', '/', ',', ')', ',', '(', '-', '*', ',', '('].map ch := by decide
  intro h
  rw [doprnt, fdoprnt, format_text, format_text, Doprnt.convert_d hs, Fdoprnt.convert_d hs, hneg,
    if_pos (by decide), Int.neg_neg, hdoprnt, hfdoprnt] at h
  have hin : ∀ l : List Char, (l = ['2', '1', '4', '7', '4', '8', '3', '6', '4', '8'] ∨
      l = ['.', '/', ',', ')', ',', '(', '-', '*', ',', '(']) →
      inString (l.map ch) = some (l.map ch) := by
    rintro l (rfl | rfl) <;> decide
  have htext : s.text.length = s.text.tail.length + 1 := rfl
  rw [hin _ (.inl rfl), hin _ (.inr rfl), htext] at h
  have hput := Option.some.inj h
  dsimp only at hput
  rw [List.append_nil, List.append_nil] at hput
  have heq := putField_inj s.zero (by rfl) hput
  exact absurd heq (by decide)

/-- **Integer formatting.**  Every directive and every value are formatted right, with four
exceptions: the most negative decimal, binary numerals of 20 digits and more, zeros for a value
other than 0 on the right, and widths over `MAXSTR`. -/
theorem formatted_iff (s : Directive) (v : BitVec 32) :
    Formatted s v ↔ ¬(s.conv = .d ∧ v = intMin) ∧ (s.conv = .b → v.toNat < 2 ^ 19) ∧
      (s.leftjust = true → s.zero = true → v = 0 ∨ s.width.toNat ≤ s.conv.chars v) ∧
        s.width.toNat ≤ 80 := by
  constructor
  · rintro ⟨⟨out, hout, hfout, hpad⟩, hfits⟩
    rw [doprnt_text, if_pos hfits] at hout
    obtain rfl := Option.some.inj hout
    refine ⟨?_, (s.conv.digits_fit_iff v).mp hfits, (padded_written_iff s v hfits).mp hpad⟩
    rintro ⟨hd, rfl⟩
    refine fdoprnt_intMin hd (hfout.trans ?_)
    rw [doprnt_text, if_pos hfits]
  · rintro ⟨hmin, hb, hpad⟩
    have hfits := (s.conv.digits_fit_iff v).mpr hb
    refine ⟨⟨s.written v, ?_, ?_, (padded_written_iff s v hfits).mpr hpad⟩, hfits⟩
    · rw [doprnt_text, if_pos hfits]
    · rw [fdoprnt_text hmin, if_pos hfits]

/-- The two formatters on `%d` and the most negative number. -/
theorem formats_differ :
    doprnt [ch '%', ch 'd'] [.word intMin] =
      some (['-', '2', '1', '4', '7', '4', '8', '3', '6', '4', '8'].map ch) ∧
    fdoprnt [ch '%', ch 'd'] [.word intMin] =
      some (['-', '.', '/', ',', ')', ',', '(', '-', '*', ',', '('].map ch) ∧
    ¬Formatted ⟨false, false, .literal 0, .d⟩ intMin :=
  ⟨by decide, by decide, fun ⟨⟨_, h1, h2, _⟩, _⟩ => fdoprnt_intMin
    (s := ⟨false, false, .literal 0, .d⟩)
    rfl (h2.trans h1.symm)⟩

end Xinu
