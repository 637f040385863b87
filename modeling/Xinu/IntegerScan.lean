/-
# Scanning integers

A number in a text is what is left after blanks: a sign or none, and the longest run of digits of
the base that fits in the length (`numberRun`).  `_innum` takes for a digit only what is a digit of
the base and not one of `0` to `9`.  So it stops in front of the first decimal digit, and consumes
exactly the number where there is none in it (`consumes_iff`).  A printed number is read back only
if it is hexadecimal and has letters for digits (`roundTrips_iff`).

The specification is stated on the text alone: which of its characters are blanks, sign and digits
(section 1).  The code is run on a string with the two functions that read from memory (section
2), and both are compared (section 3).
-/
import Xinu.Doscan
import Xinu.IntegerFormat

namespace Xinu

open Numerals

/-! ## 1. Numbers in a text

The number that a scanner for a base should read, whatever the code does: the blanks in front, at
most one sign, and the longest run of digits that fits in the field width. -/

def isDigitOf (base : Nat) (c : UInt8) : Prop := (isdigit c ∨ isletter c) ∧ digitValue c < base

instance (base : Nat) (c : UInt8) : Decidable (isDigitOf base c) :=
  inferInstanceAs (Decidable (_ ∧ _))

def isSign (c : UInt8) : Prop := c = ch '-' ∨ c = ch '+'

instance (c : UInt8) : Decidable (isSign c) := inferInstanceAs (Decidable (_ ∨ _))

def leadingBlanks (l : List UInt8) : List UInt8 := l.takeWhile (isblank ·)

/-- The sign after the blanks, if there is one. -/
def leadingSign (l : List UInt8) : List UInt8 :=
  ((l.dropWhile (isblank ·)).take 1).takeWhile (isSign ·)

def afterSign (l : List UInt8) : List UInt8 :=
  (l.dropWhile (isblank ·)).drop (leadingSign l).length

/-- The longest run of characters with the property that fits in the length. -/
def runOf (p : UInt8 → Prop) [DecidablePred p] (len : Int) (l : List UInt8) : List UInt8 :=
  ((afterSign l).take (len - (leadingSign l).length).toNat).takeWhile (p ·)

/-- The digits of the number. -/
def numberRun (base : Nat) (len : Int) (l : List UInt8) : List UInt8 := runOf (isDigitOf base) len l

/-- The characters in front of the digits. -/
def beforeDigits (l : List UInt8) : Nat := (leadingBlanks l).length + (leadingSign l).length

/-- The characters of the number that `numbuf` has room for, or should have. -/
def keptChars (base : Nat) (len : Int) (l : List UInt8) : Nat :=
  (if leadingSign l = [ch '-'] then 1 else 0) + (numberRun base len l).length

/-! ## 2. Reading a string

`_innum` reads one character ahead and gives the last one back, by the functions that `sscanf`
passes.  At the end of a string they stay where they are.  The loop over the digits tests each
character against the base and stores it in `numbuf`, which has room for 64. -/

section Reading

variable {s : CString} {pos : Nat} {c : UInt8} {l : List UInt8}

theorem sgetch_nil (h : s.chars.drop pos = []) : sgetch s.chars pos = (EOF, pos) := by
  rw [sgetch, List.getElem?_eq_none (List.drop_eq_nil_iff.mp h)]

theorem sgetch_cons (h : s.chars.drop pos = c :: l) : sgetch s.chars pos = (toInt c, pos + 1) := by
  have hget : s.chars[pos]? = some c := by rw [← List.head?_drop, h]; rfl
  have hc : c ≠ 0 := fun e => s.nonnull (e ▸ List.mem_of_getElem? hget)
  rw [sgetch, hget]
  exact if_neg hc

theorem drop_succ (h : s.chars.drop pos = c :: l) : s.chars.drop (pos + 1) = l := by
  rw [← List.drop_drop, h, List.drop_succ_cons, List.drop_zero]

/-- The character that has been read last, as a `char`. -/
def readChar (s : CString) (pos : Nat) : UInt8 := toChar (sgetch s.chars pos).1

theorem readChar_cons (h : s.chars.drop pos = c :: l) : readChar s pos = c := by
  rw [readChar, sgetch_cons h, toChar_toInt]

theorem readChar_nil (h : s.chars.drop pos = []) : readChar s pos = 254 := by
  rw [readChar, sgetch_nil h]
  rfl

/-- The character at the end of a scan is given back, unless it is that of `EOF`. -/
theorem giveBack (s : CString) (pos : Nat) :
    (if toInt (readChar s pos) = EOF then (sgetch s.chars pos).2 else
      sungetch (sgetch s.chars pos).2) =
      if (s.chars.drop pos).head? = some 254 then pos + 1 else pos := by
  have heof : ∀ c : UInt8, toInt c = EOF ↔ c = 254 := by
    intro c
    constructor
    · intro h
      rw [← toChar_toInt c, h]
      rfl
    · rintro rfl
      rfl
  cases h : s.chars.drop pos with
  | nil =>
    rw [readChar_nil h, sgetch_nil h, if_pos ((heof 254).mpr rfl)]
    exact (if_neg (by simp)).symm
  | cons c l =>
    rw [readChar_cons h, sgetch_cons h, List.head?_cons]
    by_cases hc : c = 254
    · rw [if_pos ((heof c).mpr hc), if_pos (congrArg some hc)]
    · rw [if_neg (mt (heof c).mp hc), if_neg fun e => hc (Option.some.inj e)]
      rfl

theorem drop_takeWhile_length (p : UInt8 → Bool) (l : List UInt8) :
    l.drop (l.takeWhile p).length = l.dropWhile p := by
  have hsplit : (l.takeWhile p ++ l.dropWhile p).drop (l.takeWhile p).length = l.dropWhile p :=
    List.drop_left
  rwa [List.takeWhile_append_dropWhile] at hsplit

theorem skipBlank_succ (s : CString) (fuel pos : Nat) :
    skipBlank (stringSource s.chars) (fuel + 1) pos =
      if isblank (readChar s pos) then skipBlank (stringSource s.chars) fuel (sgetch s.chars pos).2
      else some (sgetch s.chars pos) := rfl

/-- `_innum` skips the blanks and reads one more character. -/
theorem skipBlank_eq {fuel : Nat} (hl : s.chars.drop pos = l)
    (hfuel : (leadingBlanks l).length < fuel) :
    skipBlank (stringSource s.chars) fuel pos =
      some (sgetch s.chars (pos + (leadingBlanks l).length)) := by
  induction l generalizing pos fuel with
  | nil =>
    obtain ⟨fuel, rfl⟩ := Nat.exists_eq_succ_of_ne_zero (Nat.ne_of_gt (Nat.zero_lt_of_lt hfuel))
    rw [skipBlank_succ, readChar_nil hl, if_neg (by decide)]
    rfl
  | cons c l ih =>
    obtain ⟨fuel, rfl⟩ := Nat.exists_eq_succ_of_ne_zero (Nat.ne_of_gt (Nat.zero_lt_of_lt hfuel))
    rw [skipBlank_succ, readChar_cons hl]
    by_cases hc : isblank c
    · have hlen : leadingBlanks (c :: l) = c :: leadingBlanks l :=
        List.takeWhile_cons_of_pos (by simpa using hc)
      rw [hlen, List.length_cons] at hfuel ⊢
      rw [if_pos hc, sgetch_cons hl, ih (drop_succ hl) (by omega), Nat.add_assoc, Nat.add_comm 1]
    · have hlen : leadingBlanks (c :: l) = [] :=
        List.takeWhile_cons_of_neg (by simpa using hc)
      rw [if_neg hc, hlen]
      rfl

/-- It takes a sign and keeps a minus sign. -/
theorem innumSign_eq (hl : s.chars.drop pos = l) (len : Int) :
    innumSign (stringSource s.chars) len (readChar s pos) (sgetch s.chars pos).2 =
      let sign := (l.take 1).takeWhile (isSign ·)
      some (decide (sign = [ch '-']), if sign = [ch '-'] then 1 else 0, len - sign.length,
        readChar s (pos + sign.length), (sgetch s.chars (pos + sign.length)).2) := by
  cases l with
  | nil =>
    rw [readChar_nil hl, innumSign, if_neg (by decide), if_neg (by decide)]
    simp [readChar_nil hl]
  | cons c l =>
    rw [readChar_cons hl, sgetch_cons hl, innumSign]
    by_cases hminus : c = ch '-'
    · subst hminus
      have hsign : isSign (ch '-') := .inl rfl
      simp [hsign]
      rfl
    · by_cases hplus : c = ch '+'
      · subst hplus
        have hsign : isSign (ch '+') := .inr rfl
        simp [hsign, hminus]
        exact ⟨rfl, rfl⟩
      · have hsign : ¬isSign c := fun h => h.elim hminus hplus
        simp [hsign, hminus, hplus, readChar_cons hl, sgetch_cons hl]

/-- The value of the run that is accepted. -/
def scanValue (base : Nat) (v : BitVec 32) (run : List UInt8) : BitVec 32 :=
  run.foldl (fun v c => shiftBase base v + BitVec.ofNat 32 (digitValue c)) v

/-- The loop takes the run of characters that are accepted, if `numbuf` has room for it. -/
theorem innumLoop_eq {base fuel np : Nat} {len : Int} {run : List UInt8}
    (hl : s.chars.drop pos = l) (hrun : run = (l.take len.toNat).takeWhile (acceptsDigit base ·))
    (hfuel : run.length < fuel) (hnp : np ≤ numbufSize) (v : BitVec 32) :
    innumLoop (stringSource s.chars) base fuel len (readChar s pos) np v (sgetch s.chars pos).2 =
      if np + run.length ≤ numbufSize then
        some (readChar s (pos + run.length), np + run.length, scanValue base v run,
          (sgetch s.chars (pos + run.length)).2)
      else none := by
  have hletter : ¬acceptsDigit base 254 := fun h => absurd h.2 (by decide)
  induction run generalizing pos l fuel np len v with
  | nil =>
    obtain ⟨fuel, rfl⟩ := Nat.exists_eq_succ_of_ne_zero (Nat.ne_of_gt (Nat.zero_lt_of_lt hfuel))
    have hstop : ¬(len - 1 ≥ 0 ∧ acceptsDigit base (readChar s pos)) := by
      rintro ⟨hlen, hacc⟩
      obtain ⟨n, hn⟩ : ∃ n, len.toNat = n + 1 := ⟨len.toNat - 1, by omega⟩
      cases l with
      | nil => exact hletter (readChar_nil hl ▸ hacc)
      | cons c l =>
        rw [readChar_cons hl] at hacc
        rw [hn, List.take_succ_cons, List.takeWhile_cons_of_pos (by simpa using hacc)] at hrun
        cases hrun
    rw [innumLoop, if_neg hstop, List.length_nil, Nat.add_zero, Nat.add_zero, if_pos hnp]
    rfl
  | cons c run ih =>
    obtain ⟨fuel, rfl⟩ := Nat.exists_eq_succ_of_ne_zero (Nat.ne_of_gt (Nat.zero_lt_of_lt hfuel))
    obtain ⟨l, rfl⟩ : ∃ l', l = c :: l' := by
      cases l with
      | nil => simp at hrun
      | cons x l =>
        cases hn : len.toNat with
        | zero => simp [hn] at hrun
        | succ n =>
          rw [hn, List.take_succ_cons, List.takeWhile_cons] at hrun
          split at hrun
          · exact ⟨l, by rw [(List.cons.inj hrun).1]⟩
          · cases hrun
    obtain ⟨n, hn⟩ : ∃ n, len.toNat = n + 1 := by
      cases hn : len.toNat with
      | zero => simp [hn] at hrun
      | succ n => exact ⟨n, rfl⟩
    rw [hn, List.take_succ_cons, List.takeWhile_cons] at hrun
    have hacc : acceptsDigit base c := by
      by_contra hc
      rw [if_neg (by simpa using hc)] at hrun
      cases hrun
    rw [if_pos (by simpa using hacc)] at hrun
    have hrun' : run = (l.take (len - 1).toNat).takeWhile (acceptsDigit base ·) := by
      rw [(List.cons.inj hrun).2]
      congr 2
      omega
    have hgo : len - 1 ≥ 0 ∧ acceptsDigit base c := ⟨by omega, hacc⟩
    rw [readChar_cons hl, sgetch_cons hl, innumLoop, if_pos hgo]
    by_cases hroom : np < numbufSize
    · have hfuel' : run.length < fuel := by
        rw [List.length_cons] at hfuel
        omega
      have hih := ih (drop_succ hl) hrun' hfuel' (Nat.succ_le_of_lt hroom)
        (shiftBase base v + BitVec.ofNat 32 (digitValue c))
      rw [List.length_cons, ← Nat.add_assoc, Nat.add_right_comm np, Nat.add_comm run.length,
        ← Nat.add_assoc, putNumbuf, if_pos hroom]
      exact hih
    · rw [putNumbuf, if_neg hroom, if_neg (by rw [List.length_cons]; omega)]
      rfl

/-- The characters that `_innum` takes for the digits. -/
def acceptedRun (base : Nat) (len : Int) (l : List UInt8) : List UInt8 :=
    runOf (acceptsDigit base) len l

theorem length_acceptedRun_le (base : Nat) (len : Int) (l : List UInt8) :
    (acceptedRun base len l).length ≤ l.length := by
  have htake := (List.takeWhile_sublist (acceptsDigit base ·)
    (l := (afterSign l).take (len - (leadingSign l).length).toNat)).length_le
  have hsign := (List.take_sublist (len - (leadingSign l).length).toNat (afterSign l)).length_le
  have hafter := (List.drop_sublist (leadingSign l).length (l.dropWhile (isblank ·))).length_le
  have hblank := (List.dropWhile_sublist (isblank ·) (l := l)).length_le
  rw [acceptedRun, runOf]
  rw [afterSign] at *
  omega

/-- What `_innum` keeps in `numbuf`. -/
def scanned (base : Nat) (len : Int) (l : List UInt8) : Nat :=
  (if leadingSign l = [ch '-'] then 1 else 0) + (acceptedRun base len l).length

/-- **`_innum` on a string**, where `numbuf` has room. -/
theorem innum_eq (s : CString) (pos : Nat) (assign : Bool) (type : UInt8) (len : Int)
    (size : Size) :
    innum (stringSource s.chars) (s.chars.length + 2) assign type len size pos =
      let l := s.chars.drop pos
      let run := acceptedRun (baseOf type) len l
      let np := scanned (baseOf type) len l
      let stop := pos + beforeDigits l + run.length
      let v := scanValue (baseOf type) 0 run
      if np + (if assign then 1 else 0) ≤ numbufSize then
        some ⟨if assign = false ∨ np = 0 then 0 else 1, toInt (readChar s stop) = EOF,
          if assign = false ∨ np = 0 then none
          else some (size.value (if leadingSign l = [ch '-'] then -v else v)),
          if (s.chars.drop stop).head? = some 254 then stop + 1 else stop⟩
      else none := by
  have hlen : (s.chars.drop pos).length ≤ s.chars.length := by simp
  have hblank := (List.takeWhile_sublist (isblank ·) (l := s.chars.drop pos)).length_le
  have hrun := length_acceptedRun_le (baseOf type) len (s.chars.drop pos)
  have hskip := skipBlank_eq (rfl : s.chars.drop pos = s.chars.drop pos)
    (by rw [leadingBlanks]; omega :
      (leadingBlanks (s.chars.drop pos)).length < s.chars.length + 2)
  have hdrop : s.chars.drop (pos + (leadingBlanks (s.chars.drop pos)).length) =
      (s.chars.drop pos).dropWhile (isblank ·) := by
    rw [← List.drop_drop]
    exact drop_takeWhile_length (isblank ·) _
  have hsign : innumSign (stringSource s.chars) len
      (readChar s (pos + (leadingBlanks (s.chars.drop pos)).length))
      (sgetch s.chars (pos + (leadingBlanks (s.chars.drop pos)).length)).2 =
      some (decide (leadingSign (s.chars.drop pos) = [ch '-']),
        if leadingSign (s.chars.drop pos) = [ch '-'] then 1 else 0,
        len - (leadingSign (s.chars.drop pos)).length,
        readChar s (pos + beforeDigits (s.chars.drop pos)),
        (sgetch s.chars (pos + beforeDigits (s.chars.drop pos))).2) := by
    rw [beforeDigits, ← Nat.add_assoc]
    exact innumSign_eq hdrop len
  have hdrop2 : s.chars.drop (pos + beforeDigits (s.chars.drop pos)) =
      afterSign (s.chars.drop pos) := by
    rw [beforeDigits, ← Nat.add_assoc, ← List.drop_drop, hdrop]
    rfl
  have hrun' : (acceptedRun (baseOf type) len (s.chars.drop pos)).length < s.chars.length + 2 := by
    omega
  have hloop := fun (np : Nat) (hnp : np ≤ numbufSize) => innumLoop_eq hdrop2
    (rfl : acceptedRun (baseOf type) len (s.chars.drop pos) = _) hrun' hnp 0
  have hback := giveBack s (pos + beforeDigits (s.chars.drop pos) +
    (acceptedRun (baseOf type) len (s.chars.drop pos)).length)
  rw [innum, hskip]
  change (innumSign (stringSource s.chars) len (readChar s _) (sgetch s.chars _).2).bind _ = _
  rw [hsign]
  simp only [Option.bind_eq_bind, Option.bind_some]
  rw [hloop _ (by split <;> decide)]
  have hnp : (if leadingSign (s.chars.drop pos) = [ch '-'] then 1 else 0) +
      (acceptedRun (baseOf type) len (s.chars.drop pos)).length =
      scanned (baseOf type) len (s.chars.drop pos) := rfl
  rw [hnp]
  generalize scanned (baseOf type) len (s.chars.drop pos) = np
  have hput : (assign = false ∨ np = 0 → (np + (if assign then 1 else 0) ≤ numbufSize ↔
      np ≤ numbufSize)) ∧
        (¬(assign = false ∨ np = 0) → (np + (if assign then 1 else 0) ≤ numbufSize ↔
      np < numbufSize)) := by
    rw [numbufSize]
    cases assign with
    | false => simp
    | true =>
      simp
      omega
  by_cases hret : assign = false ∨ np = 0
  · rw [if_congr (hput.1 hret) rfl rfl]
    by_cases hroom : np ≤ numbufSize
    · rw [if_pos hroom, if_pos hroom, ← hback]
      simp [hret, stringSource]
    · rw [if_neg hroom, if_neg hroom]
      rfl
  · rw [if_congr (hput.2 hret) rfl rfl]
    by_cases hroom : np < numbufSize
    · rw [if_pos hroom, if_pos hroom.le, ← hback]
      simp [hret, stringSource, putNumbuf, hroom]
    · rw [if_neg hroom]
      by_cases hle : np ≤ numbufSize
      · rw [if_pos hle]
        simp [hret, putNumbuf, hroom]
      · rw [if_neg hle]
        rfl

end Reading

/-! ## 3. What is consumed

The test of the code takes letters for digits and no decimal digit, so what it accepts is a run of
characters with a stronger property.  The two runs are the same exactly when no decimal digit
comes up. -/

theorem le_iff_toNat (a b : UInt8) : a ≤ b ↔ a.toNat ≤ b.toNat := Iff.rfl

theorem isletter_spec {c : UInt8} (h : isletter c) :
    ¬isdigit c ∧ 10 ≤ digitValue c ∧ digitValue c < 16 := by
  have hnum : (ch '0').toNat = 48 ∧ (ch '9').toNat = 57 ∧ (ch 'a').toNat = 97 ∧
      (ch 'f').toNat = 102 ∧ (ch 'A').toNat = 65 ∧ (ch 'F').toNat = 70 := by decide
  obtain ⟨h0, h9, ha, hf, hA, hF⟩ := hnum
  have hnot : ¬isdigit c := by
    rw [isdigit, le_iff_toNat, le_iff_toNat]
    rw [isletter, le_iff_toNat, le_iff_toNat, le_iff_toNat, le_iff_toNat] at h
    omega
  refine ⟨hnot, ?_⟩
  rw [digitValue, if_neg hnot]
  by_cases hlow : ch 'a' ≤ c ∧ c ≤ ch 'f'
  · rw [if_pos hlow]
    rw [le_iff_toNat, le_iff_toNat] at hlow
    omega
  · rw [if_neg hlow]
    have hup := h.resolve_left hlow
    rw [le_iff_toNat, le_iff_toNat] at hup
    omega

theorem baseOf_cases (type : UInt8) : baseOf type = 8 ∨ baseOf type = 10 ∨ baseOf type = 16 := by
  rw [baseOf]
  split
  · exact .inl rfl
  · split
    · exact .inr (.inr rfl)
    · exact .inr (.inl rfl)

/-- The characters taken are the digits of the base that are not decimal digits. -/
theorem acceptsDigit_iff (type c : UInt8) :
    acceptsDigit (baseOf type) c ↔ isDigitOf (baseOf type) c ∧ ¬isdigit c := by
  constructor
  · rintro ⟨hbase, hletter⟩
    obtain ⟨hnot, -, hlt⟩ := isletter_spec hletter
    exact ⟨⟨.inr hletter, by rw [hbase.resolve_left hnot]; exact hlt⟩, hnot⟩
  · rintro ⟨⟨hchar, hlt⟩, hnot⟩
    have hletter := hchar.resolve_left hnot
    have hge := (isletter_spec hletter).2.1
    refine ⟨.inr ?_, hletter⟩
    rcases baseOf_cases type with h | h | h <;> omega

/-- Two runs, one with a stronger property: they are the same, or the shorter one is followed by a
character that breaks the property. -/
theorem takeWhile_strengthen (p q : UInt8 → Bool) (l : List UInt8) :
    (l.takeWhile (fun c => p c && !q c) = l.takeWhile p ∧ ∀ c ∈ l.takeWhile p, q c = false) ∨
      (l.takeWhile fun c => p c && !q c).length < (l.takeWhile p).length ∧
        ∃ c ∈ l.takeWhile p, q c = true ∧ l[(l.takeWhile fun c => p c && !q c).length]? =
          some c := by
  induction l with
  | nil => exact .inl ⟨rfl, by simp⟩
  | cons c l ih =>
    cases hp : p c with
    | false => exact .inl ⟨by simp [hp], by simp [hp]⟩
    | true =>
      cases hq : q c with
      | true => exact .inr ⟨by simp [hp, hq], c, by simp [hp], hq, by simp [hq]⟩
      | false =>
        rcases ih with ⟨he, hall⟩ | ⟨hlt, d, hmem, hqd, hd⟩
        · exact .inl ⟨by simp [hp, hq, he], by simpa [hp, hq] using hall⟩
        · exact .inr ⟨by simpa [hp, hq] using hlt, d, by simp [hp, hmem], hqd,
            by simpa [hp, hq] using hd⟩

/-- The characters taken are the digits, or stop in front of a decimal digit. -/
theorem runs_cases (type : UInt8) (len : Int) (l : List UInt8) :
    (acceptedRun (baseOf type) len l = numberRun (baseOf type) len l ∧
      ∀ c ∈ numberRun (baseOf type) len l, ¬isdigit c) ∨
    (acceptedRun (baseOf type) len l).length < (numberRun (baseOf type) len l).length ∧
      ∃ c ∈ numberRun (baseOf type) len l, isdigit c ∧
        l[beforeDigits l + (acceptedRun (baseOf type) len l).length]? = some c := by
  have hacc : (fun c => decide (acceptsDigit (baseOf type) c)) =
      fun c => decide (isDigitOf (baseOf type) c) && !decide (isdigit c) := by
    funext c
    rw [← decide_not, ← Bool.decide_and]
    exact decide_eq_decide.mpr (acceptsDigit_iff type c)
  rw [acceptedRun, numberRun, runOf, runOf, hacc]
  rcases takeWhile_strengthen (fun c => decide (isDigitOf (baseOf type) c))
    (fun c => decide (isdigit c)) ((afterSign l).take (len - (leadingSign l).length).toNat)
    with ⟨he, hall⟩ | ⟨hlt, c, hmem, hq, hnext⟩
  · exact .inl ⟨he, fun c hc => by simpa using hall c hc⟩
  · refine .inr ⟨hlt, c, hmem, by simpa using hq, ?_⟩
    rw [List.getElem?_take] at hnext
    split at hnext
    · have hsplit : afterSign l = l.drop (beforeDigits l) := by
        rw [afterSign, beforeDigits, ← List.drop_drop, leadingBlanks, drop_takeWhile_length]
      rw [hsplit, List.getElem?_drop] at hnext
      rw [hsplit]
      exact hnext
    · cases hnext

/-- `_innum` returns, and has consumed the number. -/
def Consumes (s : CString) (pos : Nat) (assign : Bool) (type : UInt8) (len : Int) (size : Size) :
    Prop :=
  ∃ r, innum (stringSource s.chars) (s.chars.length + 2) assign type len size pos = some r ∧
    r.src = pos + beforeDigits (s.chars.drop pos) +
      (numberRun (baseOf type) len (s.chars.drop pos)).length

/-- **What `_innum` consumes.**  It is the number exactly where there is no decimal digit in it, the
next character is not that of `EOF` and `numbuf` has room for the number and a null character. -/
theorem consumes_iff (s : CString) (pos : Nat) (assign : Bool) (type : UInt8) (len : Int)
    (size : Size) : Consumes s pos assign type len size ↔
      let l := s.chars.drop pos
      let run := numberRun (baseOf type) len l
      (∀ c ∈ run, ¬isdigit c) ∧ l[beforeDigits l + run.length]? ≠ some 254 ∧
        keptChars (baseOf type) len l + (if assign then 1 else 0) ≤ numbufSize := by
  have hinnum := innum_eq s pos assign type len size
  generalize hl : s.chars.drop pos = l at *
  have hdrop : ∀ n, (s.chars.drop (pos + beforeDigits l + n)).head? = l[beforeDigits l + n]? := by
    intro n
    rw [Nat.add_assoc, ← List.drop_drop, hl, List.head?_drop]
  rw [Consumes, hl]
  dsimp only at hinnum ⊢
  rw [hdrop] at hinnum
  rcases runs_cases type len l with ⟨he, hall⟩ | ⟨hlt, c, hmem, hdigit, hnext⟩
  · -- The number is taken.
    have hkept : scanned (baseOf type) len l = keptChars (baseOf type) len l := by
      rw [scanned, keptChars, he]
    rw [hkept, he] at hinnum
    rw [hinnum]
    constructor
    · rintro ⟨r, hr, hsrc⟩
      by_cases hroom : keptChars (baseOf type) len l + (if assign then 1 else 0) ≤ numbufSize
      · rw [if_pos hroom] at hr
        refine ⟨hall, fun hnext => ?_, hroom⟩
        rw [← Option.some.inj hr, if_pos hnext] at hsrc
        exact absurd hsrc (Nat.succ_ne_self _)
      · rw [if_neg hroom] at hr
        cases hr
    · rintro ⟨-, hnext, hroom⟩
      rw [if_pos hroom]
      exact ⟨_, rfl, if_neg hnext⟩
  · -- It is not: a decimal digit follows what is taken.
    refine iff_of_false ?_ fun h => h.1 c hmem hdigit
    rintro ⟨r, hr, hsrc⟩
    have hne : l[beforeDigits l + (acceptedRun (baseOf type) len l).length]? ≠ some 254 := by
      rw [hnext]
      rintro h
      rw [Option.some.inj h] at hdigit
      exact absurd hdigit (by decide)
    rw [hinnum] at hr
    by_cases hroom : scanned (baseOf type) len l + (if assign then 1 else 0) ≤ numbufSize
    · rw [if_pos hroom] at hr
      rw [← Option.some.inj hr, if_neg hne] at hsrc
      dsimp only at hsrc
      omega
    · rw [if_neg hroom] at hr
      cases hr

/-! ## 4. Reading back what is printed

`_doprnt` prints a value in a base and `_doscan` reads it with the same conversion.  A text in
base 8 or 10 has only digits that `_innum` does not take, so nothing is stored; a hexadecimal text
has letters too. -/

/-- The conversions that both directions have. -/
inductive ScanConv
  | d | o | x
  deriving DecidableEq

def ScanConv.conv : ScanConv → Conv
  | d => .d
  | o => .o
  | x => .x

/-- The format that consists of the conversion. -/
def ScanConv.format (c : ScanConv) : List UInt8 := [ch '%', c.conv.char]

/-- The value is printed, and scanning the text stores it and returns 1. -/
def RoundTrips (c : ScanConv) (v : BitVec 32) : Prop :=
  ∃ text, sprintf c.format [.word v] = some text ∧
    sscanf text c.format = some ⟨1, [(0, .int v)]⟩

theorem ScanConv.baseOf_char (c : ScanConv) : baseOf c.conv.char = c.conv.base := by
  cases c <;> decide

/-- `sscanf` with one number in the format. -/
theorem sscanf_format (c : ScanConv) (str : List UInt8) :
    sscanf str c.format =
      (innum (stringSource str) (str.length + 2) true c.conv.char 30000 .regular 0).map fun r =>
        ⟨if r.ret ≠ 0 then 1 else if r.eof then -1 else 0, r.stored.toList.map fun v =>
          (0, v)⟩ := by
  have hfield : scanField [c.conv.char] = (⟨c.conv.char, true, 30000, .regular, false⟩, []) := by
    cases c <;> rfl
  have hcond : ch '%' = ch '%' ∧ [c.conv.char].head? ≠ some (ch '%') := by
    cases c <;> decide
  have htype : c.conv.char ≠ 0 ∧
      ¬(c.conv.char = ch 'c' ∨ c.conv.char = ch 's' ∨ c.conv.char = ch '[') := by
    cases c <;> decide
  rw [sscanf, ScanConv.format, doscanLoop, if_pos hcond, hfield]
  dsimp only
  rw [if_neg Bool.false_ne_true]
  simp only [Option.bind_eq_bind, Option.bind_some, if_neg htype.1, if_neg htype.2]
  cases innum (stringSource str) (str.length + 2) true c.conv.char 30000 .regular 0 with
  | none => rfl
  | some r =>
    have hend : ∀ nmatch stores, doscanLoop (stringSource str) (str.length + 2)
        2 [] sctabInit 1 nmatch stores r.src = some ⟨nmatch, stores⟩ :=
      fun _ _ => rfl
    by_cases hret : r.ret = 0 <;> cases heof : r.eof <;> simp [hret, heof, hend]

/-- The value that is stored for a number in base `base`. -/
def storedValue (base : Nat) (l : List UInt8) : BitVec 32 :=
  let v := scanValue base 0 (acceptedRun base 30000 l)
  if leadingSign l = [ch '-'] then -v else v

/-- **When `sscanf` stores a number**: when `_innum` keeps characters of it, and has room for
them. -/
theorem sscanf_stores_iff (c : ScanConv) (s : CString) (v : BitVec 32) :
    sscanf s.chars c.format = some ⟨1, [(0, .int v)]⟩ ↔
      scanned c.conv.base 30000 s.chars ≠ 0 ∧ scanned c.conv.base 30000 s.chars < numbufSize ∧
        storedValue c.conv.base s.chars = v := by
  have hinnum := innum_eq s 0 true c.conv.char 30000 .regular
  rw [List.drop_zero, c.baseOf_char] at hinnum
  dsimp only at hinnum
  rw [sscanf_format, hinnum]
  by_cases hnp : scanned c.conv.base 30000 s.chars = 0
  · refine iff_of_false ?_ fun h => h.1 hnp
    simp [hnp]
  · by_cases hroom : scanned c.conv.base 30000 s.chars + 1 ≤ numbufSize
    · have hstored : storedValue c.conv.base s.chars = (if leadingSign s.chars = [ch '-'] then
          -scanValue c.conv.base 0 (acceptedRun c.conv.base 30000 s.chars)
          else scanValue c.conv.base 0 (acceptedRun c.conv.base 30000 s.chars)) := rfl
      rw [← hstored]
      simp [hnp, hroom, Size.value]
      omega
    · refine iff_of_false ?_ fun h => hroom h.2.1
      simp [hroom]

/-- What `sprintf` writes for a value, without the most negative decimal. -/
theorem sprintf_format {c : ScanConv} {v : BitVec 32} (hv : ¬(c = .d ∧ v = intMin)) :
    sprintf c.format [.word v] = some (c.conv.signOf v ++ c.conv.digits v) := by
  have hv' : ¬((⟨false, false, .literal 0, c.conv⟩ : Directive).conv = .d ∧ v = intMin) := by
    rintro ⟨hc, rfl⟩
    cases c <;> first | exact hv ⟨rfl, rfl⟩ | cases hc
  have hfits : (c.conv.digits v).length + 1 ≤ stringSize :=
    (c.conv.digits_fit_iff v).mpr fun h => by cases c <;> cases h
  have hpad : padding (Width.literal 0).fmin (c.conv.chars v) = 0 := by
    rw [padding_eq (by decide)]
    exact Nat.zero_sub _
  have hwritten := Directive.written_eq ⟨false, false, .literal 0, c.conv⟩ v
  dsimp only at hwritten
  rw [hpad] at hwritten
  have htext := fdoprnt_text hv'
  rw [hwritten, if_pos hfits] at htext
  exact htext

/-- What is printed is a string. -/
theorem sprintf_ne_zero (c : Conv) (v : BitVec 32) : 0 ∉ c.signOf v ++ c.digits v := by
  intro h
  rcases List.mem_append.mp h with h | h
  · rw [Conv.signOf] at h
    split at h
    · exact absurd (List.mem_singleton.mp h) (by decide)
    · cases h
  · obtain ⟨i, hi, h0⟩ := List.mem_map.mp h
    exact c.digit_ne_zero (numeral_lt c.one_lt_base i hi) h0

/-- A text that begins with neither a blank nor a sign is all number. -/
theorem plain_text {l : List UInt8} (h : ∀ c, l.head? = some c → ¬isblank c ∧ ¬isSign c) :
    leadingSign l = [] ∧ beforeDigits l = 0 ∧ afterSign l = l := by
  cases l with
  | nil => exact ⟨rfl, rfl, rfl⟩
  | cons c l =>
    obtain ⟨hb, hs⟩ := h c rfl
    have hsign : leadingSign (c :: l) = [] := by simp [leadingSign, hb, hs]
    refine ⟨hsign, ?_, ?_⟩
    · rw [beforeDigits, hsign]
      simp [leadingBlanks, hb]
    · rw [afterSign, hsign]
      simp [hb]

/-- In the bases 8 and 10 nothing is taken. -/
theorem acceptedRun_of_ne {base : Nat} (hb : base ≠ 16) (len : Int) (l : List UInt8) :
    acceptedRun base len l = [] := by
  refine List.takeWhile_eq_nil_iff.mpr fun hlen => ?_
  have hnot : ∀ c, ¬acceptsDigit base c := by
    rintro c ⟨hc, hletter⟩
    exact hc.elim (isletter_spec hletter).1 hb
  simpa using hnot _

theorem hexDigit_spec : ∀ i < 16, ¬isblank (Conv.x.digit i) ∧ ¬isSign (Conv.x.digit i) ∧
    digitValue (Conv.x.digit i) = i ∧ (isdigit (Conv.x.digit i) ↔ i < 10) ∧
    isDigitOf 16 (Conv.x.digit i) := by decide

theorem scanValue_hex (ds : List Nat) (hds : ∀ d ∈ ds, d < 16) (n : Nat) :
    scanValue 16 (BitVec.ofNat 32 n) (ds.map Conv.x.digit) =
      BitVec.ofNat 32 (valueFrom 16 n ds) := by
  induction ds generalizing n with
  | nil => rfl
  | cons d ds ih =>
    have hstep : shiftBase 16 (BitVec.ofNat 32 n) + BitVec.ofNat 32 d =
        BitVec.ofNat 32 (n * 16 + d) := by
      apply BitVec.eq_of_toNat_eq
      simp [shiftBase, Nat.shiftLeft_eq]
    have hd := (hexDigit_spec d (hds d List.mem_cons_self)).2.2.1
    have hcons : scanValue 16 (BitVec.ofNat 32 n) ((d :: ds).map Conv.x.digit) =
        scanValue 16 (shiftBase 16 (BitVec.ofNat 32 n) +
          BitVec.ofNat 32 (digitValue (Conv.x.digit d))) (ds.map Conv.x.digit) := rfl
    rw [hcons, hd, hstep, valueFrom_cons, ih fun e he => hds e (List.mem_cons_of_mem _ he)]

/-- The text of a hexadecimal value. -/
theorem hex_text (v : BitVec 32) :
    leadingSign (Conv.x.digits v) = [] ∧ beforeDigits (Conv.x.digits v) = 0 ∧
      afterSign (Conv.x.digits v) = Conv.x.digits v ∧
        numberRun 16 30000 (Conv.x.digits v) = Conv.x.digits v := by
  have hlt : ∀ i ∈ numeral 16 v.toNat, i < 16 := numeral_lt (by decide)
  have hdig : Conv.x.digits v = (numeral 16 v.toNat).map Conv.x.digit := rfl
  obtain ⟨hsign, hbefore, hafter⟩ := plain_text (l := Conv.x.digits v) (by
    intro c hc
    rw [hdig, List.head?_map] at hc
    obtain ⟨i, hi, rfl⟩ := Option.map_eq_some_iff.mp hc
    have hspec := hexDigit_spec i (hlt i (List.mem_of_mem_head? hi))
    exact ⟨hspec.1, hspec.2.1⟩)
  have hlen : (Conv.x.digits v).length ≤ 19 := by
    have hfit := (Conv.x.digits_fit_iff v).mpr (fun h => nomatch h)
    rw [stringSize] at hfit
    omega
  refine ⟨hsign, hbefore, hafter, ?_⟩
  rw [numberRun, runOf, hafter, hsign, List.take_of_length_le (by simp; omega),
    List.takeWhile_eq_self_iff]
  intro c hc
  obtain ⟨i, hi, rfl⟩ := List.mem_map.mp hc
  simpa using (hexDigit_spec i (hlt i hi)).2.2.2.2

/-- What is kept of the text of a hexadecimal value, and stored. -/
theorem hex_stored (v : BitVec 32) {k : Nat}
    (hk : acceptedRun 16 30000 (Conv.x.digits v) = ((numeral 16 v.toNat).take k).map Conv.x.digit) :
    scanned 16 30000 (Conv.x.digits v) = ((numeral 16 v.toNat).take k).length ∧
      storedValue 16 (Conv.x.digits v) =
        BitVec.ofNat 32 (value 16 ((numeral 16 v.toNat).take k)) := by
  obtain ⟨hsign, -, -⟩ := hex_text v
  have hne : leadingSign (Conv.x.digits v) ≠ [ch '-'] := by simp [hsign]
  refine ⟨?_, ?_⟩
  · rw [scanned, if_neg hne, hk, List.length_map, Nat.zero_add]
  · rw [storedValue, if_neg hne, hk]
    exact scanValue_hex _ (fun d hd => numeral_lt (by decide) d (List.mem_of_mem_take hd)) 0

/-- A hexadecimal value is read back if all its digits are letters. -/
theorem hex_roundTrips_iff (v : BitVec 32) :
    RoundTrips .x v ↔ ∀ i ∈ numeral 16 v.toNat, 10 ≤ i := by
  have hlt : ∀ i ∈ numeral 16 v.toNat, i < 16 := numeral_lt (by decide)
  have hprint := sprintf_format (c := .x) (v := v) fun h => nomatch h.1
  have hsigned : Conv.x.signOf v ++ Conv.x.digits v = Conv.x.digits v := rfl
  have hstr : 0 ∉ Conv.x.digits v := sprintf_ne_zero .x v
  have hlen : (numeral 16 v.toNat).length ≤ 8 :=
    (length_numeral_le_iff (by decide) (by decide)).mpr v.isLt
  have hstores := sscanf_stores_iff .x ⟨Conv.x.digits v, hstr⟩ v
  have hruns := runs_cases (ch 'x') 30000 (Conv.x.digits v)
  have hbase : baseOf (ch 'x') = 16 := by decide
  rw [hbase, (hex_text v).2.2.2, (hex_text v).2.1] at hruns
  have hrt : RoundTrips .x v ↔ scanned 16 30000 (Conv.x.digits v) ≠ 0 ∧
      scanned 16 30000 (Conv.x.digits v) < numbufSize ∧ storedValue 16 (Conv.x.digits v) = v := by
    refine Iff.trans ?_ hstores
    constructor
    · rintro ⟨text, htext, hscan⟩
      rw [hprint] at htext
      rwa [← Option.some.inj htext] at hscan
    · exact fun hscan => ⟨_, hprint, hscan⟩
  rw [hrt]
  rcases hruns with ⟨he, hall⟩ | ⟨hshort, c, hmem, hdigit, -⟩
  · -- All digits are letters.
    refine iff_of_true ?_ fun i hi => ?_
    · obtain ⟨hkept, hvalue⟩ := hex_stored v (k := (numeral 16 v.toNat).length)
        (by rw [he, List.take_length]; rfl)
      rw [List.take_length] at hkept hvalue
      rw [hkept, hvalue, value_numeral (by decide)]
      refine ⟨fun h => numeral_ne_nil 16 v.toNat (List.length_eq_zero_iff.mp h), ?_, ?_⟩
      · exact lt_of_le_of_lt hlen (by decide)
      · exact BitVec.eq_of_toNat_eq (by simp)
    · have hnot := hall _ (List.mem_map_of_mem hi)
      rw [(hexDigit_spec i (hlt i hi)).2.2.2.1] at hnot
      exact Nat.not_lt.mp hnot
  · -- The digits in front of a decimal one have a smaller value.
    refine iff_of_false ?_ fun h => ?_
    · rintro ⟨hpos, -, hv⟩
      have hbegin : acceptedRun 16 30000 (Conv.x.digits v) <+: Conv.x.digits v := by
        rw [acceptedRun, runOf, (hex_text v).2.2.1]
        exact (List.takeWhile_prefix _).trans (List.take_prefix _ _)
      generalize hk : (acceptedRun 16 30000 (Conv.x.digits v)).length = k at hshort
      have htake := List.prefix_iff_eq_take.mp hbegin
      rw [hk] at htake
      obtain ⟨hkept, hvalue⟩ := hex_stored v (htake.trans List.map_take.symm)
      have hlenk : ((numeral 16 v.toNat).take k).length = k := by
        rw [List.length_take]
        rw [Conv.digits, List.length_map] at hshort
        exact Nat.min_eq_left hshort.le
      have hsmall := value_lt (b := 16) fun d hd => hlt d (List.mem_of_mem_take (i := k) hd)
      have hle : v.toNat ≤ value 16 ((numeral 16 v.toNat).take k) := by
        conv_lhs => rw [← hv, hvalue]
        exact Nat.mod_le _ _
      rw [hlenk] at hsmall hkept
      have hfits := (length_numeral_le_iff (b := 16) (by decide) (by omega)).mpr
        (lt_of_le_of_lt hle hsmall)
      rw [Conv.digits, List.length_map] at hshort
      exact absurd hfits (Nat.not_le.mpr hshort)
    · obtain ⟨i, hi, rfl⟩ := List.mem_map.mp hmem
      rw [(hexDigit_spec i (hlt i hi)).2.2.2.1] at hdigit
      have := h i hi
      omega

/-- **Reading back.**  What is printed for a value is read back if it is hexadecimal and all its
digits are letters, and not otherwise. -/
theorem roundTrips_iff (c : ScanConv) (v : BitVec 32) :
    RoundTrips c v ↔ c = .x ∧ ∀ i ∈ numeral 16 v.toNat, 10 ≤ i := by
  by_cases hx : c = .x
  · subst hx
    exact (hex_roundTrips_iff v).trans (and_iff_right rfl).symm
  · refine iff_of_false ?_ fun h => hx h.1
    rintro ⟨text, htext, hscan⟩
    by_cases hmin : c = .d ∧ v = intMin
    · obtain ⟨rfl, rfl⟩ := hmin
      have hprint : sprintf ScanConv.d.format [.word intMin] =
          some (['-', '.', '/', ',', ')', ',', '(', '-', '*', ',', '('].map ch) := by decide
      have hread : sscanf (['-', '.', '/', ',', ')', ',', '(', '-', '*', ',', '('].map ch)
          ScanConv.d.format = some ⟨1, [(0, .int 0)]⟩ := by decide
      rw [hprint] at htext
      rw [← Option.some.inj htext, hread] at hscan
      exact absurd hscan (by decide)
    · have hbase : c.conv.base ≠ 16 := by cases c <;> first | exact absurd rfl hx | decide
      rw [sprintf_format hmin] at htext
      rw [← Option.some.inj htext] at hscan
      obtain ⟨hkept, -, hv⟩ :=
        (sscanf_stores_iff c ⟨_, sprintf_ne_zero c.conv v⟩ v).mp hscan
      -- At most the sign is taken, so 0 is stored; and the text of 0 has no sign.
      have hzero : v = 0 := by
        rw [← hv, storedValue, acceptedRun_of_ne hbase, scanValue, List.foldl_nil]
        split <;> rfl
      subst hzero
      have hsign : c.conv.signOf 0 = [] := by cases c <;> rfl
      dsimp only at hkept
      rw [hsign, c.conv.digits_zero, scanned, acceptedRun_of_ne hbase] at hkept
      exact hkept (by decide)

/-- **Scanning integers.**  Reading back what is printed, and what is consumed of any string. -/
theorem scanning_iff (c : ScanConv) (v : BitVec 32) (s : CString) (pos : Nat) (assign : Bool)
    (type : UInt8) (len : Int) (size : Size) :
    (RoundTrips c v ↔ c = .x ∧ ∀ i ∈ numeral 16 v.toNat, 10 ≤ i) ∧
    (Consumes s pos assign type len size ↔
      let l := s.chars.drop pos
      let run := numberRun (baseOf type) len l
      (∀ c ∈ run, ¬isdigit c) ∧ l[beforeDigits l + run.length]? ≠ some 254 ∧
        keptChars (baseOf type) len l + (if assign then 1 else 0) ≤ numbufSize) :=
  ⟨roundTrips_iff c v, consumes_iff s pos assign type len size⟩

/-- The text `7` is not read back, and none of it is consumed. -/
theorem seven_not_scanned :
    sprintf ScanConv.d.format [.word 7] = some [ch '7'] ∧
      sscanf [ch '7'] ScanConv.d.format = some ⟨0, []⟩ ∧ ¬RoundTrips .d 7 ∧
      ¬Consumes ⟨[ch '7'], by decide⟩ 0 true (ch 'd') 30000 .regular := by
  have hprint : sprintf ScanConv.d.format [.word 7] = some [ch '7'] := by decide
  have hread : sscanf [ch '7'] ScanConv.d.format = some ⟨0, []⟩ := by decide
  refine ⟨hprint, hread, ?_, ?_⟩
  · rintro ⟨text, htext, hscan⟩
    rw [hprint] at htext
    rw [← Option.some.inj htext, hread] at hscan
    exact absurd hscan (by decide)
  · rintro ⟨r, hr, hsrc⟩
    have hstay : (innum (stringSource [ch '7']) ([ch '7'].length + 2) true (ch 'd') 30000 .regular
        0).map (·.src) = some 0 := by decide
    have hmap : some r.src = some 0 :=
      (congrArg (Option.map fun r : Scanned Nat => r.src) hr).symm.trans hstay
    have hzero : r.src = 0 := Option.some.inj hmap
    exact absurd (hsrc.symm.trans hzero) (by decide)

end Xinu
