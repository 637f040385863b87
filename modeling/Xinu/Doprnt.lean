/-
# The formatters: `doprnt.c`, `fdoprnt.c`

`_doprnt` and `_fdoprnt` are two copies of one formatter.  Each has its digit routines; those for
decimal numbers differ, and so does the `case 'd'` that calls them.

Both read the format character by character, take an argument for each conversion, and write the
characters to `func`.  `format` is that loop, over the `switch` of either copy.  Where the effect of
the C code is not defined (an argument of another type, a text too long for `string`) there is no
result.
-/
import Xinu.Lib.Numerals
import Xinu.Tty

namespace Xinu

open Numerals

/-- A character constant. -/
def ch (c : Char) : UInt8 := c.toUInt8

/-- A string, up to its null character. -/
structure CString where
  chars : List UInt8
  nonnull : 0 ∉ chars

/-! ## 1. The digit routines -/

/-- A 32-bit `long`, after an operation that may have left its range. -/
def toLong (x : Int) : Int := (x + 2 ^ 31) % 2 ^ 32 - 2 ^ 31

/-- The loop that fills `temp`: the character for a number, and the number it goes on with. -/
def fillTemp (char : Int → UInt8) (next : Int → Int) : Nat → Int → List UInt8
  | 0, _ => []
  | k + 1, num => char num :: fillTemp char next k (next num)

/-- The end of each routine: the zeros at the end of `temp` are skipped, down to `temp[1]`, and the
rest is written to `str`. -/
def unloadTemp (temp : List UInt8) : List UInt8 := trim (ch '0') temp

/-- `_prtl10` of `doprnt.c`. -/
def Doprnt.prtl10 (num : Int) : List UInt8 :=
  unloadTemp (toChar ((if num < 0 then -(num.tmod 10) else num.tmod 10) + 48) ::
    fillTemp (fun num => toChar (num.tmod 10 + 48)) (fun num => num.tdiv 10) 9
      (num.tdiv (if num < 0 then -10 else 10)))

/-- `_prtl10` of `fdoprnt.c`. -/
def Fdoprnt.prtl10 (num : Int) : List UInt8 :=
  unloadTemp (fillTemp (fun num => toChar (num.tmod 10 + 48)) (fun num => num.tdiv 10) 10 num)

/-- `_prtl8`: `num & 07`, `num >> 3`, and `temp[11] &= '3'` after the loop. -/
def prtl8 (num : Int) : List UInt8 :=
  unloadTemp ((fillTemp (fun num => toChar (num % 8 + 48)) (fun num => num / 8) 11 num).modify 10
    (· &&& ch '3'))

def lowerHex : List UInt8 :=
  ['0', '1', '2', '3', '4', '5', '6', '7', '8', '9', 'a', 'b', 'c', 'd', 'e', 'f'].map ch

def upperHex : List UInt8 :=
  ['0', '1', '2', '3', '4', '5', '6', '7', '8', '9', 'A', 'B', 'C', 'D', 'E', 'F'].map ch

/-- `_prtl16` and `_prtX16`, up to the digits: `num & 0x0F`, `num >> 4`. -/
def prtHex (digits : List UInt8) (num : Int) : List UInt8 :=
  unloadTemp (fillTemp (fun num => digits.getD (num % 16).toNat 0) (fun num => num / 16) 8 num)

def prtl16 (num : Int) : List UInt8 := prtHex lowerHex num

def prtX16 (num : Int) : List UInt8 := prtHex upperHex num

/-- `_prtl2`: `num % 2`, `num >> 1`. -/
def prtl2 (num : Int) : List UInt8 :=
  unloadTemp (fillTemp (fun num => if num.tmod 2 = 0 then ch '0' else ch '1') (fun num => num / 2)
    32 num)

/-! ## 2. The format -/

def MAXSTR : Int := 80

/-- The size of `string`. -/
def stringSize : Nat := 20

/-- What `va_arg` finds: a word or a pointer to a string, `none` when it is null. -/
inductive Arg
  | word (w : BitVec 32)
  | str (s : Option (List UInt8))

def argWord : List Arg → Option (BitVec 32 × List Arg)
  | .word w :: ap => some (w, ap)
  | _ => none

def argStr : List Arg → Option (Option (List UInt8) × List Arg)
  | .str s :: ap => some (s, ap)
  | _ => none

/-- What stands between the `%` and the format character. -/
structure Field where
  leftjust : Bool
  fill : UInt8
  fmin : Int
  fmax : Int

/-- `while ('0' <= *fmt && *fmt <= '9') n = n * 10 + *fmt++ - '0';` -/
def number : List UInt8 → Int → Int × List UInt8
  | [], n => (n, [])
  | c :: fmt, n =>
    if ch '0' ≤ c ∧ c ≤ ch '9' then number fmt (toLong (n * 10 + c.toNat - 48)) else (n, c :: fmt)

/-- A number, or `*` for the next argument. -/
def size (fmt : List UInt8) (ap : List Arg) : Option (Int × List UInt8 × List Arg) :=
  if fmt.head? = some (ch '*') then do
    let (w, ap) ← argWord ap
    some (w.toInt, fmt.tail, ap)
  else
    let (n, fmt) := number fmt 0
    some (n, fmt, ap)

/-- `c` is skipped if it comes next. -/
def skip (c : UInt8) (fmt : List UInt8) : Bool × List UInt8 :=
  if fmt.head? = some c then (true, fmt.tail) else (false, fmt)

def field (fmt : List UInt8) (ap : List Arg) : Option (Field × List UInt8 × List Arg) := do
  let (leftjust, fmt) := skip (ch '-') fmt
  let (zero, fmt) := skip (ch '0') fmt
  let (fmin, fmt, ap) ← size fmt ap
  let (point, fmt) := skip (ch '.') fmt
  let (fmax, fmt, ap) ← if point then size fmt ap else some (0, fmt, ap)
  some (⟨leftjust, if zero then ch '0' else ch ' ', fmin, fmax⟩, fmt, ap)

/-- What the `switch` leaves: the string up to its null character, the sign, the fill character and
the maximum width. -/
structure Converted where
  str : List UInt8
  sign : Bool
  fill : UInt8
  fmax : Int

/-- The characters and a null character are written to `string`, which must be large enough. -/
def inString (str : List UInt8) : Option (List UInt8) :=
  if str.length + 1 ≤ stringSize then some (str.takeWhile (· ≠ 0)) else none

/-- `while (larg < 0) { larg -= 1000000000L; ++digit1; }` -/
def unsign : Nat → Int → UInt8 → Option (Int × UInt8)
  | 0, _, _ => none
  | fuel + 1, larg, digit1 =>
    if larg < 0 then unsign fuel (toLong (larg - 1000000000)) (digit1 + 1) else some (larg, digit1)

/-- A conversion of one word, without a maximum width. -/
def convertWord (prt : Int → Option (List UInt8)) (fld : Field) (ap : List Arg) :
    Option (Converted × List Arg) := do
  let (larg, ap) ← argWord ap
  let str ← prt larg.toInt
  let str ← inString str
  some (⟨str, false, fld.fill, 0⟩, ap)

/-- `case 'u'` -/
def prtu (prtl10 : Int → List UInt8) (larg : Int) : Option (List UInt8) := do
  let (larg, digit1) ← unsign 4 larg 0
  some ((prtl10 larg).modifyHead (· + digit1))

/-- The cases that the two copies have in common.  There is no case for another character: `string`
would be written out as it is, which nothing has been written to. -/
def convertCommon (prtl10 : Int → List UInt8) (f : UInt8) (fld : Field) (ap : List Arg) :
    Option (Converted × List Arg) :=
  if f = ch 'c' then do
    let (w, ap) ← argWord ap
    some (⟨[toChar w.toInt].takeWhile (· ≠ 0), false, ch ' ', 0⟩, ap)
  else if f = ch 's' then do
    let (s, ap) ← argStr ap
    some (⟨s.getD (['(', 'n', 'u', 'l', 'l', ')'].map ch), false, ch ' ', fld.fmax⟩, ap)
  else if f = ch 'u' then convertWord (prtu prtl10) fld ap
  else if f = ch 'o' then convertWord (fun larg => some (prtl8 larg)) fld ap
  else if f = ch 'X' then convertWord (fun larg => some (prtX16 larg)) fld ap
  else if f = ch 'x' then convertWord (fun larg => some (prtl16 larg)) fld ap
  else if f = ch 'b' then convertWord (fun larg => some (prtl2 larg)) fld ap
  else none

/-- `case 'H'` and `case 'h'`: the second number goes to `str + 8`. -/
def convertPair (prt : Int → List UInt8) (fld : Field) (ap : List Arg) :
    Option (Converted × List Arg) := do
  let (hi, ap) ← argWord ap
  let (lo, ap) ← argWord ap
  let hi := prt hi.toInt
  some (⟨if hi.length < 8 then hi else hi ++ prt lo.toInt, false, fld.fill, 0⟩, ap)

/-- The `switch` of `_doprnt`, but for `case 'f'`. -/
def Doprnt.convert (f : UInt8) (fld : Field) (ap : List Arg) : Option (Converted × List Arg) :=
  if f = ch 'd' then do
    let (larg, ap) ← argWord ap
    let str ← inString (prtl10 larg.toInt)
    some (⟨str, larg.toInt < 0, fld.fill, fld.fmax⟩, ap)
  else if f = ch 'H' then convertPair prtX16 fld ap
  else if f = ch 'h' then convertPair prtl16 fld ap
  else convertCommon prtl10 f fld ap

/-- The `switch` of `_fdoprnt`. -/
def Fdoprnt.convert (f : UInt8) (fld : Field) (ap : List Arg) : Option (Converted × List Arg) :=
  if f = ch 'd' then do
    let (larg, ap) ← argWord ap
    let str ← inString (prtl10 (if larg.toInt < 0 then toLong (-larg.toInt) else larg.toInt))
    some (⟨str, larg.toInt < 0, fld.fill, fld.fmax⟩, ap)
  else convertCommon prtl10 f fld ap

/-- What is written for one conversion, from `for (length = 0; ...)` on. -/
def putField (leftjust : Bool) (fmin : Int) (cv : Converted) : List UInt8 :=
  let fmin := if fmin > MAXSTR ∨ fmin < 0 then 0 else fmin
  let fmax := if cv.fmax > MAXSTR ∨ cv.fmax < 0 then 0 else cv.fmax
  let length : Int := if fmax ≠ 0 ∧ cv.str.length > fmax then fmax else cv.str.length
  let leading :=
    if fmax ≠ 0 ∨ fmin ≠ 0 then
      (if fmin ≠ 0 then fmin - length else 0) - (if cv.sign then 1 else 0)
    else 0
  (if cv.sign ∧ cv.fill = ch '0' then [ch '-'] else []) ++
    (if leftjust then [] else List.replicate leading.toNat cv.fill) ++
    (if cv.sign ∧ cv.fill = ch ' ' then [ch '-'] else []) ++
    cv.str.take length.toNat ++
    (if leftjust then List.replicate leading.toNat cv.fill else [])

/-- The loop over the format, with the characters that are written; `none` where the effect of the C
code is not defined. -/
def format (convert : UInt8 → Field → List Arg → Option (Converted × List Arg)) :
    Nat → List UInt8 → List Arg → Option (List UInt8)
  | 0, _, _ => none
  | _ + 1, [], _ => some []
  | n + 1, c :: fmt, ap =>
    if c ≠ ch '%' then (format convert n fmt ap).map (c :: ·)
    else if fmt.head? = some (ch '%') then (format convert n fmt.tail ap).map (ch '%' :: ·)
    else do
      let (fld, fmt, ap) ← field fmt ap
      match fmt with
      | [] => some [ch '%']
      | f :: fmt =>
        let (cv, ap) ← convert f fld ap
        (format convert n fmt ap).map (putField fld.leftjust fld.fmin cv ++ ·)

/-- `_doprnt`: the characters it gives to `func`. -/
def doprnt (fmt : List UInt8) (ap : List Arg) : Option (List UInt8) :=
  format Doprnt.convert (fmt.length + 1) fmt ap

/-- `_fdoprnt` -/
def fdoprnt (fmt : List UInt8) (ap : List Arg) : Option (List UInt8) :=
  format Fdoprnt.convert (fmt.length + 1) fmt ap

end Xinu
