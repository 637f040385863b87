/-
# Scanning: `doscan.c`, `sscanf.c`, `sprintf.c`

`_doscan` reads characters from a source that can take one back, and stores what it finds by the
directives of a format.  `_innum` scans a number; it keeps the characters in `numbuf`.  `_instr`
scans characters, with the table `_sctab` of those that end a string.

`sscanf` is `_doscan` over a string; the state of that source is the position in the string.
-/
import Xinu.Doprnt

namespace Xinu

/-! ## 1. Sources -/

/-- `getch` and `ungetch` -/
structure Source (σ : Type) where
  getch : σ → Int × σ
  ungetch : σ → σ

/-- `sgetch` -/
def sgetch (str : List UInt8) (pos : Nat) : Int × Nat :=
  match str[pos]? with
  | none => (EOF, pos)
  | some c => if c = 0 then (EOF, pos) else (toInt c, pos + 1)

/-- `sungetch` -/
def sungetch (pos : Nat) : Nat := pos - 1

def stringSource (str : List UInt8) : Source Nat := ⟨sgetch str, sungetch⟩

/-! ## 2. `_innum` -/

/-- `SHORT`, `REGULAR`, `LONG` -/
inductive Size
  | short
  | regular
  | long

/-- What is stored through an argument. -/
inductive Value
  | short (v : BitVec 16)
  | int (v : BitVec 32)
  | long (v : BitVec 32)
  | chars (s : List UInt8)
  deriving DecidableEq

/-- The size of `numbuf`. -/
def numbufSize : Nat := 64

/-- `*np++ = c;` moves on in `numbuf`. -/
def putNumbuf (np : Nat) : Option Nat := if np < numbufSize then some (np + 1) else none

def isdigit (c : UInt8) : Prop := ch '0' ≤ c ∧ c ≤ ch '9'

instance (c : UInt8) : Decidable (isdigit c) := inferInstanceAs (Decidable (_ ∧ _))

/-- `('a' <= c && c <= 'f') || ('A' <= c && c <= 'F')` -/
def isletter (c : UInt8) : Prop := (ch 'a' ≤ c ∧ c ≤ ch 'f') ∨ (ch 'A' ≤ c ∧ c ≤ ch 'F')

instance (c : UInt8) : Decidable (isletter c) := inferInstanceAs (Decidable (_ ∨ _))

def isblank (c : UInt8) : Prop := c = ch ' ' ∨ c = ch '\t' ∨ c = ch '\n'

instance (c : UInt8) : Decidable (isblank c) := inferInstanceAs (Decidable (_ ∨ _))

/-- The condition under which `_innum` takes a character for a digit. -/
def acceptsDigit (base : Nat) (c : UInt8) : Prop := (isdigit c ∨ base = 16) ∧ isletter c

instance (base : Nat) (c : UInt8) : Decidable (acceptsDigit base c) :=
    inferInstanceAs (Decidable (_ ∧ _))

/-- What a digit stands for. -/
def digitValue (c : UInt8) : Nat :=
  if isdigit c then c.toNat - 48
  else if ch 'a' ≤ c ∧ c ≤ ch 'f' then c.toNat - (97 - 10)
  else c.toNat - (65 - 10)

def shiftBase (base : Nat) (lcval : BitVec 32) : BitVec 32 :=
  if base = 8 then lcval <<< 3
  else if base = 10 then ((lcval <<< 2) + lcval) <<< 1
  else lcval <<< 4

section Scan

variable {σ : Type} (src : Source σ)

/-- `while ((c = getch()) == ' ' || c == '\t' || c == '\n')` -/
def skipBlank : Nat → σ → Option (Int × σ)
  | 0, _ => none
  | fuel + 1, st =>
    let (i, st) := src.getch st
    if isblank (toChar i) then skipBlank fuel st else some (i, st)

/-- The loop over the digits: the last character read, `np`, `lcval` and the source. -/
def innumLoop (base : Nat) : Nat → Int → UInt8 → Nat → BitVec 32 → σ →
    Option (UInt8 × Nat × BitVec 32 × σ)
  | 0, _, _, _, _, _ => none
  | fuel + 1, len, c, np, lcval, st =>
    if len - 1 ≥ 0 ∧ acceptsDigit base c then do
      let lcval := shiftBase base lcval + BitVec.ofNat 32 (digitValue c)
      let np ← putNumbuf np
      let (i, st) := src.getch st
      innumLoop base fuel (len - 1) (toChar i) np lcval st
    else some (c, np, lcval, st)

/-- The sign, the length that is left, and the character after it. -/
def innumSign (len : Int) (c : UInt8) (st : σ) : Option (Bool × Nat × Int × UInt8 × σ) :=
  if c = ch '-' then do
    let np ← putNumbuf 0
    let (i, st) := src.getch st
    some (true, np, len - 1, toChar i, st)
  else if c = ch '+' then
    let (i, st) := src.getch st
    some (false, 0, len - 1, toChar i, st)
  else some (false, 0, len, c, st)

/-- The returned value, `*eofptr`, what is stored and the source. -/
structure Scanned (σ : Type) where
  ret : Int
  eof : Bool
  stored : Option Value
  src : σ

def baseOf (type : UInt8) : Nat :=
  if type = ch 'o' then 8 else if type = ch 'x' then 16 else 10

/-- The assignment through `ptr`. -/
def Size.value : Size → BitVec 32 → Value
  | short, v => .short (v.setWidth 16)
  | regular, v => .int v
  | long, v => .long v

/-- `_innum` for a number; `assign` says that `ptr` is not null. -/
def innum (fuel : Nat) (assign : Bool) (type : UInt8) (len : Int) (size : Size) (st : σ) :
    Option (Scanned σ) := do
  let (i, st) ← skipBlank src fuel st
  let (negflg, np, len, c, st) ← innumSign src len (toChar i) st
  let (c, np, lcval, st) ← innumLoop src (baseOf type) fuel len c np 0 st
  let lcval := if negflg then -lcval else lcval
  let eof : Bool := toInt c = EOF
  let st := if eof then st else src.ungetch st
  if assign = false ∨ np = 0 then some ⟨0, eof, none, st⟩
  else do
    let _ ← putNumbuf np
    some ⟨1, eof, some (size.value lcval), st⟩

/-! ## 3. `_instr` and `_getccl` -/

def SPC : UInt8 := 1
def STP : UInt8 := 2

/-- `_sctab` as it is initialized. -/
def sctabInit (i : Fin 128) : UInt8 := if i = 9 ∨ i = 10 ∨ i = 32 then SPC else 0

/-- An entry of `_sctab`; the table has none for the characters from 128 on. -/
def sctabAt (sctab : Fin 128 → UInt8) (i : Int) : Option UInt8 :=
  if h : i.toNat < 128 then if 0 ≤ i then some (sctab ⟨i.toNat, h⟩) else none else none

/-- The first loop of `_instr`.  The entry that is read for `EOF`, outside of the table, does not
matter: the loop ends. -/
def instrSkip (sctab : Fin 128 → UInt8) (ignstp : UInt8) : Nat → σ → Option (Int × σ)
  | 0, _ => none
  | fuel + 1, st => do
    let (i, st) := src.getch st
    if i = EOF then some (i, st)
    else
      let t ← sctabAt sctab i
      if t &&& ignstp ≠ 0 then instrSkip sctab ignstp fuel st else some (i, st)

/-- The second loop: the last character, the length that is left, what was stored and the source. -/
def instrLoop (sctab : Fin 128 → UInt8) (ignstp : UInt8) : Nat → Int → Int → List UInt8 → σ →
    Option (Int × Int × List UInt8 × σ)
  | 0, _, _, _, _ => none
  | fuel + 1, i, len, out, st =>
    if i = EOF then some (i, len, out, st)
    else do
      let t ← sctabAt sctab i
      if t &&& ignstp = 0 then
        if len - 1 ≤ 0 then some (i, len - 1, out ++ [toChar i], st)
        else
          let (j, st) := src.getch st
          instrLoop sctab ignstp fuel j (len - 1) (out ++ [toChar i]) st
      else some (i, len, out, st)

def instr (sctab : Fin 128 → UInt8) (fuel : Nat) (assign : Bool) (type : UInt8)
    (len : Int) (st : σ) :
    Option (Scanned σ) := do
  let len := if type = ch 'c' ∧ len = 30000 then 1 else len
  let (i, st) ← instrSkip src sctab (if type = ch 's' then SPC else 0) fuel st
  let ignstp := if type = ch 'c' then 0 else if type = ch '[' then STP else SPC
  let (i, len, out, st) ← instrLoop src sctab ignstp fuel i len [] st
  let eof : Bool := i = EOF
  let st := if i ≠ EOF ∧ len > 0 then src.ungetch st else st
  if assign = true ∧ out ≠ [] then
    some ⟨1, eof, some (.chars (if type = ch 'c' then out else out ++ [0])), st⟩
  else some ⟨0, eof, none, st⟩

/-- The loop of `_getccl` over the characters up to the `]`; without one it runs past the format. -/
def getcclLoop (t : Bool) : List UInt8 → (Fin 128 → UInt8) → Option (List UInt8 × (Fin 128 → UInt8))
  | [], _ => none
  | c :: s, sctab =>
    if c &&& 127 = ch ']' then some (s, sctab)
    else if h : c.toNat < 128 then
      getcclLoop t s (Function.update sctab ⟨c.toNat, h⟩
        (if t then sctab ⟨c.toNat, h⟩ ||| STP else sctab ⟨c.toNat, h⟩ &&& ~~~STP))
    else none

def getccl (s : List UInt8) (sctab : Fin 128 → UInt8) :
    Option (List UInt8 × (Fin 128 → UInt8)) :=
  let (t, s) := skip (ch '^') s
  getcclLoop t s fun i => if t then sctab i &&& ~~~STP else sctab i ||| STP

/-! ## 4. `_doscan` -/

/-- `*fmt++` -/
def nextChar : List UInt8 → UInt8 × List UInt8
  | [] => (0, [])
  | c :: fmt => (c, fmt)

/-- What stands in a directive. -/
structure ScanField where
  type : UInt8
  assign : Bool
  len : Int
  size : Size
  /-- `_getccl` is called -/
  ccl : Bool

/-- The directive after the `%` and the rest of the format. -/
def scanField (fmt : List UInt8) : ScanField × List UInt8 :=
  let (star, fmt) := skip (ch '*') fmt
  let (len, fmt) := number fmt 0
  let len := if len = 0 then 30000 else len
  let (long, fmt) := skip (ch 'l') fmt
  let (short, fmt) := if long then (false, fmt) else skip (ch 'h') fmt
  let (c, fmt) := nextChar fmt
  let size := if long then .long else if short then .short else .regular
  let ccl := !long && !short && c = ch '['
  -- `isupper(ch)`, `tolower(ch)`
  if ch 'A' ≤ c ∧ c ≤ ch 'Z' then (⟨c + 32, !star, len, .long, ccl⟩, fmt)
  else (⟨c, !star, len, size, ccl⟩, fmt)

/-- The returned value and what was stored, with the number of the argument. -/
structure Result where
  ret : Int
  stores : List (Nat × Value)
  deriving DecidableEq

/-- The loop over the format.  `arg` counts the pointers taken from the arguments. -/
def doscanLoop (fuel : Nat) : Nat → List UInt8 → (Fin 128 → UInt8) → Nat → Int →
    List (Nat × Value) → σ → Option Result
  | 0, _, _, _, _, _, _ => none
  | _ + 1, [], _, _, nmatch, stores, _ => some ⟨nmatch, stores⟩
  | n + 1, c :: fmt, sctab, arg, nmatch, stores, st =>
    if c = ch '%' ∧ fmt.head? ≠ some (ch '%') then do
      let (fld, fmt) := scanField fmt
      let (fmt, sctab) ← if fld.ccl then getccl fmt sctab else some (fmt, sctab)
      if fld.type = 0 then some ⟨-1, stores⟩
      else
        let r ← if fld.type = ch 'c' ∨ fld.type = ch 's' ∨ fld.type = ch '[' then
            instr src sctab fuel fld.assign fld.type fld.len st
          else innum src fuel fld.assign fld.type fld.len fld.size st
        let stores := stores ++ (r.stored.toList.map fun v => (arg, v))
        let nmatch := if r.ret ≠ 0 ∧ fld.assign = true then nmatch + 1 else nmatch
        if r.eof then some ⟨if nmatch ≠ 0 then nmatch else -1, stores⟩
        else doscanLoop fuel n fmt sctab (if fld.assign then arg + 1 else arg) nmatch stores r.src
    else if isblank c then do
      let (i, st) ← skipBlank src fuel st
      let st := if i ≠ EOF then src.ungetch st else st
      doscanLoop fuel n fmt sctab arg nmatch stores st
    else
      let fmt := if c = ch '%' then fmt.tail else fmt
      let (i, st) := src.getch st
      if i ≠ toInt c then some ⟨if i = EOF then -1 else nmatch, stores⟩
      else doscanLoop fuel n fmt sctab arg nmatch stores st

end Scan

/-- `sscanf`, with a bound on the rounds of its loops. -/
def sscanf (str fmt : List UInt8) : Option Result :=
  doscanLoop (stringSource str) (str.length + 2) (fmt.length + 1) fmt sctabInit 0 0 [] 0

/-- `sprintf`: the characters before the null character that ends the string. -/
def sprintf (fmt : List UInt8) (ap : List Arg) : Option (List UInt8) := fdoprnt fmt ap

end Xinu
