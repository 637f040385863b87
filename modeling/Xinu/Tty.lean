/-
# The terminal driver: `tty.h`, `device/tty`

The driver is one record.  The upper half is called by processes, which may wait on one of the two
semaphores in the middle of a call; the lower half by the interrupts of the UART.  Interrupts are
disabled while a process runs in the driver, so that a call is one step up to its next wait.

A pointer into a buffer is the index it points to.  A semaphore is a counting semaphore with its
waiting list and the processes it has released (`Counting.Gate`): every process that was released
may be the next one to run.
-/
import Xinu.Lib.Counting
import Xinu.Lib.Ring
import Xinu.Kernel

namespace Xinu

open Counting

/-! ## 1. `tty.h`, `uart.h` -/

def TY_IBUFLEN : Nat := 128
def TY_OBUFLEN : Nat := 64
def TY_EBUFLEN : Nat := 20
def UART_FIFO_SIZE : Nat := 16

def TY_BACKSP : UInt8 := 8
def TY_BACKSP2 : UInt8 := 127
def TY_BELL : UInt8 := 7
def TY_EOFCH : UInt8 := 4
def TY_BLANK : UInt8 := 32
def TY_NEWLINE : UInt8 := 10
def TY_RETURN : UInt8 := 13
def TY_STOPCH : UInt8 := 19
def TY_STRTCH : UInt8 := 17
def TY_KILLCH : UInt8 := 21
def TY_UPARROW : UInt8 := 94
def TY_FULLCH : UInt8 := TY_BELL

def UART_IER_ERBFI : UInt8 := 1
def UART_IER_ETBEI : UInt8 := 2

/-- The input modes. -/
inductive TyMode
  | raw | cooked | cbreak
  deriving DecidableEq

/-- What a process that waits on `tyisem` will do once it is released: the rest of its call. -/
inductive InCall
  /-- `ttygetc` -/
  | getc
  /-- `ttycontrol(TC_NEXTC)` -/
  | nextc
  /-- `ttyread` in cooked mode, at its first `ttygetc` -/
  | first (count : Int)
  /-- `ttyread` in cooked mode, in its loop: the rounds left and the characters stored -/
  | line (left : Nat) (buff : List UInt8)
  /-- `ttyread` in another mode, in its loop -/
  | chars (left : Nat) (buff : List UInt8)
  deriving DecidableEq

structure Reader where
  pid : Nat
  call : InCall
  deriving DecidableEq

/-- A process that waits on `tyosem` to deposit `ch`, and what it will deposit after that. -/
structure Writer where
  pid : Nat
  ch : UInt8
  rest : List UInt8
  deriving DecidableEq

/-- `struct ttycblk`. -/
structure Ttycblk where
  tyihead : Int
  tyitail : Int
  tyibuff : Int → UInt8
  tyisem : Gate Reader
  tyohead : Int
  tyotail : Int
  tyobuff : Int → UInt8
  tyosem : Gate Writer
  tyehead : Int
  tyetail : Int
  tyebuff : Int → UInt8
  tyimode : TyMode
  tyiecho : Bool
  tyieback : Bool
  tyevis : Bool
  tyecrlf : Bool
  tyicrlf : Bool
  tyierase : Bool
  tyierasec : UInt8
  tyierasec2 : UInt8
  tyeof : Bool
  tyeofch : UInt8
  tyikill : Bool
  tyikillc : UInt8
  tyicursor : Int
  tyoflow : Bool
  tyoheld : Bool
  tyostop : UInt8
  tyostart : UInt8
  tyocrlf : Bool
  tyifullc : UInt8

/-- The queue a character handed to the UART was in. -/
inductive Origin
  | echo | output
  deriving DecidableEq

/-- What a call of `ttygetc`, `ttyread` or `ttycontrol` has returned, and stored at `buff`. -/
structure Return where
  pid : Nat
  value : Int
  buff : List UInt8
  deriving DecidableEq

/-- The driver: the control block, the interrupt enable register, and histories that no function
reads. -/
structure Tty extends Ttycblk where
  ier : UInt8
  /-- the characters stored in `tyibuff` and neither erased nor read, oldest first -/
  unread : List UInt8
  /-- the characters stored in `tyobuff` -/
  deposited : List UInt8
  /-- the characters written to the UART's buffer register -/
  handed : List (Origin × UInt8)
  returns : List Return

/-! ## 2. Characters

A `char` is a byte in memory and a signed number in an expression. -/

/-- A `char` as an `int32`: it is signed. -/
def toInt (ch : UInt8) : Int := if ch.toNat < 128 then ch.toNat else (ch.toNat : Int) - 256

/-- `(char) i`. -/
def toChar (i : Int) : UInt8 := UInt8.ofNat (i % 256).toNat

theorem toChar_toInt (ch : UInt8) : toChar (toInt ch) = ch := by
  have h := ch.toNat_lt
  have he : (toInt ch % 256).toNat = ch.toNat := by
    unfold toInt
    split_ifs <;> omega
  rw [toChar, he, UInt8.ofNat_toNat]

/-- `ch < TY_BLANK || ch == 0177` -/
def nonprintable (ch : UInt8) : Prop := toInt ch < toInt TY_BLANK ∨ ch = 127

instance (ch : UInt8) : Decidable (nonprintable ch) := inferInstanceAs (Decidable (_ ∨ _))

/-! ## 3. `ttykickout.c`, `ttyhandle_in.c`

The branches of `ttyhandle_in` are made of a few moves that come again and again, which are named
first. -/

namespace Tty

def ttykickout (t : Tty) : Tty := { t with ier := UART_IER_ERBFI ||| UART_IER_ETBEI }

def eputc (ch : UInt8) (t : Tty) : Tty :=
  ttykickout { t with tyebuff := Function.update t.tyebuff t.tyetail ch
                      tyetail := Rings.next TY_EBUFLEN t.tyetail }

def echoch (ch : UInt8) (t : Tty) : Tty :=
  if (ch = TY_NEWLINE ∨ ch = TY_RETURN) ∧ t.tyecrlf then eputc TY_NEWLINE (eputc TY_RETURN t)
  else if nonprintable ch ∧ t.tyevis then eputc (ch + 64) (eputc TY_UPARROW t)
  else eputc ch t

/-- `eputc(TY_BACKSP, ..); if (tyieback) { eputc(TY_BLANK, ..); eputc(TY_BACKSP, ..); }` -/
def backspace (t : Tty) : Tty :=
  let t := eputc TY_BACKSP t
  if t.tyieback then eputc TY_BACKSP (eputc TY_BLANK t) else t

/-- The tail pointer `k` places back. -/
def back (t : Tty) (k : Int) : Int :=
  if t.tyitail - k < 0 then t.tyitail - k + TY_IBUFLEN else t.tyitail - k

def erase1 (t : Tty) : Tty :=
  let t := { t with tyitail := t.back 1, unread := t.unread.dropLast }
  let ch := t.tyibuff t.tyitail
  if t.tyiecho then
    if nonprintable ch then backspace (if t.tyevis then backspace t else t) else backspace t
  else t

/-- `semcount(tyisem)`, or 0 when processes wait. -/
def avail (t : Tty) : Int := if t.tyisem.sem.count < 0 then 0 else t.tyisem.sem.count

/-- `*tyitail++ = ch;` -/
def put (ch : UInt8) (t : Tty) : Tty :=
  { t with tyibuff := Function.update t.tyibuff t.tyitail ch, tyitail := t.tyitail + 1
           unread := t.unread ++ [ch] }

/-- `if (tyitail >= &tyibuff[TY_IBUFLEN]) tyitail = tyibuff;` -/
def wrap (t : Tty) : Tty := if t.tyitail ≥ TY_IBUFLEN then { t with tyitail := 0 } else t

/-- `signal(tyisem)`, `signaln(tyisem, n)`. -/
def signalIn (n : Int) (t : Tty) : Tty := { t with tyisem := t.tyisem.signal n.toNat }

/-- `if (tyiecho) echoch(ch, ..);` -/
def echo (ch : UInt8) (t : Tty) : Tty := if t.tyiecho then echoch ch t else t

/-- The part of `ttyhandle_in` for cbreak mode. -/
def cbreakIn (ch : UInt8) (t : Tty) : Tty :=
  if t.avail ≥ TY_IBUFLEN then eputc t.tyifullc t else echo ch (wrap (put ch t))

/-- The part of `ttyhandle_in` for cooked mode. -/
def cookedIn (ch : UInt8) (t : Tty) : Tty :=
  if ch = t.tyikillc ∧ t.tyikill then
    eputc TY_NEWLINE (eputc TY_RETURN
      { t with tyitail := t.back t.tyicursor, tyicursor := 0
               unread := t.unread.take (t.unread.length - t.tyicursor.toNat) })
  else if (ch = t.tyierasec ∨ ch = t.tyierasec2) ∧ t.tyierase then
    if t.tyicursor > 0 then erase1 { t with tyicursor := t.tyicursor - 1 } else t
  else if ch = TY_NEWLINE ∨ ch = TY_RETURN then
    let t := signalIn (t.tyicursor + 1) (wrap (put ch (echo ch t)))
    { t with tyicursor := 0 }
  else if t.avail + t.tyicursor ≥ TY_IBUFLEN - 1 then eputc t.tyifullc t
  else if ch = t.tyeofch ∧ t.tyeof then
    if t.tyicursor ≠ 0 then echo ch t else signalIn 1 (put ch (echo ch t))
  else
    let t := echo ch t
    wrap (put ch { t with tyicursor := t.tyicursor + 1 })

/-- `ttyhandle_in`, for the character `ch` read from the UART. -/
def ttyhandle_in (ch : UInt8) (t : Tty) : Tty :=
  if t.tyimode = .raw then
    if t.avail ≥ TY_IBUFLEN then t else signalIn 1 (wrap (put ch t))
  else
    let ch := if ch = TY_RETURN ∧ t.tyicrlf then TY_NEWLINE else ch
    if t.tyoflow ∧ ch = t.tyostart then ttykickout { t with tyoheld := false }
    else if t.tyoflow ∧ ch = t.tyostop then { t with tyoheld := true }
    else
      let t := { t with tyoheld := false }
      if t.tyimode = .cbreak then cbreakIn ch t else cookedIn ch t

/-! ## 4. `ttygetc.c`, `ttyread.c`, `ttycontrol.c`

A call that waits leaves behind what it has still to do (`InCall`), and `goOn` does it. -/

/-- `ttygetc` after its `wait`. -/
def takeChar (t : Tty) : Tty × Int :=
  let ch := t.tyibuff t.tyihead
  let t := { t with tyihead := Rings.next TY_IBUFLEN t.tyihead, unread := t.unread.tail }
  if t.tyimode = .cooked ∧ t.tyeof ∧ ch = t.tyeofch then (t, EOF) else (t, toInt ch)

/-- A call returns. -/
def finish (pid : Nat) (value : Int) (buff : List UInt8) (t : Tty) : Tty :=
  { t with returns := t.returns ++ [⟨pid, value, buff⟩] }

/-- `wait(tyisem)`: the call goes on now or when it is released. -/
def waitIn (r : Reader) (t : Tty) (next : Tty → Tty) : Tty :=
  let u := { t with tyisem := t.tyisem.wait r }
  if 0 < t.tyisem.sem.count then next u else u

/-- The loop of `ttyread` in cooked mode; `left` is `count - nread`, and the characters stored are
not empty. -/
def readLine (pid : Nat) : Nat → List UInt8 → Tty → Tty
  | 0, buff, t => finish pid buff.length buff t
  | left + 1, buff, t =>
    if buff.getLast? = some TY_NEWLINE ∨ buff.getLast? = some TY_RETURN then
      finish pid buff.length buff t
    else waitIn ⟨pid, .line left buff⟩ t fun t =>
      let r := t.takeChar
      readLine pid left (buff ++ [toChar r.2]) r.1

/-- The loop of `ttyread` in the other modes. -/
def readChars (pid : Nat) : Nat → List UInt8 → Tty → Tty
  | 0, buff, t => finish pid buff.length buff t
  | left + 1, buff, t => waitIn ⟨pid, .chars left buff⟩ t fun t =>
      let r := t.takeChar
      readChars pid left (buff ++ [toChar r.2]) r.1

/-- The rest of a call after its `wait(tyisem)`. -/
def goOn (r : Reader) (t : Tty) : Tty :=
  match r.call with
  | .getc => let r' := t.takeChar; finish r.pid r'.2 [] r'.1
  | .nextc => finish r.pid (toInt (t.tyibuff t.tyitail)) [] (signalIn 1 t)
  | .first count =>
    let r' := t.takeChar
    if r'.2 = EOF then finish r.pid EOF [] r'.1
    else readLine r.pid (count - 1).toNat [toChar r'.2] r'.1
  | .line left buff => let r' := t.takeChar; readLine r.pid left (buff ++ [toChar r'.2]) r'.1
  | .chars left buff => let r' := t.takeChar; readChars r.pid left (buff ++ [toChar r'.2]) r'.1

def ttygetc (pid : Nat) (t : Tty) : Tty := waitIn ⟨pid, .getc⟩ t (goOn ⟨pid, .getc⟩)

def ttyread (pid : Nat) (count : Int) (t : Tty) : Tty :=
  if count < 0 then finish pid SYSERR [] t
  else if t.tyimode ≠ .cooked then
    if count = 0 then
      if t.tyisem.sem.count = 0 then finish pid 0 [] t
      else readChars pid t.tyisem.sem.count.toNat [] t
    else readChars pid count.toNat [] t
  else waitIn ⟨pid, .first count⟩ t (goOn ⟨pid, .first count⟩)

/-- The functions of `ttycontrol`. -/
inductive Func
  | TC_NEXTC | TC_MODER | TC_MODEC | TC_MODEK | TC_ICHARS | TC_ECHO | TC_NOECHO
  /-- any other number -/
  | other

def ttycontrol (pid : Nat) (func : Func) (t : Tty) : Tty :=
  match func with
  | .TC_NEXTC => waitIn ⟨pid, .nextc⟩ t (goOn ⟨pid, .nextc⟩)
  | .TC_MODER => finish pid OK [] { t with tyimode := .raw }
  | .TC_MODEC => finish pid OK [] { t with tyimode := .cooked }
  | .TC_MODEK => finish pid OK [] { t with tyimode := .cbreak }
  | .TC_ICHARS => finish pid t.tyisem.sem.count [] t
  | .TC_ECHO => finish pid OK [] { t with tyiecho := true }
  | .TC_NOECHO => finish pid OK [] { t with tyiecho := false }
  | .other => finish pid SYSERR [] t

/-! ## 5. `ttyputc.c`, `ttyhandle_out.c`

A writer deposits characters until it has to wait.  The interrupt hands characters to the UART as
long as this has room. -/

/-- `ttyputc` after a `wait`. -/
def deposit (ch : UInt8) (t : Tty) : Tty :=
  ttykickout { t with tyobuff := Function.update t.tyobuff t.tyotail ch
                      tyotail := Rings.next TY_OBUFLEN t.tyotail
                      deposited := t.deposited ++ [ch] }

/-- A writer deposits its characters, up to the one it has to wait with. -/
def putChars (pid : Nat) : List UInt8 → Tty → Tty
  | [], t => finish pid OK [] t
  | ch :: rest, t =>
    let u := { t with tyosem := t.tyosem.wait ⟨pid, ch, rest⟩ }
    if 0 < t.tyosem.sem.count then putChars pid rest (deposit ch u) else u

/-- A released writer goes on. -/
def goOnOut (w : Writer) (t : Tty) : Tty := putChars w.pid w.rest (deposit w.ch t)

def ttyputc (pid : Nat) (ch : UInt8) (t : Tty) : Tty :=
  putChars pid (if ch = TY_NEWLINE ∧ t.tyocrlf then [TY_RETURN, ch] else [ch]) t

/-- The first loop of `ttyhandle_out`: what is left of `uspace`. -/
def sendEcho : Nat → Tty → Tty × Nat
  | 0, t => (t, 0)
  | uspace + 1, t =>
    if t.tyehead ≠ t.tyetail then
      sendEcho uspace { t with handed := t.handed ++ [(.echo, t.tyebuff t.tyehead)]
                               tyehead := Rings.next TY_EBUFLEN t.tyehead }
    else (t, uspace + 1)

/-- The second loop of `ttyhandle_out`, which ends after `n` rounds. -/
def sendOutput : Nat → Tty → Tty
  | 0, t => t
  | n + 1, t => sendOutput n { t with handed := t.handed ++ [(.output, t.tyobuff t.tyohead)]
                                      tyohead := Rings.next TY_OBUFLEN t.tyohead }

def ttyhandle_out (t : Tty) : Tty :=
  if t.tyoheld then t
  else if t.tyehead = t.tyetail ∧ t.tyosem.sem.count ≥ TY_OBUFLEN then
    { t with ier := t.ier &&& ~~~UART_IER_ETBEI }
  else
    let r := sendEcho UART_FIFO_SIZE t
    let avail := TY_OBUFLEN - r.1.tyosem.sem.count
    let ochars := min r.2 avail.toNat
    let u := sendOutput ochars r.1
    if ochars > 0 then { u with tyosem := u.tyosem.signal ochars } else u

/-! ## 6. The driver's steps

Calls, interrupts, and processes that go on after they were released, in any order. -/

inductive Event
  /-- a character arrives -/
  | arrive (ch : UInt8)
  /-- the UART can take characters -/
  | interrupt
  | getc (pid : Nat)
  | read (pid : Nat) (count : Int)
  | control (pid : Nat) (func : Func)
  | putc (pid : Nat) (ch : UInt8)
  /-- a process released by `tyisem` runs -/
  | runReader (r : Reader)
  /-- a process released by `tyosem` runs -/
  | runWriter (w : Writer)

/-- The process is in no call. -/
def idle (t : Tty) (pid : Nat) : Prop :=
  (∀ r ∈ t.tyisem.sem.waiting ++ t.tyisem.released, r.pid ≠ pid) ∧
    ∀ w ∈ t.tyosem.sem.waiting ++ t.tyosem.released, w.pid ≠ pid

instance (t : Tty) (pid : Nat) : Decidable (t.idle pid) := inferInstanceAs (Decidable (_ ∧ _))

def step (t : Tty) : Event → Option Tty
  | .arrive ch => some (ttyhandle_in ch t)
  | .interrupt => some (ttyhandle_out t)
  | .getc pid => if t.idle pid then some (ttygetc pid t) else none
  | .read pid count => if t.idle pid then some (ttyread pid count t) else none
  | .control pid func => if t.idle pid then some (ttycontrol pid func t) else none
  | .putc pid ch => if t.idle pid then some (ttyputc pid ch t) else none
  | .runReader r =>
    if r ∈ t.tyisem.released then some (goOn r { t with tyisem := t.tyisem.run r }) else none
  | .runWriter w =>
    if w ∈ t.tyosem.released then some (goOnOut w { t with tyosem := t.tyosem.run w }) else none

/-- `ttyinit`, on a line whose buffers hold anything. -/
def ttyinit (ibuff obuff ebuff : Int → UInt8) : Tty where
  tyihead := 0
  tyitail := 0
  tyibuff := ibuff
  tyisem := .create 0
  tyohead := 0
  tyotail := 0
  tyobuff := obuff
  tyosem := .create TY_OBUFLEN
  tyehead := 0
  tyetail := 0
  tyebuff := ebuff
  tyimode := .cooked
  tyiecho := true
  tyieback := true
  tyevis := true
  tyecrlf := true
  tyicrlf := true
  tyierase := true
  tyierasec := TY_BACKSP
  tyierasec2 := TY_BACKSP2
  tyeof := true
  tyeofch := TY_EOFCH
  tyikill := true
  tyikillc := TY_KILLCH
  tyicursor := 0
  tyoflow := true
  tyoheld := false
  tyostop := TY_STOPCH
  tyostart := TY_STRTCH
  tyocrlf := true
  tyifullc := TY_FULLCH
  ier := UART_IER_ERBFI ||| UART_IER_ETBEI
  unread := []
  deposited := []
  handed := []
  returns := []

/-- A line as `ttyinit` leaves it, except for the mode and the options: they are arbitrary. -/
structure Fresh (t : Tty) : Prop where
  input : t.tyihead = 0 ∧ t.tyitail = 0 ∧ t.tyicursor = 0 ∧ t.tyisem = .create 0 ∧ t.unread = []
  output : t.tyohead = 0 ∧ t.tyotail = 0 ∧ t.tyosem = .create TY_OBUFLEN ∧ t.deposited = [] ∧
    t.handed = []
  echo : t.tyehead = 0 ∧ t.tyetail = 0
  returns : t.returns = []

theorem fresh_ttyinit (ibuff obuff ebuff : Int → UInt8) : Fresh (ttyinit ibuff obuff ebuff) :=
  ⟨⟨rfl, rfl, rfl, rfl, rfl⟩, ⟨rfl, rfl, rfl, rfl, rfl⟩, ⟨rfl, rfl⟩, rfl⟩

end Tty

end Xinu
