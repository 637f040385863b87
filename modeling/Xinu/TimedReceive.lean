/-
# Processes in a timed receive

`arp_resolve`, `icmp_recv` and `udp_recv` wait for a network packet in the same way: they clear the
message field with `recvclr`, call `recvtime`, and go on with whatever `recvtime` returns.  What the
network code sees of the rest of the kernel is the message field of each process and where each
waiting process will go on.

`send` is the one of `send.c.orig`, on these fields.  The timer may expire at any time, so a process
in `recvtime` may go on at any time; then it gets the message if there is one.

The kernel is linked with `send.c`, which leaves these fields alone: with it every process in
`recvtime` goes on with `TIMEOUT`.  `sendBy` has both, and `routine_inbox` says that this is what
the two routines do in the kernel.
-/
import Xinu.SendRefine

namespace Xinu

open ByteMemory

/-! ## 1. The message fields -/

/-- `TIMEOUT` as a message. -/
abbrev timeoutMsg : Nat := 4294967293

/-- `OK` as a message. -/
abbrev okMsg : Nat := 1

/-- The message each process has, and what each process in `recvtime` will do. -/
structure Receivers (κ : Type) where
  prmsg : Int → Option Nat
  waiting : Int → Option κ

namespace Receivers

variable {κ : Type}

/-- Nobody waits and no messages. -/
def start : Receivers κ := ⟨fun _ => none, fun _ => none⟩

/-- `send(pid, msg)`: a message that was not received yet is kept. -/
def send (r : Receivers κ) (pid : Int) (msg : Nat) : Receivers κ × Int :=
  match r.prmsg pid with
  | some _ => (r, SYSERR)
  | none => ({ r with prmsg := Function.update r.prmsg pid (some msg) }, OK)

/-- `recvclr()` by `pid`. -/
def recvclr (r : Receivers κ) (pid : Int) : Receivers κ :=
  { r with prmsg := Function.update r.prmsg pid none }

/-- `recvtime(timeout)` by `pid`, up to where it waits.  It returns `SYSERR` at once where the
timeout is negative as an `int32`. -/
def recvtime (r : Receivers κ) (pid : Int) (timeout : Nat) (k : κ) : Option (Receivers κ) :=
  if int32 timeout < 0 then none
  else some { r with waiting := Function.update r.waiting pid (some k) }

/-- The rest of `recvtime()`: its result. -/
def result (r : Receivers κ) (pid : Int) : Nat := (r.prmsg pid).getD timeoutMsg

/-- `pid` goes on. -/
def resume (r : Receivers κ) (pid : Int) : Receivers κ :=
  { prmsg := Function.update r.prmsg pid none, waiting := Function.update r.waiting pid none }

/-- A process that goes on with `OK` has been sent `OK`. -/
theorem prmsg_of_ok (r : Receivers κ) {pid : Int} (htime : r.result pid ≠ timeoutMsg)
    (hok : r.result pid = okMsg) : r.prmsg pid = some okMsg := by
  unfold result at htime hok
  cases hm : r.prmsg pid with
  | none =>
    rw [hm] at htime
    exact absurd rfl htime
  | some m =>
    rw [hm] at hok
    exact congrArg some hok

@[simp] theorem send_waiting (r : Receivers κ) (pid : Int) (msg : Nat) :
    (r.send pid msg).1.waiting = r.waiting := by
  unfold send
  split <;> rfl

@[simp] theorem recvclr_waiting (r : Receivers κ) (pid : Int) :
    (r.recvclr pid).waiting = r.waiting := rfl

end Receivers

/-! ## 2. The two files that define `send`

Network code that calls `send` can be linked with either.  A result that holds for both takes the
file as a parameter. -/

/-- `send.c`, with which the kernel is linked, and `send.c.orig`. -/
inductive SendFile
  | linked
  | orig
deriving DecidableEq

/-- `send(pid, msg)` as that file defines it. -/
def SendFile.routine : SendFile → Int → Nat → Kernel → Option (Kernel × Int)
  | .linked => send
  | .orig => sendOrig

namespace Receivers

variable {κ : Type} {r : Receivers κ} {pid : Int} {msg : Nat}

/-- What a call of `send` changes: `send.c` writes `prtmpbuf` and `prtmpvalid` only. -/
def sendBy (f : SendFile) (r : Receivers κ) (pid : Int) (msg : Nat) : Receivers κ :=
  match f with
  | .linked => r
  | .orig => (r.send pid msg).1

@[simp] theorem sendBy_waiting (f : SendFile) : (sendBy f r pid msg).waiting = r.waiting := by
  cases f with
  | linked => rfl
  | orig => exact send_waiting r pid msg

/-- The message that a process has, as `recvtime` finds it. -/
def inbox (k : Kernel) (pid : Int) : Option Nat :=
  if (k.proctab pid).prhasmsg ≠ 0 then some (k.proctab pid).prmsg else none

/-- **Either `send` does in the kernel what `sendBy` says.** -/
theorem routine_inbox (f : SendFile) {k : Kernel} (hgood : ¬ isbadpid k pid) {x : Kernel × Int}
    (h : f.routine pid msg k = some x) (waiting : Int → Option κ) :
    inbox x.1 = (sendBy f ⟨inbox k, waiting⟩ pid msg).prmsg := by
  cases f with
  | linked =>
    funext p
    have hflag := send_prhasmsg h p
    have hmsg := send_prmsg h p
    change inbox x.1 p = inbox k p
    rw [inbox, inbox, hflag, hmsg]
  | orig =>
    change inbox x.1 = (send ⟨inbox k, waiting⟩ pid msg).1.prmsg
    unfold send
    rcases sendOrig_mail hgood h with ⟨hfull, rfl⟩ | ⟨hempty, hm⟩
    · have hin : inbox k pid = some (k.proctab pid).prmsg := if_pos hfull
      simp only [hin]
    · have hin : inbox k pid = none := if_neg (not_not.mpr hempty)
      simp only [hin]
      funext p
      have hp := congrFun hm p
      by_cases hpid : p = pid
      · subst hpid
        rw [Function.update_self] at hp ⊢
        rw [inbox, show (x.1.proctab p).prhasmsg = TRUE from congrArg Mail.prhasmsg hp,
          show (x.1.proctab p).prmsg = msg from congrArg Mail.prmsg hp]
        exact if_pos (by decide)
      · rw [Function.update_of_ne hpid] at hp ⊢
        rw [inbox, inbox,
          show (x.1.proctab p).prhasmsg = (k.proctab p).prhasmsg from congrArg Mail.prhasmsg hp,
          show (x.1.proctab p).prmsg = (k.proctab p).prmsg from congrArg Mail.prmsg hp]

end Receivers

end Xinu
