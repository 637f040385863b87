/-
# The slots for UDP packets

This module is `struct udpentry` of `udp.h` and `udp_register`, `udp_in`, `udp_recv`, `udp_recvaddr`
and `udp_release` of `udp.c`, on packets that are only pointers and header fields.

Each of them runs with interrupts disabled and is one step, except that `udp_recv` and
`udp_recvaddr` wait in `recvtime`; what they do afterwards is a step of its own (`wake`).  By then
the slot may have been released, or the packet taken by somebody else, or the message may come from
anybody.  They look at the message only, and they mark the slot as used before that.
-/
import Xinu.TimedReceive
import Xinu.PacketQueue
import Xinu.Lib.Runs

namespace Xinu.Udp

open Rings Runs

/-! ## 1. The table -/

/-- `UDP_SLOTS` of `udp.h`. -/
abbrev UDP_SLOTS : Int := 6

/-- `UDP_QSIZ` of `udp.h`. -/
abbrev UDP_QSIZ : Int := 8

/-- `UDP_FREE`, `UDP_USED` and `UDP_RECV`. -/
inductive UdState
  | free
  | used
  | recv
deriving DecidableEq, Repr

/-- `struct udpentry`. -/
structure Udpentry where
  udstate : UdState
  udremip : Nat
  udremport : Nat
  udlocport : Nat
  udhead : Int
  udtail : Int
  udcount : Int
  udpid : Int
  udqueue : Int → Nat

/-- The entry's queue. -/
def Udpentry.queue (e : Udpentry) : PacketQueue := ⟨e.udhead, e.udtail, e.udcount, e.udqueue⟩

/-- The entry with another queue. -/
def Udpentry.setQueue (e : Udpentry) (q : PacketQueue) : Udpentry :=
  { e with udhead := q.head, udtail := q.tail, udcount := q.count, udqueue := q.packets }

/-- `udptab`, and the processes that wait, each for a slot. -/
structure Udptab where
  udptab : Int → Udpentry
  procs : Receivers Int

/-- The slots in the order in which loops visit them. -/
def slots : List Int := [0, 1, 2, 3, 4, 5]

/-- After `udp_init`. -/
def start : Udptab := ⟨fun _ => ⟨.free, 0, 0, 0, 0, 0, 0, 0, fun _ => 0⟩, .start⟩

/-- An entry is changed. -/
def Udptab.set (s : Udptab) (slot : Int) (f : Udpentry → Udpentry) : Udptab :=
  { s with udptab := Function.update s.udptab slot (f (s.udptab slot)) }

/-- What `udp_in` reads of a packet. -/
structure Header where
  udpsport : Nat
  udpdport : Nat
  ipsrc : Nat
deriving DecidableEq, Repr

/-! ## 2. The functions

A packet is a name for it, and the header fields that `udp_in` compares.  What is freed is given
back as a list, so that the log can tell what became of each packet. -/

/-- The slot that `udp_register` fills, if it fills one. -/
def freeSlot (s : Udptab) (remip remport locport : Nat) : Option Int :=
  if slots.any fun i => (s.udptab i).udstate ≠ .free ∧ remport = (s.udptab i).udremport ∧
      locport = (s.udptab i).udlocport ∧ remip = (s.udptab i).udremip then
    none
  else slots.find? fun i => (s.udptab i).udstate = .free

/-- `udp_register`. -/
def udp_register (s : Udptab) (remip remport locport : Nat) : Udptab × Int :=
  match freeSlot s remip remport locport with
  | none => (s, SYSERR)
  | some slot =>
    (s.set slot fun e =>
      { e with
        udlocport := locport, udremport := remport, udremip := remip, udcount := 0, udhead := 0,
        udtail := 0, udpid := -1, udstate := .used },
      slot)

/-- The entry matches an incoming packet. -/
def Udpentry.accepts (e : Udpentry) (h : Header) : Bool :=
  e.udstate ≠ .free ∧ h.udpdport = e.udlocport ∧ (e.udremport = 0 ∨ h.udpsport = e.udremport) ∧
    (e.udremip = 0 ∨ h.ipsrc = e.udremip)

/-- The slot into which `udp_in` puts a packet: the first that matches and is not full. -/
def target (s : Udptab) (h : Header) : Option Int :=
  slots.find? fun i => (s.udptab i).accepts h ∧ (s.udptab i).udcount < UDP_QSIZ

/-- A packet goes in at the tail. -/
def Udpentry.enqueue (e : Udpentry) (pktptr : Nat) : Udpentry :=
  e.setQueue (e.queue.enqueue UDP_QSIZ pktptr)

/-- `udp_in`.  A packet for which there is no slot is freed. -/
def udp_in (s : Udptab) (h : Header) (pktptr : Nat) : Udptab :=
  match target s h with
  | none => s
  | some i =>
    let t := s.set i fun e => e.enqueue pktptr
    if (s.udptab i).udstate = .recv then
      { t.set i fun e => { e with udstate := .used } with
        procs := (s.procs.send (s.udptab i).udpid okMsg).1 }
    else t

/-- The packet at the head is taken out. -/
def Udpentry.dequeue (e : Udpentry) : Udpentry := e.setQueue (e.queue.dequeue UDP_QSIZ)

/-- What `udp_recv` returns. -/
inductive Result
  | error
  | timeout
  | packet (pktptr : Nat)
deriving DecidableEq, Repr

/-- `udp_recv` by `pid`, up to where it waits; it has no result yet if it waits. -/
def udp_recv (s : Udptab) (pid slot : Int) (timeout : Nat) : Udptab × Option Result :=
  if slot < 0 ∨ slot ≥ UDP_SLOTS then (s, some .error)
  else if (s.udptab slot).udstate ≠ .used then (s, some .error)
  else if (s.udptab slot).udcount = 0 then
    match (s.procs.recvclr pid).recvtime pid timeout slot with
    | some procs => ({ s.set slot fun e => { e with udstate := .recv, udpid := pid } with procs },
        none)
    | none =>
      ({ s.set slot fun e => { e with udstate := .used, udpid := pid } with
        procs := s.procs.recvclr pid }, some .error)
  else (s.set slot Udpentry.dequeue, some (.packet (s.udptab slot).queue.first))

/-- `udp_recvaddr`, which also stores the sender's address. -/
def udp_recvaddr (s : Udptab) (pid slot : Int) (timeout : Nat) : Udptab × Option Result :=
  udp_recv s pid slot timeout

/-- The rest of `udp_recv` or `udp_recvaddr`, after `recvtime` for `slot`. -/
def wake (s : Udptab) (pid slot : Int) : Udptab × Result :=
  let t := { s.set slot fun e => { e with udstate := .used } with procs := s.procs.resume pid }
  if s.procs.result pid = timeoutMsg then (t, .timeout)
  else if s.procs.result pid ≠ okMsg then (t, .error)
  else (t.set slot Udpentry.dequeue, .packet (s.udptab slot).queue.first)

/-- The loop of `udp_release`: the queue it leaves and the packets that are freed. -/
def Udpentry.drain (e : Udpentry) : PacketQueue × List Nat :=
  e.queue.drain UDP_QSIZ e.udcount.toNat

/-- Does `udp_release` release the slot? -/
def releases (s : Udptab) (slot : Int) : Bool :=
  ¬(slot < 0 ∨ slot ≥ UDP_SLOTS) ∧ (s.udptab slot).udstate ≠ .free

/-- `udp_release`. -/
def udp_release (s : Udptab) (slot : Int) : Udptab × Int :=
  if releases s slot then
    (s.set slot fun e => { e.setQueue e.drain.1 with udstate := .free }, OK)
  else (s, SYSERR)

/-! ## 3. Interleavings

Any process may make any call at any time.  The log is kept beside the table, and no function
reads it. -/

/-- What happens next. -/
inductive Event
  | udp_register (remip remport locport : Nat)
  | udp_in (h : Header) (pktptr : Nat)
  | udp_recv (pid slot : Int) (timeout : Nat)
  | udp_recvaddr (pid slot : Int) (timeout : Nat)
  /-- `recvtime` returns in `pid`. -/
  | wake (pid : Int)
  | udp_release (slot : Int)
  /-- Another process sends `pid` a message. -/
  | send (pid : Int) (msg : Nat)
deriving DecidableEq, Repr

/-- One step of any process. -/
def step (s : Udptab) : Event → Option Udptab
  | .udp_register remip remport locport => some (udp_register s remip remport locport).1
  | .udp_in h pktptr => some (udp_in s h pktptr)
  | .udp_recv pid slot timeout =>
    if s.procs.waiting pid = none then some (udp_recv s pid slot timeout).1 else none
  | .udp_recvaddr pid slot timeout =>
    if s.procs.waiting pid = none then some (udp_recvaddr s pid slot timeout).1 else none
  | .wake pid =>
    match s.procs.waiting pid with
    | some slot => some (wake s pid slot).1
    | none => none
  | .udp_release slot => some (udp_release s slot).1
  | .send pid msg => some { s with procs := (s.procs.send pid msg).1 }

/-- The packets a slot has accepted, and those that have left it with what became of them, each in
order; whether the slot is registered; and whether a packet was taken out of an empty queue. -/
structure SlotLog where
  accepted : List Nat
  left : List (Nat × Fate)
  registered : Bool
  tookFromEmpty : Bool

/-- Something happens to the log of a slot. -/
def note (l : Int → SlotLog) (slot : Int) (f : SlotLog → SlotLog) : Int → SlotLog :=
  Function.update l slot (f (l slot))

/-- The log of what a receive returned, from a queue of `udcount` packets. -/
def noteResult (l : Int → SlotLog) (slot udcount : Int) : Option Result → Int → SlotLog
  | some (.packet pktptr) => note l slot fun x =>
      { x with
        left := x.left ++ [(pktptr, .returned)]
        tookFromEmpty := x.tookFromEmpty || decide (udcount ≤ 0) }
  | _ => l

def see (s : Udptab) (e : Event) (_ : Udptab) (l : Int → SlotLog) : Int → SlotLog :=
  match e with
  | .udp_register remip remport locport =>
    match freeSlot s remip remport locport with
    | some slot => note l slot fun x => { x with registered := true }
    | none => l
  | .udp_in h pktptr =>
    match target s h with
    | some slot => note l slot fun x => { x with accepted := x.accepted ++ [pktptr] }
    | none => l
  | .udp_recv pid slot timeout | .udp_recvaddr pid slot timeout =>
    noteResult l slot (s.udptab slot).udcount (udp_recv s pid slot timeout).2
  | .wake pid =>
    match s.procs.waiting pid with
    | some slot => noteResult l slot (s.udptab slot).udcount (some (wake s pid slot).2)
    | none => l
  | .udp_release slot =>
    if releases s slot then
      note l slot fun x =>
        { x with
          registered := false
          left := x.left ++ (s.udptab slot).drain.2.map fun pktptr => (pktptr, .freed) }
    else l
  | .send _ _ => l

/-! ## 4. What is to be kept

`Awaited` is the condition on a step, and it is about one kind of step only: a receiver that goes
on behind its `recvtime`. -/

/-- The count is the number of packets in the ring; these are the packets that were accepted and
have not left, in order; none was taken out of an empty ring; and a slot that is not registered is
free. -/
structure InOrder (e : Udpentry) (l : SlotLog) : Prop where
  count : 0 ≤ e.udcount ∧ e.udcount ≤ UDP_QSIZ
  held : ∃ xs, e.queue.Holds UDP_QSIZ l.accepted l.left xs
  nonempty : l.tookFromEmpty = false
  free : l.registered = false → e.udstate = .free

/-- A receiver that goes on finds its slot not released and, where its message is `OK`, a packet. -/
def Awaited (x : Udptab × (Int → SlotLog)) : Event → Prop
  | .wake pid => ∀ slot ∈ x.1.procs.waiting pid,
      (x.1.udptab slot).udstate ≠ .free ∧
        (x.1.procs.prmsg pid = some okMsg → 0 < (x.1.udptab slot).udcount)
  | _ => True

/-! ## 5. One entry

The functions come down to five moves of one entry, each with a lemma about the entry and its
log. -/

/-- The invariant of an entry. -/
structure SlotInv (e : Udpentry) (l : SlotLog) (xs : List Nat) : Prop where
  holds : e.queue.Holds UDP_QSIZ l.accepted l.left xs
  nonempty : l.tookFromEmpty = false
  free : e.udstate = .free → xs = []
  registered : l.registered = false ↔ e.udstate = .free

variable {e : Udpentry} {l : SlotLog} {xs : List Nat}

theorem SlotInv.inOrder (h : SlotInv e l xs) : InOrder e l :=
  ⟨h.holds.count_bounds, ⟨xs, h.holds⟩, h.nonempty, h.registered.mp⟩

/-- Marking a slot that is in use. -/
theorem SlotInv.mark (h : SlotInv e l xs) {st : UdState} (hst : st ≠ .free)
    (hused : e.udstate ≠ .free) (pid : Int) :
    SlotInv { e with udstate := st, udpid := pid } l xs := by
  refine ⟨h.holds, h.nonempty, fun hf => absurd hf hst, ?_⟩
  rw [h.registered]
  exact ⟨fun hf => absurd hf hused, fun hf => absurd hf hst⟩

/-- A new registration starts with an empty ring. -/
theorem SlotInv.register (h : SlotInv e l xs) (hfree : e.udstate = .free)
    (remip remport locport : Nat) :
    SlotInv { e with
      udlocport := locport, udremport := remport, udremip := remip, udcount := 0, udhead := 0,
      udtail := 0, udpid := -1, udstate := .used }
      { l with registered := true } [] := by
  obtain rfl := h.free hfree
  exact ⟨h.holds.reset, h.nonempty, fun _ => rfl, by simp⟩

/-- **A packet is queued where there is room.** -/
theorem SlotInv.enqueue (h : SlotInv e l xs) (hroom : e.udcount < UDP_QSIZ)
    (hst : e.udstate ≠ .free) (pktptr : Nat) :
    SlotInv (e.enqueue pktptr) { l with accepted := l.accepted ++ [pktptr] } (xs ++ [pktptr]) :=
  ⟨h.holds.enqueue hroom pktptr, h.nonempty, fun hf => absurd hf hst, h.registered⟩

/-- **The oldest packet is taken.** -/
theorem SlotInv.dequeue (h : SlotInv e l xs) (hcount : 0 < e.udcount) :
    ∃ ys, SlotInv e.dequeue
      { l with
        left := l.left ++ [(e.queue.first, .returned)]
        tookFromEmpty := l.tookFromEmpty || decide (e.udcount ≤ 0) } ys := by
  obtain ⟨ys, hys, hd⟩ := h.holds.dequeue hcount rfl .returned
  refine ⟨ys, hd, ?_, fun hf => ?_, h.registered⟩
  · simp [h.nonempty, hcount]
  · have hnil := h.free hf
    rw [hys] at hnil
    exact absurd hnil (List.cons_ne_nil _ _)

/-- **A release empties the ring**, oldest packet first. -/
theorem SlotInv.release (h : SlotInv e l xs) :
    SlotInv { e.setQueue e.drain.1 with udstate := .free }
      { l with
        registered := false
        left := l.left ++ e.drain.2.map fun pktptr => (pktptr, .freed) } [] := by
  have hn : e.udcount.toNat = xs.length := by
    rw [show e.udcount = xs.length from h.holds.count, Int.toNat_natCast]
  exact ⟨h.holds.drain hn.symm (.inl rfl), h.nonempty, fun _ => rfl, by simp⟩

/-! ## 6. The table

Only one entry changes in a step. -/

/-- The invariant of the table. -/
def Inv (s : Udptab) (l : Int → SlotLog) : Prop := ∀ i, ∃ xs, SlotInv (s.udptab i) (l i) xs

variable {s t : Udptab} {log log' : Int → SlotLog} {ev : Event}

theorem inv_start : Inv start fun _ => ⟨[], [], false, false⟩ := fun _ =>
  ⟨[], ⟨.start (by decide) rfl, rfl⟩, rfl, fun _ => rfl, by simp [start]⟩

/-- Only one entry and its log change. -/
theorem Inv.of_slot (h : Inv s log) {j : Int} (ht : ∀ i, i ≠ j → t.udptab i = s.udptab i)
    (hl : ∀ i, i ≠ j → log' i = log i) (hj : ∃ xs, SlotInv (t.udptab j) (log' j) xs) :
    Inv t log' := by
  intro i
  by_cases hi : i = j
  · rw [hi]
    exact hj
  · rw [ht i hi, hl i hi]
    exact h i

theorem freeSlot_free {remip remport locport : Nat} {slot : Int}
    (h : freeSlot s remip remport locport = some slot) : (s.udptab slot).udstate = .free := by
  unfold freeSlot at h
  split_ifs at h
  have hf := List.find?_some h
  simpa using hf

theorem Inv.udp_register (h : Inv s log) (remip remport locport : Nat) :
    Inv (udp_register s remip remport locport).1
      (see s (.udp_register remip remport locport) t log) := by
  simp only [Udp.udp_register, see]
  cases hf : freeSlot s remip remport locport with
  | none => exact h
  | some slot =>
    obtain ⟨xs, hx⟩ := h slot
    refine h.of_slot (j := slot) (fun i hi => Function.update_of_ne hi _ _)
      (fun i hi => Function.update_of_ne hi _ _) ⟨[], ?_⟩
    simp only [Udptab.set, note, Function.update_self]
    exact hx.register (freeSlot_free hf) remip remport locport

theorem Inv.udp_in (h : Inv s log) {hdr : Header} {pktptr : Nat} :
    Inv (udp_in s hdr pktptr) (see s (.udp_in hdr pktptr) t log) := by
  simp only [Udp.udp_in, see]
  cases hf : target s hdr with
  | none => exact h
  | some slot =>
    have hm := List.find?_some hf
    simp only [Bool.decide_and, Bool.decide_eq_true, Bool.and_eq_true, decide_eq_true_eq] at hm
    have hst : (s.udptab slot).udstate ≠ .free := by
      have := hm.1
      simp only [Udpentry.accepts, decide_eq_true_eq] at this
      exact this.1
    obtain ⟨xs, hx⟩ := h slot
    have hq := hx.enqueue hm.2 hst pktptr
    simp only []
    split_ifs with hr
    · refine h.of_slot (j := slot) (fun i hi => ?_) (fun i hi => Function.update_of_ne hi _ _)
        ⟨xs ++ [pktptr], ?_⟩
      · simp only [Udptab.set, Function.update_of_ne hi]
      · simp only [Udptab.set, Function.update_self, note]
        exact hq.mark (by simp) hst _
    · refine h.of_slot (j := slot) (fun i hi => Function.update_of_ne hi _ _)
        (fun i hi => Function.update_of_ne hi _ _) ⟨xs ++ [pktptr], ?_⟩
      simp only [Udptab.set, Function.update_self, note]
      exact hq

theorem Inv.udp_recv (h : Inv s log) {pid slot : Int} {timeout : Nat} :
    Inv (udp_recv s pid slot timeout).1
      (noteResult log slot (s.udptab slot).udcount (udp_recv s pid slot timeout).2) := by
  obtain ⟨xs, hx⟩ := h slot
  unfold Udp.udp_recv
  by_cases hbad : slot < 0 ∨ slot ≥ UDP_SLOTS
  · rw [if_pos hbad]
    exact h
  rw [if_neg hbad]
  by_cases hused : (s.udptab slot).udstate ≠ .used
  · rw [if_pos hused]
    exact h
  rw [if_neg hused]
  have hst : (s.udptab slot).udstate ≠ .free := by
    rw [not_not.mp hused]
    exact UdState.noConfusion
  by_cases hcount : (s.udptab slot).udcount = 0
  · rw [if_pos hcount]
    cases (s.procs.recvclr pid).recvtime pid timeout slot with
    | some procs =>
      refine h.of_slot (j := slot) (fun i hi => Function.update_of_ne hi _ _)
        (fun i _ => rfl) ⟨xs, ?_⟩
      simp only [Udptab.set, Function.update_self]
      exact hx.mark (by simp) hst _
    | none =>
      refine h.of_slot (j := slot) (fun i hi => Function.update_of_ne hi _ _)
        (fun i _ => rfl) ⟨xs, ?_⟩
      simp only [Udptab.set, Function.update_self]
      exact hx.mark (by simp) hst _
  · rw [if_neg hcount]
    have hpos : 0 < (s.udptab slot).udcount :=
      lt_of_le_of_ne hx.holds.count_bounds.1 (Ne.symm hcount)
    obtain ⟨ys, hd⟩ := hx.dequeue hpos
    refine h.of_slot (j := slot) (fun i hi => Function.update_of_ne hi _ _)
      (fun i hi => Function.update_of_ne hi _ _) ⟨ys, ?_⟩
    simp only [Udptab.set, Function.update_self, noteResult, note]
    exact hd

theorem Inv.wake (h : Inv s log) {pid slot : Int} (hst : (s.udptab slot).udstate ≠ .free)
    (hmail : s.procs.prmsg pid = some okMsg → 0 < (s.udptab slot).udcount) :
    Inv (wake s pid slot).1
      (noteResult log slot (s.udptab slot).udcount (some (wake s pid slot).2)) := by
  obtain ⟨xs, hx⟩ := h slot
  have hmark := hx.mark (show UdState.used ≠ .free by simp) hst (s.udptab slot).udpid
  simp only [Udp.wake]
  split_ifs with htime hok
  · refine h.of_slot (j := slot) (fun i hi => Function.update_of_ne hi _ _)
      (fun i _ => rfl) ⟨xs, ?_⟩
    simp only [Udptab.set, Function.update_self, noteResult]
    exact hmark
  · refine h.of_slot (j := slot) (fun i hi => Function.update_of_ne hi _ _)
      (fun i _ => rfl) ⟨xs, ?_⟩
    simp only [Udptab.set, Function.update_self, noteResult]
    exact hmark
  · obtain ⟨ys, hd⟩ := hmark.dequeue (hmail (s.procs.prmsg_of_ok htime (not_not.mp hok)))
    refine h.of_slot (j := slot) (fun i hi => ?_) (fun i hi => Function.update_of_ne hi _ _)
      ⟨ys, ?_⟩
    · simp only [Udptab.set, Function.update_of_ne hi]
    · simp only [Udptab.set, Function.update_self, noteResult, note]
      exact hd

theorem Inv.udp_release (h : Inv s log) {slot : Int} :
    Inv (udp_release s slot).1 (see s (.udp_release slot) t log) := by
  unfold Udp.udp_release see
  by_cases hr : releases s slot = true
  · simp only [if_pos hr]
    obtain ⟨xs, hx⟩ := h slot
    refine h.of_slot (j := slot) (fun i hi => Function.update_of_ne hi _ _)
      (fun i hi => Function.update_of_ne hi _ _) ⟨[], ?_⟩
    simp only [Udptab.set, Function.update_self, note]
    exact hx.release
  · simp only [if_neg hr]
    exact h

/-- **Every step keeps the slots in order**, if a receiver that goes on finds what it waited for. -/
theorem Inv.step (h : Inv s log) (hok : Awaited (s, log) ev) (hs : step s ev = some t) :
    Inv t (see s ev t log) := by
  cases ev with
  | udp_register remip remport locport =>
    rw [Udp.step, Option.some.injEq] at hs
    subst hs
    exact h.udp_register remip remport locport
  | udp_in hdr pktptr =>
    rw [Udp.step, Option.some.injEq] at hs
    subst hs
    exact h.udp_in
  | udp_recv pid slot timeout =>
    simp only [Udp.step, Option.ite_none_right_eq_some, Option.some.injEq] at hs
    obtain ⟨-, rfl⟩ := hs
    exact h.udp_recv
  | udp_recvaddr pid slot timeout =>
    simp only [Udp.step, Option.ite_none_right_eq_some, Option.some.injEq] at hs
    obtain ⟨-, rfl⟩ := hs
    exact h.udp_recv
  | wake pid =>
    simp only [Udp.step, see] at hs ⊢
    cases hw : s.procs.waiting pid with
    | none => simp [hw] at hs
    | some slot =>
      rw [hw, Option.some.injEq] at hs
      subst hs
      obtain ⟨hst, hmail⟩ := hok slot hw
      exact h.wake hst hmail
  | udp_release slot =>
    rw [Udp.step, Option.some.injEq] at hs
    subst hs
    exact h.udp_release
  | send pid msg =>
    rw [Udp.step, Option.some.injEq] at hs
    subst hs
    exact h

/-- **The slots are in order in every state that is reached**, if each receiver that goes on finds
its slot not released and, with the message `OK`, a packet. -/
theorem udp_slots_in_order
    (h : Reaches (watch step see) Awaited (start, fun _ => ⟨[], [], false, false⟩) (s, log))
    (i : Int) : InOrder (s.udptab i) (log i) := by
  have hinv := Reaches.invariant (I := fun x : Udptab × (Int → SlotLog) => Inv x.1 x.2) h
    inv_start fun x e y hx hok hs => by
      obtain ⟨t, ht, rfl⟩ := watch_some.mp hs
      exact hx.step hok ht
  obtain ⟨xs, hx⟩ := hinv i
  exact hx.inOrder

/-! ## 7. Receivers that do not find what they waited for -/

instance : DecidableRel Awaited := fun x e => by
  cases e <;> unfold Awaited <;> infer_instance

/-- A process registers port 68, waits, gets a packet and releases the slot. -/
def receiveOne : List Event :=
  [.udp_register 0 0 68, .udp_recv 20 0 1000, .udp_in ⟨67, 68, 1⟩ 100, .wake 20, .udp_release 0]

theorem udp_slots_in_order_receiveOne :
    ∃ s log, exec (watch step see) Awaited (start, fun _ => ⟨[], [], false, false⟩) receiveOne =
        some (s, log) ∧ InOrder (s.udptab 0) (log 0) :=
  ⟨_, _, rfl, udp_slots_in_order (@reaches_of_exec _ _ _ _ _ _ _ receiveOne rfl) 0⟩

/-- A process waits for a packet, and another process sends it the message 1, which is `OK`. -/
def strayMessage : List Event :=
  [.udp_register 0 0 68, .udp_recv 20 0 1000, .send 20 1, .wake 20]

/-- A process waits for a packet, another process releases the slot, and the timer expires. -/
def releasedSlot : List Event :=
  [.udp_register 0 0 68, .udp_recv 20 0 1000, .udp_release 0, .wake 20]

/-- After the stray message a packet is taken out of an empty queue and the count is -1; after the
release the slot is in use again, though nobody has registered it. -/
theorem udp_slots_not_in_order :
    (∃ s log, exec (watch step see) always (start, fun _ => ⟨[], [], false, false⟩) strayMessage =
      some (s, log) ∧ (s.udptab 0).udcount = -1 ∧ (log 0).tookFromEmpty = true ∧
        ¬InOrder (s.udptab 0) (log 0)) ∧
    ∃ s log, exec (watch step see) always (start, fun _ => ⟨[], [], false, false⟩) releasedSlot =
      some (s, log) ∧ (log 0).registered = false ∧ (s.udptab 0).udstate = .used ∧
        ¬InOrder (s.udptab 0) (log 0) := by
  refine ⟨⟨_, _, rfl, by decide, by decide, ?_⟩, _, _, rfl, by decide, by decide, ?_⟩
  · intro h
    exact absurd h.count.1 (by decide)
  · intro h
    exact absurd (h.free (by decide)) (by decide)

end Xinu.Udp
