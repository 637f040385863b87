/-
# The queues of ICMP replies

This module is `struct icmpentry` of `icmp.h` and `icmp_register`, the echo replies of `icmp_in`,
`icmp_recv` and `icmp_release` of `icmp.c`, on packets that are only pointers.

Each of them runs with interrupts disabled and is one step, except that `icmp_recv` waits in
`recvtime`; what it does afterwards is a step of its own (`wake`).

The ring in an entry has `ICMP_QSIZ` places.  `icmp_in` advances the tail modulo `ICMP_QSIZ` and
never looks whether the ring is full; `icmp_recv` and `icmp_release` advance the head modulo
`ICMP_SLOTS`, which is 10 and not 8; and `icmp_recv` takes a message `OK` for a packet that is still
in the ring.
-/
import Xinu.TimedReceive
import Xinu.PacketQueue
import Xinu.Lib.Runs

namespace Xinu.Icmp

open Rings Runs

/-! ## 1. The table -/

/-- `ICMP_SLOTS` of `icmp.h`. -/
abbrev ICMP_SLOTS : Int := 10

/-- `ICMP_QSIZ` of `icmp.h`. -/
abbrev ICMP_QSIZ : Int := 8

/-- `ICMP_FREE`, `ICMP_USED` and `ICMP_RECV`. -/
inductive IcState
  | free
  | used
  | recv
deriving DecidableEq, Repr

/-- `struct icmpentry`.  The values of `icqueue` outside `0 .. ICMP_QSIZ - 1` stand for whatever is
in memory around the array. -/
structure Icmpentry where
  icstate : IcState
  icremip : Nat
  ichead : Int
  ictail : Int
  iccount : Int
  icpid : Int
  icqueue : Int → Nat

/-- The entry's queue. -/
def Icmpentry.queue (e : Icmpentry) : PacketQueue := ⟨e.ichead, e.ictail, e.iccount, e.icqueue⟩

/-- The entry with another queue. -/
def Icmpentry.setQueue (e : Icmpentry) (q : PacketQueue) : Icmpentry :=
  { e with ichead := q.head, ictail := q.tail, iccount := q.count, icqueue := q.packets }

@[simp] theorem Icmpentry.queue_setQueue (e : Icmpentry) (q : PacketQueue) :
    (e.setQueue q).queue = q := rfl

@[simp] theorem Icmpentry.icstate_setQueue (e : Icmpentry) (q : PacketQueue) :
    (e.setQueue q).icstate = e.icstate := rfl

/-- `icmptab`, and the processes that wait, each for a slot. -/
structure Icmptab where
  icmptab : Int → Icmpentry
  procs : Receivers Int

/-- The slots in the order in which loops visit them. -/
def slots : List Int := [0, 1, 2, 3, 4, 5, 6, 7, 8, 9]

/-- After `icmp_init`. -/
def start : Icmptab := ⟨fun _ => ⟨.free, 0, 0, 0, 0, 0, fun _ => 0⟩, .start⟩

/-- An entry is changed. -/
def Icmptab.set (s : Icmptab) (slot : Int) (f : Icmpentry → Icmpentry) : Icmptab :=
  { s with icmptab := Function.update s.icmptab slot (f (s.icmptab slot)) }

/-! ## 2. The functions

A packet is a name for it.  What is freed is given back as a list, so that the log can tell what
became of each packet. -/

/-- `icmp_register`. -/
def icmp_register (s : Icmptab) (remip : Nat) : Icmptab × Int :=
  if slots.any fun i => (s.icmptab i).icstate ≠ .free ∧ (s.icmptab i).icremip = remip then
    (s, SYSERR)
  else
    match slots.find? fun i => (s.icmptab i).icstate = .free with
    | none => (s, SYSERR)
    | some freeslot =>
      (s.set freeslot fun e =>
        { e with
          icstate := .used, icremip := remip, iccount := 0, ichead := 0, ictail := 0, icpid := -1 },
        freeslot)

/-- Does `icmp_in` put an echo reply with this identification and source into the queue? -/
def accepts (s : Icmptab) (icident ipsrc : Nat) : Bool :=
  (icident : Int) < ICMP_SLOTS ∧ (s.icmptab icident).icstate ≠ .free ∧
    ipsrc = (s.icmptab icident).icremip

/-- A packet goes in at the tail, which goes back to zero at `ICMP_QSIZ`. -/
def Icmpentry.enqueue (e : Icmpentry) (pkt : Nat) : Icmpentry :=
  e.setQueue (e.queue.enqueue ICMP_QSIZ pkt)

/-- `icmp_in` on an echo reply.  A packet that is not accepted is freed. -/
def icmp_in (s : Icmptab) (icident ipsrc pkt : Nat) : Icmptab :=
  if accepts s icident ipsrc then
    let t := s.set icident fun e => e.enqueue pkt
    if (s.icmptab icident).icstate = .recv then
      { t.set icident fun e => { e with icstate := .used } with
        procs := (s.procs.send (s.icmptab icident).icpid okMsg).1 }
    else t
  else s

/-- The packet at the head is taken out.  The head goes back to zero at `ICMP_SLOTS`. -/
def Icmpentry.dequeue (e : Icmpentry) : Icmpentry := e.setQueue (e.queue.dequeue ICMP_SLOTS)

/-- What `icmp_recv` returns. -/
inductive Result
  | error
  | timeout
  | packet (pkt : Nat)
deriving DecidableEq, Repr

/-- `icmp_recv` by `pid`, up to where it waits; it has no result yet if it waits. -/
def icmp_recv (s : Icmptab) (pid icmpid : Int) (timeout : Nat) : Icmptab × Option Result :=
  if icmpid < 0 ∨ icmpid ≥ ICMP_SLOTS then (s, some .error)
  else if (s.icmptab icmpid).icstate ≠ .used then (s, some .error)
  else if (s.icmptab icmpid).iccount = 0 then
    match (s.procs.recvclr pid).recvtime pid timeout icmpid with
    | some procs =>
      ({ s.set icmpid fun e => { e with icstate := .recv, icpid := pid } with procs }, none)
    | none =>
      ({ s.set icmpid fun e => { e with icstate := .used, icpid := pid } with
        procs := s.procs.recvclr pid }, some .error)
  else (s.set icmpid Icmpentry.dequeue, some (.packet (s.icmptab icmpid).queue.first))

/-- The rest of `icmp_recv`, after `recvtime` for `icmpid`. -/
def wake (s : Icmptab) (pid icmpid : Int) : Icmptab × Result :=
  let t := { s.set icmpid fun e => { e with icstate := .used } with procs := s.procs.resume pid }
  if s.procs.result pid = timeoutMsg then (t, .timeout)
  else if s.procs.result pid ≠ okMsg then (t, .error)
  else (t.set icmpid Icmpentry.dequeue, .packet (s.icmptab icmpid).queue.first)

/-- The loop of `icmp_release`: the queue it leaves and the packets that are freed. -/
def Icmpentry.drain (e : Icmpentry) : PacketQueue × List Nat :=
  e.queue.drain ICMP_SLOTS e.iccount.toNat

/-- Does `icmp_release` release the slot? -/
def releases (s : Icmptab) (icmpid : Int) : Bool :=
  ¬(icmpid < 0 ∨ icmpid ≥ ICMP_SLOTS) ∧ (s.icmptab icmpid).icstate = .used

/-- `icmp_release`. -/
def icmp_release (s : Icmptab) (icmpid : Int) : Icmptab × Int :=
  if releases s icmpid then
    (s.set icmpid fun e => { e.setQueue e.drain.1 with icstate := .free }, OK)
  else (s, SYSERR)

/-! ## 3. Interleavings

Any process may make any call at any time.  The log is kept beside the table. -/

/-- What happens next. -/
inductive Event
  | icmp_register (remip : Nat)
  | icmp_in (icident ipsrc pkt : Nat)
  | icmp_recv (pid icmpid : Int) (timeout : Nat)
  /-- `recvtime` returns in `pid`. -/
  | wake (pid : Int)
  | icmp_release (icmpid : Int)
  /-- Another process sends `pid` a message. -/
  | send (pid : Int) (msg : Nat)
deriving DecidableEq, Repr

/-- One step of any process. -/
def step (s : Icmptab) : Event → Option Icmptab
  | .icmp_register remip => some (icmp_register s remip).1
  | .icmp_in icident ipsrc pkt => some (icmp_in s icident ipsrc pkt)
  | .icmp_recv pid icmpid timeout =>
    if s.procs.waiting pid = none then some (icmp_recv s pid icmpid timeout).1 else none
  | .wake pid =>
    match s.procs.waiting pid with
    | some icmpid => some (wake s pid icmpid).1
    | none => none
  | .icmp_release icmpid => some (icmp_release s icmpid).1
  | .send pid msg => some { s with procs := (s.procs.send pid msg).1 }

/-- The packets a slot has accepted, and those that have left it with what became of them, each in
order. -/
structure SlotLog where
  accepted : List Nat
  left : List (Nat × Fate)

/-- Something happens to the log of a slot. -/
def note (l : Int → SlotLog) (slot : Int) (f : SlotLog → SlotLog) : Int → SlotLog :=
  Function.update l slot (f (l slot))

/-- The log of what a call of `icmp_recv` returned. -/
def noteResult (l : Int → SlotLog) (slot : Int) : Option Result → Int → SlotLog
  | some (.packet pkt) => note l slot fun x => { x with left := x.left ++ [(pkt, .returned)] }
  | _ => l

def see (s : Icmptab) (e : Event) (_ : Icmptab) (l : Int → SlotLog) : Int → SlotLog :=
  match e with
  | .icmp_in icident ipsrc pkt =>
    if accepts s icident ipsrc then
      note l icident fun x => { x with accepted := x.accepted ++ [pkt] }
    else l
  | .icmp_recv pid icmpid timeout => noteResult l icmpid (icmp_recv s pid icmpid timeout).2
  | .wake pid =>
    match s.procs.waiting pid with
    | some icmpid => noteResult l icmpid (some (wake s pid icmpid).2)
    | none => l
  | .icmp_release icmpid =>
    if releases s icmpid then
      note l icmpid fun x =>
        { x with left := x.left ++ (s.icmptab icmpid).drain.2.map fun pkt => (pkt, .freed) }
    else l
  | _ => l

/-! ## 4. What is to be kept

The parts of `Fits` keep a step from meeting one of the three slips. -/

/-- The entry's indices are places of its ring, its count is the number of packets in the ring, and
these are the packets that were accepted and have not left, in order. -/
structure InOrder (e : Icmpentry) (l : SlotLog) : Prop where
  head : 0 ≤ e.ichead ∧ e.ichead < ICMP_QSIZ
  tail : 0 ≤ e.ictail ∧ e.ictail < ICMP_QSIZ
  count : 0 ≤ e.iccount ∧ e.iccount ≤ ICMP_QSIZ
  held : ∃ xs, e.queue.Holds ICMP_QSIZ l.accepted l.left xs

/-- No reply is queued in a full ring, no packet is taken from the last place or out of an empty
ring, and a release does not empty the last place. -/
def Fits (x : Icmptab × (Int → SlotLog)) : Event → Prop
  | .icmp_in icident ipsrc _ => accepts x.1 icident ipsrc = true →
      (x.1.icmptab icident).iccount < ICMP_QSIZ
  | .icmp_recv _ icmpid _ => (x.1.icmptab icmpid).iccount ≠ 0 →
      (x.1.icmptab icmpid).ichead + 1 < ICMP_QSIZ
  | .wake pid => x.1.procs.prmsg pid = some okMsg → ∀ icmpid ∈ x.1.procs.waiting pid,
      0 < (x.1.icmptab icmpid).iccount ∧ (x.1.icmptab icmpid).ichead + 1 < ICMP_QSIZ
  | .icmp_release icmpid => releases x.1 icmpid = true →
      (x.1.icmptab icmpid).ichead + (x.1.icmptab icmpid).iccount < ICMP_QSIZ
  | _ => True

/-! ## 5. One entry

The functions come down to five moves of one entry. -/

/-- The invariant of an entry. -/
structure SlotInv (e : Icmpentry) (l : SlotLog) (xs : List Nat) : Prop where
  holds : e.queue.Holds ICMP_QSIZ l.accepted l.left xs
  free : e.icstate = .free → xs = []

variable {e : Icmpentry} {l : SlotLog} {xs : List Nat}

theorem SlotInv.inOrder (h : SlotInv e l xs) : InOrder e l := by
  have hr := h.holds.account.ring
  exact ⟨⟨hr.head_nonneg, hr.head_lt⟩, ⟨hr.tail_nonneg, hr.tail_lt⟩, h.holds.count_bounds, xs,
    h.holds⟩

/-- Marking a slot that is in use. -/
theorem SlotInv.mark (h : SlotInv e l xs) {st : IcState} (hst : st ≠ .free) (pid : Int) :
    SlotInv { e with icstate := st, icpid := pid } l xs :=
  ⟨h.holds, fun hf => absurd hf hst⟩

/-- A new registration starts with an empty ring. -/
theorem SlotInv.register (h : SlotInv e l xs) (hfree : e.icstate = .free) (remip : Nat) :
    SlotInv { e with
      icstate := .used, icremip := remip, iccount := 0, ichead := 0, ictail := 0, icpid := -1 }
      l [] := by
  obtain rfl := h.free hfree
  exact ⟨h.holds.reset, fun _ => rfl⟩

/-- **A reply is queued where there is room.** -/
theorem SlotInv.enqueue (h : SlotInv e l xs) (hroom : e.iccount < ICMP_QSIZ)
    (hst : e.icstate ≠ .free) (pkt : Nat) :
    SlotInv (e.enqueue pkt) { l with accepted := l.accepted ++ [pkt] } (xs ++ [pkt]) :=
  ⟨h.holds.enqueue hroom pkt, fun hf => absurd hf hst⟩

/-- **The oldest packet is taken**, where the head is not at the last place. -/
theorem SlotInv.dequeue (h : SlotInv e l xs) (hcount : 0 < e.iccount)
    (hhead : e.ichead + 1 < ICMP_QSIZ) :
    ∃ ys, SlotInv e.dequeue { l with left := l.left ++ [(e.queue.first, .returned)] } ys := by
  -- the test against `ICMP_SLOTS` does nothing here, and neither would one against `ICMP_QSIZ`
  obtain ⟨ys, hys, hd⟩ := h.holds.dequeue hcount
    (PacketQueue.next_short hhead (show ICMP_QSIZ ≤ ICMP_SLOTS by decide)) .returned
  refine ⟨ys, hd, fun hf => ?_⟩
  have hnil := h.free hf
  rw [hys] at hnil
  exact absurd hnil (List.cons_ne_nil _ _)

/-- **A release empties the ring**, if the head stays short of the end. -/
theorem SlotInv.release (h : SlotInv e l xs) (hhead : e.ichead + e.iccount < ICMP_QSIZ) :
    SlotInv { e.setQueue e.drain.1 with icstate := .free }
      { l with left := l.left ++ e.drain.2.map fun pkt => (pkt, .freed) } [] := by
  have hcount : e.iccount = xs.length := h.holds.count
  have hn : e.iccount.toNat = xs.length := by rw [hcount, Int.toNat_natCast]
  have hd := @PacketQueue.Holds.drain _ ICMP_SLOTS _ e.iccount.toNat _ _ _ h.holds hn.symm
    (.inr ⟨by decide, by rw [hn, ← hcount]; exact hhead⟩)
  exact ⟨hd, fun _ => rfl⟩

/-! ## 6. The table

Only one entry changes in a step. -/

/-- The invariant of the table. -/
def Inv (s : Icmptab) (l : Int → SlotLog) : Prop := ∀ i, ∃ xs, SlotInv (s.icmptab i) (l i) xs

variable {s t : Icmptab} {log log' : Int → SlotLog} {ev : Event}

theorem inv_start : Inv start fun _ => ⟨[], []⟩ := fun _ =>
  ⟨[], ⟨.start (by decide) rfl, rfl⟩, fun _ => rfl⟩

/-- Only one entry and its log change. -/
theorem Inv.of_slot (h : Inv s log) {j : Int} (ht : ∀ i, i ≠ j → t.icmptab i = s.icmptab i)
    (hl : ∀ i, i ≠ j → log' i = log i) (hj : ∃ xs, SlotInv (t.icmptab j) (log' j) xs) :
    Inv t log' := by
  intro i
  by_cases hi : i = j
  · rw [hi]
    exact hj
  · rw [ht i hi, hl i hi]
    exact h i

theorem Inv.icmp_register (h : Inv s log) (remip : Nat) : Inv (icmp_register s remip).1 log := by
  unfold Icmp.icmp_register
  split_ifs with hany
  · exact h
  · cases hf : slots.find? fun i => (s.icmptab i).icstate = .free with
    | none => exact h
    | some freeslot =>
      have hfree := List.find?_some hf
      obtain ⟨xs, hx⟩ := h freeslot
      refine h.of_slot (fun i hi => Function.update_of_ne hi _ _) (fun i _ => rfl) ⟨[], ?_⟩
      simp only [Icmptab.set, Function.update_self]
      exact hx.register (by simpa using hfree) remip

theorem Inv.icmp_in (h : Inv s log) {icident ipsrc pkt : Nat}
    (hfits : accepts s icident ipsrc = true → (s.icmptab icident).iccount < ICMP_QSIZ) :
    Inv (icmp_in s icident ipsrc pkt) (see s (.icmp_in icident ipsrc pkt) t log) := by
  unfold Icmp.icmp_in see
  by_cases ha : accepts s icident ipsrc = true
  · simp only [if_pos ha]
    have hst : (s.icmptab icident).icstate ≠ .free := by
      simp only [accepts, decide_eq_true_eq] at ha
      exact ha.2.1
    obtain ⟨xs, hx⟩ := h icident
    have hq := hx.enqueue (hfits ha) hst pkt
    split_ifs with hr
    · refine h.of_slot (j := icident) (fun i hi => ?_)
        (fun i hi => Function.update_of_ne hi _ _) ⟨xs ++ [pkt], ?_⟩
      · simp only [Icmptab.set, Function.update_of_ne hi]
      · simp only [Icmptab.set, Function.update_self, note]
        exact hq.mark (by simp) _
    · refine h.of_slot (j := icident) (fun i hi => Function.update_of_ne hi _ _)
        (fun i hi => Function.update_of_ne hi _ _) ⟨xs ++ [pkt], ?_⟩
      simp only [Icmptab.set, Function.update_self, note]
      exact hq
  · simp only [if_neg ha]
    exact h

theorem Inv.icmp_recv (h : Inv s log) {pid icmpid : Int} {timeout : Nat}
    (hfits : (s.icmptab icmpid).iccount ≠ 0 → (s.icmptab icmpid).ichead + 1 < ICMP_QSIZ) :
    Inv (icmp_recv s pid icmpid timeout).1
      (noteResult log icmpid (icmp_recv s pid icmpid timeout).2) := by
  obtain ⟨xs, hx⟩ := h icmpid
  unfold Icmp.icmp_recv
  by_cases hbad : icmpid < 0 ∨ icmpid ≥ ICMP_SLOTS
  · rw [if_pos hbad]
    exact h
  rw [if_neg hbad]
  by_cases hused : (s.icmptab icmpid).icstate ≠ .used
  · rw [if_pos hused]
    exact h
  rw [if_neg hused]
  by_cases hcount : (s.icmptab icmpid).iccount = 0
  · rw [if_pos hcount]
    cases (s.procs.recvclr pid).recvtime pid timeout icmpid with
    | some procs =>
      refine h.of_slot (j := icmpid) (fun i hi => Function.update_of_ne hi _ _)
        (fun i _ => rfl) ⟨xs, ?_⟩
      simp only [Icmptab.set, Function.update_self]
      exact hx.mark (by simp) _
    | none =>
      refine h.of_slot (j := icmpid) (fun i hi => Function.update_of_ne hi _ _)
        (fun i _ => rfl) ⟨xs, ?_⟩
      simp only [Icmptab.set, Function.update_self]
      exact hx.mark (by simp) _
  · rw [if_neg hcount]
    have hpos : 0 < (s.icmptab icmpid).iccount :=
      lt_of_le_of_ne hx.holds.count_bounds.1 (Ne.symm hcount)
    obtain ⟨ys, hd⟩ := hx.dequeue hpos (hfits hcount)
    refine h.of_slot (j := icmpid) (fun i hi => Function.update_of_ne hi _ _)
      (fun i hi => Function.update_of_ne hi _ _) ⟨ys, ?_⟩
    simp only [Icmptab.set, Function.update_self, noteResult, note]
    exact hd

theorem Inv.wake (h : Inv s log) {pid icmpid : Int}
    (hfits : s.procs.prmsg pid = some okMsg →
      0 < (s.icmptab icmpid).iccount ∧ (s.icmptab icmpid).ichead + 1 < ICMP_QSIZ) :
    Inv (wake s pid icmpid).1 (noteResult log icmpid (some (wake s pid icmpid).2)) := by
  obtain ⟨xs, hx⟩ := h icmpid
  have hmark := hx.mark (show IcState.used ≠ .free by simp) (s.icmptab icmpid).icpid
  simp only [Icmp.wake]
  split_ifs with htime hok
  · refine h.of_slot (j := icmpid) (fun i hi => Function.update_of_ne hi _ _)
      (fun i _ => rfl) ⟨xs, ?_⟩
    simp only [Icmptab.set, Function.update_self, noteResult]
    exact hmark
  · refine h.of_slot (j := icmpid) (fun i hi => Function.update_of_ne hi _ _)
      (fun i _ => rfl) ⟨xs, ?_⟩
    simp only [Icmptab.set, Function.update_self, noteResult]
    exact hmark
  · obtain ⟨hpos, hhead⟩ := hfits (s.procs.prmsg_of_ok htime (not_not.mp hok))
    obtain ⟨ys, hd⟩ := hmark.dequeue hpos hhead
    refine h.of_slot (j := icmpid) (fun i hi => ?_) (fun i hi => Function.update_of_ne hi _ _)
      ⟨ys, ?_⟩
    · simp only [Icmptab.set, Function.update_of_ne hi]
    · simp only [Icmptab.set, Function.update_self, noteResult, note]
      exact hd

theorem Inv.icmp_release (h : Inv s log) {icmpid : Int}
    (hfits : releases s icmpid = true →
      (s.icmptab icmpid).ichead + (s.icmptab icmpid).iccount < ICMP_QSIZ) :
    Inv (icmp_release s icmpid).1 (see s (.icmp_release icmpid) t log) := by
  unfold Icmp.icmp_release see
  by_cases hr : releases s icmpid = true
  · simp only [if_pos hr]
    obtain ⟨xs, hx⟩ := h icmpid
    refine h.of_slot (j := icmpid) (fun i hi => Function.update_of_ne hi _ _)
      (fun i hi => Function.update_of_ne hi _ _) ⟨[], ?_⟩
    simp only [Icmptab.set, Function.update_self, note]
    exact hx.release (hfits hr)
  · simp only [if_neg hr]
    exact h

/-- **Every step that fits keeps the queues in order.** -/
theorem Inv.step (h : Inv s log) (hok : Fits (s, log) ev) (hs : step s ev = some t) :
    Inv t (see s ev t log) := by
  cases ev with
  | icmp_register remip =>
    rw [Icmp.step, Option.some.injEq] at hs
    subst hs
    exact h.icmp_register remip
  | icmp_in icident ipsrc pkt =>
    rw [Icmp.step, Option.some.injEq] at hs
    subst hs
    exact h.icmp_in hok
  | icmp_recv pid icmpid timeout =>
    simp only [Icmp.step, Option.ite_none_right_eq_some, Option.some.injEq] at hs
    obtain ⟨-, rfl⟩ := hs
    exact h.icmp_recv hok
  | wake pid =>
    simp only [Icmp.step, see] at hs ⊢
    cases hw : s.procs.waiting pid with
    | none => simp [hw] at hs
    | some icmpid =>
      rw [hw, Option.some.injEq] at hs
      subst hs
      exact h.wake fun hm => hok hm icmpid hw
  | icmp_release icmpid =>
    rw [Icmp.step, Option.some.injEq] at hs
    subst hs
    exact h.icmp_release hok
  | send pid msg =>
    rw [Icmp.step, Option.some.injEq] at hs
    subst hs
    exact h

/-- **Where every step fits, the queues of replies are in order** in every state that is reached. -/
theorem icmp_queues_in_order
    (h : Reaches (watch step see) Fits (start, fun _ => ⟨[], []⟩) (s, log)) (i : Int) :
    InOrder (s.icmptab i) (log i) := by
  have hinv := Reaches.invariant (I := fun x : Icmptab × (Int → SlotLog) => Inv x.1 x.2) h
    inv_start fun x e y hx hok hs => by
      obtain ⟨t, ht, rfl⟩ := watch_some.mp hs
      exact hx.step hok ht
  obtain ⟨xs, hx⟩ := hinv i
  exact hx.inOrder

/-! ## 7. Steps that do not fit

Nobody has to receive anything for the ring to overflow. -/

instance : DecidableRel Fits := fun x e => by
  cases e <;> unfold Fits <;> infer_instance

/-- A process registers, waits for a reply, gets it and releases the slot with another reply in the
ring. -/
def ping : List Event :=
  [.icmp_register 7, .icmp_recv 20 0 1000, .icmp_in 0 7 100, .wake 20, .icmp_in 0 7 101,
    .icmp_release 0]

theorem icmp_queues_in_order_ping :
    ∃ s log, exec (watch step see) Fits (start, fun _ => ⟨[], []⟩) ping = some (s, log) ∧
      InOrder (s.icmptab 0) (log 0) :=
  ⟨_, _, rfl, icmp_queues_in_order (@reaches_of_exec _ _ _ _ _ _ _ ping rfl) 0⟩

/-- Nine replies that nobody receives. -/
def nineReplies : List Event :=
  .icmp_register 7 :: ([1, 2, 3, 4, 5, 6, 7, 8, 9].map fun pkt => .icmp_in 0 7 pkt)

/-- The ninth reply is accepted: it takes the place of the first, and the count is 9. -/
theorem icmp_queue_overflows :
    ∃ s log, exec (watch step see) always (start, fun _ => ⟨[], []⟩) nineReplies = some (s, log) ∧
      (s.icmptab 0).iccount = 9 ∧ (s.icmptab 0).icqueue 0 = 9 ∧
      ¬InOrder (s.icmptab 0) (log 0) := by
  refine ⟨_, _, rfl, by decide, by decide, ?_⟩
  intro h
  exact absurd h.count.2 (by decide)

end Xinu.Icmp
