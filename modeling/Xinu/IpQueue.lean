/-
# The queue of outgoing IP packets

This module is `struct iqentry` of `ip.h`, `ip_enqueue` and the queue's side of the process `ipout`
of `ip.c`.

`ip_enqueue` runs with interrupts disabled and is one step.  `ipout` is not: between its `wait` and
reading the entry at the head, and between reading the entry and advancing the head, any process may
call `ip_enqueue`.  `ip_enqueue` takes the semaphore's count for the number of entries in use, but
`wait` has already lowered the count for an entry that `ipout` has not read yet.
-/
import Xinu.Kernel
import Xinu.Lib.Ring
import Xinu.Lib.Runs

namespace Xinu.IpQueue

open Rings Runs

/-! ## 1. The queue and the process

The phases of `ipout` are the places in its loop between which other processes may run. -/

/-- `IP_OQSIZ` of `ip.h`. -/
abbrev IP_OQSIZ : Int := 8

/-- Where `ipout` is in its loop. -/
inductive Phase
  /-- Before `wait`. -/
  | ready
  /-- In `wait`. -/
  | blocked
  /-- After `wait`, before it reads `iqbuf[iqhead]`. -/
  | passed
  /-- It has read a packet, and `iqhead` is still to be advanced. -/
  | read (pktptr : Nat)
  /-- It transmits or frees the packet. -/
  | transmits (pktptr : Nat)
deriving DecidableEq, Repr

/-- `ipoqueue`, the count of its semaphore, the process that waits on it, and the packets that
`ip_enqueue` has given to `freebuf`. -/
structure Ipoqueue where
  iqhead : Int
  iqtail : Int
  iqbuf : Int → Nat
  semcount : Int
  ipout : Phase
  freed : List Nat

/-- After `net_init`. -/
def start : Ipoqueue := ⟨0, 0, fun _ => 0, 0, .ready, []⟩

/-- `signal(iqsem)`, on which nobody but `ipout` waits. -/
def signal (s : Ipoqueue) : Ipoqueue :=
  { s with
    semcount := s.semcount + 1
    ipout := if s.semcount < 0 then .passed else s.ipout }

/-- `ip_enqueue`, with the status it returns. -/
def ip_enqueue (s : Ipoqueue) (pktptr : Nat) : Ipoqueue × Int :=
  if s.semcount ≥ IP_OQSIZ then ({ s with freed := s.freed ++ [pktptr] }, SYSERR)
  else
    (signal { s with
      iqbuf := Function.update s.iqbuf s.iqtail pktptr
      iqtail := if s.iqtail + 1 ≥ IP_OQSIZ then 0 else s.iqtail + 1 }, OK)

/-- What happens next. -/
inductive Event
  | ip_enqueue (pktptr : Nat)
  | wait
  | readHead
  | advance
  | finish
deriving DecidableEq, Repr

/-- One step of any process. -/
def step (s : Ipoqueue) : Event → Option Ipoqueue
  | .ip_enqueue pktptr => some (ip_enqueue s pktptr).1
  | .wait =>
    if s.ipout = .ready then
      some { s with
        semcount := s.semcount - 1
        ipout := if s.semcount - 1 < 0 then .blocked else .passed }
    else none
  | .readHead =>
    if s.ipout = .passed then some { s with ipout := .read (s.iqbuf s.iqhead) } else none
  | .advance =>
    match s.ipout with
    | .read pktptr =>
      some { s with
        iqhead := if s.iqhead + 1 ≥ IP_OQSIZ then 0 else s.iqhead + 1
        ipout := .transmits pktptr }
    | _ => none
  | .finish =>
    match s.ipout with
    | .transmits _ => some { s with ipout := .ready }
    | _ => none

/-! ## 2. What is to be kept

The entries that are in use are counted by the semaphore and by where `ipout` is. -/

/-- The packets for which `ip_enqueue` has returned `OK`, those for which it has not, and those that
`ipout` has read, each in order. -/
structure Log where
  accepted : List Nat
  rejected : List Nat
  taken : List Nat

def see (s : Ipoqueue) (e : Event) (_ : Ipoqueue) (l : Log) : Log :=
  match e with
  | .ip_enqueue pktptr =>
    if (ip_enqueue s pktptr).2 = OK then { l with accepted := l.accepted ++ [pktptr] }
    else { l with rejected := l.rejected ++ [pktptr] }
  | .readHead => { l with taken := l.taken ++ [s.iqbuf s.iqhead] }
  | _ => l

/-- The place of the oldest entry that `ipout` has not read. -/
def Ipoqueue.front (s : Ipoqueue) : Int :=
  match s.ipout with
  | .read _ => next IP_OQSIZ s.iqhead
  | _ => s.iqhead

/-- The entries that `ipout` has not read, by the count and by where `ipout` is. -/
def Ipoqueue.unread (s : Ipoqueue) : Int :=
  max s.semcount 0 + if s.ipout = .passed then 1 else 0

/-- Every packet that was accepted has been taken, in order, or is in the buffer; every packet that
was rejected has been freed; and `ipout` sleeps only when all have been taken. -/
structure InOrder (s : Ipoqueue) (l : Log) : Prop where
  held : ∃ xs, Account IP_OQSIZ s.iqbuf s.front s.iqtail l.accepted l.taken xs
  freed : s.freed = l.rejected
  awake : s.ipout = .blocked → l.accepted = l.taken

/-- No packet is accepted into a buffer that is full of entries `ipout` has not read. -/
def Room (x : Ipoqueue × Log) : Event → Prop
  | .ip_enqueue _ => x.1.semcount < IP_OQSIZ → x.1.unread < IP_OQSIZ
  | _ => True

/-! ## 3. It is kept where there is room

The invariant ties the count of the semaphore to the contents of the buffer. -/

/-- The invariant: the buffer's contents, and the count of them. -/
structure Inv (s : Ipoqueue) (l : Log) (xs : List Nat) : Prop where
  account : Account IP_OQSIZ s.iqbuf s.front s.iqtail l.accepted l.taken xs
  unread : (xs.length : Int) = s.unread
  freed : s.freed = l.rejected
  count : -1 ≤ s.semcount
  blocked : s.semcount < 0 ↔ s.ipout = .blocked

variable {s t : Ipoqueue} {l : Log} {xs : List Nat} {e : Event}

theorem inv_start : Inv start ⟨[], [], []⟩ [] :=
  ⟨.start (by decide) rfl, rfl, rfl, by decide, by simp [start]⟩

theorem Inv.inOrder (h : Inv s l xs) : InOrder s l := by
  refine ⟨⟨xs, h.account⟩, h.freed, fun hb => ?_⟩
  have hneg := h.blocked.mpr hb
  have hlen : (xs.length : Int) = 0 := by
    rw [h.unread, Ipoqueue.unread, if_neg (by rw [hb]; exact Phase.noConfusion)]
    omega
  have hnil : xs = [] := List.length_eq_zero_iff.mp (by omega)
  rw [h.account.order, hnil, List.append_nil]

/-- **A packet is accepted or freed.** -/
theorem Inv.ip_enqueue (h : Inv s l xs) {pktptr : Nat}
    (hroom : s.semcount < IP_OQSIZ → s.unread < IP_OQSIZ) :
    ∃ ys, Inv (ip_enqueue s pktptr).1 (see s (.ip_enqueue pktptr) t l) ys := by
  unfold see IpQueue.ip_enqueue
  by_cases hfull : s.semcount ≥ IP_OQSIZ
  · refine ⟨xs, ?_⟩
    simp only [if_pos hfull]
    exact ⟨h.account, h.unread, by rw [h.freed]; rfl, h.count, h.blocked⟩
  · refine ⟨xs ++ [pktptr], ?_⟩
    have hlt : (xs.length : Int) < IP_OQSIZ := by
      rw [h.unread]
      exact hroom (not_le.mp hfull)
    have hacc := h.account.enter (a := pktptr) hlt
    have hcount := h.count
    have hlen := h.unread
    simp only [if_neg hfull, if_true]
    rcases lt_or_ge s.semcount 0 with hneg | hpos
    · -- `ipout` waits, and is let through
      have hb := h.blocked.mp hneg
      refine ⟨?_, ?_, h.freed, ?_, ?_⟩
      · simp only [signal, if_pos hneg, Ipoqueue.front] at hacc ⊢
        rw [hb] at hacc
        exact hacc
      · simp only [Ipoqueue.unread, signal, if_pos hneg, List.length_append, hb] at hlen ⊢
        simp at hlen ⊢
        omega
      · simp only [signal]
        omega
      · simp only [signal, if_pos hneg]
        constructor
        · intro hc
          omega
        · exact fun hc => Phase.noConfusion hc
    · have hb : s.ipout ≠ .blocked := fun hb => by
        have := h.blocked.mpr hb
        omega
      refine ⟨?_, ?_, h.freed, ?_, ?_⟩
      · simp only [signal, if_neg (not_lt.mpr hpos)]
        exact hacc
      · simp only [Ipoqueue.unread, signal, if_neg (not_lt.mpr hpos), List.length_append,
          List.length_singleton] at hlen ⊢
        split_ifs at hlen ⊢ <;> omega
      · simp only [signal]
        omega
      · simp only [signal, if_neg (not_lt.mpr hpos)]
        exact ⟨fun hc => by omega, fun hc => absurd hc hb⟩

/-- `ipout` passes `wait` or sleeps there. -/
theorem Inv.wait (h : Inv s l xs) (hp : s.ipout = .ready) :
    Inv { s with
      semcount := s.semcount - 1
      ipout := if s.semcount - 1 < 0 then .blocked else .passed } l xs := by
  have hc := h.count
  have hnb : 0 ≤ s.semcount := not_lt.mp fun hn => by
    rw [h.blocked.mp hn] at hp
    exact Phase.noConfusion hp
  have hlen := h.unread
  have hacc := h.account
  simp only [Ipoqueue.unread, Ipoqueue.front, hp] at hlen hacc
  refine ⟨?_, ?_, h.freed, ?_, ?_⟩
  · simp only [Ipoqueue.front]
    split_ifs <;> exact hacc
  · simp only [Ipoqueue.unread]
    split_ifs <;> simp at * <;> omega
  · simp only []
    omega
  · simp only []
    split_ifs with hw
    · exact ⟨fun _ => rfl, fun _ => hw⟩
    · exact ⟨fun hc => absurd hc hw, fun hc => hc.elim⟩

/-- `ipout` goes on without `wait`, between an entry that it has read and the next one. -/
theorem Inv.move (h : Inv s l xs) (hcount : t.semcount = s.semcount) (hfreed : t.freed = s.freed)
    (hacc : Account IP_OQSIZ t.iqbuf t.front t.iqtail l.accepted l.taken xs)
    (hs : s.ipout ≠ .passed ∧ s.ipout ≠ .blocked) (ht : t.ipout ≠ .passed ∧ t.ipout ≠ .blocked) :
    Inv t l xs := by
  refine ⟨hacc, ?_, hfreed.trans h.freed, hcount ▸ h.count, ?_⟩
  · rw [h.unread, Ipoqueue.unread, Ipoqueue.unread, hcount, if_neg hs.1, if_neg ht.1]
  · rw [hcount, h.blocked]
    exact iff_of_false hs.2 ht.2

/-- **A step of `ipout`.** -/
theorem Inv.step (h : Inv s l xs) (hroom : Room (s, l) e) (hs : step s e = some t) :
    ∃ ys, Inv t (see s e t l) ys := by
  cases e with
  | ip_enqueue pktptr =>
    rw [IpQueue.step, Option.some.injEq] at hs
    subst hs
    exact h.ip_enqueue hroom
  | wait =>
    simp only [IpQueue.step, Option.ite_none_right_eq_some, Option.some.injEq] at hs
    obtain ⟨hp, rfl⟩ := hs
    exact ⟨xs, h.wait hp⟩
  | readHead =>
    simp only [IpQueue.step, Option.ite_none_right_eq_some, Option.some.injEq] at hs
    obtain ⟨hp, rfl⟩ := hs
    have hlen := h.unread
    have hacc := h.account
    simp only [Ipoqueue.unread, Ipoqueue.front, hp] at hlen hacc
    -- it has passed `wait`, so there is an entry
    obtain ⟨pktptr, ys, rfl⟩ : ∃ pktptr ys, xs = pktptr :: ys := by
      cases xs with
      | nil =>
        simp at hlen
        omega
      | cons a ys => exact ⟨a, ys, rfl⟩
    obtain ⟨ha, hy⟩ := hacc.leave
    refine ⟨ys, ?_, ?_, h.freed, h.count, ?_⟩
    · simp only [see, ha]
      exact hy
    · simp [Ipoqueue.unread] at hlen ⊢
      omega
    · rw [h.blocked, hp]
      simp
  | advance =>
    simp only [IpQueue.step] at hs
    split at hs
    · rename_i pktptr hp
      obtain rfl := Option.some.inj hs
      have hacc := h.account
      simp only [Ipoqueue.front, hp] at hacc
      exact ⟨xs, h.move rfl rfl hacc (by simp [hp]) (by simp)⟩
    · exact absurd hs (by simp)
  | finish =>
    simp only [IpQueue.step] at hs
    split at hs
    · rename_i pktptr hp
      obtain rfl := Option.some.inj hs
      have hacc := h.account
      simp only [Ipoqueue.front, hp] at hacc
      exact ⟨xs, h.move rfl rfl hacc (by simp [hp]) (by simp)⟩
    · exact absurd hs (by simp)

/-- **Where there is room the queue is in order.**  In every run in which no packet is accepted
while eight entries are unread, what `ipout` has read is what was accepted, in order, up to what is
in the buffer, whichever way the steps interleave. -/
theorem ip_queue_in_order
    (h : Reaches (watch step see) Room (start, ⟨[], [], []⟩) (s, l)) : InOrder s l := by
  have hinv := Reaches.invariant (I := fun x : Ipoqueue × Log => ∃ xs, Inv x.1 x.2 xs) h
    ⟨[], inv_start⟩ fun x e y ⟨xs, hx⟩ hok hs => by
      obtain ⟨t, ht, rfl⟩ := watch_some.mp hs
      exact hx.step hok ht
  obtain ⟨xs, hx⟩ := hinv
  exact hx.inOrder

/-! ## 4. It is not kept otherwise

The count is one too low while `ipout` has passed its wait and not read the entry. -/

instance : DecidableRel Room := fun x e => by
  cases e <;> unfold Room <;> infer_instance

/-- A packet is queued and sent. -/
def sendOne : List Event := [.wait, .ip_enqueue 100, .readHead, .advance, .finish]

theorem ip_queue_in_order_sendOne :
    ∃ s l, exec (watch step see) Room (start, ⟨[], [], []⟩) sendOne = some (s, l) ∧
      InOrder s l :=
  ⟨_, _, rfl, ip_queue_in_order (@reaches_of_exec _ _ _ _ _ _ _ sendOne rfl)⟩

/-- Eight packets are queued, `ipout` passes `wait`, and a ninth packet is queued before `ipout` has
read the first. -/
def ninePackets : List Event :=
  [.ip_enqueue 1, .ip_enqueue 2, .ip_enqueue 3, .ip_enqueue 4, .ip_enqueue 5, .ip_enqueue 6,
    .ip_enqueue 7, .ip_enqueue 8, .wait, .ip_enqueue 9, .readHead]

/-- The ninth packet takes the place of the first, and `ipout` reads it instead. -/
theorem ip_queue_overwritten :
    ∃ s l, exec (watch step see) always (start, ⟨[], [], []⟩) ninePackets = some (s, l) ∧
      l.accepted = [1, 2, 3, 4, 5, 6, 7, 8, 9] ∧ l.taken = [9] ∧ ¬InOrder s l := by
  refine ⟨_, _, rfl, by decide, by decide, ?_⟩
  rintro ⟨⟨xs, hacc⟩, -, -⟩
  have hord := hacc.order
  exact absurd (List.cons.inj hord).1 (by decide)

end Xinu.IpQueue
