/-
# Queues of packets in a table entry

An entry of `icmptab` and an entry of `udptab` keep their packets in the same way: an array used as
a ring, the index of the next packet to read, the index of the next place to fill, and a count.  The
statements that put a packet in and take one out differ in the bound at which an index goes back to
zero, which is a parameter here: `size` is the length of the array, `wrap` the bound at which the
head goes back.
-/
import Xinu.Lib.Ring

namespace Xinu

open Rings

/-- The four fields. -/
@[ext] structure PacketQueue where
  head : Int
  tail : Int
  count : Int
  packets : Int → Nat

/-- What becomes of a packet that was accepted. -/
inductive Fate
  | returned
  | freed
deriving DecidableEq, Repr

namespace PacketQueue

/-- A packet goes in at the tail. -/
def enqueue (size : Int) (q : PacketQueue) (pkt : Nat) : PacketQueue :=
  { q with
    count := q.count + 1
    packets := Function.update q.packets q.tail pkt
    tail := next size q.tail }

/-- The packet at the head. -/
def first (q : PacketQueue) : Nat := q.packets q.head

/-- It is taken out. -/
def dequeue (wrap : Int) (q : PacketQueue) : PacketQueue :=
  { q with head := next wrap q.head, count := q.count - 1 }

/-- The loop that empties the queue, `n` times: the queue and the packets that are freed. -/
def drain (wrap : Int) : Nat → PacketQueue → PacketQueue × List Nat
  | 0, q => (q, [])
  | n + 1, q => ((drain wrap n (q.dequeue wrap)).1, q.first :: (drain wrap n (q.dequeue wrap)).2)

/-- The queue holds `xs`, which are the packets that were accepted and have not left. -/
structure Holds (size : Int) (q : PacketQueue) (accepted : List Nat) (left : List (Nat × Fate))
    (xs : List Nat) : Prop where
  account : Account size q.packets q.head q.tail accepted (left.map Prod.fst) xs
  count : q.count = xs.length

variable {size wrap : Int} {q : PacketQueue} {accepted : List Nat} {left : List (Nat × Fate)}
  {xs : List Nat}

/-- A queue that is set to zero when nothing is in it. -/
theorem Holds.reset (h : Holds size q accepted left []) :
    Holds size { q with head := 0, tail := 0, count := 0 } accepted left [] := by
  have hord := h.account.order
  rw [List.append_nil] at hord
  exact ⟨.start h.account.ring.pos hord, rfl⟩

theorem Holds.count_bounds (h : Holds size q accepted left xs) : 0 ≤ q.count ∧ q.count ≤ size := by
  rw [h.count]
  exact ⟨Int.natCast_nonneg _, h.account.ring.fits⟩

/-- **A packet goes in where there is room.** -/
theorem Holds.enqueue (h : Holds size q accepted left xs) (hroom : q.count < size) (pkt : Nat) :
    Holds size (q.enqueue size pkt) (accepted ++ [pkt]) left (xs ++ [pkt]) := by
  rw [h.count] at hroom
  refine ⟨h.account.enter hroom, ?_⟩
  simp [PacketQueue.enqueue, h.count]

/-- **The oldest packet comes out**, where the head goes on as it should. -/
theorem Holds.dequeue (h : Holds size q accepted left xs) (hcount : 0 < q.count)
    (hwrap : next wrap q.head = next size q.head) (fate : Fate) :
    ∃ ys, xs = q.first :: ys ∧
      Holds size (q.dequeue wrap) accepted (left ++ [(q.first, fate)]) ys := by
  cases xs with
  | nil =>
    rw [h.count] at hcount
    exact absurd hcount (by simp)
  | cons a ys =>
    obtain ⟨ha, hacc⟩ := h.account.leave
    have hfirst : q.first = a := ha
    refine ⟨ys, by rw [hfirst], ?_, ?_⟩
    · rw [List.map_append, hfirst]
      simp only [PacketQueue.dequeue, hwrap]
      exact hacc
    · simp only [PacketQueue.dequeue, h.count, List.length_cons]
      push_cast
      ring

/-- Short of the end of the array, every bound past it is the same. -/
theorem next_short {i : Int} (hi : i + 1 < size) (hle : size ≤ wrap) :
    next wrap i = next size i := by
  unfold next
  rw [if_neg (by omega), if_neg (by omega)]

/-- **The loop empties the queue**, oldest packet first, if the bound is right or the head stays
short of the end. -/
theorem Holds.drain {n : Nat} : ∀ {q : PacketQueue} {left : List (Nat × Fate)} {xs : List Nat},
    Holds size q accepted left xs → xs.length = n →
    wrap = size ∨ size ≤ wrap ∧ q.head + n < size →
    Holds size (q.drain wrap n).1 accepted
      (left ++ (q.drain wrap n).2.map fun pkt => (pkt, .freed)) [] := by
  induction n with
  | zero =>
    intro q left xs h hlen _
    obtain rfl := List.length_eq_zero_iff.mp hlen
    simpa [PacketQueue.drain] using h
  | succ n ih =>
    intro q left xs h hlen hwrap
    have hcount : 0 < q.count := by
      rw [h.count, hlen]
      push_cast
      omega
    push_cast at hwrap
    have hnext : next wrap q.head = next size q.head := by
      rcases hwrap with rfl | ⟨hle, hshort⟩
      · rfl
      · exact next_short (by omega) hle
    obtain ⟨ys, hys, hd⟩ := h.dequeue hcount hnext .freed
    have hlen' : ys.length = n := by
      rw [hys, List.length_cons] at hlen
      omega
    have hwrap' : wrap = size ∨ size ≤ wrap ∧ (q.dequeue wrap).head + n < size := by
      rcases hwrap with rfl | ⟨hle, hshort⟩
      · exact .inl rfl
      · refine .inr ⟨hle, ?_⟩
        have hh : (q.dequeue wrap).head = q.head + 1 := if_neg (by omega)
        omega
    simpa [PacketQueue.drain, List.append_assoc] using ih hd hlen' hwrap'

end PacketQueue

end Xinu
