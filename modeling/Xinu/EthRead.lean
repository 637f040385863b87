/-
# The Ethernet receive ring

This module is the receive side of `ethhandler.c` and `ethread.c`, with the DMA engine.

Three of them go around one ring of descriptors: the engine fills them, the handler counts them and
signals `isem`, and `ethread` empties them and gives them back.  All that the handler sees is the
bit `OWN`.  It goes on until it finds a descriptor that the engine owns; when there is none it
counts what it has counted before.

A call of `ethread` is not one step: the engine, the handler and other calls may come between its
steps.  That is more than the code allows: `read` calls `ethread` with interrupts disabled, so that
the handler and other calls come in at its waits only.  What holds here holds for those runs too.
-/
import Xinu.Kernel
import Xinu.Lib.Counting
import Xinu.Lib.Ring
import Xinu.Lib.Runs

namespace Xinu.EthRead

open Rings Runs Counting

/-! ## 1. The ring, the handler and the readers

The three parties and what each does in one step.  For each place in a call of `ethread` there is
a list of the calls that stand there. -/

/-- `ETH_QUARK_RX_RING_SIZE` of `quark_eth.h`, which `rxRingSize` is set to. -/
abbrev ETH_QUARK_RX_RING_SIZE : Int := 32

/-- The receive side of `struct ethcblk`, the engine's position and the calls of `ethread`. -/
structure EthRx (F : Type) where
  /-- the descriptors that are marked `ETH_QUARK_RDST_OWN` -/
  own : Finset Int
  /-- the frames in their buffers -/
  buf : Int → F
  rxHead : Int
  rxTail : Int
  isem : Turnstile
  /-- the descriptor that the engine fills next -/
  dma : Int
  /-- the calls that have set `rdescptr`, and their `rdescptr` -/
  looking : List Int
  /-- those that have also read the frame -/
  copied : List (Int × F)
  /-- those that have advanced `rxHead` and not marked the descriptor yet -/
  leaving : List Int

variable {F : Type}

/-- After `ethinit`. -/
def start (f : F) : EthRx F :=
    ⟨window ETH_QUARK_RX_RING_SIZE 0 32, fun _ => f, 0, 0, ⟨0, 0⟩, 0, [], [], []⟩

/-- The loop of `ethhandler` over the receive ring, with the rounds until `count` is greater than
`rxRingSize`: `count` and `rxTail`. -/
def countFrames (own : Finset Int) : Nat → Int → Nat × Int
  | 0, rxTail => (0, rxTail)
  | rounds + 1, rxTail =>
    if rxTail ∈ own then (0, rxTail)
    else
      let (count, tail) := countFrames own rounds (next ETH_QUARK_RX_RING_SIZE rxTail)
      (count + 1, tail)

/-- `ethhandler` at a receive interrupt. -/
def receive (s : EthRx F) : EthRx F :=
  let (count, rxTail) := countFrames s.own 33 s.rxTail
  { s with rxTail, isem := s.isem.signal count }

/-- What happens next. -/
inductive Event (F : Type)
  /-- A frame arrives. -/
  | deliver (f : F)
  /-- The handler runs. -/
  | interrupt
  /-- A call of `ethread` waits for `isem`, or one that did not accept its frame does again. -/
  | wait
  | look
  | copy (rdescptr : Int)
  | advance (rdescptr : Int) (f : F)
  | giveBack (rdescptr : Int)

/-- One step of the engine, the handler or a reader. -/
def step [DecidableEq F] (s : EthRx F) : Event F → Option (EthRx F)
  | .deliver f =>
    if s.dma ∈ s.own then
      some { s with
        own := s.own.erase s.dma
        buf := Function.update s.buf s.dma f
        dma := next ETH_QUARK_RX_RING_SIZE s.dma }
    else some s
  | .interrupt => some (receive s)
  | .wait => some { s with isem := s.isem.wait }
  | .look =>
    if 0 < s.isem.through then
      some { s with isem := s.isem.goOn, looking := s.looking ++ [s.rxHead] }
    else none
  | .copy rd =>
    if rd ∈ s.looking then
      some { s with looking := s.looking.erase rd, copied := s.copied ++ [(rd, s.buf rd)] }
    else none
  | .advance rd f =>
    if (rd, f) ∈ s.copied then
      some { s with
        copied := s.copied.erase (rd, f)
        rxHead := next ETH_QUARK_RX_RING_SIZE s.rxHead
        leaving := s.leaving ++ [rd] }
    else none
  | .giveBack rd =>
    if rd ∈ s.leaving then
      some { s with leaving := s.leaving.erase rd, own := insert rd s.own }
    else none

/-! ## 2. What is to be kept

The log has the frames in the order in which they came, and in the order in which they went. -/

/-- The frames that the engine has put into the ring, those that readers have taken out of it, and
those of them that were accepted and so returned, each in order; and the descriptors that the
handler has counted and no reader has given back. -/
structure Log (F : Type) where
  filled : List F
  taken : List F
  returned : List F
  counted : Finset Int

/-- `valid_addr` says which frames are accepted. -/
def see (valid_addr : F → Bool) (s : EthRx F) (e : Event F) (_ : EthRx F) (l : Log F) : Log F :=
  match e with
  | .deliver f => if s.dma ∈ s.own then { l with filled := l.filled ++ [f] } else l
  | .interrupt =>
    let count := (countFrames s.own 33 s.rxTail).1
    { l with counted := l.counted ∪ window ETH_QUARK_RX_RING_SIZE s.rxTail count }
  | .advance _ f =>
    { l with
      taken := l.taken ++ [f]
      returned := if valid_addr f then l.returned ++ [f] else l.returned }
  | .giveBack rd => { l with counted := l.counted.erase rd }
  | _ => l

/-- The calls that have passed `wait`, run since and not given back a descriptor. -/
def EthRx.inside (s : EthRx F) : Nat := s.looking.length + s.copied.length + s.leaving.length

/-- What `isem` has granted, to readers that are still to run or that are running, is what the
handler has counted and is not given back; readers are only at descriptors that the engine does not
own; and what was taken is what was filled, in order, up to what is in the ring. -/
structure Right (valid_addr : F → Bool) (s : EthRx F) (l : Log F) : Prop where
  counted : s.isem.room + s.inside = l.counted.card
  filled : ∀ i ∈ l.counted, i ∉ s.own
  held : ∀ rd, rd ∈ s.looking ∨ (∃ f, (rd, f) ∈ s.copied) ∨ rd ∈ s.leaving → rd ∉ s.own
  order : ∃ xs, Account ETH_QUARK_RX_RING_SIZE s.buf s.rxHead s.dma l.filled l.taken xs
  returned : l.returned = l.taken.filter valid_addr

/-- When the handler runs the engine owns the descriptor it fills next, so the ring is not full; and
no call looks for its descriptor while another one has looked and not advanced `rxHead`. -/
def Served (x : EthRx F × Log F) : Event F → Prop
  | .interrupt => x.1.dma ∈ x.1.own
  | .look => x.1.looking = [] ∧ x.1.copied = []
  | _ => True

/-! ## 3. It is kept where there is room

The invariant divides the ring from `rxHead` on into the descriptors that are counted, those that
are full and not counted, and the free ones. -/

/-- The invariant.  The ring holds `xs` from `rxHead` on, of which the first `c` are counted;
readers that leave hold descriptors behind it, and the engine owns the others. -/
structure Inv (valid_addr : F → Bool) (s : EthRx F) (l : Log F) (xs : List F) (c : Nat) : Prop where
  account : Account ETH_QUARK_RX_RING_SIZE s.buf s.rxHead s.dma l.filled l.taken xs
  own : ∀ i, i ∈ s.own ↔ (0 ≤ i ∧ i < ETH_QUARK_RX_RING_SIZE) ∧
    i ∉ window ETH_QUARK_RX_RING_SIZE s.rxHead xs.length ∧ i ∉ s.leaving
  leaving : ∀ i ∈ s.leaving, (0 ≤ i ∧ i < ETH_QUARK_RX_RING_SIZE) ∧
    i ∉ window ETH_QUARK_RX_RING_SIZE s.rxHead xs.length
  nodup : s.leaving.Nodup
  le : c ≤ xs.length
  tail : s.rxTail = (s.rxHead + c) % ETH_QUARK_RX_RING_SIZE
  counted : l.counted = window ETH_QUARK_RX_RING_SIZE s.rxHead c ∪ s.leaving.toFinset
  room : s.isem.room + (s.looking.length + s.copied.length : Nat) = c
  one : s.looking.length + s.copied.length ≤ 1
  looking : ∀ rd ∈ s.looking, rd = s.rxHead
  copied : ∀ q ∈ s.copied, q.1 = s.rxHead ∧ xs.head? = some q.2
  returned : l.returned = l.taken.filter valid_addr

variable {valid_addr : F → Bool} {s t : EthRx F} {l : Log F} {xs : List F} {c : Nat} {e : Event F}

theorem inv_start (f : F) : Inv valid_addr (start f) ⟨[], [], [], ∅⟩ [] 0 where
  account := .start (by decide) rfl
  own := fun i => by
    constructor
    · intro h
      exact ⟨window_bounds (by decide) h, by simp, by simp [start]⟩
    · rintro ⟨⟨h0, h1⟩, -⟩
      exact mem_window_full h0 h1
  leaving := by simp [start]
  nodup := List.nodup_nil
  le := le_rfl
  tail := rfl
  counted := by simp [start]
  room := rfl
  one := Nat.zero_le 1
  looking := by simp [start]
  copied := by simp [start]
  returned := rfl

/-- The counted descriptors are as many as the readers and the count account for. -/
theorem Inv.right (h : Inv valid_addr s l xs c) : Right valid_addr s l := by
  have hfits := h.account.ring.fits
  have hle := h.le
  have hdisj : Disjoint (window ETH_QUARK_RX_RING_SIZE s.rxHead c) s.leaving.toFinset := by
    rw [Finset.disjoint_left]
    intro i hi hl
    exact (h.leaving i (List.mem_toFinset.mp hl)).2 (window_mono h.le hi)
  refine ⟨?_, ?_, ?_, ⟨xs, h.account⟩, h.returned⟩
  · have hroom := h.room
    rw [h.counted, Finset.card_union_of_disjoint hdisj, card_window (by omega),
      List.toFinset_card_of_nodup h.nodup, EthRx.inside]
    omega
  · intro i hi hown
    rw [h.counted, Finset.mem_union, List.mem_toFinset] at hi
    obtain ⟨-, hring, hleave⟩ := (h.own i).mp hown
    exact hi.elim (fun hw => hring (window_mono h.le hw)) hleave
  · -- Where a reader has looked, a frame is counted.
    have hfirst : 0 < s.looking.length + s.copied.length → s.rxHead ∉ s.own := by
      intro hpos hown
      have hroom := h.room
      have hnn := s.isem.room_nonneg
      exact ((h.own _).mp hown).2.1
        (head_mem_window h.account.ring.head_nonneg h.account.ring.head_lt (by omega))
    rintro rd (hl | ⟨f, hc⟩ | hv) hown
    · have hpos := List.length_pos_of_mem hl
      rw [h.looking rd hl] at hown
      exact hfirst (by omega) hown
    · have hpos := List.length_pos_of_mem hc
      obtain rfl : rd = s.rxHead := (h.copied _ hc).1
      exact hfirst (by omega) hown
    · exact ((h.own _).mp hown).2.2 hv

/-- **The handler counts what is in the ring**, if the engine owns the descriptor behind it. -/
theorem countFrames_eq {own : Finset Int} {n rounds : Nat} {tail : Int} (h0 : 0 ≤ tail)
    (hlt : tail < ETH_QUARK_RX_RING_SIZE) (hn : n < rounds)
    (hfilled : ∀ i ∈ window ETH_QUARK_RX_RING_SIZE tail n, i ∉ own)
    (hown : (tail + n) % ETH_QUARK_RX_RING_SIZE ∈ own) :
    countFrames own rounds tail = (n, (tail + n) % ETH_QUARK_RX_RING_SIZE) := by
  induction n generalizing rounds tail with
  | zero =>
    obtain ⟨rounds, rfl⟩ := Nat.exists_eq_succ_of_ne_zero (Nat.ne_of_gt hn)
    have hself : (tail + (0 : Nat)) % ETH_QUARK_RX_RING_SIZE = tail := by
      rw [Nat.cast_zero, add_zero, Int.emod_eq_of_lt h0 hlt]
    rw [hself] at hown ⊢
    rw [countFrames, if_pos hown]
  | succ n ih =>
    obtain ⟨rounds, rfl⟩ := Nat.exists_eq_succ_of_ne_zero (Nat.ne_of_gt (Nat.zero_lt_of_lt hn))
    rw [window_pop h0 hlt] at hfilled
    have hnext := next_eq h0 hlt
    rw [countFrames, if_neg (hfilled tail (Finset.mem_insert_self _ _)),
      ih (by rw [hnext]; exact Int.emod_nonneg _ (by decide))
        (by rw [hnext]; exact Int.emod_lt_of_pos _ (by decide)) (by omega)
        (fun i hi => hfilled i (Finset.mem_insert_of_mem hi))
        (by rw [place_next h0 hlt]; exact hown), place_next h0 hlt]

variable [DecidableEq F]

/-- **A frame arrives.** -/
theorem Inv.deliver (h : Inv valid_addr s l xs c) {f : F} (hs : step s (.deliver f) = some t) :
    ∃ ys, Inv valid_addr t (see valid_addr s (.deliver f) t l) ys c := by
  by_cases hown : s.dma ∈ s.own
  · rw [step, if_pos hown, Option.some.injEq] at hs
    subst hs
    have hdma := h.account.ring.tail
    have hlt : (xs.length : Int) < ETH_QUARK_RX_RING_SIZE := by
      by_contra hfull
      have hlen : xs.length = ETH_QUARK_RX_RING_SIZE.toNat := by
        have := h.account.ring.fits
        omega
      obtain ⟨⟨h0, h1⟩, hnot, -⟩ := (h.own _).mp hown
      rw [hlen] at hnot
      exact hnot (mem_window_full h0 h1)
    refine ⟨xs ++ [f], ?_⟩
    rw [see, if_pos hown]
    have hlen : (xs ++ [f]).length = xs.length + 1 := by simp
    have hwin : window ETH_QUARK_RX_RING_SIZE s.rxHead (xs ++ [f]).length =
        insert s.dma (window ETH_QUARK_RX_RING_SIZE s.rxHead xs.length) := by
      rw [hlen, window_succ, ← hdma]
    obtain ⟨hbounds, -, hnotleaving⟩ := (h.own _).mp hown
    refine ⟨h.account.enter hlt, fun i => ?_, fun i hi => ?_, h.nodup, ?_, h.tail, h.counted,
      h.room, h.one, h.looking, fun q hq => ⟨(h.copied q hq).1, ?_⟩, h.returned⟩
    · rw [hwin, Finset.mem_insert, Finset.mem_erase, h.own i]
      tauto
    · rw [hwin, Finset.mem_insert]
      refine ⟨(h.leaving i hi).1, ?_⟩
      rintro (rfl | hw)
      · exact hnotleaving hi
      · exact (h.leaving i hi).2 hw
    · have hle := h.le
      omega
    · rw [List.head?_append, (h.copied q hq).2]
      rfl
  · rw [step, if_neg hown, Option.some.injEq] at hs
    subst hs
    rw [see, if_neg hown]
    exact ⟨xs, h⟩

/-- **The handler runs.** -/
theorem Inv.interrupt (h : Inv valid_addr s l xs c) (hown : s.dma ∈ s.own)
    (hs : step s .interrupt = some t) :
    Inv valid_addr t (see valid_addr s .interrupt t l) xs xs.length := by
  rw [step, Option.some.injEq] at hs
  subst hs
  have hfits := h.account.ring.fits
  have hle := h.le
  have htail := h.tail
  have h0 : 0 ≤ s.rxTail := by
    rw [htail]
    exact Int.emod_nonneg _ (by decide)
  have hlt : s.rxTail < ETH_QUARK_RX_RING_SIZE := by
    rw [htail]
    exact Int.emod_lt_of_pos _ (by decide)
  have hsplit : window ETH_QUARK_RX_RING_SIZE s.rxHead xs.length =
      window ETH_QUARK_RX_RING_SIZE s.rxHead c ∪
        window ETH_QUARK_RX_RING_SIZE s.rxTail (xs.length - c) := by
    rw [htail, ← window_add, Nat.add_sub_cancel' hle]
  have hend : (s.rxTail + (xs.length - c : Nat)) % ETH_QUARK_RX_RING_SIZE = s.dma := by
    rw [h.account.ring.tail, htail, Int.emod_add_emod, Nat.cast_sub hle]
    congr 1
    ring
  have hrounds : xs.length - c < 33 := by
    have hsize : ETH_QUARK_RX_RING_SIZE = 32 := rfl
    omega
  have hfilled : ∀ i ∈ window ETH_QUARK_RX_RING_SIZE s.rxTail (xs.length - c), i ∉ s.own := by
    intro i hi hmem
    refine ((h.own i).mp hmem).2.1 ?_
    rw [hsplit]
    exact Finset.mem_union_right _ hi
  have hcount := countFrames_eq h0 hlt hrounds hfilled (by rw [hend]; exact hown)
  rw [hend] at hcount
  rw [see, receive, hcount]
  refine ⟨h.account, h.own, h.leaving, h.nodup, le_rfl, h.account.ring.tail, ?_, ?_, h.one,
    h.looking, h.copied, h.returned⟩
  · simp only [hsplit, h.counted]
    exact Finset.union_right_comm _ _ _
  · have hroom := h.room
    simp only [Turnstile.room_signal]
    omega

/-- A call waits. -/
theorem Inv.wait (h : Inv valid_addr s l xs c) (hs : step s .wait = some t) :
    Inv valid_addr t (see valid_addr s .wait t l) xs c := by
  rw [step, Option.some.injEq] at hs
  subst hs
  refine ⟨h.account, h.own, h.leaving, h.nodup, h.le, h.tail, h.counted, ?_, h.one, h.looking,
    h.copied, h.returned⟩
  rw [Turnstile.room_wait]
  exact h.room

/-- A call looks for its descriptor, while no other one does. -/
theorem Inv.look (h : Inv valid_addr s l xs c) (hl : s.looking = []) (hc : s.copied = [])
    (hs : step s .look = some t) : Inv valid_addr t (see valid_addr s .look t l) xs c := by
  simp only [step, Option.ite_none_right_eq_some, Option.some.injEq] at hs
  obtain ⟨hpos, rfl⟩ := hs
  have hroom := h.room
  simp only [hl, hc, List.length_nil, Nat.cast_zero, add_zero] at hroom
  refine ⟨h.account, h.own, h.leaving, h.nodup, h.le, h.tail, h.counted, ?_, ?_, ?_, h.copied,
    h.returned⟩
  · simp only [Turnstile.room_goOn hpos, hl, hc, List.nil_append, List.length_singleton,
      List.length_nil]
    omega
  · simp [hl, hc]
  · intro rd hrd
    simpa [hl] using hrd

/-- It reads the frame, which is the oldest one. -/
theorem Inv.copy (h : Inv valid_addr s l xs c) {rd : Int} (hs : step s (.copy rd) = some t) :
    Inv valid_addr t (see valid_addr s (.copy rd) t l) xs c := by
  simp only [step, Option.ite_none_right_eq_some, Option.some.injEq] at hs
  obtain ⟨hmem, rfl⟩ := hs
  have hone := h.one
  have hroom := h.room
  have hnn := s.isem.room_nonneg
  have hle := h.le
  have hpos := List.length_pos_of_mem hmem
  have hcopied : s.copied = [] := List.length_eq_zero_iff.mp (by omega)
  have hlooking : s.looking = [rd] := eq_singleton_of_mem hmem (by omega)
  obtain ⟨f, ys, rfl⟩ := List.exists_cons_of_length_pos (by omega : 0 < xs.length)
  have hrd := h.looking rd hmem
  refine ⟨h.account, h.own, h.leaving, h.nodup, h.le, h.tail, h.counted, ?_, ?_, ?_, ?_,
    h.returned⟩
  · simpa [hlooking, hcopied] using hroom
  · simp [hlooking, hcopied]
  · simp [hlooking]
  · intro q hq
    obtain rfl : q = (rd, s.buf rd) := by simpa [hcopied] using hq
    refine ⟨hrd, ?_⟩
    rw [hrd, h.account.leave.1]
    rfl

/-- **It takes the frame out of the ring.** -/
theorem Inv.advance (h : Inv valid_addr s l xs c) {rd : Int} {f : F}
    (hs : step s (.advance rd f) = some t) :
    ∃ ys c', Inv valid_addr t (see valid_addr s (.advance rd f) t l) ys c' := by
  simp only [step, Option.ite_none_right_eq_some, Option.some.injEq] at hs
  obtain ⟨hmem, rfl⟩ := hs
  have hone := h.one
  have hroom := h.room
  have hnn := s.isem.room_nonneg
  have hle := h.le
  have hpos := List.length_pos_of_mem hmem
  have hlooking : s.looking = [] := List.length_eq_zero_iff.mp (by omega)
  have hcopied : s.copied = [(rd, f)] := eq_singleton_of_mem hmem (by omega)
  obtain ⟨hrd, hhead⟩ : rd = s.rxHead ∧ xs.head? = some f := h.copied _ hmem
  obtain ⟨ys, rfl⟩ : ∃ ys, xs = f :: ys := by
    cases xs with
    | nil => cases hhead
    | cons x ys => exact ⟨ys, by rw [Option.some.inj hhead]⟩
  obtain ⟨c, rfl⟩ := Nat.exists_eq_succ_of_ne_zero (by omega : c ≠ 0)
  have h0 := h.account.ring.head_nonneg
  have hlt := h.account.ring.head_lt
  have hfits := h.account.ring.fits
  rw [List.length_cons] at hfits hle
  have hpop := window_pop h0 hlt
  have hfront : s.rxHead ∉ window ETH_QUARK_RX_RING_SIZE (next ETH_QUARK_RX_RING_SIZE s.rxHead)
      ys.length := notMem_window_front h0 hlt (by omega)
  have hown := h.own
  have hleaving := h.leaving
  have hcounted := h.counted
  rw [List.length_cons, hpop] at hown hleaving
  rw [hpop] at hcounted
  subst hrd
  refine ⟨ys, c, h.account.leave.2, fun i => ?_, fun i hi => ?_, ?_, by omega, ?_, ?_, ?_, ?_, ?_,
    ?_, ?_⟩
  · rw [hown i, Finset.mem_insert, List.mem_append, List.mem_singleton]
    tauto
  · rcases List.mem_append.mp hi with hi | hi
    · exact ⟨(hleaving i hi).1, fun hw => (hleaving i hi).2 (Finset.mem_insert_of_mem hw)⟩
    · rw [List.mem_singleton.mp hi]
      exact ⟨⟨h0, hlt⟩, hfront⟩
  · rw [← List.concat_eq_append]
    exact List.Nodup.concat (fun hi => (hleaving _ hi).2 (Finset.mem_insert_self _ _)) h.nodup
  · rw [h.tail, place_next h0 hlt]
  · rw [see, hcounted]
    ext i
    simp only [Finset.mem_union, Finset.mem_insert, List.toFinset_append, List.toFinset_cons,
      List.toFinset_nil, Finset.notMem_empty]
    tauto
  · simp [hlooking, hcopied] at hroom ⊢
    omega
  · simp [hlooking, hcopied]
  · simp [hlooking]
  · simp [hcopied]
  · rw [see, List.filter_append, ← h.returned]
    cases hv : valid_addr f <;> simp [hv]

/-- It gives the descriptor back. -/
theorem Inv.giveBack (h : Inv valid_addr s l xs c) {rd : Int}
    (hs : step s (.giveBack rd) = some t) :
    Inv valid_addr t (see valid_addr s (.giveBack rd) t l) xs c := by
  simp only [step, Option.ite_none_right_eq_some, Option.some.injEq] at hs
  obtain ⟨hmem, rfl⟩ := hs
  obtain ⟨hbounds, hnot⟩ := h.leaving rd hmem
  have herase : ∀ i, i ∈ s.leaving.erase rd ↔ i ≠ rd ∧ i ∈ s.leaving :=
    fun i => h.nodup.mem_erase_iff
  refine ⟨h.account, fun i => ?_, fun i hi => h.leaving i ((herase i).mp hi).2,
    h.nodup.erase rd, h.le, h.tail, ?_, h.room, h.one, h.looking, h.copied, h.returned⟩
  · rw [Finset.mem_insert, h.own i, herase]
    by_cases hi : i = rd
    · subst hi
      tauto
    · tauto
  · rw [see, h.counted]
    ext i
    have hwin : rd ∉ window ETH_QUARK_RX_RING_SIZE s.rxHead c := fun hw =>
      hnot (window_mono h.le hw)
    simp only [Finset.mem_erase, Finset.mem_union, List.mem_toFinset, herase]
    constructor
    · tauto
    · rintro (hw | hl)
      · exact ⟨fun hi => hwin (hi ▸ hw), .inl hw⟩
      · exact ⟨hl.1, .inr hl.2⟩

/-- **Every step keeps the invariant.** -/
theorem Inv.step (h : Inv valid_addr s l xs c) (hserved : Served (s, l) e)
    (hs : step s e = some t) :
    ∃ ys c', Inv valid_addr t (see valid_addr s e t l) ys c' := by
  cases e with
  | deliver f =>
    obtain ⟨ys, hy⟩ := h.deliver hs
    exact ⟨ys, c, hy⟩
  | interrupt => exact ⟨xs, xs.length, h.interrupt hserved hs⟩
  | wait => exact ⟨xs, c, h.wait hs⟩
  | look => exact ⟨xs, c, h.look hserved.1 hserved.2 hs⟩
  | copy rd => exact ⟨xs, c, h.copy hs⟩
  | advance rd f => exact h.advance hs
  | giveBack rd => exact ⟨xs, c, h.giveBack hs⟩

/-- **The receive ring is kept right** in every run in which the handler never runs on a full ring
and calls of `ethread` look for their descriptors one after the other. -/
theorem ethread_right {f : F}
    (h : Reaches (watch EthRead.step (see valid_addr)) Served (start f, ⟨[], [], [], ∅⟩) (s, l)) :
    Right valid_addr s l := by
  have hinv := Reaches.invariant
    (I := fun x : EthRx F × Log F => ∃ xs c, Inv valid_addr x.1 x.2 xs c)
    h ⟨[], 0, inv_start f⟩ fun x e y ⟨xs, c, hx⟩ hok hs => by
      obtain ⟨t, ht, rfl⟩ := watch_some.mp hs
      exact hx.step hok ht
  obtain ⟨xs, c, hx⟩ := hinv
  exact hx.right

/-! ## 4. It is not kept otherwise

The handler goes around a full ring, and comes back to the frames that it has counted. -/

instance : DecidableRel (Served (F := F)) := fun x e => by
  cases e <;> unfold Served <;> infer_instance

/-- A frame arrives and is read. -/
def readOne : List (Event Nat) :=
  [.wait, .deliver 7, .interrupt, .look, .copy 0, .advance 0 7, .giveBack 0]

theorem ethread_right_readOne :
    ∃ s l, exec (watch EthRead.step (see fun _ => true)) Served (start 0, ⟨[], [], [], ∅⟩) readOne =
      some (s, l) ∧ Right (fun _ => true) s l := by
  have hsome : (exec (watch EthRead.step (see fun _ => true)) Served (start 0, ⟨[], [], [], ∅⟩)
      readOne).isSome = true := by decide +kernel
  obtain ⟨⟨s, l⟩, he⟩ := Option.isSome_iff_exists.mp hsome
  exact ⟨s, l, he, ethread_right (reaches_of_exec he)⟩

/-- The ring is filled, and then the handler runs. -/
def fullRing : List (Event Nat) := List.replicate 32 (.deliver 7) ++ [.interrupt]

/-- The handler counts 33 frames. -/
theorem ethread_overcounts :
    ∃ s l, exec (watch EthRead.step (see fun _ => true)) always
      (start 0, ⟨[], [], [], ∅⟩) fullRing =
      some (s, l) ∧ s.isem = ⟨33, 0⟩ ∧ l.counted.card = 32 ∧ ¬Right (fun _ => true) s l := by
  have hcount : (exec (watch EthRead.step (see fun _ => true)) always (start 0, ⟨[], [], [], ∅⟩)
      fullRing).map (fun x => (x.1.isem, x.1.inside, x.2.counted.card)) =
        some (⟨33, 0⟩, 0, 32) := by
    decide +kernel
  obtain ⟨⟨s, l⟩, he, hx⟩ := Option.map_eq_some_iff.mp hcount
  obtain ⟨hisem, hrest⟩ := Prod.mk.inj hx
  obtain ⟨hinside, hcard⟩ := Prod.mk.inj hrest
  refine ⟨s, l, he, hisem, hcard, fun h => ?_⟩
  have hright := h.counted
  rw [hisem, hinside, hcard] at hright
  exact absurd hright (by decide)

end Xinu.EthRead
