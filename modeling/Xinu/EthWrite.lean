/-
# The Ethernet transmit ring

This module is the transmit side of `ethhandler.c` and `ethwrite.c`, with the DMA engine.

`ethwrite` hands a descriptor to the engine, which sends the packet and gives it back; the handler
credits those that have been given back to `osem`.  It goes from `txHead` on until it meets `txTail`
or a descriptor that the engine owns.  When all descriptors are handed out `txHead` equals `txTail`,
and it takes the full ring for an empty one.  A writer that has advanced `txTail` and not yet marked
its descriptor is taken for one whose packet has been sent.

The handler and other calls may come between any two steps of a call here.  That is more than the
code allows: `write` calls `ethwrite` with interrupts disabled, so that they come in at its waits
only.  What holds here holds for those runs too.
-/
import Xinu.Kernel
import Xinu.Lib.Counting
import Xinu.Lib.Ring
import Xinu.Lib.Runs

namespace Xinu.EthWrite

open Rings Runs Counting

/-! ## 1. The ring, the handler and the writers

The three parties and what each does in one step.  For each place in a call of `ethwrite` there is
a list of the calls that stand there. -/

/-- `ETH_QUARK_TX_RING_SIZE` of `quark_eth.h`, which `txRingSize` is set to. -/
abbrev ETH_QUARK_TX_RING_SIZE : Int := 16

/-- The transmit side of `struct ethcblk`, the engine's position and the calls of `ethwrite`. -/
structure EthTx where
  /-- the descriptors that are marked `ETH_QUARK_TDCS_OWN` -/
  own : Finset Int
  txHead : Int
  txTail : Int
  osem : Turnstile
  /-- the descriptor that the engine sends next -/
  dma : Int
  /-- the calls that have set `descptr`, and their `descptr` -/
  looking : List Int
  /-- those that have advanced `txTail` and not marked the descriptor yet -/
  filling : List Int

/-- After `ethinit`: `osem` is created with the size of the ring. -/
def start : EthTx := ⟨∅, 0, 0, ⟨16, 0⟩, 0, [], []⟩

/-- The loop of `ethhandler` over the transmit ring: `count` and `txHead`.  The head goes around the
ring and meets the tail within `txRingSize` rounds. -/
def countSent (own : Finset Int) (txTail : Int) : Nat → Int → Nat × Int
  | 0, txHead => (0, txHead)
  | rounds + 1, txHead =>
    if txHead ≠ txTail then
      if txHead ∈ own then (0, txHead)
      else
        let (count, head) := countSent own txTail rounds (next ETH_QUARK_TX_RING_SIZE txHead)
        (count + 1, head)
    else (0, txHead)

/-- `ethhandler` at a transmit interrupt. -/
def credit (s : EthTx) : EthTx :=
  let (count, txHead) := countSent s.own s.txTail 16 s.txHead
  { s with txHead, osem := s.osem.signal count }

/-- What happens next. -/
inductive Event
  /-- A call of `ethwrite` waits for `osem`. -/
  | wait
  | look
  | advance (descptr : Int)
  /-- The descriptor is marked. -/
  | hand (descptr : Int)
  /-- The engine has sent a packet and clears the mark. -/
  | sent
  /-- The handler runs. -/
  | interrupt
deriving DecidableEq, Repr

/-- One step of a writer, the engine or the handler. -/
def step (s : EthTx) : Event → Option EthTx
  | .wait => some { s with osem := s.osem.wait }
  | .look =>
    if 0 < s.osem.through then
      some { s with osem := s.osem.goOn, looking := s.looking ++ [s.txTail] }
    else none
  | .advance desc =>
    if desc ∈ s.looking then
      some { s with
        looking := s.looking.erase desc
        txTail := next ETH_QUARK_TX_RING_SIZE s.txTail
        filling := s.filling ++ [desc] }
    else none
  | .hand desc =>
    if desc ∈ s.filling then
      some { s with filling := s.filling.erase desc, own := insert desc s.own }
    else none
  | .sent =>
    if s.dma ∈ s.own then
      some { s with own := s.own.erase s.dma, dma := next ETH_QUARK_TX_RING_SIZE s.dma }
    else none
  | .interrupt => some (credit s)

/-! ## 2. What is to be kept

What was credited to `osem` is compared with what was sent. -/

/-- The packets sent and credited so far, and whether the last step was one of the handler. -/
structure Log where
  sent : Nat
  credited : Nat
  handled : Bool

def see (s : EthTx) (e : Event) (_ : EthTx) (l : Log) : Log :=
  match e with
  | .sent => { l with sent := l.sent + 1, handled := false }
  | .interrupt =>
    { l with
      credited := l.credited + (countSent s.own s.txTail 16 s.txHead).1
      handled := true }
  | _ => { l with handled := false }

/-- The calls that have passed `wait`, run since and not marked a descriptor. -/
def EthTx.inside (s : EthTx) : Nat := s.looking.length + s.filling.length

/-- After the handler has run, what `osem` has granted, to writers that are still to run or that are
running, and the engine's descriptors make up the ring; every packet sent has been credited once;
and a writer waits only while all descriptors are with the engine or with other writers. -/
structure Right (s : EthTx) (l : Log) : Prop where
  ring : l.handled = true → s.osem.room + s.inside + s.own.card = ETH_QUARK_TX_RING_SIZE
  once : l.handled = true → l.credited = l.sent
  waits : l.handled = true → s.osem.count < 0 →
    s.osem.through + s.inside + s.own.card = ETH_QUARK_TX_RING_SIZE

/-- When the handler runs, a ring without a free descriptor has none at its head that is sent
already, and otherwise the engine's next descriptor is not one that a writer is filling; and no call
looks for its descriptor while another one has looked and not advanced `txTail`. -/
def Served (s : EthTx) : Event → Prop
  | .interrupt =>
    (s.osem.room + s.looking.length = 0 → s.txHead ∈ s.own ∨ s.txHead ∈ s.filling) ∧
      (s.txHead ≠ s.txTail → s.dma ∉ s.filling)
  | .look => s.looking = []
  | _ => True

/-! ## 3. It is kept

The invariant divides the ring from `txHead` on by what has become of the descriptors. -/

/-- The invariant.  From `txHead` on there are `d` descriptors that are sent and `r` that are with
the engine or with writers; the others are granted by `osem` or looked for. -/
structure Inv (s : EthTx) (l : Log) (d r : Nat) : Prop where
  head_nonneg : 0 ≤ s.txHead
  head_lt : s.txHead < ETH_QUARK_TX_RING_SIZE
  dma : s.dma = (s.txHead + d) % ETH_QUARK_TX_RING_SIZE
  tail : s.txTail = (s.dma + r) % ETH_QUARK_TX_RING_SIZE
  out : s.own ∪ s.filling.toFinset = window ETH_QUARK_TX_RING_SIZE s.dma r
  apart : ∀ i ∈ s.filling, i ∉ s.own
  nodup : s.filling.Nodup
  room : s.osem.room + (s.looking.length + d + r : Nat) = ETH_QUARK_TX_RING_SIZE
  looking : ∀ i ∈ s.looking, i = s.txTail
  one : s.looking.length ≤ 1
  sent : l.sent = l.credited + d
  handled : l.handled = true → d = 0

variable {s t : EthTx} {l : Log} {d r : Nat} {e : Event}

theorem inv_start : Inv start ⟨0, 0, false⟩ 0 0 where
  head_nonneg := le_rfl
  head_lt := by decide
  dma := rfl
  tail := rfl
  out := rfl
  apart := by simp [start]
  nodup := List.nodup_nil
  room := rfl
  looking := by simp [start]
  one := Nat.zero_le 1
  sent := rfl
  handled := fun h => nomatch h

theorem Inv.right (h : Inv s l d r) : Right s l := by
  have hroom := h.room
  have hnn := s.osem.room_nonneg
  have hcard : s.own.card + s.filling.length = r := by
    have hdisj : Disjoint s.own s.filling.toFinset := by
      rw [Finset.disjoint_left]
      exact fun i hi hf => h.apart i (List.mem_toFinset.mp hf) hi
    have hunion := congrArg Finset.card h.out
    rw [Finset.card_union_of_disjoint hdisj, List.toFinset_card_of_nodup h.nodup,
      card_window (by omega)] at hunion
    exact hunion
  have hring : l.handled = true → s.osem.room + s.inside + s.own.card = ETH_QUARK_TX_RING_SIZE := by
    intro hh
    have hd := h.handled hh
    rw [EthTx.inside]
    omega
  refine ⟨hring, fun hh => ?_, fun hh hneg => ?_⟩
  · have hd := h.handled hh
    have hs := h.sent
    omega
  · have hr := hring hh
    rw [Turnstile.room] at hr
    omega

/-- The places from the head to the end of what is sent are sent. -/
theorem Inv.sent_notMem (h : Inv s l d r) : ∀ i ∈ window ETH_QUARK_TX_RING_SIZE s.txHead d,
    i ∉ s.own ∪ s.filling.toFinset := by
  have hroom := h.room
  have hnn := s.osem.room_nonneg
  have hdisj : Disjoint (window ETH_QUARK_TX_RING_SIZE s.txHead d)
      (window ETH_QUARK_TX_RING_SIZE ((s.txHead + d) % ETH_QUARK_TX_RING_SIZE) r) :=
    window_disjoint (by omega)
  intro i hi
  rw [h.out, h.dma]
  exact Finset.disjoint_left.mp hdisj hi

/-- The loop stops at the first descriptor that is not sent. -/
theorem countSent_eq {own : Finset Int} {txTail head : Int} {n rounds : Nat} (h0 : 0 ≤ head)
    (hlt : head < ETH_QUARK_TX_RING_SIZE) (hn : n ≤ rounds)
    (hsent : ∀ i ∈ window ETH_QUARK_TX_RING_SIZE head n, i ∉ own ∧ i ≠ txTail)
    (hstop : (head + n) % ETH_QUARK_TX_RING_SIZE = txTail ∨
      n < rounds ∧ (head + n) % ETH_QUARK_TX_RING_SIZE ∈ own) :
    countSent own txTail rounds head = (n, (head + n) % ETH_QUARK_TX_RING_SIZE) := by
  induction n generalizing rounds head with
  | zero =>
    have hself : (head + (0 : Nat)) % ETH_QUARK_TX_RING_SIZE = head := by
      rw [Nat.cast_zero, add_zero, Int.emod_eq_of_lt h0 hlt]
    rw [hself] at hstop ⊢
    cases rounds with
    | zero => rfl
    | succ rounds =>
      rw [countSent]
      by_cases he : head = txTail
      · rw [if_neg (not_not_intro he)]
      · rw [if_pos he, if_pos (hstop.resolve_left he).2]
  | succ n ih =>
    obtain ⟨rounds, rfl⟩ := Nat.exists_eq_succ_of_ne_zero (by omega : rounds ≠ 0)
    rw [window_pop h0 hlt] at hsent
    have hnext := next_eq h0 hlt
    obtain ⟨hown, hne⟩ := hsent head (Finset.mem_insert_self _ _)
    rw [countSent, if_pos hne, if_neg hown,
      ih (by rw [hnext]; exact Int.emod_nonneg _ (by decide))
        (by rw [hnext]; exact Int.emod_lt_of_pos _ (by decide)) (by omega)
        (fun i hi => hsent i (Finset.mem_insert_of_mem hi))
        (by rw [place_next h0 hlt]; exact hstop.imp_right fun h => ⟨by omega, h.2⟩),
      place_next h0 hlt]

/-- **The handler credits what has been sent.** -/
theorem Inv.countSent (h : Inv s l d r) (hserved : Served s .interrupt) :
    EthWrite.countSent s.own s.txTail 16 s.txHead = (d, s.dma) := by
  have hroom := h.room
  have hnn := s.osem.room_nonneg
  have h0 := h.head_nonneg
  have hlt := h.head_lt
  have hsize : ETH_QUARK_TX_RING_SIZE = 16 := rfl
  have htail : s.txTail = (s.txHead + (d + r : Nat)) % ETH_QUARK_TX_RING_SIZE := by
    rw [h.tail, h.dma, Int.emod_add_emod]
    congr 1
    push_cast
    ring
  have hhead : (s.txHead + (0 : Nat)) % ETH_QUARK_TX_RING_SIZE = s.txHead := by
    rw [Nat.cast_zero, add_zero, Int.emod_eq_of_lt h0 hlt]
  rw [h.dma]
  by_cases hfull : s.osem.room + s.looking.length = 0
  · -- No descriptor is free, and none is sent.
    have hout : s.txHead ∈ s.own ∪ s.filling.toFinset := by
      rw [Finset.mem_union, List.mem_toFinset]
      exact hserved.1 hfull
    have hd : d = 0 := by
      by_contra hd
      exact h.sent_notMem _ (head_mem_window h0 hlt (by omega)) hout
    subst hd
    refine countSent_eq h0 hlt (by omega) (by simp) (.inl ?_)
    rw [htail]
    have hr : ((0 + r : Nat) : Int) = ETH_QUARK_TX_RING_SIZE := by omega
    rw [hr, hhead, Int.add_emod_right, Int.emod_eq_of_lt h0 hlt]
  · have hless : ((d + r : Nat) : Int) < ETH_QUARK_TX_RING_SIZE := by omega
    refine countSent_eq h0 hlt (by omega) (fun i hi => ⟨fun hown => ?_, fun he => ?_⟩) ?_
    · exact h.sent_notMem i hi (Finset.mem_union_left _ hown)
    · obtain ⟨j, hj, rfl⟩ := mem_window.mp hi
      have := place_inj (by omega) hless (he.trans htail)
      omega
    · rw [← h.dma]
      by_cases hr : r = 0
      · subst hr
        refine .inl ?_
        rw [h.tail, h.dma, Nat.cast_zero, add_zero, Int.emod_emod_of_dvd _ (dvd_refl _)]
      · have hne : s.txHead ≠ s.txTail := by
          intro he
          have := place_inj (i := 0) (j := d + r) (by omega) hless
            (hhead.trans (he.trans htail))
          omega
        have hdma : s.dma ∈ s.own ∪ s.filling.toFinset := by
          rw [h.out]
          refine head_mem_window ?_ ?_ (by omega)
          · rw [h.dma]
            exact Int.emod_nonneg _ (by decide)
          · rw [h.dma]
            exact Int.emod_lt_of_pos _ (by decide)
        rw [Finset.mem_union, List.mem_toFinset] at hdma
        exact .inr ⟨by omega, hdma.resolve_right (hserved.2 hne)⟩

theorem Inv.dma_bounds (h : Inv s l d r) : 0 ≤ s.dma ∧ s.dma < ETH_QUARK_TX_RING_SIZE := by
  rw [h.dma]
  exact ⟨Int.emod_nonneg _ (by decide), Int.emod_lt_of_pos _ (by decide)⟩

theorem Inv.interrupt (h : Inv s l d r) (hserved : Served s .interrupt)
    (hs : step s .interrupt = some t) : Inv t (see s .interrupt t l) 0 r := by
  rw [step, Option.some.injEq] at hs
  subst hs
  have hroom := h.room
  rw [see, credit, h.countSent hserved]
  refine ⟨h.dma_bounds.1, h.dma_bounds.2, ?_, h.tail, h.out, h.apart, h.nodup, ?_, h.looking, h.one,
    ?_, fun _ => rfl⟩
  · exact (Int.emod_eq_of_lt h.dma_bounds.1 h.dma_bounds.2).symm.trans (by simp)
  · simp only [Turnstile.room_signal]
    omega
  · exact h.sent

/-- **The engine sends a packet.** -/
theorem Inv.sends (h : Inv s l d r) (hs : step s .sent = some t) :
    ∃ r', Inv t (see s .sent t l) (d + 1) r' := by
  simp only [step, Option.ite_none_right_eq_some, Option.some.injEq] at hs
  obtain ⟨hown, rfl⟩ := hs
  have hroom := h.room
  have hnn := s.osem.room_nonneg
  obtain ⟨h0, hlt⟩ := h.dma_bounds
  have hmem : s.dma ∈ window ETH_QUARK_TX_RING_SIZE s.dma r := by
    rw [← h.out]
    exact Finset.mem_union_left _ hown
  obtain ⟨r, rfl⟩ : ∃ r', r = r' + 1 := by
    cases r with
    | zero => simp at hmem
    | succ r => exact ⟨r, rfl⟩
  have hout := h.out
  have hfront : s.dma ∉ window ETH_QUARK_TX_RING_SIZE (next ETH_QUARK_TX_RING_SIZE s.dma) r :=
    notMem_window_front h0 hlt (by omega)
  have hfilling : s.dma ∉ s.filling := fun hf => h.apart _ hf hown
  rw [window_pop h0 hlt] at hout
  refine ⟨r, h.head_nonneg, h.head_lt, ?_, ?_, ?_, fun i hi hio => ?_, h.nodup, ?_, h.looking,
    h.one, ?_, fun hh => nomatch hh⟩
  · rw [next_eq h0 hlt, h.dma, Int.emod_add_emod, Nat.cast_succ, ← add_assoc]
  · rw [h.tail, place_next h0 hlt]
  · ext i
    have hi : i ∈ s.own ∪ s.filling.toFinset ↔ _ := iff_of_eq (congrArg (i ∈ ·) hout)
    rw [Finset.mem_union, List.mem_toFinset, Finset.mem_insert] at hi
    rw [Finset.mem_union, List.mem_toFinset, Finset.mem_erase]
    constructor
    · rintro (⟨hne, ho⟩ | hf)
      · exact (hi.mp (.inl ho)).resolve_left hne
      · exact (hi.mp (.inr hf)).resolve_left fun he => hfilling (he ▸ hf)
    · intro hw
      have hne : i ≠ s.dma := fun he => hfront (he ▸ hw)
      exact (hi.mpr (.inr hw)).imp_left fun ho => ⟨hne, ho⟩
  · exact h.apart i hi (Finset.mem_of_mem_erase hio)
  · dsimp only
    omega
  · rw [see]
    have := h.sent
    dsimp only
    omega

/-- A call takes the next descriptor. -/
theorem Inv.advance (h : Inv s l d r) {desc : Int} (hs : step s (.advance desc) = some t) :
    Inv t (see s (.advance desc) t l) d (r + 1) := by
  simp only [step, Option.ite_none_right_eq_some, Option.some.injEq] at hs
  obtain ⟨hmem, rfl⟩ := hs
  have hroom := h.room
  have hone := h.one
  have hnn := s.osem.room_nonneg
  have hpos := List.length_pos_of_mem hmem
  obtain ⟨h0, hlt⟩ := h.dma_bounds
  have htail := h.tail
  obtain rfl : desc = s.txTail := h.looking desc hmem
  have hlooking : s.looking = [s.txTail] := eq_singleton_of_mem hmem (by omega)
  have hnew : s.txTail ∉ s.own ∪ s.filling.toFinset := by
    rw [h.out, htail]
    exact notMem_window_end (by omega)
  rw [Finset.mem_union, List.mem_toFinset, not_or] at hnew
  refine ⟨h.head_nonneg, h.head_lt, h.dma, ?_, ?_, fun i hi => ?_, ?_, ?_, ?_, ?_, h.sent,
    fun hh => nomatch hh⟩
  · have hb : 0 ≤ s.txTail ∧ s.txTail < ETH_QUARK_TX_RING_SIZE := by
      rw [htail]
      exact ⟨Int.emod_nonneg _ (by decide), Int.emod_lt_of_pos _ (by decide)⟩
    rw [next_eq hb.1 hb.2, htail, Int.emod_add_emod, Nat.cast_succ, ← add_assoc]
  · rw [window_succ, ← htail, ← h.out, List.toFinset_append, List.toFinset_cons, List.toFinset_nil]
    ext i
    simp only [Finset.mem_union, Finset.mem_insert, Finset.notMem_empty, or_false]
    tauto
  · rcases List.mem_append.mp hi with hi | hi
    · exact h.apart i hi
    · rw [List.mem_singleton.mp hi]
      exact hnew.1
  · rw [← List.concat_eq_append]
    exact List.Nodup.concat hnew.2 h.nodup
  · simp [hlooking] at hroom ⊢
    omega
  · simp [hlooking]
  · simp [hlooking]

/-- It marks the descriptor. -/
theorem Inv.hand (h : Inv s l d r) {desc : Int} (hs : step s (.hand desc) = some t) :
    Inv t (see s (.hand desc) t l) d r := by
  simp only [step, Option.ite_none_right_eq_some, Option.some.injEq] at hs
  obtain ⟨hmem, rfl⟩ := hs
  have herase : ∀ i, i ∈ s.filling.erase desc ↔ i ≠ desc ∧ i ∈ s.filling :=
    fun i => h.nodup.mem_erase_iff
  refine ⟨h.head_nonneg, h.head_lt, h.dma, h.tail, ?_, fun i hi hio => ?_, h.nodup.erase desc,
    h.room, h.looking, h.one, h.sent, fun hh => nomatch hh⟩
  · rw [← h.out]
    ext i
    simp only [Finset.mem_union, Finset.mem_insert, List.mem_toFinset, herase]
    by_cases hi : i = desc
    · subst hi
      tauto
    · tauto
  · obtain ⟨hne, hf⟩ := (herase i).mp hi
    rcases Finset.mem_insert.mp hio with he | ho
    · exact hne he
    · exact h.apart i hf ho

/-- **Every step keeps the invariant.** -/
theorem Inv.step (h : Inv s l d r) (hserved : Served s e) (hs : step s e = some t) :
    ∃ d' r', Inv t (see s e t l) d' r' := by
  cases e with
  | wait =>
    rw [EthWrite.step, Option.some.injEq] at hs
    subst hs
    refine ⟨d, r, h.head_nonneg, h.head_lt, h.dma, h.tail, h.out, h.apart, h.nodup, ?_, h.looking,
      h.one, h.sent, fun hh => nomatch hh⟩
    rw [Turnstile.room_wait]
    exact h.room
  | look =>
    have hnone : s.looking = [] := hserved
    simp only [EthWrite.step, Option.ite_none_right_eq_some, Option.some.injEq] at hs
    obtain ⟨hpos, rfl⟩ := hs
    have hroom := h.room
    refine ⟨d, r, h.head_nonneg, h.head_lt, h.dma, h.tail, h.out, h.apart, h.nodup, ?_, ?_, ?_,
      h.sent, fun hh => nomatch hh⟩
    · simp [hnone, Turnstile.room_goOn hpos] at hroom ⊢
      omega
    · intro i hi
      simpa [hnone] using hi
    · simp [hnone]
  | advance desc => exact ⟨d, r + 1, h.advance hs⟩
  | hand desc => exact ⟨d, r, h.hand hs⟩
  | sent =>
    obtain ⟨r', hr⟩ := h.sends hs
    exact ⟨d + 1, r', hr⟩
  | interrupt => exact ⟨0, r, h.interrupt hserved hs⟩

/-- **The transmit ring is kept right** in every run in which the handler never runs on a full ring
of which a packet has been sent, nor reaches a descriptor that is being filled, and calls of
`ethwrite` look for their descriptors one after the other. -/
theorem ethwrite_right
    (h : Reaches (watch EthWrite.step see) (fun x => Served x.1) (start, ⟨0, 0, false⟩) (s, l)) :
    Right s l := by
  have hinv := Reaches.invariant (I := fun x : EthTx × Log => ∃ d r, Inv x.1 x.2 d r) h
    ⟨0, 0, inv_start⟩ fun x e y ⟨d, r, hx⟩ hok hs => by
      obtain ⟨t, ht, rfl⟩ := watch_some.mp hs
      exact hx.step hok ht
  obtain ⟨d, r, hx⟩ := hinv
  exact hx.right

/-! ## 4. It is not kept otherwise

On a full ring the handler stops at once and credits nothing. -/

instance : DecidableRel Served := fun s e => by
  cases e <;> unfold Served <;> infer_instance

/-- A packet is written, sent and credited. -/
def writeOne : List Event := [.wait, .look, .advance 0, .hand 0, .sent, .interrupt]

theorem ethwrite_right_writeOne :
    ∃ s l, exec (watch EthWrite.step see) (fun x => Served x.1) (start, ⟨0, 0, false⟩) writeOne =
      some (s, l) ∧ l.handled = true ∧ Right s l := by
  have hsome : ((exec (watch EthWrite.step see) (fun x => Served x.1) (start, ⟨0, 0, false⟩)
      writeOne).map fun x => x.2.handled) = some true := by decide +kernel
  obtain ⟨⟨s, l⟩, he, hh⟩ := Option.map_eq_some_iff.mp hsome
  exact ⟨s, l, he, hh, ethwrite_right (reaches_of_exec he)⟩

/-- Sixteen packets are written, all of them are sent, and the handler runs. -/
def fullRing : List Event :=
  ((List.range 16).flatMap fun i => [.wait, .look, .advance i, .hand i]) ++
    List.replicate 16 .sent ++ [.interrupt]

/-- Nothing is credited: `osem` stays at 0 with no descriptor in use, and a seventeenth writer will
wait for ever. -/
theorem ethwrite_stops :
    ∃ s l, exec (watch EthWrite.step see) always (start, ⟨0, 0, false⟩) fullRing = some (s, l) ∧
      s.osem = ⟨0, 0⟩ ∧ s.own = ∅ ∧ l.sent = 16 ∧ l.credited = 0 ∧ ¬Right s l := by
  have hrun : (exec (watch EthWrite.step see) always (start, ⟨0, 0, false⟩) fullRing).map
      (fun x => (x.1.osem, x.1.own, x.2.sent, x.2.credited, x.2.handled)) =
        some (⟨0, 0⟩, ∅, 16, 0, true) := by decide +kernel
  obtain ⟨⟨s, l⟩, he, hx⟩ := Option.map_eq_some_iff.mp hrun
  simp only [Prod.mk.injEq] at hx
  obtain ⟨hosem, hown, hsent, hcredited, hhandled⟩ := hx
  refine ⟨s, l, he, hosem, hown, hsent, hcredited, fun h => ?_⟩
  have honce := h.once hhandled
  rw [hsent, hcredited] at honce
  exact absurd honce (by decide)

end Xinu.EthWrite
