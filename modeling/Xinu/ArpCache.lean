/-
# The entries of the ARP cache

An entry is made by the process that asks for an address, or for the sender of a request.  While it
is pending one process waits for the answer, and the code relies on this: another process that asks
for the same address gets `SYSERR`, because only one process can be waiting at a time.

That no address has two entries holds whatever happens (`Single.step`).  That somebody waits for
every pending entry does not: `kill` knows nothing of the cache, and leaves the entry of a process
that waits as it is.

In the kernel as it is linked, with `send.c`, that is all that can go wrong.  No message ever
arrives, so a process in `arp_resolve` goes on with `TIMEOUT`, and after the last one it frees its
entry.  With `send.c.orig` there is a second way: `arp_resolve` takes every message but `TIMEOUT`
and `SYSERR` to mean that its entry is resolved, and on `SYSERR` too it leaves the entry as it is.

`waited_step_iff`: exactly the steps by which a process leaves while its entry is still pending,
other than by a timeout, leave an entry for which nobody waits.  `arp_cache_kept` is the invariant
of the runs without such a step.  Both hold for either `send`.
-/
import Xinu.Arp

namespace Xinu.Arp

open Runs

/-! ## 1. Processes that are killed

The steps of `Arp`, and one more. -/

/-- `kill(pid)`: the process waits no more, and whoever gets its identifier has no message. -/
def killed (s : Arpcache) (pid : Int) : Arpcache :=
  { s with procs :=
      ⟨Function.update s.procs.prmsg pid none, Function.update s.procs.waiting pid none⟩ }

/-- A step of a process that runs, or a process is killed. -/
inductive CacheEvent
  | net (ev : Event)
  | kill (pid : Int)
deriving DecidableEq

def cacheStep (f : SendFile) (s : Arpcache) : CacheEvent → Option Arpcache
  | .net ev => step f s ev
  | .kill pid => some (killed s pid)

/-! ## 2. The cache

The two parts of the invariant, and the condition on a step for the second one. -/

/-- An entry in use. -/
def Used (s : Arpcache) (i : Int) : Prop := (s.arpcache i).arstate ≠ .free

/-- **No address has two entries**, and the entries are in the table. -/
structure Single (s : Arpcache) : Prop where
  inside : ∀ i, Used s i → i ∈ slots
  unique : ∀ i j, Used s i → Used s j → (s.arpcache i).arpaddr = (s.arpcache j).arpaddr → i = j

/-- **Somebody waits for every pending entry.** -/
def Waited (s : Arpcache) : Prop :=
  ∀ i, (s.arpcache i).arstate = .pending →
    ∃ w ∈ s.procs.waiting (s.arpcache i).arpid, w.slot = i ∧ w.nxthop = (s.arpcache i).arpaddr

/-- The entry for which the process waits is still pending, and its own. -/
def Pending (s : Arpcache) (pid : Int) (w : Wait) : Prop :=
  (s.arpcache w.slot).arstate = .pending ∧ (s.arpcache w.slot).arpid = pid

instance (s : Arpcache) (pid : Int) (w : Wait) : Decidable (Pending s pid w) :=
  inferInstanceAs (Decidable (_ ∧ _))

/-- A process whose entry is pending is not killed, and with `send.c.orig` it goes on only with a
timeout. -/
def Patient (f : SendFile) (s : Arpcache) : CacheEvent → Prop
  | .net (.wake pid) =>
    f = .orig → ∀ w ∈ s.procs.waiting pid, Pending s pid w → s.procs.result pid = timeoutMsg
  | .kill pid => ∀ w ∈ s.procs.waiting pid, ¬ Pending s pid w
  | _ => True

instance (f : SendFile) : DecidableRel (Patient f) := fun s e =>
  match e with
  | .net (.wake pid) =>
    inferInstanceAs (Decidable (f = .orig → ∀ w ∈ s.procs.waiting pid, Pending s pid w →
      s.procs.result pid = timeoutMsg))
  | .kill pid => inferInstanceAs (Decidable (∀ w ∈ s.procs.waiting pid, ¬ Pending s pid w))
  | .net (.arp_resolve ..) | .net (.arp_in _) | .net (.send ..) | .net (.configure _) =>
    instDecidableTrue

/-- With `send.c` nobody ever has a message. -/
def Silent (f : SendFile) (s : Arpcache) : Prop := f = .linked → ∀ pid, s.procs.prmsg pid = none

variable {f : SendFile} {s t : Arpcache} {slot pid : Int} {addr : Nat} {e : Arpentry} {w : Wait}

theorem single_start : Single start :=
  ⟨fun _ h => absurd rfl h, fun _ _ h => absurd rfl h⟩

theorem waited_start : Waited start := fun _ h => ArState.noConfusion h

/-- Changing the processes or the configuration. -/
theorem Single.same (h : Single s) (ht : t.arpcache = s.arpcache) : Single t := by
  constructor
  · intro i hi
    rw [Used, ht] at hi
    exact h.inside i hi
  · intro i j hi hj heq
    rw [Used, ht] at hi hj
    rw [ht] at heq
    exact h.unique i j hi hj heq

/-! ## 3. What the functions find

The search finds the only entry for an address, and a slot that is allocated is either free or
resolved. -/

theorem search_none (h : search s addr = none) {i : Int} (hi : i ∈ slots) (hu : Used s i) :
    (s.arpcache i).arpaddr ≠ addr := by
  intro heq
  have hno := List.find?_eq_none.mp h i hi
  exact hno (decide_eq_true ⟨hu, heq⟩)

theorem search_mem {i : Int} (h : search s addr = some i) : i ∈ slots := List.mem_of_find?_eq_some h

/-- **`arp_alloc` gives a slot that is not pending.** -/
theorem arp_alloc_spec (h : arp_alloc s = some slot) :
    slot ∈ slots ∧ (s.arpcache slot).arstate ≠ .pending := by
  unfold arp_alloc at h
  cases hf : slots.find? fun i => (s.arpcache i).arstate = .free with
  | some i =>
    rw [hf] at h
    obtain rfl := Option.some.inj h
    have hfree : (s.arpcache i).arstate = .free := by simpa using List.find?_some hf
    exact ⟨List.mem_of_find?_eq_some hf, by rw [hfree]; exact fun hc => ArState.noConfusion hc⟩
  | none =>
    rw [hf] at h
    dsimp only at h
    have hres : (s.arpcache slot).arstate = .resolved := by simpa using List.find?_some h
    exact ⟨List.mem_of_find?_eq_some h, by rw [hres]; exact fun hc => ArState.noConfusion hc⟩

theorem set_same : (s.set slot e).arpcache slot = e := Function.update_self _ _ _

theorem set_ne {i : Int} (h : i ≠ slot) : (s.set slot e).arpcache i = s.arpcache i :=
  Function.update_of_ne h _ _

/-! ## 4. One entry for an address

This part does not depend on messages, nor on who waits. -/

/-- An entry is replaced by one with an address that no other has. -/
theorem Single.set (h : Single s) (hslot : slot ∈ slots)
    (hnew : ∀ i, i ≠ slot → Used s i → (s.arpcache i).arpaddr ≠ e.arpaddr) :
    Single (s.set slot e) := by
  constructor
  · intro i hi
    by_cases hs : i = slot
    · rw [hs]
      exact hslot
    · rw [Used, set_ne hs] at hi
      exact h.inside i hi
  · intro i j hi hj heq
    by_cases hs : i = slot
    · by_cases hs' : j = slot
      · rw [hs, hs']
      · rw [Used, set_ne hs'] at hj
        rw [hs, set_same, set_ne hs'] at heq
        exact absurd heq.symm (hnew j hs' hj)
    · rw [Used, set_ne hs] at hi
      by_cases hs' : j = slot
      · rw [hs', set_same, set_ne hs] at heq
        exact absurd heq (hnew i hs hi)
      · rw [Used, set_ne hs'] at hj
        rw [set_ne hs, set_ne hs'] at heq
        exact h.unique i j hi hj heq

/-- An entry is freed. -/
theorem Single.release (h : Single s) (hfree : e.arstate = .free) : Single (s.set slot e) := by
  have hused : ∀ i, Used (s.set slot e) i → i ≠ slot ∧ Used s i := by
    intro i hi
    by_cases hs : i = slot
    · rw [Used, hs, set_same] at hi
      exact absurd hfree hi
    · rw [Used, set_ne hs] at hi
      exact ⟨hs, hi⟩
  refine ⟨fun i hi => h.inside i (hused i hi).2, fun i j hi hj heq => ?_⟩
  rw [set_ne (hused i hi).1, set_ne (hused j hj).1] at heq
  exact h.unique i j (hused i hi).2 (hused j hj).2 heq

/-- A new entry for an address that the search did not find. -/
theorem Single.fresh (h : Single s) (hs : search s e.arpaddr = none)
    (ha : arp_alloc s = some slot) : Single (s.set slot e) :=
  h.set (arp_alloc_spec ha).1 fun i _ hi => search_none hs (h.inside i hi) hi

/-- The entry that the search found keeps its address. -/
theorem Single.refresh (h : Single s) (hs : search s addr = some slot)
    (he : e.arpaddr = (s.arpcache slot).arpaddr) : Single (s.set slot e) := by
  refine h.set (search_mem hs) fun i hne hi heq => hne ?_
  exact h.unique i slot hi (search_found hs).1 (heq.trans he)

theorem Single.arp_resolve (h : Single s) (pid : Int) (nxthop : Nat) :
    Single (arp_resolve s pid nxthop).1 := by
  unfold Arp.arp_resolve
  by_cases hb : nxthop = IP_BCAST
  · rw [if_pos hb]
    exact h
  by_cases hb' : nxthop = s.net.ipbcast
  · rw [if_neg hb, if_pos hb']
    exact h
  rw [if_neg hb, if_neg hb']
  cases hs : search s nxthop with
  | some i =>
    dsimp only
    by_cases hr : (s.arpcache i).arstate = .resolved
    · rw [if_pos hr]
      exact h
    · rw [if_neg hr]
      exact h
  | none =>
    cases ha : arp_alloc s with
    | none => exact h
    | some slot =>
      have hset : Single (s.set slot { Arpentry.zero with
        arstate := .pending, arpaddr := nxthop, arpid := pid }) := h.fresh hs ha
      dsimp only
      cases (s.procs.recvclr pid).recvtime pid ARP_TIMEOUT ⟨nxthop, slot, 0⟩ with
      | some procs => exact hset.same rfl
      | none => exact hset.same rfl

theorem Single.wake (h : Single s) (pid : Int) (w : Wait) : Single (wake s pid w).1 := by
  unfold Arp.wake
  by_cases htime : s.procs.result pid = timeoutMsg
  · simp only [if_pos htime]
    by_cases hi : w.i + 1 < ARP_RETRY
    · simp only [if_pos hi]
      cases (s.procs.resume pid).recvtime pid ARP_TIMEOUT { w with i := w.i + 1 } with
      | some procs => exact h.same rfl
      | none => exact h.same rfl
    · simp only [if_neg hi]
      exact (h.same (t := { s with procs := s.procs.resume pid }) rfl).release rfl
  · simp only [if_neg htime]
    by_cases herr : s.procs.result pid = sysErrPtr
    · simp only [if_pos herr]
      exact h.same rfl
    · simp only [if_neg herr]
      exact h.same rfl

theorem Single.arp_in (h : Single s) (p : Arppacket) : Single (arp_in f s p) := by
  unfold Arp.arp_in
  by_cases hbad : p.arp_htype ≠ ARP_HTYPE ∨ p.arp_ptype ≠ ARP_PTYPE
  · rw [if_pos hbad]
    exact h
  rw [if_neg hbad]
  cases hs : search s p.arp_sndpa with
  | some slot =>
    simp only [arp_update]
    split_ifs with hp
    · exact Single.same (h.refresh (e := { s.arpcache slot with
        arhaddr := p.arp_sndha, arstate := .resolved }) hs rfl) rfl
    · exact h.refresh hs rfl
  | none =>
    dsimp only
    split_ifs
    · exact h
    · exact h
    · cases ha : arp_alloc s with
      | none => exact h
      | some slot => exact h.fresh hs ha

/-- **Every step keeps one entry for an address.** -/
theorem Single.step {e : CacheEvent} (h : Single s) (hs : cacheStep f s e = some t) : Single t := by
  cases e with
  | kill pid =>
    obtain rfl := Option.some.inj hs
    exact h.same rfl
  | net ev =>
    cases ev with
    | arp_resolve pid nxthop =>
      simp only [cacheStep, Arp.step, Option.ite_none_right_eq_some, Option.some.injEq] at hs
      obtain ⟨-, rfl⟩ := hs
      exact h.arp_resolve pid nxthop
    | wake pid =>
      simp only [cacheStep, Arp.step] at hs
      cases hw : s.procs.waiting pid with
      | none => simp [hw] at hs
      | some w =>
        rw [hw, Option.some.injEq] at hs
        subst hs
        exact h.wake pid w
    | arp_in p =>
      obtain rfl := Option.some.inj hs
      exact h.arp_in p
    | send pid msg =>
      obtain rfl := Option.some.inj hs
      exact h.same rfl
    | configure net =>
      obtain rfl := Option.some.inj hs
      exact h.same rfl

/-! ## 5. A process for every pending entry

A step of `arp_resolve` makes a process wait or ends its wait.  What the end of a wait does is
stated as an equivalence, so that the exact condition comes out of it. -/

theorem Waited.same (h : Waited s) (ht : t.arpcache = s.arpcache)
    (hw : t.procs.waiting = s.procs.waiting) : Waited t := by
  intro i hi
  rw [ht] at hi ⊢
  rw [hw]
  exact h i hi

/-- An entry is replaced by one that is not pending. -/
theorem Waited.set (h : Waited s) (he : e.arstate ≠ .pending) : Waited (s.set slot e) := by
  intro i hi
  by_cases hs : i = slot
  · rw [hs, set_same] at hi
    exact absurd hi he
  · rw [set_ne hs] at hi ⊢
    exact h i hi

/-- A process begins to wait, with an entry of its own. -/
theorem Waited.ask (h : Waited s) (hidle : s.procs.waiting pid = none)
    (ht : t.arpcache = (s.set slot { Arpentry.zero with
      arstate := .pending, arpaddr := addr, arpid := pid }).arpcache)
    (hw : t.procs.waiting = Function.update s.procs.waiting pid (some ⟨addr, slot, 0⟩)) :
    Waited t := by
  intro i hi
  rw [ht] at hi ⊢
  rw [hw]
  by_cases hs : i = slot
  · rw [hs, set_same]
    exact ⟨_, Function.update_self _ _ _, rfl, rfl⟩
  · rw [set_ne hs] at hi ⊢
    obtain ⟨w, hm, hslot⟩ := h i hi
    have hne : (s.arpcache i).arpid ≠ pid := by
      intro heq
      rw [heq, hidle] at hm
      exact Option.not_mem_none w hm
    rw [Function.update_of_ne hne]
    exact ⟨w, hm, hslot⟩

/-- A process that stops waiting leaves every entry that it waited for, unless that is pending and
its own. -/
theorem Waited.leave_iff (h : Waited s) (hw : s.procs.waiting pid = some w)
    (ht : t.arpcache = s.arpcache)
    (hleave : t.procs.waiting = Function.update s.procs.waiting pid none) :
    Waited t ↔ ¬ Pending s pid w := by
  constructor
  · rintro hwait ⟨hp, hpid⟩
    obtain ⟨w', hm, -⟩ := hwait w.slot (by rw [ht]; exact hp)
    rw [ht, hpid, hleave, Function.update_self] at hm
    exact Option.not_mem_none w' hm
  · intro hno i hi
    rw [ht] at hi ⊢
    obtain ⟨w', hm, hslot⟩ := h i hi
    have hne : (s.arpcache i).arpid ≠ pid := by
      intro heq
      rw [heq, hw] at hm
      obtain rfl := Option.mem_some_iff.mp hm
      refine hno ⟨?_, ?_⟩
      · rw [hslot.1]
        exact hi
      · rw [hslot.1]
        exact heq
    rw [hleave, Function.update_of_ne hne]
    exact ⟨w', hm, hslot⟩

/-- A process waits for the same entry again. -/
theorem Waited.again {n : Nat} (h : Waited s) (hw : s.procs.waiting pid = some w)
    (ht : t.arpcache = s.arpcache)
    (hagain : t.procs.waiting = Function.update s.procs.waiting pid (some { w with i := n })) :
    Waited t := by
  intro i hi
  rw [ht] at hi ⊢
  rw [hagain]
  obtain ⟨w', hm, hslot⟩ := h i hi
  by_cases heq : (s.arpcache i).arpid = pid
  · rw [heq, hw] at hm
    obtain rfl := Option.mem_some_iff.mp hm
    rw [heq, Function.update_self]
    exact ⟨_, rfl, hslot⟩
  · rw [Function.update_of_ne heq]
    exact ⟨w', hm, hslot⟩

theorem Waited.arp_resolve (h : Waited s) (hidle : s.procs.waiting pid = none) (nxthop : Nat) :
    Waited (arp_resolve s pid nxthop).1 := by
  unfold Arp.arp_resolve
  by_cases hb : nxthop = IP_BCAST
  · rw [if_pos hb]
    exact h
  by_cases hb' : nxthop = s.net.ipbcast
  · rw [if_neg hb, if_pos hb']
    exact h
  rw [if_neg hb, if_neg hb']
  cases hs : search s nxthop with
  | some i =>
    dsimp only
    by_cases hr : (s.arpcache i).arstate = .resolved
    · rw [if_pos hr]
      exact h
    · rw [if_neg hr]
      exact h
  | none =>
    cases ha : arp_alloc s with
    | none => exact h
    | some slot => exact h.ask hidle rfl rfl

theorem Waited.arp_in (h : Waited s) (p : Arppacket) : Waited (arp_in f s p) := by
  have hres : ArState.resolved ≠ .pending := fun hc => ArState.noConfusion hc
  unfold Arp.arp_in
  by_cases hbad : p.arp_htype ≠ ARP_HTYPE ∨ p.arp_ptype ≠ ARP_PTYPE
  · rw [if_pos hbad]
    exact h
  rw [if_neg hbad]
  cases hs : search s p.arp_sndpa with
  | some slot =>
    simp only [arp_update]
    split_ifs with hp
    · have hset : Waited (s.set slot { s.arpcache slot with
        arhaddr := p.arp_sndha, arstate := .resolved }) := h.set hres
      exact hset.same rfl (Receivers.sendBy_waiting f)
    · exact h.set hp
  | none =>
    dsimp only
    split_ifs
    · exact h
    · exact h
    · cases ha : arp_alloc s with
      | none => exact h
      | some slot => exact h.set hres

/-- **A process that goes on leaves nothing behind** if its entry is not pending, or if it waits
again or frees the entry, after a timeout. -/
theorem Waited.wake_iff (h : Waited s) (hw : s.procs.waiting pid = some w) :
    Waited (wake s pid w).1 ↔ (Pending s pid w → s.procs.result pid = timeoutMsg) := by
  unfold Arp.wake
  by_cases htime : s.procs.result pid = timeoutMsg
  · refine iff_of_true ?_ fun _ => htime
    rw [if_pos htime]
    by_cases hi : w.i + 1 < ARP_RETRY
    · -- it waits for the same entry again
      rw [if_pos hi]
      exact h.again (n := w.i + 1) hw rfl (Function.update_idem _ _ _)
    · -- it frees the entry
      rw [if_neg hi]
      intro i hp
      have hne : i ≠ w.slot := by
        intro hs
        rw [hs, set_same] at hp
        exact ArState.noConfusion hp
      rw [set_ne hne] at hp ⊢
      obtain ⟨w', hm, hslot⟩ := h i hp
      have hpid : (s.arpcache i).arpid ≠ pid := by
        intro heq
        rw [heq, hw] at hm
        obtain rfl := Option.mem_some_iff.mp hm
        exact hne hslot.1.symm
      refine ⟨w', ?_, hslot⟩
      change Function.update _ pid _ _ = _
      rw [Function.update_of_ne hpid]
      exact hm
  · have himp : (Pending s pid w → s.procs.result pid = timeoutMsg) ↔ ¬ Pending s pid w :=
      ⟨fun hi hp => htime (hi hp), fun hn hp => absurd hp hn⟩
    rw [if_neg htime, himp]
    by_cases herr : s.procs.result pid = sysErrPtr
    · rw [if_pos herr]
      exact h.leave_iff hw rfl rfl
    · rw [if_neg herr]
      exact h.leave_iff hw rfl rfl

/-! ## 6. No message with `send.c`

The routine that is linked leaves the message fields of `recvtime` alone, so that each wait ends
in a timeout. -/

theorem silent_start : Silent f start := fun _ _ => rfl

/-- A process that has no message goes on with `TIMEOUT`. -/
theorem Silent.result (h : Silent f s) (hf : f = .linked) (pid : Int) :
    s.procs.result pid = timeoutMsg := by
  rw [Receivers.result, h hf pid]
  rfl

/-- Clearing the message of one process. -/
theorem Silent.clear (h : Silent f s) (pid : Int)
    (ht : t.procs.prmsg = Function.update s.procs.prmsg pid none) : Silent f t := by
  intro hf p
  rw [ht, show s.procs.prmsg = fun _ => none from funext (h hf), Function.update_apply, ite_self]

theorem Silent.same (h : Silent f s) (ht : t.procs.prmsg = s.procs.prmsg) : Silent f t :=
  fun hf p => by rw [ht, h hf p]

/-- A `send` by the linked routine. -/
theorem Silent.send (h : Silent f s) {msg : Nat}
    (ht : t.procs = s.procs.sendBy f pid msg) : Silent f t := by
  intro hf p
  subst hf
  rw [ht]
  exact h rfl p

theorem Silent.arp_resolve (h : Silent f s) (pid : Int) (nxthop : Nat) :
    Silent f (arp_resolve s pid nxthop).1 := by
  unfold Arp.arp_resolve
  split_ifs
  · exact h
  · exact h
  · cases search s nxthop with
    | some i =>
      dsimp only
      split_ifs
      · exact h
      · exact h
    | none =>
      cases arp_alloc s with
      | none => exact h
      | some slot => exact h.clear pid rfl

theorem Silent.wake (h : Silent f s) (pid : Int) (w : Wait) : Silent f (wake s pid w).1 := by
  unfold Arp.wake
  by_cases htime : s.procs.result pid = timeoutMsg
  · rw [if_pos htime]
    by_cases hi : w.i + 1 < ARP_RETRY
    · rw [if_pos hi]
      exact h.clear pid rfl
    · rw [if_neg hi]
      exact h.clear pid rfl
  · rw [if_neg htime]
    by_cases herr : s.procs.result pid = sysErrPtr
    · rw [if_pos herr]
      exact h.clear pid rfl
    · rw [if_neg herr]
      exact h.clear pid rfl

theorem Silent.arp_in (h : Silent f s) (p : Arppacket) : Silent f (arp_in f s p) := by
  unfold Arp.arp_in
  by_cases hbad : p.arp_htype ≠ ARP_HTYPE ∨ p.arp_ptype ≠ ARP_PTYPE
  · rw [if_pos hbad]
    exact h
  rw [if_neg hbad]
  cases search s p.arp_sndpa with
  | some slot =>
    simp only [arp_update]
    split_ifs
    · exact h.send rfl
    · exact h.same rfl
  | none =>
    dsimp only
    split_ifs
    · exact h
    · exact h
    · cases arp_alloc s with
      | none => exact h
      | some slot => exact h.same rfl

/-- **Every step keeps this.** -/
theorem Silent.step {e : CacheEvent} (h : Silent f s) (hs : cacheStep f s e = some t) :
    Silent f t := by
  cases e with
  | kill pid =>
    obtain rfl := Option.some.inj hs
    exact h.clear pid rfl
  | net ev =>
    cases ev with
    | arp_resolve pid nxthop =>
      simp only [cacheStep, Arp.step, Option.ite_none_right_eq_some, Option.some.injEq] at hs
      obtain ⟨-, rfl⟩ := hs
      exact h.arp_resolve pid nxthop
    | wake pid =>
      simp only [cacheStep, Arp.step] at hs
      cases hw : s.procs.waiting pid with
      | none => simp [hw] at hs
      | some w =>
        rw [hw, Option.some.injEq] at hs
        subst hs
        exact h.wake pid w
    | arp_in p =>
      obtain rfl := Option.some.inj hs
      exact h.arp_in p
    | send pid msg =>
      obtain rfl := Option.some.inj hs
      exact h.send rfl
    | configure net =>
      obtain rfl := Option.some.inj hs
      exact h.same rfl

/-! ## 7. One step

By the step, with the lemmas above. -/

/-- **The steps that leave a process waiting for every pending entry.** -/
theorem waited_step_iff {e : CacheEvent} (hsilent : Silent f s) (h : Waited s)
    (hs : cacheStep f s e = some t) : Waited t ↔ Patient f s e := by
  cases e with
  | kill pid =>
    obtain rfl := Option.some.inj hs
    cases hw : s.procs.waiting pid with
    | none =>
      refine iff_of_true (h.same rfl ?_) fun w hm => ?_
      · change Function.update s.procs.waiting pid none = _
        rw [← hw, Function.update_eq_self]
      · rw [hw] at hm
        exact absurd hm (Option.not_mem_none w)
    | some w =>
      rw [h.leave_iff hw (t := killed s pid) rfl rfl]
      refine ⟨fun hn w' hm => ?_, fun hall => hall w hw⟩
      obtain rfl := Option.some.inj (hw.symm.trans hm)
      exact hn
  | net ev =>
    cases ev with
    | arp_resolve pid nxthop =>
      simp only [cacheStep, Arp.step, Option.ite_none_right_eq_some, Option.some.injEq] at hs
      obtain ⟨hidle, rfl⟩ := hs
      exact iff_of_true (h.arp_resolve hidle nxthop) trivial
    | wake pid =>
      simp only [cacheStep, Arp.step] at hs
      cases hw : s.procs.waiting pid with
      | none => simp [hw] at hs
      | some w =>
        rw [hw, Option.some.injEq] at hs
        subst hs
        rw [h.wake_iff hw]
        cases f with
        | linked =>
          refine iff_of_true (fun _ => hsilent.result rfl pid) fun hf => ?_
          exact SendFile.noConfusion hf
        | orig =>
          refine ⟨fun hi _ w' hm => ?_, fun hall => hall rfl w hw⟩
          obtain rfl := Option.some.inj (hw.symm.trans hm)
          exact hi
    | arp_in p =>
      obtain rfl := Option.some.inj hs
      exact iff_of_true (h.arp_in p) trivial
    | send pid msg =>
      obtain rfl := Option.some.inj hs
      exact iff_of_true (h.same rfl (Receivers.sendBy_waiting f)) trivial
    | configure net =>
      obtain rfl := Option.some.inj hs
      exact iff_of_true (h.same rfl rfl) trivial

/-! ## 8. Runs

Both parts together, along a run.  The counterexample is a run with the linked `send.c`. -/

theorem single_reaches {ok : Arpcache → CacheEvent → Prop}
    (h : Reaches (cacheStep f) ok start s) : Single s :=
  h.invariant single_start fun _ _ _ hi _ hs => hi.step hs

/-- **The invariant of the cache**, with either `send`, in the runs in which no process is killed
while its entry is pending and, with `send.c.orig`, every such process stays until the answer or the
last timeout. -/
theorem arp_cache_kept (f : SendFile) (s : Arpcache)
    (h : Reaches (cacheStep f) (Patient f) start s) :
    (∀ i j, Used s i → Used s j → (s.arpcache i).arpaddr = (s.arpcache j).arpaddr → i = j) ∧
      Waited s := by
  have hboth : Silent f s ∧ Waited s :=
    h.invariant (I := fun s => Silent f s ∧ Waited s) ⟨silent_start, waited_start⟩
      fun _ _ _ hi hok hs => ⟨hi.1.step hs, (waited_step_iff hi.1 hi.2 hs).mpr hok⟩
  exact ⟨(single_reaches h).unique, hboth.2⟩

/-- A process asks, asks again after a timeout, gets the answer and is killed before it goes on;
another asks for another address. -/
def patientRun : List CacheEvent :=
  [.net (.arp_resolve 20 7), .net (.wake 20), .net (.arp_in ⟨1, 0x0800, 2, 0x001122334455, 7, 9⟩),
    .kill 20, .net (.arp_resolve 21 8)]

theorem arp_cache_kept_two : ∃ s, exec (cacheStep .linked) (Patient .linked) start patientRun =
    some s ∧
    (∀ i j, Used s i → Used s j → (s.arpcache i).arpaddr = (s.arpcache j).arpaddr → i = j) ∧
      Waited s :=
  ⟨_, rfl, arp_cache_kept .linked _ (@reaches_of_exec _ _ _ _ _ _ _ patientRun rfl)⟩

/-- A process asks for an address and is killed before the answer. -/
def killedRun : List CacheEvent := [.net (.arp_resolve 20 7), .kill 20]

/-- **Its entry is still pending**, nobody waits, and whoever asks next gets an error. -/
theorem arp_cache_leaks : ∃ s, exec (cacheStep .linked) always start killedRun = some s ∧
    (s.arpcache 0).arstate = .pending ∧ (s.arpcache 0).arpaddr = 7 ∧
    (∀ pid, s.procs.waiting pid = none) ∧ (arp_resolve s 22 7).2 = some .error ∧ ¬ Waited s := by
  have hnobody : ∀ pid : Int, Function.update (Function.update (fun _ => (none : Option Wait)) 20
      (some ⟨7, 0, 0⟩)) 20 none pid = none := by
    intro pid
    rw [Function.update_idem, Function.update_apply, ite_self]
  refine ⟨_, rfl, by decide, by decide, hnobody, by decide, fun h => ?_⟩
  obtain ⟨w, hm, -⟩ := h 0 (by decide)
  exact absurd hm (Option.not_mem_none w)

end Xinu.Arp
