/-
# Resolving addresses with ARP

This module is `struct arpentry` of `arp.h` and `arp_resolve`, `arp_in` and `arp_alloc` of `arp.c`.

`arp_in` and `arp_alloc` run with interrupts disabled and are one step, and so is `arp_resolve` up
to where it waits for an answer (it may also wait in `write`, where it does not look at anything).
While it waits its slot is marked as pending; but the slot can be resolved, given to another address
and resolved or marked again before the process goes on, and any message whatever ends the wait.
-/
import Xinu.TimedReceive
import Xinu.Lib.Runs

namespace Xinu.Arp

open Runs

/-! ## 1. The cache

The cache with its configuration, and for each process that waits in `arp_resolve` the variables
that it will go on with. -/

/-- `ARP_RETRY` of `arp.h`. -/
abbrev ARP_RETRY : Nat := 3

/-- `ARP_TIMEOUT` of `arp.h`. -/
abbrev ARP_TIMEOUT : Nat := 300

/-- `ARP_HTYPE` of `arp.h`. -/
abbrev ARP_HTYPE : Nat := 1

/-- `ARP_PTYPE` of `arp.h`. -/
abbrev ARP_PTYPE : Nat := 0x0800

/-- `ARP_OP_RPLY` of `arp.h`. -/
abbrev ARP_OP_RPLY : Nat := 2

/-- `IP_BCAST` of `ip.h`. -/
abbrev IP_BCAST : Nat := 0xffffffff

/-- A hardware address, its six bytes read as a number. -/
abbrev Hardware := Nat

/-- `NetData.ethbcast`, set by `net_init`. -/
abbrev ethbcast : Hardware := 0xffffffffffff

/-- `AR_FREE`, `AR_PENDING` and `AR_RESOLVED`. -/
inductive ArState
  | free
  | pending
  | resolved
deriving DecidableEq, Repr

/-- `struct arpentry`. -/
structure Arpentry where
  arstate : ArState
  arpaddr : Nat
  arpid : Int
  arhaddr : Hardware
deriving DecidableEq, Repr

/-- An entry of zeros. -/
def Arpentry.zero : Arpentry := ⟨.free, 0, 0, 0⟩

/-- The fields of an incoming `struct arppacket` that `arp_in` reads, in host byte order. -/
structure Arppacket where
  arp_htype : Nat
  arp_ptype : Nat
  arp_op : Nat
  arp_sndha : Hardware
  arp_sndpa : Nat
  arp_tarpa : Nat
deriving DecidableEq, Repr

/-- The fields of `NetData` that are read here. -/
structure NetData where
  ipucast : Nat
  ipbcast : Nat
  ipvalid : Bool8
deriving DecidableEq

/-- What `arp_resolve` keeps while it waits: `nxthop`, `arptr` as a slot, and `i`. -/
structure Wait where
  nxthop : Nat
  slot : Int
  i : Nat
deriving DecidableEq, Repr

/-- `arpcache`, the configuration, and the processes that wait. -/
structure Arpcache where
  arpcache : Int → Arpentry
  net : NetData
  procs : Receivers Wait

/-- The `ARP_SIZ` slots in the order in which loops visit them. -/
def slots : List Int := [0, 1, 2, 3, 4, 5, 6, 7, 8, 9, 10, 11, 12, 13, 14, 15]

/-- After `net_init`. -/
def start : Arpcache := ⟨fun _ => .zero, ⟨0, 0, 0⟩, .start⟩

/-- An entry is replaced. -/
def Arpcache.set (s : Arpcache) (slot : Int) (e : Arpentry) : Arpcache :=
  { s with arpcache := Function.update s.arpcache slot e }

/-! ## 2. The functions

`arp_resolve` is cut at its `recvtime`: `wake` is the rest of it, for the message that comes. -/

/-- `arp_alloc`: the slot, whose entry is set to zeros, or `none` for `SYSERR`. -/
def arp_alloc (s : Arpcache) : Option Int :=
  match slots.find? fun i => (s.arpcache i).arstate = .free with
  | some slot => some slot
  | none => slots.find? fun i => (s.arpcache i).arstate = .resolved

/-- The search of `arp_resolve` and `arp_in`: the first entry in use with this address. -/
def search (s : Arpcache) (addr : Nat) : Option Int :=
  slots.find? fun i => (s.arpcache i).arstate ≠ .free ∧ (s.arpcache i).arpaddr = addr

/-- What `arp_resolve` returns; with `OK`, the address it stores. -/
inductive Result
  | ok (mac : Hardware)
  | error
  | timeout
deriving DecidableEq, Repr

/-- `arp_resolve` by `pid`, up to where it waits; it has no result yet if it waits. -/
def arp_resolve (s : Arpcache) (pid : Int) (nxthop : Nat) : Arpcache × Option Result :=
  if nxthop = IP_BCAST then (s, some (.ok ethbcast))
  else if nxthop = s.net.ipbcast then (s, some (.ok ethbcast))
  else
    match search s nxthop with
    | some i =>
      if (s.arpcache i).arstate = .resolved then (s, some (.ok (s.arpcache i).arhaddr))
      else (s, some .error)
    | none =>
      match arp_alloc s with
      | none => (s, some .error)
      | some slot =>
        let t := s.set slot { Arpentry.zero with
          arstate := .pending, arpaddr := nxthop, arpid := pid }
        match (s.procs.recvclr pid).recvtime pid ARP_TIMEOUT ⟨nxthop, slot, 0⟩ with
        | some procs => ({ t with procs }, none)
        | none => ({ t with procs := s.procs.recvclr pid }, some .error)

/-- The rest of `arp_resolve`, after `recvtime`: it may wait once more. -/
def wake (s : Arpcache) (pid : Int) (w : Wait) : Arpcache × Option Result :=
  let t := { s with procs := s.procs.resume pid }
  if s.procs.result pid = timeoutMsg then
    if w.i + 1 < ARP_RETRY then
      match t.procs.recvtime pid ARP_TIMEOUT { w with i := w.i + 1 } with
      | some procs => ({ t with procs }, none)
      | none => (t, some .error)
    else (t.set w.slot { s.arpcache w.slot with arstate := .free }, some .timeout)
  else if s.procs.result pid = sysErrPtr then (t, some .error)
  else (t, some (.ok (s.arpcache w.slot).arhaddr))

/-- The first half of `arp_in`: the sender's hardware address is updated, and a process that waits
for it is told, with the `send` of the file `f`. -/
def arp_update (f : SendFile) (s : Arpcache) (p : Arppacket) (slot : Int) : Arpcache :=
  let e := s.arpcache slot
  if e.arstate = .pending then
    { s.set slot { e with arhaddr := p.arp_sndha, arstate := .resolved } with
      procs := s.procs.sendBy f e.arpid okMsg }
  else s.set slot { e with arhaddr := p.arp_sndha }

/-- `arp_in`, without the reply it may send. -/
def arp_in (f : SendFile) (s : Arpcache) (p : Arppacket) : Arpcache :=
  if p.arp_htype ≠ ARP_HTYPE ∨ p.arp_ptype ≠ ARP_PTYPE then s
  else
    match search s p.arp_sndpa with
    | some slot => arp_update f s p slot
    | none =>
      if p.arp_op = ARP_OP_RPLY then s
      else if s.net.ipvalid = 0 ∨ p.arp_tarpa ≠ s.net.ipucast then s
      else
        match arp_alloc s with
        | none => s
        | some slot =>
          s.set slot { Arpentry.zero with
            arpaddr := p.arp_sndpa, arhaddr := p.arp_sndha, arstate := .resolved }

/-! ## 3. Interleavings

The log has what was announced and what was returned, each with the two addresses. -/

/-- What happens next. -/
inductive Event
  | arp_resolve (pid : Int) (nxthop : Nat)
  /-- `recvtime` returns in `pid`. -/
  | wake (pid : Int)
  | arp_in (p : Arppacket)
  /-- Another process sends `pid` a message. -/
  | send (pid : Int) (msg : Nat)
  /-- The computer gets its addresses. -/
  | configure (net : NetData)
deriving DecidableEq

/-- One step of any process, in a kernel with the `send` of the file `f`. -/
def step (f : SendFile) (s : Arpcache) : Event → Option Arpcache
  | .arp_resolve pid nxthop =>
    if s.procs.waiting pid = none then some (arp_resolve s pid nxthop).1 else none
  | .wake pid =>
    match s.procs.waiting pid with
    | some w => some (wake s pid w).1
    | none => none
  | .arp_in p => some (arp_in f s p)
  | .send pid msg => some { s with procs := s.procs.sendBy f pid msg }
  | .configure net => some { s with net }

/-- The pairs of addresses that ARP packets have announced, and those that `arp_resolve` has
returned for addresses that are not broadcast addresses. -/
structure Log where
  announced : List (Nat × Hardware)
  resolved : List (Nat × Hardware)

/-- The log of what `arp_resolve` returned. -/
def noteResult (l : Log) (nxthop : Nat) : Option Result → Log
  | some (.ok mac) => { l with resolved := l.resolved ++ [(nxthop, mac)] }
  | _ => l

def see (s : Arpcache) (e : Event) (_ : Arpcache) (l : Log) : Log :=
  match e with
  | .arp_resolve pid nxthop =>
    if nxthop = IP_BCAST ∨ nxthop = s.net.ipbcast then l
    else noteResult l nxthop (arp_resolve s pid nxthop).2
  | .wake pid =>
    match s.procs.waiting pid with
    | some w => noteResult l w.nxthop (wake s pid w).2
    | none => l
  | .arp_in p =>
    if p.arp_htype ≠ ARP_HTYPE ∨ p.arp_ptype ≠ ARP_PTYPE then l
    else { l with announced := l.announced ++ [(p.arp_sndpa, p.arp_sndha)] }
  | _ => l

/-- A process that goes on with a message other than `TIMEOUT` and `SYSERR` finds its slot resolved,
and for the address it asked for. -/
def Answered (x : Arpcache × Log) : Event → Prop
  | .wake pid => ∀ w ∈ x.1.procs.waiting pid,
      x.1.procs.result pid ≠ timeoutMsg → x.1.procs.result pid ≠ sysErrPtr →
        (x.1.arpcache w.slot).arstate = .resolved ∧ (x.1.arpcache w.slot).arpaddr = w.nxthop
  | _ => True

/-! ## 4. Soundness

The invariant is about the entries that are resolved.  A process that has been answered finds its
slot resolved and for its address, and takes the hardware address from there. -/

/-- Whatever was returned was announced. -/
def Sound (l : Log) : Prop := ∀ x ∈ l.resolved, x ∈ l.announced

/-- The invariant: an entry that is marked as resolved holds a pair that was announced. -/
structure Inv (s : Arpcache) (l : Log) : Prop where
  entries : ∀ i, (s.arpcache i).arstate = .resolved →
    ((s.arpcache i).arpaddr, (s.arpcache i).arhaddr) ∈ l.announced
  sound : Sound l

variable {f : SendFile} {s t : Arpcache} {l : Log} {ev : Event}

theorem inv_start : Inv start ⟨[], []⟩ :=
  ⟨fun i hi => absurd hi (by simp [start, Arpentry.zero]), fun x hx => absurd hx List.not_mem_nil⟩

/-- Changing the processes or the configuration. -/
theorem Inv.same (h : Inv s l) (ht : t.arpcache = s.arpcache) : Inv t l :=
  ⟨by rw [ht]; exact h.entries, h.sound⟩

/-- An entry is replaced. -/
theorem Inv.set (h : Inv s l) {slot : Int} {e : Arpentry}
    (he : e.arstate = .resolved → (e.arpaddr, e.arhaddr) ∈ l.announced) : Inv (s.set slot e) l := by
  refine ⟨fun i hi => ?_, h.sound⟩
  by_cases hs : i = slot
  · subst hs
    simp only [Arpcache.set, Function.update_self] at hi ⊢
    exact he hi
  · simp only [Arpcache.set, Function.update_of_ne hs] at hi ⊢
    exact h.entries i hi

/-- A pair that was announced is returned. -/
theorem Inv.returns (h : Inv s l) {nxthop : Nat} {mac : Hardware}
    (hm : (nxthop, mac) ∈ l.announced) : Inv s (noteResult l nxthop (some (.ok mac))) := by
  refine ⟨h.entries, fun x hx => ?_⟩
  rcases List.mem_append.mp hx with hx | hx
  · exact h.sound x hx
  · rw [List.mem_singleton.mp hx]
    exact hm

theorem search_found {addr : Nat} {i : Int} (h : search s addr = some i) :
    (s.arpcache i).arstate ≠ .free ∧ (s.arpcache i).arpaddr = addr := by
  have hf := List.find?_some h
  simpa using hf

theorem Inv.arp_resolve (h : Inv s l) (pid : Int) (nxthop : Nat) :
    Inv (arp_resolve s pid nxthop).1 (see s (.arp_resolve pid nxthop) t l) := by
  simp only [see]
  unfold Arp.arp_resolve
  by_cases hb : nxthop = IP_BCAST
  · rw [if_pos hb, if_pos (Or.inl hb)]
    exact h
  by_cases hb' : nxthop = s.net.ipbcast
  · rw [if_neg hb, if_pos hb', if_pos (Or.inr hb')]
    exact h
  rw [if_neg hb, if_neg hb', if_neg (by simp [hb, hb'])]
  cases hs : search s nxthop with
  | some i =>
    obtain ⟨hne, haddr⟩ := search_found hs
    simp only []
    split_ifs with hr
    · have hm := h.entries i hr
      rw [haddr] at hm
      exact h.returns hm
    · exact h
  | none =>
    cases arp_alloc s with
    | none => exact h
    | some slot =>
      have hset := @Inv.set _ _ h slot { Arpentry.zero with
        arstate := .pending, arpaddr := nxthop, arpid := pid } (fun hc => ArState.noConfusion hc)
      simp only []
      cases (s.procs.recvclr pid).recvtime pid ARP_TIMEOUT ⟨nxthop, slot, 0⟩ with
      | some procs => exact hset.same rfl
      | none => exact hset.same rfl

theorem Inv.wake (h : Inv s l) {pid : Int} {w : Wait}
    (hok : s.procs.result pid ≠ timeoutMsg → s.procs.result pid ≠ sysErrPtr →
      (s.arpcache w.slot).arstate = .resolved ∧ (s.arpcache w.slot).arpaddr = w.nxthop) :
    Inv (wake s pid w).1 (noteResult l w.nxthop (wake s pid w).2) := by
  unfold Arp.wake
  by_cases htime : s.procs.result pid = timeoutMsg
  · simp only [if_pos htime]
    by_cases hi : w.i + 1 < ARP_RETRY
    · simp only [if_pos hi]
      cases (s.procs.resume pid).recvtime pid ARP_TIMEOUT { w with i := w.i + 1 } with
      | some procs => exact h.same rfl
      | none => exact h.same rfl
    · simp only [if_neg hi]
      exact (h.same (t := { s with procs := s.procs.resume pid }) rfl).set
        fun hc => ArState.noConfusion hc
  · simp only [if_neg htime]
    by_cases herr : s.procs.result pid = sysErrPtr
    · simp only [if_pos herr]
      exact h.same rfl
    · simp only [if_neg herr]
      obtain ⟨hr, haddr⟩ := hok htime herr
      have hm := h.entries w.slot hr
      rw [haddr] at hm
      exact Inv.same (h.returns hm) rfl

/-- One more pair is announced. -/
theorem Inv.announce (h : Inv s l) (x : Nat × Hardware) :
    Inv s { l with announced := l.announced ++ [x] } :=
  ⟨fun i hi => List.mem_append_left _ (h.entries i hi),
    fun y hy => List.mem_append_left _ (h.sound y hy)⟩

theorem Inv.arp_in (h : Inv s l) (p : Arppacket) :
    Inv (arp_in f s p) (see s (.arp_in p) t l) := by
  unfold see Arp.arp_in
  by_cases hbad : p.arp_htype ≠ ARP_HTYPE ∨ p.arp_ptype ≠ ARP_PTYPE
  · simp only [if_pos hbad]
    exact h
  simp only [if_neg hbad]
  have hann := h.announce (p.arp_sndpa, p.arp_sndha)
  have hnew : (p.arp_sndpa, p.arp_sndha) ∈ l.announced ++ [(p.arp_sndpa, p.arp_sndha)] :=
    List.mem_append_right _ (List.mem_singleton_self _)
  cases hs : search s p.arp_sndpa with
  | some slot =>
    obtain ⟨-, haddr⟩ := search_found hs
    simp only [arp_update]
    split_ifs with hp
    · refine Inv.same (@Inv.set _ _ hann slot _ fun _ => ?_) rfl
      rw [haddr]
      exact hnew
    · refine hann.set fun _ => ?_
      rw [haddr]
      exact hnew
  | none =>
    simp only []
    split_ifs
    · exact hann
    · exact hann
    · cases arp_alloc s with
      | none => exact hann
      | some slot => exact hann.set fun _ => hnew

/-- **A step keeps the invariant**, if a process that goes on has been answered. -/
theorem Inv.step (h : Inv s l) (hok : Answered (s, l) ev) (hs : step f s ev = some t) :
    Inv t (see s ev t l) := by
  cases ev with
  | arp_resolve pid nxthop =>
    simp only [Arp.step, Option.ite_none_right_eq_some, Option.some.injEq] at hs
    obtain ⟨-, rfl⟩ := hs
    exact h.arp_resolve pid nxthop
  | wake pid =>
    simp only [Arp.step, see] at hs ⊢
    cases hw : s.procs.waiting pid with
    | none => simp [hw] at hs
    | some w =>
      rw [hw, Option.some.injEq] at hs
      subst hs
      exact h.wake (hok w hw)
  | arp_in p =>
    rw [Arp.step, Option.some.injEq] at hs
    subst hs
    exact h.arp_in p
  | send pid msg =>
    rw [Arp.step, Option.some.injEq] at hs
    subst hs
    exact h.same rfl
  | configure net =>
    rw [Arp.step, Option.some.injEq] at hs
    subst hs
    exact h.same rfl

/-- **ARP resolution is sound where the waiting processes were answered**: every hardware address
that `arp_resolve` returned for an address was announced for it.  This holds with either `send`. -/
theorem arp_resolution_sound
    (h : Reaches (watch (step f) see) Answered (start, ⟨[], []⟩) (s, l)) : Sound l := by
  have hinv := Reaches.invariant (I := fun x : Arpcache × Log => Inv x.1 x.2) h inv_start
    fun x e y hx hok hs => by
      obtain ⟨t, ht, rfl⟩ := watch_some.mp hs
      exact hx.step hok ht
  exact hinv.sound

/-! ## 5. Processes that were not answered

A message from any other process ends the wait as an answer does. -/

instance : DecidableRel Answered := fun x e => by
  cases e <;> unfold Answered <;> infer_instance

/-- A process asks for an address and gets the answer. -/
def answer : List Event :=
  [.arp_resolve 20 7, .arp_in ⟨1, 0x0800, 2, 0x001122334455, 7, 9⟩, .wake 20]

theorem arp_resolution_sound_answer :
    ∃ s l, exec (watch (step .orig) see) Answered (start, ⟨[], []⟩) answer = some (s, l) ∧
      Sound l :=
  ⟨_, _, rfl, arp_resolution_sound (f := .orig) (@reaches_of_exec _ _ _ _ _ _ _ answer rfl)⟩

/-- A process asks for an address, and before any answer another process sends it a message. -/
def strayMessage : List Event := [.arp_resolve 20 7, .send 20 5, .wake 20]

/-- With `send.c.orig` it returns the hardware address zero, though no ARP packet was received. -/
theorem arp_resolution_unsound :
    ∃ s l, exec (watch (step .orig) see) always (start, ⟨[], []⟩) strayMessage = some (s, l) ∧
      l.resolved = [(7, 0)] ∧ l.announced = [] ∧ ¬Sound l := by
  refine ⟨_, _, rfl, by decide, by decide, ?_⟩
  intro h
  exact absurd (h (7, 0) (by decide)) (by decide)

end Xinu.Arp
