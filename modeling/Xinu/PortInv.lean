/-
# What holds of the ports in every state

The semaphores of a port keep account of its queue: what the senders' semaphore has granted to those
inside `ptsend` and to those to come is the room that is left in the queue, and what the receivers'
semaphore has granted is the queue (`OpenPort`).  A reset passes through two more states, in which
the port is in limbo and the process that clears it knows what is done (`ClearOk`).

A step of the system concerns one port at most, and `PortsInv.step` says what is to be shown about
that port for the invariant to hold again.
-/
import Xinu.PortCreate
import Xinu.PortQueue

namespace Xinu

open Counting

/-! ## 1. Who is inside

Only the innermost frame of a process counts, and only while its `wait` has not failed: a process
that was released by a reset or a deletion has no claim on the queue. -/

/-- In the `wait` of a `ptsend` on the port `p` that found the sequence number `seq`. -/
def PortFrame.sends (p seq : Int) : PortFrame → Bool
  | .send p' seq' _ => p' = p ∧ seq' = seq
  | _ => false

/-- In the `wait` of such a `ptrecv`. -/
def PortFrame.receives (p seq : Int) : PortFrame → Bool
  | .recv p' seq' => p' = p ∧ seq' = seq
  | _ => false

/-- In either. -/
def PortFrame.isAt (p seq : Int) (f : PortFrame) : Bool := f.sends p seq || f.receives p seq

/-- The port that a frame is about. -/
def PortFrame.port : PortFrame → Option Int
  | .send p _ _ => some p
  | .recv p _ => some p
  | .signal _ => none
  | .dispose p _ _ => some p
  | .clearSend p _ => some p
  | .clearRecv p _ => some p

/-- The port that a process in this frame is clearing. -/
def PortFrame.clears : PortFrame → Option Int
  | .dispose p _ _ => some p
  | .clearSend p _ => some p
  | .clearRecv p _ => some p
  | _ => none

/-- The process ids. -/
def procs : Finset Int := (Finset.range NPROC.toNat).map Nat.castEmbedding

theorem mem_procs {pid : Int} : pid ∈ procs ↔ IsProc pid := by
  simp only [procs, Finset.mem_map, Finset.mem_range, Nat.castEmbedding_apply, IsProc]
  constructor
  · rintro ⟨i, hi, rfl⟩
    omega
  · rintro ⟨h1, h2⟩
    exact ⟨pid.toNat, by omega, by omega⟩

/-- The processes whose innermost frame is such, in a `wait` that has not failed. -/
def PortSys.inside (x : PortSys) (f : PortFrame → Bool) : Finset Int :=
  procs.filter fun pid => (x.frames pid).head?.any f = true ∧ x.sys.cont pid = .ret OK

/-- The ports that a process is clearing. -/
def PortSys.busy (x : PortSys) (pid : Int) : List Int := (x.frames pid).filterMap PortFrame.clears

/-- The queue of the port is intact. -/
def PortSys.live (x : PortSys) (p : Int) : Prop := (x.ports.porttab p).ptstate = .alloc ∨
  ∃ pid st w, PortFrame.dispose p st w ∈ x.frames pid

variable {x y : PortSys} {f : PortFrame} {fs : List PortFrame} {p pid : Int} {g : PortFrame → Bool}

/-- The current process is one of the table. -/
theorem KeeperInv.cur {σ : Store} (h : KeeperInv (x.sys, σ)) : IsProc x.cur := by
  have hgood := running_good h.sys.kernel.settled
  simp only [isbadpid, not_or, not_lt, ge_iff_le, not_le] at hgood
  exact ⟨hgood.1, hgood.2.1⟩

/-- It has the processor. -/
theorem KeeperInv.running {s : Sys} {σ : Store} (h : KeeperInv (s, σ)) :
    (s.k.proctab s.k.currpid).prstate = .curr :=
  h.sys.kernel.settled.running

/-- The running process waits for nothing. -/
theorem KeeperInv.cur_notMem {s : Sys} {σ : Store} {sem : Int} (h : KeeperInv (s, σ))
    {c : Counter Int} (hc : σ sem = some c) :
    s.k.currpid ∉ c.waiting := by
  intro hm
  have hw := (h.kept.waits h.ids h.sys.kernel.settled hc hm).2.1
  rw [h.running] at hw
  exact absurd hw (by simp)

theorem mem_inside : pid ∈ x.inside g ↔
    IsProc pid ∧ (x.frames pid).head?.any g = true ∧ x.sys.cont pid = .ret OK := by
  rw [PortSys.inside, Finset.mem_filter, mem_procs]

/-- **One process changes its place.** -/
theorem inside_update {c : Int} {F : List PortFrame}
    (hframes : y.frames = Function.update x.frames c F)
    (hcont : ∀ pid, pid ≠ c → x.frames pid ≠ [] → y.sys.cont pid = x.sys.cont pid)
    (hc : IsProc c) (g : PortFrame → Bool) :
    y.inside g = if F.head?.any g = true ∧ y.sys.cont c = .ret OK then Insert.insert c (x.inside g)
      else (x.inside g).erase c := by
  ext pid
  by_cases hpid : pid = c
  · subst hpid
    rw [mem_inside, hframes, Function.update_self]
    split_ifs with h
    · simp [hc, h]
    · simp [h]
  · have hsame : pid ∈ y.inside g ↔ pid ∈ x.inside g := by
      rw [mem_inside, mem_inside, hframes, Function.update_of_ne hpid]
      by_cases hnil : x.frames pid = []
      · simp [hnil]
      · rw [hcont pid hpid hnil]
    rw [hsame]
    split_ifs <;> simp [hpid]

/-! ## 2. The ledger

What cannot be read off the state: which semaphore belongs to which port, and which nodes are on
which list. -/

/-- What the invariant keeps beside the state: the counting semaphores, the port that a semaphore
belongs to, the free list, the queues, and how many nodes there are. -/
structure Ledger where
  σ : Store
  own : Int → Option Int
  fl : List Nat
  q : Int → List Nat
  size : Nat

/-- The port `p` has its two semaphores. -/
structure Holds₂ (P : Ports) (own : Int → Option Int) (p : Int) : Prop where
  sender : own (P.porttab p).ptssem = some p
  receiver : ¬ isbadsem (P.porttab p).ptrsem → own (P.porttab p).ptrsem = some p
  distinct : (P.porttab p).ptssem ≠ (P.porttab p).ptrsem

/-- **An open port**: `n` was asked for, and the semaphores have granted `n₁` to senders and `n₂` to
receivers. -/
structure OpenPort (x : PortSys) (L : Ledger) (n n₁ n₂ p : Int) : Prop where
  asked : 0 ≤ n ∧ n ≤ maxCount ∧ (x.ports.porttab p).ptmaxcnt = UInt16.ofNat n.toNat
  holds : Holds₂ x.ports L.own p
  sender : ∃ c, L.σ (x.ports.porttab p).ptssem = some c ∧
    c.Serves (x.inside (PortFrame.sends p (x.ports.porttab p).ptseq)) n₁
  receiver : (∃ c, L.σ (x.ports.porttab p).ptrsem = some c ∧
      c.Serves (x.inside (PortFrame.receives p (x.ports.porttab p).ptseq)) n₂) ∨
    isbadsem (x.ports.porttab p).ptrsem ∧
      x.inside (PortFrame.receives p (x.ports.porttab p).ptseq) = ∅

/-- What a reset needs: the count that was asked for fits the field. -/
def CountKept (P : Ports) (n p : Int) : Prop := n = (P.porttab p).ptmaxcnt.toNat

/-- The first half of a reset is done. -/
structure Emptied (P : Ports) (L : Ledger) (n p : Int) : Prop where
  fits : CountKept P n p
  holds : Holds₂ P L.own p
  sender : L.σ (P.porttab p).ptssem = some (.create (P.porttab p).ptmaxcnt.toNat)
  queue : (P.porttab p).pthead = none ∧ (P.porttab p).pttail = none

/-- What a process that clears a port knows. -/
def ClearOk (P : Ports) (L : Ledger) (asked : Int → Int) : PortFrame → Prop
  | .dispose p st _ => (P.porttab p).ptstate = .limbo ∧ Holds₂ P L.own p ∧
      (st = .alloc ∧ CountKept P (asked p) p ∨ st = .free)
  | .clearSend p st => (P.porttab p).ptstate = .limbo ∧ L.q p = [] ∧
      (st = .alloc ∧ Emptied P L (asked p) p ∨
        st = .free ∧ (¬ isbadsem (P.porttab p).ptrsem → L.own (P.porttab p).ptrsem = some p))
  | .clearRecv p st => (P.porttab p).ptstate = .limbo ∧ L.q p = [] ∧
      (st = .alloc ∧ Emptied P L (asked p) p ∧ (isbadsem (P.porttab p).ptrsem ∨
        L.σ (P.porttab p).ptrsem = some (.create 0)) ∨ st = .free)
  | _ => True

/-- **What holds of the ports**, with `n₁` and `n₂` granted at each. -/
structure PortsInv (x : PortSys) (asked : Int → Int) (L : Ledger) (n₁ n₂ : Int → Int) : Prop where
  keeper : KeeperInv (x.sys, L.σ)
  alive : ∀ pid, x.frames pid ≠ [] → IsProc pid ∧ (x.sys.k.proctab pid).prstate ≠ .free
  next : 0 ≤ x.ports.ptnextid ∧ x.ports.ptnextid < NPORTS
  range : ∀ p, isbadport p → (x.ports.porttab p).ptstate = .unset
  stored : NodesAt x.ports x.live L.fl L.q
  all : ∀ i < L.size, i ∈ L.fl ∨ ∃ p, i ∈ L.q p
  empty : ∀ p, ¬ PortInUse x.ports p → L.q p = []
  inner : ∀ pid f fs, x.frames pid = f :: fs → ∀ g ∈ fs, g.isUser = true
  waits : ∀ pid f fs, x.frames pid = f :: fs → (∃ p seq, f.isAt p seq = true) →
    x.sys.cont pid = .ret OK ∨ x.sys.cont pid = .ret SYSERR
  opened : ∀ p, (x.ports.porttab p).ptstate = .alloc → OpenPort x L (asked p) (n₁ p) (n₂ p) p
  clears : ∀ pid, ∀ f ∈ x.frames pid, ClearOk x.ports L asked f
  once : (∀ pid, (x.busy pid).Nodup) ∧ ∀ pid pid', ∀ p ∈ x.busy pid, p ∈ x.busy pid' → pid = pid'
  owned : ∀ sem p, L.own sem = some p → PortInUse x.ports p ∧ L.σ sem ≠ none ∧
    (sem = (x.ports.porttab p).ptssem ∨ sem = (x.ports.porttab p).ptrsem)
  fresh : ∀ p, (x.ports.porttab p).ptstate = .limbo → ∀ pid, ∀ f ∈ x.frames pid,
    f.isAt p (x.ports.porttab p).ptseq = false
  queued : ∀ sem p c, L.own sem = some p → L.σ sem = some c → ∀ pid ∈ c.waiting, x.frames pid ≠ []

/-- **Between the calls** the grants are the room that is left, and the queue. -/
def AtRest (x : PortSys) (asked : Int → Int) (L : Ledger) : Prop :=
  PortsInv x asked L (fun p => asked p - (L.q p).length) fun p => (L.q p).length

/-! ## 3. One port at a time

A step changes the frames of one process and the entry of one port.  `Elsewhere` collects what has
to be known of it for all other ports to stay as they are. -/

variable {asked asked' : Int → Int} {L L' : Ledger} {n₁ n₂ n₁' n₂' : Int → Int} {p₀ sem : Int}
  {F : List PortFrame}

theorem port_of_isAt {seq : Int} (h : f.isAt p seq = true) : f.port = some p := by
  cases f <;> simp_all [PortFrame.isAt, PortFrame.sends, PortFrame.receives, PortFrame.port]

theorem port_of_clears (h : f.clears = some p) : f.port = some p := by
  cases f <;> simp_all [PortFrame.clears, PortFrame.port]

theorem clearOk_of_none {P : Ports} (h : f.clears = none) : ClearOk P L asked f := by
  cases f <;> simp_all [PortFrame.clears, ClearOk]

/-- The process is in no `wait` of another port. -/
def OnlyAt (x : PortSys) (pid p₀ : Int) : Prop := ∀ p, p ≠ p₀ → ∀ seq,
  pid ∉ x.inside (PortFrame.sends p seq) ∧ pid ∉ x.inside (PortFrame.receives p seq)

/-- **Nothing happens to other ports** in a step in which the current process comes to the frames
`F`. -/
structure Elsewhere (x y : PortSys) (asked asked' : Int → Int) (L L' : Ledger) (F : List PortFrame)
    (p₀ : Int) : Prop where
  frames : y.frames = Function.update x.frames x.cur F
  cont : ∀ pid, pid ≠ x.cur → x.frames pid ≠ [] → y.sys.cont pid = x.sys.cont pid
  life : ∀ pid, pid ≠ x.cur → x.frames pid ≠ [] → (x.sys.k.proctab pid).prstate ≠ .free →
    (y.sys.k.proctab pid).prstate ≠ .free
  ports : ∀ p, p ≠ p₀ → y.ports.porttab p = x.ports.porttab p
  queue : ∀ p, p ≠ p₀ → L'.q p = L.q p
  asked : ∀ p, p ≠ p₀ → asked' p = asked p
  own : ∀ s p, p ≠ p₀ → (L'.own s = some p ↔ L.own s = some p)
  sems : ∀ s p, p ≠ p₀ → L.own s = some p → L'.σ s = L.σ s
  before : OnlyAt x x.cur p₀
  after : OnlyAt y x.cur p₀
  new : ∀ f ∈ F, f ∈ x.frames x.cur ∨ ∀ p, f.port = some p → p = p₀

/-- The same processes are inside, when the one whose frames change is not among them. -/
theorem inside_eq {c : Int} (hframes : y.frames = Function.update x.frames c F)
    (hcont : ∀ pid, pid ≠ c → x.frames pid ≠ [] → y.sys.cont pid = x.sys.cont pid)
    (hx : c ∉ x.inside g) (hy : c ∉ y.inside g) : y.inside g = x.inside g := by
  ext pid
  by_cases hpid : pid = c
  · subst hpid
    exact iff_of_false hy hx
  · rw [mem_inside, mem_inside, hframes, Function.update_of_ne hpid]
    by_cases hnil : x.frames pid = []
    · simp [hnil]
    · rw [hcont pid hpid hnil]

/-- **Nobody is inside** with a sequence number that stands in no frame. -/
theorem inside_eq_empty {seq : Int} (hno : ∀ pid, ∀ f ∈ x.frames pid, f.isAt p seq = false)
    (hg : ∀ f, g f = true → f.isAt p seq = true) : x.inside g = ∅ := by
  refine Finset.eq_empty_of_forall_notMem fun pid hm => ?_
  obtain ⟨-, hany, -⟩ := mem_inside.mp hm
  rcases hfs : x.frames pid with _ | ⟨f, fs⟩
  · simp [hfs] at hany
  · rw [hfs, List.head?_cons, Option.any_some] at hany
    have hat := hno pid f (by simp [hfs])
    rw [hg f hany] at hat
    simp at hat

theorem Holds₂.congr {P P' : Ports} {own own' : Int → Option Int} (h : Holds₂ P own p)
    (hp : P'.porttab p = P.porttab p) (ho : ∀ s, own' s = some p ↔ own s = some p) :
    Holds₂ P' own' p := by
  refine ⟨?_, fun hs => ?_, ?_⟩
  · rw [hp, ho]
    exact h.sender
  · rw [hp] at hs ⊢
    rw [ho]
    exact h.receiver hs
  · rw [hp]
    exact h.distinct

/-- What is known of the two semaphores of a port that nothing happens to. -/
theorem Elsewhere.sems_eq (he : Elsewhere x y asked asked' L L' F p₀)
    (hx : KeeperInv (x.sys, L.σ)) (hy : KeeperInv (y.sys, L'.σ)) (hp : p ≠ p₀)
    (hown : ¬ isbadsem sem → L.own sem = some p) : L'.σ sem = L.σ sem := by
  by_cases hbad : isbadsem sem
  · exact (hy.kept.inTable sem hbad).trans (hx.kept.inTable sem hbad).symm
  · exact he.sems sem p hp (hown hbad)

/-- Other open ports stay as they are, -/
theorem OpenPort.congr (h : OpenPort x L (asked p) (n₁ p) (n₂ p) p)
    (he : Elsewhere x y asked asked' L L' F p₀) (hx : KeeperInv (x.sys, L.σ))
    (hy : KeeperInv (y.sys, L'.σ)) (hp : p ≠ p₀) :
    OpenPort y L' (asked' p) (n₁ p) (n₂ p) p := by
  have hs := fun seq => inside_eq he.frames he.cont (he.before p hp seq).1 (he.after p hp seq).1
  have hr := fun seq => inside_eq he.frames he.cont (he.before p hp seq).2 (he.after p hp seq).2
  refine ⟨?_, h.holds.congr (he.ports p hp) fun s => he.own s p hp, ?_, ?_⟩
  · rw [he.asked p hp, he.ports p hp]
    exact h.asked
  · rw [he.ports p hp, hs, he.sems_eq hx hy hp fun _ => h.holds.sender]
    exact h.sender
  · rw [he.ports p hp, hr, he.sems_eq hx hy hp h.holds.receiver]
    exact h.receiver

/-- and so do those that are half reset, -/
theorem Emptied.congr (h : Emptied x.ports L (asked p) p)
    (he : Elsewhere x y asked asked' L L' F p₀)
    (hx : KeeperInv (x.sys, L.σ)) (hy : KeeperInv (y.sys, L'.σ)) (hp : p ≠ p₀) :
    Emptied y.ports L' (asked' p) p := by
  refine ⟨?_, h.holds.congr (he.ports p hp) fun s => he.own s p hp, ?_, ?_⟩
  · rw [CountKept, he.asked p hp, he.ports p hp]
    exact h.fits
  · rw [he.ports p hp, he.sems_eq hx hy hp fun _ => h.holds.sender]
    exact h.sender
  · rw [he.ports p hp]
    exact h.queue

/-- and what a process knows that clears one of them. -/
theorem ClearOk.congr (h : ClearOk x.ports L asked f) (he : Elsewhere x y asked asked' L L' F p₀)
    (hx : KeeperInv (x.sys, L.σ)) (hy : KeeperInv (y.sys, L'.σ)) (hf : f.clears = some p)
    (hp : p ≠ p₀) : ClearOk y.ports L' asked' f := by
  cases f with
  | dispose p' st w =>
    obtain rfl : p' = p := Option.some.inj hf
    obtain ⟨h1, h2, h3⟩ := h
    refine ⟨by rw [he.ports p' hp]; exact h1, h2.congr (he.ports p' hp) fun s => he.own s p' hp, ?_⟩
    rw [CountKept, he.asked p' hp, he.ports p' hp]
    exact h3
  | clearSend p' st =>
    obtain rfl : p' = p := Option.some.inj hf
    obtain ⟨h1, hq, h2⟩ := h
    refine ⟨by rw [he.ports p' hp]; exact h1, (he.queue p' hp).trans hq, h2.imp ?_ ?_⟩
    · exact fun ⟨h3, h4⟩ => ⟨h3, h4.congr he hx hy hp⟩
    · rintro ⟨h3, h4⟩
      refine ⟨h3, ?_⟩
      rw [he.ports p' hp, he.own _ p' hp]
      exact h4
  | clearRecv p' st =>
    obtain rfl : p' = p := Option.some.inj hf
    obtain ⟨h1, hq, h2⟩ := h
    refine ⟨by rw [he.ports p' hp]; exact h1, (he.queue p' hp).trans hq, h2.imp_left ?_⟩
    rintro ⟨h3, h4, h5⟩
    refine ⟨h3, h4.congr he hx hy hp, ?_⟩
    rw [he.ports p' hp, he.sems_eq hx hy hp h4.holds.receiver]
    exact h5
  | _ => exact clearOk_of_none rfl

/-- **The step rule.**  What is left to show is about the port `p₀`. -/
theorem PortsInv.step (h : PortsInv x asked L n₁ n₂) (he : Elsewhere x y asked asked' L L' F p₀)
    (hk : KeeperInv (y.sys, L'.σ))
    (hrun : F ≠ [] → (y.sys.k.proctab x.cur).prstate ≠ .free)
    (hnext : 0 ≤ y.ports.ptnextid ∧ y.ports.ptnextid < NPORTS)
    (hrange : isbadport p₀ → (y.ports.porttab p₀).ptstate = .unset)
    (hstored : NodesAt y.ports y.live L'.fl L'.q)
    (hall : ∀ i < L'.size, i ∈ L'.fl ∨ ∃ p, i ∈ L'.q p)
    (hempty : ¬ PortInUse y.ports p₀ → L'.q p₀ = [])
    (hinner : ∀ f fs, F = f :: fs → ∀ g ∈ fs, g.isUser = true)
    (hwait : ∀ f fs, F = f :: fs → (∃ p seq, f.isAt p seq = true) →
      y.sys.cont x.cur = .ret OK ∨ y.sys.cont x.cur = .ret SYSERR)
    (hn : ∀ p, p ≠ p₀ → n₁' p = n₁ p ∧ n₂' p = n₂ p)
    (hopen : (y.ports.porttab p₀).ptstate = .alloc →
      OpenPort y L' (asked' p₀) (n₁' p₀) (n₂' p₀) p₀)
    (hclear : ∀ pid, ∀ f ∈ y.frames pid, f.clears = some p₀ → ClearOk y.ports L' asked' f)
    (honce : (∀ pid, (y.busy pid).Nodup) ∧
      ∀ pid pid', ∀ p ∈ y.busy pid, p ∈ y.busy pid' → pid = pid')
    (howned : ∀ s, L'.own s = some p₀ → PortInUse y.ports p₀ ∧ L'.σ s ≠ none ∧
      (s = (y.ports.porttab p₀).ptssem ∨ s = (y.ports.porttab p₀).ptrsem))
    (hfresh : (y.ports.porttab p₀).ptstate = .limbo → ∀ pid, ∀ f ∈ y.frames pid,
      f.isAt p₀ (y.ports.porttab p₀).ptseq = false)
    (hqueued : ∀ sem c, L'.own sem = some p₀ → L'.σ sem = some c → ∀ pid ∈ c.waiting,
      y.frames pid ≠ []) :
    PortsInv y asked' L' n₁' n₂' := by
  -- a frame about another port was there before
  have hold : ∀ pid, ∀ f ∈ y.frames pid, ∀ p, f.port = some p → p ≠ p₀ → f ∈ x.frames pid := by
    intro pid f hf p hport hp
    rw [he.frames] at hf
    by_cases hpid : pid = x.cur
    · subst hpid
      rw [Function.update_self] at hf
      exact (he.new f hf).resolve_right fun hnew => hp (hnew p hport)
    · rwa [Function.update_of_ne hpid] at hf
  refine ⟨hk, fun pid hpid => ?_, hnext, fun p hp => ?_, hstored, hall, fun p hp => ?_,
    fun pid f fs hf => ?_,
    fun pid f fs hf hat => ?_, fun p hp => ?_, fun pid f hf => ?_, honce,
    fun s p hs => ?_, fun p hp pid f hf => ?_, fun s p c hs hc pid hpid => ?_⟩
  · by_cases hcur : pid = x.cur
    · subst hcur
      rw [he.frames, Function.update_self] at hpid
      exact ⟨h.keeper.cur, hrun hpid⟩
    · rw [he.frames, Function.update_of_ne hcur] at hpid
      obtain ⟨h1, h2⟩ := h.alive pid hpid
      exact ⟨h1, he.life pid hcur hpid h2⟩
  · by_cases hpp : p = p₀
    · subst hpp
      exact hrange hp
    · rw [he.ports p hpp]
      exact h.range p hp
  · by_cases hpp : p = p₀
    · subst hpp
      exact hempty hp
    · rw [PortInUse, he.ports p hpp] at hp
      rw [he.queue p hpp]
      exact h.empty p hp
  · by_cases hcur : pid = x.cur
    · subst hcur
      rw [he.frames, Function.update_self] at hf
      exact hinner f fs hf
    · rw [he.frames, Function.update_of_ne hcur] at hf
      exact h.inner pid f fs hf
  · by_cases hcur : pid = x.cur
    · subst hcur
      rw [he.frames, Function.update_self] at hf
      exact hwait f fs hf hat
    · rw [he.frames, Function.update_of_ne hcur] at hf
      rw [he.cont pid hcur (by simp [hf])]
      exact h.waits pid f fs hf hat
  · by_cases hpp : p = p₀
    · subst hpp
      exact hopen hp
    · rw [he.ports p hpp] at hp
      rw [(hn p hpp).1, (hn p hpp).2]
      exact (h.opened p hp).congr he h.keeper hk hpp
  · cases hc : f.clears with
    | none => exact clearOk_of_none hc
    | some p =>
      by_cases hpp : p = p₀
      · subst hpp
        exact hclear pid f hf hc
      · have hmem := hold pid f hf p (port_of_clears hc) hpp
        exact (h.clears pid f hmem).congr he h.keeper hk hc hpp
  · by_cases hpp : p = p₀
    · subst hpp
      exact howned s hs
    · rw [he.own s p hpp] at hs
      obtain ⟨h1, h2, h3⟩ := h.owned s p hs
      rw [PortInUse, he.ports p hpp, he.sems s p hpp hs]
      exact ⟨h1, h2, h3⟩
  · by_cases hpp : p = p₀
    · subst hpp
      exact hfresh hp pid f hf
    · rw [he.ports p hpp] at hp ⊢
      by_contra hat
      rw [Bool.not_eq_false] at hat
      have hmem := hold pid f hf p (port_of_isAt hat) hpp
      rw [h.fresh p hp pid f hmem] at hat
      exact absurd hat (by simp)
  · by_cases hpp : p = p₀
    · subst hpp
      exact hqueued s c hs hc pid hpid
    · rw [he.own s p hpp] at hs
      rw [he.sems s p hpp hs] at hc
      have hne : pid ≠ x.cur := by
        rintro rfl
        exact h.keeper.cur_notMem hc hpid
      rw [he.frames, Function.update_of_ne hne]
      exact h.queued s p c hs hc pid hpid

end Xinu
