/-
# Making a port: `ptcreate.c`

`ptcreate` needs a free port and two semaphores, and looks at the result of none of its calls of
`semcreate`.  `freeSems` are the free semaphores in the order in which `newsem` comes to them.  What
`ptcreate` returns can be used if and only if there are two of them and no other port has one of
them (`ptcreate_sound_iff`).
-/
import Xinu.Lib.RoundRobin
import Xinu.Ports
import Xinu.SemCount

namespace Xinu

open RoundRobin

variable {k : Kernel} {P : Ports} {count sem : Int}

/-! ## 1. Free semaphores

`newsem` goes round the table from where it stopped the last time, so the free semaphores have an
order. -/

/-- `newsem` accepts the entry `sem`. -/
def freeSem (k : Kernel) (sem : Int) : Bool := decide ((k.semtab sem).sstate = .free)

/-- The free semaphores, in the order in which `newsem` comes to them. -/
def freeSems (k : Kernel) : List Int := among (freeSem k) NSEM k.nextsem

theorem mem_freeSems : sem ∈ freeSems k ↔ ¬ isbadsem sem ∧ (k.semtab sem).sstate = .free := by
  rw [freeSems, mem_among, freeSem, decide_eq_true_iff, isbadsem, not_or, not_lt, not_le]

/-- The loop of `newsem` is a search. -/
theorem newsemLoop_eq (fuel : Nat) (k : Kernel) : newsemLoop fuel k =
    match search (freeSem k) NSEM fuel k.nextsem with
    | (some sem, n) => ({ k with nextsem := n }.setSem sem fun s => { s with sstate := .used }, sem)
    | (none, n) => ({ k with nextsem := n }, SYSERR) := by
  induction fuel generalizing k with
  | zero => rfl
  | succ fuel ih =>
    by_cases h : (k.semtab k.nextsem).sstate = .free
    · have hs : search (freeSem k) NSEM (fuel + 1) k.nextsem =
          (some k.nextsem, next NSEM k.nextsem) := if_pos (by simpa [freeSem] using h)
      rw [hs]
      exact if_pos h
    · have hs : search (freeSem k) NSEM (fuel + 1) k.nextsem =
          search (freeSem k) NSEM fuel (next NSEM k.nextsem) := if_neg (by simpa [freeSem] using h)
      rw [hs]
      exact (if_neg h).trans (ih _)

/-- **`semcreate` takes the first free semaphore**, and fails when there is none. -/
theorem semcreate_free (hk : 0 ≤ k.nextsem ∧ k.nextsem < NSEM) (hc : 0 ≤ count) :
    (freeSems k = [] ∧ (semcreate count k).2 = SYSERR ∧
        (semcreate count k).1.semtab = k.semtab) ∨
      ∃ sem, freeSems k = sem :: freeSems (semcreate count k).1 ∧ (semcreate count k).2 = sem ∧
        (semcreate count k).1.semtab = (k.setSem sem fun s =>
          { s with sstate := .used, scount := count }).semtab := by
  have hnew := newsemLoop_eq NSEM.toNat k
  have hhead := search_eq (p := freeSem k) hk.1 hk.2
  have hfound := fun x => @search_found (freeSem k) _ _ x hk.1 hk.2 NSEM.toNat
  unfold semcreate newsem
  rw [if_neg (by omega), hnew]
  generalize search (freeSem k) NSEM NSEM.toNat k.nextsem = r at hhead hfound ⊢
  obtain ⟨o, n⟩ := r
  cases o with
  | none =>
    refine .inl ⟨?_, by simp⟩
    exact List.head?_eq_none_iff.mp hhead.symm
  | some sem =>
    obtain ⟨hs, hfree, hn, hrest⟩ := hfound sem rfl
    have hne : sem ≠ SYSERR := by
      have : SYSERR = -1 := rfl
      omega
    obtain rfl : n = next NSEM sem := hn
    dsimp only
    rw [if_neg hne]
    refine .inr ⟨sem, hrest (freeSem _) ?_ fun y hy => ?_, rfl, ?_⟩
    · simp [freeSem, Kernel.setSem]
    · simp [freeSem, Kernel.setSem, hy]
    · simp [Kernel.setSem]

/-! ## 2. Free ports

`ptcreate` goes round the port table in the same way. -/

/-- `ptcreate` accepts the entry `portid`. -/
def freePort (P : Ports) (portid : Int) : Bool := decide ((P.porttab portid).ptstate = .free)

/-- The port that `ptcreate` comes to first. -/
def firstFree (P : Ports) : Option Int := (among (freePort P) NPORTS P.ptnextid).head?

/-- What `ptcreate` does with the port it has found. -/
def makePort (count portid n : Int) (k : Kernel) (P : Ports) : (Kernel × Ports) × Int :=
  let s := semcreate count k
  let r := semcreate 0 s.1
  ((r.1, { P with ptnextid := n }.setPort portid (Ptentry.made count s.2 r.2)), portid)

/-- The loop of `ptcreate` is a search. -/
theorem ptcreateLoop_eq (count : Int) (fuel : Nat) (k : Kernel) (P : Ports) :
    ptcreateLoop count fuel k P =
      match search (freePort P) NPORTS fuel P.ptnextid with
      | (some portid, n) => makePort count portid n k P
      | (none, n) => ((k, { P with ptnextid := n }), SYSERR) := by
  induction fuel generalizing P with
  | zero => rfl
  | succ fuel ih =>
    by_cases h : (P.porttab P.ptnextid).ptstate = .free
    · have hs : search (freePort P) NPORTS (fuel + 1) P.ptnextid =
          (some P.ptnextid, next NPORTS P.ptnextid) := if_pos (by simpa [freePort] using h)
      rw [hs]
      exact if_pos h
    · have hs : search (freePort P) NPORTS (fuel + 1) P.ptnextid =
          search (freePort P) NPORTS fuel (next NPORTS P.ptnextid) :=
        if_neg (by simpa [freePort] using h)
      rw [hs]
      exact (if_neg h).trans (ih _)

/-- **The ways `ptcreate` returns.** -/
theorem ptcreate_cases (hP : 0 ≤ P.ptnextid ∧ P.ptnextid < NPORTS) (hc : 0 ≤ count) :
    ((∀ p, ¬ isbadport p → (P.porttab p).ptstate ≠ .free) ∧
        ∃ n, (0 ≤ n ∧ n < NPORTS) ∧
          ptcreate count k P = ((k, { P with ptnextid := n }), SYSERR)) ∨
      ∃ p n, ¬ isbadport p ∧ (P.porttab p).ptstate = .free ∧ (0 ≤ n ∧ n < NPORTS) ∧
        firstFree P = some p ∧ ptcreate count k P = makePort count p n k P := by
  have hloop : ptcreate count k P = ptcreateLoop count NPORTS.toNat k P := if_neg (by omega)
  have hhead := search_eq (p := freePort P) hP.1 hP.2
  have hfound := fun x => @search_found (freePort P) _ _ x hP.1 hP.2 NPORTS.toNat
  have hlt := search_lt (p := freePort P) hP.1 hP.2 NPORTS.toNat
  rw [hloop, ptcreateLoop_eq]
  generalize search (freePort P) NPORTS NPORTS.toNat P.ptnextid = r at hhead hfound hlt ⊢
  obtain ⟨o, n⟩ := r
  cases o with
  | none =>
    refine .inl ⟨fun p hp hfree => ?_, n, hlt, rfl⟩
    have hmem : p ∈ among (freePort P) NPORTS P.ptnextid := by
      rw [mem_among, freePort, decide_eq_true_iff]
      simp only [isbadport, not_or, not_lt, not_le] at hp
      exact ⟨⟨hp.1, by omega⟩, hfree⟩
    rw [List.head?_eq_none_iff.mp hhead.symm] at hmem
    exact absurd hmem (by simp)
  | some p =>
    obtain ⟨hp, hfree, -, -⟩ := hfound p rfl
    refine .inr ⟨p, n, ?_, by simpa [freePort] using hfree, hlt, hhead.symm, rfl⟩
    simp only [isbadport]
    omega

/-! ## 3. When the port can be used

The two calls of `semcreate` return the first two of `freeSems`, or `SYSERR` where there are not
as many, and `ptcreate` stores what they return. -/

/-- The entry `portid` is not free. -/
def PortInUse (P : Ports) (portid : Int) : Prop :=
  (P.porttab portid).ptstate = .alloc ∨ (P.porttab portid).ptstate = .limbo

/-- The semaphore `sem` is allocated. -/
def Allocated (k : Kernel) (sem : Int) : Prop := ¬ isbadsem sem ∧ (k.semtab sem).sstate = .used

/-- No port in use but `portid` has the semaphore `sem`. -/
def OwnedOnly (P : Ports) (portid sem : Int) : Prop :=
    ∀ q, ¬ isbadport q → q ≠ portid → PortInUse P q →
  (P.porttab q).ptssem ≠ sem ∧ (P.porttab q).ptrsem ≠ sem

/-- **The port `portid` can be used, reset and deleted.** -/
structure Sound (k : Kernel) (P : Ports) (portid : Int) : Prop where
  port : ¬ isbadport portid ∧ (P.porttab portid).ptstate = .alloc
  distinct : (P.porttab portid).ptssem ≠ (P.porttab portid).ptrsem
  sender : Allocated k (P.porttab portid).ptssem ∧ OwnedOnly P portid (P.porttab portid).ptssem
  receiver : Allocated k (P.porttab portid).ptrsem ∧ OwnedOnly P portid (P.porttab portid).ptrsem

/-- The same semaphores and ports are allocated. -/
structure SameAllocation (k k' : Kernel) (P P' : Ports) : Prop where
  sems : ∀ s, ¬ isbadsem s → (k'.semtab s).sstate = (k.semtab s).sstate
  ports : ∀ p, ¬ isbadport p → (P'.porttab p).ptstate = (P.porttab p).ptstate

theorem makePort_porttab (count p n : Int) (k : Kernel) (P : Ports) :
    (makePort count p n k P).1.2.porttab p = Ptentry.made count (semcreate count k).2
      (semcreate 0 (semcreate count k).1).2 (P.porttab p) := setPort_same ..

theorem makePort_porttab_of_ne {count p n q : Int} (h : q ≠ p) :
    (makePort count p n k P).1.2.porttab q = P.porttab q := setPort_of_ne _ _ h

theorem not_allocated_sysErr (k : Kernel) : ¬ Allocated k SYSERR := fun h => h.1 (by decide)

theorem setSem_same (k : Kernel) (sem : Int) (f : Sentry → Sentry) :
    (k.setSem sem f).semtab sem = f (k.semtab sem) := Function.update_self ..

theorem setSem_of_ne (k : Kernel) {sem s : Int} (f : Sentry → Sentry) (h : s ≠ sem) :
    (k.setSem sem f).semtab s = k.semtab s := Function.update_of_ne h ..

/-- The two free semaphores that `semcreate` takes. -/
theorem semcreate_two (hk : 0 ≤ k.nextsem ∧ k.nextsem < NSEM) (hc : 0 ≤ count) :
    (∃ s t l, freeSems k = s :: t :: l ∧ s ≠ t ∧ (semcreate count k).2 = s ∧
        (semcreate 0 (semcreate count k).1).2 = t ∧
        Allocated (semcreate 0 (semcreate count k).1).1 s ∧
        Allocated (semcreate 0 (semcreate count k).1).1 t) ∨
      (∀ s t l, freeSems k ≠ s :: t :: l) ∧
        ((semcreate count k).2 = SYSERR ∨ (semcreate 0 (semcreate count k).1).2 = SYSERR) := by
  have hnext := (semcreate_spec hk count).1
  rcases semcreate_free hk hc with ⟨hnil, hs, -⟩ | ⟨s, hs, h2, htab⟩
  · exact .inr ⟨by simp [hnil], .inl hs⟩
  rcases semcreate_free hnext (le_refl 0) with ⟨hnil, hr, -⟩ | ⟨t, ht, h2', htab'⟩
  · exact .inr ⟨by simp [hs, hnil], .inr hr⟩
  have hl : freeSems k = s :: t :: freeSems (semcreate 0 (semcreate count k).1).1 := by
    rw [hs, ht]
  have hne : s ≠ t := by
    have hnd : (freeSems k).Nodup := nodup_among ..
    rw [hl] at hnd
    rintro rfl
    simp at hnd
  have hgood : ∀ x ∈ freeSems k, ¬ isbadsem x := fun x hx => (mem_freeSems.mp hx).1
  refine .inl ⟨s, t, _, hl, hne, h2, h2', ⟨hgood s (by simp [hl]), ?_⟩, hgood t (by simp [hl]), ?_⟩
  · rw [htab', setSem_of_ne _ _ hne, htab, setSem_same]
  · rw [htab', setSem_same]

/-- **When `ptcreate` does what it says.**  In every state of the two tables, it either fails and
leaves the allocation of both as it was, or returns a port that can be used, if and only if it
refuses the count, or no port is free, or two semaphores are free and no other port in use has one
of the first two. -/
theorem ptcreate_sound_iff (count : Int) (hk : 0 ≤ k.nextsem ∧ k.nextsem < NSEM)
    (hP : 0 ≤ P.ptnextid ∧ P.ptnextid < NPORTS) :
    ((ptcreate count k P).2 = SYSERR ∧
          SameAllocation k (ptcreate count k P).1.1 P (ptcreate count k P).1.2 ∨
        Sound (ptcreate count k P).1.1 (ptcreate count k P).1.2 (ptcreate count k P).2) ↔
      count < 0 ∨ (∀ p, ¬ isbadport p → (P.porttab p).ptstate ≠ .free) ∨
        ∃ s t l, freeSems k = s :: t :: l ∧ ∀ q, ¬ isbadport q → PortInUse P q →
          (P.porttab q).ptssem ≠ s ∧ (P.porttab q).ptrsem ≠ s ∧
          (P.porttab q).ptssem ≠ t ∧ (P.porttab q).ptrsem ≠ t := by
  by_cases hc : count < 0
  · have he : ptcreate count k P = ((k, P), SYSERR) := if_pos hc
    rw [he]
    exact iff_of_true (.inl ⟨rfl, fun _ _ => rfl, fun _ _ => rfl⟩) (.inl hc)
  rcases ptcreate_cases hP (not_lt.mp hc) with ⟨hfull, n, -, he⟩ | ⟨p, n, hp, hfree, -, -, he⟩
  · rw [he]
    exact iff_of_true (.inl ⟨rfl, fun _ _ => rfl, fun _ _ => rfl⟩) (.inr (.inl hfull))
  have hne : p ≠ SYSERR := by
    rintro rfl
    exact hp (by decide)
  have hret : (makePort count p n k P).2 = p := rfl
  have hself := makePort_porttab count p n k P
  have hothers : ∀ q, q ≠ p → (makePort count p n k P).1.2.porttab q = P.porttab q :=
    fun q hq => makePort_porttab_of_ne hq
  have hk' : (makePort count p n k P).1.1 = (semcreate 0 (semcreate count k).1).1 := rfl
  rw [he, hret, hk']
  rcases semcreate_two hk (not_lt.mp hc) with ⟨s, t, l, hl, hst, h1, h2, ha, hb⟩ | ⟨hfew, hsys⟩
  · -- what is left is who has the two semaphores
    rw [h1, h2] at hself
    have hssem : ((makePort count p n k P).1.2.porttab p).ptssem = s := by rw [hself]; rfl
    have hrsem : ((makePort count p n k P).1.2.porttab p).ptrsem = t := by rw [hself]; rfl
    have hfreep : ¬ PortInUse P p := by simp [PortInUse, hfree]
    constructor
    · rintro (⟨h, -⟩ | h)
      · exact absurd h hne
      · refine .inr (.inr ⟨s, t, l, hl, fun q hq huse => ?_⟩)
        have hqp : q ≠ p := by
          rintro rfl
          exact hfreep huse
        have huse' : PortInUse (makePort count p n k P).1.2 q := by
          rw [PortInUse, hothers q hqp]
          exact huse
        have h3 := h.sender.2 q hq hqp huse'
        have h4 := h.receiver.2 q hq hqp huse'
        rw [hothers q hqp] at h3 h4
        rw [hssem] at h3
        rw [hrsem] at h4
        exact ⟨h3.1, h3.2, h4.1, h4.2⟩
    · rintro (h | h | ⟨s', t', l', hl', hown⟩)
      · exact absurd h hc
      · exact absurd hfree (h p hp)
      · rw [hl, List.cons.injEq, List.cons.injEq] at hl'
        obtain ⟨rfl, rfl, -⟩ := hl'
        have hown' : ∀ q, ¬ isbadport q → q ≠ p → PortInUse (makePort count p n k P).1.2 q →
            PortInUse P q := by
          intro q _ hqp huse
          rw [PortInUse, hothers q hqp] at huse
          exact huse
        refine .inr ⟨⟨hp, by rw [hself]; rfl⟩, by rw [hssem, hrsem]; exact hst, ⟨?_, ?_⟩, ?_, ?_⟩
        · rw [hssem]
          exact ha
        · intro q hq hqp huse
          rw [hssem, hothers q hqp]
          have := hown q hq (hown' q hq hqp huse)
          exact ⟨this.1, this.2.1⟩
        · rw [hrsem]
          exact hb
        · intro q hq hqp huse
          rw [hrsem, hothers q hqp]
          exact (hown q hq (hown' q hq hqp huse)).2.2
  · -- one of the two calls has failed
    refine iff_of_false ?_ ?_
    · rintro (⟨h, -⟩ | h)
      · exact hne h
      · have h1 := h.sender.1
        have h2 := h.receiver.1
        rw [hself] at h1 h2
        rcases hsys with hsys | hsys
        · exact not_allocated_sysErr _ (hsys ▸ h1)
        · exact not_allocated_sysErr _ (hsys ▸ h2)
    · rintro (h | h | ⟨s, t, l, hl, -⟩)
      · exact hc h
      · exact h p hp hfree
      · exact hfew s t l hl

/-- The port table after `ptinit(10)`. -/
def tenMessages : Ports := ptinit 10 ⟨fun _ => ⟨0, none⟩, none, fun _ => zeroPort, 0⟩

theorem ptcreate_sound_iff_first : Sound (ptcreate 5 (bss xinuImage bootHeap) tenMessages).1.1
    (ptcreate 5 (bss xinuImage bootHeap) tenMessages).1.2
    (ptcreate 5 (bss xinuImage bootHeap) tenMessages).2 := by
  have hfree : freeSems (bss xinuImage bootHeap) =
      0 :: 1 :: (freeSems (bss xinuImage bootHeap)).drop 2 := by decide +kernel
  have hnone : ∀ q, ¬ isbadport q → ¬ PortInUse tenMessages q := by
    intro q hq
    simp [PortInUse, tenMessages, ptinit_porttab hq]
  have hval : (ptcreate 5 (bss xinuImage bootHeap) tenMessages).2 ≠ SYSERR := by decide +kernel
  have h := (ptcreate_sound_iff (k := bss xinuImage bootHeap) (P := tenMessages) 5 (by decide)
    (by decide +kernel)).mpr
    (.inr (.inr ⟨0, 1, _, hfree, fun q hq huse => absurd huse (hnone q hq)⟩))
  exact h.resolve_left fun e => hval e.1

/-- The first process makes semaphores until one is left, and initializes the ports. -/
def lastSemaphore : List PortEvent :=
  .base (makeMain 20) ::
    (List.replicate 99 [.base (.call (.semcreate 0)), .base .finish]).flatten ++ [.ptinit 10]

/-- **`ptcreate` returns half a port** when one semaphore is left. -/
theorem ptcreate_half_made : ∃ x, PortsReach Runs.always x ∧ x.1.mayCall ∧
    (ptcreate 5 x.1.sys.k x.1.ports).2 = 0 ∧
    ((ptcreate 5 x.1.sys.k x.1.ports).1.2.porttab 0).ptssem = 99 ∧
    ((ptcreate 5 x.1.sys.k x.1.ports).1.2.porttab 0).ptrsem = SYSERR ∧
    ¬ ((ptcreate 5 x.1.sys.k x.1.ports).2 = SYSERR ∧
      SameAllocation x.1.sys.k (ptcreate 5 x.1.sys.k x.1.ports).1.1 x.1.ports
        (ptcreate 5 x.1.sys.k x.1.ports).1.2) ∧
    ¬ Sound (ptcreate 5 x.1.sys.k x.1.ports).1.1 (ptcreate 5 x.1.sys.k x.1.ports).1.2
      (ptcreate 5 x.1.sys.k x.1.ports).2 := by
  have hrun : (portsFromBoot Runs.always lastSemaphore).map (fun x => decide (x.1.mayCall ∧
      (ptcreate 5 x.1.sys.k x.1.ports).2 = 0 ∧
      ((ptcreate 5 x.1.sys.k x.1.ports).1.2.porttab 0).ptssem = 99 ∧
      ((ptcreate 5 x.1.sys.k x.1.ports).1.2.porttab 0).ptrsem = SYSERR)) = some true := by
    decide +kernel
  obtain ⟨x, hx, hp⟩ := Option.map_eq_some_iff.mp hrun
  obtain ⟨hcall, hret, hs, hr⟩ := of_decide_eq_true hp
  refine ⟨x, portsReach_portsFromBoot hx, hcall, hret, hs, hr, fun h => ?_, fun h => ?_⟩
  · rw [hret] at h
    exact absurd h.1 (by decide)
  · have hrecv := h.receiver.1
    rw [hret, hr] at hrecv
    exact not_allocated_sysErr _ hrecv

end Xinu
