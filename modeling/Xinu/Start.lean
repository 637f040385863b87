/-
# Two ways to start a process

`rcreate` is a copy of `create` with a call of `ready` at its end, so it should do what `create`
and `resume` do.  The copies have drifted apart: each file has a `newpid` with a `nextpid` of its
own, and only `create` clears the callback fields and the header of the in-use list.

`start` is what both amount to (`rcreate_eq`, `createResume_eq`); they differ in the counter they
use and in what they clear.  From that follows when they leave the same state
(`rcreate_agrees_iff`), and when a new process finds nothing of the process that used its entry
before.

The comparison is of whole states, not of what can be observed of them: the two calls agree when
table, memory and counters are equal afterwards.  That leaves few cases, and each of them is
settled by one question: whether the counters come round, and whether the entry that is used is
blank.
-/
import Xinu.Mail

namespace Xinu

open Runs ByteMemory

variable {strict : Prop} {k k' : Kernel} {p q : Int}

/-! ## 1. What the two amount to

Both are brought into one form, with the counter and the clearing as parameters.  `resume` of the
process that `create` has just suspended is `ready`, so the order of the two calls plays no part. -/

/-- `create(...)`, then `resume` of the pid it returns. -/
def createResume (funcaddr ssize : Nat) (priority : Pri16) (name : Nat → UInt8) (args : List Nat)
    (k : Kernel) : Option (Kernel × Int) := do
  let (k, pid) ← create funcaddr ssize priority name args k
  let (k, _) ← resume pid k
  return (k, pid)

/-- Make a process and make it ready. -/
def start (fill : Int → Kernel → Kernel) (funcaddr ssize : Nat) (priority : Pri16)
    (name : Nat → UInt8) (args : List Nat) (pid : Int) (k : Kernel) : Option (Kernel × Int) := do
  let (k, pid) ← makeProc fill funcaddr ssize priority name args pid k
  if pid = SYSERR then return (k, SYSERR)
  let (k, _) ← ready pid k
  return (k, pid)

/-- What `rcreate` does where `create` clears: nothing. -/
abbrev rcreateFill (_ : Int) (k : Kernel) : Kernel := k

/-- `k` with the `nextpid` of `rcreate.c` moved on. -/
def Kernel.rcreateTurn (k : Kernel) : Kernel :=
  { k with rcreateNextpid := (newpid k.proctab k.rcreateNextpid).2 }

/-- `k` with the `nextpid` of `create.c` moved on. -/
def Kernel.createTurn (k : Kernel) : Kernel :=
  { k with createNextpid := (newpid k.proctab k.createNextpid).2 }

theorem rcreate_eq {f n : Nat} {prio : Pri16} {nm : Nat → UInt8} {as : List Nat}
    (hp : ¬ prio.val < 1) : rcreate f n prio nm as k = start rcreateFill f (stackSize n) prio nm as
      (newpid k.proctab k.rcreateNextpid).1 k.rcreateTurn := by
  unfold rcreate start Kernel.rcreateTurn
  rw [if_neg hp]

theorem newpid_spec (tab : Int → Procent) {n : Int} (hn : 0 ≤ n) :
    0 ≤ (newpid tab n).2 ∧ ((newpid tab n).1 ≠ SYSERR →
      IsProc (newpid tab n).1 ∧ (tab (newpid tab n).1).prstate = .free) :=
  newpidLoop_spec tab NPROC.toNat hn

/-- `resume` of a suspended process is `ready`. -/
theorem resume_susp {pid : Int} (hgood : ¬ isbadpid k pid)
    (hs : (k.proctab pid).prstate = .susp) :
    resume pid k = (ready pid k).map fun r => (r.1, (k.proctab pid).prprio.val) := by
  unfold resume
  rw [if_neg hgood, if_neg (by simp [hs])]
  cases ready pid k <;> rfl

theorem createResume_eq (h : KernelInv strict k) {f n : Nat} {prio : Pri16} {nm : Nat → UInt8}
    {as : List Nat} (hp : ¬ prio.val < 1) :
    createResume f n prio nm as k = start createFill f (stackSize n) prio nm as
      (newpid k.proctab k.createNextpid).1 k.createTurn := by
  have hpid := newpid_spec k.proctab h.nextpid.1
  have hinv : KernelInv strict k.createTurn := h.setCreateNextpid hpid.1
  have hc : create f n prio nm as k = makeProc createFill f (stackSize n) prio nm as
      (newpid k.proctab k.createNextpid).1 k.createTurn := by
    unfold create Kernel.createTurn
    rw [if_neg hp]
  unfold createResume start
  rw [hc]
  generalize hm : makeProc createFill f (stackSize n) prio nm as
    (newpid k.proctab k.createNextpid).1 k.createTurn = m
  cases m with
  | none => rfl
  | some r =>
    simp only [Option.bind_eq_bind, Option.bind_some]
    split_ifs with hr
    · have hbad : isbadpid r.1 r.2 := Or.inl (by rw [hr]; decide)
      have hres : resume r.2 r.1 = some (r.1, SYSERR) := by
        unfold resume
        rw [if_pos hbad]
      rw [hres, hr]
      rfl
    · obtain ⟨-, hs, -⟩ := makeProc_spec hinv (createFill_bland _) hpid.2 hm
      obtain ⟨hgood, hsusp, -⟩ := hs hr
      rw [resume_susp hgood hsusp]
      cases ready r.2 r.1 <;> rfl

/-! ## 2. How a start can end

No entry is free, no stack is found, the search for one never ends, or a process is made. -/

variable {fill : Int → Kernel → Kernel} {f n : Nat} {prio : Pri16} {nm : Nat → UInt8}
  {as : List Nat} {pid : Int} {heap : Heap} {saddr : Nat}

theorem getstk_heap (n : Nat) (k : Kernel) :
    k.getstk n = (Xinu.getstk n k.heap).map fun r => (k.setHeap r.1, r.2) := by
  unfold Kernel.getstk
  cases Xinu.getstk n k.heap <;> rfl

theorem start_noPid : start fill f n prio nm as SYSERR k = some (k, SYSERR) := by
  unfold start makeProc
  rw [if_pos rfl]
  rfl

/-- The free list never ends. -/
theorem start_endless (hp : pid ≠ SYSERR) (hg : getstk n k.heap = none) :
    start fill f n prio nm as pid k = none := by
  unfold start makeProc
  rw [if_neg hp, getstk_heap, hg]
  rfl

theorem start_noStack (hp : pid ≠ SYSERR) (hg : getstk n k.heap = some (heap, sysErrPtr)) :
    start fill f n prio nm as pid k = some (k.setHeap heap, SYSERR) := by
  unfold start makeProc
  rw [if_neg hp, getstk_heap, hg]
  rfl

variable (fill f prio nm as) in
/-- The new process, before it is made ready. -/
theorem makeProc_found (hp : pid ≠ SYSERR) (hg : getstk n k.heap = some (heap, saddr))
    (ha : saddr ≠ sysErrPtr) : makeProc fill f n prio nm as pid k =
      some (setupProc fill f n prio nm as pid saddr (k.setHeap heap), pid) := by
  unfold makeProc
  rw [if_neg hp, getstk_heap, hg]
  simp [ha]

variable (fill f prio nm as) in
theorem start_found (h : KernelInv strict k) (hfill : ∀ k, Bland k (fill pid k))
    (hproc : IsProc pid) (hfree : (k.proctab pid).prstate = .free)
    (hg : getstk n k.heap = some (heap, saddr)) (ha : saddr ≠ sysErrPtr) :
    ∃ k', ready pid (setupProc fill f n prio nm as pid saddr (k.setHeap heap)) = some (k', OK) ∧
      start fill f n prio nm as pid k = some (k', pid) := by
  have hp : pid ≠ SYSERR := by
    have := hproc.1
    rintro rfl
    simp at this
  have hm := makeProc_found fill f prio nm as hp hg ha
  obtain ⟨hinv, hs, -⟩ := makeProc_spec h hfill (fun _ => ⟨hproc, hfree⟩) hm
  obtain ⟨hgood, hsusp, -⟩ := hs hp
  simp only at hinv hgood hsusp
  obtain ⟨qs, hpl⟩ := hinv.settled.placed
  obtain ⟨k', hr, -, -⟩ := ready_settled (hpl.depart hproc (by simp [home, hsusp])) hgood
    (by rw [hsusp]; simp) hinv.settled.open_
  refine ⟨k', hr, ?_⟩
  unfold start
  rw [hm]
  simp [hp, hr]

/-! ## 3. What is written into a new entry and its stack

`create` clears fields of the entry and the header of its in-use list, and then both build the
stack.  Where the stack covers the header the difference disappears again. -/

/-- Building a stack reads nothing. -/
theorem buildStack_blind (saddr funcaddr userret : Nat) (args : List Nat) :
    Blind (fun m => (buildStack saddr funcaddr userret args m).1) ∧
      ∀ m m', (buildStack saddr funcaddr userret args m).2 =
        (buildStack saddr funcaddr userret args m').2 := by
  obtain ⟨savsp, h₁⟩ : ∃ savsp, ∀ m,
      (pushAll m saddr (args.reverse ++ [userret, funcaddr, saddr])).2 = savsp :=
    ⟨_, fun m => pushAll_snd_congr m (fun _ => 0) _ _⟩
  obtain ⟨pushsp, h₂⟩ : ∃ pushsp, ∀ m, (pushAll m savsp [0x200, 0, 0, 0, 0, 0]).2 = pushsp :=
    ⟨_, fun m => pushAll_snd_congr m (fun _ => 0) _ _⟩
  obtain ⟨sp, h₃⟩ : ∃ sp, ∀ m, (pushAll m pushsp [savsp, 0, 0]).2 = sp :=
    ⟨_, fun m => pushAll_snd_congr m (fun _ => 0) _ _⟩
  have hpush := (Blind.pushAll pushsp [savsp, 0, 0]).comp
    ((Blind.pushAll savsp [0x200, 0, 0, 0, 0, 0]).comp
      ((Blind.pushAll saddr (args.reverse ++ [userret, funcaddr, saddr])).comp
        (Blind.store saddr STACKMAGIC)))
  have he : ∀ m, buildStack saddr funcaddr userret args m =
      (store (pushAll (pushAll (pushAll (store m saddr STACKMAGIC) saddr
        (args.reverse ++ [userret, funcaddr, saddr])).1 savsp [0x200, 0, 0, 0, 0, 0]).1 pushsp
          [savsp, 0, 0]).1 pushsp sp, sp) := by
    intro m
    obtain ⟨r₁, r₂, r₃, e₁, e₂, e₃, he⟩ := buildStack_eq saddr funcaddr userret args m
    have g₁ : r₁.2 = savsp := by rw [e₁]; exact h₁ _
    have g₂ : r₂.2 = pushsp := by rw [e₂, g₁]; exact h₂ _
    have g₃ : r₃.2 = sp := by rw [e₃, g₁, g₂]; exact h₃ _
    rw [he, g₂, g₃, e₃, g₁, g₂, e₂, g₁, e₁]
  refine ⟨fun x => ?_, fun m m' => by rw [he, he]⟩
  simp only [Spares, he]
  exact (Blind.store pushsp sp).comp hpush x

/-- The bytes of the header of an in-use list. -/
def InHeader (hdptr x : Nat) : Prop := ∃ i < inuseSize, x = (hdptr + i) % addrSpace

theorem resetHeader_outside {hdptr x : Nat} {m : Mem} (h : ¬ InHeader hdptr x) :
    resetHeader hdptr m x = m x := by
  have hne : ∀ i < 12, x ≠ (hdptr + i) % addrSpace := fun i hi e => h ⟨i, hi, e⟩
  have h4 : ∀ j < 4, x ≠ (hdptr + 4 + j) % addrSpace := fun j hj => by
    rw [Nat.add_assoc]
    exact hne _ (by omega)
  have h8 : ∀ j < 4, x ≠ (hdptr + 8 + j) % addrSpace := fun j hj => by
    rw [Nat.add_assoc]
    exact hne _ (by omega)
  rw [resetHeader, store_outside h8, store_outside h4,
    store_outside fun j hj => hne j (by omega)]

theorem resetHeader_inside {hdptr x : Nat} {m : Mem} (h : InHeader hdptr x) :
    resetHeader hdptr m x = 0 := by
  obtain ⟨i, hi, hx⟩ := h
  have hlast : i < 12 := hi
  rw [resetHeader]
  by_cases h8 : ∃ j < 4, x = (hdptr + 8 + j) % addrSpace
  · obtain ⟨j, hj, hx⟩ := h8
    exact store_zero_inside hj hx
  rw [store_outside fun j hj e => h8 ⟨j, hj, e⟩]
  by_cases h4 : ∃ j < 4, x = (hdptr + 4 + j) % addrSpace
  · obtain ⟨j, hj, hx⟩ := h4
    exact store_zero_inside hj hx
  rw [store_outside fun j hj e => h4 ⟨j, hj, e⟩]
  have hlt : i < 4 := by
    by_contra hge
    by_cases hlow : i < 8
    · exact h4 ⟨i - 4, by omega, by rw [hx, show hdptr + i = hdptr + 4 + (i - 4) by omega]⟩
    · exact h8 ⟨i - 8, by omega, by rw [hx, show hdptr + i = hdptr + 8 + (i - 8) by omega]⟩
  exact store_zero_inside hlt hx

/-- **A blank entry**: nothing that only `create` clears is left in it, nor in the header of the
in-use list as far as the new stack does not cover it. -/
structure Blank (e : Procent) (m : Mem) (saddr funcaddr userret : Nat) (args : List Nat) :
    Prop where
  prcbvalid : e.prcbvalid = 0
  prcbptr : e.prcbptr = 0
  prmbufptr : e.prmbufptr = 0
  prtmpbuf : e.prtmpbuf = 0
  prtmpvalid : e.prtmpvalid = 0
  header : ∀ x, Spares (fun m => (buildStack saddr funcaddr userret args m).1) x →
    InHeader e.prheaphd x → m x = 0

/-- The table entry of a new process, before the two differ. -/
def enrol (n : Nat) (prio : Pri16) (nm : Nat → UInt8) (pid : Int) (saddr : Nat) (k : Kernel) :
    Kernel :=
  { k with prcount := k.prcount + 1 }.setProc pid (initProc saddr n prio nm k.currpid)

/-- What the two do after they differ. -/
def placeStack (f : Nat) (as : List Nat) (pid : Int) (saddr : Nat) (k : Kernel) : Kernel :=
  let r := buildStack saddr f k.image.userret as k.heap.mem
  (k.setHeap { k.heap with mem := r.1 }).setProc pid fun p => { p with prstkptr := r.2 }

theorem setupProc_eq (k : Kernel) : setupProc fill f n prio nm as pid saddr k =
    placeStack f as pid saddr (fill pid (enrol n prio nm pid saddr k)) := rfl

theorem placeStack_mem (k : Kernel) : (placeStack f as pid saddr k).heap.mem =
    (buildStack saddr f k.image.userret as k.heap.mem).1 := rfl

variable (f as pid saddr) in
theorem placeStack_entry (k : Kernel) : ∃ sp, (placeStack f as pid saddr k).proctab pid =
    { k.proctab pid with prstkptr := sp } := by
  refine ⟨(buildStack saddr f k.image.userret as k.heap.mem).2, ?_⟩
  unfold placeStack
  rw [setProc_same]
  rfl

/-- Where the stack covers the difference of two memories, it makes no difference. -/
theorem placeStack_congr (k : Kernel) (m : Mem) (h : (buildStack saddr f k.image.userret as m).1 =
      (buildStack saddr f k.image.userret as k.heap.mem).1) :
    placeStack f as pid saddr (k.setHeap { k.heap with mem := m }) =
      placeStack f as pid saddr k := by
  have hsp := (buildStack_blind saddr f k.image.userret as).2 m k.heap.mem
  unfold placeStack
  simp only [setHeap_heap]
  have himage : (k.setHeap { k.heap with mem := m }).image = k.image := rfl
  rw [himage, h, hsp]
  rfl

/-- The entry after `enrol` keeps what only `create` clears. -/
theorem enrol_entry (n : Nat) (prio : Pri16) (nm : Nat → UInt8) (pid : Int) (saddr : Nat)
    (k : Kernel) : (enrol n prio nm pid saddr k).proctab pid =
      initProc saddr n prio nm k.currpid (k.proctab pid) := setProc_same _ _ _

/-- Two memories look the same under the stack if and only if `create` clears nothing. -/
theorem mem_alike_iff (hdptr u : Nat) (m : Mem) :
    (buildStack saddr f u as (resetHeader hdptr m)).1 =
      (buildStack saddr f u as m).1 ↔
    ∀ x, Spares (fun m => (buildStack saddr f u as m).1) x → InHeader hdptr x → m x = 0 := by
  refine ((buildStack_blind saddr f u as).1.eq_iff (m := resetHeader hdptr m)).trans
    (forall₂_congr fun x _ => ?_)
  by_cases hx : InHeader hdptr x
  · simp [resetHeader_inside hx, hx, eq_comm]
  · simp [resetHeader_outside hx, hx]

theorem setProc_id {f : Procent → Procent} (h : f (k.proctab p) = k.proctab p) :
    k.setProc p f = k := by
  unfold Kernel.setProc
  rw [h, Function.update_eq_self]

/-- **A blank entry is set up alike by both.** -/
theorem setup_eq (hb : Blank (k.proctab pid) k.heap.mem saddr f k.image.userret as) :
    setupProc createFill f n prio nm as pid saddr k =
      setupProc rcreateFill f n prio nm as pid saddr k := by
  rw [setupProc_eq, setupProc_eq]
  have hentry := enrol_entry n prio nm pid saddr k
  have hcb : initCallback ((enrol n prio nm pid saddr k).proctab pid) =
      (enrol n prio nm pid saddr k).proctab pid := by
    rw [hentry]
    simp only [initCallback, initProc, hb.prcbvalid, hb.prcbptr, hb.prmbufptr, hb.prtmpbuf,
      hb.prtmpvalid]
  have hhd : ((enrol n prio nm pid saddr k).proctab pid).prheaphd = (k.proctab pid).prheaphd := by
    rw [hentry]
    rfl
  have hfill : createFill pid (enrol n prio nm pid saddr k) =
      (enrol n prio nm pid saddr k).setHeap { (enrol n prio nm pid saddr k).heap with
        mem := resetHeader (k.proctab pid).prheaphd k.heap.mem } := by
    unfold createFill
    rw [hhd]
    exact setProc_id hcb
  rw [hfill]
  exact placeStack_congr _ _ ((mem_alike_iff _ _ _).mpr hb.header)

variable (f n prio nm as pid saddr) in
/-- What `create` leaves in the message fields and in memory. -/
theorem setup_create (k : Kernel) :
    ((setupProc createFill f n prio nm as pid saddr k).proctab pid).mail =
      (initCallback (initProc saddr n prio nm k.currpid (k.proctab pid))).mail ∧
    (setupProc createFill f n prio nm as pid saddr k).heap.mem =
      (buildStack saddr f k.image.userret as
        (resetHeader (k.proctab pid).prheaphd k.heap.mem)).1 := by
  have hentry := enrol_entry n prio nm pid saddr k
  obtain ⟨sp, hsp⟩ := placeStack_entry f as pid saddr
    (createFill pid (enrol n prio nm pid saddr k))
  refine ⟨?_, ?_⟩
  · rw [setupProc_eq, hsp, createFill, setProc_same, setHeap_proctab, hentry]
    rfl
  · rw [setupProc_eq, placeStack_mem, createFill, hentry]
    rfl

variable (f n prio nm as pid saddr) in
/-- What `rcreate` leaves there. -/
theorem setup_rcreate (k : Kernel) :
    ((setupProc rcreateFill f n prio nm as pid saddr k).proctab pid).mail =
      (initProc saddr n prio nm k.currpid (k.proctab pid)).mail ∧
    (setupProc rcreateFill f n prio nm as pid saddr k).heap.mem =
      (buildStack saddr f k.image.userret as k.heap.mem).1 := by
  obtain ⟨sp, hsp⟩ := placeStack_entry f as pid saddr
    (enrol n prio nm pid saddr k)
  refine ⟨?_, rfl⟩
  rw [setupProc_eq, hsp, enrol_entry]
  rfl

/-- **Only a blank entry is set up alike.** -/
theorem blank_of_setup
    (hmem : (setupProc createFill f n prio nm as pid saddr k).heap.mem =
      (setupProc rcreateFill f n prio nm as pid saddr k).heap.mem)
    (hmail : ((setupProc createFill f n prio nm as pid saddr k).proctab pid).mail =
      ((setupProc rcreateFill f n prio nm as pid saddr k).proctab pid).mail) :
    Blank (k.proctab pid) k.heap.mem saddr f k.image.userret as := by
  obtain ⟨hc₁, hc₂⟩ := setup_create f n prio nm as pid saddr k
  obtain ⟨hr₁, hr₂⟩ := setup_rcreate f n prio nm as pid saddr k
  rw [hc₁, hr₁] at hmail
  rw [hc₂, hr₂] at hmem
  exact ⟨(congrArg Mail.prcbvalid hmail).symm, (congrArg Mail.prcbptr hmail).symm,
    (congrArg Mail.prmbufptr hmail).symm, (congrArg Mail.prtmpbuf hmail).symm,
    (congrArg Mail.prtmpvalid hmail).symm, (mem_alike_iff _ _ _).mp hmem⟩

/-! ## 4. The two counters

Each `newpid` counts from where it stopped the last time.  A call moves one counter and leaves the
other, so the states can agree only if the moved one ends where it was. -/

/-- The loop of `newpid`: what it finds is the first free entry from `n` on. -/
theorem newpidLoop_found (tab : Int → Procent) (fuel : Nat) {n : Int} (hn : 0 ≤ n)
    (hfuel : 0 < fuel) :
    (∃ i : Int, 0 ≤ i ∧ i < fuel ∧ newpidLoop tab fuel n = ((n + i) % NPROC, (n + i) % NPROC + 1) ∧
      (tab ((n + i) % NPROC)).prstate = .free ∧
      ∀ j, 0 ≤ j → j < i → (tab ((n + j) % NPROC)).prstate ≠ .free) ∨
    (newpidLoop tab fuel n = (SYSERR, (n + fuel - 1) % NPROC + 1) ∧
      ∀ j : Int, 0 ≤ j → j < fuel → (tab ((n + j) % NPROC)).prstate ≠ .free) := by
  induction fuel generalizing n with
  | zero => simp at hfuel
  | succ fuel ih =>
    have hmod : n.tmod NPROC = n % NPROC := Int.tmod_eq_emod_of_nonneg hn
    unfold newpidLoop
    simp only [hmod]
    split_ifs with hf
    · refine Or.inl ⟨0, le_rfl, by omega, by simp, by simpa using hf, fun j h1 h2 => by omega⟩
    · have hnext : ∀ i : Int, (n % NPROC + 1 + i) % NPROC = (n + (i + 1)) % NPROC := fun i => by
        simp only [NPROC]
        omega
      have hfirst : ∀ j : Int, 0 ≤ j → ¬ 1 ≤ j → (tab ((n + j) % NPROC)).prstate ≠ .free := by
        intro j h1 h2
        obtain rfl : j = 0 := by omega
        simpa using hf
      rcases Nat.eq_zero_or_pos fuel with rfl | hpos
      · refine Or.inr ⟨by simp [newpidLoop], fun j h1 h2 => hfirst j h1 (by omega)⟩
      rcases ih (n := n % NPROC + 1) (by simp only [NPROC]; omega) hpos with
        ⟨i, h1, h2, h3, h4, h5⟩ | ⟨h1, h2⟩
      · refine Or.inl ⟨i + 1, by omega, by omega, by rw [h3, hnext], by rw [← hnext]; exact h4,
          fun j g1 g2 => ?_⟩
        by_cases hj : 1 ≤ j
        · have := h5 (j - 1) (by omega) (by omega)
          rwa [hnext, Int.sub_add_cancel] at this
        · exact hfirst j g1 hj
      · refine Or.inr ⟨?_, fun j g1 g2 => ?_⟩
        · have := hnext (fuel - 1)
          rw [h1, show n % NPROC + 1 + (fuel : Int) - 1 = n % NPROC + 1 + (fuel - 1) by omega, this,
            Int.sub_add_cancel]
          simp only [Nat.cast_add, Nat.cast_one]
          rw [show n + ((fuel : Int) + 1) - 1 = n + fuel by omega]
        · by_cases hj : 1 ≤ j
          · have := h2 (j - 1) (by omega) (by omega)
            rwa [hnext, Int.sub_add_cancel] at this
          · exact hfirst j g1 hj

/-- **`newpid` leaves its counter where it was** if and only if the counter is in its range and
no entry is free but, perhaps, the one it points behind. -/
def ComesRound (k : Kernel) (n : Int) : Prop :=
  1 ≤ n ∧ n ≤ NPROC ∧ ∀ q, IsProc q → (k.proctab q).prstate = .free → q = n - 1

theorem newpid_found (tab : Int → Procent) {n : Int} (hn : 0 ≤ n) :
    (∃ i : Int, 0 ≤ i ∧ i < NPROC ∧ newpid tab n = ((n + i) % NPROC, (n + i) % NPROC + 1) ∧
      (tab ((n + i) % NPROC)).prstate = .free ∧
      ∀ j, 0 ≤ j → j < i → (tab ((n + j) % NPROC)).prstate ≠ .free) ∨
    (newpid tab n = (SYSERR, (n + NPROC - 1) % NPROC + 1) ∧
      ∀ q, IsProc q → (tab q).prstate ≠ .free) := by
  rcases newpidLoop_found tab NPROC.toNat hn (by decide) with ⟨i, h1, h2, h3⟩ | ⟨h1, h2⟩
  · exact Or.inl ⟨i, h1, h2, h3⟩
  · refine Or.inr ⟨h1, fun q hq => ?_⟩
    obtain ⟨hq0, hq1⟩ := hq
    have := h2 ((q - n) % NPROC) (by simp only [NPROC]; omega) (by
      have : ((NPROC.toNat : Nat) : Int) = NPROC := by decide
      rw [this]
      simp only [NPROC]
      omega)
    rwa [show (n + (q - n) % NPROC) % NPROC = q by simp only [NPROC] at *; omega] at this

theorem comesRound_iff {n : Int} (hn : 0 ≤ n) : (newpid k.proctab n).2 = n ↔ ComesRound k n := by
  rcases newpid_found k.proctab hn with ⟨i, h1, h2, h3, h4, h5⟩ | ⟨h1, h2⟩
  · rw [h3]
    simp only
    constructor
    · intro he
      refine ⟨by simp only [NPROC] at *; omega, by simp only [NPROC] at *; omega, fun q hq hf => ?_⟩
      by_contra hne
      obtain ⟨hq0, hq1⟩ := hq
      refine h5 ((q - n) % NPROC) (by simp only [NPROC]; omega)
        (by simp only [NPROC] at *; omega) ?_
      rwa [show (n + (q - n) % NPROC) % NPROC = q by simp only [NPROC] at *; omega]
    · rintro ⟨hlo, hhi, honly⟩
      rw [honly _ ⟨by simp only [NPROC]; omega, by simp only [NPROC]; omega⟩ h4]
      omega
  · rw [h1]
    simp only
    constructor
    · intro he
      exact ⟨by simp only [NPROC] at *; omega, by simp only [NPROC] at *; omega,
        fun q hq hf => absurd hf (h2 q hq)⟩
    · rintro ⟨hlo, hhi, -⟩
      simp only [NPROC] at *
      omega

/-! ## 5. When the two agree

The cases of section 2, each with the answer for it. -/

/-- Some entry is free. -/
def HasFree (k : Kernel) : Prop := ∃ q, IsProc q ∧ (k.proctab q).prstate = .free

/-- **When `rcreate` leaves the state that `create` and `resume` leave**: the priority is bad, or
neither of them returns, or both counters end where they were and the new process, if there is
one, gets a blank entry. -/
def StartsAlike (f n : Nat) (prio : Pri16) (as : List Nat) (k : Kernel) : Prop :=
  prio.val < 1 ∨ HasFree k ∧ getstk (stackSize n) k.heap = none ∨
    ComesRound k k.createNextpid ∧ ComesRound k k.rcreateNextpid ∧
      ∀ q heap saddr, IsProc q → (k.proctab q).prstate = .free →
        getstk (stackSize n) k.heap = some (heap, saddr) → saddr ≠ sysErrPtr →
          Blank (k.proctab q) heap.mem saddr f k.image.userret as

variable (f n nm as k) in
/-- With a priority below 1 neither does anything. -/
theorem start_refused (hp : prio.val < 1) :
    rcreate f n prio nm as k = some (k, SYSERR) ∧
      createResume f n prio nm as k = some (k, SYSERR) := by
  have hbad : isbadpid k SYSERR := Or.inl (by decide)
  have hres : resume SYSERR k = some (k, SYSERR) := by
    unfold resume
    rw [if_pos hbad]
  refine ⟨?_, ?_⟩
  · unfold rcreate
    rw [if_pos hp]
  · unfold createResume create
    rw [if_pos hp]
    simp [hres]

theorem rcreateTurn_eq (hn : 0 ≤ k.rcreateNextpid) :
    k.rcreateTurn = k ↔ ComesRound k k.rcreateNextpid := by
  rw [← comesRound_iff hn]
  refine ⟨fun h => congrArg Kernel.rcreateNextpid h, fun h => ?_⟩
  unfold Kernel.rcreateTurn
  rw [h]

theorem createTurn_eq (hn : 0 ≤ k.createNextpid) :
    k.createTurn = k ↔ ComesRound k k.createNextpid := by
  rw [← comesRound_iff hn]
  refine ⟨fun h => congrArg Kernel.createNextpid h, fun h => ?_⟩
  unfold Kernel.createTurn
  rw [h]

/-- If the counters either routine leaves agree, they end where they were. -/
theorem comesRound_of_agree (h : KernelInv strict k) {k₁ k₂ : Kernel} (he : k₁ = k₂)
    (h₁ : k₁.createNextpid = k.createNextpid ∧ k₁.rcreateNextpid = k.rcreateTurn.rcreateNextpid)
    (h₂ : k₂.createNextpid = k.createTurn.createNextpid ∧ k₂.rcreateNextpid = k.rcreateNextpid) :
    ComesRound k k.createNextpid ∧ ComesRound k k.rcreateNextpid := by
  subst he
  exact ⟨(comesRound_iff h.nextpid.1).mp (h₂.1.symm.trans h₁.1),
    (comesRound_iff h.nextpid.2).mp (h₁.2.symm.trans h₂.2)⟩

theorem turns_eq (h : KernelInv strict k) (hc : ComesRound k k.createNextpid)
    (hr : ComesRound k k.rcreateNextpid) : k.createTurn = k ∧ k.rcreateTurn = k :=
  ⟨(createTurn_eq h.nextpid.1).mpr hc, (rcreateTurn_eq h.nextpid.2).mpr hr⟩

theorem newpid_none (tab : Int → Procent) {n : Int} (hn : 0 ≤ n)
    (h : ∀ q, IsProc q → (tab q).prstate ≠ .free) : (newpid tab n).1 = SYSERR := by
  rcases newpid_found tab hn with ⟨i, -, -, -, hf, -⟩ | ⟨h1, -⟩
  · exact absurd hf (h _ ⟨by simp only [NPROC]; omega, by simp only [NPROC]; omega⟩)
  · rw [h1]

theorem newpid_some (tab : Int → Procent) {n : Int} (hn : 0 ≤ n) (hq : IsProc q)
    (h : (tab q).prstate = .free) :
    IsProc (newpid tab n).1 ∧ (tab (newpid tab n).1).prstate = .free := by
  rcases newpid_found tab hn with ⟨i, -, -, h3, hf, -⟩ | ⟨-, h2⟩
  · rw [h3]
    exact ⟨⟨by simp only [NPROC]; omega, by simp only [NPROC]; omega⟩, hf⟩
  · exact absurd h (h2 q hq)

theorem IsProc.ne_syserr (h : IsProc p) : p ≠ SYSERR := by
  rintro rfl
  exact absurd h.1 (by decide)

/-- The case of a stack found: the two states before the process is made ready decide. -/
theorem found_agrees_iff (h : KernelInv strict k) (hq : IsProc q)
    (hqf : (k.proctab q).prstate = .free) (hg : getstk n k.heap = some (heap, saddr))
    (ha : saddr ≠ sysErrPtr) :
    (start rcreateFill f n prio nm as (newpid k.proctab k.rcreateNextpid).1 k.rcreateTurn).map
        Prod.fst =
      (start createFill f n prio nm as (newpid k.proctab k.createNextpid).1 k.createTurn).map
        Prod.fst ↔
    ComesRound k k.createNextpid ∧ ComesRound k k.rcreateNextpid ∧
      Blank (k.proctab q) heap.mem saddr f k.image.userret as := by
  obtain ⟨hc1, hc2⟩ := newpid_some k.proctab h.nextpid.1 hq hqf
  obtain ⟨hr1, hr2⟩ := newpid_some k.proctab h.nextpid.2 hq hqf
  have hic : KernelInv strict k.createTurn := h.setCreateNextpid (newpid_spec _ h.nextpid.1).1
  have hir : KernelInv strict k.rcreateTurn := h.setRcreateNextpid (newpid_spec _ h.nextpid.2).1
  obtain ⟨kc, hkc, hsc⟩ := start_found createFill f prio nm as hic
    (createFill_bland _) hc1 hc2 (hg : getstk n k.createTurn.heap = _) ha
  obtain ⟨kr, hkr, hsr⟩ := start_found rcreateFill f prio nm as hir
    (fun k => Bland.refl k) hr1 hr2 (hg : getstk n k.rcreateTurn.heap = _) ha
  have hoc := ready_only hkc
  have hor := ready_only hkr
  rw [hsc, hsr]
  simp only [Option.map_some, Option.some.injEq]
  have hpick : ComesRound k k.createNextpid → ComesRound k k.rcreateNextpid →
      (newpid k.proctab k.createNextpid).1 = q ∧ (newpid k.proctab k.rcreateNextpid).1 = q :=
    fun h1 h2 => ⟨(h1.2.2 _ hc1 hc2).trans (h1.2.2 q hq hqf).symm,
      (h2.2.2 _ hr1 hr2).trans (h2.2.2 q hq hqf).symm⟩
  constructor
  · intro he
    obtain ⟨h1, h2⟩ := comesRound_of_agree h he ⟨hor.nextpid.1, hor.nextpid.2⟩
      ⟨hoc.nextpid.1, hoc.nextpid.2⟩
    refine ⟨h1, h2, ?_⟩
    obtain ⟨e1, e2⟩ := turns_eq h h1 h2
    obtain ⟨p1, p2⟩ := hpick h1 h2
    rw [e1, p1] at hoc
    rw [e2, p2] at hor
    have hmem := congrArg Heap.mem
      (hoc.heap.symm.trans ((congrArg Kernel.heap he).symm.trans hor.heap))
    have hmail := congrFun (hoc.mail.symm.trans ((congrArg mail he).symm.trans hor.mail)) q
    exact blank_of_setup (k := k.setHeap heap) hmem hmail
  · rintro ⟨h1, h2, hb⟩
    obtain ⟨e1, e2⟩ := turns_eq h h1 h2
    obtain ⟨p1, p2⟩ := hpick h1 h2
    rw [e1, p1, setup_eq (k := k.setHeap heap) hb] at hkc
    rw [e2, p2, hkc] at hkr
    exact (congrArg Prod.fst (Option.some.inj hkr)).symm

/-- **Where the two agree.** -/
theorem rcreate_agrees_iff (h : KernelInv strict k) :
    (rcreate f n prio nm as k).map Prod.fst = (createResume f n prio nm as k).map Prod.fst ↔
      StartsAlike f n prio as k := by
  by_cases hp : prio.val < 1
  · obtain ⟨h1, h2⟩ := start_refused k f n nm as hp
    rw [h1, h2]
    exact ⟨fun _ => Or.inl hp, fun _ => rfl⟩
  rw [rcreate_eq hp, createResume_eq h hp]
  unfold StartsAlike
  by_cases hfree : HasFree k
  · obtain ⟨q, hq, hqf⟩ := hfree
    have hc := (newpid_some k.proctab h.nextpid.1 hq hqf).1.ne_syserr
    have hr := (newpid_some k.proctab h.nextpid.2 hq hqf).1.ne_syserr
    have hgc : getstk (stackSize n) k.createTurn.heap = getstk (stackSize n) k.heap := rfl
    have hgr : getstk (stackSize n) k.rcreateTurn.heap = getstk (stackSize n) k.heap := rfl
    cases hg : getstk (stackSize n) k.heap with
    | none =>
      rw [start_endless hr (hgr.trans hg),
        start_endless hc (hgc.trans hg)]
      exact ⟨fun _ => Or.inr (Or.inl ⟨⟨q, hq, hqf⟩, rfl⟩), fun _ => rfl⟩
    | some r =>
      obtain ⟨heap, saddr⟩ := r
      by_cases ha : saddr = sysErrPtr
      · subst ha
        rw [start_noStack hr (hgr.trans hg),
          start_noStack hc (hgc.trans hg)]
        constructor
        · intro he
          have he' : k.rcreateTurn.setHeap heap = k.createTurn.setHeap heap := Option.some.inj he
          obtain ⟨h1, h2⟩ := comesRound_of_agree h he' ⟨rfl, rfl⟩ ⟨rfl, rfl⟩
          refine Or.inr (Or.inr ⟨h1, h2, fun q' heap' saddr' _ _ hg' ha' => ?_⟩)
          obtain ⟨-, rfl⟩ := Prod.mk.inj (Option.some.inj hg')
          exact absurd rfl ha'
        · rintro (h1 | ⟨-, h1⟩ | ⟨h1, h2, -⟩)
          · exact absurd h1 hp
          · simp at h1
          · obtain ⟨e1, e2⟩ := turns_eq h h1 h2
            rw [e1, e2]
      · rw [found_agrees_iff h hq hqf hg ha]
        constructor
        · rintro ⟨h1, h2, hb⟩
          refine Or.inr (Or.inr ⟨h1, h2, fun q' heap' saddr' hq' hqf' hg' _ => ?_⟩)
          obtain ⟨rfl, rfl⟩ := Prod.mk.inj (Option.some.inj hg')
          rw [(h1.2.2 q' hq' hqf').trans (h1.2.2 q hq hqf).symm]
          exact hb
        · rintro (h1 | ⟨-, h1⟩ | ⟨h1, h2, hb⟩)
          · exact absurd h1 hp
          · simp at h1
          · exact ⟨h1, h2, hb q heap saddr hq hqf rfl ha⟩
  · have hnone : ∀ q, IsProc q → (k.proctab q).prstate ≠ .free := fun q hq hf => hfree ⟨q, hq, hf⟩
    rw [newpid_none k.proctab h.nextpid.1 hnone, newpid_none k.proctab h.nextpid.2 hnone,
      start_noPid, start_noPid]
    constructor
    · intro he
      have he' : k.rcreateTurn = k.createTurn := Option.some.inj he
      obtain ⟨h1, h2⟩ := comesRound_of_agree h he' ⟨rfl, rfl⟩ ⟨rfl, rfl⟩
      exact Or.inr (Or.inr ⟨h1, h2, fun q _ _ hq hf => absurd hf (hnone q hq)⟩)
    · rintro (h1 | ⟨h1, -⟩ | ⟨h1, h2, -⟩)
      · exact absurd h1 hp
      · exact absurd h1 hfree
      · obtain ⟨e1, e2⟩ := turns_eq h h1 h2
        rw [e1, e2]

/-! ## 6. What a new process finds

Clean are the callback fields, the messages and the in-use list.  `create` makes them so but for
the words of the stack; `rcreate` leaves what it finds. -/

/-- **A process begins clean**: no callback, no message, no block in use. -/
structure BeginsClean (k : Kernel) (pid : Int) : Prop where
  prcbvalid : (k.proctab pid).prcbvalid = 0
  prtmpvalid : (k.proctab pid).prtmpvalid = 0
  prhasmsg : (k.proctab pid).prhasmsg = FALSE
  inuse : inuseNext k.heap.mem (k.proctab pid).prheaphd = 0

/-- The initial words of the stack leave the `mnext` of the header zero, as far as they cover
it. -/
def StackClear (hdptr saddr funcaddr userret : Nat) (args : List Nat) : Prop :=
  inuseNext (buildStack saddr funcaddr userret args fun _ => 0).1 hdptr = 0

/-- **A clean entry**, all that `rcreate` needs: the process that used it left no callback, no
message and no block. -/
structure CleanSlot (e : Procent) (m : Mem) (saddr funcaddr userret : Nat) (args : List Nat) :
    Prop where
  prcbvalid : e.prcbvalid = 0
  prtmpvalid : e.prtmpvalid = 0
  clear : StackClear e.prheaphd saddr funcaddr userret args
  mnext : ∀ i < 4, Spares (fun m => (buildStack saddr funcaddr userret args m).1)
    ((e.prheaphd + 8 + i) % addrSpace) → m ((e.prheaphd + 8 + i) % addrSpace) = 0

/-- The `mnext` of a header under a new stack. -/
theorem inuseNext_build (hdptr u : Nat) (m : Mem) :
    inuseNext (buildStack saddr f u as m).1 hdptr = 0 ↔ StackClear hdptr saddr f u as ∧
      ∀ i < 4, Spares (fun m => (buildStack saddr f u as m).1) ((hdptr + 8 + i) % addrSpace) →
        m ((hdptr + 8 + i) % addrSpace) = 0 := by
  have hb := (buildStack_blind saddr f u as).1
  unfold StackClear inuseNext
  rw [load_eq_zero, load_eq_zero]
  constructor
  · intro hz
    exact ⟨fun i hi => (hb.zero_iff.mp (hz i hi)).1, fun i hi => (hb.zero_iff.mp (hz i hi)).2⟩
  · rintro ⟨h1, h2⟩ i hi
    exact hb.zero_iff.mpr ⟨h1 i hi, h2 i hi⟩

theorem inuseNext_reset (hdptr u : Nat) (m : Mem) :
    inuseNext (buildStack saddr f u as (resetHeader hdptr m)).1 hdptr = 0 ↔
      StackClear hdptr saddr f u as := by
  refine (inuseNext_build hdptr u _).trans (and_iff_left fun i hi _ => ?_)
  exact resetHeader_inside ⟨8 + i, by simp only [inuseSize]; omega, by rw [Nat.add_assoc]⟩

variable (f n prio nm as saddr) in
theorem setup_prheaphd (hfill : ∀ k, ((fill pid k).proctab pid).prheaphd = (k.proctab pid).prheaphd)
    (k : Kernel) : ((setupProc fill f n prio nm as pid saddr k).proctab pid).prheaphd =
      (k.proctab pid).prheaphd := by
  obtain ⟨sp, hsp⟩ := placeStack_entry f as pid saddr
    (fill pid (enrol n prio nm pid saddr k))
  rw [setupProc_eq, hsp]
  show ((fill pid (enrol n prio nm pid saddr k)).proctab pid).prheaphd = _
  rw [hfill, enrol_entry]
  rfl

/-- Making a process ready leaves it as clean as it was. -/
theorem BeginsClean.ready_iff (h : SchedOnly k k') (pid : Int) :
    BeginsClean k' pid ↔ BeginsClean k pid := by
  have hmail := congrFun h.mail pid
  have hhd : (k'.proctab pid).prheaphd = (k.proctab pid).prheaphd :=
    (congrArg Procent.prheaphd (h.entries pid) :)
  have h1 : (k'.proctab pid).prcbvalid = (k.proctab pid).prcbvalid := congrArg Mail.prcbvalid hmail
  have h2 : (k'.proctab pid).prtmpvalid = (k.proctab pid).prtmpvalid :=
    congrArg Mail.prtmpvalid hmail
  have h3 : (k'.proctab pid).prhasmsg = (k.proctab pid).prhasmsg := congrArg Mail.prhasmsg hmail
  constructor
  · rintro ⟨g1, g2, g3, g4⟩
    exact ⟨h1 ▸ g1, h2 ▸ g2, h3 ▸ g3, by rwa [h.heap, hhd] at g4⟩
  · rintro ⟨g1, g2, g3, g4⟩
    exact ⟨h1.trans g1, h2.trans g2, h3.trans g3, by rwa [h.heap, hhd]⟩

theorem setup_clean_create (k : Kernel) :
    BeginsClean (setupProc createFill f n prio nm as pid saddr k) pid ↔
      StackClear (k.proctab pid).prheaphd saddr f k.image.userret as := by
  obtain ⟨hmail, hmem⟩ := setup_create f n prio nm as pid saddr k
  have hhd := setup_prheaphd f n prio nm as saddr
    (fun k => (by rw [createFill, setProc_same]; rfl :
      ((createFill pid k).proctab pid).prheaphd = (k.proctab pid).prheaphd)) k
  constructor
  · intro hc
    have := hc.inuse
    rwa [hhd, hmem, inuseNext_reset] at this
  · intro hc
    refine ⟨congrArg Mail.prcbvalid hmail, congrArg Mail.prtmpvalid hmail,
      congrArg Mail.prhasmsg hmail, ?_⟩
    rwa [hhd, hmem, inuseNext_reset]

theorem setup_clean_rcreate (k : Kernel) :
    BeginsClean (setupProc rcreateFill f n prio nm as pid saddr k) pid ↔
      CleanSlot (k.proctab pid) k.heap.mem saddr f k.image.userret as := by
  obtain ⟨hmail, hmem⟩ := setup_rcreate f n prio nm as pid saddr k
  have hhd := setup_prheaphd f n prio nm as saddr
    (fun k => (rfl : ((rcreateFill pid k).proctab pid).prheaphd = (k.proctab pid).prheaphd)) k
  have h1 := congrArg Mail.prcbvalid hmail
  have h2 := congrArg Mail.prtmpvalid hmail
  constructor
  · intro hc
    have hin := hc.inuse
    rw [hhd, hmem, inuseNext_build] at hin
    exact ⟨h1.symm.trans hc.prcbvalid, h2.symm.trans hc.prtmpvalid, hin.1, hin.2⟩
  · intro hc
    refine ⟨h1.trans hc.prcbvalid, h2.trans hc.prtmpvalid, congrArg Mail.prhasmsg hmail, ?_⟩
    rw [hhd, hmem, inuseNext_build]
    exact ⟨hc.clear, hc.mnext⟩

/-- A start that gives a pid has set up that process and scheduled. -/
theorem start_some {r : Kernel × Int} (hs : start fill f n prio nm as pid k = some r)
    (hr : r.2 ≠ SYSERR) (hg : getstk n k.heap = some (heap, saddr)) :
    r.2 = pid ∧ SchedOnly (setupProc fill f n prio nm as pid saddr (k.setHeap heap)) r.1 := by
  unfold start at hs
  obtain ⟨y, hy, hs⟩ := Option.bind_eq_some_iff.mp hs
  simp only at hs
  split_ifs at hs with h1
  · rw [← Option.some.inj hs] at hr
    exact absurd rfl hr
  obtain ⟨z, hz, hs⟩ := Option.bind_eq_some_iff.mp hs
  obtain rfl := Option.some.inj hs
  have hp := (makeProc_pid hy h1).1
  by_cases ha : saddr = sysErrPtr
  · unfold makeProc at hy
    rw [if_neg hp, getstk_heap, hg] at hy
    simp only [ha, Option.map_some, Option.bind_eq_bind, Option.bind_some, if_true] at hy
    exact absurd (congrArg Prod.snd (Option.some.inj hy)).symm h1
  · rw [makeProc_found fill f prio nm as hp hg ha] at hy
    obtain rfl := Option.some.inj hy
    have honly := ready_only hz
    exact ⟨rfl, honly⟩

/-- **Two ways to start a process.**  When they leave the same state, and when a process started
either way begins clean. -/
theorem start_agrees {s : Sys} (hs : Reachable always s) (f n : Nat) (prio : Pri16)
    (nm : Nat → UInt8) (as : List Nat) :
    ((rcreate f n prio nm as s.k).map Prod.fst = (createResume f n prio nm as s.k).map Prod.fst ↔
      StartsAlike f n prio as s.k) ∧
    ∀ heap saddr, getstk (stackSize n) s.k.heap = some (heap, saddr) →
      (∀ r, createResume f n prio nm as s.k = some r → r.2 ≠ SYSERR → (BeginsClean r.1 r.2 ↔
        StackClear (s.k.proctab r.2).prheaphd saddr f s.k.image.userret as)) ∧
      ∀ r, rcreate f n prio nm as s.k = some r → r.2 ≠ SYSERR → (BeginsClean r.1 r.2 ↔
        CleanSlot (s.k.proctab r.2) heap.mem saddr f s.k.image.userret as) := by
  have h : KernelInv False s.k := (hs.inv False False.elim).kernel
  refine ⟨rcreate_agrees_iff h, fun heap saddr hg => ⟨fun r hr hne => ?_, fun r hr hne => ?_⟩⟩
  · have hp : ¬ prio.val < 1 := fun hp => by
      rw [(start_refused s.k f n nm as hp).2] at hr
      exact hne (congrArg Prod.snd (Option.some.inj hr)).symm
    rw [createResume_eq h hp] at hr
    obtain ⟨hpid, honly⟩ := start_some hr hne hg
    rw [hpid, BeginsClean.ready_iff honly]
    exact setup_clean_create (s.k.createTurn.setHeap heap)
  · have hp : ¬ prio.val < 1 := fun hp => by
      rw [(start_refused s.k f n nm as hp).1] at hr
      exact hne (congrArg Prod.snd (Option.some.inj hr)).symm
    rw [rcreate_eq hp] at hr
    obtain ⟨hpid, honly⟩ := start_some hr hne hg
    rw [hpid, BeginsClean.ready_iff honly]
    exact setup_clean_rcreate (s.k.rcreateTurn.setHeap heap)

/-- The first process makes a second; that one registers a callback and waits for a message, and
the first kills it. -/
def usedEntry : List Event :=
  [makeMain 20, makeProcess 30, .finish, .call (.resume 2),
    .call (.cbregister 0x106043 0x150000), .finish, .call .receive, .finish, .call (.kill 2),
    .finish]

theorem start_agrees_run : ∃ s, runFromBoot usedEntry = some s ∧
    ((rcreate 0x100000 MINSTK ⟨10, by decide⟩ (fun _ => 0) [] s.k).map Prod.fst =
        (createResume 0x100000 MINSTK ⟨10, by decide⟩ (fun _ => 0) [] s.k).map Prod.fst ↔
      StartsAlike 0x100000 MINSTK ⟨10, by decide⟩ [] s.k) := by
  have h : (runFromBoot usedEntry).isSome = true := by decide +kernel
  obtain ⟨s, hs⟩ := Option.isSome_iff_exists.mp h
  exact ⟨s, hs, (start_agrees (reachable_runFromBoot hs) _ _ _ _ _).1⟩

/-- **A process that begins with the callback of another**: `rcreate` uses the entry of the
process killed, and `create` followed by `resume` another one. -/
theorem start_differs : ∃ s, Reachable always s ∧
    (rcreate 0x100000 MINSTK ⟨10, by decide⟩ (fun _ => 0) [] s.k).map Prod.fst ≠
      (createResume 0x100000 MINSTK ⟨10, by decide⟩ (fun _ => 0) [] s.k).map Prod.fst ∧
    ∃ r, rcreate 0x100000 MINSTK ⟨10, by decide⟩ (fun _ => 0) [] s.k = some r ∧ r.2 ≠ SYSERR ∧
      ¬ BeginsClean r.1 r.2 := by
  have h : (runFromBoot usedEntry).map (fun s => decide (
      (rcreate 0x100000 MINSTK ⟨10, by decide⟩ (fun _ => 0) [] s.k).map
        (fun r => (r.2, (r.1.proctab 2).prcbvalid, r.1.createNextpid)) = some (2, 1, 3) ∧
      (createResume 0x100000 MINSTK ⟨10, by decide⟩ (fun _ => 0) [] s.k).map
        (fun r => r.1.createNextpid) = some 4)) = some true := by decide +kernel
  obtain ⟨s, hs, hd⟩ := Option.map_eq_some_iff.mp h
  obtain ⟨h1, h2⟩ := of_decide_eq_true hd
  obtain ⟨r, hr, hv⟩ := Option.map_eq_some_iff.mp h1
  simp only [Prod.mk.injEq] at hv
  obtain ⟨hp, hv, hn⟩ := hv
  refine ⟨s, reachable_runFromBoot hs, fun he => ?_, r, hr, ?_, fun hc => ?_⟩
  · have := congrArg (Option.map Kernel.createNextpid) he
    rw [Option.map_map, Option.map_map] at this
    rw [hr] at this
    have h4 := this.trans h2
    simp only [Option.map_some, Function.comp, hn] at h4
    exact absurd h4 (by decide)
  · rw [hp]
    decide
  · have := hc.prcbvalid
    rw [hp, hv] at this
    exact absurd this (by decide)

end Xinu
