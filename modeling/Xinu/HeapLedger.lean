/-
# The ledger of the heap

No process is ever given a list header of its own: `prheaphd` is null in every entry, so that one
header serves all of them, and `create` makes the list behind it empty again.  The heap as a whole
is one machine, whose moves are the calls of the allocator, the reset of the header and what the
processes write into the memory that they were given.

The ledger keeps what is out of the free list: the blocks, the stacks and the tracking nodes.  It is
right about the heap (`Balanced`) when every byte that was free in the beginning has exactly one
owner: it is free, or part of a block, of a stack or of a node.  Each move is described first by
what it does to the two lists in memory (`BlockGranted`, `StackGranted`, `RangeReturned`), and then
by what becomes of the balance.

The results about runs, which need nothing but that each move keeps the balance, are in the
modules after this one.
-/
import Xinu.InuseOrder
import Xinu.Process
import Xinu.Stacks

namespace Xinu

open ByteMemory Chains Extents Runs

variable {m m' : Mem} {h h' : Heap} {hdptr nbytes blk x n : Nat} {b : Extent}
  {bs bs₀ pre post : List Extent} {ns : List Nat}

/-! ## 1. The heap as a machine

A move is a call of the allocator or a write of a process.  The ledger is an observer: `ledgerSee`
enters what a move did to it, and no move of the heap depends on it.  `HeapOp.Proper` says what
proper callers do, in terms of the ledger, and `HeapReach` are the runs of the two together. -/

/-- What happens to the heap. -/
inductive HeapOp
  | getmem (nbytes : Nat)
  | freemem (blkaddr nbytes : Nat)
  | getstk (nbytes : Nat)
  | freestk (p len : Nat)
  | resetHeader
  | write (addr : Nat) (byte : UInt8)

/-- One move; no result means that the call does not end. -/
def HeapOp.run (hdptr : Nat) (h : Heap) : HeapOp → Option Heap
  | .getmem nbytes => (Xinu.getmem hdptr nbytes h).map Prod.fst
  | .freemem blkaddr nbytes => (Xinu.freemem hdptr blkaddr nbytes h).map Prod.fst
  | .getstk nbytes => (Xinu.getstk nbytes h).map Prod.fst
  | .freestk p len => (Xinu.freestk hdptr p len h).map Prod.fst
  | .resetHeader => some { h with mem := Xinu.resetHeader hdptr h.mem }
  | .write addr byte => some { h with mem := Function.update h.mem addr byte }

/-- What is out of the free list, and what the processes wrote since they were given it. -/
structure HeapLedger where
  blocks : List Extent
  stackAreas : List Extent
  nodes : List Nat
  written : Nat → Option UInt8

/-- Nothing is out. -/
def emptyLedger : HeapLedger := ⟨[], [], [], fun _ => none⟩

/-- Who owns the byte is someone else now. -/
def forget (e : Extent) (written : Nat → Option UInt8) : Nat → Option UInt8 := fun y =>
  if e.Has y then none else written y

/-- A block was granted, and a node made for it. -/
def HeapLedger.grant (L : HeapLedger) (e : Extent) (node : Nat) : HeapLedger :=
  { L with blocks := e :: L.blocks, nodes := node :: L.nodes, written := forget e L.written }

/-- A stack was granted. -/
def HeapLedger.stack (L : HeapLedger) (e : Extent) : HeapLedger :=
  { L with stackAreas := e :: L.stackAreas, written := forget e L.written }

/-- The bytes that `freestk` is about. -/
abbrev stackExtent (p len : Nat) : Extent := (FreeCall.freestk p len).extent

/-- The ledger after a move. -/
def ledgerSee (hdptr : Nat) (h : Heap) (c : HeapOp) (h' : Heap) (L : HeapLedger) : HeapLedger :=
  match c with
  | .getmem nbytes =>
    match Xinu.getmem hdptr nbytes h with
    | some (_, a) =>
      if a = sysErrPtr then L else L.grant ⟨a, roundedSize nbytes⟩ (inuseNext h'.mem hdptr)
    | none => L
  | .freemem blkaddr nbytes =>
    match Xinu.freemem hdptr blkaddr nbytes h with
    | some (_, r) =>
      if r = OK then { L with blocks := L.blocks.erase ⟨blkaddr, roundedSize nbytes⟩ } else L
    | none => L
  | .getstk nbytes =>
    match Xinu.getstk nbytes h with
    | some (_, a) => if a = sysErrPtr then L else L.stack (stackExtent a nbytes)
    | none => L
  | .freestk p len =>
    match Xinu.freestk hdptr p len h with
    | some (_, r) =>
      if r = OK then { L with stackAreas := L.stackAreas.erase (stackExtent p len) } else L
    | none => L
  | .resetHeader => L
  | .write addr byte => { L with written := Function.update L.written addr (some byte) }

/-- The extraction that comes with giving the block back is right: its node is in the list, or the
word at address 8 is 0. -/
def ExtractsSafely (hdptr : Nat) (h : Heap) (blk : Nat) : Prop :=
  ¬Unrecorded h.mem hdptr blk ∨ load h.mem 8 = 0

/-- Nothing is granted; or there is room for the block and its node. -/
def GrantsWhole (h : Heap) (nbytes : Nat) : Prop :=
  ∀ bs, FreeList h bs → nbytes = 0 ∨ (∀ b ∈ bs, b.len < roundmb nbytes) ∨
    roundedSize nbytes < addrSpace ∧ NodeFits (roundedSize nbytes) bs

/-- The moves of proper callers: a block or a stack is given back by someone who has it, with the
size it was asked for, and bytes are written where they are owned.  Sizes asked for stay below
`2 ^ 32` when they are rounded up; `roundmb` takes the last seven for 0, and `getstk` and `getmem`
then grant an area of no bytes. -/
def HeapOp.Proper (hdptr : Nat) (s : Heap × HeapLedger) : HeapOp → Prop
  | .getmem nbytes => GrantsWhole s.1 nbytes
  | .freemem blkaddr nbytes => RefusedAtOnce s.1 blkaddr nbytes ∨
      ⟨blkaddr, roundedSize nbytes⟩ ∈ s.2.blocks ∧ ExtractsSafely hdptr s.1 blkaddr
  | .getstk nbytes => roundedSize nbytes < addrSpace
  | .freestk p len => stackExtent p len ∈ s.2.stackAreas ∧
      ExtractsSafely hdptr s.1 (stackExtent p len).addr
  | .resetHeader => True
  | .write addr _ => ∃ e ∈ s.2.blocks ++ s.2.stackAreas, e.Has addr

/-- The runs of the heap with its ledger. -/
abbrev HeapReach (hdptr : Nat) (h : Heap) (s : Heap × HeapLedger) : Prop :=
  Reaches (watch (HeapOp.run hdptr) (ledgerSee hdptr)) (HeapOp.Proper hdptr) (h, emptyLedger) s

/-! ## 2. What each call does

Each call is described once, by a structure that says what became of the free list, of the node
list and of all other bytes.  The proofs unfold the allocator here, through the lemmas about
`Tracking`; the next section reads the fields only. -/

/-- A node's 16 bytes. -/
def nodeBytes (xs : List Nat) : List Extent := xs.map fun x => ⟨x, 16⟩

/-- What a granted request comes to. -/
structure BlockGranted (h h' : Heap) (bs bs' : List Extent) (hdptr : Nat) (ns : List Nat)
    (e : Extent) (node : Nat) : Prop where
  tracking : Tracking h' bs' hdptr (node :: ns)
  split : ∀ y, cover bs y = cover bs' y + cover [e] y + cover [⟨node, 16⟩] y
  records : SameRecords h.mem h'.mem (hdptr :: ns)
  entry : memblockptr h'.mem node = e.addr ∧ memlen h'.mem node = e.len
  frame : ∀ y, Untouched h.memlist bs y → (y < hdptr + 8 ∨ hdptr + 12 ≤ y) → h'.mem y = h.mem y
  sized : 8 ∣ e.addr ∧ 0 < e.len
  within : h.minheap ≤ e.addr ∧ e.fin ≤ h.maxheap
  same : h'.memlist = h.memlist ∧ h'.minheap = h.minheap ∧ h'.maxheap = h.maxheap
  flag : h'.memblockkflag = 0

/-- **`getmem`** with room for the block and its node. -/
theorem Tracking.getmem (ht : Tracking h bs hdptr ns) (hflag : h.memblockkflag = 0)
    (hn : nbytes ≠ 0) (hlt : roundedSize nbytes < addrSpace)
    (hfit : NodeFits (roundedSize nbytes) bs) :
    ∃ h' a node bs', Xinu.getmem hdptr nbytes h = some (h', a) ∧ a ≠ sysErrPtr ∧
      BlockGranted h h' bs bs' hdptr ns ⟨a, roundedSize nbytes⟩ node := by
  have hround := roundmb_of_fits hlt
  have hsize := roundedSize_pos (Nat.pos_of_ne_zero hn)
  have hdvd : 8 ∣ roundedSize nbytes := hround ▸ roundmb_dvd nbytes
  obtain ⟨pre, b, post, hblock, ⟨pre', c, post'⟩, hnode⟩ := hfit.firstFit
  have hgets := getmem_takes hdptr ht.free hflag hn (hround ▸ hblock)
  obtain ⟨rfl, hle, -⟩ := firstFit_some hblock
  have hb := ht.free.canonical.aligned b (by simp)
  have hbin := ht.free.within b (by simp)
  have hspace := ht.free.space
  have hfin : b.fin = b.addr + b.len := rfl
  have herr := ht.free.addr_ne_err (b := b) (by simp)
  -- the block, then the node
  obtain ⟨ht₁, hrec₁, htaken⟩ := ht.take hdvd (by omega) hle
  have hmid := (firstFit_some hnode).1
  have hle' := (firstFit_some hnode).2.1
  rw [hmid] at ht₁ hnode
  obtain ⟨h₂, hins⟩ := ht₁.insert b.addr hnode
  obtain ⟨hlist, hmin, hmax⟩ := hins.same
  refine ⟨{ h₂ with memblockkflag := 0 }, b.addr, c.addr, _, ?_, herr,
    ⟨⟨hins.tracking.toNodeList, hins.tracking.free.withFlag 0, hins.tracking.live⟩, fun y => ?_,
      hrec₁.trans hins.records, ⟨?_, ?_⟩, fun y hy hlink => ?_, ⟨hb, by simp only; omega⟩, ?_,
      ⟨hlist, hmin, hmax⟩, rfl⟩⟩
  · rw [hgets, hround, hins.runs, Option.map_some]
  · have hcut := cover_carve_mid hle pre post y
    have hcut' := cover_carve_mid hle' pre' post' y
    rw [← hmid] at hcut'
    omega
  · rw [hins.block, Nat.mod_eq_of_lt (by omega)]
  · refine (hins.len (fun y h1 h2 => ?_) (by omega)).trans htaken.recorded
    rw [← hmid]
    exact ht.free.carved_untouched hle (by omega) (by omega)
  · refine (hins.frame y ?_ hlink).trans (htaken.frame y hy)
    rw [← hmid]
    exact hy.carve hle
  · refine ⟨hbin.1, ?_⟩
    simp only [Extent.fin] at hbin ⊢
    omega

/-- What a granted stack comes to. -/
structure StackGranted (h h' : Heap) (bs bs' : List Extent) (hdptr : Nat) (ns : List Nat)
    (e : Extent) : Prop where
  tracking : Tracking h' bs' hdptr ns
  split : ∀ y, cover bs y = cover bs' y + cover [e] y
  records : SameRecords h.mem h'.mem (hdptr :: ns)
  frame : ∀ y, Untouched h.memlist bs y → h'.mem y = h.mem y
  sized : 8 ∣ e.addr ∧ 0 < e.len
  within : h.minheap ≤ e.addr ∧ e.fin ≤ h.maxheap
  same : h'.memlist = h.memlist ∧ h'.minheap = h.minheap ∧ h'.maxheap = h.maxheap
  flag : h'.memblockkflag = h.memblockkflag

/-- `getstk` writes in free blocks and in `memlist` only. -/
theorem getstk_frame {a : Nat} (hf : FreeList h bs) (hr : getstk nbytes h = some (h', a)) :
    (∀ y, Untouched h.memlist bs y → h'.mem y = h.mem y) ∧ h'.memlist = h.memlist ∧
      h'.memblockkflag = h.memblockkflag := by
  by_cases hn : nbytes = 0
  · rw [getstk, if_pos hn] at hr
    obtain ⟨rfl, -⟩ := Prod.mk.inj (Option.some.inj hr)
    exact ⟨fun _ _ => rfl, rfl, rfl⟩
  have hscan := hf.getstkScan_eq (roundmb nbytes)
  cases hfit : lastFit (roundmb nbytes) bs with
  | none =>
    rw [getstk_fails hf hfit] at hr
    obtain ⟨rfl, -⟩ := Prod.mk.inj (Option.some.inj hr)
    exact ⟨fun _ _ => rfl, rfl, rfl⟩
  | some r =>
    obtain ⟨pre, b, post⟩ := r
    rw [hfit] at hscan
    obtain ⟨rfl, hle, -⟩ := lastFit_some hfit
    obtain ⟨hpb, hph, hhb, h8, hend⟩ := hf.laid.at_block
    have hb0 := hf.addr_ne_zero (b := b) (by simp)
    simp only [getstk, if_neg hn, hscan, Option.bind_eq_bind, Option.bind_some, if_neg hb0] at hr
    obtain ⟨rfl, -⟩ := Prod.mk.inj (Option.some.inj hr)
    have hedit : EditOnly h.mem (getstkTake h.mem h.memlist (roundmb nbytes)
        (lastOf h.memlist pre) b.addr) h.memlist (lastOf h.memlist pre) b.addr b.fin := by
      intro x h1 h2 h3
      rw [Extent.fin] at h3
      rw [getstkTake]
      split_ifs
      · simp (disch := omega) only [store_apply_of_outside]
      · simp (disch := omega) only [store_apply_of_outside]
    refine ⟨fun y hy => ?_, rfl, rfl⟩
    refine Eq.trans ?_ (hedit.frame hf.laid hy (hy.2 b (by simp)))
    rw [getstkTake]
    split_ifs
    · rfl
    · rfl

/-- **`getstk`** with a block that is large enough. -/
theorem Tracking.getstk (ht : Tracking h bs hdptr ns) (hn : nbytes ≠ 0)
    (hlt : roundedSize nbytes < addrSpace)
    (hfit : lastFit (roundedSize nbytes) bs = some (pre, b, post)) :
    ∃ h' a bs', Xinu.getstk nbytes h = some (h', a) ∧ a ≠ sysErrPtr ∧
      StackGranted h h' bs bs' hdptr ns (stackExtent a nbytes) := by
  have hf := ht.free
  have hround := roundmb_of_fits hlt
  have hsize := roundedSize_pos (Nat.pos_of_ne_zero hn)
  have hdvd : 8 ∣ roundedSize nbytes := hround ▸ roundmb_dvd nbytes
  have hpos : 0 < roundmb nbytes := by omega
  have hlast : lastFit (roundmb nbytes) bs = some (pre, b, post) := hround.symm ▸ hfit
  obtain ⟨h', hget, hf', hmin, hmax⟩ := getstk_takes hf hpos hlast
  obtain ⟨hframe, hlist, hflag⟩ := getstk_frame hf hget
  obtain ⟨rfl, hle, -⟩ := lastFit_some hfit
  have hbin := hf.within b (by simp)
  have hb := (canonical_cons_iff.mp (canonical_append_iff.mp hf.canonical).2.1).1
  have hspace := hf.space
  rw [hround] at hf'
  rw [Extent.fin] at hbin
  have hext : stackExtent (b.fin - 4) nbytes =
      ⟨b.addr + (b.len - roundedSize nbytes), roundedSize nbytes⟩ := by
    rw [stackExtent, FreeCall.extent, Extent.fin, Extent.mk.injEq]
    omega
  have hcut : ∀ y, cover (pre ++ b :: post) y =
      cover (pre ++ (carveTop (roundedSize nbytes) b ++ post)) y +
        cover [⟨b.addr + (b.len - roundedSize nbytes), roundedSize nbytes⟩] y := by
    intro y
    have := cover_carveTop hle y
    rw [cover_append, cover_cons, cover_append, cover_append]
    omega
  obtain ⟨hlist', hrec⟩ := ht.toNodeList.congr fun z hz y h1 h2 =>
    hframe y (ht.live z hz y h1 h2)
  refine ⟨h', b.fin - 4, _, hget, ?_, ⟨hlist', hf', fun z hz y h1 h2 => ?_⟩, ?_, hrec, hframe,
    ?_, ?_, ⟨hlist, hmin, hmax⟩, hflag⟩
  · simp only [Extent.fin, sysErrPtr]
    show b.addr + b.len - 4 ≠ 4294967295
    omega
  · obtain ⟨h3, h4⟩ := untouched_iff.mp (ht.live z hz y h1 h2)
    have := hcut y
    rw [hlist]
    exact untouched_iff.mpr ⟨h3, by omega⟩
  · rw [hext]
    exact hcut
  · rw [hext]
    exact ⟨(Nat.dvd_add_right hb.1).mpr (Nat.dvd_sub hb.2.1 hdvd), by simp only; omega⟩
  · rw [hext]
    simp only [Extent.fin]
    omega

/-- What an accepted return comes to. -/
structure RangeReturned (h h' : Heap) (bs bs' : List Extent) (hdptr : Nat) (ns : List Nat)
    (e : Extent) : Prop where
  tracking : Tracking h' bs' hdptr (ns.eraseP fun x => memblockptr h.mem x = e.addr)
  joined : ∀ y, cover bs' y = cover bs y + cover [e] y
  records : SameRecords h.mem h'.mem (hdptr :: ns.eraseP fun x => memblockptr h.mem x = e.addr)
  frame : ∀ y, Untouched h.memlist bs y → ¬e.Has y →
    (∀ z ∈ hdptr :: ns, y < z + 8 ∨ z + 12 ≤ y) → h'.mem y = h.mem y
  same : h'.memlist = h.memlist ∧ h'.minheap = h.minheap ∧ h'.maxheap = h.maxheap
  flag : h'.memblockkflag = h.memblockkflag

/-- **`freemem`** of a range that is its caller's, when the extraction is right. -/
theorem Tracking.freemem (ht : Tracking h bs hdptr ns) (hn : 0 < nbytes) (hdvd : 8 ∣ blk)
    (hl : Legitimate h bs blk nbytes) (hok : ExtractsSafely hdptr h blk)
    (hout : ∀ z ∈ hdptr :: ns, ∀ y, z ≤ y → y < z + 12 →
      ¬Extent.Has ⟨blk, roundedSize nbytes⟩ y) :
    ∃ h' bs', Xinu.freemem hdptr blk nbytes h = some (h', OK) ∧
      RangeReturned h h' bs bs' hdptr ns ⟨blk, roundedSize nbytes⟩ := by
  have htrk : Tracked h bs hdptr ns := ⟨ht.toInuseList, ht.fits, ht.live⟩
  obtain ⟨m₁, he, hf₁, -, hfree⟩ := freemem_eq ht.free htrk blk (Nat.ne_of_gt hn)
  obtain ⟨hstart, hend⟩ := hl.passes ht.free hn
  -- the node leaves the list
  obtain ⟨m₂, he', ht₁, hrec₁⟩ := ht.extract blk hok
  rw [he] at he'
  obtain rfl := Option.some.inj he'
  have hsub : (hdptr :: ns.eraseP fun x => memblockptr h.mem x = blk).Sublist (hdptr :: ns) :=
    List.eraseP_sublist.cons_cons hdptr
  obtain ⟨u, hu, hlink⟩ := memextract_eq ht.toInuseList blk
  rw [he] at hlink
  -- and the block joins the free blocks
  obtain ⟨bs', hf', hcover, hframe⟩ :=
    Legitimate.given (h := { h with mem := m₁ }) hf₁ hl hn hdvd
  have hframe₁ : ∀ z ∈ hdptr :: ns.eraseP fun x => memblockptr h.mem x = blk,
      ∀ y, z ≤ y → y < z + 12 →
        linkAt m₁ h.memlist bs blk (roundmb nbytes) y = m₁ y := fun z hz y h1 h2 =>
    hframe y (ht₁.live z hz y h1 h2) (hout z (hsub.subset hz) y h1 h2)
  obtain ⟨hn₂, hrec₂⟩ := ht₁.toNodeList.congr hframe₁
  refine ⟨_, bs', hfree hstart hend, ⟨hn₂, hf', fun z hz y h1 h2 => ?_⟩, hcover,
    SameRecords.trans (fun z hz => hrec₁ z (hsub.subset hz)) hrec₂, fun y hy hno hlinks => ?_,
    ⟨rfl, rfl, rfl⟩, rfl⟩
  · obtain ⟨h3, h4⟩ := untouched_iff.mp (ht₁.live z hz y h1 h2)
    have hrange := cover_singleton ⟨blk, roundedSize nbytes⟩ y
    rw [if_neg (hout z (hsub.subset hz) y h1 h2)] at hrange
    have := hcover y
    exact untouched_iff.mpr ⟨h3, by omega⟩
  · refine (hframe y hy hno).trans ?_
    have hfit := ht.fits u hu
    have hapart := hlinks u hu
    show m₁ y = h.mem y
    rw [Option.some.inj hlink]
    exact store_apply_of_outside (by omega) (by omega)

/-- **`freestk`** is `freemem` of the bytes of the stack. -/
theorem freestk_eq_freemem (hdptr : Nat) (h : Heap) (p len : Nat)
    (haddr : 0 < (stackExtent p len).addr) (hlen : 0 < (stackExtent p len).len)
    (hend : (stackExtent p len).fin < addrSpace) :
    ∃ n, 0 < n ∧ roundedSize n = (stackExtent p len).len ∧
      freestk hdptr p len h = Xinu.freemem hdptr (stackExtent p len).addr n h :=
  FreeCall.run_eq memextract hdptr h (c := .freestk p len) haddr hlen hend

/-! ## 3. The balance

`Balanced` is kept by each move of proper callers.  The argument is about extents: what the
processes have (`owned`) is apart from the free blocks and from `memlist`, so that a grant, which
changes bytes of free blocks and of the header only, leaves it alone, and a return finds a range
that is owned, and so not free already. -/

/-- The memory that the processes have. -/
def HeapLedger.owned (L : HeapLedger) : List Extent := L.blocks ++ L.stackAreas

/-- The ledger `s.2` is right about the heap `s.1`, whose free blocks were `bs₀` in the beginning
and are `bs` now. -/
structure Balanced (bs₀ bs : List Extent) (hdptr : Nat) (ns : List Nat) (s : Heap × HeapLedger) :
    Prop where
  tracking : Tracking s.1 bs hdptr ns
  flag : s.1.memblockkflag = 0
  apart : ∀ y, cover bs₀ y + cover [⟨hdptr, 12⟩] y ≤ 1
  owners : ∀ y, cover bs y + cover s.2.owned y + cover (nodeBytes s.2.nodes) y = cover bs₀ y
  sized : ∀ e ∈ s.2.owned, 8 ∣ e.addr ∧ 0 < e.len
  within : Within s.1.minheap s.1.maxheap s.2.owned
  linked : ∀ x ∈ ns, x ∈ s.2.nodes
  records : (blocksOf s.1.mem ns).Subperm s.2.blocks
  contents : ∀ y v, s.2.written y = some v → 0 < cover s.2.owned y → s.1.mem y = v

variable {s : Heap × HeapLedger} {L L' : HeapLedger} {e : Extent}

theorem mem_owned : e ∈ L.owned ↔ e ∈ L.blocks ∨ e ∈ L.stackAreas := List.mem_append

/-- A byte that a process has is no free byte, -/
theorem Balanced.untouched (hb : Balanced bs₀ bs hdptr ns s) {y : Nat}
    (hy : 0 < cover s.2.owned y) : Untouched s.1.memlist bs y := by
  obtain ⟨e, he, hey⟩ := cover_pos_iff.mp hy
  have hhead := hb.tracking.free.header
  have hlo := (hb.within e he).1
  have h1 := hb.owners y
  have h2 := hb.apart y
  exact untouched_iff.mpr ⟨.inr (hhead.trans (hlo.trans hey.1)), by omega⟩

/-- and it belongs neither to the header nor to a node. -/
theorem Balanced.outside (hb : Balanced bs₀ bs hdptr ns s) {y z : Nat}
    (hy : 0 < cover s.2.owned y) (hz : z ∈ hdptr :: ns) : y < z ∨ z + 12 ≤ y := by
  by_contra hin
  have h1 := hb.owners y
  have h2 := hb.apart y
  rcases List.mem_cons.mp hz with rfl | hz
  · have hhead : 0 < cover [⟨z, 12⟩] y :=
      cover_pos (List.mem_singleton_self _) ⟨by simp only; omega, by simp only [Extent.fin]; omega⟩
    omega
  · have hnode : 0 < cover (nodeBytes s.2.nodes) y :=
      cover_pos (b := ⟨z, 16⟩) (List.mem_map_of_mem (hb.linked z hz))
        ⟨by simp only; omega, by simp only [Extent.fin]; omega⟩
    omega

/-- The bytes of an extent that is taken out. -/
theorem cover_erase {es : List Extent} (he : e ∈ es) (y : Nat) :
    cover es y = cover (es.erase e) y + cover [e] y := by
  have hcount : cover es y = cover (e :: es.erase e) y := (List.perm_cons_erase he).countP_eq _
  rw [hcount, cover_cons, Nat.add_comm]

/-- Two extents with a byte in common are one. -/
theorem eq_of_cover_le {es : List Extent} {e' : Extent} {y : Nat} (hone : cover es y ≤ 1)
    (he : e ∈ es) (he' : e' ∈ es) (hy : e.Has y) (hy' : e'.Has y) : e' = e := by
  by_contra hne
  have hcount := cover_erase he y
  have hrest := cover_pos ((List.mem_erase_of_ne hne).mpr he') hy'
  have hmine := cover_pos (List.mem_singleton_self e) hy
  omega

theorem Balanced.owned_le (hb : Balanced bs₀ bs hdptr ns s) (y : Nat) :
    cover s.2.owned y ≤ 1 := by
  have h1 := hb.owners y
  have h2 := hb.apart y
  omega

/-- **A block is granted.** -/
theorem Balanced.grant (hb : Balanced bs₀ bs hdptr ns (h, L)) {bs' : List Extent} {node : Nat}
    (hg : BlockGranted h h' bs bs' hdptr ns e node) :
    Balanced bs₀ bs' hdptr (node :: ns) (h', L.grant e node) := by
  obtain ⟨hlist, hmin, hmax⟩ := hg.same
  have howned : (L.grant e node).owned = e :: L.owned := rfl
  refine ⟨hg.tracking, hg.flag, hb.apart, fun y => ?_, ?_, ?_, ?_, ?_, fun y v hv hy => ?_⟩
  · have h1 : cover bs y + cover L.owned y + cover (nodeBytes L.nodes) y = cover bs₀ y :=
      hb.owners y
    have h2 := hg.split y
    show cover bs' y + cover (e :: L.owned) y + cover (⟨node, 16⟩ :: nodeBytes L.nodes) y = _
    rw [cover_cons e, cover_cons ⟨node, 16⟩]
    omega
  · simp only [howned, List.mem_cons, forall_eq_or_imp]
    exact ⟨hg.sized, hb.sized⟩
  · simp only [Within, howned, hmin, hmax, List.mem_cons, forall_eq_or_imp]
    exact ⟨hg.within, hb.within⟩
  · intro x hx
    rcases List.mem_cons.mp hx with rfl | hx
    · exact List.mem_cons_self
    · exact List.mem_cons_of_mem _ (hb.linked x hx)
  · show (blocksOf h'.mem (node :: ns)).Subperm (e :: L.blocks)
    have hentry : blocksOf h'.mem (node :: ns) = e :: blocksOf h.mem ns := by
      rw [← hg.records.tail.blocksOf_eq, blocksOf, List.map_cons, hg.entry.1, hg.entry.2]
      rfl
    rw [hentry]
    exact (List.subperm_cons e).mpr hb.records
  · have hv' : forget e L.written y = some v := hv
    rw [forget] at hv'
    split_ifs at hv' with hey
    have hold : 0 < cover L.owned y := by
      rw [howned, cover_cons, cover_singleton, if_neg hey] at hy
      omega
    have hout := hb.outside hold (List.mem_cons_self (a := hdptr) (l := ns))
    rw [hg.frame y (hb.untouched hold) (by omega)]
    exact hb.contents y v hv' hold

/-- **A stack is granted.** -/
theorem Balanced.stack (hb : Balanced bs₀ bs hdptr ns (h, L)) {bs' : List Extent}
    (hg : StackGranted h h' bs bs' hdptr ns e) : Balanced bs₀ bs' hdptr ns (h', L.stack e) := by
  obtain ⟨hlist, hmin, hmax⟩ := hg.same
  have hcover : ∀ y, cover (L.stack e).owned y = cover [e] y + cover L.owned y := by
    intro y
    show cover (L.blocks ++ e :: L.stackAreas) y = cover [e] y + cover (L.blocks ++ L.stackAreas) y
    rw [cover_append, cover_cons, cover_append]
    omega
  have hmem : ∀ d ∈ (L.stack e).owned, d = e ∨ d ∈ L.owned := by
    intro d hd
    rcases mem_owned.mp hd with hd | hd
    · exact .inr (mem_owned.mpr (.inl hd))
    · rcases List.mem_cons.mp hd with rfl | hd
      · exact .inl rfl
      · exact .inr (mem_owned.mpr (.inr hd))
  refine ⟨hg.tracking, hg.flag.trans hb.flag, hb.apart, fun y => ?_, fun d hd => ?_, fun d hd => ?_,
    hb.linked, ?_, fun y v hv hy => ?_⟩
  · have h1 : cover bs y + cover L.owned y + cover (nodeBytes L.nodes) y = cover bs₀ y :=
      hb.owners y
    have h2 := hg.split y
    show cover bs' y + cover (L.stack e).owned y + cover (nodeBytes L.nodes) y = _
    rw [hcover]
    omega
  · rcases hmem d hd with rfl | hd
    · exact hg.sized
    · exact hb.sized d hd
  · simp only [hmin, hmax]
    rcases hmem d hd with rfl | hd
    · exact hg.within
    · exact hb.within d hd
  · show (blocksOf h'.mem ns).Subperm L.blocks
    rw [hg.records.tail.blocksOf_eq]
    exact hb.records
  · have hv' : forget e L.written y = some v := hv
    rw [forget] at hv'
    split_ifs at hv' with hey
    have hold : 0 < cover L.owned y := by
      have hy' : 0 < cover (L.stack e).owned y := hy
      rw [hcover, cover_singleton, if_neg hey] at hy'
      omega
    rw [hg.frame y (hb.untouched hold)]
    exact hb.contents y v hv' hold

/-- **A block or a stack is given back.** -/
theorem Balanced.returned (hb : Balanced bs₀ bs hdptr ns (h, L)) {bs' : List Extent}
    (hr : RangeReturned h h' bs bs' hdptr ns e) (hnodes : L'.nodes = L.nodes)
    (hwritten : L'.written = L.written)
    (hcover : ∀ y, cover L.owned y = cover L'.owned y + cover [e] y)
    (hsub : L'.owned ⊆ L.owned)
    (hrec : (blocksOf h.mem (ns.eraseP fun x => memblockptr h.mem x = e.addr)).Subperm L'.blocks) :
    Balanced bs₀ bs' hdptr (ns.eraseP fun x => memblockptr h.mem x = e.addr) (h', L') := by
  obtain ⟨hlist, hmin, hmax⟩ := hr.same
  refine ⟨hr.tracking, hr.flag.trans hb.flag, hb.apart, fun y => ?_,
    fun d hd => hb.sized d (hsub hd), fun d hd => ?_, fun x hx => ?_, ?_, fun y v hv hy => ?_⟩
  · have h1 := hb.owners y
    have h2 := hr.joined y
    have h3 := hcover y
    simp only [hnodes] at h1 ⊢
    omega
  · simp only [hmin, hmax]
    exact hb.within d (hsub hd)
  · simp only [hnodes]
    exact hb.linked x (List.mem_of_mem_eraseP hx)
  · show (blocksOf h'.mem _).Subperm _
    rw [hr.records.tail.blocksOf_eq]
    exact hrec
  · have h1 := hcover y
    have h2 := hb.owned_le y
    have hold : 0 < cover L.owned y := by
      simp only at hy
      omega
    have hno : ¬e.Has y := by
      intro hey
      have := cover_pos (List.mem_singleton_self e) hey
      simp only at h2 hy
      omega
    rw [hr.frame y (hb.untouched hold) hno fun z hz => by
      have := hb.outside hold hz
      omega]
    exact hb.contents y v (hwritten ▸ hv) hold

/-- The records after the block's node, if there is one, left the list. -/
theorem records_erase {blocks : List Extent} (hs : (blocksOf m ns).Subperm blocks)
    (honly : ∀ d ∈ blocks, d.addr = e.addr → d = e) :
    (blocksOf m (ns.eraseP fun x => memblockptr m x = e.addr)).Subperm (blocks.erase e) := by
  have herase := hs.erase e
  by_cases hrec : Recorded m ns e.addr
  · obtain ⟨y, hy, hyptr⟩ := hrec
    obtain ⟨x, pre, post, -, hx, rfl, heq⟩ :=
      List.exists_of_eraseP (p := fun x => memblockptr m x = e.addr) hy (decide_eq_true hyptr)
    have hxptr : memblockptr m x = e.addr := by simpa using hx
    have hentry : (⟨memblockptr m x, memlen m x⟩ : Extent) = e :=
      honly _ (hs.subset (List.mem_map_of_mem (by simp))) hxptr
    have hperm : (blocksOf m (pre ++ x :: post)).Perm (e :: blocksOf m (pre ++ post)) := by
      rw [blocksOf, blocksOf, List.map_append, List.map_append, List.map_cons, hentry]
      exact List.perm_middle
    have hperm' := hperm.erase e
    rw [List.erase_cons_head] at hperm'
    rw [heq]
    exact hperm'.symm.subperm.trans herase
  · rw [List.eraseP_of_forall_not fun x hx he => hrec ⟨x, hx, by simpa using he⟩]
    rwa [List.erase_of_not_mem fun hmem => ?_] at herase
    obtain ⟨x, hx, rfl⟩ := List.mem_map.mp hmem
    exact hrec ⟨x, hx, rfl⟩

/-- The owner of the range may give it back. -/
theorem Balanced.accepted (hb : Balanced bs₀ bs hdptr ns (h, L))
    (he : ⟨blk, roundedSize n⟩ ∈ L.owned) (hok : ExtractsSafely hdptr h blk) :
    ∃ h' bs', Xinu.freemem hdptr blk n h = some (h', OK) ∧
      RangeReturned h h' bs bs' hdptr ns ⟨blk, roundedSize n⟩ := by
  obtain ⟨hdvd, hpos⟩ := hb.sized _ he
  obtain ⟨hlo, hhi⟩ := hb.within _ he
  have hn : 0 < n := by
    rcases Nat.eq_zero_or_pos n with rfl | hn
    · exact absurd hpos (Nat.lt_irrefl 0)
    · exact hn
  have hl : Legitimate h bs blk n := by
    refine ⟨hlo, hhi, fun c hc y ⟨h1, h2⟩ => ?_⟩
    exact (hb.untouched (cover_pos he h1)).2 c hc h2
  refine hb.tracking.freemem hn hdvd hl hok fun z hz y h1 h2 hy => ?_
  have := hb.outside (cover_pos he hy) hz
  omega

/-- **A block is given back.** -/
theorem Balanced.freemem (hb : Balanced bs₀ bs hdptr ns (h, L))
    (he : ⟨blk, roundedSize n⟩ ∈ L.blocks) (hok : ExtractsSafely hdptr h blk) :
    ∃ h' bs' ns', Xinu.freemem hdptr blk n h = some (h', OK) ∧
      Balanced bs₀ bs' hdptr ns'
        (h', { L with blocks := L.blocks.erase ⟨blk, roundedSize n⟩ }) := by
  have howned := mem_owned.mpr (.inl he)
  obtain ⟨h', bs', hfree, hret⟩ := hb.accepted howned hok
  refine ⟨h', bs', _, hfree, hb.returned hret rfl rfl (fun y => ?_) (fun d hd => ?_)
    (records_erase hb.records fun d hd haddr => ?_)⟩
  · have := cover_erase he y
    show cover (L.blocks ++ L.stackAreas) y = cover (L.blocks.erase _ ++ L.stackAreas) y + _
    rw [cover_append, cover_append]
    omega
  · rcases mem_owned.mp hd with hd | hd
    · exact mem_owned.mpr (.inl (List.mem_of_mem_erase hd))
    · exact mem_owned.mpr (.inr hd)
  · have hd' := mem_owned.mpr (.inl hd)
    have haddr' : d.addr = blk := haddr
    have hfirst : ∀ c ∈ L.owned, c.Has c.addr := fun c hc =>
      ⟨le_rfl, Nat.lt_add_of_pos_right (hb.sized c hc).2⟩
    exact eq_of_cover_le (hb.owned_le blk) howned hd' (hfirst _ howned) (haddr' ▸ hfirst d hd')

/-- No node records a stack. -/
theorem Balanced.stack_unrecorded {p len : Nat} (hb : Balanced bs₀ bs hdptr ns s)
    (he : stackExtent p len ∈ s.2.stackAreas) :
    ¬Recorded s.1.mem ns (stackExtent p len).addr := by
  rintro ⟨x, hx, haddr⟩
  have hrec : (⟨memblockptr s.1.mem x, memlen s.1.mem x⟩ : Extent) ∈ s.2.blocks :=
    hb.records.subset (List.mem_map_of_mem hx)
  have hlen := (hb.sized _ (mem_owned.mpr (.inl hrec))).2
  have hpos := (hb.sized _ (mem_owned.mpr (.inr he))).2
  have h1 := cover_pos (x := (stackExtent p len).addr) hrec
    ⟨haddr.le, by simp only [Extent.fin] at hlen ⊢; omega⟩
  have h2 := cover_pos (x := (stackExtent p len).addr) he ⟨le_rfl, Nat.lt_add_of_pos_right hpos⟩
  have h3 := hb.owned_le (stackExtent p len).addr
  rw [HeapLedger.owned, cover_append] at h3
  omega

/-- **A stack is given back.** -/
theorem Balanced.freestk {p len : Nat} (hb : Balanced bs₀ bs hdptr ns (h, L))
    (he : stackExtent p len ∈ L.stackAreas)
    (hok : ExtractsSafely hdptr h (stackExtent p len).addr) :
    ∃ h' bs' ns', Xinu.freestk hdptr p len h = some (h', OK) ∧
      Balanced bs₀ bs' hdptr ns'
        (h', { L with stackAreas := L.stackAreas.erase (stackExtent p len) }) := by
  have howned := mem_owned.mpr (.inr he)
  have hpos := (hb.sized _ howned).2
  obtain ⟨hlo, hhi⟩ := hb.within _ howned
  have hhead := hb.tracking.free.header
  have hspace := hb.tracking.free.space
  simp only at hlo hhi hhead hspace
  obtain ⟨n, -, hsize, hrun⟩ :=
    freestk_eq_freemem hdptr h p len (by omega) hpos (by omega)
  have hext : (⟨(stackExtent p len).addr, roundedSize n⟩ : Extent) = stackExtent p len := by
    rw [hsize]
  obtain ⟨h', bs', hfree, hret⟩ := hb.accepted (n := n) (hext ▸ howned) hok
  rw [hext] at hret
  refine ⟨h', bs', _, hrun.trans hfree, hb.returned hret rfl rfl (fun y => ?_) (fun d hd => ?_) ?_⟩
  · have := cover_erase he y
    show cover (L.blocks ++ L.stackAreas) y = cover (L.blocks ++ L.stackAreas.erase _) y + _
    rw [cover_append, cover_append]
    omega
  · rcases mem_owned.mp hd with hd | hd
    · exact mem_owned.mpr (.inl hd)
    · exact mem_owned.mpr (.inr (List.mem_of_mem_erase hd))
  · rw [List.eraseP_of_forall_not fun x hx haddr =>
      hb.stack_unrecorded he ⟨x, hx, by simpa using haddr⟩]
    exact hb.records

/-- **The header is reset**: the nodes of its list are out of reach. -/
theorem Balanced.resetHeader (hb : Balanced bs₀ bs hdptr ns (h, L)) :
    Balanced bs₀ bs hdptr [] ({ h with mem := Xinu.resetHeader hdptr h.mem }, L) := by
  have hfit := hb.tracking.fits hdptr List.mem_cons_self
  have hsame : ∀ y, (y < hdptr ∨ hdptr + 12 ≤ y) → Xinu.resetHeader hdptr h.mem y = h.mem y := by
    intro y hy
    simp (disch := omega) only [Xinu.resetHeader, store_apply_of_outside]
  have hlive := hb.tracking.live hdptr List.mem_cons_self
  refine ⟨⟨⟨⟨?_, by simp⟩, ?_, List.pairwise_singleton _ _⟩, ?_, ?_⟩, hb.flag, hb.apart, hb.owners,
    hb.sized, hb.within, by simp, List.nil_subperm, fun y v hv hy => ?_⟩
  · show inuseNext (Xinu.resetHeader hdptr h.mem) hdptr = 0
    rw [inuseNext, Xinu.resetHeader, load_store_same]
    rfl
  · simpa using hfit
  · refine hb.tracking.free.congr fun y hy => hsame y ?_
    by_contra hin
    exact hy (hlive y (by omega) (by omega))
  · intro x hx y h1 h2
    obtain rfl := List.mem_singleton.mp hx
    exact hlive y h1 h2
  · exact (hsame y (hb.outside hy List.mem_cons_self)).trans (hb.contents y v hv hy)

/-- **A process writes** where it may. -/
theorem Balanced.write {addr : Nat} (hb : Balanced bs₀ bs hdptr ns (h, L)) (byte : UInt8)
    (hown : 0 < cover L.owned addr) :
    Balanced bs₀ bs hdptr ns ({ h with mem := Function.update h.mem addr byte },
      { L with written := Function.update L.written addr (some byte) }) := by
  have hfree := hb.untouched hown
  have hsame : ∀ y, y ≠ addr → Function.update h.mem addr byte y = h.mem y := fun y hy =>
    Function.update_of_ne hy byte h.mem
  have hnodes : ∀ z ∈ hdptr :: ns, ∀ y, z ≤ y → y < z + 12 →
      Function.update h.mem addr byte y = h.mem y := fun z hz y h1 h2 => hsame y fun he => by
    have := hb.outside hown hz
    omega
  obtain ⟨hlist, hrec⟩ := hb.tracking.toNodeList.congr hnodes
  refine ⟨⟨hlist, hb.tracking.free.congr fun y hy => hsame y fun he => hy (he ▸ hfree),
    hb.tracking.live⟩, hb.flag, hb.apart, hb.owners, hb.sized, hb.within, hb.linked, ?_,
    fun y v hv hy => ?_⟩
  · show (blocksOf (Function.update h.mem addr byte) ns).Subperm L.blocks
    rw [hrec.tail.blocksOf_eq]
    exact hb.records
  · by_cases hya : y = addr
    · subst hya
      have hv' : Function.update L.written y (some byte) y = some v := hv
      rw [Function.update_self] at hv'
      show Function.update h.mem y byte y = v
      rw [Function.update_self]
      exact Option.some.inj hv'
    · have hv' : Function.update L.written addr (some byte) y = some v := hv
      rw [Function.update_of_ne hya] at hv'
      exact (hsame y hya).trans (hb.contents y v hv' hy)

end Xinu
