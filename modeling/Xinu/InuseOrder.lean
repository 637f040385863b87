/-
# The order of the in-use list

A process's in-use list is meant to be a priority list, in increasing order of the blocks its nodes
record.  `meminsert` does not look for a place: it puts every node at the front.  Removal keeps
whatever order there is, so the list is in order as long as every block that is granted lies below
the blocks recorded so far (`inuse_sorted`), and not beyond that (`getmem_ascending_iff`).

That freeing a recorded block is accepted and damages nothing is not assumed but shown: in
`Owned` every byte belongs to at most one of the free blocks, the recorded blocks, the nodes and the
header.
-/
import Xinu.InuseList

namespace Xinu

open ByteMemory Chains LinkedPath Extents Runs

variable {m m' : Mem} {h h' : Heap} {hdptr nbytes blk x : Nat} {b : Extent}
  {bs pre post : List Extent} {ns : List Nat}

/-! ## 1. Who owns what -/

/-- The blocks that the nodes record. -/
def blocksOf (m : Mem) (ns : List Nat) : List Extent :=
  ns.map fun x => ⟨memblockptr m x, memlen m x⟩

/-- The bytes of the nodes. -/
def nodesOf (xs : List Nat) : List Extent := xs.map fun x => ⟨x, 12⟩

/-- The list is in strictly increasing order of the blocks. -/
def Ascending (m : Mem) (ns : List Nat) : Prop :=
  ns.Pairwise fun x y => memblockptr m x < memblockptr m y

/-- Free blocks, recorded blocks, nodes and header have no byte in common, and the recorded blocks
are blocks of the heap. -/
structure Owned (h : Heap) (bs : List Extent) (hdptr : Nat) (ns : List Nat) : Prop
    extends Tracking h bs hdptr ns where
  blocks : ∀ e ∈ blocksOf h.mem ns,
    (8 ∣ e.addr ∧ 8 ∣ e.len ∧ 0 < e.len) ∧ h.minheap ≤ e.addr ∧ e.fin ≤ h.maxheap
  once : ∀ y, cover (blocksOf h.mem ns) y + cover (nodesOf (hdptr :: ns)) y + cover bs y ≤ 1
  flag : h.memblockkflag = 0

theorem SameRecords.trans {m'' : Mem} {xs : List Nat} (h₁ : SameRecords m m' xs)
    (h₂ : SameRecords m' m'' xs) : SameRecords m m'' xs := fun x hx =>
  ⟨(h₂ x hx).1.trans (h₁ x hx).1, (h₂ x hx).2.trans (h₁ x hx).2⟩

theorem SameRecords.tail {xs : List Nat} (hr : SameRecords m m' (x :: xs)) :
    SameRecords m m' xs := fun y hy => hr y (List.mem_cons_of_mem _ hy)

theorem SameRecords.blocksOf_eq (hr : SameRecords m m' ns) : blocksOf m' ns = blocksOf m ns := by
  refine List.map_congr_left fun x hx => ?_
  rw [(hr x hx).1, (hr x hx).2]

theorem SameRecords.ascending_iff (hr : SameRecords m m' ns) :
    Ascending m' ns ↔ Ascending m ns := by
  refine List.Pairwise.iff_of_mem fun {x y} hx hy => ?_
  rw [(hr x hx).1, (hr y hy).1]

/-! ## 2. `getmem` -/

/-- A block and its node are both to be had: they are taken from the free blocks. -/
theorem Owned.getmem (ho : Owned h bs hdptr ns) (hn : nbytes ≠ 0)
    (hlt : roundedSize nbytes < addrSpace)
    (hblock : firstFit (roundedSize nbytes) bs = some (pre, b, post))
    (hfit : NodeFits (roundedSize nbytes) bs) :
    ∃ h' node bs', Xinu.getmem hdptr nbytes h = some (h', b.addr) ∧
      Owned h' bs' hdptr (node :: ns) ∧ memblockptr h'.mem node = b.addr ∧
      SameRecords h.mem h'.mem (hdptr :: ns) := by
  have hround := roundmb_of_fits hlt
  have hsize := roundedSize_pos (Nat.pos_of_ne_zero hn)
  have hpos : 0 < roundedSize nbytes := by omega
  have hdvd : 8 ∣ roundedSize nbytes := hround ▸ roundmb_dvd nbytes
  have hgets := getmem_takes hdptr ho.free ho.flag hn (hround ▸ hblock)
  obtain ⟨pre₂, b₂, post₂, hblock₂, ⟨pre', c, post'⟩, hnode⟩ := hfit.firstFit
  obtain ⟨rfl, rfl, rfl⟩ : pre₂ = pre ∧ b₂ = b ∧ post₂ = post := by
    simpa using hblock₂.symm.trans hblock
  obtain ⟨rfl, hle, -⟩ := firstFit_some hblock
  have hb := ho.free.canonical.aligned b₂ (by simp)
  have hbin := ho.free.within b₂ (by simp)
  have hblt : b₂.addr < addrSpace := by
    have hspace := ho.free.space
    rw [Extent.fin] at hbin
    omega
  -- the block, then the node
  obtain ⟨ht₁, hrec₁, htaken⟩ := ho.toTracking.take hdvd hpos hle
  have hf₁ := ht₁.free
  have hmid := (firstFit_some hnode).1
  have hle' := (firstFit_some hnode).2.1
  rw [hmid] at ht₁ hnode
  obtain ⟨h₂, hins⟩ := ht₁.insert b₂.addr hnode
  have hrec := hrec₁.trans hins.records
  have haddr : memblockptr h₂.mem c.addr = b₂.addr := by
    rw [hins.block, Nat.mod_eq_of_lt hblt]
  have hlen : memlen h₂.mem c.addr = roundedSize nbytes := by
    refine (hins.len (fun y h1 h2 => ?_) ?_).trans htaken.recorded
    · rw [← hmid]
      exact ho.free.carved_untouched hle (by omega) (by omega)
    · have hspace := ho.free.space
      rw [Extent.fin] at hbin
      omega
  have hblocks : blocksOf h₂.mem (c.addr :: ns) =
      ⟨b₂.addr, roundedSize nbytes⟩ :: blocksOf h.mem ns := by
    rw [← hrec.tail.blocksOf_eq, blocksOf, List.map_cons, haddr, hlen]
    rfl
  obtain ⟨hmem, hmin, hmax⟩ := hins.same
  refine ⟨{ h₂ with memblockkflag := 0 }, c.addr, _, ?_, ⟨⟨hins.tracking.toNodeList,
    hins.tracking.free.withFlag 0, hins.tracking.live⟩, ?_, fun y => ?_, rfl⟩, haddr, hrec⟩
  · rw [hgets, hround, hins.runs, Option.map_some]
  · intro e he
    simp only [hblocks, hmin, hmax] at he ⊢
    rcases List.mem_cons.mp he with rfl | he
    · refine ⟨⟨hb, hdvd, hpos⟩, hbin.1, ?_⟩
      simp only [Extent.fin] at hbin ⊢
      omega
    · exact ho.blocks e he
  · have hone := ho.once y
    have hcut := cover_carve_mid hle pre₂ post₂ y
    have hcut' := cover_carve_mid hle' pre' post' y
    have hnode : cover [⟨c.addr, 16⟩] y = cover [⟨c.addr, 12⟩] y + cover [⟨c.addr + 12, 4⟩] y :=
      cover_split c.addr 12 4 y
    rw [← hmid] at hcut'
    simp only [hblocks, nodesOf, List.map_cons] at hone ⊢
    rw [cover_cons] at hone ⊢
    rw [cover_cons ⟨hdptr, 12⟩, cover_cons ⟨c.addr, 12⟩]
    omega

/-- The order after a block was granted: the new node is the first. -/
theorem getmem_ascending_iff {node : Nat} (hrec : SameRecords m m' (hdptr :: ns))
    (hnode : memblockptr m' node = blk) :
    Ascending m' (node :: ns) ↔ Ascending m ns ∧ ∀ x ∈ ns, blk < memblockptr m x := by
  rw [Ascending, List.pairwise_cons, and_comm, ← Ascending, hrec.tail.ascending_iff, hnode]
  refine and_congr_right fun _ => forall₂_congr fun x hx => ?_
  rw [(hrec.tail x hx).1]

/-! ## 3. `freemem` -/

/-- A recorded block is a legitimate range to give back. -/
theorem Owned.legitimate (ho : Owned h bs hdptr ns) (hx : x ∈ ns)
    (hlen : memlen h.mem x = roundedSize nbytes) :
    Legitimate h bs (memblockptr h.mem x) nbytes := by
  have hmem : (⟨memblockptr h.mem x, memlen h.mem x⟩ : Extent) ∈ blocksOf h.mem ns :=
    List.mem_map_of_mem hx
  obtain ⟨-, hlo, hhi⟩ := ho.blocks _ hmem
  rw [hlen] at hmem hhi
  refine ⟨hlo, hhi, fun c hc y ⟨h1, h2⟩ => ?_⟩
  have hone := ho.once y
  have hy := cover_pos hmem h1
  have hy' := cover_pos hc h2
  omega

/-- In an ordered list the node of a block is the only one. -/
theorem Ascending.eraseP {p q : List Nat} (hs : Ascending m (p ++ x :: q)) :
    (p ++ x :: q).eraseP (fun y => memblockptr m y = memblockptr m x) = p ++ q := by
  obtain ⟨-, -, hpx⟩ := List.pairwise_append.mp hs
  have hfront : ∀ y ∈ p, ¬decide (memblockptr m y = memblockptr m x) = true := fun y hy => by
    simpa using (hpx y hy x (by simp)).ne
  rw [List.eraseP_append_right (x :: q) hfront, List.eraseP_cons_of_pos (by simp)]

/-- **A recorded block is given back**: the call is accepted, its node leaves the list, and every
byte has its one owner again. -/
theorem Owned.freemem {p q : List Nat} (ho : Owned h bs hdptr (p ++ x :: q))
    (hs : Ascending h.mem (p ++ x :: q)) (hlen : memlen h.mem x = roundedSize nbytes) :
    ∃ h' bs', Xinu.freemem hdptr (memblockptr h.mem x) nbytes h = some (h', OK) ∧
      Owned h' bs' hdptr (p ++ q) ∧ SameRecords h.mem h'.mem (hdptr :: (p ++ q)) := by
  have hx : x ∈ p ++ x :: q := by simp
  have hblk : (⟨memblockptr h.mem x, roundedSize nbytes⟩ : Extent) ∈
      blocksOf h.mem (p ++ x :: q) := hlen ▸ List.mem_map_of_mem hx
  obtain ⟨⟨hdvd, -, hpos⟩, -, -⟩ := ho.blocks _ hblk
  have hn : 0 < nbytes := by
    rcases Nat.eq_zero_or_pos nbytes with rfl | hn
    · exact absurd hpos (Nat.lt_irrefl 0)
    · exact hn
  have hl := ho.legitimate hx hlen
  have htrk : Tracked h bs hdptr (p ++ x :: q) := ⟨ho.toInuseList, ho.fits, ho.live⟩
  obtain ⟨m₁, he, hf₁, -, hfree⟩ :=
    freemem_eq ho.free htrk (memblockptr h.mem x) (Nat.ne_of_gt hn)
  obtain ⟨hstart, hend⟩ := hl.passes ho.free hn
  -- the node leaves the list
  obtain ⟨m₂, he', ht₁, hrec₁⟩ := ho.toTracking.extract (memblockptr h.mem x)
    (.inl ((ho.toInuseList.recorded_iff _).mpr ⟨x, hx, rfl⟩))
  rw [he] at he'
  obtain rfl := Option.some.inj he'
  rw [hs.eraseP] at ht₁
  have hsub' : (p ++ q).Sublist (p ++ x :: q) :=
    (List.Sublist.refl p).append (List.sublist_cons_self x q)
  have hsub := hsub'.cons_cons hdptr
  have hblocks : ∀ y, cover (blocksOf h.mem (p ++ x :: q)) y = cover (blocksOf h.mem (p ++ q)) y +
      cover [⟨memblockptr h.mem x, roundedSize nbytes⟩] y := by
    intro y
    rw [blocksOf, blocksOf, List.map_append, List.map_append, List.map_cons, hlen, cover_append,
      cover_append, cover_cons]
    omega
  have hnodes : ∀ y, cover (nodesOf (hdptr :: (p ++ q))) y ≤
      cover (nodesOf (hdptr :: (p ++ x :: q))) y := fun y => (hsub.map _).countP_le
  -- and the block joins the free blocks
  obtain ⟨bs', hf', hcover, hframe⟩ :=
    Legitimate.given (h := { h with mem := m₁ }) hf₁ hl hn hdvd
  have hout : ∀ z ∈ hdptr :: (p ++ q), ∀ y, z ≤ y → y < z + 12 →
      Untouched h.memlist bs y ∧
        ¬Extent.Has ⟨memblockptr h.mem x, roundedSize nbytes⟩ y := by
    intro z hz y h1 h2
    refine ⟨ht₁.live z hz y h1 h2, fun hy => ?_⟩
    have hone := ho.once y
    have hnode : 0 < cover (nodesOf (hdptr :: (p ++ x :: q))) y :=
      cover_pos (b := ⟨z, 12⟩) (List.mem_map_of_mem (hsub.subset hz)) ⟨h1, h2⟩
    have hblock := cover_pos hblk hy
    omega
  obtain ⟨hn₂, hrec₂⟩ := ht₁.toNodeList.congr fun z hz y h1 h2 =>
    hframe y (hout z hz y h1 h2).1 (hout z hz y h1 h2).2
  have hrec : SameRecords h.mem (linkAt m₁ h.memlist bs (memblockptr h.mem x) (roundmb nbytes))
      (hdptr :: (p ++ q)) :=
    SameRecords.trans (fun z hz => hrec₁ z (hsub.subset hz)) hrec₂
  refine ⟨_, bs', hfree hstart hend, ⟨⟨hn₂, hf', fun z hz y h1 h2 => ?_⟩, ?_, fun y => ?_,
    ho.flag⟩, hrec⟩
  · obtain ⟨hu, hno⟩ := hout z hz y h1 h2
    obtain ⟨h3, h4⟩ := untouched_iff.mp hu
    have hrange := cover_singleton ⟨memblockptr h.mem x, roundedSize nbytes⟩ y
    rw [if_neg hno] at hrange
    have := hcover y
    exact untouched_iff.mpr ⟨h3, by omega⟩
  · rw [hrec.tail.blocksOf_eq]
    intro e hmem
    exact ho.blocks e ((hsub'.map _).subset hmem)
  · have hone := ho.once y
    have h1 := hblocks y
    have h2 := hnodes y
    have h3 := hcover y
    rw [hrec.tail.blocksOf_eq]
    omega

/-! ## 4. Runs -/

/-- The calls of a process. -/
inductive HeapCall
  | getmem (nbytes : Nat)
  | freemem (blkaddr nbytes : Nat)

/-- One call; no result means that the call does not end. -/
def HeapCall.run (hdptr : Nat) (h : Heap) : HeapCall → Option Heap
  | .getmem nbytes => (Xinu.getmem hdptr nbytes h).map Prod.fst
  | .freemem blkaddr nbytes => (Xinu.freemem hdptr blkaddr nbytes h).map Prod.fst

/-- Nothing is granted; or there is room for the block and its node, and the first free block that
is large enough lies below every recorded block. -/
def GrantsBelow (h : Heap) (bs : List Extent) (ns : List Nat) (nbytes : Nat) : Prop :=
  nbytes = 0 ∨ (∀ b ∈ bs, b.len < roundmb nbytes) ∨
    roundedSize nbytes < addrSpace ∧ NodeFits (roundedSize nbytes) bs ∧
      ∀ pre b post, firstFit (roundedSize nbytes) bs = some (pre, b, post) →
        ∀ x ∈ ns, b.addr < memblockptr h.mem x

/-- Refused before the list is looked at; or a recorded block is freed, with its size. -/
def FreesOwn (h : Heap) (ns : List Nat) (blk nbytes : Nat) : Prop :=
  RefusedAtOnce h blk nbytes ∨
    ∃ x ∈ ns, memblockptr h.mem x = blk ∧ memlen h.mem x = roundedSize nbytes

/-- The calls after which the order is kept. -/
def HeapCall.KeepsOrder (hdptr : Nat) (h : Heap) : HeapCall → Prop
  | .getmem nbytes => ∀ bs ns, FreeList h bs → InuseList h.mem hdptr ns →
      GrantsBelow h bs ns nbytes
  | .freemem blkaddr nbytes => ∀ ns, InuseList h.mem hdptr ns → FreesOwn h ns blkaddr nbytes

/-- **What one such call preserves.** -/
theorem Owned.step {c : HeapCall} (ho : Owned h bs hdptr ns) (hs : Ascending h.mem ns)
    (hok : c.KeepsOrder hdptr h) (hr : c.run hdptr h = some h') :
    ∃ bs' ns', Owned h' bs' hdptr ns' ∧ Ascending h'.mem ns' := by
  cases c with
  | getmem nbytes =>
    obtain ⟨⟨h₁, a⟩, hcall, rfl⟩ := Option.map_eq_some_iff.mp hr
    rcases hok bs ns ho.free ho.toInuseList with h0 | hnone | ⟨hlt, hfit, hbelow⟩
    · have hzero : Xinu.getmem hdptr nbytes h = some (h, sysErrPtr) := if_pos h0
      rw [hzero] at hcall
      obtain ⟨rfl, -⟩ := Prod.mk.inj (Option.some.inj hcall)
      exact ⟨bs, ns, ho, hs⟩
    · rw [getmem_fails ho.free (firstFit_none.mpr hnone)] at hcall
      obtain ⟨rfl, -⟩ := Prod.mk.inj (Option.some.inj hcall)
      exact ⟨bs, ns, ho, hs⟩
    · obtain ⟨pre, b, post, hblock, -⟩ := id hfit
      by_cases hn : nbytes = 0
      · have hzero : Xinu.getmem hdptr nbytes h = some (h, sysErrPtr) := if_pos hn
        rw [hzero] at hcall
        obtain ⟨rfl, -⟩ := Prod.mk.inj (Option.some.inj hcall)
        exact ⟨bs, ns, ho, hs⟩
      · obtain ⟨h₂, node, bs', hget, ho', hnode, hrec⟩ := ho.getmem hn hlt hblock hfit
        obtain rfl : h₂ = h₁ := (Prod.mk.inj (Option.some.inj (hget.symm.trans hcall))).1
        exact ⟨bs', node :: ns, ho',
          (getmem_ascending_iff hrec hnode).mpr ⟨hs, hbelow pre b post hblock⟩⟩
  | freemem blk nbytes =>
    obtain ⟨⟨h₁, r⟩, hcall, rfl⟩ := Option.map_eq_some_iff.mp hr
    rcases hok ns ho.toInuseList with honce | ⟨x, hx, rfl, hlen⟩
    · have hrefused : Xinu.freemem hdptr blk nbytes h = some (h, SYSERR) := if_pos honce
      rw [hrefused] at hcall
      obtain ⟨rfl, -⟩ := Prod.mk.inj (Option.some.inj hcall)
      exact ⟨bs, ns, ho, hs⟩
    · obtain ⟨p, q, rfl⟩ := List.append_of_mem hx
      obtain ⟨h₂, bs', hfree, ho', hrec⟩ := ho.freemem hs hlen
      obtain rfl : h₂ = h₁ := (Prod.mk.inj (Option.some.inj (hfree.symm.trans hcall))).1
      refine ⟨bs', p ++ q, ho', hrec.tail.ascending_iff.mpr (hs.sublist ?_)⟩
      exact (List.Sublist.refl p).append (List.sublist_cons_self x q)

/-- **The in-use list is in order after every call** of a run in which every block that is granted
lies below the recorded ones and has room for its node, and what is freed is a recorded block. -/
theorem inuse_sorted (ho : Owned h bs hdptr ns) (hs : Ascending h.mem ns) :
    ∀ s, Reaches (HeapCall.run hdptr) (fun h c => c.KeepsOrder hdptr h) h s →
      ∃ ns', InuseList s.mem hdptr ns' ∧ Ascending s.mem ns' := by
  intro s hrun
  obtain ⟨bs', ns', ho', hs'⟩ := hrun.invariant
    (I := fun s => ∃ bs ns, Owned s bs hdptr ns ∧ Ascending s.mem ns) ⟨bs, ns, ho, hs⟩
    fun _ _ _ ⟨_, _, ho, hs⟩ hok hr => ho.step hs hok hr
  exact ⟨ns', ho'.toInuseList, hs'⟩

theorem owned_halfHeap : Owned halfHeap [⟨0x2000, 0x1000⟩] 0x3000 [] := by
  refine ⟨tracking_halfHeap, by simp [blocksOf], fun y => ?_, rfl⟩
  have hapart : [(⟨0x3000, 12⟩ : Extent), ⟨0x2000, 0x1000⟩].Pairwise Extent.Apart := by
    refine List.pairwise_pair.mpr fun x ⟨h1, h2⟩ => ?_
    simp only [Extent.Has, Extent.fin] at h1 h2
    omega
  have hone := pairwise_apart_iff.mp hapart y
  rw [cover_cons] at hone
  simpa [blocksOf, nodesOf] using hone

/-- A heap has one free list. -/
theorem FreeList.unique {bs' : List Extent} (hf : FreeList h bs) (hf' : FreeList h bs') :
    bs = bs' :=
  hf.threaded.unique hf'.threaded (fun _ hb => hf.addr_ne_zero hb) fun _ hb => hf'.addr_ne_zero hb

/-- The first request of a new process. -/
theorem inuse_sorted_halfHeap : ∃ s, (HeapCall.getmem 100).run 0x3000 halfHeap = some s ∧
    ∃ ns', InuseList s.mem 0x3000 ns' ∧ Ascending s.mem ns' := by
  have hrun : ((HeapCall.getmem 100).run 0x3000 halfHeap).isSome := by decide +kernel
  obtain ⟨s, hs⟩ := Option.isSome_iff_exists.mp hrun
  have hok : (HeapCall.getmem 100).KeepsOrder 0x3000 halfHeap := by
    intro bs ns hf hi
    obtain rfl := hf.unique freeList_halfHeap
    obtain rfl := hi.chain.unique tracking_halfHeap.chain hi.nonnull List.not_mem_nil
    exact .inr (.inr ⟨by decide, ⟨[], ⟨0x2000, 0x1000⟩, [], rfl, .inl (by decide)⟩, by simp⟩)
  exact ⟨s, hs, inuse_sorted owned_halfHeap .nil s (.tail .refl hok hs)⟩

/-- Two requests of a new process: the second block lies above the first and comes before it. -/
theorem second_block_out_of_order :
    ∃ s, Reaches (HeapCall.run 0x3000) always halfHeap s ∧
      ∀ ns, InuseList s.mem 0x3000 ns → ¬Ascending s.mem ns := by
  have hrun : (exec (HeapCall.run 0x3000) always halfHeap [.getmem 100, .getmem 100]).map (fun s =>
      (inuseNode s.mem 0x3000 0, inuseNode s.mem 0x3000 1,
        memblockptr s.mem (inuseNode s.mem 0x3000 0),
        memblockptr s.mem (inuseNode s.mem 0x3000 1))) =
      some (0x20e0, 0x2068, 0x2078, 0x2000) := by
    decide +kernel
  obtain ⟨s, hs, he⟩ := Option.map_eq_some_iff.mp hrun
  simp only [Prod.mk.injEq] at he
  obtain ⟨h0, h1, h2, h3⟩ := he
  refine ⟨s, reaches_of_exec hs, fun ns hi hord => ?_⟩
  have hget := hi.chain.get (f := inuseNode s.mem 0x3000) hi.nonnull rfl fun _ => rfl
  have hlen : 1 < ns.length := by
    by_contra hshort
    have hend := hget 1
    rw [List.getElem?_eq_none (by omega), h1] at hend
    exact absurd hend (by decide)
  have hlt := List.pairwise_iff_getElem.mp hord 0 1 (by omega) hlen (by omega)
  have hx : ns[0] = inuseNode s.mem 0x3000 0 := by
    rw [hget 0, List.getElem?_eq_getElem, Option.getD_some]
  have hy : ns[1] = inuseNode s.mem 0x3000 1 := by
    rw [hget 1, List.getElem?_eq_getElem, Option.getD_some]
  rw [hx, hy, h2, h3] at hlt
  omega

end Xinu
