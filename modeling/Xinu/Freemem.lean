/-
# What `freemem` accepts, and what it leaves behind when it does not

`freemem` compares the start of the range with the heap and the range with the free blocks on
either side, in 32-bit arithmetic.  It does not compare the end with `maxheap`.  So it accepts
exactly the legitimate ranges where an end beyond the heap cannot pass (`freemem_right_iff`).

Before the comparison with the neighbours `memextract` has already unlinked the block's node from
the in-use list; a range that is then refused has lost its node (`freemem_atomic_iff`).

The two halves of the module make different assumptions.  For acceptance the free list is
canonical and the in-use list stands in live memory (`FreeList`, `Tracked`), as between any two
calls.  For what a refusal leaves behind nothing is assumed about either list, so that the
condition covers lists that a wild write has bent into a ring.
-/
import Mathlib.Data.List.TakeWhile
import Xinu.FreeList

namespace Xinu

open ByteMemory Chains LinkedPath Extents

variable {m m' : Mem} {h h' : Heap} {hdptr ptr blk nbytes : Nat} {bs : List Extent} {ns : List Nat}

/-! ## 1. The in-use list

Before it looks at the free list, `freemem` calls `memextract`, which searches the in-use list of
the process and unlinks what it finds.  On a list in live memory the search ends, and what is
written is a link of the header or of a node, never of a free block. -/

/-- The list of nodes that `hdptr` heads. -/
structure InuseList (m : Mem) (hdptr : Nat) (ns : List Nat) : Prop where
  chain : Walk (inuseNext m) (inuseNext m hdptr) ns 0
  nonnull : 0 ∉ ns

/-- The nodes and their header stand in live memory: neither in free blocks nor in `memlist`. -/
structure Tracked (h : Heap) (bs : List Extent) (hdptr : Nat) (ns : List Nat) : Prop
    extends InuseList h.mem hdptr ns where
  fits : ∀ x ∈ hdptr :: ns, x + 12 ≤ addrSpace
  live : ∀ x ∈ hdptr :: ns, ∀ y, x ≤ y → y < x + 12 → Untouched h.memlist bs y

theorem Walk.lt_of_load (hw : Walk (inuseNext m) (inuseNext m hdptr) ns 0) :
    ∀ x ∈ ns, x < addrSpace := by
  induction ns generalizing hdptr with
  | nil => simp
  | cons x ns ih =>
    intro y hy
    rcases List.mem_cons.mp hy with rfl | hy
    · rw [← hw.1]
      exact load_lt m (hdptr + 8)
    · exact ih hw.2 y hy

/-- Such a list ends before any walk is given up. -/
theorem InuseList.length_lt (hi : InuseList m hdptr ns) : ns.length < walkBound := by
  have hsub : ns.toFinset ⊆ Finset.Ioo 0 addrSpace := by
    intro x hx
    have hmem := List.mem_toFinset.mp hx
    refine Finset.mem_Ioo.mpr ⟨Nat.pos_of_ne_zero fun e => hi.nonnull (e ▸ hmem), ?_⟩
    exact Walk.lt_of_load hi.chain x hmem
  have hcard := Finset.card_le_card hsub
  rw [List.toFinset_card_of_nodup (hi.chain.nodup hi.nonnull), Nat.card_Ioo] at hcard
  have hpos : 0 < addrSpace := by decide
  exact Nat.lt_of_le_of_lt hcard (by rw [walkBound]; omega)

/-- **The search of `memextract`** stops at the first node that records the block. -/
theorem memextractSearch_eq {fuel prev a : Nat} (hw : Walk (inuseNext m) a ns 0) (h0 : 0 ∉ ns)
    (hfuel : ns.length < fuel) :
    memextractSearch m ptr fuel prev a =
      some ((ns.takeWhile fun x => memblockptr m x ≠ ptr).getLastD prev,
        (ns.dropWhile fun x => memblockptr m x ≠ ptr).headD 0) := by
  induction ns generalizing fuel prev a with
  | nil =>
    obtain ⟨fuel, rfl⟩ := Nat.exists_eq_succ_of_ne_zero (Nat.ne_of_gt (Nat.zero_lt_of_lt hfuel))
    exact if_pos hw
  | cons x ns ih =>
    obtain ⟨fuel, rfl⟩ := Nat.exists_eq_succ_of_ne_zero (Nat.ne_of_gt (Nat.zero_lt_of_lt hfuel))
    obtain ⟨rfl, hw⟩ := hw
    have hx : a ≠ 0 := fun e => h0 (by simp [e])
    rw [memextractSearch, if_neg hx]
    by_cases hfound : memblockptr m a = ptr
    · rw [if_pos hfound, List.takeWhile_cons_of_neg (by simpa using hfound),
        List.dropWhile_cons_of_neg (by simpa using hfound)]
      rfl
    · rw [if_neg hfound, ih hw (fun e => h0 (List.mem_cons_of_mem _ e)) (by simpa using hfuel),
        List.takeWhile_cons_of_pos (by simpa using hfound),
        List.dropWhile_cons_of_pos (by simpa using hfound), List.getLastD_cons]

/-- **`memextract`** writes the link of the header or of a node. -/
theorem memextract_eq (hi : InuseList m hdptr ns) (ptr : Nat) :
    ∃ u ∈ hdptr :: ns, memextract hdptr ptr m = some (store m (u + 8)
      (inuseNext m ((ns.dropWhile fun x => memblockptr m x ≠ ptr).headD 0))) := by
  refine ⟨(ns.takeWhile fun x => memblockptr m x ≠ ptr).getLastD hdptr, ?_, ?_⟩
  · rcases List.mem_cons.mp (getLastD_mem (ns.takeWhile fun x => memblockptr m x ≠ ptr) hdptr)
      with he | hmem
    · rw [he]
      exact List.mem_cons_self
    · exact List.mem_cons_of_mem _ ((List.takeWhile_sublist _).subset hmem)
  · rw [memextract, memextractSearch_eq hi.chain hi.nonnull hi.length_lt]
    rfl

/-- It does not touch the free list. -/
theorem memextract_freeList (hf : FreeList h bs) (ht : Tracked h bs hdptr ns) (ptr : Nat) :
    ∃ m', memextract hdptr ptr h.mem = some m' ∧ FreeList { h with mem := m' } bs := by
  obtain ⟨u, hu, he⟩ := memextract_eq ht.toInuseList ptr
  refine ⟨_, he, hf.congr fun y hy => ?_⟩
  have hfit := ht.fits u hu
  refine store_apply_of_outside (by omega) ?_
  by_contra hin
  exact hy (ht.live u hu y (by omega) (by omega))

/-! ## 2. The ranges that are accepted

The loop of `freemem` stops at the first free block behind the range, so it sees two neighbours.
The test on the block below is exact; the test on the block above is made in 32-bit arithmetic,
and there is none when no block follows. -/

/-- The number of bytes that a request for `nbytes` comes to. -/
def roundedSize (nbytes : Nat) : Nat := (nbytes + 7) / 8 * 8

/-- The range lies in the heap and no byte of it is free. -/
def Legitimate (h : Heap) (bs : List Extent) (blk nbytes : Nat) : Prop :=
  h.minheap ≤ blk ∧ blk + roundedSize nbytes ≤ h.maxheap ∧
    ∀ c ∈ bs, Extent.Apart ⟨blk, roundedSize nbytes⟩ c

/-- The start passes: it is in the heap and not inside a free block that begins below it. -/
def StartPasses (h : Heap) (bs : List Extent) (blk : Nat) : Prop :=
  h.minheap ≤ blk ∧ blk ≤ h.maxheap ∧ ∀ c ∈ bs, c.addr < blk → c.fin ≤ blk

/-- The free blocks that begin at or above the address. -/
abbrev blocksFrom (blk : Nat) (bs : List Extent) : List Extent := bs.dropWhile fun b => b.addr < blk

/-- The free blocks that begin below it. -/
abbrev blocksBelow (blk : Nat) (bs : List Extent) : List Extent :=
    bs.takeWhile fun b => b.addr < blk

/-- A range that begins at `blk` and ends at `fin` does not run over the heap unseen.  With a free
block above it the end is seen, unless it runs over the end of the address space and comes out below
that block again; without one it is not looked at. -/
def EndSeen (h : Heap) (bs : List Extent) (blk fin : Nat) : Prop :=
  match blocksFrom blk bs with
  | [] => fin ≤ h.maxheap
  | c :: _ => fin < addrSpace ∨ c.addr < fin % addrSpace

/-- The 32-bit test of `freemem` on the block above. -/
def EndPasses (bs : List Extent) (blk nbytes : Nat) : Prop :=
  ∀ c, (blocksFrom blk bs).head? = some c → (blk + roundmb nbytes) % addrSpace ≤ c.addr

theorem mem_blocks (blk : Nat) {c : Extent} (hc : c ∈ bs) :
    c ∈ blocksBelow blk bs ∨ c ∈ blocksFrom blk bs := by
  rw [← List.takeWhile_append_dropWhile (p := fun b : Extent => decide (b.addr < blk))
    (l := bs)] at hc
  exact List.mem_append.mp hc

theorem mem_blocksBelow {c : Extent} (hc : c ∈ blocksBelow blk bs) : c ∈ bs ∧ c.addr < blk :=
  ⟨(List.takeWhile_sublist _).subset hc, by simpa using List.mem_takeWhile_imp hc⟩

/-- The blocks from the address on all begin there or above. -/
theorem mem_blocksFrom (hc : Canonical 8 bs) {c : Extent} (hmem : c ∈ blocksFrom blk bs) :
    c ∈ bs ∧ blk ≤ c.addr := by
  refine ⟨(List.dropWhile_sublist _).subset hmem, ?_⟩
  have hgaps := hc.gaps
  clear hc
  induction bs with
  | nil => simp at hmem
  | cons b bs ih =>
    obtain ⟨h1, h2⟩ := List.pairwise_cons.mp hgaps
    by_cases hb : b.addr < blk
    · rw [blocksFrom, List.dropWhile_cons_of_pos (by simpa using hb)] at hmem
      exact ih hmem h2
    · rw [blocksFrom, List.dropWhile_cons_of_neg (by simpa using hb)] at hmem
      rcases List.mem_cons.mp hmem with rfl | hmem
      · omega
      · have := h1 c hmem
        rw [Extent.fin] at this
        omega

theorem blocks_append (blk : Nat) (bs : List Extent) :
    blocksBelow blk bs ++ blocksFrom blk bs = bs :=
  List.takeWhile_append_dropWhile

/-- What `freemem` writes when the free blocks are `bs`. -/
def linkAt (m : Mem) (memlist : Nat) (bs : List Extent) (blk n : Nat) : Mem :=
  let prev := lastOf memlist (blocksBelow blk bs)
  freememLink m memlist blk n prev (((blocksFrom blk bs).map Extent.addr).headD 0)
    (if prev = memlist then 0 else (prev + mlength m prev) % addrSpace)

/-- The test on the block below. -/
theorem below_passes_iff (hf : FreeList h bs) (blk : Nat) :
    ¬(lastOf h.memlist (blocksBelow blk bs) ≠ h.memlist ∧
        blk < if lastOf h.memlist (blocksBelow blk bs) = h.memlist then 0
          else (lastOf h.memlist (blocksBelow blk bs) +
            mlength h.mem (lastOf h.memlist (blocksBelow blk bs))) % addrSpace) ↔
      ∀ c ∈ bs, c.addr < blk → c.fin ≤ blk := by
  have happ := blocks_append blk bs
  -- only the blocks below begin below
  have hbelow : ∀ c ∈ bs, c.addr < blk → c ∈ blocksBelow blk bs := by
    intro c hc hlt
    rcases mem_blocks blk hc with hmem | hmem
    · exact hmem
    · have := (mem_blocksFrom hf.canonical hmem).2
      omega
  rcases List.eq_nil_or_concat' (blocksBelow blk bs) with hnil | ⟨pre, p, hpre⟩
  · rw [hnil]
    constructor
    · intro _ c hc hlt
      have := hbelow c hc hlt
      rw [hnil] at this
      exact absurd this (by simp)
    · rintro - ⟨hne, -⟩
      exact hne rfl
  · have hp : p ∈ blocksBelow blk bs := by simp [hpre]
    obtain ⟨hpbs, hplt⟩ := mem_blocksBelow hp
    have hhd := hf.laid.above p hpbs
    have hfin := (hf.within p hpbs).2
    have hspace := hf.space
    rw [hpre, lastOf_concat, if_neg (by omega), hf.threaded.lens p hpbs, ← Extent.fin,
      Nat.mod_eq_of_lt (by omega)]
    constructor
    · intro hpass c hc hlt
      have hpb : p.fin ≤ blk := not_lt.mp fun hlt' => hpass ⟨by omega, hlt'⟩
      have hmem := hbelow c hc hlt
      rw [hpre] at hmem
      rcases List.mem_append.mp hmem with hmem | hmem
      · have hcan := hf.canonical
        rw [← happ, hpre, List.append_assoc] at hcan
        have := (canonical_append_iff.mp hcan).2.2 c hmem p (by simp)
        omega
      · rwa [List.mem_singleton.mp hmem]
    · intro hall
      have := hall p hpbs hplt
      omega

/-- The test on the block above. -/
theorem above_passes_iff (hf : FreeList h bs) (blk nbytes : Nat) :
    ¬(((blocksFrom blk bs).map Extent.addr).headD 0 ≠ 0 ∧
        (blk + roundmb nbytes) % addrSpace > ((blocksFrom blk bs).map Extent.addr).headD 0) ↔
      EndPasses bs blk nbytes := by
  cases hpost : blocksFrom blk bs with
  | nil => simp [EndPasses, hpost]
  | cons c post =>
    have hmem : c ∈ blocksFrom blk bs := by simp [hpost]
    have hc := (mem_blocksFrom hf.canonical hmem).1
    have hne := hf.addr_ne_zero hc
    simp only [List.map_cons, List.headD_cons, EndPasses, hpost, List.head?_cons, Option.some.injEq,
      forall_eq']
    omega

/-- `freemem` with the tracking routine it calls as a parameter. -/
def freememWith (memextract : Nat → Nat → Mem → Option Mem) (hdptr blkaddr nbytes : Nat)
    (h : Heap) : Option (Heap × Int) :=
  if nbytes = 0 ∨ blkaddr < h.minheap ∨ blkaddr > h.maxheap then some (h, SYSERR)
  else do
    let nbytes := roundmb nbytes
    let block := blkaddr
    let m ← memextract hdptr block h.mem
    let h := { h with mem := m }
    let (prev, next) ← freememSearch m block walkBound h.memlist (mnext m h.memlist)
    let top := if prev = h.memlist then 0 else (prev + mlength m prev) % addrSpace
    if (prev ≠ h.memlist ∧ block < top) ∨ (next ≠ 0 ∧ (block + nbytes) % addrSpace > next) then
      return (h, SYSERR)
    return ({ h with mem := freememLink m h.memlist block nbytes prev next top }, OK)

theorem freemem_with : freemem = freememWith memextract := rfl

/-- **What `freemem` does** when the tracking routine leaves the free list alone: it accepts a range
whose start and end pass, and gives it back between the free blocks on either side. -/
theorem freememWith_eq {f : Nat → Nat → Mem → Option Mem} {m₁ : Mem} {blk : Nat}
    (hf : FreeList h bs) (he : f hdptr blk h.mem = some m₁)
    (hf₁ : FreeList { h with mem := m₁ } bs) (hn : nbytes ≠ 0) :
    (¬(StartPasses h bs blk ∧ EndPasses bs blk nbytes) →
        ∃ h', freememWith f hdptr blk nbytes h = some (h', SYSERR)) ∧
      (StartPasses h bs blk → EndPasses bs blk nbytes →
        freememWith f hdptr blk nbytes h =
          some ({ h with mem := linkAt m₁ h.memlist bs blk (roundmb nbytes) }, OK)) := by
  have hsearch : freememSearch m₁ blk walkBound h.memlist (mnext m₁ h.memlist) =
      some (lastOf h.memlist (blocksBelow blk bs), ((blocksFrom blk bs).map Extent.addr).headD 0) :=
    freememSearch_eq hf₁.threaded.chain.2 (fun b hb => hf.addr_ne_zero hb) hf.length_lt
  have hbelow := below_passes_iff hf₁ blk
  have habove := above_passes_iff hf₁ blk nbytes
  rw [freememWith]
  by_cases hrange : h.minheap ≤ blk ∧ blk ≤ h.maxheap
  · rw [if_neg (by omega)]
    simp only [he, hsearch, Option.bind_eq_bind, Option.bind_some, linkAt]
    constructor
    · intro hno
      refine ⟨_, if_pos ?_⟩
      by_contra hpass
      obtain ⟨h1, h2⟩ := not_or.mp hpass
      exact hno ⟨⟨hrange.1, hrange.2, hbelow.mp h1⟩, habove.mp h2⟩
    · intro hs hend
      exact if_neg (not_or.mpr ⟨hbelow.mpr hs.2.2, habove.mpr hend⟩)
  · rw [if_pos (by omega)]
    exact ⟨fun _ => ⟨h, rfl⟩, fun hs => absurd ⟨hs.1, hs.2.1⟩ hrange⟩

/-- The same of the real tracking routine, which leaves the free list alone when the in-use list
stands in live memory. -/
theorem freemem_eq (hf : FreeList h bs) (ht : Tracked h bs hdptr ns) (blk : Nat) (hn : nbytes ≠ 0) :
    ∃ m₁, memextract hdptr blk h.mem = some m₁ ∧ FreeList { h with mem := m₁ } bs ∧
      (¬(StartPasses h bs blk ∧ EndPasses bs blk nbytes) →
        ∃ h', freemem hdptr blk nbytes h = some (h', SYSERR)) ∧
      (StartPasses h bs blk → EndPasses bs blk nbytes →
        freemem hdptr blk nbytes h =
          some ({ h with mem := linkAt m₁ h.memlist bs blk (roundmb nbytes) }, OK)) := by
  obtain ⟨m₁, he, hf₁⟩ := memextract_freeList hf ht blk
  exact ⟨m₁, he, hf₁, freemem_with ▸ freememWith_eq hf he hf₁ hn⟩

/-! ## 3. When it accepts what it should

A range is legitimate when it lies in the heap and none of its bytes is free.  Legitimate ranges
pass, and what passes is legitimate unless the end of the range goes unseen. -/

theorem roundmb_mod (nbytes : Nat) : roundmb nbytes = roundedSize nbytes % addrSpace := by
  rw [roundmb, roundedSize]
  simp only [addrSpace]
  omega

theorem roundedSize_pos (hn : 0 < nbytes) : 8 ≤ roundedSize nbytes := by
  rw [roundedSize]
  omega

theorem roundmb_of_fits (hfit : roundedSize nbytes < addrSpace) :
    roundmb nbytes = roundedSize nbytes := by
  rw [roundmb_mod, Nat.mod_eq_of_lt hfit]

/-- A legitimate range passes both tests. -/
theorem Legitimate.passes (hf : FreeList h bs) (hn : 0 < nbytes)
    (hl : Legitimate h bs blk nbytes) : StartPasses h bs blk ∧ EndPasses bs blk nbytes := by
  obtain ⟨h1, h2, h3⟩ := hl
  have hsize := roundedSize_pos hn
  have hspace := hf.space
  refine ⟨⟨h1, by omega, fun c hc hbelow => ?_⟩, fun c hc => ?_⟩
  · by_contra hin
    refine h3 c hc blk ⟨⟨le_refl _, ?_⟩, hbelow.le, not_le.mp hin⟩
    simp only [Extent.fin]
    omega
  · have hmem : c ∈ blocksFrom blk bs := List.mem_of_mem_head? hc
    obtain ⟨hcbs, habove⟩ := mem_blocksFrom hf.canonical hmem
    rw [roundmb_of_fits (by omega), Nat.mod_eq_of_lt (by omega)]
    by_contra hin
    refine h3 c hcbs c.addr ⟨⟨habove, ?_⟩, le_refl _, ?_⟩
    · simp only [Extent.fin]
      omega
    · have := (hf.canonical.sized c hcbs).2
      rw [Extent.fin]
      omega

/-- Where the end is seen, only legitimate ranges pass. -/
theorem legitimate_of_passes (hf : FreeList h bs)
    (hs : StartPasses h bs blk) (he : EndPasses bs blk nbytes)
    (hseen : EndSeen h bs blk (blk + roundedSize nbytes)) : Legitimate h bs blk nbytes := by
  obtain ⟨h1, h2, h3⟩ := hs
  -- a block that begins below ends below
  have hbelow : ∀ c ∈ blocksBelow blk bs, Extent.Apart ⟨blk, roundedSize nbytes⟩ c := by
    rintro c hc x ⟨hx, hxc⟩
    obtain ⟨hcbs, hclt⟩ := mem_blocksBelow hc
    have := h3 c hcbs hclt
    simp only [Extent.Has] at hx hxc
    omega
  have hspace := hf.space
  cases hpost : blocksFrom blk bs with
  | nil =>
    simp only [EndSeen, hpost] at hseen
    refine ⟨h1, hseen, fun c hc => ?_⟩
    rcases mem_blocks blk hc with hmem | hmem
    · exact hbelow c hmem
    · rw [hpost] at hmem
      exact absurd hmem (by simp)
  | cons c post =>
    have hend := he c (by rw [hpost]; rfl)
    simp only [EndSeen, hpost] at hseen
    have hfin : blk + roundedSize nbytes < addrSpace := by
      rcases hseen with hfin | hwrap
      · exact hfin
      · rw [roundmb_mod, Nat.add_mod_mod] at hend
        omega
    rw [roundmb_of_fits (by omega), Nat.mod_eq_of_lt hfin] at hend
    have hcan := hf.canonical
    rw [← blocks_append blk bs, hpost] at hcan
    obtain ⟨-, -, habove⟩ := canonical_cons_iff.mp (canonical_append_iff.mp hcan).2.1
    have hmem : c ∈ blocksFrom blk bs := by simp [hpost]
    have hcbs := (mem_blocksFrom hf.canonical hmem).1
    have hcin := hf.within c hcbs
    have hle : c.addr ≤ h.maxheap := by
      rw [Extent.fin] at hcin
      omega
    refine ⟨h1, by omega, fun d hd => ?_⟩
    rcases mem_blocks blk hd with hmem | hmem
    · exact hbelow d hmem
    rintro x ⟨hx, hxd⟩
    have hdc : c.addr ≤ d.addr := by
      rw [hpost] at hmem
      rcases List.mem_cons.mp hmem with rfl | hmem
      · exact le_refl _
      · have := habove d hmem
        rw [Extent.fin] at this
        omega
    simp only [Extent.Has, Extent.fin] at hx hxd
    omega

/-- Where it is not, a range that is not legitimate passes. -/
theorem passes_of_unseen (hf : FreeList h bs)
    (hseen : ¬EndSeen h bs blk (blk + roundedSize nbytes)) :
    EndPasses bs blk nbytes ∧ ¬Legitimate h bs blk nbytes := by
  have hspace := hf.space
  cases hpost : blocksFrom blk bs with
  | nil =>
    simp only [EndSeen, hpost] at hseen
    refine ⟨fun c hc => ?_, fun hl => hseen hl.2.1⟩
    rw [hpost] at hc
    exact absurd hc (by simp)
  | cons c post =>
    simp only [EndSeen, hpost, not_or, not_lt] at hseen
    refine ⟨fun d hd => ?_, fun hl => ?_⟩
    · rw [hpost, List.head?_cons, Option.some.injEq] at hd
      rw [roundmb_mod, Nat.add_mod_mod, ← hd]
      exact hseen.2
    · have := hl.2.1
      omega

/-- **An accepted legitimate range is given back**, and the list is in canonical form again. -/
theorem Legitimate.given (hf : FreeList h bs) (hl : Legitimate h bs blk nbytes) (hn : 0 < nbytes)
    (ha : 8 ∣ blk) :
    ∃ bs', FreeList { h with mem := linkAt h.mem h.memlist bs blk (roundmb nbytes) } bs' ∧
      (∀ x, cover bs' x = cover bs x + cover [⟨blk, roundedSize nbytes⟩] x) ∧
      ∀ x, Untouched h.memlist bs x → ¬Extent.Has ⟨blk, roundedSize nbytes⟩ x →
        linkAt h.mem h.memlist bs blk (roundmb nbytes) x = h.mem x := by
  obtain ⟨hs, -⟩ := hl.passes hf hn
  obtain ⟨h1, h2, h3⟩ := hl
  have hsize := roundedSize_pos hn
  have hspace := hf.space
  have hhead := hf.header
  have happ := blocks_append blk bs
  have hbelow : ∀ c ∈ blocksBelow blk bs, c.fin ≤ blk := fun c hc =>
    hs.2.2 c (mem_blocksBelow hc).1 (mem_blocksBelow hc).2
  have habove : ∀ c ∈ blocksFrom blk bs, blk + roundedSize nbytes ≤ c.addr := by
    intro c hc
    obtain ⟨hcbs, hle⟩ := mem_blocksFrom hf.canonical hc
    by_contra hin
    have hpos := (hf.canonical.sized c hcbs).2
    refine h3 c hcbs c.addr ⟨⟨hle, not_le.mp hin⟩, le_refl _, ?_⟩
    rw [Extent.fin]
    omega
  -- the two sides of the range
  have hthreaded := hf.threaded
  have hlaid := hf.laid
  rw [← happ] at hthreaded hlaid
  have hins : Laid h.memlist (blocksBelow blk bs ++ ⟨blk, roundedSize nbytes⟩ ::
    blocksFrom blk bs) := by
    refine hlaid.insert (e := ⟨blk, roundedSize nbytes⟩) ?_ hsize ?_ hbelow habove
    · simp only
      omega
    · simp only [Extent.fin]
      omega
  have hold : ∀ c ∈ blocksBelow blk bs ++ ⟨blk, roundedSize nbytes⟩ :: blocksFrom blk bs,
      c ∈ bs ∨ c = ⟨blk, roundedSize nbytes⟩ := by
    intro c hc
    rw [← happ]
    simp only [List.mem_append, List.mem_cons] at hc ⊢
    tauto
  have hends : ∀ c ∈ blocksBelow blk bs ++ ⟨blk, roundedSize nbytes⟩ :: blocksFrom blk bs,
      c.fin < addrSpace := by
    intro c hc
    rcases hold c hc with hcbs | rfl
    · have := (hf.within c hcbs).2
      omega
    · simp only [Extent.fin]
      omega
  obtain ⟨hlist, hlen, hframe⟩ := hthreaded.give hins hends rfl
  have hgave : Gave 8 h.minheap h.maxheap blk (roundedSize nbytes) (blocksBelow blk bs ++
    blocksFrom blk bs)
      (releaseBetween blk (roundedSize nbytes) (blocksBelow blk bs) (blocksFrom blk bs)) := by
    refine gave_releaseBetween ?_ ?_ ha ⟨Dvd.intro_left _ rfl, by omega⟩ ⟨h1, h2⟩ hbelow habove
    · rw [happ]
      exact hf.canonical
    · rw [happ]
      exact hf.within
  have htotal := hgave.canonical.total_le hgave.within hf.heap
  rw [happ] at hgave
  rw [roundmb_of_fits (by omega)]
  refine ⟨releaseBetween blk (roundedSize nbytes) (blocksBelow blk bs) (blocksFrom blk bs),
    ⟨hlist, hgave.canonical, hgave.within, ?_, hf.header, hf.heap, hf.space⟩, hgave.moved,
    fun x hx hout => hframe x ⟨hx.1, fun c hc => ?_⟩⟩
  · rw [hgave.size, ← hf.size]
    refine hlen ?_
    rw [hf.size, ← hgave.size]
    omega
  · rcases hold c hc with hcbs | rfl
    · exact hx.2 c hcbs
    · exact hout

/-- `freemem` accepts the range if and only if it is legitimate, and then the bytes of the range are
free and the others are as before. -/
def FreesRight (h : Heap) (bs : List Extent) (hdptr blk nbytes : Nat) : Prop :=
  ∃ h' r, freemem hdptr blk nbytes h = some (h', r) ∧ (r = OK ↔ Legitimate h bs blk nbytes) ∧
    (r = OK → ∃ bs', FreeList h' bs' ∧
      ∀ x, cover bs' x = cover bs x + cover [⟨blk, roundedSize nbytes⟩] x)

/-- **`freemem` accepts exactly the legitimate ranges**, if and only if a range whose start passes
does not run over the heap unseen. -/
theorem freemem_right_iff (hf : FreeList h bs) (ht : Tracked h bs hdptr ns) (ha : 8 ∣ blk)
    (hn : 0 < nbytes) :
    FreesRight h bs hdptr blk nbytes ↔
      (StartPasses h bs blk → EndSeen h bs blk (blk + roundedSize nbytes)) := by
  obtain ⟨m₁, he, hf₁, hno, hyes⟩ := freemem_eq hf ht blk (Nat.ne_of_gt hn)
  constructor
  · rintro ⟨h', r, hr, hiff, -⟩ hs
    by_contra hseen
    obtain ⟨hend, hnot⟩ := passes_of_unseen hf hseen
    rw [hyes hs hend] at hr
    obtain ⟨-, rfl⟩ := Prod.mk.inj (Option.some.inj hr)
    exact hnot (hiff.mp rfl)
  · intro hseen
    by_cases hpass : StartPasses h bs blk ∧ EndPasses bs blk nbytes
    · have hl := legitimate_of_passes hf hpass.1 hpass.2 (hseen hpass.1)
      exact ⟨_, _, hyes hpass.1 hpass.2, by simp [hl], fun _ =>
        (Legitimate.given hf₁ hl hn ha).imp fun _ hg => ⟨hg.1, hg.2.1⟩⟩
    · obtain ⟨h', hr⟩ := hno hpass
      have hnot : SYSERR ≠ OK := by decide
      exact ⟨h', SYSERR, hr, ⟨fun e => absurd e hnot, fun hl => absurd (hl.passes hf hn) hpass⟩,
        fun e => absurd e hnot⟩

theorem tracked_halfHeap : Tracked halfHeap [⟨0x2000, 0x1000⟩] 0 [] := by
  have hfirst : inuseNext halfHeap.mem 0 = 0 := by decide +kernel
  refine ⟨⟨hfirst, by simp⟩, by simp [addrSpace], ?_⟩
  · simp only [List.mem_singleton, forall_eq]
    intro y _ hy
    refine ⟨.inl ?_, ?_⟩
    · simp only [halfHeap]
      omega
    · simp only [List.mem_singleton, forall_eq, Extent.Has]
      omega

/-- The lower part of what is in use is freed. -/
theorem freemem_right_iff_halfHeap : FreesRight halfHeap [⟨0x2000, 0x1000⟩] 0 0x3000 100 :=
  (freemem_right_iff freeList_halfHeap tracked_halfHeap (by decide) (by decide)).mpr
    fun _ => by simp [EndSeen, halfHeap, roundedSize]

/-- Eight bytes beyond the end of the heap are accepted. -/
theorem freemem_beyond_heap : ¬FreesRight halfHeap [⟨0x2000, 0x1000⟩] 0 0x4000 8 := by
  obtain ⟨m₁, -, -, -, hyes⟩ := freemem_eq freeList_halfHeap tracked_halfHeap 0x4000
    (show 8 ≠ 0 by decide)
  rintro ⟨h', r, hr, hiff, -⟩
  have hunseen : ¬EndSeen halfHeap [⟨0x2000, 0x1000⟩] 0x4000 (0x4000 + roundedSize 8) := by
    simp [EndSeen, halfHeap, roundedSize]
  obtain ⟨hend, hnot⟩ := passes_of_unseen freeList_halfHeap hunseen
  rw [hyes ⟨by decide, by decide, by decide⟩ hend] at hr
  obtain ⟨-, rfl⟩ := Prod.mk.inj (Option.some.inj hr)
  exact hnot (hiff.mp rfl)

/-! ## 4. What a refused call leaves behind

The states here are arbitrary: the list of a process may be of any form, and need not end. -/

/-- The `k`-th node of the in-use list, or 0 behind its end. -/
def inuseNode (m : Mem) (hdptr : Nat) : Nat → Nat
  | 0 => inuseNext m hdptr
  | k + 1 => if inuseNode m hdptr k = 0 then 0 else inuseNext m (inuseNode m hdptr k)

/-- The `k`-th block of the free list, or 0 behind its end. -/
def freeNode (m : Mem) (memlist : Nat) : Nat → Nat
  | 0 => mnext m memlist
  | k + 1 => if freeNode m memlist k = 0 then 0 else mnext m (freeNode m memlist k)

/-- The in-use list that `hdptr` heads is the same, node by node. -/
def SameInuse (m m' : Mem) (hdptr : Nat) : Prop :=
  ∀ k, inuseNode m' hdptr k = inuseNode m hdptr k ∧
    (inuseNode m hdptr k ≠ 0 →
      memblockptr m' (inuseNode m hdptr k) = memblockptr m (inuseNode m hdptr k) ∧
        memlen m' (inuseNode m hdptr k) = memlen m (inuseNode m hdptr k))

/-- The free list is the same, block by block, and so is the total. -/
def SameFree (m m' : Mem) (memlist : Nat) : Prop :=
  mlength m' memlist = mlength m memlist ∧
    ∀ k, freeNode m' memlist k = freeNode m memlist k ∧
      (freeNode m memlist k ≠ 0 →
        mlength m' (freeNode m memlist k) = mlength m (freeNode m memlist k))

/-- The free list, the flag and every in-use list are as before. -/
def Unchanged (h h' : Heap) : Prop :=
  SameFree h.mem h'.mem h.memlist ∧ h'.memblockkflag = h.memblockkflag ∧
    ∀ hdptr, SameInuse h.mem h'.mem hdptr

theorem Unchanged.refl (h : Heap) : Unchanged h h :=
  ⟨⟨rfl, fun _ => ⟨rfl, fun _ => rfl⟩⟩, rfl, fun _ _ => ⟨rfl, fun _ => ⟨rfl, rfl⟩⟩⟩

/-- No node of the list records the block. -/
def Unrecorded (m : Mem) (hdptr blk : Nat) : Prop :=
  ∀ k, inuseNode m hdptr k ≠ 0 → memblockptr m (inuseNode m hdptr k) ≠ blk

/-- The first node that records the block links to itself.  Such a list does not end. -/
def SelfLinked (m : Mem) (hdptr blk : Nat) : Prop :=
  ∃ k, inuseNode m hdptr k ≠ 0 ∧ memblockptr m (inuseNode m hdptr k) = blk ∧
    (∀ j < k, memblockptr m (inuseNode m hdptr j) ≠ blk) ∧
    inuseNext m (inuseNode m hdptr k) = inuseNode m hdptr k

/-- The element that links to the `k`-th node. -/
def inusePrev (m : Mem) (hdptr : Nat) : Nat → Nat
  | 0 => hdptr
  | k + 1 => inuseNode m hdptr k

/-- Where the search of `memextract` stops in any list. -/
theorem memextractSearch_some {fuel k p c : Nat}
    (hs : memextractSearch m ptr fuel (inusePrev m hdptr k) (inuseNode m hdptr k) = some (p, c))
    (hk : ∀ j < k, inuseNode m hdptr j ≠ 0 ∧ memblockptr m (inuseNode m hdptr j) ≠ ptr) :
    ∃ k, p = inusePrev m hdptr k ∧ c = inuseNode m hdptr k ∧
      (c = 0 ∨ memblockptr m c = ptr) ∧
      ∀ j < k, inuseNode m hdptr j ≠ 0 ∧ memblockptr m (inuseNode m hdptr j) ≠ ptr := by
  induction fuel generalizing k with
  | zero => simp [memextractSearch] at hs
  | succ fuel ih =>
    rw [memextractSearch] at hs
    split_ifs at hs with h0 hfound
    · obtain ⟨rfl, rfl⟩ := Prod.mk.inj (Option.some.inj hs)
      exact ⟨k, rfl, h0.symm, .inl rfl, hk⟩
    · obtain ⟨rfl, rfl⟩ := Prod.mk.inj (Option.some.inj hs)
      exact ⟨k, rfl, rfl, .inr hfound, hk⟩
    · refine ih (k := k + 1) ?_ fun j hj => ?_
      · rw [inusePrev, inuseNode, if_neg h0]
        exact hs
      · rcases Nat.lt_succ_iff_lt_or_eq.mp hj with hj | rfl
        · exact hk j hj
        · exact ⟨h0, hfound⟩

/-- Behind the end of the list there is nothing. -/
theorem inuseNode_end {j k : Nat} (h0 : inuseNode m hdptr k = 0) (hj : k ≤ j) :
    inuseNode m hdptr j = 0 := by
  induction hj with
  | refl => exact h0
  | step _ ih => rw [inuseNode, if_pos ih]

/-- **What `memextract` does to any list**: it makes the predecessor of the node it finds, or of the
end, link to that node's successor. -/
theorem memextract_some (he : memextract hdptr ptr m = some m') :
    ∃ k, m' = store m (inusePrev m hdptr k + 8) (inuseNext m (inuseNode m hdptr k)) ∧
      (inuseNode m hdptr k = 0 ∨ memblockptr m (inuseNode m hdptr k) = ptr) ∧
      ∀ j < k, inuseNode m hdptr j ≠ 0 ∧ memblockptr m (inuseNode m hdptr j) ≠ ptr := by
  obtain ⟨⟨p, c⟩, hs, hm'⟩ := Option.bind_eq_some_iff.mp he
  obtain ⟨k, rfl, rfl, hstop, hk⟩ :=
    memextractSearch_some (k := 0) hs fun j hj => absurd hj (by simp)
  exact ⟨k, (Option.some.inj hm').symm, hstop, hk⟩

theorem inuseNext_prev {k : Nat} (hk : ∀ j < k, inuseNode m hdptr j ≠ 0) :
    inuseNext m (inusePrev m hdptr k) = inuseNode m hdptr k := by
  cases k with
  | zero => rfl
  | succ k => rw [inusePrev, inuseNode, if_neg (hk k (by omega))]

/-- The block has no node and the word at address 8 is zero, so that `memextract` writes what was
there; or, in a list that never ends, its node links to itself. -/
def NothingToLose (m : Mem) (hdptr blk : Nat) : Prop :=
  (Unrecorded m hdptr blk ∧ load m 8 = 0) ∨ SelfLinked m hdptr blk

theorem nothingToLose_iff {k : Nat}
    (hstop : inuseNode m hdptr k = 0 ∨ memblockptr m (inuseNode m hdptr k) = ptr)
    (hk : ∀ j < k, inuseNode m hdptr j ≠ 0 ∧ memblockptr m (inuseNode m hdptr j) ≠ ptr) :
    NothingToLose m hdptr ptr ↔ inuseNext m (inuseNode m hdptr k) = inuseNode m hdptr k := by
  constructor
  · rintro (⟨hun, h8⟩ | ⟨i, h0, hptr, hfirst, hself⟩)
    · have hend : inuseNode m hdptr k = 0 := by
        by_contra h0
        exact hun k h0 (hstop.resolve_left h0)
      rw [hend]
      exact h8
    · -- the first such node is where the search stopped
      have hik : i = k := by
        rcases Nat.lt_trichotomy i k with hlt | heq | hgt
        · exact absurd hptr (hk i hlt).2
        · exact heq
        · rcases hstop with hend | hfound
          · exact absurd (inuseNode_end hend hgt.le) h0
          · exact absurd hfound (hfirst k hgt)
      rwa [← hik]
  · intro hself
    by_cases h0 : inuseNode m hdptr k = 0
    · refine .inl ⟨fun j hj => ?_, ?_⟩
      · by_cases hjk : j < k
        · exact (hk j hjk).2
        · exact absurd (inuseNode_end h0 (not_lt.mp hjk)) hj
      · rw [h0] at hself
        exact hself
    · exact .inr ⟨k, h0, hstop.resolve_left h0, fun j hj => (hk j hj).2, hself⟩

theorem memextract_keeps (he : memextract hdptr ptr m = some m') (hc : NothingToLose m hdptr ptr) :
    m' = m := by
  obtain ⟨k, rfl, hstop, hk⟩ := memextract_some he
  have hprev := inuseNext_prev fun j hj => (hk j hj).1
  rw [(nothingToLose_iff hstop hk).mp hc, ← hprev]
  exact store_load m _

/-- Otherwise the list is another one from the place on where it was cut. -/
theorem memextract_loses (he : memextract hdptr ptr m = some m') (hc : ¬NothingToLose m hdptr ptr) :
    ¬SameInuse m m' hdptr := by
  obtain ⟨k, hm', hstop, hk⟩ := memextract_some he
  have hself := mt (nothingToLose_iff hstop hk).mpr hc
  intro hsame
  have hp : inusePrev m' hdptr k = inusePrev m hdptr k := by
    cases k with
    | zero => rfl
    | succ k => exact (hsame k).1
  have hprev := inuseNext_prev (m := m') (k := k) fun j hj => by
    rw [(hsame j).1]
    exact (hk j hj).1
  have hnew : inuseNext m' (inusePrev m hdptr k) = inuseNext m (inuseNode m hdptr k) := by
    rw [hm', inuseNext, load_store_same, Nat.mod_eq_of_lt (load_lt m _)]
  rw [hp, hnew, (hsame k).1] at hprev
  exact hself hprev

/-- The refusals that come before the in-use list is touched. -/
def RefusedAtOnce (h : Heap) (blk nbytes : Nat) : Prop :=
  nbytes = 0 ∨ blk < h.minheap ∨ blk > h.maxheap

/-- **A refused `freemem` leaves everything as it was** if and only if it was refused at once or the
in-use list had nothing to lose. -/
theorem freemem_atomic_iff (hr : freemem hdptr blk nbytes h = some (h', SYSERR)) :
    Unchanged h h' ↔ RefusedAtOnce h blk nbytes ∨ NothingToLose h.mem hdptr blk := by
  by_cases honce : nbytes = 0 ∨ blk < h.minheap ∨ blk > h.maxheap
  · rw [freemem, if_pos honce] at hr
    obtain ⟨rfl, -⟩ := Prod.mk.inj (Option.some.inj hr)
    exact ⟨fun _ => .inl honce, fun _ => Unchanged.refl h⟩
  · rw [freemem, if_neg honce] at hr
    obtain ⟨m', he, hr⟩ := Option.bind_eq_some_iff.mp hr
    obtain ⟨⟨prev, next⟩, -, hr⟩ := Option.bind_eq_some_iff.mp hr
    have hh' : h' = { h with mem := m' } := by
      rcases ite_eq_iff.mp hr with ⟨-, hr⟩ | ⟨-, hr⟩
      · exact (Prod.mk.inj (Option.some.inj hr)).1.symm
      · exact absurd (Prod.mk.inj (Option.some.inj hr)).2 (by decide)
    subst hh'
    constructor
    · intro hsame
      by_contra hno
      exact memextract_loses he (fun hc => hno (.inr hc)) (hsame.2.2 hdptr)
    · rintro (hc | hc)
      · exact absurd hc honce
      · rw [memextract_keeps he hc]
        exact Unchanged.refl h

/-- A range inside a free block is refused; nothing is in use. -/
theorem freemem_atomic_iff_halfHeap :
    ∃ h', freemem 0 0x2008 8 halfHeap = some (h', SYSERR) ∧ Unchanged halfHeap h' := by
  obtain ⟨m₁, -, -, hno, -⟩ := freemem_eq freeList_halfHeap tracked_halfHeap 0x2008
    (show 8 ≠ 0 by decide)
  obtain ⟨h', hr⟩ :=
    hno fun hs => absurd (hs.1.2.2 ⟨0x2000, 0x1000⟩ (by simp) (by decide)) (by decide)
  refine ⟨h', hr, (freemem_atomic_iff hr).mpr (.inr (.inl ⟨?_, by decide +kernel⟩))⟩
  have hfirst : inuseNode halfHeap.mem 0 0 = 0 := by decide +kernel
  intro k hk
  exact absurd (inuseNode_end hfirst (Nat.zero_le k)) hk

/-- A process obtains 100 bytes and frees 128, which reach into the free block above: the call is
refused, but the node of the block is gone. -/
theorem freemem_not_atomic :
    ∃ h₁ h₂, getmem 0 100 halfHeap = some (h₁, 0x2000) ∧
      freemem 0 0x2000 128 h₁ = some (h₂, SYSERR) ∧
      ¬Unchanged h₁ h₂ := by
  have hrun : ((getmem 0 100 halfHeap).bind fun x => (freemem 0 x.2 128 x.1).map fun y =>
      (x.2, y.2, inuseNode x.1.mem 0 0, inuseNode y.1.mem 0 0)) =
        some (0x2000, SYSERR, 0x2068, 0) := by
    decide +kernel
  obtain ⟨⟨h₁, a⟩, hget, hrun⟩ := Option.bind_eq_some_iff.mp hrun
  obtain ⟨⟨h₂, r⟩, hfree, he⟩ := Option.map_eq_some_iff.mp hrun
  simp only [Prod.mk.injEq] at he hfree
  obtain ⟨rfl, rfl, h1, h2⟩ := he
  refine ⟨h₁, h₂, hget, hfree, fun hsame => ?_⟩
  have := (hsame.2.2 0 0).1
  omega

end Xinu
