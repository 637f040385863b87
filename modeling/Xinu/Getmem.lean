/-
# When `getmem` is all or nothing

`getmem` takes the block first and asks for the tracking node afterwards, by a second call of itself
inside `meminsert`.  When that call fails, its result, `SYSERR`, is used as the address of the node:
the words of the node are written around address 0 and the block is handed out all the same.  And a
request within 8 bytes of the address space is rounded to nothing, which every free block can give.
-/
import Xinu.Freemem

namespace Xinu

open ByteMemory Chains LinkedPath Extents

variable {m m' : Mem} {h h' : Heap} {hdptr nbytes n : Nat} {b : Extent} {bs pre post : List Extent}

/-! ## 1. One allocation -/

/-- **The free list after a block was taken.** -/
theorem FreeList.take (hf : FreeList h (pre ++ b :: post)) (hdvd : 8 ∣ n) (hn : 0 < n)
    (hle : n ≤ b.len) :
    FreeList { h with mem := getmemTake h.mem h.memlist n (lastOf h.memlist pre) b.addr }
      (pre ++ (carve n b ++ post)) := by
  have hb := (canonical_cons_iff.mp (canonical_append_iff.mp hf.canonical).2.1).1
  have hrest : n = b.len ∨ n + 8 ≤ b.len := by
    have := Nat.dvd_sub hb.2.1 hdvd
    omega
  obtain ⟨hlist, hlen, -, -⟩ := hf.threaded.take hf.laid (Nat.le_of_dvd hn hdvd) hle hrest
  have hs := shrinks_carve hb hdvd hle
  refine ⟨hlist, hf.canonical.replace hs, hf.within.replace hs, ?_, hf.header, hf.heap, hf.space⟩
  have hsize := hf.size
  rw [total_append, total_cons] at hsize
  rw [hlen (by omega), hsize, total_append, total_append, carve]
  split_ifs with heq
  · simp only [total_nil]
    omega
  · simp only [total_cons, total_nil]
    omega

theorem FreeList.withFlag (hf : FreeList h bs) (f : Bool8) :
    FreeList { h with memblockkflag := f } bs :=
  ⟨hf.threaded, hf.canonical, hf.within, hf.size, hf.header, hf.heap, hf.space⟩

/-- The search of `getmem` on the free list. -/
theorem FreeList.search (hf : FreeList h bs) (n : Nat) :
    getmemSearch h.mem n walkBound h.memlist (mnext h.mem h.memlist) =
      match firstFit n bs with
      | some (pre, b, _) => some (lastOf h.memlist pre, b.addr)
      | none => some (lastOf h.memlist bs, 0) := by
  have hpos : ∀ b ∈ bs, b.addr ≠ 0 := fun b hb => hf.addr_ne_zero hb
  cases hfit : firstFit n bs with
  | none => exact getmemSearch_none hf.threaded.chain.2 hf.threaded.lens hpos hf.length_lt hfit
  | some r => exact getmemSearch_some hf.threaded.chain.2 hf.threaded.lens hpos hf.length_lt hfit

/-- A block of the list has an address that no error has. -/
theorem FreeList.addr_ne_err (hf : FreeList h bs) (hb : b ∈ bs) : b.addr ≠ sysErrPtr := by
  have hdvd := hf.canonical.aligned b hb
  intro e
  rw [e] at hdvd
  exact absurd hdvd (by decide)

/-- No block is large enough. -/
theorem getmem_fails (hf : FreeList h bs) (hfit : firstFit (roundmb nbytes) bs = none) :
    getmem hdptr nbytes h = some (h, sysErrPtr) := by
  have hsearch := hf.search (roundmb nbytes)
  rw [hfit] at hsearch
  rw [getmem, getmemWith]
  split_ifs with h0
  · rfl
  · rw [hsearch]
    rfl

/-- A block is large enough: it is handed out, whatever becomes of the node. -/
theorem getmem_takes (hdptr : Nat) (hf : FreeList h bs) (hflag : h.memblockkflag = 0)
    (hn : nbytes ≠ 0)
    (hfit : firstFit (roundmb nbytes) bs = some (pre, b, post)) :
    getmem hdptr nbytes h =
      (meminsert hdptr b.addr { h with
        mem := getmemTake h.mem h.memlist (roundmb nbytes) (lastOf h.memlist pre) b.addr }).map
          fun h => ({ h with memblockkflag := 0 }, b.addr) := by
  have hsearch := hf.search (roundmb nbytes)
  rw [hfit] at hsearch
  obtain ⟨rfl, -, -⟩ := firstFit_some hfit
  have hb := hf.addr_ne_zero (b := b) (by simp)
  rw [getmem, getmemWith, if_neg hn, hsearch]
  simp only [Option.bind_eq_bind, Option.bind_some]
  rw [if_neg hb, if_pos (by rw [hflag]; decide), Option.map_eq_bind]
  rfl

/-- The node finds a block. -/
theorem getmemInner_takes (hdptr : Nat) (hf : FreeList h bs) (hflag : h.memblockkflag = 1)
    (hfit : firstFit 16 bs = some (pre, b, post)) :
    getmemInner hdptr inuseSize h = some ({ h with
      mem := getmemTake h.mem h.memlist 16 (lastOf h.memlist pre) b.addr, memblockkflag := 0 },
        b.addr) := by
  have hround : roundmb inuseSize = 16 := by decide
  have hsearch := hf.search 16
  rw [hfit] at hsearch
  obtain ⟨rfl, -, -⟩ := firstFit_some hfit
  have hb := hf.addr_ne_zero (b := b) (by simp)
  rw [getmemInner, getmemWith, if_neg (by decide), hround, hsearch]
  simp only [Option.bind_eq_bind, Option.bind_some]
  rw [if_neg hb, if_neg (by rw [hflag]; decide)]
  rfl

/-! ## 2. All or nothing -/

/-- Some free block is large enough for the request. -/
def BlockFits (nbytes : Nat) (bs : List Extent) : Prop :=
  nbytes ≠ 0 ∧ ∃ b ∈ bs, roundedSize nbytes ≤ b.len

/-- When `n` bytes have been taken from the first block that is large enough, there are 16 left in
it or in another block, which is what the tracking node takes. -/
def NodeFits (n : Nat) (bs : List Extent) : Prop :=
  ∃ pre b post, firstFit n bs = some (pre, b, post) ∧
    (n + 16 ≤ b.len ∨ ∃ c ∈ pre ++ post, 16 ≤ c.len)

/-- What the call comes to: nothing at all unless the block and its node can both be had, and the
flag is down again. -/
def AllOrNothing (h : Heap) (bs : List Extent) (hdptr nbytes : Nat) : Prop :=
  ∃ h' a, getmem hdptr nbytes h = some (h', a) ∧
    (¬(BlockFits nbytes bs ∧ NodeFits (roundedSize nbytes) bs) → a = sysErrPtr ∧ h' = h) ∧
    h'.memblockkflag = 0

/-- There is room for the node behind the block. -/
theorem NodeFits.firstFit (hfit : NodeFits n bs) :
    ∃ pre b post, Extents.firstFit n bs = some (pre, b, post) ∧
      ∃ r, Extents.firstFit 16 (pre ++ (carve n b ++ post)) = some r := by
  obtain ⟨pre, b, post, hf, hroom⟩ := hfit
  refine ⟨pre, b, post, hf, Option.ne_none_iff_exists'.mp fun hnone => ?_⟩
  have hall := firstFit_none.mp hnone
  rcases hroom with hb | ⟨c, hc, hlen⟩
  · have hcarve : (⟨b.addr + n, b.len - n⟩ : Extent) ∈ carve n b := by
      rw [carve, if_neg (by omega)]
      exact List.mem_singleton_self _
    have := hall ⟨b.addr + n, b.len - n⟩ (by simp [hcarve])
    simp only at this
    omega
  · have := hall c (by
      rcases List.mem_append.mp hc with hc | hc
      · simp [hc]
      · simp [hc])
    omega

/-- **With room for both, both are allocated.** -/
theorem getmem_of_nodeFits (hf : FreeList h bs) (hflag : h.memblockkflag = 0) (hn : nbytes ≠ 0)
    (hlt : roundedSize nbytes < addrSpace) (hfit : NodeFits (roundedSize nbytes) bs) :
    ∃ h' a, getmem hdptr nbytes h = some (h', a) ∧ h'.memblockkflag = 0 := by
  obtain ⟨pre, b, post, hblock, ⟨pre', c, post'⟩, hnode⟩ := hfit.firstFit
  obtain ⟨rfl, hle, -⟩ := firstFit_some hblock
  have hround := roundmb_of_fits hlt
  have hsize := roundedSize_pos (Nat.pos_of_ne_zero hn)
  rw [← hround] at hblock hle hnode
  have hf' := (hf.take (roundmb_dvd nbytes) (by omega) hle).withFlag 1
  rw [getmem_takes hdptr hf hflag hn hblock, meminsert]
  simp only [getmemInner_takes hdptr hf' rfl hnode, Option.bind_eq_bind, Option.bind_some]
  split_ifs
  · exact ⟨_, _, rfl, rfl⟩
  · exact ⟨_, _, rfl, rfl⟩

/-- **`getmem` is all or nothing** if and only if no block is as large as the rounded request, or
both the block and its node can be had. -/
theorem getmem_all_or_nothing_iff (hf : FreeList h bs) (hflag : h.memblockkflag = 0) :
    AllOrNothing h bs hdptr nbytes ↔
      nbytes = 0 ∨ (∀ b ∈ bs, b.len < roundmb nbytes) ∨
        roundedSize nbytes < addrSpace ∧ NodeFits (roundedSize nbytes) bs := by
  by_cases hn : nbytes = 0
  · have hzero : getmem hdptr nbytes h = some (h, sysErrPtr) := if_pos hn
    exact ⟨fun _ => .inl hn, fun _ => ⟨h, sysErrPtr, hzero, fun _ => ⟨rfl, rfl⟩, hflag⟩⟩
  cases hblock : firstFit (roundmb nbytes) bs with
  | none =>
    refine ⟨fun _ => .inr (.inl (firstFit_none.mp hblock)), fun _ => ?_⟩
    exact ⟨h, sysErrPtr, getmem_fails hf hblock, fun _ => ⟨rfl, rfl⟩, hflag⟩
  | some r =>
    obtain ⟨pre, b, post⟩ := r
    obtain ⟨hbs, hle, -⟩ := firstFit_some hblock
    have hmem : b ∈ bs := by simp [hbs]
    constructor
    · rintro ⟨h', a, hr, hno, -⟩
      by_contra hneither
      obtain ⟨-, hneither⟩ := not_or.mp hneither
      obtain ⟨-, hneither⟩ := not_or.mp hneither
      -- there is room for the block, but not for its node: the block is handed out all the same
      have herr := (hno fun ⟨⟨_, c, hc, hlen⟩, hnode⟩ => hneither ⟨?_, hnode⟩).1
      · rw [getmem_takes hdptr hf hflag hn hblock] at hr
        obtain ⟨_, -, he⟩ := Option.map_eq_some_iff.mp hr
        exact hf.addr_ne_err hmem ((Prod.mk.inj he).2.trans herr)
      · have hin := (hf.within c hc).2
        have hspace := hf.space
        rw [Extent.fin] at hin
        omega
    · rintro (h0 | hall | ⟨hlt, hfit⟩)
      · exact absurd h0 hn
      · exact absurd hle (not_le.mpr (hall b hmem))
      · obtain ⟨h', a, hr, hflag'⟩ := getmem_of_nodeFits hf hflag hn hlt hfit
        refine ⟨h', a, hr, fun hno => absurd ⟨⟨hn, b, hmem, ?_⟩, hfit⟩ hno, hflag'⟩
        rwa [← roundmb_of_fits hlt]

/-- A request that leaves room for its node. -/
theorem getmem_all_or_nothing_iff_halfHeap : AllOrNothing halfHeap [⟨0x2000, 0x1000⟩] 0 100 :=
  (getmem_all_or_nothing_iff freeList_halfHeap rfl).mpr
    (.inr (.inr ⟨by decide, [], ⟨0x2000, 0x1000⟩, [], rfl, .inl (by decide)⟩))

/-- A request for all that is free is granted, though there is no room for the node. -/
theorem getmem_without_node : ¬AllOrNothing halfHeap [⟨0x2000, 0x1000⟩] 0 0x1000 := by
  have hrun : (getmem 0 0x1000 halfHeap).map Prod.snd = some 0x2000 := by decide +kernel
  rintro ⟨h', a, hr, hno, -⟩
  rw [hr] at hrun
  obtain rfl : a = 0x2000 := by simpa using hrun
  refine absurd (hno fun hfit => ?_).1 (by decide)
  obtain ⟨pre, b, post, hblock, hroom⟩ := hfit.2
  have hfirst : firstFit (roundedSize 0x1000) [⟨0x2000, 0x1000⟩] =
    some ([], ⟨0x2000, 0x1000⟩, []) := rfl
  rw [hfirst] at hblock
  obtain ⟨rfl, rfl, rfl⟩ : [] = pre ∧ ⟨0x2000, 0x1000⟩ = b ∧ [] = post := by simpa using hblock
  exact absurd hroom (by decide)

end Xinu
