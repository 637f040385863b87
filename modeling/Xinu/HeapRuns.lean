/-
# Runs of the heap

Nothing is ever lost or handed out twice: in every run of proper calls free blocks, blocks, stacks
and nodes are a partition of the bytes that were free in the beginning (`heap_conserved`).  But a
node that leaves the list is not given back.  Each block that was granted costs 16 bytes for good,
so that the free list is what it was if and only if nothing was ever granted (`heap_restored_iff`).
What a process writes into its memory stays there (`heap_contents`), whoever has memory may give it
back (`heap_serves`), and the end of a process damages the in-use list unless that list is empty
(`stack_return_safe_iff`).
-/
import Xinu.HeapLedger

namespace Xinu

open ByteMemory Chains Extents Runs

variable {h : Heap} {hdptr blk n : Nat} {bs bs₀ : List Extent} {ns : List Nat}
  {s : Heap × HeapLedger}

/-! ## 1. Runs

The lemmas about the balance, put together for a move and, by induction, for a run. -/

/-- A call that is refused leaves the heap and the ledger as they are. -/
theorem Balanced.refused {L : HeapLedger} {c : HeapOp} (hb : Balanced bs₀ bs hdptr ns (h, L))
    (hrun : c.run hdptr h = some h) (hsee : ledgerSee hdptr h c h L = L) :
    ∃ h', c.run hdptr h = some h' ∧
      ∃ bs' ns', Balanced bs₀ bs' hdptr ns' (h', ledgerSee hdptr h c h' L) := by
  refine ⟨h, hrun, bs, ns, ?_⟩
  rw [hsee]
  exact hb

/-- **What one proper move comes to**: it ends, and the ledger is right about what it left. -/
theorem Balanced.moves {c : HeapOp} (hb : Balanced bs₀ bs hdptr ns s) (hok : c.Proper hdptr s) :
    ∃ h', c.run hdptr s.1 = some h' ∧
      ∃ bs' ns', Balanced bs₀ bs' hdptr ns' (h', ledgerSee hdptr s.1 c h' s.2) := by
  obtain ⟨h, L⟩ := s
  cases c with
  | getmem nbytes =>
    have hrefused : Xinu.getmem hdptr nbytes h = some (h, sysErrPtr) →
        ∃ h', (HeapOp.getmem nbytes).run hdptr h = some h' ∧
          ∃ bs' ns', Balanced bs₀ bs' hdptr ns' (h', ledgerSee hdptr h (.getmem nbytes) h' L) := by
      intro hcall
      exact hb.refused (by rw [HeapOp.run, hcall, Option.map_some])
        (by simp only [ledgerSee, hcall, if_true])
    rcases hok bs hb.tracking.free with h0 | hnone | ⟨hlt, hfit⟩
    · exact hrefused (if_pos h0)
    · exact hrefused (getmem_fails hb.tracking.free (firstFit_none.mpr hnone))
    · by_cases hn : nbytes = 0
      · exact hrefused (if_pos hn)
      obtain ⟨h', a, node, bs', hcall, herr, hg⟩ := hb.tracking.getmem hb.flag hn hlt hfit
      refine ⟨h', by rw [HeapOp.run, hcall, Option.map_some], bs', node :: ns, ?_⟩
      simp only [ledgerSee, hcall, if_neg herr, hg.tracking.chain.1]
      exact hb.grant hg
  | freemem blk nbytes =>
    rcases hok with honce | ⟨he, hsafe⟩
    · have hcall : Xinu.freemem hdptr blk nbytes h = some (h, SYSERR) := if_pos honce
      exact hb.refused (by rw [HeapOp.run, hcall, Option.map_some])
        (by simp only [ledgerSee, hcall, if_neg (by decide : ¬SYSERR = OK)])
    · obtain ⟨h', bs', ns', hcall, hb'⟩ := hb.freemem he hsafe
      refine ⟨h', by rw [HeapOp.run, hcall, Option.map_some], bs', ns', ?_⟩
      simp only [ledgerSee, hcall, if_true]
      exact hb'
  | getstk nbytes =>
    have hround := roundmb_of_fits hok
    have hrefused : Xinu.getstk nbytes h = some (h, sysErrPtr) →
        ∃ h', (HeapOp.getstk nbytes).run hdptr h = some h' ∧
          ∃ bs' ns', Balanced bs₀ bs' hdptr ns' (h', ledgerSee hdptr h (.getstk nbytes) h' L) := by
      intro hcall
      exact hb.refused (by rw [HeapOp.run, hcall, Option.map_some])
        (by simp only [ledgerSee, hcall, if_true])
    by_cases hn : nbytes = 0
    · exact hrefused (if_pos hn)
    cases hfit : lastFit (roundedSize nbytes) bs with
    | none => exact hrefused (getstk_fails hb.tracking.free (hround.symm ▸ hfit))
    | some r =>
      obtain ⟨pre, b, post⟩ := r
      obtain ⟨h', a, bs', hcall, herr, hg⟩ := hb.tracking.getstk hn hok hfit
      refine ⟨h', by rw [HeapOp.run, hcall, Option.map_some], bs', ns, ?_⟩
      simp only [ledgerSee, hcall, if_neg herr]
      exact hb.stack hg
  | freestk p len =>
    obtain ⟨h', bs', ns', hcall, hb'⟩ := hb.freestk hok.1 hok.2
    refine ⟨h', by rw [HeapOp.run, hcall, Option.map_some], bs', ns', ?_⟩
    simp only [ledgerSee, hcall, if_true]
    exact hb'
  | resetHeader => exact ⟨_, rfl, bs, [], hb.resetHeader⟩
  | write addr byte =>
    obtain ⟨e, he, hey⟩ := hok
    exact ⟨_, rfl, bs, ns, hb.write byte (cover_pos he hey)⟩

/-- In the beginning nothing is out. -/
theorem balanced_start (ht : Tracking h bs₀ hdptr []) (hflag : h.memblockkflag = 0) :
    Balanced bs₀ bs₀ hdptr [] (h, emptyLedger) := by
  have hown : emptyLedger.owned = [] := rfl
  refine ⟨ht, hflag, fun y => ?_, fun y => ?_, ?_, ?_, by simp, List.nil_subperm, ?_⟩
  · have hone := ht.free.canonical.cover_le_one y
    rw [cover_singleton]
    split_ifs with hy
    · have := (untouched_iff.mp (ht.live hdptr List.mem_cons_self y hy.1 hy.2)).2
      omega
    · omega
  · show cover bs₀ y + 0 + 0 = cover bs₀ y
    omega
  · simp [hown]
  · simp [hown, Within]
  · simp [emptyLedger]

/-- **The ledger is right in every run.** -/
theorem balanced_run (ht : Tracking h bs₀ hdptr []) (hflag : h.memblockkflag = 0) :
    ∀ s, HeapReach hdptr h s → ∃ bs ns, Balanced bs₀ bs hdptr ns s := by
  intro s hs
  refine hs.invariant (I := fun s => ∃ bs ns, Balanced bs₀ bs hdptr ns s)
    ⟨bs₀, [], balanced_start ht hflag⟩ fun s c s' ⟨bs, ns, hb⟩ hok hr => ?_
  obtain ⟨h₁, hrun, rfl⟩ := watch_some.mp hr
  obtain ⟨h', hrun', hb'⟩ := hb.moves hok
  obtain rfl : h₁ = h' := Option.some.inj (hrun.symm.trans hrun')
  exact hb'

/-- The last block is given back. -/
theorem free_last (ht : Tracking h bs₀ hdptr []) (hflag : h.memblockkflag = 0)
    (hs : HeapReach hdptr h s) (hblocks : s.2.blocks = [⟨blk, roundedSize n⟩])
    (hstacks : s.2.stackAreas = []) (hok : ExtractsSafely hdptr s.1 blk) :
    ∃ t, HeapReach hdptr h t ∧ t.2.owned = [] ∧ t.2.nodes = s.2.nodes := by
  have hmem : (⟨blk, roundedSize n⟩ : Extent) ∈ s.2.blocks := by simp [hblocks]
  obtain ⟨bs, ns, hb⟩ := balanced_run ht hflag s hs
  obtain ⟨h', -, -, hfree, -⟩ := hb.freemem hmem hok
  have hproper : (HeapOp.freemem blk n).Proper hdptr s := .inr ⟨hmem, hok⟩
  refine ⟨_, hs.tail hproper (watch_some.mpr ⟨h', ?_, rfl⟩), ?_⟩
  · rw [HeapOp.run, hfree, Option.map_some]
  · simp only [ledgerSee, hfree, if_true, HeapLedger.owned, hblocks, hstacks, List.erase_cons_head,
      List.append_nil, and_self]

/-- A process asks for 100 bytes, writes one of them and gives the block back. -/
theorem heap_lease : ∃ s t, HeapReach 0x3000 halfHeap s ∧
    (s.2.blocks = [⟨0x2000, 104⟩] ∧ s.2.written 0x2010 = some 7 ∧ load s.1.mem 8 = 0) ∧
    HeapReach 0x3000 halfHeap t ∧ t.2.owned = [] ∧ t.2.nodes = [0x2068] := by
  have hrun : (getmem 0x3000 100 halfHeap).map (fun x => (x.2, load x.1.mem 8,
      inuseNext x.1.mem 0x3000)) = some (0x2000, 0, 0x2068) := by
    decide +kernel
  obtain ⟨⟨h₁, a⟩, hget, he⟩ := Option.map_eq_some_iff.mp hrun
  simp only [Prod.mk.injEq] at he
  obtain ⟨rfl, h8, hnode⟩ := he
  -- the request
  have hok₁ : (HeapOp.getmem 100).Proper 0x3000 (halfHeap, emptyLedger) := by
    intro bs hf
    obtain rfl := hf.unique freeList_halfHeap
    exact .inr (.inr ⟨by decide, [], ⟨0x2000, 0x1000⟩, [], rfl, .inl (by decide)⟩)
  have hs₁ : HeapReach 0x3000 halfHeap
      (h₁, emptyLedger.grant ⟨0x2000, 104⟩ 0x2068) := by
    refine .tail .refl hok₁ (watch_some.mpr ⟨h₁, by rw [HeapOp.run, hget, Option.map_some], ?_⟩)
    rw [Prod.mk.injEq]
    refine ⟨rfl, ?_⟩
    simp only [ledgerSee, hget, hnode]
    rfl
  -- the write
  have hok₂ : (HeapOp.write 0x2010 7).Proper 0x3000
      (h₁, emptyLedger.grant ⟨0x2000, 104⟩ 0x2068) :=
    ⟨⟨0x2000, 104⟩, List.mem_cons_self, by decide⟩
  have hs₂ := hs₁.tail hok₂ (watch_some.mpr ⟨_, rfl, rfl⟩)
  have hword : load (Function.update h₁.mem 0x2010 7) 8 = 0 :=
    (load_congr (by decide) fun y _ h2 => Function.update_of_ne (by omega) _ _).trans h8
  obtain ⟨t, ht, hown, hnodes⟩ :=
    free_last (n := 100) tracking_halfHeap rfl hs₂ rfl rfl (.inr hword)
  exact ⟨_, t, hs₂, ⟨rfl, rfl, hword⟩, ht, hown, hnodes⟩

/-! ## 2. What holds in every run

Each result is read off the balance of the state that a run has reached. -/

/-- The extents `es` are a partition of the bytes of `bs₀`. -/
structure Partition (es bs₀ : List Extent) : Prop where
  apart : es.Pairwise Extent.Apart
  bytes : ∀ y, (∃ e ∈ es, e.Has y) ↔ ∃ b ∈ bs₀, b.Has y

theorem total_nodeBytes (xs : List Nat) : total (nodeBytes xs) = 16 * xs.length := by
  induction xs with
  | nil => rfl
  | cons x xs ih =>
    show total (⟨x, 16⟩ :: nodeBytes xs) = _
    rw [total_cons, ih, List.length_cons]
    simp only
    omega

theorem Balanced.cover_eq (hb : Balanced bs₀ bs hdptr ns s) (y : Nat) :
    cover (bs ++ s.2.owned ++ nodeBytes s.2.nodes) y = cover bs₀ y := by
  rw [cover_append, cover_append]
  exact hb.owners y

theorem Balanced.partition (hb : Balanced bs₀ bs hdptr ns s) :
    Partition (bs ++ s.2.owned ++ nodeBytes s.2.nodes) bs₀ := by
  refine ⟨pairwise_apart_iff.mpr fun y => ?_, fun y => ?_⟩
  · have := hb.apart y
    rw [hb.cover_eq]
    omega
  · rw [← cover_pos_iff, ← cover_pos_iff, hb.cover_eq]

/-- The same as sums of lengths. -/
theorem Balanced.total_eq (hb : Balanced bs₀ bs hdptr ns s) :
    total bs + total s.2.owned + 16 * s.2.nodes.length = total bs₀ := by
  have hbound : ∃ N, (∀ e ∈ bs ++ s.2.owned ++ nodeBytes s.2.nodes, e.fin ≤ N) ∧
      ∀ b ∈ bs₀, b.fin ≤ N := by
    obtain ⟨N, hN⟩ := ((bs ++ s.2.owned ++ nodeBytes s.2.nodes ++ bs₀).map
      Extent.fin).toFinset.bddAbove
    refine ⟨N, fun e he => hN ?_, fun b hb => hN ?_⟩
    · simp only [List.coe_toFinset, Set.mem_ofPred_eq]
      exact List.mem_map_of_mem (List.mem_append_left _ he)
    · simp only [List.coe_toFinset, Set.mem_ofPred_eq]
      exact List.mem_map_of_mem (List.mem_append_right _ hb)
  obtain ⟨N, h1, h2⟩ := hbound
  have hsum := sum_cover h2
  rw [Finset.sum_congr rfl fun y _ => (hb.cover_eq y).symm, sum_cover h1, total_append,
    total_append, total_nodeBytes] at hsum
  exact hsum

/-- **Nothing is lost and nothing is handed out twice.**  After every run of proper calls the free
list is in canonical form; free blocks, blocks, stacks and nodes are a partition of the bytes that
were free in the beginning, so that their sizes add up to what `memlist.mlength` was; and what the
in-use list records is among the blocks that are out. -/
theorem heap_conserved (ht : Tracking h bs₀ hdptr []) (hflag : h.memblockkflag = 0) :
    ∀ s, HeapReach hdptr h s → ∃ bs ns, FreeList s.1 bs ∧ NodeList s.1.mem hdptr ns ∧
      Partition (bs ++ s.2.owned ++ nodeBytes s.2.nodes) bs₀ ∧
      mlength s.1.mem s.1.memlist + total s.2.owned + 16 * s.2.nodes.length =
        mlength h.mem h.memlist ∧
      (∀ x ∈ ns, x ∈ s.2.nodes) ∧ (blocksOf s.1.mem ns).Subperm s.2.blocks := by
  intro s hs
  obtain ⟨bs, ns, hb⟩ := balanced_run ht hflag s hs
  refine ⟨bs, ns, hb.tracking.free, hb.tracking.toNodeList, hb.partition, ?_, hb.linked, hb.records⟩
  rw [hb.tracking.free.size, ht.free.size]
  exact hb.total_eq

theorem heap_conserved_lease : ∃ s : Heap × HeapLedger, s.2.blocks = [⟨0x2000, 104⟩] ∧
    ∃ bs ns, FreeList s.1 bs ∧ NodeList s.1.mem 0x3000 ns ∧
    Partition (bs ++ s.2.owned ++ nodeBytes s.2.nodes) [⟨0x2000, 0x1000⟩] ∧
    mlength s.1.mem s.1.memlist + total s.2.owned + 16 * s.2.nodes.length =
      mlength halfHeap.mem halfHeap.memlist ∧
    (∀ x ∈ ns, x ∈ s.2.nodes) ∧ (blocksOf s.1.mem ns).Subperm s.2.blocks := by
  obtain ⟨s, -, hs, ⟨hblocks, -⟩, -⟩ := heap_lease
  exact ⟨s, hblocks, heap_conserved tracking_halfHeap rfl s hs⟩

/-- **What was granted is paid for.**  When everything has been given back, 16 bytes are missing for
each block that was ever granted, and the free list is the list it was in the beginning if and only
if none was.  So no run grants more than a sixteenth of the free bytes in blocks, however many of
them are freed on the way. -/
theorem heap_restored_iff (ht : Tracking h bs₀ hdptr []) (hflag : h.memblockkflag = 0) :
    ∀ s, HeapReach hdptr h s → 16 * s.2.nodes.length ≤ mlength h.mem h.memlist ∧
      (s.2.owned = [] →
        mlength s.1.mem s.1.memlist + 16 * s.2.nodes.length = mlength h.mem h.memlist ∧
          (FreeList s.1 bs₀ ↔ s.2.nodes = [])) := by
  intro s hs
  obtain ⟨bs, ns, hb⟩ := balanced_run ht hflag s hs
  have hsize := ht.free.size
  have hsize' := hb.tracking.free.size
  have htotal := hb.total_eq
  refine ⟨by omega, fun hown => ?_⟩
  rw [hown, total_nil] at htotal
  refine ⟨by omega, fun hf => ?_, fun hnone => ?_⟩
  · obtain rfl := hf.unique hb.tracking.free
    exact List.eq_nil_of_length_eq_zero (by omega)
  · have hsame : bs = bs₀ := by
      refine ht.free.eq_of_cover hb.tracking.free.canonical fun y => ?_
      have howners := hb.owners y
      rw [hown, hnone] at howners
      exact howners
    exact hsame ▸ hb.tracking.free

/-- After the block was given back the list is not what it was. -/
theorem heap_restored_iff_lease : ∃ t : Heap × HeapLedger, t.2.owned = [] ∧
    mlength t.1.mem t.1.memlist + 16 = 0x1000 ∧ ¬FreeList t.1 [⟨0x2000, 0x1000⟩] := by
  obtain ⟨-, t, -, -, ht, hown, hnodes⟩ := heap_lease
  obtain ⟨hsize, hiff⟩ := (heap_restored_iff tracking_halfHeap rfl t ht).2 hown
  have hstart : mlength halfHeap.mem halfHeap.memlist = 0x1000 := by decide +kernel
  rw [hnodes, hstart] at hsize
  refine ⟨t, hown, hsize, fun hf => ?_⟩
  have hnone := hiff.mp hf
  rw [hnodes] at hnone
  exact absurd hnone (List.cons_ne_nil _ _)

/-- **What a process writes into its memory stays there** until it gives the memory back, whatever
the others do. -/
theorem heap_contents (ht : Tracking h bs₀ hdptr []) (hflag : h.memblockkflag = 0) :
    ∀ s, HeapReach hdptr h s → ∀ y v, s.2.written y = some v → (∃ e ∈ s.2.owned, e.Has y) →
      s.1.mem y = v := by
  intro s hs y v hv hy
  obtain ⟨bs, ns, hb⟩ := balanced_run ht hflag s hs
  exact hb.contents y v hv (cover_pos_iff.mpr hy)

theorem heap_contents_lease : ∃ s, HeapReach 0x3000 halfHeap s ∧ s.1.mem 0x2010 = 7 := by
  obtain ⟨s, -, hs, ⟨hblocks, hwritten, -⟩, -⟩ := heap_lease
  refine ⟨s, hs, heap_contents tracking_halfHeap rfl s hs 0x2010 7 hwritten ⟨⟨0x2000, 104⟩, ?_, ?_⟩⟩
  · simp [HeapLedger.owned, hblocks]
  · decide

/-- **Whoever has memory may give it back**: in every state that a run reaches, all proper calls
end, and the owner of a block or a stack is not refused. -/
theorem heap_serves (ht : Tracking h bs₀ hdptr []) (hflag : h.memblockkflag = 0) :
    ∀ s, HeapReach hdptr h s →
      (∀ c : HeapOp, c.Proper hdptr s → (c.run hdptr s.1).isSome) ∧
      (∀ blk n, ⟨blk, roundedSize n⟩ ∈ s.2.blocks → ExtractsSafely hdptr s.1 blk →
        ∃ h', freemem hdptr blk n s.1 = some (h', OK)) ∧
      ∀ p len, stackExtent p len ∈ s.2.stackAreas →
        ExtractsSafely hdptr s.1 (stackExtent p len).addr →
        ∃ h', freestk hdptr p len s.1 = some (h', OK) := by
  intro s hs
  obtain ⟨bs, ns, hb⟩ := balanced_run ht hflag s hs
  refine ⟨fun c hok => ?_, fun blk n he hok => ?_, fun p len he hok => ?_⟩
  · obtain ⟨h', hrun, -⟩ := hb.moves hok
    rw [hrun]
    rfl
  · obtain ⟨h', -, -, hfree, -⟩ := hb.freemem he hok
    exact ⟨h', hfree⟩
  · obtain ⟨h', -, -, hfree, -⟩ := hb.freestk he hok
    exact ⟨h', hfree⟩

theorem heap_serves_lease : ∃ s h', HeapReach 0x3000 halfHeap s ∧
    freemem 0x3000 0x2000 100 s.1 = some (h', OK) := by
  obtain ⟨s, -, hs, ⟨hblocks, -, hword⟩, -⟩ := heap_lease
  obtain ⟨-, hfree, -⟩ := heap_serves tracking_halfHeap rfl s hs
  have hmem : (⟨0x2000, roundedSize 100⟩ : Extent) ∈ s.2.blocks := by
    rw [hblocks]
    exact List.mem_singleton_self _
  obtain ⟨h', hcall⟩ := hfree 0x2000 100 hmem (.inr hword)
  exact ⟨s, h', hs, hcall⟩

/-- **Where the header is null**, as it is in this kernel, the word at address 8 is its link.  So
the end of a process, which gives back a stack that no node records, leaves the list whole if and
only if the list is empty. -/
theorem stack_return_safe_iff (ht : Tracking h bs₀ 0 []) (hflag : h.memblockkflag = 0) :
    ∀ s, HeapReach 0 h s → ∀ ns, NodeList s.1.mem 0 ns →
      ∀ p len, stackExtent p len ∈ s.2.stackAreas →
        (ExtractsRight s.1.mem 0 (stackExtent p len).addr ns ↔ ns = []) := by
  intro s hs ns hn p len he
  obtain ⟨bs, ns', hb⟩ := balanced_run ht hflag s hs
  obtain rfl : ns' = ns :=
    hb.tracking.chain.unique hn.chain hb.tracking.nonnull hn.nonnull
  have hempty : load s.1.mem 8 = 0 ↔ ns' = [] := by
    cases ns' with
    | nil => exact ⟨fun _ => rfl, fun _ => hn.chain⟩
    | cons x xs =>
      have hx : load s.1.mem 8 = x := hn.chain.1
      refine ⟨fun h0 => absurd ?_ hn.nonnull, fun hc => absurd hc (List.cons_ne_nil x xs)⟩
      rw [← hx, h0]
      exact List.mem_cons_self
  rw [hn.extractsRight_iff, hempty, or_iff_right (hb.stack_unrecorded he)]

/-- The stack of the only process there is. -/
theorem stack_return_safe_iff_first : ∃ s, HeapReach 0 halfHeap s ∧
    ExtractsRight s.1.mem 0 (stackExtent 0x2ffc 0x100).addr [] := by
  have ht : Tracking halfHeap [⟨0x2000, 0x1000⟩] 0 [] :=
    ⟨⟨tracked_halfHeap.toInuseList, tracked_halfHeap.fits, List.pairwise_singleton _ _⟩,
      freeList_halfHeap, tracked_halfHeap.live⟩
  have hrun : (getstk 0x100 halfHeap).map (fun x => (x.2, load x.1.mem 8)) = some (0x2ffc, 0) := by
    decide +kernel
  obtain ⟨⟨h₁, a⟩, hget, he⟩ := Option.map_eq_some_iff.mp hrun
  simp only [Prod.mk.injEq] at he
  obtain ⟨rfl, h8⟩ := he
  have hok : (HeapOp.getstk 0x100).Proper 0 (halfHeap, emptyLedger) := by
    show roundedSize 0x100 < addrSpace
    decide
  have hs : HeapReach 0 halfHeap (h₁, emptyLedger.stack (stackExtent 0x2ffc 0x100)) := by
    refine .tail .refl hok (watch_some.mpr ⟨h₁, by rw [HeapOp.run, hget, Option.map_some], ?_⟩)
    simp only [ledgerSee, hget]
    rfl
  have hlist : NodeList h₁.mem 0 [] :=
    ⟨⟨h8, List.not_mem_nil⟩, by simp [addrSpace], List.pairwise_singleton _ _⟩
  exact ⟨_, hs, (stack_return_safe_iff ht rfl _ hs [] hlist 0x2ffc 0x100
    List.mem_cons_self).mpr rfl⟩

end Xinu
