/-
# Stacks: `getstk.c`, `freestk`, and the order of frees

`getstk` cuts a stack off the high end of the last free block that is large enough, and `freestk`
gives it back.  The free list is then what it was, block by block (`getstk_freestk`).  More
generally a canonical list is determined by its bytes, so that blocks may be given back in any order
(`frees_in_any_order`).

The tracking routine that `freemem` calls is a parameter here, with the assumption that it leaves
the free list alone.
-/
import Mathlib.Data.List.Perm.Basic
import Xinu.Freemem

namespace Xinu

open ByteMemory Chains LinkedPath Extents

variable {m m' : Mem} {h h' : Heap} {n hdptr nbytes : Nat} {b : Extent}
  {bs pre post : List Extent}

/-! ## 1. `getstk`

`getstk` scans the whole list and remembers the last block that is large enough.  It writes one
link or one length, and the total. -/

/-- **The scan of `getstk`** is last fit. -/
theorem getstkScan_eq (fitsprev fits prev : Nat) {fuel a : Nat}
    (hchain : Walk (mnext m) a (bs.map Extent.addr) 0)
    (hlens : ∀ b ∈ bs, mlength m b.addr = b.len) (hpos : ∀ b ∈ bs, b.addr ≠ 0)
    (hfuel : bs.length < fuel) :
    getstkScan m n fuel fitsprev fits prev a =
      match lastFit n bs with
      | some (pre, b, _) => some (lastOf prev pre, b.addr)
      | none => some (fitsprev, fits) := by
  induction bs generalizing fuel fitsprev fits prev a with
  | nil =>
    obtain ⟨fuel, rfl⟩ := Nat.exists_eq_succ_of_ne_zero (Nat.ne_of_gt (Nat.zero_lt_of_lt hfuel))
    exact if_pos hchain
  | cons c bs ih =>
    obtain ⟨fuel, rfl⟩ := Nat.exists_eq_succ_of_ne_zero (Nat.ne_of_gt (Nat.zero_lt_of_lt hfuel))
    obtain ⟨rfl, hchain⟩ := hchain
    have hrest := fun fitsprev fits => ih fitsprev fits c.addr hchain
      (fun d hd => hlens d (by simp [hd])) (fun d hd => hpos d (by simp [hd]))
        (by simpa using hfuel)
    rw [getstkScan, if_neg (hpos c (by simp)), hlens c (by simp), lastFit, hrest, hrest]
    cases lastFit n bs with
    | some r =>
      simp only [lastOf_cons, ite_self]
    | none =>
      by_cases hc : n ≤ c.len
      · simp [hc]
      · simp [hc]

/-- The scan over the list of free blocks, from the place where `getstk` starts it. -/
theorem FreeList.getstkScan_eq (hf : FreeList h bs) (n : Nat) :
    getstkScan h.mem n walkBound 0 0 h.memlist (mnext h.mem h.memlist) =
      match lastFit n bs with
      | some (pre, b, _) => some (lastOf h.memlist pre, b.addr)
      | none => some (0, 0) :=
  Xinu.getstkScan_eq 0 0 h.memlist hf.threaded.chain.2 hf.threaded.lens
    (fun _ hb => hf.addr_ne_zero hb) hf.length_lt

/-- What `getstk` writes: the block is unlinked, or its low end is kept. -/
def getstkTake (m : Mem) (memlist n fitsprev fits : Nat) : Mem :=
  let m := if n = mlength m fits then store m fitsprev (mnext m fits)
    else store m (fits + 4) (mlength m fits - n)
  store m (memlist + 4) (mlength m memlist + addrSpace - n)

/-- **What `getstk` writes** takes `n` bytes off the high end of the block. -/
theorem Threaded.takeTop {hd : Nat} (h : Threaded m hd (pre ++ b :: post))
    (hl : Laid hd (pre ++ b :: post)) (hle : n ≤ b.len) :
    Threaded (getstkTake m hd n (lastOf hd pre) b.addr) hd (pre ++ (carveTop n b ++ post)) ∧
      mlength (getstkTake m hd n (lastOf hd pre) b.addr) hd =
        (mlength m hd + addrSpace - n) % addrSpace := by
  obtain ⟨hpb, hph, hhb, h8, hend⟩ := hl.at_block
  have hhead := hl.head
  have hmb : mlength m b.addr = b.len := h.lens b (by simp)
  obtain ⟨hlink, hpost⟩ := h.rest
  have hlb := load_lt m b.addr
  have hedit : EditOnly m (getstkTake m hd n (lastOf hd pre) b.addr) hd (lastOf hd pre) b.addr
      b.fin := by
    intro x h1 h2 h3
    rw [Extent.fin] at h3
    rw [getstkTake]
    split_ifs
    · simp (disch := omega) only [store_apply_of_outside]
    · simp (disch := omega) only [store_apply_of_outside]
  have hwords : mlength (getstkTake m hd n (lastOf hd pre) b.addr) hd =
        (mlength m hd + addrSpace - n) % addrSpace ∧
      Walk (mnext (getstkTake m hd n (lastOf hd pre) b.addr))
        (mnext (getstkTake m hd n (lastOf hd pre) b.addr) (lastOf hd pre))
        ((carveTop n b).map Extent.addr) (mnext m b.addr) ∧
      ∀ c ∈ carveTop n b, mlength (getstkTake m hd n (lastOf hd pre) b.addr) c.addr = c.len := by
    rw [getstkTake, carveTop, hmb]
    by_cases heq : n = b.len
    · simp only [if_pos heq, if_pos heq.symm]
      refine ⟨?_, ?_, by simp⟩
      · simp (disch := omega) only [mlength, load_store_of_apart, load_store_same]
      · simp (disch := omega) only [mnext, Walk, List.map_nil, load_store_of_apart, load_store_same,
          Nat.mod_eq_of_lt]
    · simp only [if_neg heq, if_neg (Ne.symm heq)]
      refine ⟨?_, ⟨?_, ?_⟩, ?_⟩
      · simp (disch := omega) only [mlength, load_store_of_apart, load_store_same]
      · simp (disch := omega) only [mnext, load_store_of_apart]
        exact hlink
      · simp (disch := omega) only [mnext, Walk, List.map_nil, load_store_of_apart]
      · intro c hc
        obtain rfl := List.mem_singleton.mp hc
        simp (disch := omega) only [mlength, load_store_of_apart, load_store_same, Nat.mod_eq_of_lt]
  obtain ⟨hsize, hwalk, hlens⟩ := hwords
  exact ⟨Threaded.edit [b] (carveTop n b) h hl hedit (fun x hx => hl.front_below hx (by simp))
    (fun c hc => hl.post_above hc) hpost hwalk hlens, hsize⟩

/-- No free block is large enough. -/
theorem getstk_fails (hf : FreeList h bs) (hfit : lastFit (roundmb nbytes) bs = none) :
    getstk nbytes h = some (h, sysErrPtr) := by
  have hscan := hf.getstkScan_eq (roundmb nbytes)
  rw [hfit] at hscan
  by_cases hn : nbytes = 0
  · exact if_pos hn
  · simp only [getstk, if_neg hn, hscan, Option.bind_eq_bind, Option.bind_some]
    rfl

/-- **`getstk`** takes the high end of the last block that is large enough. -/
theorem getstk_takes (hf : FreeList h bs) (hn : 0 < roundmb nbytes)
    (hfit : lastFit (roundmb nbytes) bs = some (pre, b, post)) :
    ∃ h', getstk nbytes h = some (h', b.fin - 4) ∧
      FreeList h' (pre ++ (carveTop (roundmb nbytes) b ++ post)) ∧
      h'.minheap = h.minheap ∧ h'.maxheap = h.maxheap := by
  have hscan := hf.getstkScan_eq (roundmb nbytes)
  rw [hfit] at hscan
  obtain ⟨rfl, hle, -⟩ := lastFit_some hfit
  have hb := (canonical_cons_iff.mp (canonical_append_iff.mp hf.canonical).2.1).1
  have hb0 := hf.addr_ne_zero (b := b) (by simp)
  have hbin := (hf.within b (by simp)).2
  have hspace := hf.space
  have hlen := hf.threaded.lens b (by simp)
  have hn0 : nbytes ≠ 0 := by
    rintro rfl
    exact absurd hn (by decide)
  obtain ⟨hlist, htotal⟩ := hf.threaded.takeTop hf.laid hle
  refine ⟨{ h with
    mem := getstkTake h.mem h.memlist (roundmb nbytes) (lastOf h.memlist pre) b.addr }, ?_,
      ⟨hlist, ?_, ?_, ?_, hf.header, hf.heap, hf.space⟩, rfl, rfl⟩
  · rw [Extent.fin] at hbin
    simp only [getstk, if_neg hn0, hscan, Option.bind_eq_bind, Option.bind_some, if_neg hb0, hlen,
      getstkTake, Extent.fin]
    by_cases heq : roundmb nbytes = b.len
    · have hword : (b.addr + b.len + addrSpace - 4) % addrSpace = b.addr + b.len - 4 := by
        simp only [addrSpace] at hspace ⊢
        omega
      simp only [heq, if_true, hword]
      rfl
    · have hcut : mlength (store h.mem (b.addr + 4) (b.len - roundmb nbytes)) b.addr =
          b.len - roundmb nbytes := by
        rw [mlength, load_store_same, Nat.mod_eq_of_lt (by omega)]
      have hword : ((b.addr + (b.len - roundmb nbytes)) % addrSpace + roundmb nbytes + addrSpace
          - 4) % addrSpace = b.addr + b.len - 4 := by
        simp only [addrSpace] at hspace ⊢
        omega
      simp only [if_neg heq, hcut, hword]
      rfl
  · exact hf.canonical.replace (shrinks_carveTop hb (roundmb_dvd nbytes) hle)
  · exact hf.within.replace (shrinks_carveTop hb (roundmb_dvd nbytes) hle)
  · have hsize := hf.size
    rw [total_append, total_cons] at hsize
    rw [htotal, mlength_sub (by omega), hsize, total_append, total_append, carveTop]
    split_ifs
    · simp only [total_nil]
      omega
    · simp only [total_cons, total_nil]
      omega

/-! ## 2. Giving blocks back

Live blocks are apart from each other and from the free ones, and giving one back leaves the rest
live: so one lemma about one block gives the lemma about a list of them. -/

/-- The macro `freestk` with the tracking routine as a parameter. -/
def freestkWith (memextract : Nat → Nat → Mem → Option Mem) (hdptr p len : Nat) (h : Heap) :
    Option (Heap × Int) :=
  freememWith memextract hdptr ((p + addrSpace - roundmb len + 4) % addrSpace) (roundmb len) h

/-- The tracking routine returns, and leaves the free list alone. -/
def LeavesFreeList (f : Nat → Nat → Mem → Option Mem) : Prop :=
  ∀ h bs hdptr ptr, FreeList h bs →
    ∃ m, f hdptr ptr h.mem = some m ∧ FreeList { h with mem := m } bs

/-- The two calls that give memory back. -/
inductive FreeCall
  | freemem (blkaddr nbytes : Nat)
  | freestk (p len : Nat)

/-- The bytes that the call is about. -/
def FreeCall.extent : FreeCall → Extent
  | .freemem blkaddr nbytes => ⟨blkaddr, roundedSize nbytes⟩
  | .freestk p len => ⟨p + 4 - roundedSize len, roundedSize len⟩

def FreeCall.run (f : Nat → Nat → Mem → Option Mem) (hdptr : Nat) (h : Heap) :
    FreeCall → Option (Heap × Int)
  | .freemem blkaddr nbytes => freememWith f hdptr blkaddr nbytes h
  | .freestk p len => freestkWith f hdptr p len h

/-- The calls one after the other. -/
def FreeCall.runAll (f : Nat → Nat → Mem → Option Mem) (hdptr : Nat) :
    Heap → List FreeCall → Option Heap
  | h, [] => some h
  | h, c :: cs => (c.run f hdptr h).bind fun r => runAll f hdptr r.1 cs

/-- Blocks of the heap that have no byte in common with each other or with the free blocks. -/
structure LiveBlocks (h : Heap) (bs es : List Extent) : Prop where
  sized : ∀ e ∈ es, 8 ∣ e.addr ∧ 0 < e.len
  within : Within h.minheap h.maxheap es
  once : ∀ x, cover es x + cover bs x ≤ 1

/-- Either call frees the bytes it is about. -/
theorem FreeCall.run_eq (f : Nat → Nat → Mem → Option Mem) (hdptr : Nat) (h : Heap) {c : FreeCall}
    (haddr : 0 < c.extent.addr) (hlen : 0 < c.extent.len) (hend : c.extent.fin < addrSpace) :
    ∃ n, 0 < n ∧ roundedSize n = c.extent.len ∧
      c.run f hdptr h = freememWith f hdptr c.extent.addr n h := by
  cases c with
  | freemem blkaddr nbytes =>
    refine ⟨nbytes, ?_, rfl, rfl⟩
    rcases Nat.eq_zero_or_pos nbytes with rfl | hpos
    · exact absurd hlen (Nat.lt_irrefl 0)
    · exact hpos
  | freestk p len =>
    simp only [extent, Extent.fin] at haddr hlen hend ⊢
    have hround := @roundmb_of_fits len (by omega)
    have hself : roundedSize (roundedSize len) = roundedSize len := by
      simp only [roundedSize]
      omega
    refine ⟨roundedSize len, hlen, hself, ?_⟩
    have hblk : (p + addrSpace - roundedSize len + 4) % addrSpace = p + 4 - roundedSize len := by
      simp only [addrSpace] at hend ⊢
      omega
    rw [run, freestkWith, hround, hblk]

variable {f : Nat → Nat → Mem → Option Mem} {c : FreeCall}

/-- **One live block is given back.** -/
theorem FreeList.give (hf : FreeList h bs) (htrack : LeavesFreeList f)
    (hsized : 8 ∣ c.extent.addr ∧ 0 < c.extent.len)
    (hin : h.minheap ≤ c.extent.addr ∧ c.extent.fin ≤ h.maxheap)
    (hapart : ∀ x, cover [c.extent] x + cover bs x ≤ 1) :
    ∃ h' bs', c.run f hdptr h = some (h', OK) ∧ FreeList h' bs' ∧
      (∀ x, cover bs' x = cover bs x + cover [c.extent] x) ∧ h'.minheap = h.minheap ∧
      h'.maxheap = h.maxheap := by
  have hspace := hf.space
  have hhead := hf.header
  obtain ⟨n, hn, hsize, hrun⟩ :=
    FreeCall.run_eq f hdptr h (c := c) (by omega) hsized.2 (by omega)
  have hl : Legitimate h bs c.extent.addr n := by
    refine ⟨hin.1, ?_, fun e he x ⟨hx, hxe⟩ => ?_⟩
    · rw [hsize]
      exact hin.2
    · rw [hsize] at hx
      have hmine : 0 < cover [c.extent] x := cover_pos (List.mem_singleton_self _) hx
      have hfree := cover_pos he hxe
      have := hapart x
      omega
  obtain ⟨m₁, he, hf₁⟩ := htrack h bs hdptr c.extent.addr hf
  obtain ⟨hs, hend⟩ := hl.passes hf hn
  obtain ⟨bs', hf', hcover, -⟩ := Legitimate.given (h := { h with mem := m₁ }) hf₁ hl hn hsized.1
  refine ⟨_, bs', ?_, hf', ?_, rfl, rfl⟩
  · rw [hrun]
    exact (freememWith_eq hf he hf₁ (Nat.ne_of_gt hn)).2 hs hend
  · rw [hsize] at hcover
    exact hcover

/-- **A list of live blocks is given back**, one after the other. -/
theorem FreeList.giveAll {cs : List FreeCall} (hf : FreeList h bs) (htrack : LeavesFreeList f)
    (hlive : LiveBlocks h bs (cs.map FreeCall.extent)) :
    ∃ h' bs', FreeCall.runAll f hdptr h cs = some h' ∧ FreeList h' bs' ∧
      ∀ x, cover bs' x = cover bs x + cover (cs.map FreeCall.extent) x := by
  induction cs generalizing h bs with
  | nil => exact ⟨h, bs, rfl, hf, fun _ => rfl⟩
  | cons c cs ih =>
    have hsplit := cover_cons c.extent (cs.map FreeCall.extent)
    have hfirst : c.extent ∈ (c :: cs).map FreeCall.extent := by simp
    obtain ⟨h₁, bs₁, hrun, hf₁, hcover, hmin, hmax⟩ :=
      @FreeList.give _ hdptr _ _ _ hf htrack (hlive.sized _ hfirst)
        (hlive.within _ hfirst) fun x => by
        have hone := hlive.once x
        rw [List.map_cons, hsplit] at hone
        omega
    have hlive₁ : LiveBlocks h₁ bs₁ (cs.map FreeCall.extent) := by
      refine ⟨fun e he => hlive.sized e (by simp [he]), fun e he => ?_, fun x => ?_⟩
      · rw [hmin, hmax]
        exact hlive.within e (by simp [he])
      · have hone := hlive.once x
        rw [List.map_cons, hsplit] at hone
        rw [hcover]
        omega
    obtain ⟨h', bs', hrest, hf', hcover'⟩ := ih hf₁ hlive₁
    refine ⟨h', bs', ?_, hf', fun x => ?_⟩
    · rw [FreeCall.runAll, hrun]
      exact hrest
    · rw [hcover', hcover, List.map_cons, hsplit]
      omega

/-! ## 3. The round trip, and the order of frees

Both follow from the same fact: there is one canonical list with given bytes. -/

/-- The list is determined by its bytes. -/
theorem FreeList.eq_of_cover {bs' : List Extent} (hf : FreeList h bs) (hc : Canonical 8 bs')
    (hcover : ∀ x, cover bs' x = cover bs x) : bs' = bs :=
  hc.ext hf.canonical hcover

/-- A stack of `nbytes` is the high end of the highest block that is large enough, and giving it
back leaves the list as it was. -/
def StackRoundTrip (f : Nat → Nat → Mem → Option Mem) (hdptr : Nat) (h : Heap) (bs : List Extent)
    (nbytes : Nat) : Prop :=
  ∀ pre b post, bs = pre ++ b :: post → roundedSize nbytes ≤ b.len →
    (∀ c ∈ post, c.len < roundedSize nbytes) →
    ∃ h₁ h₂, getstk nbytes h = some (h₁, b.fin - 4) ∧
      FreeList h₁ (pre ++ (carveTop (roundedSize nbytes) b ++ post)) ∧
      freestkWith f hdptr (b.fin - 4) nbytes h₁ = some (h₂, OK) ∧ FreeList h₂ bs

theorem lastFit_eq_some {pre post : List Extent} (hle : n ≤ b.len) (hpost : ∀ c ∈ post, c.len < n) :
    lastFit n (pre ++ b :: post) = some (pre, b, post) := by
  induction pre with
  | nil => simp [lastFit, lastFit_none.mpr hpost, hle]
  | cons c pre ih => rw [List.cons_append, lastFit, ih]

theorem stackRoundTrip (hf : FreeList h bs) (htrack : LeavesFreeList f) (hn : 0 < nbytes)
    (hlt : roundedSize nbytes < addrSpace) : StackRoundTrip f hdptr h bs nbytes := by
  rintro pre b post rfl hle hpost
  have hround := roundmb_of_fits hlt
  have hsize := roundedSize_pos hn
  have hb := (canonical_cons_iff.mp (canonical_append_iff.mp hf.canonical).2.1).1
  have hbin := hf.within b (by simp)
  have hdvd : 8 ∣ roundedSize nbytes := hround ▸ roundmb_dvd nbytes
  obtain ⟨h₁, hget, hf₁, hmin, hmax⟩ :=
    getstk_takes hf (by omega) (hround.symm ▸ lastFit_eq_some hle hpost)
  rw [hround] at hf₁
  have hcut : ∀ x, cover (pre ++ b :: post) x =
      cover (pre ++ (carveTop (roundedSize nbytes) b ++ post)) x +
        cover [⟨b.addr + (b.len - roundedSize nbytes), roundedSize nbytes⟩] x := by
    intro x
    have := cover_carveTop hle x
    rw [cover_append, cover_cons, cover_append, cover_append]
    omega
  -- the stack is a live block
  have hext : (FreeCall.freestk (b.fin - 4) nbytes).extent =
      ⟨b.addr + (b.len - roundedSize nbytes), roundedSize nbytes⟩ := by
    rw [FreeCall.extent, Extent.fin, Extent.mk.injEq]
    omega
  obtain ⟨h₂, bs₂, hfree, hf₂, hcover, -, -⟩ :=
    @FreeList.give _ hdptr _ f (.freestk (b.fin - 4) nbytes) hf₁ htrack
      (by
        rw [hext]
        exact ⟨(Nat.dvd_add_right hb.1).mpr (Nat.dvd_sub hb.2.1 hdvd), by simp only; omega⟩)
      (by
        rw [hext, hmin, hmax]
        simp only [Extent.fin] at hbin ⊢
        omega)
      fun x => by
        rw [hext, Nat.add_comm, ← hcut]
        exact hf.canonical.cover_le_one x
  refine ⟨h₁, h₂, hget, hf₁, hfree, ?_⟩
  rw [← hf.eq_of_cover hf₂.canonical fun x => by rw [hcover, hext, hcut]]
  exact hf₂

/-- Nothing is requested, or no block is large enough: there is no stack. -/
def NoStack (bs : List Extent) (nbytes : Nat) : Prop :=
  nbytes = 0 ∨ ∀ b ∈ bs, b.len < roundedSize nbytes

/-- **Stacks and frees.**  Where a block is large enough, `getstk` takes the high end of the highest
one, and `freestk` restores the list; where none is, `getstk` changes nothing.  Live blocks may be
given back in any order: the list that results is the canonical list of the free bytes. -/
theorem frees_in_any_order (hf : FreeList h bs) (htrack : LeavesFreeList f) (hdptr : Nat) :
    (∀ nbytes, roundedSize nbytes < addrSpace →
      (NoStack bs nbytes → getstk nbytes h = some (h, sysErrPtr)) ∧
        (¬NoStack bs nbytes → StackRoundTrip f hdptr h bs nbytes)) ∧
      ∀ cs : List FreeCall, LiveBlocks h bs (cs.map FreeCall.extent) →
        ∃ bs', (∀ cs', cs'.Perm cs →
            ∃ h', FreeCall.runAll f hdptr h cs' = some h' ∧ FreeList h' bs') ∧
          ∀ bs'', Canonical 8 bs'' →
            (∀ x, (∃ b ∈ bs'', b.Has x) ↔
              (∃ b ∈ bs, b.Has x) ∨ ∃ e ∈ cs.map FreeCall.extent, e.Has x) → bs'' = bs' := by
  refine ⟨fun nbytes hlt => ⟨fun hno => ?_, fun hyes => ?_⟩, fun cs hlive => ?_⟩
  · rcases hno with h0 | hall
    · exact if_pos h0
    · refine getstk_fails hf (lastFit_none.mpr ?_)
      rwa [roundmb_of_fits hlt]
  · exact stackRoundTrip hf htrack (Nat.pos_of_ne_zero fun h0 => hyes (.inl h0)) hlt
  · obtain ⟨h₁, bs₁, -, hf₁, hcover⟩ := @FreeList.giveAll _ hdptr _ _ _ hf htrack hlive
    refine ⟨bs₁, fun cs' hperm => ?_, fun bs'' hcan hbytes => hcan.ext hf₁.canonical fun x => ?_⟩
    · have hmap := hperm.map FreeCall.extent
      have hsame : ∀ x, cover (cs'.map FreeCall.extent) x = cover (cs.map FreeCall.extent) x :=
        fun x => hmap.countP_eq _
      obtain ⟨h', bs', hrun, hf', hcover'⟩ := @FreeList.giveAll _ hdptr _ _ cs' hf htrack
        ⟨fun e he => hlive.sized e (hmap.subset he), fun e he => hlive.within e (hmap.subset he),
          fun x => by
            rw [hsame]
            exact hlive.once x⟩
      refine ⟨h', hrun, ?_⟩
      rw [← hf₁.eq_of_cover hf'.canonical fun x => by rw [hcover, hcover', hsame]]
      exact hf'
    · have hx := hbytes x
      rw [← cover_pos_iff, ← cover_pos_iff, ← cover_pos_iff] at hx
      have h1 := hcan.cover_le_one x
      have h2 := hf₁.canonical.cover_le_one x
      have h3 := hcover x
      omega

/-- A stack is cut off the free half, and two blocks of the other half are freed in either order. -/
theorem frees_in_any_order_halfHeap :
    StackRoundTrip (fun _ _ m => some m) 0 halfHeap [⟨0x2000, 0x1000⟩] 100 ∧
      ∃ h₁ h₂ bs',
        FreeCall.runAll (fun _ _ m => some m) 0 halfHeap
          [.freemem 0x3000 0x100, .freestk 0x3ffc 0x100] = some h₁ ∧ FreeList h₁ bs' ∧
        FreeCall.runAll (fun _ _ m => some m) 0 halfHeap
          [.freestk 0x3ffc 0x100, .freemem 0x3000 0x100] = some h₂ ∧ FreeList h₂ bs' := by
  obtain ⟨hstack, horder⟩ := frees_in_any_order (f := fun _ _ m => some m) freeList_halfHeap
    (fun h _ _ _ hf => ⟨h.mem, rfl, hf⟩) 0
  have hapart : [(⟨0x3000, 0x100⟩ : Extent), ⟨0x3f00, 0x100⟩, ⟨0x2000, 0x1000⟩].Pairwise
      Extent.Apart := by
    simp only [List.pairwise_cons, List.mem_cons, List.not_mem_nil, or_false, forall_eq_or_imp,
      forall_eq, Extent.Apart, Extent.Has, Extent.fin]
    refine ⟨⟨fun x => ?_, fun x => ?_⟩, fun x => ?_, by simp⟩
    · omega
    · omega
    · omega
  have hlive : LiveBlocks halfHeap [⟨0x2000, 0x1000⟩]
      ([FreeCall.freemem 0x3000 0x100, .freestk 0x3ffc 0x100].map FreeCall.extent) := by
    refine ⟨by decide, by simp [Within, FreeCall.extent, Extent.fin, halfHeap, roundedSize],
      fun x => ?_⟩
    rw [← cover_append]
    exact pairwise_apart_iff.mp hapart x
  obtain ⟨bs', hruns, -⟩ := horder _ hlive
  obtain ⟨h₁, hrun₁, hf₁⟩ := hruns _ (List.Perm.refl _)
  obtain ⟨h₂, hrun₂, hf₂⟩ := hruns _ (List.Perm.swap _ _ _)
  exact ⟨(hstack 100 (by decide)).2 (by simp [NoStack, roundedSize]), h₁, h₂, bs', hrun₁, hf₁,
    hrun₂, hf₂⟩

end Xinu
