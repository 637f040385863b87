/-
# The first free list: `meminit.c`

GRUB hands over a map of the machine's memory, and `meminit` makes the free list of its usable
regions: it skips those that end below the Xinu image's end, `minheap`, cuts the one that straddles
it, and rounds every start up and every length down to a multiple of 8.

Start and length are rounded separately, so a block can run over the end of its region, and a region
that ends exactly at `minheap` is taken for one behind it, although all of it lies in the image.
`Fits` says when neither happens, and then the list is what it should be (`meminit_builds_iff`).

The map is a list here: what `mmap_addr` comes to when it is advanced by each entry's own size.

Blocks are added behind the last one, so the list is known as far as its last link all the time.
A map can put two blocks in one place, or one at the null pointer, and then the list is not what
the blocks were; the exact condition has to follow these cases too, and what is built is therefore
computed for every map before it is asked whether it is right.
-/
import Xinu.FreeList

namespace Xinu

open ByteMemory Chains LinkedPath Extents

/-! ## 1. The loop

The regions come from the boot loader as 64-bit numbers, and the code keeps the low 32 bits of
them. -/

/-- `struct mbmregion`, less the size, which only leads to the next entry. -/
structure Mbmregion where
  base_addr : Nat
  length : Nat
  type : Nat
deriving DecidableEq, Repr

/-- `MULTIBOOT_SIGNATURE` of `multiboot.h`. -/
abbrev MULTIBOOT_SIGNATURE : Nat := 0x2BADB002

/-- `MULTIBOOT_BOOTINFO_MMAP` of `multiboot.h`. -/
abbrev MULTIBOOT_BOOTINFO_MMAP : Nat := 0x40

/-- `MULTIBOOT_MMAP_TYPE_USABLE` of `multiboot.h`. -/
abbrev MULTIBOOT_MMAP_TYPE_USABLE : Nat := 1

/-- The values of a `uint64`. -/
abbrev uint64Space : Nat := 18446744073709551616

/-- `truncmb(x)`: round down to a multiple of 8, in 32-bit arithmetic. -/
def truncmb (x : Nat) : Nat := x % addrSpace / 8 * 8

/-- What the loop changes. -/
structure Meminit where
  mem : Mem
  memptr : Nat
  maxheap : Nat

/-- A new block is linked behind `memptr`. -/
def Meminit.add (memlist : Nat) (s : Meminit) (next_memptr next_block_length : Nat) : Meminit :=
  let m := store s.mem s.memptr next_memptr
  let m := store m (next_memptr + 4) next_block_length
  let m := store m (memlist + 4) (mlength m memlist + next_block_length)
  { s with mem := m, memptr := next_memptr }

/-- One entry of the map. -/
def meminitEntry (memlist minheap : Nat) (s : Meminit) (r : Mbmregion) : Meminit :=
  if r.type ≠ MULTIBOOT_MMAP_TYPE_USABLE then s
  else
    let top := (r.base_addr % addrSpace + r.length % addrSpace) % addrSpace
    let s := if s.maxheap < top then { s with maxheap := top } else s
    let fin := (r.base_addr + r.length) % uint64Space
    if fin < minheap then s
    else if r.base_addr ≤ minheap ∧ fin > minheap then
      s.add memlist (roundmb minheap) (truncmb ((fin + uint64Space - minheap) % uint64Space))
    else s.add memlist (roundmb r.base_addr) (truncmb r.length)

/-- `meminit()` of an image that ends at `minheap`.  No result is the panic of a kernel that was not
booted with a memory map. -/
def meminit (bootsign flags : Nat) (mmap : List Mbmregion) (minheap : Nat) (h : Heap) :
    Option Heap :=
  let m := store h.mem h.memlist 0
  let m := store m (h.memlist + 4) 0
  if bootsign ≠ MULTIBOOT_SIGNATURE then none
  else if flags &&& MULTIBOOT_BOOTINFO_MMAP = 0 then none
  else
    let s := mmap.foldl (meminitEntry h.memlist minheap) ⟨m, h.memlist, minheap⟩
    let m := if s.memptr ≠ 0 then store s.mem s.memptr 0 else s.mem
    some { h with mem := m, minheap := minheap, maxheap := s.maxheap }

/-! ## 2. What an entry contributes

Each region that reaches the end of the image gives one block: from the first multiple of 8 on,
with its length rounded down. -/

variable {m m' : Mem} {h h' : Heap} {hd minheap memlist : Nat} {r r' : Mbmregion} {e f b : Extent}
  {bs cs : List Extent} {mmap : List Mbmregion}

/-- The region's bytes. -/
def Mbmregion.extent (r : Mbmregion) : Extent := ⟨r.base_addr, r.length⟩

/-- The first address after the region. -/
abbrev Mbmregion.fin (r : Mbmregion) : Nat := r.base_addr + r.length

/-- A usable region that ends at or above the end of the image. -/
def Mbmregion.Reaches (minheap : Nat) (r : Mbmregion) : Prop :=
  r.type = MULTIBOOT_MMAP_TYPE_USABLE ∧ minheap ≤ r.fin

instance (minheap : Nat) : DecidablePred (Mbmregion.Reaches minheap) := fun r =>
  inferInstanceAs (Decidable (r.type = _ ∧ minheap ≤ r.fin))

/-- Where the block of such a region begins before rounding. -/
def Mbmregion.start (minheap : Nat) (r : Mbmregion) : Nat :=
  if r.base_addr ≤ minheap ∧ minheap < r.fin then minheap else r.base_addr

/-- The first multiple of 8 from there on. -/
def Mbmregion.cell (minheap : Nat) (r : Mbmregion) : Nat := (r.start minheap + 7) / 8 * 8

/-- The block. -/
def Mbmregion.block (minheap : Nat) (r : Mbmregion) : Extent :=
  ⟨roundmb (r.start minheap), truncmb (r.fin - r.start minheap)⟩

/-- The blocks of the map, in order. -/
def blocksAdded (minheap : Nat) (mmap : List Mbmregion) : List Extent :=
  (mmap.filter fun r => r.Reaches minheap).map fun r => r.block minheap

/-- The `maxheap` that results. -/
def topOf (top : Nat) (mmap : List Mbmregion) : Nat :=
  (mmap.filter fun r => r.type = MULTIBOOT_MMAP_TYPE_USABLE).foldl
    (fun top r => if top < r.fin % addrSpace then r.fin % addrSpace else top) top

/-- What adding a block writes, and where the list then ends. -/
def addBlock (memlist : Nat) (x : Mem × Nat) (e : Extent) : Mem × Nat :=
  let m := store x.1 x.2 e.addr
  let m := store m (e.addr + 4) e.len
  (store m (memlist + 4) (mlength m memlist + e.len), e.addr)

/-- An entry below 4 GiB adds its block, or nothing. -/
theorem meminitEntry_eq (memlist : Nat) (s : Meminit) (hr : r.fin ≤ addrSpace)
    (hmin : minheap < addrSpace) :
    (meminitEntry memlist minheap s r).maxheap = topOf s.maxheap [r] ∧
      ((meminitEntry memlist minheap s r).mem, (meminitEntry memlist minheap s r).memptr) =
        (blocksAdded minheap [r]).foldl (addBlock memlist) (s.mem, s.memptr) := by
  have hfin : (r.base_addr + r.length) % uint64Space = r.fin := by
    simp only [Mbmregion.fin, uint64Space, addrSpace] at *
    omega
  have htop : (r.base_addr % addrSpace + r.length % addrSpace) % addrSpace = r.fin % addrSpace :=
    (Nat.add_mod ..).symm
  by_cases husable : r.type = MULTIBOOT_MMAP_TYPE_USABLE
  · have hmax : topOf s.maxheap [r] =
        if s.maxheap < r.fin % addrSpace then r.fin % addrSpace else s.maxheap := by
      simp [topOf, husable]
    simp only [meminitEntry, hfin, htop, if_neg (not_not.mpr husable), hmax]
    generalize hs : (if s.maxheap < r.fin % addrSpace then { s with maxheap := r.fin % addrSpace }
      else s) = s'
    have hs' : s'.maxheap = (if s.maxheap < r.fin % addrSpace then r.fin % addrSpace
        else s.maxheap) ∧ s'.mem = s.mem ∧ s'.memptr = s.memptr := by
      rw [← hs]
      split_ifs
      · exact ⟨rfl, rfl, rfl⟩
      · exact ⟨rfl, rfl, rfl⟩
    obtain ⟨h1, h2, h3⟩ := hs'
    by_cases hlow : r.fin < minheap
    · have hno : ¬r.Reaches minheap := fun hreach => absurd hreach.2 (not_le.mpr hlow)
      simp only [if_pos hlow, blocksAdded, List.filter_cons, hno, decide_false]
      exact ⟨h1, by rw [h2, h3]; rfl⟩
    · have hreach : r.Reaches minheap := ⟨husable, not_lt.mp hlow⟩
      simp only [if_neg hlow, blocksAdded, List.filter_cons, hreach, decide_true, if_true,
        List.filter_nil, List.map_cons, List.map_nil, List.foldl_cons, List.foldl_nil]
      by_cases hcut : r.base_addr ≤ minheap ∧ minheap < r.fin
      · have hlen : (r.fin + uint64Space - minheap) % uint64Space = r.fin - minheap := by
          simp only [uint64Space, addrSpace] at *
          omega
        rw [if_pos hcut, hlen, Mbmregion.block, Mbmregion.start, if_pos hcut, ← h2, ← h3]
        exact ⟨h1, rfl⟩
      · have hlen : r.fin - r.base_addr = r.length := Nat.add_sub_cancel_left ..
        rw [if_neg hcut, Mbmregion.block, Mbmregion.start, if_neg hcut, hlen, ← h2, ← h3]
        exact ⟨h1, rfl⟩
  · have hno : ¬r.Reaches minheap := fun hreach => husable hreach.1
    rw [meminitEntry, if_pos husable]
    simp only [topOf, blocksAdded, List.filter_cons, husable, hno, decide_false]
    exact ⟨rfl, rfl⟩

theorem topOf_cons (top : Nat) (r : Mbmregion) (mmap : List Mbmregion) :
    topOf top (r :: mmap) = topOf (topOf top [r]) mmap := by
  by_cases husable : r.type = MULTIBOOT_MMAP_TYPE_USABLE
  · simp [topOf, husable]
  · simp [topOf, husable]

theorem blocksAdded_cons (minheap : Nat) (r : Mbmregion) (mmap : List Mbmregion) :
    blocksAdded minheap (r :: mmap) = blocksAdded minheap [r] ++ blocksAdded minheap mmap := by
  rw [blocksAdded, blocksAdded, blocksAdded, ← List.map_append, ← List.filter_append]
  rfl

/-- **What the loop does**: it adds the blocks of the map, and keeps the highest end. -/
theorem meminit_loop (memlist : Nat) (hmap : ∀ r ∈ mmap, r.fin ≤ addrSpace)
    (hmin : minheap < addrSpace) (s : Meminit) :
    (mmap.foldl (meminitEntry memlist minheap) s).maxheap = topOf s.maxheap mmap ∧
      ((mmap.foldl (meminitEntry memlist minheap) s).mem,
          (mmap.foldl (meminitEntry memlist minheap) s).memptr) =
        (blocksAdded minheap mmap).foldl (addBlock memlist) (s.mem, s.memptr) := by
  induction mmap generalizing s with
  | nil => exact ⟨rfl, rfl⟩
  | cons r mmap ih =>
    obtain ⟨h1, h2⟩ := meminitEntry_eq memlist s (hmap r (by simp)) hmin
    obtain ⟨h3, h4⟩ := ih (fun x hx => hmap x (by simp [hx])) (meminitEntry memlist minheap s r)
    rw [List.foldl_cons, topOf_cons, blocksAdded_cons, List.foldl_append, ← h1, ← h2]
    exact ⟨h3, h4⟩

/-! ## 3. The list that results

`memptr` is the last element all the time, and its link is not written before the next block comes.
A block of length 0 may get the address of the next one, and the rounding of a start at the very end
of the address space gives the null pointer. -/

/-- A place for a list element: `memlist`, or an aligned block apart from it. -/
def Place (hd x : Nat) : Prop :=
  x = hd ∨ 8 ∣ x ∧ x + 8 ≤ addrSpace ∧ (hd + 8 ≤ x ∨ x + 8 ≤ hd)

theorem Place.apart {x y : Nat} (hx : Place hd x) (hy : Place hd y) (hne : x ≠ y) :
    x + 8 ≤ y ∨ y + 8 ≤ x := by
  rcases hx with rfl | ⟨h1, h2, h3⟩
  · rcases hy with rfl | ⟨-, -, h6⟩
    · exact absurd rfl hne
    · exact h6
  · rcases hy with rfl | ⟨h4, -, -⟩
    · exact h3.symm
    · omega

theorem Place.fits {x : Nat} (hx : Place hd x) (hhd : hd + 8 ≤ addrSpace) : x + 8 ≤ addrSpace := by
  rcases hx with rfl | ⟨-, h, -⟩
  · exact hhd
  · exact h

/-- What the words hold after a block was added. -/
structure AddsBlock (m m' : Mem) (hd p : Nat) (e : Extent) : Prop where
  link : mnext m' p = e.addr
  len : mlength m' e.addr = e.len
  size : mlength m' hd = (mlength m hd + e.len) % addrSpace
  links : ∀ x, Place hd x → x ≠ p → mnext m' x = mnext m x
  lens : ∀ x, Place hd x → x ≠ e.addr → x ≠ hd → mlength m' x = mlength m x

theorem addsBlock {p : Nat} (hhd : hd + 8 ≤ addrSpace) (hp : Place hd p) (he : Place hd e.addr)
    (hne : e.addr ≠ hd) (hlen : e.len < addrSpace) :
    AddsBlock m (addBlock hd (m, p) e).1 hd p e := by
  have hpf := hp.fits hhd
  have hef := he.fits hhd
  have hhe := he.apart (.inl rfl) hne
  have hpe : p = e.addr ∨ p + 8 ≤ e.addr ∨ e.addr + 8 ≤ p := by
    by_cases hpe : p = e.addr
    · exact .inl hpe
    · exact .inr (hp.apart he hpe)
  have hph : p = hd ∨ p + 8 ≤ hd ∨ hd + 8 ≤ p := by
    by_cases hph : p = hd
    · exact .inl hph
    · exact .inr (hp.apart (.inl rfl) hph)
  constructor
  · simp (disch := omega) only [addBlock, mnext, load_store_of_apart, load_store_same,
      Nat.mod_eq_of_lt]
  · simp (disch := omega) only [addBlock, mlength, load_store_of_apart, load_store_same,
      Nat.mod_eq_of_lt]
  · simp (disch := omega) only [addBlock, mlength, load_store_of_apart, load_store_same]
  · intro x hx hxp
    have hxf := hx.fits hhd
    have h1 := hx.apart hp hxp
    have h2 : x = e.addr ∨ x + 8 ≤ e.addr ∨ e.addr + 8 ≤ x := by
      by_cases hxe : x = e.addr
      · exact .inl hxe
      · exact .inr (hx.apart he hxe)
    have h3 : x = hd ∨ x + 8 ≤ hd ∨ hd + 8 ≤ x := by
      by_cases hxh : x = hd
      · exact .inl hxh
      · exact .inr (hx.apart (.inl rfl) hxh)
    simp (disch := omega) only [addBlock, mnext, load_store_of_apart]
  · intro x hx hxe hxh
    have hxf := hx.fits hhd
    have h1 := hx.apart he hxe
    have h2 := hx.apart (.inl rfl) hxh
    have h3 : x = p ∨ x + 8 ≤ p ∨ p + 8 ≤ x := by
      by_cases hxp : x = p
      · exact .inl hxp
      · exact .inr (hx.apart hp hxp)
    simp (disch := omega) only [addBlock, mlength, load_store_of_apart]

/-- The list so far: only its last link is open. -/
structure OpenList (m : Mem) (hd : Nat) (bs : List Extent) : Prop where
  chain : Walk (mnext m) hd (hd :: bs.map Extent.addr) (mnext m (lastOf hd bs))
  lens : ∀ b ∈ bs, mlength m b.addr = b.len
  head : 8 ≤ hd ∧ hd + 8 ≤ addrSpace
  places : ∀ b ∈ bs, b.addr ≠ 0 ∧ b.addr ≠ hd ∧ Place hd b.addr
  ascending : bs.Pairwise fun b c => b.addr < c.addr

theorem OpenList.nodup (ho : OpenList m hd bs) : (hd :: bs.map Extent.addr).Nodup := by
  refine List.nodup_cons.mpr ⟨fun hmem => ?_, ?_⟩
  · obtain ⟨b, hb, he⟩ := List.mem_map.mp hmem
    exact (ho.places b hb).2.1 he
  · rw [List.Nodup, List.pairwise_map]
    exact ho.ascending.imp fun hbc => hbc.ne

theorem OpenList.place (ho : OpenList m hd bs) {x : Nat} (hx : x ∈ hd :: bs.map Extent.addr) :
    Place hd x := by
  rcases List.mem_cons.mp hx with rfl | hx
  · exact .inl rfl
  · obtain ⟨b, hb, rfl⟩ := List.mem_map.mp hx
    exact (ho.places b hb).2.2

theorem OpenList.last_ne_zero (ho : OpenList m hd bs) : lastOf hd bs ≠ 0 := by
  rcases List.mem_cons.mp (lastOf_mem hd bs) with he | hmem
  · have := ho.head.1
    omega
  · obtain ⟨b, hb, he⟩ := List.mem_map.mp hmem
    exact he ▸ (ho.places b hb).1

/-- The block takes its place in the list: behind the others, or that of the last. -/
def placeIn (bs : List Extent) (e : Extent) : List Extent :=
  bs.filter (fun b => b.addr ≠ e.addr) ++ [e]

theorem OpenList.add (ho : OpenList m hd bs) (he : Place hd e.addr) (h0 : e.addr ≠ 0)
    (hne : e.addr ≠ hd) (hlen : e.len < addrSpace) (habove : ∀ b ∈ bs, b.addr ≤ e.addr) :
    OpenList (addBlock hd (m, lastOf hd bs) e).1 hd (placeIn bs e) := by
  have ha := addsBlock (m := m) ho.head.2 (ho.place (lastOf_mem hd bs)) he hne hlen
  generalize (addBlock hd (m, lastOf hd bs) e).1 = m' at ha ⊢
  have hopen := ho.chain.redirect (g := mnext m') ho.nodup
    fun x hx hxl => ha.links x (ho.place hx) hxl
  rw [ha.link] at hopen
  have hlens : ∀ b ∈ placeIn bs e, mlength m' b.addr = b.len := by
    intro b hb
    rcases List.mem_append.mp hb with hb | hb
    · obtain ⟨hb, hbe⟩ := List.mem_filter.mp hb
      obtain ⟨-, hbh, hbp⟩ := ho.places b hb
      rw [ha.lens b.addr hbp (by simpa using hbe) hbh, ho.lens b hb]
    · rw [List.mem_singleton.mp hb]
      exact ha.len
  have hplaces : ∀ b ∈ placeIn bs e, b.addr ≠ 0 ∧ b.addr ≠ hd ∧ Place hd b.addr := by
    intro b hb
    rcases List.mem_append.mp hb with hb | hb
    · exact ho.places b (List.mem_filter.mp hb).1
    · rw [List.mem_singleton.mp hb]
      exact ⟨h0, hne, he⟩
  have hasc : (placeIn bs e).Pairwise fun b c => b.addr < c.addr := by
    refine List.pairwise_append.mpr ⟨ho.ascending.filter _, List.pairwise_singleton _ _, ?_⟩
    intro b hb c hc
    obtain ⟨hb, hbe⟩ := List.mem_filter.mp hb
    rw [List.mem_singleton.mp hc]
    exact lt_of_le_of_ne (habove b hb) (by simpa using hbe)
  refine ⟨?_, hlens, ho.head, hplaces, hasc⟩
  rw [placeIn, lastOf_concat, List.map_append, List.map_cons, List.map_nil]
  by_cases hlast : lastOf hd bs = e.addr
  · -- the last block gives up its place
    rcases List.eq_nil_or_concat' bs with rfl | ⟨bs, b, rfl⟩
    · exact absurd hlast.symm hne
    rw [lastOf_concat] at hlast
    have hkeep : (bs ++ [b]).filter (fun b => b.addr ≠ e.addr) = bs := by
      have hbelow := (List.pairwise_append.mp ho.ascending).2.2
      rw [List.filter_append, List.filter_eq_self.mpr fun c hc => ?_]
      · simp [hlast]
      · have := hbelow c hc b (by simp)
        exact decide_eq_true (by omega)
    rw [hkeep]
    have hlink := ha.link
    rw [lastOf_concat, hlast] at hlink
    rw [List.map_append, List.map_cons, List.map_nil, hlast] at hopen
    rw [hlink]
    exact hopen
  · have hbelow : ∀ b ∈ bs, b.addr ≠ e.addr := by
      intro b hb hbe
      rcases List.eq_nil_or_concat' bs with rfl | ⟨bs, c, rfl⟩
      · simp at hb
      · rw [lastOf_concat] at hlast
        have hc := habove c (by simp)
        rcases List.mem_append.mp hb with hb | hb
        · have := (List.pairwise_append.mp ho.ascending).2.2 b hb c (by simp)
          omega
        · rw [List.mem_singleton.mp hb] at hbe
          exact hlast hbe
    rw [List.filter_eq_self.mpr fun b hb => decide_eq_true (hbelow b hb), ← List.cons_append,
      walk_append]
    exact ⟨e.addr, hopen, rfl, rfl⟩

/-- The last link is null. -/
theorem OpenList.threaded (ho : OpenList m hd bs)
    (hlinks : ∀ x, Place hd x → x ≠ lastOf hd bs → mnext m' x = mnext m x)
    (hlast : mnext m' (lastOf hd bs) = 0)
    (hlens : ∀ b ∈ bs, mlength m' b.addr = mlength m b.addr) : Threaded m' hd bs := by
  have hopen := ho.chain.redirect (g := mnext m') ho.nodup
    fun x hx hxl => hlinks x (ho.place hx) hxl
  rw [hlast] at hopen
  exact ⟨hopen, fun b hb => (hlens b hb).trans (ho.lens b hb)⟩

/-- What the end of `meminit` writes. -/
def closeAt (x : Mem × Nat) : Mem := if x.2 ≠ 0 then store x.1 x.2 0 else x.1

theorem OpenList.close (ho : OpenList m hd bs) :
    Threaded (closeAt (m, lastOf hd bs)) hd bs := by
  have hl := ho.place (lastOf_mem hd bs)
  have hlf := hl.fits ho.head.2
  rw [closeAt, if_pos ho.last_ne_zero]
  refine ho.threaded (fun x hx hxl => ?_) (load_store_same ..) fun b hb => ?_
  · have hxf := hx.fits ho.head.2
    have := hx.apart hl hxl
    exact load_store_of_apart (by omega) (by omega) (by omega)
  · obtain ⟨-, -, hbp⟩ := ho.places b hb
    have hbf := hbp.fits ho.head.2
    by_cases hbl : b.addr = lastOf hd bs
    · exact load_store_of_apart (by omega) (by omega) (by omega)
    · have := hbp.apart hl hbl
      exact load_store_of_apart (by omega) (by omega) (by omega)

/-- The blocks that are in the list in the end. -/
def settle (bs cs : List Extent) : List Extent :=
  cs.foldl (fun bs e => if e.addr = 0 then bs else placeIn bs e) bs

theorem settle_null (hcs : ∀ e ∈ cs, e.addr = 0) : settle bs cs = bs := by
  induction cs with
  | nil => rfl
  | cons e cs ih =>
    rw [settle, List.foldl_cons, if_pos (hcs e (by simp))]
    exact ih fun f hf => hcs f (by simp [hf])

/-- **The total counts every block**, and `memlist` loses its link only when it is `memptr`. -/
theorem addAll_size {p : Nat} (hhd : 8 ≤ hd ∧ hd + 8 ≤ addrSpace) (hp : Place hd p)
    (hcs : ∀ e ∈ cs, Place hd e.addr ∧ e.addr ≠ hd ∧ e.len < addrSpace) :
    mlength (closeAt (cs.foldl (addBlock hd) (m, p))) hd = (mlength m hd + total cs) % addrSpace ∧
      (p ≠ hd → mnext (closeAt (cs.foldl (addBlock hd) (m, p))) hd = mnext m hd) := by
  induction cs generalizing m p with
  | nil =>
    have hpf := hp.fits hhd.2
    have hph : p ≠ hd → p + 8 ≤ hd ∨ hd + 8 ≤ p := fun hne => hp.apart (.inl rfl) hne
    rw [total_nil, Nat.add_zero, Nat.mod_eq_of_lt (load_lt m _), List.foldl_nil, closeAt]
    by_cases h0 : p = 0
    · rw [if_neg (not_not.mpr h0)]
      exact ⟨rfl, fun _ => rfl⟩
    · rw [if_pos h0]
      refine ⟨load_store_of_apart (by omega) (by omega) (by omega), fun hne => ?_⟩
      have := hph hne
      exact load_store_of_apart (by omega) (by omega) (by omega)
  | cons e cs ih =>
    obtain ⟨hplace, hne, hlen⟩ := hcs e (by simp)
    have ha := addsBlock (m := m) hhd.2 hp hplace hne hlen
    obtain ⟨h1, h2⟩ := ih (m := (addBlock hd (m, p) e).1) hplace fun f hf => hcs f (by simp [hf])
    rw [List.foldl_cons]
    refine ⟨h1.trans ?_, fun hph => (h2 hne).trans (ha.links hd (.inl rfl) hph.symm)⟩
    rw [ha.size, total_cons, Nat.mod_add_mod, Nat.add_assoc]

/-- Behind a null pointer only null pointers are added, and the list is not touched. -/
theorem addAll_null (hl : Threaded m hd bs) (hhd : 8 ≤ hd ∧ hd + 8 ≤ addrSpace)
    (hplaces : ∀ b ∈ bs, b.addr ≠ 0 ∧ b.addr ≠ hd ∧ Place hd b.addr)
    (hcs : ∀ e ∈ cs, e.addr = 0 ∧ e.len < addrSpace) :
    Threaded (closeAt (cs.foldl (addBlock hd) (m, 0))) hd bs := by
  have hnull : Place hd 0 := .inr ⟨by omega, by simp [addrSpace], .inr (by omega)⟩
  induction cs generalizing m with
  | nil => exact hl
  | cons e cs ih =>
    obtain ⟨he0, hlen⟩ := hcs e (by simp)
    have ha := addsBlock (m := m) (e := e) hhd.2 hnull (he0 ▸ hnull) (by omega) hlen
    have hl' : Threaded (addBlock hd (m, 0) e).1 hd bs := by
      refine ⟨hl.chain.congr fun x hx => ?_, fun b hb => ?_⟩
      · rcases List.mem_cons.mp hx with rfl | hx
        · exact ha.links _ (.inl rfl) (by omega)
        · obtain ⟨b, hb, rfl⟩ := List.mem_map.mp hx
          exact ha.links _ (hplaces b hb).2.2 (hplaces b hb).1
      · obtain ⟨h1, h2, h3⟩ := hplaces b hb
        exact (ha.lens _ h3 (by omega) h2).trans (hl.lens b hb)
    have hptr : addBlock hd (m, 0) e = ((addBlock hd (m, 0) e).1, 0) := by
      rw [← he0]
      rfl
    rw [List.foldl_cons, hptr]
    exact ih hl' fun f hf => hcs f (by simp [hf])

/-- **All blocks are added**: the list consists of those that kept their place. -/
theorem addAll (ho : OpenList m hd bs)
    (hcs : ∀ e ∈ cs, Place hd e.addr ∧ e.addr ≠ hd ∧ e.len < addrSpace)
    (hord : cs.Pairwise fun e f => f.addr = 0 ∨ e.addr ≠ 0 ∧ e.addr ≤ f.addr)
    (habove : ∀ b ∈ bs, ∀ e ∈ cs, e.addr = 0 ∨ b.addr ≤ e.addr) :
    Threaded (closeAt (cs.foldl (addBlock hd) (m, lastOf hd bs))) hd (settle bs cs) ∧
      (settle bs cs).Pairwise fun b c => b.addr < c.addr := by
  induction cs generalizing m bs with
  | nil => exact ⟨ho.close, ho.ascending⟩
  | cons e cs ih =>
    obtain ⟨hplace, hne, hlen⟩ := hcs e (by simp)
    obtain ⟨horde, hord⟩ := List.pairwise_cons.mp hord
    have ha := addsBlock (m := m) ho.head.2 (ho.place (lastOf_mem hd bs)) hplace hne hlen
    rw [List.foldl_cons]
    by_cases h0 : e.addr = 0
    · have hrest : ∀ f ∈ cs, f.addr = 0 := by
        intro f hf
        rcases horde f hf with hf0 | ⟨hne0, -⟩
        · exact hf0
        · exact absurd h0 hne0
      have hl : Threaded (addBlock hd (m, lastOf hd bs) e).1 hd bs := by
        refine ho.threaded ha.links (ha.link.trans h0) fun b hb => ?_
        obtain ⟨h1, h2, h3⟩ := ho.places b hb
        exact ha.lens _ h3 (by omega) h2
      have hptr : addBlock hd (m, lastOf hd bs) e = ((addBlock hd (m, lastOf hd bs) e).1, 0) := by
        rw [← h0]
        rfl
      rw [hptr, settle_null fun f hf => by
        rcases List.mem_cons.mp hf with rfl | hf
        · exact h0
        · exact hrest f hf]
      exact ⟨addAll_null hl ho.head ho.places fun f hf =>
        ⟨hrest f hf, (hcs f (by simp [hf])).2.2⟩, ho.ascending⟩
    · have hadd := ho.add hplace h0 hne hlen fun b hb =>
        (habove b hb e (by simp)).resolve_left h0
      have hptr : addBlock hd (m, lastOf hd bs) e =
          ((addBlock hd (m, lastOf hd bs) e).1, lastOf hd (placeIn bs e)) := by
        rw [placeIn, lastOf_concat]
        rfl
      rw [hptr, settle, List.foldl_cons, if_neg h0]
      refine ih hadd (fun f hf => hcs f (by simp [hf])) hord fun b hb f hf => ?_
      rcases List.mem_append.mp hb with hb | hb
      · exact habove b (List.mem_filter.mp hb).1 f (by simp [hf])
      · rw [List.mem_singleton.mp hb]
        exact (horde f hf).imp_right And.right

/-- A block is in the list in the end when none behind it has its address. -/
theorem mem_settle : b ∈ settle bs cs ↔
    (b ∈ bs ∧ ∀ e ∈ cs, e.addr = 0 ∨ e.addr ≠ b.addr) ∨
      ∃ pre post, cs = pre ++ b :: post ∧ b.addr ≠ 0 ∧
        ∀ e ∈ post, e.addr = 0 ∨ e.addr ≠ b.addr := by
  induction cs generalizing bs with
  | nil => simp [settle]
  | cons e cs ih =>
    rw [settle, List.foldl_cons, ← settle, ih]
    constructor
    · rintro (⟨hb, hall⟩ | ⟨pre, post, rfl, h0, hall⟩)
      · by_cases h0 : e.addr = 0
        · rw [if_pos h0] at hb
          exact .inl ⟨hb, List.forall_mem_cons.mpr ⟨.inl h0, hall⟩⟩
        · rw [if_neg h0] at hb
          rcases List.mem_append.mp hb with hb | hb
          · obtain ⟨hb, hbe⟩ := List.mem_filter.mp hb
            refine .inl ⟨hb, List.forall_mem_cons.mpr ⟨.inr fun he => ?_, hall⟩⟩
            exact of_decide_eq_true hbe he.symm
          · obtain rfl := List.mem_singleton.mp hb
            exact .inr ⟨[], cs, rfl, h0, hall⟩
      · exact .inr ⟨e :: pre, post, rfl, h0, hall⟩
    · rintro (⟨hb, hall⟩ | ⟨pre, post, hsplit, h0, hall⟩)
      · obtain ⟨he, hall⟩ := List.forall_mem_cons.mp hall
        refine .inl ⟨?_, hall⟩
        split_ifs with h0
        · exact hb
        · exact List.mem_append_left _
            (List.mem_filter.mpr ⟨hb, decide_eq_true (he.resolve_left h0).symm⟩)
      · cases pre with
        | nil =>
          obtain ⟨rfl, rfl⟩ := List.cons.inj hsplit
          rw [if_neg h0]
          exact .inl ⟨by simp [placeIn], hall⟩
        | cons c pre =>
          obtain ⟨-, rfl⟩ := List.cons.inj hsplit
          exact .inr ⟨pre, post, rfl, h0, hall⟩

theorem settle_ne_zero (hb : b ∈ settle [] cs) : b.addr ≠ 0 := by
  rcases mem_settle.mp hb with ⟨hb, -⟩ | ⟨-, -, -, h0, -⟩
  · simp at hb
  · exact h0

/-- What is not in the list in the end counts nothing, if its length is 0. -/
theorem total_settle (hbs : ∀ b ∈ bs, (∃ e ∈ cs, e.addr = b.addr) → b.len = 0)
    (hcs : ∀ pre e post, cs = pre ++ e :: post → (e.addr = 0 ∨ ∃ f ∈ post, f.addr = e.addr) →
      e.len = 0) : total (settle bs cs) = total bs + total cs := by
  induction cs generalizing bs with
  | nil => rfl
  | cons e cs ih =>
    have hrest : ∀ pre f post, cs = pre ++ f :: post → (f.addr = 0 ∨ ∃ g ∈ post, g.addr = f.addr) →
        f.len = 0 := fun pre f post hsplit => hcs (e :: pre) f post (by rw [hsplit]; rfl)
    rw [settle, List.foldl_cons, ← settle]
    by_cases h0 : e.addr = 0
    · rw [if_pos h0, ih (fun b hb ⟨f, hf, he⟩ => hbs b hb ⟨f, by simp [hf], he⟩) hrest, total_cons,
        hcs [] e cs rfl (.inl h0), Nat.zero_add]
    · have hkept : total (bs.filter fun b => b.addr ≠ e.addr) = total bs := by
        have hdrop : ∀ b ∈ bs, b.addr = e.addr → b.len = 0 := fun b hb he =>
          hbs b hb ⟨e, by simp, he.symm⟩
        clear hbs ih
        induction bs with
        | nil => rfl
        | cons b bs ih =>
          have htail := ih fun c hc => hdrop c (by simp [hc])
          by_cases hb : b.addr = e.addr
          · rw [List.filter_cons_of_neg (by simpa using hb), htail, total_cons,
              hdrop b (by simp) hb, Nat.zero_add]
          · rw [List.filter_cons_of_pos (by simpa using hb), total_cons, total_cons, htail]
      rw [if_neg h0, ih ?_ hrest, placeIn, total_append, hkept, total_cons, total_cons, total_nil]
      · omega
      · rintro b hb ⟨f, hf, he⟩
        rcases List.mem_append.mp hb with hb | hb
        · exact hbs b (List.mem_filter.mp hb).1 ⟨f, by simp [hf], he⟩
        · rw [List.mem_singleton.mp hb] at he ⊢
          exact hcs [] e cs rfl (.inr ⟨f, hf, he⟩)

/-- The last member with a property. -/
theorem exists_last {α : Type*} {p : α → Prop} {l : List α} (h : ∃ x ∈ l, p x) :
    ∃ pre x post, l = pre ++ x :: post ∧ p x ∧ ∀ y ∈ post, ¬p y := by
  induction l with
  | nil => simp at h
  | cons c l ih =>
    by_cases hlater : ∃ x ∈ l, p x
    · obtain ⟨pre, x, post, rfl, hx, hpost⟩ := ih hlater
      exact ⟨c :: pre, x, post, rfl, hx, hpost⟩
    · obtain ⟨x, hx, hp⟩ := h
      rcases List.mem_cons.mp hx with rfl | hx
      · exact ⟨[], x, l, rfl, hp, fun y hy hpy => hlater ⟨y, hy, hpy⟩⟩
      · exact absurd ⟨x, hx, hp⟩ hlater

/-! ## 4. Which maps fit

A map is sorted and its regions are disjoint.  What is wanted is the largest list of aligned
blocks inside the usable regions and behind the image.  The condition says for each region that
its block is that part of it, or that the block counts nothing. -/

/-- Entries sorted by base address, pairwise disjoint and below 4 GiB. -/
structure MapOk (mmap : List Mbmregion) : Prop where
  sorted : mmap.Pairwise fun r s => r.base_addr ≤ s.base_addr
  apart : mmap.Pairwise fun r s => Extent.Apart r.extent s.extent
  below : ∀ r ∈ mmap, r.fin ≤ addrSpace

/-- The free list that a map should come to. -/
structure FreeOfMap (mmap : List Mbmregion) (h : Heap) (bs : List Extent) : Prop where
  threaded : Threaded h.mem h.memlist bs
  aligned : ∀ b ∈ bs, 8 ∣ b.addr
  ascending : bs.Pairwise fun b c => b.addr < c.addr
  apart : bs.Pairwise Extent.Apart
  positive : ∀ b ∈ bs, 0 < b.len
  size : mlength h.mem h.memlist = total bs
  inside : ∀ b ∈ bs, h.minheap ≤ b.addr ∧ ∃ r ∈ mmap, r.type = MULTIBOOT_MMAP_TYPE_USABLE ∧
    r.base_addr ≤ b.addr ∧ b.fin ≤ r.fin

/-- `maxheap` is the highest end of a usable region. -/
def TopOfMap (mmap : List Mbmregion) (maxheap : Nat) : Prop :=
  (∃ r ∈ mmap, r.type = MULTIBOOT_MMAP_TYPE_USABLE ∧ r.fin = maxheap) ∧
    ∀ r ∈ mmap, r.type = MULTIBOOT_MMAP_TYPE_USABLE → r.fin ≤ maxheap

/-- What `meminit` should build. -/
def BuildsRight (mmap : List Mbmregion) (h : Heap) : Prop :=
  (∃ bs, FreeOfMap mmap h bs) ∧ TopOfMap mmap h.maxheap

/-- The region ends behind the image, and from its first multiple of 8 on there is room for its
length rounded down. -/
def Fills (minheap : Nat) (r : Mbmregion) : Prop :=
  minheap < r.fin ∧ 8 ≤ r.fin - r.start minheap ∧
    r.cell minheap + (r.fin - r.start minheap) / 8 * 8 ≤ r.fin

/-- The region is too short for a block, and its first multiple of 8 is beyond the address space or
that of a later region. -/
def Negligible (minheap : Nat) (r : Mbmregion) (post : List Mbmregion) : Prop :=
  r.fin - r.start minheap < 8 ∧
    (addrSpace ≤ r.cell minheap ∨ ∃ s ∈ post, s.Reaches minheap ∧ s.cell minheap = r.cell minheap)

/-- A usable region reaches the end of the image, none ends at 4 GiB, and each of those that reach
it fills its block or is negligible. -/
structure Fits (minheap : Nat) (mmap : List Mbmregion) : Prop where
  reaches : ∃ r ∈ mmap, r.Reaches minheap
  below : ∀ r ∈ mmap, r.type = MULTIBOOT_MMAP_TYPE_USABLE → r.fin < addrSpace
  blocks : ∀ pre r post, mmap = pre ++ r :: post → r.Reaches minheap →
    Fills minheap r ∨ Negligible minheap r post

theorem FreeOfMap.first (hf : FreeOfMap mmap h bs) :
    mnext h.mem h.memlist = 0 ∨ h.minheap ≤ mnext h.mem h.memlist := by
  cases bs with
  | nil => exact .inl hf.threaded.chain.2
  | cons b bs =>
    have hb : mnext h.mem h.memlist = b.addr := hf.threaded.chain.2.1
    rw [hb]
    exact .inr (hf.inside b (by simp)).1

/-! The rounding of one region. -/

theorem start_le_fin (minheap : Nat) (r : Mbmregion) : r.start minheap ≤ r.fin := by
  rw [Mbmregion.start]
  split_ifs with hcut
  · exact hcut.2.le
  · exact Nat.le_add_right ..

theorem le_start (minheap : Nat) (r : Mbmregion) : r.base_addr ≤ r.start minheap := by
  rw [Mbmregion.start]
  split_ifs with hcut
  · exact hcut.1
  · exact le_rfl

theorem minheap_le_start (hlt : minheap < r.fin) : minheap ≤ r.start minheap := by
  rw [Mbmregion.start]
  split_ifs with hcut
  · exact le_rfl
  · omega

theorem start_le_cell (minheap : Nat) (r : Mbmregion) : r.start minheap ≤ r.cell minheap := by
  rw [Mbmregion.cell]
  omega

theorem cell_lt_fin (hlong : 8 ≤ r.fin - r.start minheap) : r.cell minheap < r.fin := by
  rw [Mbmregion.cell]
  omega

theorem cell_dvd (minheap : Nat) (r : Mbmregion) : 8 ∣ r.cell minheap := Dvd.intro_left _ rfl

theorem block_addr (hfin : r.fin ≤ addrSpace) :
    (r.block minheap).addr = if r.cell minheap < addrSpace then r.cell minheap else 0 := by
  have hs := start_le_fin minheap r
  rw [Mbmregion.block, roundmb]
  by_cases hlt : r.cell minheap < addrSpace
  · rw [if_pos hlt]
    simp only [Mbmregion.cell, addrSpace] at *
    omega
  · rw [if_neg hlt]
    simp only [Mbmregion.cell, addrSpace] at *
    omega

theorem block_len (hr : r.Reaches minheap) (hfin : r.fin ≤ addrSpace) (hmin : 0 < minheap)
    (hlt : minheap < addrSpace) :
    (r.block minheap).len = (r.fin - r.start minheap) / 8 * 8 := by
  have hsize : r.fin - r.start minheap < addrSpace := by
    rw [Mbmregion.start]
    split_ifs with hcut
    · omega
    · have := hr.2
      omega
  rw [Mbmregion.block, truncmb, Nat.mod_eq_of_lt hsize]

/-! The order of the regions. -/

/-- A region and a later one. -/
theorem MapOk.later {pre post : List Mbmregion} {s : Mbmregion} (hm : MapOk mmap)
    (hsplit : mmap = pre ++ r :: post) (hs : s ∈ post) :
    r.base_addr ≤ s.base_addr ∧ Extent.Apart r.extent s.extent := by
  have h1 := hm.sorted
  have h2 := hm.apart
  rw [hsplit] at h1 h2
  exact ⟨(List.pairwise_cons.mp (List.pairwise_append.mp h1).2.1).1 s hs,
    (List.pairwise_cons.mp (List.pairwise_append.mp h2).2.1).1 s hs⟩

theorem MapOk.disjoint {s : Mbmregion} (hm : MapOk mmap) (hr : r ∈ mmap) (hs : s ∈ mmap)
    (hne : r ≠ s) : Extent.Apart r.extent s.extent := by
  obtain ⟨pre, post, hsplit⟩ := List.append_of_mem hr
  rw [hsplit] at hs
  rcases List.mem_append.mp hs with hs | hs
  · obtain ⟨p, q, rfl⟩ := List.append_of_mem hs
    have hsplit' : mmap = p ++ s :: (q ++ r :: post) := by
      rw [hsplit, List.append_assoc, List.cons_append]
    exact fun x hx => (hm.later (s := r) hsplit' (by simp)).2 x hx.symm
  · rcases List.mem_cons.mp hs with rfl | hs
    · exact absurd rfl hne
    · exact (hm.later hsplit hs).2

section Later

variable {s : Mbmregion} (hle : r.base_addr ≤ s.base_addr)
  (ha : Extent.Apart r.extent s.extent)

include hle ha

/-- A later region that is not empty begins behind the earlier one. -/
theorem fin_le_base (hs : s.base_addr < s.fin) : r.fin ≤ s.base_addr := by
  by_contra hin
  exact ha s.base_addr ⟨⟨hle, not_le.mp hin⟩, le_rfl, hs⟩

theorem cell_le_cell (hs : s.Reaches minheap) : r.cell minheap ≤ s.cell minheap := by
  have hstart : r.start minheap ≤ s.start minheap := by
    have hsb := le_start minheap s
    rw [Mbmregion.start]
    split_ifs with hcut
    · -- a later region below the end of the image would overlap this one
      rcases Nat.lt_or_ge s.base_addr minheap with hlow | hhigh
      · rcases Nat.lt_or_ge minheap s.fin with hlt | hge
        · exact minheap_le_start hlt
        · have := hs.2
          have := fin_le_base hle ha (by omega)
          omega
      · omega
    · omega
  rw [Mbmregion.cell, Mbmregion.cell]
  omega

/-- Two regions that both have room for a block do not begin in the same place. -/
theorem cell_lt_cell (hr : 8 ≤ r.fin - r.start minheap) (hs : 8 ≤ s.fin - s.start minheap) :
    r.cell minheap < s.cell minheap := by
  have h1 := cell_lt_fin hr
  have h2 := le_start minheap s
  have h3 := start_le_cell minheap s
  have h4 := fin_le_base hle ha (by omega)
  omega

end Later

/-! The blocks of a map that is split at one region. -/

theorem blocksAdded_split {pre post : List Mbmregion} (hr : r.Reaches minheap) :
    blocksAdded minheap (pre ++ r :: post) =
      blocksAdded minheap pre ++ r.block minheap :: blocksAdded minheap post := by
  simp [blocksAdded, hr]

theorem of_blocksAdded_split {pre post : List Extent}
    (h : blocksAdded minheap mmap = pre ++ e :: post) :
    ∃ pre' r post', mmap = pre' ++ r :: post' ∧ r.Reaches minheap ∧ e = r.block minheap ∧
      post = blocksAdded minheap post' := by
  obtain ⟨l₁, l₂, hfilter, -, h2⟩ := List.map_eq_append_iff.mp h
  obtain ⟨r, l₃, rfl, rfl, rfl⟩ := List.map_eq_cons_iff.mp h2
  obtain ⟨m₁, m₂, rfl, -, h4⟩ := List.filter_eq_append_iff.mp hfilter
  obtain ⟨m₃, m₄, rfl, -, hr, rfl⟩ := List.filter_eq_cons_iff.mp h4
  exact ⟨m₁ ++ m₃, r, m₄, by simp, of_decide_eq_true hr, rfl, rfl⟩

theorem mem_blocksAdded : e ∈ blocksAdded minheap mmap ↔
    ∃ r ∈ mmap, r.Reaches minheap ∧ e = r.block minheap := by
  simp only [blocksAdded, List.mem_map, List.mem_filter, decide_eq_true_eq]
  constructor
  · rintro ⟨r, ⟨h1, h2⟩, rfl⟩
    exact ⟨r, h1, h2, rfl⟩
  · rintro ⟨r, h1, h2, rfl⟩
    exact ⟨r, ⟨h1, h2⟩, rfl⟩

/-! ## 5. `maxheap`

The highest end of a region, which wraps to 0 for one that ends at 4 GiB. -/

theorem le_topOf (top : Nat) (mmap : List Mbmregion) : top ≤ topOf top mmap := by
  induction mmap generalizing top with
  | nil => exact le_rfl
  | cons r mmap ih =>
    refine le_trans ?_ ((topOf_cons top r mmap).symm ▸ ih _)
    by_cases husable : r.type = MULTIBOOT_MMAP_TYPE_USABLE
    · simp only [topOf, husable, List.filter_cons, decide_true, if_true, List.filter_nil,
        List.foldl_cons, List.foldl_nil]
      split_ifs
      · omega
      · omega
    · simp [topOf, husable]

theorem fin_le_topOf (top : Nat) (hr : r ∈ mmap) (husable : r.type = MULTIBOOT_MMAP_TYPE_USABLE) :
    r.fin % addrSpace ≤ topOf top mmap := by
  induction mmap generalizing top with
  | nil => simp at hr
  | cons s mmap ih =>
    rw [topOf_cons]
    rcases List.mem_cons.mp hr with rfl | hr
    · refine le_trans ?_ (le_topOf _ mmap)
      simp only [topOf, husable, List.filter_cons, decide_true, if_true, List.filter_nil,
        List.foldl_cons, List.foldl_nil]
      split_ifs
      · omega
      · omega
    · exact ih _ hr

theorem topOf_mem (top : Nat) (mmap : List Mbmregion) : topOf top mmap = top ∨
    ∃ r ∈ mmap, r.type = MULTIBOOT_MMAP_TYPE_USABLE ∧ r.fin % addrSpace = topOf top mmap := by
  induction mmap generalizing top with
  | nil => exact .inl rfl
  | cons s mmap ih =>
    rw [topOf_cons]
    rcases ih (topOf top [s]) with he | ⟨r, hr, h1, h2⟩
    · rw [he]
      by_cases husable : s.type = MULTIBOOT_MMAP_TYPE_USABLE
      · by_cases hlt : top < s.fin % addrSpace
        · exact .inr ⟨s, by simp, husable, by simp [topOf, husable, hlt]⟩
        · exact .inl (by simp [topOf, husable, hlt])
      · exact .inl (by simp [topOf, husable])
    · exact .inr ⟨r, by simp [hr], h1, h2⟩

/-- **`maxheap` is right** if and only if a usable region reaches the end of the image and none ends
at 4 GiB. -/
theorem topOfMap_iff (hmin : minheap < addrSpace) :
    TopOfMap mmap (topOf minheap mmap) ↔
      (∃ r ∈ mmap, r.Reaches minheap) ∧
        ∀ r ∈ mmap, r.type = MULTIBOOT_MMAP_TYPE_USABLE → r.fin < addrSpace := by
  have hlt : topOf minheap mmap < addrSpace := by
    rcases topOf_mem minheap mmap with he | ⟨r, -, -, he⟩
    · omega
    · rw [← he]
      exact Nat.mod_lt _ (by decide)
  have hle := le_topOf minheap mmap
  constructor
  · rintro ⟨⟨r, hr, h1, h2⟩, hall⟩
    exact ⟨⟨r, hr, h1, by omega⟩, fun s hs h3 => by have := hall s hs h3; omega⟩
  · rintro ⟨⟨r, hr, h1, h2⟩, hall⟩
    have hmod : ∀ s ∈ mmap, s.type = MULTIBOOT_MMAP_TYPE_USABLE → s.fin ≤ topOf minheap mmap := by
      intro s hs h3
      have := fin_le_topOf minheap hs h3
      rwa [Nat.mod_eq_of_lt (hall s hs h3)] at this
    refine ⟨?_, hmod⟩
    rcases topOf_mem minheap mmap with he | ⟨s, hs, h3, he⟩
    · exact ⟨r, hr, h1, by have := hmod r hr h1; omega⟩
    · rw [Nat.mod_eq_of_lt (hall s hs h3)] at he
      exact ⟨s, hs, h3, he⟩

/-! ## 6. The free list

The blocks of a map ascend, so each is linked behind the others and none is linked twice, with the
two exceptions named above. -/

/-- What `meminit` returns. -/
theorem meminit_eq {bootsign flags : Nat} (hsign : bootsign = MULTIBOOT_SIGNATURE)
    (hflags : flags &&& MULTIBOOT_BOOTINFO_MMAP ≠ 0) (hm : MapOk mmap) (hmin : minheap < addrSpace)
    (h : Heap) :
    meminit bootsign flags mmap minheap h = some { h with
      mem := closeAt ((blocksAdded minheap mmap).foldl (addBlock h.memlist)
        (store (store h.mem h.memlist 0) (h.memlist + 4) 0, h.memlist)),
      minheap := minheap, maxheap := topOf minheap mmap } := by
  obtain ⟨h1, h2⟩ := meminit_loop h.memlist hm.below hmin
    ⟨store (store h.mem h.memlist 0) (h.memlist + 4) 0, h.memlist, minheap⟩
  simp only at h1 h2
  simp only [meminit, hsign, if_neg hflags, ne_eq, not_true, if_false, ← h1, ← h2]
  rfl

theorem openList_start (m : Mem) (hhd : 8 ≤ hd ∧ hd + 8 ≤ addrSpace) :
    OpenList (store (store m hd 0) (hd + 4) 0) hd [] ∧
      mnext (store (store m hd 0) (hd + 4) 0) hd = 0 ∧
      mlength (store (store m hd 0) (hd + 4) 0) hd = 0 := by
  refine ⟨⟨⟨rfl, rfl⟩, by simp, hhd, by simp, .nil⟩, ?_, ?_⟩
  · simp (disch := omega) only [mnext, load_store_of_apart, load_store_same, Nat.zero_mod]
  · simp (disch := omega) only [mlength, load_store_same, Nat.zero_mod]

/-- No block of a usable region lies on `memlist`. -/
def MemlistClear (hd minheap : Nat) (mmap : List Mbmregion) : Prop :=
  ∀ r ∈ mmap, r.Reaches minheap → r.cell minheap < addrSpace →
    hd + 8 ≤ r.cell minheap ∨ r.cell minheap + 8 ≤ hd

theorem MemlistClear.places (hclear : MemlistClear hd minheap mmap) (hm : MapOk mmap)
    (hhd : 8 ≤ hd) :
    ∀ e ∈ blocksAdded minheap mmap, Place hd e.addr ∧ e.addr ≠ hd ∧ e.len < addrSpace := by
  intro e he
  obtain ⟨r, hr, hreach, rfl⟩ := mem_blocksAdded.mp he
  have hdvd := cell_dvd minheap r
  have hlen : (r.block minheap).len < addrSpace := by
    rw [Mbmregion.block, truncmb]
    simp only [addrSpace]
    omega
  rw [block_addr (hm.below r hr)]
  split_ifs with hlt
  · have hout := hclear r hr hreach hlt
    simp only [addrSpace] at hlt
    exact ⟨.inr ⟨hdvd, by simp only [addrSpace]; omega, hout⟩, by omega, hlen⟩
  · exact ⟨.inr ⟨by omega, by simp [addrSpace], .inr (by omega)⟩, by omega, hlen⟩

/-- The blocks come in ascending order, and those without a place last. -/
theorem blocksAdded_order (hm : MapOk mmap)
    (hnull : ∀ r ∈ mmap, r.Reaches minheap → r.cell minheap ≠ 0) :
    (blocksAdded minheap mmap).Pairwise fun e f =>
      f.addr = 0 ∨ e.addr ≠ 0 ∧ e.addr ≤ f.addr := by
  have hpair := List.Pairwise.and_mem.mp ((hm.sorted.and hm.apart).filter
    fun r => decide (r.Reaches minheap))
  rw [blocksAdded, List.pairwise_map]
  refine hpair.imp fun {r s} ⟨hr, hs, hle, ha⟩ => ?_
  obtain ⟨hr, hrr⟩ := List.mem_filter.mp hr
  obtain ⟨hs, hsr⟩ := List.mem_filter.mp hs
  have hcells := cell_le_cell hle ha (of_decide_eq_true hsr)
  have hne := hnull r hr (of_decide_eq_true hrr)
  rw [block_addr (hm.below r hr), block_addr (hm.below s hs)]
  by_cases hlt : s.cell minheap < addrSpace
  · rw [if_pos hlt, if_pos (lt_of_le_of_lt hcells hlt)]
    exact .inr ⟨hne, hcells⟩
  · exact .inl (if_neg hlt)

/-- The memory that results. -/
abbrev builtBy (m : Mem) (hd minheap : Nat) (mmap : List Mbmregion) : Mem :=
  closeAt ((blocksAdded minheap mmap).foldl (addBlock hd)
    (store (store m hd 0) (hd + 4) 0, hd))

/-- Its total. -/
theorem builtBy_size (hm : MapOk mmap) (hhd : 8 ≤ hd ∧ hd + 8 ≤ addrSpace)
    (hclear : MemlistClear hd minheap mmap) :
    mlength (builtBy m hd minheap mmap) hd = total (blocksAdded minheap mmap) % addrSpace := by
  obtain ⟨-, -, hzero⟩ := openList_start m hhd
  obtain ⟨h1, -⟩ := addAll_size (m := store (store m hd 0) (hd + 4) 0) hhd (.inl rfl)
    (hclear.places hm hhd.1)
  rwa [hzero, Nat.zero_add] at h1

/-- Its blocks when no region's first multiple of 8 is the null pointer. -/
theorem builtBy_list (hm : MapOk mmap) (hhd : 8 ≤ hd ∧ hd + 8 ≤ addrSpace)
    (hclear : MemlistClear hd minheap mmap)
    (hnull : ∀ r ∈ mmap, r.Reaches minheap → r.cell minheap ≠ 0) :
    Threaded (builtBy m hd minheap mmap) hd (settle [] (blocksAdded minheap mmap)) ∧
      (settle [] (blocksAdded minheap mmap)).Pairwise fun b c => b.addr < c.addr := by
  obtain ⟨hopen, -, -⟩ := openList_start m hhd
  exact addAll hopen (hclear.places hm hhd.1) (blocksAdded_order hm hnull) (by simp)

/-- When that of the first region is, the list is lost. -/
theorem builtBy_lost (hm : MapOk mmap) (hhd : 8 ≤ hd ∧ hd + 8 ≤ addrSpace)
    (hclear : MemlistClear hd minheap mmap) (hfirst : blocksAdded minheap mmap = e :: cs)
    (he : e.addr = 0) : Threaded (builtBy m hd minheap mmap) hd [] := by
  have hplaces := hclear.places hm hhd.1
  rw [hfirst] at hplaces
  obtain ⟨hplace, hne, hlen⟩ := hplaces e (by simp)
  have ha := addsBlock (m := store (store m hd 0) (hd + 4) 0) hhd.2 (.inl rfl) hplace hne hlen
  have hrest : ∀ f ∈ cs, Place hd f.addr ∧ f.addr ≠ hd ∧ f.len < addrSpace :=
    fun f hf => hplaces f (by simp [hf])
  obtain ⟨-, h2⟩ := addAll_size (m := (addBlock hd (store (store m hd 0) (hd + 4) 0, hd) e).1) hhd
    hplace hrest
  rw [builtBy, hfirst, List.foldl_cons]
  exact ⟨⟨rfl, (h2 hne).trans (ha.link.trans he)⟩, by simp⟩

/-- The lengths of the blocks do not add up to the address space. -/
theorem total_blocksAdded_lt (hm : MapOk mmap) (hmin : 0 < minheap ∧ minheap < addrSpace)
    (hbelow : ∀ r ∈ mmap, r.type = MULTIBOOT_MMAP_TYPE_USABLE → r.fin < addrSpace) :
    total (blocksAdded minheap mmap) < addrSpace := by
  have hle : total (blocksAdded minheap mmap) ≤
      total ((mmap.filter fun r => r.Reaches minheap).map Mbmregion.extent) := by
    simp only [total, blocksAdded, List.map_map]
    refine List.sum_le_sum fun r hr => ?_
    obtain ⟨hr, hreach⟩ := List.mem_filter.mp hr
    have hlen := block_len (of_decide_eq_true hreach) (hm.below r hr) hmin.1 hmin.2
    have hs := le_start minheap r
    simp only [Function.comp, hlen, Mbmregion.extent, Mbmregion.fin]
    omega
  have happ : ((mmap.filter fun r => r.Reaches minheap).map Mbmregion.extent).Pairwise
      Extent.Apart := List.pairwise_map.mpr (hm.apart.filter _)
  have hfin : ∀ e ∈ (mmap.filter fun r => r.Reaches minheap).map Mbmregion.extent,
      e.fin ≤ addrSpace - 1 := by
    intro e he
    obtain ⟨r, hr, rfl⟩ := List.mem_map.mp he
    obtain ⟨hr, hreach⟩ := List.mem_filter.mp hr
    exact Nat.le_sub_one_of_lt (hbelow r hr (of_decide_eq_true hreach).1)
  have htotal := total_le_of_apart happ hfin
  have hpos : 0 < addrSpace := by decide
  omega

/-! ## 7. `meminit`

Both directions of the equivalence: a map that fits, and what is wrong with one that does not. -/

/-- The last region with the same first multiple of 8. -/
theorem last_of_cell {pre post : List Mbmregion} (hsplit : mmap = pre ++ r :: post)
    (hr : r.Reaches minheap) :
    ∃ pre' s post', mmap = pre' ++ s :: post' ∧ (s = r ∨ s ∈ post) ∧ s.Reaches minheap ∧
      s.cell minheap = r.cell minheap ∧
      ∀ t ∈ post', t.Reaches minheap → t.cell minheap ≠ r.cell minheap := by
  obtain ⟨pre', s, post', he, ⟨h1, h2⟩, h3⟩ := exists_last (l := r :: post)
    (p := fun s => s.Reaches minheap ∧ s.cell minheap = r.cell minheap) ⟨r, by simp, hr, rfl⟩
  refine ⟨pre ++ pre', s, post', by rw [hsplit, he, List.append_assoc], ?_, h1, h2,
    fun t ht h4 h5 => h3 t ht ⟨h4, h5⟩⟩
  exact List.mem_cons.mp (he ▸ List.mem_append_right _ List.mem_cons_self)

/-- Its block stays in the list. -/
theorem mem_settle_of_last {pre post : List Mbmregion} (hm : MapOk mmap)
    (hsplit : mmap = pre ++ r :: post) (hr : r.Reaches minheap) (h0 : r.cell minheap ≠ 0)
    (hlt : r.cell minheap < addrSpace)
    (hlast : ∀ t ∈ post, t.Reaches minheap → t.cell minheap ≠ r.cell minheap) :
    r.block minheap ∈ settle [] (blocksAdded minheap mmap) := by
  have haddr := @block_addr minheap _ (hm.below r (by simp [hsplit]))
  rw [if_pos hlt] at haddr
  refine mem_settle.mpr (.inr ⟨_, _, hsplit ▸ blocksAdded_split hr, haddr ▸ h0, fun e he => ?_⟩)
  obtain ⟨t, ht, h1, rfl⟩ := mem_blocksAdded.mp he
  rw [haddr, block_addr (hm.below t (by simp [hsplit, ht]))]
  split_ifs with hlt'
  · exact .inr (hlast t ht h1)
  · exact .inl rfl

/-! ### Maps that fit -/

section Fits

variable (hf : Fits minheap mmap)

include hf

/-- The last of the regions with one first multiple of 8 fills its block. -/
theorem Fits.last {pre post : List Mbmregion} (hsplit : mmap = pre ++ r :: post)
    (hr : r.Reaches minheap) (hlt : r.cell minheap < addrSpace) :
    ∃ s, (s = r ∨ s ∈ post) ∧ s.cell minheap = r.cell minheap ∧ Fills minheap s := by
  obtain ⟨pre', s, post', hsplit', hs, h1, h2, h3⟩ := last_of_cell hsplit hr
  refine ⟨s, hs, h2, (hf.blocks pre' s post' hsplit' h1).resolve_right ?_⟩
  rintro ⟨-, hbeyond | ⟨t, ht, h4, h5⟩⟩
  · omega
  · exact h3 t ht h4 (h5.trans h2)

theorem Fits.minheap_le_cell (hr : r ∈ mmap) (hreach : r.Reaches minheap)
    (hmin : minheap < addrSpace) : minheap ≤ r.cell minheap := by
  by_cases hlt : r.cell minheap < addrSpace
  · obtain ⟨pre, post, hsplit⟩ := List.append_of_mem hr
    obtain ⟨s, -, hs, hfill⟩ := hf.last hsplit hreach hlt
    rw [← hs]
    exact (minheap_le_start hfill.1).trans (start_le_cell minheap s)
  · omega

/-- A block that stays in the list is that of a region that fills it. -/
theorem Fits.of_mem_settle (hm : MapOk mmap) (hb : b ∈ settle [] (blocksAdded minheap mmap)) :
    ∃ r ∈ mmap, r.Reaches minheap ∧ Fills minheap r ∧ b = r.block minheap := by
  rcases mem_settle.mp hb with ⟨hb, -⟩ | ⟨A, B, hsplit, h0, hlast⟩
  · simp at hb
  obtain ⟨pre, r, post, hmap, hr, rfl, rfl⟩ := of_blocksAdded_split hsplit
  have hmem : r ∈ mmap := by simp [hmap]
  refine ⟨r, hmem, hr, (hf.blocks pre r post hmap hr).resolve_right ?_, rfl⟩
  have haddr := @block_addr minheap _ (hm.below r hmem)
  rintro ⟨-, hbeyond | ⟨s, hs, h1, h2⟩⟩
  · exact h0 (haddr.trans (if_neg (not_lt.mpr hbeyond)))
  · have hsaddr := @block_addr minheap _ (hm.below s (by simp [hmap, hs]))
    rw [h2, ← haddr] at hsaddr
    rcases hlast _ (mem_blocksAdded.mpr ⟨s, hs, h1, rfl⟩) with he | hne
    · exact h0 (hsaddr ▸ he)
    · exact hne hsaddr

/-- The blocks that do not stay are empty. -/
theorem Fits.dropped (hm : MapOk mmap) (hmin : 0 < minheap ∧ minheap < addrSpace)
    {A B : List Extent} (hsplit : blocksAdded minheap mmap = A ++ e :: B)
    (he : e.addr = 0 ∨ ∃ f ∈ B, f.addr = e.addr) : e.len = 0 := by
  obtain ⟨pre, r, post, hmap, hr, rfl, rfl⟩ := of_blocksAdded_split hsplit
  have hmem : r ∈ mmap := by simp [hmap]
  have hbelow := hm.below r hmem
  rw [block_len hr hbelow hmin.1 hmin.2]
  rcases hf.blocks pre r post hmap hr with hfill | hnegl
  · have haddr := @block_addr minheap _ hbelow
    have hcell := cell_lt_fin hfill.2.1
    have hlow := hf.minheap_le_cell hmem hr hmin.2
    rw [if_pos (by omega)] at haddr
    rcases he with h0 | ⟨f, hf', he⟩
    · omega
    -- a later region with the same first multiple of 8 would begin inside this one
    obtain ⟨s, hs, hsr, rfl⟩ := mem_blocksAdded.mp hf'
    have hsaddr := @block_addr minheap _ (hm.below s (by simp [hmap, hs]))
    have hslt : s.cell minheap < addrSpace := by
      by_contra hge
      rw [if_neg hge] at hsaddr
      omega
    rw [if_pos hslt] at hsaddr
    obtain ⟨p, q, rfl⟩ := List.append_of_mem hs
    obtain ⟨t, ht, h1, h2⟩ := hf.last (hmap.trans (List.append_assoc pre (r :: p) (s :: q)).symm)
      hsr hslt
    have ht' : t ∈ p ++ s :: q := List.mem_append_right _ (List.mem_cons.mpr ht)
    obtain ⟨hle, ha⟩ := hm.later hmap ht'
    have hstrict := cell_lt_cell hle ha hfill.2.1 h2.2.1
    omega
  · have hshort := hnegl.1
    omega

/-- **The list of a map that fits.** -/
theorem Fits.freeOfMap (hm : MapOk mmap) (hlist : 8 ≤ h.memlist ∧ h.memlist + 8 ≤ minheap)
    (hmin : minheap < addrSpace) (hh : h.minheap = minheap)
    (hmem : h.mem = builtBy m h.memlist minheap mmap) :
    FreeOfMap mmap h (settle [] (blocksAdded minheap mmap)) := by
  have hpos : 0 < minheap ∧ minheap < addrSpace := ⟨by omega, hmin⟩
  have hclear : MemlistClear h.memlist minheap mmap := by
    intro r hr hreach _
    have := hf.minheap_le_cell hr hreach hmin
    exact .inl (by omega)
  have hnull : ∀ r ∈ mmap, r.Reaches minheap → r.cell minheap ≠ 0 := by
    intro r hr hreach
    have := hf.minheap_le_cell hr hreach hmin
    omega
  have hhd : 8 ≤ h.memlist ∧ h.memlist + 8 ≤ addrSpace := ⟨hlist.1, by omega⟩
  obtain ⟨hthreaded, hasc⟩ := builtBy_list (m := m) hm hhd hclear hnull
  have hsize := builtBy_size (m := m) hm hhd hclear
  rw [Nat.mod_eq_of_lt (total_blocksAdded_lt hm hpos hf.below),
    ← Nat.zero_add (total (blocksAdded minheap mmap)), ← total_nil,
    ← total_settle (by simp) fun A e B hsplit he => hf.dropped hm hpos hsplit he] at hsize
  -- each block and its region
  have hblock : ∀ b ∈ settle [] (blocksAdded minheap mmap), 8 ∣ b.addr ∧ 0 < b.len ∧
      minheap ≤ b.addr ∧ ∃ r ∈ mmap, r.type = MULTIBOOT_MMAP_TYPE_USABLE ∧ r.base_addr ≤ b.addr ∧
        b.fin ≤ r.fin ∧ b = r.block minheap := by
    intro b hb
    obtain ⟨r, hr, hreach, hfill, rfl⟩ := hf.of_mem_settle hm hb
    have hbelow := hm.below r hr
    have haddr := @block_addr minheap _ hbelow
    have hlow := hf.minheap_le_cell hr hreach hmin
    have hcell := cell_lt_fin hfill.2.1
    have h1 := start_le_cell minheap r
    have h2 := le_start minheap r
    have h3 := hfill.2.1
    have h4 := hfill.2.2
    rw [if_pos (by omega)] at haddr
    rw [Extent.fin, haddr, block_len hreach hbelow hpos.1 hpos.2]
    exact ⟨cell_dvd minheap r, by omega, hlow, r, hr, hreach.1, by omega, h4, rfl⟩
  refine ⟨hmem ▸ hthreaded, fun b hb => (hblock b hb).1, hasc, ?_, fun b hb => (hblock b hb).2.1,
    hmem ▸ hsize, fun b hb => ?_⟩
  · refine (List.Pairwise.and_mem.mp hasc).imp fun {b c} hpair x hx => ?_
    obtain ⟨hb, hc, hbc⟩ := hpair
    obtain ⟨-, -, -, r, hr, -, h1, h2, hbr⟩ := hblock b hb
    obtain ⟨-, -, -, s, hs, -, h3, h4, hcs⟩ := hblock c hc
    have hne : r ≠ s := by
      rintro rfl
      rw [hbr, hcs] at hbc
      exact Nat.lt_irrefl _ hbc
    have hxr : r.extent.Has x := ⟨le_trans h1 hx.1.1, lt_of_lt_of_le hx.1.2 h2⟩
    have hxs : s.extent.Has x := ⟨le_trans h3 hx.2.1, lt_of_lt_of_le hx.2.2 h4⟩
    exact hm.disjoint hr hs hne x ⟨hxr, hxs⟩
  · obtain ⟨-, -, hlow, r, hr, husable, h1, h2, -⟩ := hblock b hb
    exact ⟨hh ▸ hlow, r, hr, husable, h1, h2⟩

end Fits

/-! ### And only those -/

section BuildsRight

variable {m : Mem} (hm : MapOk mmap) (hmin : 0 < minheap ∧ minheap < addrSpace)

include hm hmin

/-- A region with the null pointer for its first multiple of 8 comes before the others. -/
theorem blocksAdded_null (hr : r ∈ mmap) (hreach : r.Reaches minheap) (h0 : r.cell minheap = 0) :
    ∃ cs, blocksAdded minheap mmap = r.block minheap :: cs := by
  obtain ⟨pre, post, hsplit⟩ := List.append_of_mem hr
  have h1 := start_le_cell minheap r
  have h2 := le_start minheap r
  have h3 := hreach.2
  have hnone : blocksAdded minheap pre = [] := by
    refine List.eq_nil_iff_forall_not_mem.mpr fun e he => ?_
    obtain ⟨s, hs, hsr, rfl⟩ := mem_blocksAdded.mp he
    obtain ⟨p, q, rfl⟩ := List.append_of_mem hs
    have hsplit' : mmap = p ++ s :: (q ++ r :: post) := by
      rw [hsplit, List.append_assoc, List.cons_append]
    obtain ⟨hle, ha⟩ := hm.later (s := r) hsplit' (by simp)
    have h4 := fin_le_base hle ha (by omega)
    have h5 := hsr.2
    omega
  rw [hsplit, blocksAdded_split hreach, hnone]
  exact ⟨_, rfl⟩

theorem BuildsRight.fits (hlist : 8 ≤ h.memlist ∧ h.memlist + 8 ≤ minheap)
    (hclear : MemlistClear h.memlist minheap mmap) (hh : h.minheap = minheap)
    (hmem : h.mem = builtBy m h.memlist minheap mmap) (htop : h.maxheap = topOf minheap mmap)
    (hb : BuildsRight mmap h) : Fits minheap mmap := by
  obtain ⟨⟨bs, hbs⟩, hmax⟩ := hb
  rw [htop, topOfMap_iff hmin.2] at hmax
  have hhd : 8 ≤ h.memlist ∧ h.memlist + 8 ≤ addrSpace := ⟨hlist.1, by omega⟩
  have htotal := total_blocksAdded_lt hm hmin hmax.2
  have hsize := builtBy_size (m := m) hm hhd hclear
  rw [← hmem, hbs.size, Nat.mod_eq_of_lt htotal] at hsize
  have hbs0 : ∀ b ∈ bs, b.addr ≠ 0 := by
    intro b hb
    have := (hbs.inside b hb).1
    omega
  have hnull : ∀ r ∈ mmap, r.Reaches minheap → r.cell minheap ≠ 0 := by
    intro r hr hreach h0
    -- the list is lost although the total counts the block
    obtain ⟨cs, hfirst⟩ := blocksAdded_null hm hmin hr hreach h0
    have haddr := @block_addr minheap _ (hm.below r hr)
    rw [h0, ite_self] at haddr
    have hlost := hmem ▸ builtBy_lost (m := m) hm hhd hclear hfirst haddr
    obtain rfl := hlost.unique hbs.threaded (by simp) hbs0
    have hlen := block_len hreach (hm.below r hr) hmin.1 hmin.2
    have h1 := start_le_cell minheap r
    have h2 := hreach.2
    rw [hfirst, total_nil, total_cons, hlen] at hsize
    omega
  obtain ⟨hthreaded, -⟩ := builtBy_list (m := m) hm hhd hclear hnull
  rw [← hmem] at hthreaded
  obtain rfl := hthreaded.unique hbs.threaded (fun b hb => settle_ne_zero hb) hbs0
  refine ⟨hmax.1, hmax.2, fun pre r post hsplit hr => ?_⟩
  have hmemr : r ∈ mmap := by simp [hsplit]
  have hbelow := hmax.2 r hmemr hr.1
  obtain ⟨pre', s, post', hsplit', hs, h1, h2, h3⟩ := last_of_cell hsplit hr
  have hmems : s ∈ mmap := by simp [hsplit']
  have hsaddr := @block_addr minheap _ (hm.below s hmems)
  have hslen := block_len h1 (hm.below s hmems) hmin.1 hmin.2
  by_cases hlt : r.cell minheap < addrSpace
  · have hin := mem_settle_of_last hm hsplit' h1 (hnull s hmems h1) (h2 ▸ hlt)
      fun t ht h4 => h2 ▸ h3 t ht h4
    have hpos := hbs.positive _ hin
    rw [if_pos (h2 ▸ hlt)] at hsaddr
    rw [hslen] at hpos
    have hlong : 8 ≤ s.fin - s.start minheap := by omega
    rcases hs with rfl | hs
    · obtain ⟨hlow, q, hq, -, h5, h6⟩ := hbs.inside _ hin
      rw [Extent.fin, hsaddr, hslen] at h6
      rw [hsaddr] at h5 hlow
      have hcell := cell_lt_fin hlong
      have h7 := start_le_cell minheap s
      have h8 := le_start minheap s
      have hqs : q = s := by
        by_contra hne
        refine hm.disjoint hq hmems hne (s.cell minheap) ⟨⟨h5, ?_⟩, ?_, hcell⟩
        · exact lt_of_lt_of_le (by omega) h6
        · exact le_trans h8 h7
      exact .inl ⟨by omega, hlong, hqs ▸ h6⟩
    · refine .inr ⟨?_, .inr ⟨s, hs, h1, h2⟩⟩
      by_contra hge
      obtain ⟨hle, ha⟩ := hm.later hsplit hs
      have := cell_lt_cell hle ha (not_lt.mp hge) hlong
      omega
  · refine .inr ⟨?_, .inl (not_lt.mp hlt)⟩
    have hcell := @cell_lt_fin minheap r
    omega

end BuildsRight

/-- **The first free list**: it is right if the map fits, and, where no region puts a block on
`memlist`, only then. -/
theorem meminit_builds_iff {bootsign flags : Nat} (hm : MapOk mmap)
    (hsign : bootsign = MULTIBOOT_SIGNATURE) (hflags : flags &&& MULTIBOOT_BOOTINFO_MMAP ≠ 0)
    (hmin : minheap < addrSpace) (hlist : 8 ≤ h.memlist ∧ h.memlist + 8 ≤ minheap) :
    ∃ h', meminit bootsign flags mmap minheap h = some h' ∧
      (Fits minheap mmap → BuildsRight mmap h') ∧
      (MemlistClear h.memlist minheap mmap → BuildsRight mmap h' → Fits minheap mmap) := by
  refine ⟨_, meminit_eq hsign hflags hm hmin h, fun hfits => ?_, fun hclear hb => ?_⟩
  · exact ⟨⟨_, hfits.freeOfMap hm hlist hmin rfl rfl⟩,
      (topOfMap_iff hmin).mpr ⟨hfits.reaches, hfits.below⟩⟩
  · refine BuildsRight.fits (m := h.mem) hm ⟨?_, hmin⟩ ?_ ?_ ?_ ?_ ?_ hb
    · omega
    · exact hlist
    · exact hclear
    · rfl
    · rfl
    · rfl

/-- The memory of a PC: 639 KiB below the ROMs, and 127 MiB above 1 MiB. -/
def pcMap : List Mbmregion := [⟨0, 0x9FC00, 1⟩, ⟨0x9FC00, 0x400, 2⟩, ⟨0x100000, 0x7F00000, 1⟩]

theorem mapOk_pcMap : MapOk pcMap := by
  refine ⟨by decide, ?_, by decide⟩
  have happ : ∀ r s : Mbmregion, r.fin ≤ s.base_addr → Extent.Apart r.extent s.extent :=
    fun r s hle x ⟨h1, h2⟩ => absurd (lt_of_lt_of_le h1.2 hle) (not_lt.mpr h2.1)
  refine List.Pairwise.imp (fun {r s} => happ r s) ?_
  decide

/-- A kernel of 128 KiB. -/
def pcHeap : Heap := { halfHeap with memlist := 0x110000 }

theorem fits_pcMap : Fits 0x120000 pcMap := by
  refine ⟨by decide, by decide, fun pre r post hsplit hr => ?_⟩
  have hmem : r ∈ pcMap := by simp [hsplit]
  simp only [pcMap, List.mem_cons, List.not_mem_nil, or_false] at hmem
  rcases hmem with rfl | rfl | rfl
  · exact absurd hr (by decide)
  · exact absurd hr (by decide)
  · exact .inl ⟨by decide, by decide, by decide⟩

theorem meminit_builds_iff_pcMap : ∃ h',
    meminit MULTIBOOT_SIGNATURE MULTIBOOT_BOOTINFO_MMAP pcMap 0x120000 pcHeap = some h' ∧
      BuildsRight pcMap h' := by
  have hflags : MULTIBOOT_BOOTINFO_MMAP &&& MULTIBOOT_BOOTINFO_MMAP ≠ 0 := by decide
  have hmin : 0x120000 < addrSpace := by decide
  have hlist : 8 ≤ pcHeap.memlist ∧ pcHeap.memlist + 8 ≤ 0x120000 := by decide
  obtain ⟨h', he, hb, -⟩ := meminit_builds_iff mapOk_pcMap rfl hflags hmin hlist
  exact ⟨h', he, hb fits_pcMap⟩

/-- A region that ends where the kernel does: `meminit` gives the kernel's memory away. -/
theorem meminit_gives_image : ∃ h',
    meminit MULTIBOOT_SIGNATURE MULTIBOOT_BOOTINFO_MMAP
        [⟨0x100000, 0x20000, 1⟩, ⟨0x200000, 0x7E00000, 1⟩] 0x120000 pcHeap = some h' ∧
      mnext h'.mem h'.memlist = 0x100000 ∧
      ¬BuildsRight [⟨0x100000, 0x20000, 1⟩, ⟨0x200000, 0x7E00000, 1⟩] h' := by
  have hfirst : (meminit MULTIBOOT_SIGNATURE MULTIBOOT_BOOTINFO_MMAP
      [⟨0x100000, 0x20000, 1⟩, ⟨0x200000, 0x7E00000, 1⟩] 0x120000 pcHeap).map
        (fun h => mnext h.mem h.memlist) = some 0x100000 := by decide +kernel
  obtain ⟨h', he, hnext⟩ := Option.map_eq_some_iff.mp hfirst
  have hh : h'.minheap = 0x120000 := by
    rw [← Option.some.inj he]
  refine ⟨h', he, hnext, ?_⟩
  rintro ⟨⟨bs, hbs⟩, -⟩
  rcases hbs.first with h0 | hlow
  · omega
  · omega

end Xinu
