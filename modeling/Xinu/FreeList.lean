/-
# The free list

`memlist` heads a list of free blocks that is threaded through the blocks themselves.  `Threaded`
says that the list in memory consists of the extents `bs`, and `FreeList` that it is also in the
form every routine of the allocator keeps: ascending addresses, multiples of 8, nothing
overlapping or touching, and the total recorded in `memlist`.

The search loops then do what `firstFit` and the split of the list at an address do, and what the
routines write amounts to `carve` and `releaseBetween`.
-/
import Xinu.Memory
import Xinu.Lib.Chains
import Xinu.Lib.Extents

namespace Xinu

open ByteMemory Chains LinkedPath Extents

/-! ## 1. Representation

`bs` is the list as data, and what the routines are said to do is said about `bs`. -/

/-- The list that `hd` heads consists of the blocks `bs`. -/
structure Threaded (m : Mem) (hd : Nat) (bs : List Extent) : Prop where
  chain : Walk (mnext m) hd (hd :: bs.map Extent.addr) 0
  lens : ∀ b ∈ bs, mlength m b.addr = b.len

/-- The head and the blocks stand one above the other in the address space. -/
structure Laid (hd : Nat) (bs : List Extent) : Prop where
  head : hd + 8 ≤ addrSpace
  above : ∀ b ∈ bs, hd + 8 ≤ b.addr
  sized : ∀ b ∈ bs, 8 ≤ b.len ∧ b.fin ≤ addrSpace
  order : bs.Pairwise fun b c => b.fin ≤ c.addr

/-- **The free list** of the heap. -/
structure FreeList (h : Heap) (bs : List Extent) : Prop where
  threaded : Threaded h.mem h.memlist bs
  canonical : Canonical 8 bs
  within : Within h.minheap h.maxheap bs
  size : mlength h.mem h.memlist = total bs
  header : h.memlist + 8 ≤ h.minheap
  heap : h.minheap ≤ h.maxheap
  space : h.maxheap < addrSpace

variable {m m' : Mem} {h h' : Heap} {hd n x : Nat} {b c : Extent} {bs pre post zs : List Extent}

/-- The list element the last block of the front part stands in for. -/
abbrev lastOf (hd : Nat) (pre : List Extent) : Nat := (pre.map Extent.addr).getLastD hd

theorem lastOf_mem (hd : Nat) (pre : List Extent) : lastOf hd pre ∈ hd :: pre.map Extent.addr :=
  getLastD_mem _ _

theorem lastOf_cons (hd : Nat) (p : Extent) (pre : List Extent) :
    lastOf hd (p :: pre) = lastOf p.addr pre := List.getLastD_cons ..

@[simp] theorem lastOf_concat (hd : Nat) (pre : List Extent) (p : Extent) :
    lastOf hd (pre ++ [p]) = p.addr := by
  simp [lastOf]

/-! ## 2. Where the elements stand

The head counts as an element here, and stands below all of the blocks.  An element of the list is
then found below those behind it, which is what the searches and the writes need. -/

theorem Laid.sublist {bs' : List Extent} (h : Laid hd bs) (hs : bs'.Sublist bs) : Laid hd bs' :=
  ⟨h.head, fun b hb => h.above b (hs.subset hb), fun b hb => h.sized b (hs.subset hb),
    h.order.sublist hs⟩

theorem Laid.left (h : Laid hd (pre ++ post)) : Laid hd pre :=
  h.sublist (List.sublist_append_left pre post)

/-- A block less. -/
theorem Laid.without (h : Laid hd (pre ++ b :: post)) : Laid hd (pre ++ post) :=
  h.sublist (List.Sublist.append_left (List.sublist_cons_self b post) pre)

/-- A block stands below those behind it. -/
theorem Laid.below (h : Laid hd (pre ++ post)) (hb : b ∈ pre) (hc : c ∈ post) : b.fin ≤ c.addr :=
  (List.pairwise_append.mp h.order).2.2 b hb c hc

/-- An element of the front part stands below every block behind it. -/
theorem Laid.front_below (h : Laid hd (pre ++ post)) (hx : x ∈ hd :: pre.map Extent.addr)
    (hc : c ∈ post) : x + 8 ≤ c.addr := by
  rcases List.mem_cons.mp hx with rfl | hx
  · exact h.above c (List.mem_append_right _ hc)
  · obtain ⟨b, hb, rfl⟩ := List.mem_map.mp hx
    have hlen := (h.sized b (List.mem_append_left _ hb)).1
    have hbc := h.below hb hc
    rw [Extent.fin] at hbc
    omega

theorem Laid.elem_le (h : Laid hd bs) (hx : x ∈ hd :: bs.map Extent.addr) : x + 8 ≤ addrSpace := by
  rcases List.mem_cons.mp hx with rfl | hx
  · exact h.head
  · obtain ⟨b, hb, rfl⟩ := List.mem_map.mp hx
    obtain ⟨h1, h2⟩ := h.sized b hb
    rw [Extent.fin] at h2
    omega

/-- Every element of the front part but the last stands below the last. -/
theorem Laid.below_last (h : Laid hd pre) (hx : x ∈ hd :: pre.map Extent.addr)
    (hne : x ≠ lastOf hd pre) : x + 8 ≤ lastOf hd pre := by
  rcases List.eq_nil_or_concat' pre with rfl | ⟨pre, p, rfl⟩
  · exact absurd (by simpa using hx) hne
  · rw [lastOf_concat] at hne ⊢
    rw [List.map_append, ← List.cons_append] at hx
    rcases List.mem_append.mp hx with hx | hx
    · exact h.front_below hx (by simp)
    · exact absurd (by simpa using hx) hne

theorem Laid.nodup (h : Laid hd bs) : (hd :: bs.map Extent.addr).Nodup := by
  refine List.nodup_cons.mpr ⟨fun hmem => ?_, ?_⟩
  · obtain ⟨b, hb, he⟩ := List.mem_map.mp hmem
    have := h.above b hb
    omega
  · rw [List.Nodup, List.pairwise_map]
    refine (List.Pairwise.and_mem.mp h.order).imp fun {b c} hbc => ?_
    obtain ⟨hb, -, hbc⟩ := hbc
    have hlen := (h.sized b hb).1
    rw [Extent.fin] at hbc
    omega

theorem FreeList.laid {hp : Heap} (h : FreeList hp bs) : Laid hp.memlist bs := by
  have hspace := h.space
  have hheap := h.heap
  have hhead := h.header
  constructor
  · omega
  · intro b hb
    have := (h.within b hb).1
    omega
  · intro b hb
    obtain ⟨hdvd, hpos⟩ := h.canonical.sized b hb
    have := (h.within b hb).2
    exact ⟨Nat.le_of_dvd hpos hdvd, by omega⟩
  · exact h.canonical.gaps.imp fun hbc => Nat.le_of_lt hbc

/-! ## 3. Writing

Two rules for memory that is written: bytes that belong to no element do not matter, and a list
may be taken apart at an element and put together again. -/

/-- The byte belongs to no block and not to the head. -/
def Untouched (hd : Nat) (bs : List Extent) (x : Nat) : Prop :=
  (x < hd ∨ hd + 8 ≤ x) ∧ ∀ b ∈ bs, ¬b.Has x

/-- **Frame rule.**  The list depends on the head and the blocks only. -/
theorem Threaded.congr (h : Threaded m hd bs) (hl : Laid hd bs)
    (hm : ∀ y, ¬Untouched hd bs y → m' y = m y) :
      Threaded m' hd bs ∧ mlength m' hd = mlength m hd := by
  have hhead := hl.head
  have hin : ∀ b ∈ bs, ∀ y, b.addr ≤ y → y < b.addr + 8 → m' y = m y := by
    intro b hb y h1 h2
    refine hm y fun hu => hu.2 b hb ⟨h1, ?_⟩
    have := (hl.sized b hb).1
    rw [Extent.fin]
    omega
  have hfit : ∀ b ∈ bs, b.addr + 8 ≤ addrSpace := fun b hb =>
    hl.elem_le (List.mem_cons_of_mem _ (List.mem_map_of_mem hb))
  have hhd : ∀ y, hd ≤ y → y < hd + 8 → m' y = m y := fun y h1 h2 =>
    hm y fun hu => by have := hu.1; omega
  refine ⟨⟨h.chain.congr fun x hx => ?_, fun b hb => ?_⟩, ?_⟩
  · rcases List.mem_cons.mp hx with rfl | hx
    · exact load_congr (by omega) fun y h1 h2 => hhd y h1 (by omega)
    · obtain ⟨b, hb, rfl⟩ := List.mem_map.mp hx
      have := hfit b hb
      exact load_congr (by omega) fun y h1 h2 => hin b hb y h1 (by omega)
  · rw [← h.lens b hb]
    have := hfit b hb
    exact load_congr (by omega) fun y h1 h2 => hin b hb y (by omega) (by omega)
  · exact load_congr (by omega) fun y h1 h2 => hhd y (by omega) (by omega)

/-- **Splice rule** for blocks: what follows the front part is replaced. -/
theorem Threaded.splice (h : Threaded m hd (pre ++ post)) (hl : Laid hd (pre ++ post))
    (hnext : ∀ x ∈ hd :: pre.map Extent.addr, x ≠ lastOf hd pre → mnext m' x = mnext m x)
    (hlen : ∀ b ∈ pre, mlength m' b.addr = mlength m b.addr)
    (hrest : Walk (mnext m') (mnext m' (lastOf hd pre)) (zs.map Extent.addr) 0)
    (hz : ∀ b ∈ zs, mlength m' b.addr = b.len) : Threaded m' hd (pre ++ zs) := by
  constructor
  · have hchain := h.chain
    rw [List.map_append, ← List.cons_append] at hchain ⊢
    exact hchain.splice hl.left.nodup hnext hrest
  · intro b hb
    rcases List.mem_append.mp hb with hb | hb
    · rw [hlen b hb, h.lens b (List.mem_append_left _ hb)]
    · exact hz b hb

/-- What follows the front part. -/
theorem Threaded.rest (h : Threaded m hd (pre ++ post)) :
    Walk (mnext m) (mnext m (lastOf hd pre)) (post.map Extent.addr) 0 := by
  have hchain := h.chain
  rw [List.map_append, ← List.cons_append] at hchain
  exact hchain.rest

/-- A list in memory has one reading. -/
theorem Threaded.unique {bs' : List Extent} (h : Threaded m hd bs) (h' : Threaded m hd bs')
    (h0 : ∀ b ∈ bs, b.addr ≠ 0) (h0' : ∀ b ∈ bs', b.addr ≠ 0) : bs = bs' := by
  have hread : ∀ {cs : List Extent}, Threaded m hd cs →
      cs = (cs.map Extent.addr).map fun a => ⟨a, mlength m a⟩ := by
    intro cs hc
    rw [List.map_map]
    refine (List.map_id cs).symm.trans (List.map_congr_left fun c hmem => ?_)
    simp only [id, Function.comp, hc.lens c hmem]
  have hnull : ∀ {cs : List Extent}, (∀ c ∈ cs, c.addr ≠ 0) → 0 ∉ cs.map Extent.addr := by
    intro cs hc hmem
    obtain ⟨c, hcs, he⟩ := List.mem_map.mp hmem
    exact hc c hcs he
  rw [hread h, hread h', h.chain.2.unique h'.chain.2 (hnull h0) (hnull h0')]

/-! ## 4. The searches

The loops of `getmem` and `freemem` walk along the links with two pointers, and end at the place
where the lists of `Extents` are split. -/

/-- **The search of `getmem`** is first fit. -/
theorem getmemSearch_some {fuel prev a : Nat} (hchain : Walk (mnext m) a (bs.map Extent.addr) 0)
    (hlens : ∀ b ∈ bs, mlength m b.addr = b.len) (hpos : ∀ b ∈ bs, b.addr ≠ 0)
    (hfuel : bs.length < fuel) (hfit : firstFit n bs = some (pre, b, post)) :
    getmemSearch m n fuel prev a = some (lastOf prev pre, b.addr) := by
  induction bs generalizing fuel prev a pre with
  | nil => simp [firstFit] at hfit
  | cons c bs ih =>
    obtain ⟨fuel, rfl⟩ := Nat.exists_eq_succ_of_ne_zero (Nat.ne_of_gt (Nat.zero_lt_of_lt hfuel))
    obtain ⟨rfl, hchain⟩ := hchain
    rw [getmemSearch, if_neg (hpos c (by simp)), hlens c (by simp)]
    by_cases hc : n ≤ c.len
    · rw [firstFit, if_pos hc] at hfit
      obtain ⟨rfl, rfl, -⟩ : [] = pre ∧ c = b ∧ bs = post := by simpa using hfit
      rw [if_pos (by omega)]
      rfl
    · rw [firstFit, if_neg hc] at hfit
      obtain ⟨⟨pre', b', post'⟩, hfit', he⟩ := Option.map_eq_some_iff.mp hfit
      obtain ⟨rfl, rfl, rfl⟩ : c :: pre' = pre ∧ b' = b ∧ post' = post := by simpa using he
      rw [if_neg (by omega), ih hchain (fun d hd => hlens d (by simp [hd]))
        (fun d hd => hpos d (by simp [hd])) (by simpa using hfuel) hfit', lastOf_cons]

theorem getmemSearch_none {fuel prev a : Nat} (hchain : Walk (mnext m) a (bs.map Extent.addr) 0)
    (hlens : ∀ b ∈ bs, mlength m b.addr = b.len) (hpos : ∀ b ∈ bs, b.addr ≠ 0)
    (hfuel : bs.length < fuel) (hfit : firstFit n bs = none) :
    getmemSearch m n fuel prev a = some (lastOf prev bs, 0) := by
  induction bs generalizing fuel prev a with
  | nil =>
    obtain ⟨fuel, rfl⟩ := Nat.exists_eq_succ_of_ne_zero (Nat.ne_of_gt (Nat.zero_lt_of_lt hfuel))
    exact if_pos hchain
  | cons c bs ih =>
    obtain ⟨fuel, rfl⟩ := Nat.exists_eq_succ_of_ne_zero (Nat.ne_of_gt (Nat.zero_lt_of_lt hfuel))
    obtain ⟨rfl, hchain⟩ := hchain
    have hall := firstFit_none.mp hfit
    have hc := hall c (by simp)
    rw [getmemSearch, if_neg (hpos c (by simp)), hlens c (by simp), if_neg (by omega),
      ih hchain (fun d hd => hlens d (by simp [hd])) (fun d hd => hpos d (by simp [hd]))
        (by simpa using hfuel) (firstFit_none.mpr fun d hd => hall d (by simp [hd])), lastOf_cons]

/-- **The search of `freemem`** splits the list at the address. -/
theorem freememSearch_eq {fuel prev a blk : Nat}
    (hchain : Walk (mnext m) a (bs.map Extent.addr) 0) (hpos : ∀ b ∈ bs, b.addr ≠ 0)
    (hfuel : bs.length < fuel) :
    freememSearch m blk fuel prev a =
      some (lastOf prev (bs.takeWhile fun b => b.addr < blk),
        ((bs.dropWhile fun b => b.addr < blk).map Extent.addr).headD 0) := by
  induction bs generalizing fuel prev a with
  | nil =>
    obtain ⟨fuel, rfl⟩ := Nat.exists_eq_succ_of_ne_zero (Nat.ne_of_gt (Nat.zero_lt_of_lt hfuel))
    obtain rfl : a = 0 := hchain
    rw [freememSearch, if_neg (by simp)]
    rfl
  | cons c bs ih =>
    obtain ⟨fuel, rfl⟩ := Nat.exists_eq_succ_of_ne_zero (Nat.ne_of_gt (Nat.zero_lt_of_lt hfuel))
    obtain ⟨rfl, hchain⟩ := hchain
    rw [freememSearch]
    by_cases hc : c.addr < blk
    · rw [if_pos ⟨hpos c (by simp), hc⟩,
        ih hchain (fun d hd => hpos d (by simp [hd])) (by simpa using hfuel),
        List.takeWhile_cons_of_pos (by simpa using hc),
        List.dropWhile_cons_of_pos (by simpa using hc), lastOf_cons]
    · rw [if_neg (fun hh => hc hh.2)]
      simp [hc, lastOf]

theorem FreeList.congr {hp : Heap} (h : FreeList hp bs)
    (hm : ∀ y, ¬Untouched hp.memlist bs y → m' y = hp.mem y) :
      FreeList { hp with mem := m' } bs := by
  obtain ⟨h1, h2⟩ := h.threaded.congr h.laid hm
  exact ⟨h1, h.canonical, h.within, h2.trans h.size, h.header, h.heap, h.space⟩

/-- The list is shorter than any walk that is given up. -/
theorem FreeList.length_lt {hp : Heap} (h : FreeList hp bs) : bs.length < walkBound := by
  have hlen : bs.length ≤ total bs := by
    have hpos := fun b hb => (h.canonical.sized b hb).2
    clear h
    induction bs with
    | nil => simp
    | cons b bs ih =>
      have h1 := ih fun c hc => hpos c (by simp [hc])
      have h2 := hpos b (by simp)
      rw [List.length_cons, total_cons]
      omega
  have htotal := h.canonical.total_le h.within h.heap
  have hspace := h.space
  rw [walkBound]
  omega

theorem FreeList.addr_ne_zero {hp : Heap} (h : FreeList hp bs) {b : Extent} (hb : b ∈ bs) :
    b.addr ≠ 0 := by
  have := h.laid.above b hb
  omega

/-! ## 5. Sizes -/

theorem roundmb_dvd (x : Nat) : 8 ∣ roundmb x := Dvd.intro_left _ rfl

/-! ## 6. Edits

Every routine writes the link of one element, the total, and words of the blocks it is about. -/

/-- Nothing else was written than the link at `prev`, the total, and bytes in `[lo, hi)`. -/
def EditOnly (m m' : Mem) (hd prev lo hi : Nat) : Prop :=
  ∀ x, ¬(prev ≤ x ∧ x < prev + 4) → ¬(hd + 4 ≤ x ∧ x < hd + 8) → ¬(lo ≤ x ∧ x < hi) → m' x = m x

variable {prev lo hi a : Nat}

theorem EditOnly.trans {m'' : Mem} (h₁ : EditOnly m m' hd prev lo hi)
    (h₂ : EditOnly m' m'' hd prev lo hi) : EditOnly m m'' hd prev lo hi :=
  fun x hp hh hr => (h₂ x hp hh hr).trans (h₁ x hp hh hr)

theorem EditOnly.mono {hi' : Nat} (he : EditOnly m m' hd prev lo hi) (hle : hi ≤ hi') :
    EditOnly m m' hd prev lo hi' := fun x hp hh hr => he x hp hh (by omega)

theorem EditOnly.mnext_eq (he : EditOnly m m' hd prev lo hi) (hx : x + 8 ≤ addrSpace)
    (hp : x + 8 ≤ prev ∨ prev + 8 ≤ x) (hh : x = hd ∨ hd + 8 ≤ x) (hr : x + 8 ≤ lo ∨ hi ≤ x) :
    mnext m' x = mnext m x :=
  load_congr (by omega) fun y h1 h2 => he y (by omega) (by omega) (by omega)

theorem EditOnly.mlength_eq (he : EditOnly m m' hd prev lo hi) (hx : x + 8 ≤ addrSpace)
    (hp : x = prev ∨ x + 8 ≤ prev ∨ prev + 8 ≤ x) (hh : hd + 8 ≤ x) (hr : x + 8 ≤ lo ∨ hi ≤ x) :
    mlength m' x = mlength m x :=
  load_congr (by omega) fun y h1 h2 => he y (by omega) (by omega) (by omega)

theorem Laid.front_hd (h : Laid hd pre) (hx : x ∈ hd :: pre.map Extent.addr) :
    x = hd ∨ hd + 8 ≤ x := by
  rcases List.mem_cons.mp hx with rfl | hx
  · exact .inl rfl
  · obtain ⟨b, hb, rfl⟩ := List.mem_map.mp hx
    exact .inr (h.above b hb)

/-- **Edit rule.**  What stood between the front part and `post` is replaced by the blocks
`mid'`. -/
theorem Threaded.edit (mid mid' : List Extent) (h : Threaded m hd (pre ++ (mid ++ post)))
    (hl : Laid hd (pre ++ (mid ++ post))) (he : EditOnly m m' hd (lastOf hd pre) lo hi)
    (hlo : ∀ x ∈ hd :: pre.map Extent.addr, x + 8 ≤ lo) (hhi : ∀ c ∈ post, hi ≤ c.addr)
    (hpost : Walk (mnext m) a (post.map Extent.addr) 0)
    (hmid : Walk (mnext m') (mnext m' (lastOf hd pre)) (mid'.map Extent.addr) a)
    (hlens : ∀ c ∈ mid', mlength m' c.addr = c.len) : Threaded m' hd (pre ++ (mid' ++ post)) := by
  have hfront : ∀ x ∈ hd :: pre.map Extent.addr, x + 8 ≤ addrSpace := fun x hx =>
    hl.elem_le (by simp only [List.map_append, List.mem_cons, List.mem_append] at hx ⊢; tauto)
  have hback : ∀ c ∈ post, lastOf hd pre + 8 ≤ c.addr ∧ c.addr + 8 ≤ addrSpace ∧
    hd + 8 ≤ c.addr := by
    intro c hc
    refine ⟨hl.front_below (lastOf_mem hd pre) (by simp [hc]), hl.elem_le ?_,
      hl.above c (by simp [hc])⟩
    exact List.mem_cons_of_mem _ (List.mem_map_of_mem (by simp [hc]))
  refine h.splice hl (fun x hx hne => ?_) (fun c hc => ?_) ?_ fun c hc => ?_
  · exact he.mnext_eq (hfront x hx) (.inl (hl.left.below_last hx hne)) (hl.left.front_hd hx)
      (.inl (hlo x hx))
  · have hx : c.addr ∈ hd :: pre.map Extent.addr := by simp [List.mem_map_of_mem hc]
    refine he.mlength_eq (hfront _ hx) ?_ (hl.above c (by simp [hc])) (.inl (hlo _ hx))
    by_cases hne : c.addr = lastOf hd pre
    · exact .inl hne
    · exact .inr (.inl (hl.left.below_last hx hne))
  · rw [List.map_append, walk_append]
    refine ⟨a, hmid, hpost.congr fun x hx => ?_⟩
    obtain ⟨c, hc, rfl⟩ := List.mem_map.mp hx
    obtain ⟨h1, h2, h3⟩ := hback c hc
    exact he.mnext_eq h2 (.inr h1) (.inr h3) (.inr (hhi c hc))
  · rcases List.mem_append.mp hc with hc | hc
    · exact hlens c hc
    · obtain ⟨h1, h2, h3⟩ := hback c hc
      rw [he.mlength_eq h2 (.inr (.inr h1)) h3 (.inr (hhi c hc)), h.lens c (by simp [hc])]

/-- The link that is written belongs to the head or to a block. -/
theorem EditOnly.frame (he : EditOnly m m' hd (lastOf hd pre) lo hi) (hl : Laid hd (pre ++ post))
    (hx : Untouched hd (pre ++ post) x) (hr : ¬(lo ≤ x ∧ x < hi)) : m' x = m x := by
  refine he x (fun hp => ?_) (by have := hx.1; omega) hr
  rcases List.eq_nil_or_concat' pre with rfl | ⟨pre, p, rfl⟩
  · have h1 := hx.1
    simp only [lastOf, List.map_nil, List.getLastD_nil] at hp
    omega
  · rw [lastOf_concat] at hp
    have h1 := hx.2 p (by simp)
    have h2 := (hl.sized p (by simp)).1
    rw [Extent.Has, Extent.fin] at h1
    omega

/-! ## 7. Taking a block

A block that fits exactly is unlinked, and any other one is shortened at its low end. -/

/-- A block was taken out of the list in memory. -/
structure Taken (m m' : Mem) (hd n : Nat) (b : Extent) (pre post : List Extent) : Prop where
  threaded : Threaded m' hd (pre ++ (carve n b ++ post))
  size : n ≤ mlength m hd → mlength m' hd = mlength m hd - n
  recorded : mlength m' b.addr = n
  frame : ∀ x, Untouched hd (pre ++ b :: post) x → m' x = m x

theorem Laid.post_above (h : Laid hd (pre ++ b :: post)) (hc : c ∈ post) : b.fin ≤ c.addr := by
  rw [← List.singleton_append, ← List.append_assoc] at h
  exact h.below (by simp) hc

/-- The element before a block, and where both stand. -/
theorem Laid.at_block (h : Laid hd (pre ++ b :: post)) :
    lastOf hd pre + 8 ≤ b.addr ∧ (lastOf hd pre = hd ∨ hd + 8 ≤ lastOf hd pre) ∧
      hd + 8 ≤ b.addr ∧ 8 ≤ b.len ∧ b.addr + b.len ≤ addrSpace := by
  obtain ⟨h1, h2⟩ := h.sized b (by simp)
  exact ⟨h.front_below (lastOf_mem hd pre) (by simp), h.left.front_hd (lastOf_mem hd pre),
    h.above b (by simp), h1, h2⟩

theorem mlength_sub (hn : n ≤ mlength m hd) :
    (mlength m hd + addrSpace - n) % addrSpace = mlength m hd - n := by
  have := load_lt m (hd + 4)
  simp only [mlength, addrSpace] at *
  omega

/-- **What `getmem` writes** takes `n` bytes off the low end of the block. -/
theorem Threaded.take (h : Threaded m hd (pre ++ b :: post)) (hl : Laid hd (pre ++ b :: post))
    (hn : 8 ≤ n) (hle : n ≤ b.len) (hrest : n = b.len ∨ n + 8 ≤ b.len) :
    Taken m (getmemTake m hd n (lastOf hd pre) b.addr) hd n b pre post := by
  obtain ⟨hpb, hph, hhb, -, hend⟩ := hl.at_block
  have hhead := hl.head
  have hmb : mlength m b.addr = b.len := h.lens b (by simp)
  obtain ⟨-, hpost⟩ := h.rest
  have hlb := load_lt m b.addr
  have hedit : EditOnly m (getmemTake m hd n (lastOf hd pre) b.addr) hd (lastOf hd pre) b.addr
      b.fin := by
    intro x h1 h2 h3
    rw [Extent.fin] at h3
    rw [getmemTake]
    split_ifs with heq
    · simp (disch := omega) only [store_apply_of_outside]
    · have hmod : (b.addr + n) % addrSpace = b.addr + n := Nat.mod_eq_of_lt (by omega)
      simp (disch := omega) only [hmod, store_apply_of_outside]
  have hlo : ∀ x ∈ hd :: pre.map Extent.addr, x + 8 ≤ b.addr := fun x hx =>
    hl.front_below hx (by simp)
  have hhi : ∀ c ∈ post, b.fin ≤ c.addr := fun c hc => hl.post_above hc
  -- what the words hold afterwards
  have hwords : mlength (getmemTake m hd n (lastOf hd pre) b.addr) hd =
        (mlength m hd + addrSpace - n) % addrSpace ∧
      mlength (getmemTake m hd n (lastOf hd pre) b.addr) b.addr = n ∧
      Walk (mnext (getmemTake m hd n (lastOf hd pre) b.addr))
        (mnext (getmemTake m hd n (lastOf hd pre) b.addr) (lastOf hd pre))
        ((carve n b).map Extent.addr) (mnext m b.addr) ∧
      ∀ c ∈ carve n b, mlength (getmemTake m hd n (lastOf hd pre) b.addr) c.addr = c.len := by
    rw [getmemTake, carve, hmb]
    by_cases heq : b.len = n
    · simp only [if_pos heq]
      refine ⟨?_, ?_, ?_, by simp⟩
      · simp (disch := omega) only [mlength, load_store_of_apart, load_store_same]
      · simp (disch := omega) only [mlength, load_store_same, Nat.mod_eq_of_lt]
      · simp (disch := omega) only [mnext, Walk, List.map_nil, load_store_of_apart, load_store_same,
          Nat.mod_eq_of_lt]
    · have hmod : (b.addr + n) % addrSpace = b.addr + n := Nat.mod_eq_of_lt (by omega)
      simp only [if_neg heq, hmod]
      refine ⟨?_, ?_, ⟨?_, ?_⟩, ?_⟩
      · simp (disch := omega) only [mlength, load_store_of_apart, load_store_same]
      · simp (disch := omega) only [mlength, load_store_same, Nat.mod_eq_of_lt]
      · simp (disch := omega) only [mnext, load_store_of_apart, load_store_same, Nat.mod_eq_of_lt]
      · simp (disch := omega) only [mnext, Walk, List.map_nil, load_store_of_apart, load_store_same,
          Nat.mod_eq_of_lt]
      · intro c hc
        obtain rfl := List.mem_singleton.mp hc
        have hlen : load m (b.addr + 4) = b.len := hmb
        simp (disch := omega) only [mlength, load_store_of_apart, load_store_same]
        rw [hlen, Nat.mod_eq_of_lt (by omega)]
  obtain ⟨hsize, hrec, hwalk, hlens⟩ := hwords
  constructor
  · exact Threaded.edit [b] (carve n b) h hl hedit hlo hhi hpost hwalk hlens
  · intro hbig
    rw [hsize, mlength_sub hbig]
  · exact hrec
  · intro x hx
    exact hedit.frame hl hx fun hb => hx.2 b (by simp) hb

/-! ## 8. Giving a block back

The range is linked in front of the first block above it, or the block below grows by it; and then
the result is merged with the block above if they touch. -/

/-- The blocks with one more between them. -/
theorem Laid.insert {e : Extent} (h : Laid hd (pre ++ post)) (hhd : hd + 8 ≤ e.addr)
    (h8 : 8 ≤ e.len)
    (hend : e.fin ≤ addrSpace) (hpre : ∀ c ∈ pre, c.fin ≤ e.addr)
      (hpost : ∀ c ∈ post, e.fin ≤ c.addr) :
    Laid hd (pre ++ (e :: post)) := by
  obtain ⟨h1, h2, h3⟩ := List.pairwise_append.mp h.order
  constructor
  · exact h.head
  · intro c hc
    rcases List.mem_append.mp hc with hc | hc
    · exact h.above c (by simp [hc])
    rcases List.mem_cons.mp hc with rfl | hc
    · exact hhd
    · exact h.above c (by simp [hc])
  · intro c hc
    rcases List.mem_append.mp hc with hc | hc
    · exact h.sized c (by simp [hc])
    rcases List.mem_cons.mp hc with rfl | hc
    · exact ⟨h8, hend⟩
    · exact h.sized c (by simp [hc])
  · refine List.pairwise_append.mpr ⟨h1, List.pairwise_cons.mpr ⟨hpost, h2⟩, fun c hc d hd => ?_⟩
    rcases List.mem_cons.mp hd with rfl | hd
    · exact hpre c hc
    · exact h3 c hc d hd

/-- **A new block** is linked between the front part and the rest. -/
theorem Threaded.link {blk v : Nat} (h : Threaded m hd (pre ++ post))
    (hl : Laid hd (pre ++ ⟨blk, n⟩ :: post)) (hlt : n < addrSpace)
    (hm' : m' = store (store (store (store m (hd + 4) v) blk (mnext m (lastOf hd pre))) (blk + 4) n)
      (lastOf hd pre) blk) :
    Threaded m' hd (pre ++ ⟨blk, n⟩ :: post) ∧ mlength m' hd = v % addrSpace ∧
      EditOnly m m' hd (lastOf hd pre) blk (blk + n) := by
  obtain ⟨hpb, hph, hhb, h8, hend⟩ := hl.at_block
  simp only at hpb hhb h8 hend
  have hhead := hl.head
  have hlp := load_lt m (lastOf hd pre)
  have hedit : EditOnly m m' hd (lastOf hd pre) blk (blk + n) := by
    intro x h1 h2 h3
    rw [hm']
    simp (disch := omega) only [store_apply_of_outside]
  refine ⟨?_, ?_, hedit⟩
  · refine Threaded.edit [] [⟨blk, n⟩] h hl.without hedit
      (fun x hx => hl.front_below hx (c := ⟨blk, n⟩) (by simp))
        (fun c hc => hl.post_above hc) h.rest
      ⟨?_, ?_⟩ ?_
    · rw [hm']
      simp (disch := omega) only [mnext, load_store_same, Nat.mod_eq_of_lt]
    · rw [hm']
      simp (disch := omega) only [mnext, Walk, List.map_nil, load_store_of_apart, load_store_same,
        Nat.mod_eq_of_lt]
    · intro c hc
      obtain rfl := List.mem_singleton.mp hc
      rw [hm']
      simp (disch := omega) only [mlength, load_store_of_apart, load_store_same, Nat.mod_eq_of_lt]
  · rw [hm']
    simp (disch := omega) only [mlength, load_store_of_apart, load_store_same]

/-- **A block grows** into the range behind it. -/
theorem Threaded.extend {v : Nat} (h : Threaded m hd (pre ++ b :: post))
    (hl : Laid hd (pre ++ b :: post))
    (hlt : b.len + n < addrSpace)
    (hm' : m' = store (store m (hd + 4) v) (b.addr + 4) (b.len + n)) :
    Threaded m' hd (pre ++ ⟨b.addr, b.len + n⟩ :: post) ∧ mlength m' hd = v % addrSpace ∧
      EditOnly m m' hd (lastOf hd pre) b.addr b.fin := by
  obtain ⟨hpb, hph, hhb, h8, hend⟩ := hl.at_block
  have hhead := hl.head
  obtain ⟨hlink, hpost⟩ := h.rest
  have hedit : EditOnly m m' hd (lastOf hd pre) b.addr b.fin := by
    intro x h1 h2 h3
    rw [Extent.fin] at h3
    rw [hm']
    simp (disch := omega) only [store_apply_of_outside]
  refine ⟨?_, ?_, hedit⟩
  · refine Threaded.edit [b] [⟨b.addr, b.len + n⟩] h hl hedit
      (fun x hx => hl.front_below hx (by simp)) (fun c hc => hl.post_above hc) hpost ⟨?_, ?_⟩ ?_
    · rw [hm']
      simp (disch := omega) only [mnext, load_store_of_apart]
      exact hlink
    · rw [hm']
      simp (disch := omega) only [mnext, Walk, List.map_nil, load_store_of_apart]
    · intro c hc
      obtain rfl := List.mem_singleton.mp hc
      rw [hm']
      simp (disch := omega) only [mlength, load_store_same, Nat.mod_eq_of_lt]
  · rw [hm']
    simp (disch := omega) only [mlength, load_store_of_apart, load_store_same]

/-- **Two blocks that touch** become one. -/
theorem Threaded.merge (h : Threaded m hd (pre ++ b :: c :: post))
    (hl : Laid hd (pre ++ b :: c :: post)) (hlt : b.len + c.len < addrSpace)
    (hm' : m' = store (store m (b.addr + 4) (b.len + c.len)) b.addr (mnext m c.addr)) :
    Threaded m' hd (pre ++ ⟨b.addr, b.len + c.len⟩ :: post) ∧ mlength m' hd = mlength m hd ∧
      EditOnly m m' hd (lastOf hd pre) b.addr b.fin := by
  obtain ⟨hpb, hph, hhb, h8, hend⟩ := hl.at_block
  have hhead := hl.head
  obtain ⟨hlink, -, hpost⟩ := h.rest
  have hlc := load_lt m c.addr
  have hedit : EditOnly m m' hd (lastOf hd pre) b.addr b.fin := by
    intro x h1 h2 h3
    rw [Extent.fin] at h3
    rw [hm']
    simp (disch := omega) only [store_apply_of_outside]
  refine ⟨?_, ?_, hedit⟩
  · refine Threaded.edit [b, c] [⟨b.addr, b.len + c.len⟩] h hl hedit
      (fun x hx => hl.front_below hx (by simp)) (fun d hd => hl.post_above (by simp [hd]))
        hpost ⟨?_, ?_⟩ ?_
    · rw [hm']
      simp (disch := omega) only [mnext, load_store_of_apart]
      exact hlink
    · rw [hm']
      simp (disch := omega) only [mnext, Walk, List.map_nil, load_store_same, Nat.mod_eq_of_lt]
    · intro d hd
      obtain rfl := List.mem_singleton.mp hd
      rw [hm']
      simp (disch := omega) only [mlength, load_store_of_apart, load_store_same, Nat.mod_eq_of_lt]
  · rw [hm']
    simp (disch := omega) only [mlength, load_store_of_apart]

/-- The end of `freemem`: the block is merged with the one above it if they touch. -/
theorem Threaded.coalesce {next : Nat} (h : Threaded m hd (pre ++ b :: post))
    (hl : Laid hd (pre ++ b :: post)) (hend : ∀ c ∈ b :: post, c.fin < addrSpace)
    (hnext : next = (post.map Extent.addr).headD 0)
    (hm' : m' = if (b.addr + mlength m b.addr) % addrSpace = next then
        store (store m (b.addr + 4) (mlength m b.addr + mlength m next)) b.addr
          (mnext (store m (b.addr + 4) (mlength m b.addr + mlength m next)) next)
      else m) :
    Threaded m' hd (pre ++ Extents.coalesce b post) ∧ mlength m' hd = mlength m hd ∧
      EditOnly m m' hd (lastOf hd pre) b.addr b.fin := by
  obtain ⟨-, -, hhb, h8, -⟩ := hl.at_block
  have hb := hend b (by simp)
  rw [Extent.fin] at hb
  rw [h.lens b (by simp), Nat.mod_eq_of_lt hb] at hm'
  cases post with
  | nil =>
    have hne : ¬b.addr + b.len = next := by
      rw [hnext]
      simp only [List.map_nil, List.headD_nil]
      omega
    rw [if_neg hne] at hm'
    subst hm'
    exact ⟨h, rfl, fun _ _ _ _ => rfl⟩
  | cons c post =>
    obtain rfl : next = c.addr := hnext
    rw [Extents.coalesce, Extent.fin]
    by_cases htouch : b.addr + b.len = c.addr
    · rw [if_pos htouch] at hm' ⊢
      have hc := hend c (by simp)
      have hc8 := (hl.sized c (by simp)).1
      rw [Extent.fin] at hc
      rw [h.lens c (by simp)] at hm'
      simp (disch := omega) only [mnext, load_store_of_apart] at hm'
      exact h.merge hl (by omega) hm'
    · rw [if_neg htouch] at hm' ⊢
      subst hm'
      exact ⟨h, rfl, fun _ _ _ _ => rfl⟩

/-- A block was given back to the list in memory. -/
structure Given (m m' : Mem) (hd blk n : Nat) (pre post : List Extent) : Prop where
  threaded : Threaded m' hd (releaseBetween blk n pre post)
  size : mlength m hd + n < addrSpace → mlength m' hd = mlength m hd + n
  frame : ∀ x, Untouched hd (pre ++ ⟨blk, n⟩ :: post) x → m' x = m x

/-- The block below does not touch the range. -/
theorem Threaded.give_apart {blk top : Nat} (h : Threaded m hd (pre ++ post))
    (hl : Laid hd (pre ++ ⟨blk, n⟩ :: post))
    (hend : ∀ c ∈ (⟨blk, n⟩ : Extent) :: post, c.fin < addrSpace) (htop : top ≠ blk)
    (hm' : m' = freememLink m hd blk n (lastOf hd pre) ((post.map Extent.addr).headD 0) top) :
    Threaded m' hd (pre ++ Extents.coalesce ⟨blk, n⟩ post) ∧
      mlength m' hd = (mlength m hd + n) % addrSpace ∧
      EditOnly m m' hd (lastOf hd pre) blk (blk + n) := by
  have hblk := hend ⟨blk, n⟩ (by simp)
  simp only [Extent.fin] at hblk
  simp only [freememLink, if_neg htop] at hm'
  rw [h.rest.head] at hm'
  obtain ⟨h1, h2, h3⟩ := h.link hl (show n < addrSpace by omega) rfl (v := mlength m hd + n)
  obtain ⟨h4, h5, h6⟩ := h1.coalesce hl hend h.rest.head.symm hm'
  exact ⟨h4, h5.trans h2, h3.trans h6⟩

/-- The block below ends where the range begins. -/
theorem Threaded.give_touching {p : Extent} {blk : Nat} (h : Threaded m hd (pre ++ p :: post))
    (hl : Laid hd (pre ++ p :: ⟨blk, n⟩ :: post))
    (hend : ∀ c ∈ (⟨blk, n⟩ : Extent) :: post, c.fin < addrSpace) (htop : p.fin = blk)
    (hm' : m' = freememLink m hd blk n p.addr ((post.map Extent.addr).headD 0) p.fin) :
    Threaded m' hd (pre ++ Extents.coalesce ⟨p.addr, p.len + n⟩ post) ∧
      mlength m' hd = (mlength m hd + n) % addrSpace ∧
      EditOnly m m' hd (lastOf hd pre) p.addr (blk + n) := by
  have hblk := hend ⟨blk, n⟩ (by simp)
  have hlp : Laid hd (pre ++ p :: post) := by
    rw [← List.singleton_append, ← List.append_assoc] at hl ⊢
    exact hl.without
  obtain ⟨-, -, hhp, hp8, hpend⟩ := hlp.at_block
  simp only [Extent.fin] at hblk htop
  -- the block below, with the range
  have hlarge : Laid hd (pre ++ ⟨p.addr, p.len + n⟩ :: post) := by
    refine hlp.without.insert hhp (Nat.le_add_right_of_le hp8) ?_ (fun c hc => ?_) fun c hc => ?_
    · simp only [Extent.fin]
      omega
    · have hpc : c.fin ≤ p.addr := hlp.below hc (by simp)
      exact hpc
    · have hc' : (⟨blk, n⟩ : Extent).fin ≤ c.addr := by
        rw [← List.singleton_append, ← List.append_assoc] at hl
        exact hl.post_above hc
      simp only [Extent.fin] at hc' ⊢
      omega
  have hlarge' : ∀ c ∈ (⟨p.addr, p.len + n⟩ : Extent) :: post, c.fin < addrSpace := by
    intro c hc
    rcases List.mem_cons.mp hc with rfl | hc
    · simp only [Extent.fin]
      omega
    · exact hend c (List.mem_cons_of_mem _ hc)
  have hlen : mlength (store m (hd + 4) (mlength m hd + n)) p.addr = p.len := by
    rw [← h.lens p (by simp)]
    simp (disch := omega) only [mlength, load_store_of_apart]
  simp only [freememLink, Extent.fin, if_pos htop, hlen] at hm'
  obtain ⟨h1, h2, h3⟩ := h.extend hlp (n := n) (show p.len + n < addrSpace by omega) rfl
    (v := mlength m hd + n)
  obtain ⟨h4, h5, h6⟩ := h1.coalesce hlarge hlarge' rfl hm'
  refine ⟨h4, h5.trans h2, (h3.mono ?_).trans (h6.mono ?_)⟩
  · rw [Extent.fin]
    omega
  · simp only [Extent.fin]
    omega

/-- **What `freemem` writes** puts the range among the free blocks. -/
theorem Threaded.give {blk top : Nat} (h : Threaded m hd (pre ++ post))
    (hl : Laid hd (pre ++ ⟨blk, n⟩ :: post))
    (hend : ∀ c ∈ pre ++ ⟨blk, n⟩ :: post, c.fin < addrSpace)
    (htop : top = if lastOf hd pre = hd then 0
      else (lastOf hd pre + mlength m (lastOf hd pre)) % addrSpace) :
    Given m (freememLink m hd blk n (lastOf hd pre) ((post.map Extent.addr).headD 0) top)
      hd blk n pre
      post := by
  have hendpost : ∀ c ∈ (⟨blk, n⟩ : Extent) :: post, c.fin < addrSpace := fun c hc =>
    hend c (List.mem_append_right _ hc)
  have hhb := hl.above ⟨blk, n⟩ (by simp)
  generalize hm' : freememLink m hd blk n (lastOf hd pre) ((post.map Extent.addr).headD 0) top = m'
  have apart : top ≠ blk → releaseBetween blk n pre post = pre ++ Extents.coalesce ⟨blk, n⟩ post →
      Given m m' hd blk n pre post := by
    intro hne hrel
    obtain ⟨h1, h2, h3⟩ := h.give_apart hl hendpost hne hm'.symm
    constructor
    · rwa [hrel]
    · intro hlt
      rw [h2, Nat.mod_eq_of_lt hlt]
    · intro x hx
      exact h3.frame hl hx fun hb => hx.2 ⟨blk, n⟩ (by simp) hb
  rcases List.eq_nil_or_concat' pre with rfl | ⟨pre, p, rfl⟩
  · refine apart ?_ rfl
    rw [htop, if_pos (by rfl)]
    simp only at hhb
    omega
  · have hl' := hl
    rw [List.append_assoc, List.singleton_append] at h hl'
    have hp := hend p (by simp)
    have hhp := hl'.above p (by simp)
    rw [lastOf_concat, if_neg (by omega), h.lens p (by simp), ← Extent.fin,
      Nat.mod_eq_of_lt hp] at htop
    by_cases htouch : p.fin = blk
    · rw [lastOf_concat, htop] at hm'
      obtain ⟨h1, h2, h3⟩ := h.give_touching hl' hendpost htouch hm'.symm
      have hrel : releaseBetween blk n (pre ++ [p]) post =
          pre ++ Extents.coalesce ⟨p.addr, p.len + n⟩ post := by
        simp [releaseBetween, htouch]
      constructor
      · rwa [hrel]
      · intro hlt
        rw [h2, Nat.mod_eq_of_lt hlt]
      · intro x hx
        have hx' := hx
        rw [List.append_assoc, List.singleton_append] at hx'
        refine h3.frame hl' hx' fun hb => ?_
        have h5 := hx.2 p (by simp)
        have h6 := hx.2 ⟨blk, n⟩ (by simp)
        simp only [Extent.Has, Extent.fin] at h5 h6 htouch
        omega
    · refine apart ?_ ?_
      · rw [htop]
        exact htouch
      · simp [releaseBetween, htouch]

/-- A heap of 8 KiB whose upper half is in use. -/
def halfHeap : Heap where
  mem := store (store (store (store (fun _ => 0) 0x1000 0x2000) 0x1004 0x1000) 0x2000 0)
    0x2004 0x1000
  memlist := 0x1000
  minheap := 0x2000
  maxheap := 0x4000
  memblockkflag := 0

theorem freeList_halfHeap : FreeList halfHeap [⟨0x2000, 0x1000⟩] := by
  constructor
  · have hlast : mnext halfHeap.mem 0x2000 = 0 := by decide +kernel
    refine ⟨⟨rfl, ?_, hlast⟩, ?_⟩
    · decide +kernel
    · simp only [List.mem_singleton, forall_eq]
      decide +kernel
  · exact canonical_cons_iff.mpr ⟨by decide, .nil 8, by simp⟩
  · simp [Within, halfHeap, Extent.fin]
  · decide +kernel
  · decide
  · decide
  · decide

end Xinu
