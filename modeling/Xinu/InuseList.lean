/-
# The in-use list: `meminsert.c`, `memextract.c`

A process's in-use list is a list of nodes that its header leads to, each of which records a block.
`meminsert` allocates a node and puts it at the front.  `memextract` looks for the node that records
a block and unlinks what its cursor points to, also when no node records it: then the cursor is null
and the last node is linked to whatever the word at address 8 holds.

So an extraction does what its name says if and only if the block is recorded or that word is 0
(`extractsRight_iff`), and from then on the list may be anything, a circle included.  Where every
extraction meets that condition and every insertion finds room for its node, the list stays a list
and every call ends (`lists_end`).
-/
import Xinu.Getmem
import Xinu.Lib.Runs

namespace Xinu

open ByteMemory Chains LinkedPath Extents Runs

variable {m m' : Mem} {h h' : Heap} {hdptr ptr u v x : Nat} {b : Extent} {bs pre post : List Extent}
  {ns ns' : List Nat}

/-! ## 1. Lists of separate nodes

A node is 16 bytes of memory like any other, so that a link can be written safely only where nodes
do not overlap each other or the header. -/

/-- A list whose header and nodes are objects of their own, none inside another. -/
structure NodeList (m : Mem) (hdptr : Nat) (ns : List Nat) : Prop
    extends InuseList m hdptr ns where
  fits : ∀ x ∈ hdptr :: ns, x + 12 ≤ addrSpace
  apart : (hdptr :: ns).Pairwise fun x y => x + 12 ≤ y ∨ y + 12 ≤ x

/-- What the nodes record is the same. -/
def SameRecords (m m' : Mem) (xs : List Nat) : Prop :=
  ∀ x ∈ xs, memblockptr m' x = memblockptr m x ∧ memlen m' x = memlen m x

theorem NodeList.nodup (hn : NodeList m hdptr ns) : (hdptr :: ns).Nodup := by
  refine hn.apart.imp fun hxy e => ?_
  rw [e] at hxy
  omega

theorem NodeList.apart_of_ne (hn : NodeList m hdptr ns) (hu : u ∈ hdptr :: ns)
    (hx : x ∈ hdptr :: ns) (hne : x ≠ u) : x + 12 ≤ u ∨ u + 12 ≤ x := by
  have : Std.Symm fun x y : Nat => x + 12 ≤ y ∨ y + 12 ≤ x := ⟨fun _ _ => Or.symm⟩
  exact hn.apart.forall hx hu hne

/-- A link is written: no other link changes, and no record. -/
theorem NodeList.store_link (hn : NodeList m hdptr ns) (hu : u ∈ hdptr :: ns) (v : Nat) :
    (∀ x ∈ hdptr :: ns, x ≠ u → inuseNext (store m (u + 8) v) x = inuseNext m x) ∧
      SameRecords m (store m (u + 8) v) (hdptr :: ns) := by
  have hfu := hn.fits u hu
  refine ⟨fun x hx hne => ?_, fun x hx => ?_⟩
  · have hfx := hn.fits x hx
    have hapart := hn.apart_of_ne hu hx hne
    exact load_store_of_apart (by omega) (by omega) (by omega)
  · have hfx := hn.fits x hx
    by_cases hne : x = u
    · subst hne
      exact ⟨load_store_of_apart (by omega) (by omega) (by omega),
        load_store_of_apart (by omega) (by omega) (by omega)⟩
    · have hapart := hn.apart_of_ne hu hx hne
      exact ⟨load_store_of_apart (by omega) (by omega) (by omega),
        load_store_of_apart (by omega) (by omega) (by omega)⟩

/-! ## 2. `memextract`

Two cases, by whether the search ends at a node or at the end of the list. -/

/-- Some node of the list records the block. -/
def Recorded (m : Mem) (ns : List Nat) (ptr : Nat) : Prop := ∃ x ∈ ns, memblockptr m x = ptr

/-- The node is found. -/
theorem memextract_found {pre post : List Nat} (hi : InuseList m hdptr (pre ++ x :: post))
    (hpre : ∀ y ∈ pre, memblockptr m y ≠ ptr) (hx : memblockptr m x = ptr) :
    memextract hdptr ptr m = some (store m (pre.getLastD hdptr + 8) (inuseNext m x)) := by
  have hfront : ∀ y ∈ pre, decide (memblockptr m y ≠ ptr) = true := fun y hy =>
    decide_eq_true (hpre y hy)
  rw [memextract, memextractSearch_eq hi.chain hi.nonnull hi.length_lt,
    List.takeWhile_append_of_pos hfront, List.dropWhile_append_of_pos hfront,
    List.takeWhile_cons_of_neg (by simp [hx]), List.dropWhile_cons_of_neg (by simp [hx]),
    List.append_nil]
  rfl

/-- No node is found, and the cursor is null. -/
theorem memextract_missing (hi : InuseList m hdptr ns) (hno : ¬Recorded m ns ptr) :
    memextract hdptr ptr m = some (store m (ns.getLastD hdptr + 8) (load m 8)) := by
  have hall : ∀ y ∈ ns, decide (memblockptr m y ≠ ptr) = true := fun y hy =>
    decide_eq_true fun e => hno ⟨y, hy, e⟩
  rw [memextract, memextractSearch_eq hi.chain hi.nonnull hi.length_lt,
    List.takeWhile_eq_self_iff.mpr hall, List.dropWhile_eq_nil_iff.mpr hall]
  rfl

/-- The last link of a list is null. -/
theorem InuseList.last (hi : InuseList m hdptr ns) : inuseNext m (ns.getLastD hdptr) = 0 := by
  have hwalk : Walk (inuseNext m) hdptr (hdptr :: ns ++ []) 0 := by
    rw [List.append_nil]
    exact ⟨rfl, hi.chain⟩
  exact hwalk.rest

/-- What an extraction should come to: it ends, and the list is as before less the first node that
records the block. -/
def ExtractsRight (m : Mem) (hdptr ptr : Nat) (ns : List Nat) : Prop :=
  ∃ m', memextract hdptr ptr m = some m' ∧
    NodeList m' hdptr (ns.eraseP fun x => memblockptr m x = ptr) ∧
    SameRecords m m' (hdptr :: ns)

theorem NodeList.extract_found (hn : NodeList m hdptr ns) (hrec : Recorded m ns ptr) :
    ExtractsRight m hdptr ptr ns := by
  obtain ⟨y, hy, hyptr⟩ := hrec
  obtain ⟨x, pre, post, hpre, hx, rfl, herase⟩ :=
    List.exists_of_eraseP (p := fun x => memblockptr m x = ptr) hy (decide_eq_true hyptr)
  have hlast : pre.getLastD hdptr ∈ hdptr :: pre ++ x :: post :=
    List.mem_append_left _ (getLastD_mem pre hdptr)
  obtain ⟨hlinks, hrecords⟩ := hn.store_link hlast (inuseNext m x)
  refine ⟨_, memextract_found hn.toInuseList (fun y hy => by simpa using hpre y hy)
    (by simpa using hx), ?_, hrecords⟩
  have hsub' : (pre ++ post).Sublist (pre ++ x :: post) :=
    (List.Sublist.refl pre).append (List.sublist_cons_self x post)
  have hsub := hsub'.cons_cons hdptr
  have hwalk : Walk (inuseNext (store m (pre.getLastD hdptr + 8) (inuseNext m x))) hdptr
      (hdptr :: pre ++ post) 0 := by
    have hchain : Walk (inuseNext m) hdptr (hdptr :: pre ++ x :: post) 0 := ⟨rfl, hn.chain⟩
    refine hchain.unlink hn.nodup (fun y hy => hlinks y (hsub.subset hy)) ?_
    rw [inuseNext, load_store_same, Nat.mod_eq_of_lt (load_lt m _)]
  rw [herase]
  exact ⟨⟨hwalk.2, fun h0 => hn.nonnull (hsub'.subset h0)⟩,
    fun y hy => hn.fits y (hsub.subset hy), hn.apart.sublist hsub⟩

/-- **`memextract` is right** if and only if the block is recorded or the word at address 8 is
0. -/
theorem NodeList.extractsRight_iff (hn : NodeList m hdptr ns) :
    ExtractsRight m hdptr ptr ns ↔ Recorded m ns ptr ∨ load m 8 = 0 := by
  by_cases hrec : Recorded m ns ptr
  · exact ⟨fun _ => .inl hrec, fun _ => hn.extract_found hrec⟩
  have hmiss := memextract_missing hn.toInuseList hrec
  have hsame : (ns.eraseP fun x => memblockptr m x = ptr) = ns :=
    List.eraseP_of_forall_not fun x hx e => hrec ⟨x, hx, by simpa using e⟩
  constructor
  · rintro ⟨m', he, hn', -⟩
    rw [hmiss] at he
    rw [hsame, ← Option.some.inj he] at hn'
    have hlast := hn'.toInuseList.last
    rw [inuseNext, load_store_same, Nat.mod_eq_of_lt (load_lt m 8)] at hlast
    exact .inr hlast
  · rintro (h1 | h8)
    · exact absurd h1 hrec
    · have hkeep : store m (ns.getLastD hdptr + 8) (load m 8) = m := by
        rw [h8, ← hn.toInuseList.last]
        exact store_load m _
      rw [hkeep] at hmiss
      exact ⟨m, hmiss, hsame.symm ▸ hn, fun x _ => ⟨rfl, rfl⟩⟩

/-! ## 3. `meminsert`

The node comes from the free list, by `getmem`'s own search, so the in-use list and the free list
are described together (`Tracking`).  The proof follows the source: the block is carved, then the
node is written and linked in front. -/

/-- An in-use list in a heap whose free blocks are elsewhere. -/
structure Tracking (h : Heap) (bs : List Extent) (hdptr : Nat) (ns : List Nat) : Prop
    extends NodeList h.mem hdptr ns where
  free : FreeList h bs
  live : ∀ x ∈ hdptr :: ns, ∀ y, x ≤ y → y < x + 12 → Untouched h.memlist bs y

theorem untouched_iff {hd y : Nat} :
    Untouched hd bs y ↔ (y < hd ∨ hd + 8 ≤ y) ∧ cover bs y = 0 := by
  refine and_congr_right fun _ => ⟨fun hno => ?_, fun h0 b hb hy => ?_⟩
  · by_contra hne
    obtain ⟨b, hb, hy⟩ := cover_pos_iff.mp (Nat.pos_of_ne_zero hne)
    exact hno b hb hy
  · exact absurd (cover_pos hb hy) (by omega)

/-- What was no free byte before an allocation is none after it, -/
theorem Untouched.carve {hd n y : Nat} (hu : Untouched hd (pre ++ b :: post) y) (hle : n ≤ b.len) :
    Untouched hd (pre ++ (carve n b ++ post)) y := by
  obtain ⟨h1, h2⟩ := untouched_iff.mp hu
  have hcarve := cover_carve_mid hle pre post y
  exact untouched_iff.mpr ⟨h1, by omega⟩

/-- and neither is what was allocated. -/
theorem FreeList.carved_untouched (hf : FreeList h (pre ++ b :: post)) {n y : Nat}
    (hle : n ≤ b.len) (hlo : b.addr ≤ y) (hhi : y < b.addr + n) :
    Untouched h.memlist (pre ++ (Extents.carve n b ++ post)) y := by
  have habove := hf.laid.above b (by simp)
  have hone := hf.canonical.cover_le_one y
  have hcarve := cover_carve_mid hle pre post y
  have hmine : cover [⟨b.addr, n⟩] y = 1 := by
    rw [cover_singleton]
    exact if_pos ⟨hlo, hhi⟩
  exact untouched_iff.mpr ⟨by omega, by omega⟩

/-- What `meminsert` writes once it has its node. -/
def insertNode (m : Mem) (hdptr memptr newnode : Nat) : Mem :=
  let m := store m newnode memptr
  let m := store m (newnode + 4) (mlength m memptr)
  let m := store m (newnode + 8) 0
  if inuseNext m hdptr = 0 then store m (hdptr + 8) newnode
  else store (store m (newnode + 8) (inuseNext m hdptr)) (hdptr + 8) newnode

theorem meminsert_eq {node : Nat}
    (hget : getmemInner hdptr inuseSize { h with memblockkflag := 1 } = some (h', node)) :
    meminsert hdptr ptr h = some { h' with mem := insertNode h'.mem hdptr ptr node } := by
  simp only [meminsert, hget, Option.bind_eq_bind, Option.bind_some, insertNode]
  split_ifs
  · rfl
  · rfl

/-- A node was put at the front of the list. -/
structure Added (m m' : Mem) (hdptr ptr node : Nat) : Prop where
  head : inuseNext m' hdptr = node
  link : inuseNext m' node = inuseNext m hdptr
  block : memblockptr m' node = ptr % addrSpace
  len : memlen m' node = mlength (store m node ptr) ptr
  frame : ∀ y, (y < node ∨ node + 12 ≤ y) → (y < hdptr + 8 ∨ hdptr + 12 ≤ y) → m' y = m y

theorem added_insertNode {node : Nat} (ptr : Nat) (hnode : node + 12 ≤ addrSpace)
    (hhd : hdptr + 12 ≤ addrSpace)
    (hapart : hdptr + 12 ≤ node ∨ node + 12 ≤ hdptr) :
    Added m (insertNode m hdptr ptr node) hdptr ptr node := by
  have hlink := load_lt m (hdptr + 8)
  have hlen := load_lt (store m node ptr) (ptr + 4)
  have hold : inuseNext (store (store (store m node ptr) (node + 4)
      (mlength (store m node ptr) ptr)) (node + 8) 0) hdptr = inuseNext m hdptr := by
    simp (disch := omega) only [inuseNext, load_store_of_apart]
  simp only [insertNode, hold]
  split_ifs with h0
  · constructor
    · simp (disch := omega) only [inuseNext, load_store_same, Nat.mod_eq_of_lt]
    · rw [h0]
      simp (disch := omega) only [inuseNext, load_store_of_apart, load_store_same, Nat.zero_mod]
    · simp (disch := omega) only [memblockptr, load_store_of_apart, load_store_same]
    · simp (disch := omega) only [memlen, load_store_of_apart, load_store_same, Nat.mod_eq_of_lt]
    · intro y h1 h2
      simp (disch := omega) only [store_apply_of_outside]
  · constructor
    · simp (disch := omega) only [inuseNext, load_store_same, Nat.mod_eq_of_lt]
    · simp (disch := omega) only [inuseNext, load_store_of_apart, load_store_same,
        Nat.mod_eq_of_lt]
    · simp (disch := omega) only [memblockptr, load_store_of_apart, load_store_same]
    · simp (disch := omega) only [memlen, load_store_of_apart, load_store_same, Nat.mod_eq_of_lt]
    · intro y h1 h2
      simp (disch := omega) only [store_apply_of_outside]

/-- A node apart from all others comes first. -/
theorem NodeList.insert {node : Nat} (hn : NodeList m hdptr ns) (h0 : node ≠ 0)
    (hfit : node + 12 ≤ addrSpace)
    (hapart : ∀ x ∈ hdptr :: ns, x + 12 ≤ node ∨ node + 12 ≤ x)
    (ha : Added m m' hdptr ptr node) :
    NodeList m' hdptr (node :: ns) ∧ SameRecords m m' (hdptr :: ns) := by
  have hhd : hdptr ∈ hdptr :: ns := List.mem_cons_self
  have hsame : ∀ x ∈ hdptr :: ns, ∀ y, x ≤ y → y < x + 12 → (x = hdptr → y < hdptr + 8) →
      m' y = m y := by
    intro x hx y h1 h2 h3
    have hxn := hapart x hx
    by_cases hne : x = hdptr
    · have := h3 hne
      exact ha.frame y (by omega) (by omega)
    · have hxh := hn.apart_of_ne hhd hx hne
      exact ha.frame y (by omega) (by omega)
  refine ⟨⟨⟨?_, ?_⟩, ?_, ?_⟩, fun x hx => ⟨?_, ?_⟩⟩
  · refine ⟨ha.head, ?_⟩
    rw [ha.link]
    refine hn.chain.congr fun x hx => ?_
    have hfx := hn.fits x (List.mem_cons_of_mem _ hx)
    have hne : x ≠ hdptr := fun e => (List.nodup_cons.mp hn.nodup).1 (e ▸ hx)
    exact load_congr (by omega) fun y h1 h2 =>
      hsame x (List.mem_cons_of_mem _ hx) y (by omega) (by omega) fun e => absurd e hne
  · intro hmem
    rcases List.mem_cons.mp hmem with e | hmem
    · exact h0 e.symm
    · exact hn.nonnull hmem
  · intro x hx
    rcases List.mem_cons.mp hx with rfl | hx
    · exact hn.fits x hhd
    rcases List.mem_cons.mp hx with rfl | hx
    · exact hfit
    · exact hn.fits x (List.mem_cons_of_mem _ hx)
  · obtain ⟨h1, h2⟩ := List.pairwise_cons.mp hn.apart
    refine List.pairwise_cons.mpr ⟨fun x hx => ?_, List.pairwise_cons.mpr ⟨fun x hx => ?_, h2⟩⟩
    · rcases List.mem_cons.mp hx with rfl | hx
      · exact hapart hdptr hhd
      · exact h1 x hx
    · exact (hapart x (List.mem_cons_of_mem _ hx)).symm
  · have hfx := hn.fits x hx
    exact load_congr (by omega) fun y h1 h2 => hsame x hx y (by omega) (by omega) (by omega)
  · have hfx := hn.fits x hx
    exact load_congr (by omega) fun y h1 h2 => hsame x hx y (by omega) (by omega) (by omega)

/-- The list does not see what happens in free blocks and in `memlist`. -/
theorem NodeList.congr (hn : NodeList m hdptr ns)
    (hm : ∀ x ∈ hdptr :: ns, ∀ y, x ≤ y → y < x + 12 → m' y = m y) :
    NodeList m' hdptr ns ∧ SameRecords m m' (hdptr :: ns) := by
  have hload : ∀ x ∈ hdptr :: ns, ∀ i ≤ 8, load m' (x + i) = load m (x + i) := by
    intro x hx i hi
    have hfx := hn.fits x hx
    exact load_congr (by omega) fun y h1 h2 => hm x hx y (by omega) (by omega)
  have hfirst : inuseNext m' hdptr = inuseNext m hdptr := hload hdptr (by simp) 8 le_rfl
  refine ⟨⟨⟨?_, hn.nonnull⟩, hn.fits, hn.apart⟩, fun x hx => ?_⟩
  · rw [hfirst]
    exact hn.chain.congr fun x hx => hload x (List.mem_cons_of_mem _ hx) 8 le_rfl
  · exact ⟨hload x hx 0 (by omega), hload x hx 4 (by omega)⟩

/-- The free list gives up `n` bytes of the block `b`, and the list stays. -/
theorem Tracking.take {n : Nat} (ht : Tracking h (pre ++ b :: post) hdptr ns) (hdvd : 8 ∣ n)
    (hn : 0 < n) (hle : n ≤ b.len) :
    Tracking { h with mem := getmemTake h.mem h.memlist n (lastOf h.memlist pre) b.addr }
        (pre ++ (carve n b ++ post)) hdptr ns ∧
      SameRecords h.mem (getmemTake h.mem h.memlist n (lastOf h.memlist pre) b.addr)
        (hdptr :: ns) ∧
      Taken h.mem (getmemTake h.mem h.memlist n (lastOf h.memlist pre) b.addr) h.memlist n b pre
        post := by
  have hf := ht.free
  have hrest : n = b.len ∨ n + 8 ≤ b.len := by
    have hb := (canonical_cons_iff.mp (canonical_append_iff.mp hf.canonical).2.1).1
    omega
  have htaken := hf.threaded.take hf.laid (Nat.le_of_dvd hn hdvd) hle hrest
  obtain ⟨hn', hrec⟩ := ht.toNodeList.congr fun x hx y h1 h2 =>
    htaken.frame y (ht.live x hx y h1 h2)
  exact ⟨⟨hn', hf.take hdvd hn hle, fun x hx y h1 h2 => (ht.live x hx y h1 h2).carve hle⟩, hrec,
    htaken⟩

/-- What `meminsert` comes to when there is room for the node in the free block `b`. -/
structure Inserts (h h' : Heap) (hdptr ptr : Nat) (b : Extent) (pre post : List Extent)
    (ns : List Nat) : Prop where
  runs : meminsert hdptr ptr h = some h'
  tracking : Tracking h' (pre ++ (carve 16 b ++ post)) hdptr (b.addr :: ns)
  records : SameRecords h.mem h'.mem (hdptr :: ns)
  block : memblockptr h'.mem b.addr = ptr % addrSpace
  len : (∀ y, ptr + 4 ≤ y → y < ptr + 8 → Untouched h.memlist (pre ++ b :: post) y) →
    ptr + 8 ≤ addrSpace → memlen h'.mem b.addr = mlength h.mem ptr
  frame : ∀ y, Untouched h.memlist (pre ++ b :: post) y → (y < hdptr + 8 ∨ hdptr + 12 ≤ y) →
    h'.mem y = h.mem y
  same : h'.memlist = h.memlist ∧ h'.minheap = h.minheap ∧ h'.maxheap = h.maxheap

/-- **`meminsert`** with room for its node. -/
theorem Tracking.insert (ht : Tracking h (pre ++ b :: post) hdptr ns) (ptr : Nat)
    (hfit : firstFit 16 (pre ++ b :: post) = some (pre, b, post)) :
    ∃ h', Inserts h h' hdptr ptr b pre post ns := by
  have hle := (firstFit_some hfit).2.1
  have hf := ht.free
  obtain ⟨-, -, hhb, -, hend⟩ := hf.laid.at_block
  have hhead : hdptr ∈ hdptr :: ns := List.mem_cons_self
  have hget := getmemInner_takes hdptr (hf.withFlag 1) rfl hfit
  -- the list after the allocation, and where the node stands
  obtain ⟨ht₁, hrec₁, htaken⟩ := ht.take (n := 16) (by decide) (by decide) hle
  have hkept := htaken.frame
  have hn₁ := ht₁.toNodeList
  have hapart : ∀ x ∈ hdptr :: ns, x + 12 ≤ b.addr ∨ b.addr + 12 ≤ x := by
    intro x hx
    by_contra hmeet
    rcases Nat.le_total x b.addr with hxb | hbx
    · exact (ht.live x hx b.addr hxb (by omega)).2 b (by simp) ⟨le_rfl, by rw [Extent.fin]; omega⟩
    · exact (ht.live x hx x le_rfl (by omega)).2 b (by simp) ⟨hbx, by rw [Extent.fin]; omega⟩
  have hadd := added_insertNode
    (m := getmemTake h.mem h.memlist 16 (lastOf h.memlist pre) b.addr) ptr
    (show b.addr + 12 ≤ addrSpace by omega) (hn₁.fits hdptr hhead) (hapart hdptr hhead)
  obtain ⟨hn₂, hrec₂⟩ := hn₁.insert (by omega) (by omega) hapart hadd
  have hlive : ∀ x ∈ hdptr :: b.addr :: ns, ∀ y, x ≤ y → y < x + 12 →
      Untouched h.memlist (pre ++ (Extents.carve 16 b ++ post)) y := by
    intro x hx y h1 h2
    rcases List.mem_cons.mp hx with rfl | hx
    · exact (ht.live x hhead y h1 h2).carve hle
    rcases List.mem_cons.mp hx with rfl | hx
    · exact hf.carved_untouched hle h1 (by omega)
    · exact (ht.live x (List.mem_cons_of_mem _ hx) y h1 h2).carve hle
  refine ⟨_, meminsert_eq hget, ⟨hn₂, ?_, hlive⟩, fun x hx => ?_, hadd.block, ?_, ?_, rfl, rfl, rfl⟩
  · refine (ht₁.free.withFlag 0).congr fun y hy => hadd.frame y ?_ ?_
    · by_contra hin
      exact hy (hlive b.addr (by simp) y (by omega) (by omega))
    · by_contra hin
      exact hy (hlive hdptr (by simp) y (by omega) (by omega))
  · obtain ⟨h1, h2⟩ := hrec₂ x hx
    obtain ⟨h3, h4⟩ := hrec₁ x hx
    exact ⟨h1.trans h3, h2.trans h4⟩
  · intro hu hptr
    rw [hadd.len]
    refine load_congr (by omega) fun y h1 h2 => ?_
    have hy := hu y h1 (by omega)
    rw [store_apply_of_outside (by omega) ?_, hkept y hy]
    by_contra hin
    refine hy.2 b (by simp) ⟨by omega, ?_⟩
    rw [Extent.fin]
    omega
  · intro y hy hlink
    refine (hadd.frame y ?_ hlink).trans (hkept y hy)
    by_contra hin
    refine hy.2 b (by simp) ⟨by omega, ?_⟩
    rw [Extent.fin]
    omega

/-! ## 4. Runs

What one sound call preserves, and from it what a run does.  A heap with one node shows what
happens to a list when a call is not sound. -/

/-- The calls on one list. -/
inductive ListCall
  | meminsert (memptr : Nat)
  | memextract (memptr : Nat)

/-- One call; no result means that the call does not end. -/
def ListCall.run (hdptr : Nat) (h : Heap) : ListCall → Option Heap
  | .meminsert memptr => Xinu.meminsert hdptr memptr h
  | .memextract memptr => (Xinu.memextract hdptr memptr h.mem).map fun m => { h with mem := m }

/-- Some free block has room for a node. -/
def RoomForNode (h : Heap) : Prop :=
  ∃ k, freeNode h.mem h.memlist k ≠ 0 ∧ 16 ≤ mlength h.mem (freeNode h.mem h.memlist k)

/-- A node to be extracted is there, or the word read in its place is 0; a node to be inserted has
room. -/
def ListCall.Sound (hdptr : Nat) (h : Heap) : ListCall → Prop
  | .meminsert _ => RoomForNode h
  | .memextract memptr => ¬Unrecorded h.mem hdptr memptr ∨ load h.mem 8 = 0

theorem InuseList.recorded_iff (hi : InuseList m hdptr ns) (ptr : Nat) :
    ¬Unrecorded m hdptr ptr ↔ Recorded m ns ptr := by
  rw [Recorded, ← hi.chain.visits (f := inuseNode m hdptr) hi.nonnull rfl (fun _ => rfl)
    fun x => memblockptr m x = ptr, Unrecorded]
  push Not
  rfl

theorem FreeList.room_iff (hf : FreeList h bs) : RoomForNode h ↔ ∃ b ∈ bs, 16 ≤ b.len := by
  have h0 : 0 ∉ bs.map Extent.addr := by
    intro hmem
    obtain ⟨b, hb, he⟩ := List.mem_map.mp hmem
    exact hf.addr_ne_zero hb he
  rw [RoomForNode, hf.threaded.chain.2.visits (f := freeNode h.mem h.memlist) h0 rfl (fun _ => rfl)
    fun x => 16 ≤ mlength h.mem x]
  constructor
  · rintro ⟨x, hx, hlen⟩
    obtain ⟨b, hb, rfl⟩ := List.mem_map.mp hx
    rw [hf.threaded.lens b hb] at hlen
    exact ⟨b, hb, hlen⟩
  · rintro ⟨b, hb, hlen⟩
    refine ⟨b.addr, List.mem_map_of_mem hb, ?_⟩
    rwa [hf.threaded.lens b hb]

/-- An extraction leaves the free list alone. -/
theorem Tracking.extract (ht : Tracking h bs hdptr ns) (ptr : Nat)
    (hok : ¬Unrecorded h.mem hdptr ptr ∨ load h.mem 8 = 0) :
    ∃ m', memextract hdptr ptr h.mem = some m' ∧
      Tracking { h with mem := m' } bs hdptr (ns.eraseP fun x => memblockptr h.mem x = ptr) ∧
      SameRecords h.mem m' (hdptr :: ns) := by
  rw [ht.toInuseList.recorded_iff] at hok
  obtain ⟨m', he, hn', hrec⟩ := ht.toNodeList.extractsRight_iff.mpr hok
  have htrk : Tracked h bs hdptr ns := ⟨ht.toInuseList, ht.fits, ht.live⟩
  obtain ⟨m'', he', hf'⟩ := memextract_freeList ht.free htrk ptr
  rw [he] at he'
  obtain rfl := Option.some.inj he'
  refine ⟨m', he, ⟨hn', hf', fun x hx => ht.live x ?_⟩, hrec⟩
  exact (List.eraseP_sublist.cons_cons hdptr).subset hx

/-- **What one sound call preserves.** -/
theorem Tracking.step {c : ListCall} (ht : Tracking h bs hdptr ns) (hok : c.Sound hdptr h)
    (hr : c.run hdptr h = some h') : ∃ bs' ns', Tracking h' bs' hdptr ns' := by
  cases c with
  | meminsert memptr =>
    obtain ⟨b, hb, hlen⟩ := ht.free.room_iff.mp hok
    cases hfit : firstFit 16 bs with
    | none =>
      have := firstFit_none.mp hfit b hb
      omega
    | some r =>
      obtain ⟨pre, b, post⟩ := r
      obtain ⟨rfl, -, -⟩ := firstFit_some hfit
      obtain ⟨h'', hins⟩ := ht.insert memptr hfit
      obtain rfl : h'' = h' := Option.some.inj (hins.runs.symm.trans hr)
      exact ⟨_, _, hins.tracking⟩
  | memextract memptr =>
    obtain ⟨m', he, ht', -⟩ := ht.extract _ hok
    rw [ListCall.run, he, Option.map_some] at hr
    obtain rfl := Option.some.inj hr
    exact ⟨_, _, ht'⟩

/-- In such a state every call ends, sound or not. -/
theorem Tracking.run_ends (ht : Tracking h bs hdptr ns) (c : ListCall) :
    (c.run hdptr h).isSome := by
  cases c with
  | meminsert memptr =>
    have hsearch := (ht.free.withFlag 1).search 16
    have hround : roundmb inuseSize = 16 := by decide
    have hget : ∃ r, getmemInner hdptr inuseSize { h with memblockkflag := 1 } = some r := by
      rw [getmemInner, getmemWith, if_neg (by decide), hround, hsearch]
      cases firstFit 16 bs with
      | none => exact ⟨_, rfl⟩
      | some r =>
        simp only [Option.bind_eq_bind, Option.bind_some]
        split_ifs
        · exact ⟨_, rfl⟩
        · exact absurd rfl ‹¬(1 : Bool8) = 1›
        · exact ⟨_, rfl⟩
    obtain ⟨⟨h₁, node⟩, hget⟩ := hget
    rw [ListCall.run, meminsert_eq hget]
    rfl
  | memextract memptr =>
    obtain ⟨u, -, he⟩ := memextract_eq ht.toInuseList memptr
    rw [ListCall.run, he]
    rfl

/-- **`memextract` does what its name says** if and only if the block is recorded or the word at
address 8 is 0.  In a run whose extractions all meet that condition, and whose insertions all find
room for the node, the list stays a list and every call ends. -/
theorem lists_end (hn : NodeList h.mem hdptr ns) (ptr : Nat) :
    (ExtractsRight h.mem hdptr ptr ns ↔ Recorded h.mem ns ptr ∨ load h.mem 8 = 0) ∧
      ∀ bs, Tracking h bs hdptr ns →
        ∀ s, Reaches (ListCall.run hdptr) (ListCall.Sound hdptr) h s →
          (∃ ns', NodeList s.mem hdptr ns') ∧ ∀ c : ListCall, (c.run hdptr s).isSome := by
  refine ⟨hn.extractsRight_iff, fun bs ht s hs => ?_⟩
  obtain ⟨bs', ns', ht'⟩ := hs.invariant (I := fun s => ∃ bs ns, Tracking s bs hdptr ns)
    ⟨bs, ns, ht⟩ fun _ _ _ ⟨_, _, ht⟩ hok hr => ht.step hok hr
  exact ⟨⟨ns', ht'.toNodeList⟩, ht'.run_ends⟩

theorem tracking_halfHeap : Tracking halfHeap [⟨0x2000, 0x1000⟩] 0x3000 [] := by
  have hfirst : inuseNext halfHeap.mem 0x3000 = 0 := by decide +kernel
  refine ⟨⟨⟨hfirst, by simp⟩, by simp [addrSpace], List.pairwise_singleton _ _⟩,
    freeList_halfHeap, ?_⟩
  simp only [List.mem_singleton, forall_eq]
  intro y h1 h2
  refine ⟨.inr ?_, ?_⟩
  · simp only [halfHeap]
    omega
  · simp only [List.mem_singleton, forall_eq, Extent.Has, Extent.fin]
    omega

/-- The first insertion into an empty list, in a heap whose word at address 8 is 0. -/
theorem lists_end_halfHeap : ∃ s, (ListCall.meminsert 0x3800).run 0x3000 halfHeap = some s ∧
    ExtractsRight halfHeap.mem 0x3000 0x3f00 [] ∧ (∃ ns', NodeList s.mem 0x3000 ns') ∧
    ((ListCall.memextract 0x3f00).run 0x3000 s).isSome := by
  obtain ⟨hright, hruns⟩ := lists_end tracking_halfHeap.toNodeList 0x3f00
  obtain ⟨s, hs⟩ := Option.isSome_iff_exists.mp
    (tracking_halfHeap.run_ends (.meminsert 0x3800))
  have hroom : (ListCall.meminsert 0x3800).Sound 0x3000 halfHeap :=
    freeList_halfHeap.room_iff.mpr ⟨_, List.mem_singleton_self _, by decide⟩
  obtain ⟨hlist, hend⟩ := hruns _ tracking_halfHeap s (.tail .refl hroom hs)
  exact ⟨s, hs, hright.mpr (.inr (by decide +kernel)), hlist, hend _⟩

/-- A walk on a node that is linked to itself does not end. -/
theorem memextractSearch_circle {fuel p c : Nat} (h0 : c ≠ 0) (hc : memblockptr m c ≠ ptr)
    (hself : inuseNext m c = c) : memextractSearch m ptr fuel p c = none := by
  induction fuel generalizing p with
  | zero => rfl
  | succ fuel ih =>
    rw [memextractSearch, if_neg h0, if_neg hc, hself]
    exact ih

/-- The heap of the examples with one node, which records the block at `0x3020`, and with the
address of that node in the word at address 8. -/
def oneNodeHeap : Heap :=
  { halfHeap with
    mem := store (store (store (store halfHeap.mem 0x3008 0x3010) 0x3010 0x3020) 0x3014 0x100)
      8 0x3010 }

/-- A stack is returned, as `kill` does it.  No node records a stack, and the node of the caller is
linked to itself: the next extraction of a block that is not recorded does not end. -/
theorem stack_makes_circle : ∃ h', NodeList oneNodeHeap.mem 0x3000 [0x3010] ∧
    ¬ExtractsRight oneNodeHeap.mem 0x3000 0x3f00 [0x3010] ∧
    freestk 0x3000 0x3ffc 0x100 oneNodeHeap = some (h', OK) ∧
    memextract 0x3000 0x3f00 h'.mem = none := by
  have hlist : NodeList oneNodeHeap.mem 0x3000 [0x3010] := by
    refine ⟨⟨⟨by decide +kernel, ?_⟩, by decide⟩, by simp [addrSpace], by simp⟩
    have hlast : inuseNext oneNodeHeap.mem 0x3010 = 0 := by decide +kernel
    exact hlast
  have hrun : (freestk 0x3000 0x3ffc 0x100 oneNodeHeap).map (fun x => (x.2,
      inuseNext x.1.mem 0x3000, inuseNext x.1.mem 0x3010, memblockptr x.1.mem 0x3010)) =
        some (OK, 0x3010, 0x3010, 0x3020) := by
    decide +kernel
  obtain ⟨⟨h', r⟩, hfree, he⟩ := Option.map_eq_some_iff.mp hrun
  simp only [Prod.mk.injEq] at he
  obtain ⟨rfl, h1, h2, h3⟩ := he
  refine ⟨h', hlist, fun hright => ?_, hfree, ?_⟩
  · rcases hlist.extractsRight_iff.mp hright with ⟨x, hx, hptr⟩ | h8
    · obtain rfl := List.mem_singleton.mp hx
      exact absurd hptr (by decide +kernel)
    · exact absurd h8 (by decide +kernel)
  · rw [memextract, h1, memextractSearch_circle (by decide) (by omega) h2]
    rfl

end Xinu
