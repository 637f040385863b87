/-
# The allocator: `getmem.c`, `meminsert.c`, `freemem.c`, `memextract.c`, `getstk.c`

The free list is a singly linked list threaded through the free blocks themselves: a
`struct memblk` is two words, `mnext` at offset 0 and `mlength` at offset 4, and `memlist` is
one more of them whose `mlength` is the total.  A tracking node (`struct inusememblk`) is three
words: `memblockptr` at 0, `memlen` at 4, `mnext` at 8.

`getmem` calls `meminsert`, which calls `getmem` for the node after setting `memblockkflag`.
The body of `getmem` is therefore written once with the callee as a parameter (`getmemWith`);
the inner call is the body with the flag set, in which the callee is not reached
(`getmemWith_of_flag`).

Every loop of this module follows `mnext` from one block to the next and changes nothing on the
way, so a walk that visits more blocks than there are addresses never ends.  `none` is the
result of such a walk.
-/
import Xinu.Kernel

namespace Xinu

open ByteMemory

/-! ## 1. Layout of the two kinds of list element -/

/-- `p->mnext` of a `struct memblk`. -/
abbrev mnext (m : Mem) (p : Nat) : Nat := load m p

/-- `p->mlength` of a `struct memblk`. -/
abbrev mlength (m : Mem) (p : Nat) : Nat := load m (p + 4)

/-- `p->memblockptr` of a `struct inusememblk`. -/
abbrev memblockptr (m : Mem) (p : Nat) : Nat := load m p

/-- `p->memlen` of a `struct inusememblk`. -/
abbrev memlen (m : Mem) (p : Nat) : Nat := load m (p + 4)

/-- `p->mnext` of a `struct inusememblk`. -/
abbrev inuseNext (m : Mem) (p : Nat) : Nat := load m (p + 8)

/-- `sizeof(struct inusememblk)`. -/
abbrev inuseSize : Nat := 12

/-- `roundmb(x)`: round up to a multiple of 8, in 32-bit arithmetic. -/
def roundmb (x : Nat) : Nat := (7 + x) % addrSpace / 8 * 8

/-- Longer than any list that ends. -/
def walkBound : Nat := addrSpace

/-! ## 2. `getmem` and `meminsert` -/

/-- The search loop of `getmem`: the first block of at least `nbytes` bytes and the block (or
`memlist`) before it.  A block `0` means the list ended. -/
def getmemSearch (m : Mem) (nbytes : Nat) : Nat → Nat → Nat → Option (Nat × Nat)
  | 0, _, _ => none
  | fuel + 1, prev, curr =>
    if curr = 0 then some (prev, 0)
    else if mlength m curr = nbytes ∨ mlength m curr > nbytes then some (prev, curr)
    else getmemSearch m nbytes fuel curr (mnext m curr)

/-- What `getmem` writes once the search has stopped at `curr`: unlink an exact match, or split
a bigger block and link the leftover, and in both cases record the length in the block. -/
def getmemTake (m : Mem) (memlist nbytes prev curr : Nat) : Mem :=
  if mlength m curr = nbytes then
    let m := store m prev (mnext m curr)
    let m := store m (memlist + 4) (mlength m memlist + addrSpace - nbytes)
    store m (curr + 4) nbytes
  else
    let leftover := (curr + nbytes) % addrSpace
    let m := store m prev leftover
    let m := store m leftover (mnext m curr)
    let m := store m (leftover + 4) (mlength m curr - nbytes)
    let m := store m (memlist + 4) (mlength m memlist + addrSpace - nbytes)
    store m (curr + 4) nbytes

/-- `getmem(nbytes)` by a process whose `prheaphd` is `hdptr`, with the tracking routine it
calls as a parameter. -/
def getmemWith (meminsert : Nat → Nat → Heap → Option Heap) (hdptr nbytes : Nat) (h : Heap) :
    Option (Heap × Nat) :=
  if nbytes = 0 then some (h, sysErrPtr)
  else do
    let (prev, curr) ←
      getmemSearch h.mem (roundmb nbytes) walkBound h.memlist (mnext h.mem h.memlist)
    if curr = 0 then return (h, sysErrPtr)
    let h := { h with mem := getmemTake h.mem h.memlist (roundmb nbytes) prev curr }
    let h ← if h.memblockkflag ≠ 1 then meminsert hdptr curr h else some h
    return ({ h with memblockkflag := 0 }, curr)

/-- The call of `getmem` inside `meminsert`, made with `memblockkflag` set. -/
def getmemInner (hdptr nbytes : Nat) (h : Heap) : Option (Heap × Nat) :=
  getmemWith (fun _ _ _ => none) hdptr nbytes h

/-- **With the flag set, the callee is not reached**, so cutting the recursion there is what
the code does. -/
theorem getmemWith_of_flag (f g : Nat → Nat → Heap → Option Heap) (hdptr nbytes : Nat)
    {h : Heap} (hf : h.memblockkflag = 1) :
    getmemWith f hdptr nbytes h = getmemWith g hdptr nbytes h := by
  simp [getmemWith, hf]

/-- `meminsert(hdptr, memptr)`: allocate a node for the block at `memptr` and put it at the
front of the list.  The result of the allocation is compared with `NULL` only (and nothing is
done about it), so a failed allocation, `SYSERR`, is used as the address of the node. -/
def meminsert (hdptr memptr : Nat) (h : Heap) : Option Heap := do
  let h := { h with memblockkflag := 1 }
  let (h, newnode) ← getmemInner hdptr inuseSize h
  let m := store h.mem newnode memptr
  let m := store m (newnode + 4) (mlength m memptr)
  let m := store m (newnode + 8) 0
  if inuseNext m hdptr = 0 then
    return { h with mem := store m (hdptr + 8) newnode }
  let m := store m (newnode + 8) (inuseNext m hdptr)
  return { h with mem := store m (hdptr + 8) newnode }

/-- `getmem(nbytes)`. -/
def getmem (hdptr nbytes : Nat) (h : Heap) : Option (Heap × Nat) :=
  getmemWith meminsert hdptr nbytes h

/-! ## 3. `memextract` and `freemem` -/

/-- The search loop of `memextract`: the first node that records `ptr` and the node before it.
A node `0` means the list ended. -/
def memextractSearch (m : Mem) (ptr : Nat) : Nat → Nat → Nat → Option (Nat × Nat)
  | 0, _, _ => none
  | fuel + 1, usedprev, usedcurr =>
    if usedcurr = 0 then some (usedprev, 0)
    else if memblockptr m usedcurr = ptr then some (usedprev, usedcurr)
    else memextractSearch m ptr fuel usedcurr (inuseNext m usedcurr)

/-- `memextract(hdptr, memptr)`: unlink the node found.  When none is found `usedcurr` is
`NULL` and its `mnext` is the word at address 8. -/
def memextract (hdptr memptr : Nat) (m : Mem) : Option Mem := do
  let (usedprev, usedcurr) ← memextractSearch m memptr walkBound hdptr (inuseNext m hdptr)
  return store m (usedprev + 8) (inuseNext m usedcurr)

/-- The search loop of `freemem`: the last block below `block` (or `memlist`) and the block
after it. -/
def freememSearch (m : Mem) (block : Nat) : Nat → Nat → Nat → Option (Nat × Nat)
  | 0, _, _ => none
  | fuel + 1, prev, next =>
    if next ≠ 0 ∧ next < block then freememSearch m block fuel next (mnext m next)
    else some (prev, next)

/-- What `freemem` writes after the overlap test: merge with the block below or link a new
block, then merge with the block above. -/
def freememLink (m : Mem) (memlist block nbytes prev next top : Nat) : Mem :=
  let m := store m (memlist + 4) (mlength m memlist + nbytes)
  let (m, block) :=
    if top = block then (store m (prev + 4) (mlength m prev + nbytes), prev)
    else
      let m := store m block next
      let m := store m (block + 4) nbytes
      (store m prev block, block)
  if (block + mlength m block) % addrSpace = next then
    let m := store m (block + 4) (mlength m block + mlength m next)
    store m block (mnext m next)
  else m

/-- `freemem(blkaddr, nbytes)` by a process whose `prheaphd` is `hdptr`. -/
def freemem (hdptr blkaddr nbytes : Nat) (h : Heap) : Option (Heap × Int) :=
  if nbytes = 0 ∨ blkaddr < h.minheap ∨ blkaddr > h.maxheap then some (h, SYSERR)
  else do
    let nbytes := roundmb nbytes
    let block := blkaddr
    let m ← memextract hdptr block h.mem
    let h := { h with mem := m }
    let (prev, next) ← freememSearch m block walkBound h.memlist (mnext m h.memlist)
    let top := if prev = h.memlist then 0 else (prev + mlength m prev) % addrSpace
    if (prev ≠ h.memlist ∧ block < top) ∨ (next ≠ 0 ∧ (block + nbytes) % addrSpace > next) then
      return (h, SYSERR)
    return ({ h with mem := freememLink m h.memlist block nbytes prev next top }, OK)

/-- The macro `freestk(p, len)` of `memory.h`. -/
def freestk (hdptr p len : Nat) (h : Heap) : Option (Heap × Int) :=
  freemem hdptr ((p + addrSpace - roundmb len + 4) % addrSpace) (roundmb len) h

/-! ## 4. `getstk` -/

/-- The scan of `getstk`: the last block of at least `nbytes` bytes and the block before it,
starting from the best so far.  `fits = 0` means none was found. -/
def getstkScan (m : Mem) (nbytes : Nat) : Nat → Nat → Nat → Nat → Nat → Option (Nat × Nat)
  | 0, _, _, _, _ => none
  | fuel + 1, fitsprev, fits, prev, curr =>
    if curr = 0 then some (fitsprev, fits)
    else if mlength m curr ≥ nbytes then
      getstkScan m nbytes fuel prev curr curr (mnext m curr)
    else getstkScan m nbytes fuel fitsprev fits curr (mnext m curr)

/-- `getstk(nbytes)`: the highest word of a stack cut off the high end of the last block that
fits. -/
def getstk (nbytes : Nat) (h : Heap) : Option (Heap × Nat) :=
  if nbytes = 0 then some (h, sysErrPtr)
  else do
    let nbytes := roundmb nbytes
    let m := h.mem
    let (fitsprev, fits) ← getstkScan m nbytes walkBound 0 0 h.memlist (mnext m h.memlist)
    if fits = 0 then return (h, sysErrPtr)
    let (m, fits) :=
      if nbytes = mlength m fits then (store m fitsprev (mnext m fits), fits)
      else
        let m := store m (fits + 4) (mlength m fits - nbytes)
        (m, (fits + mlength m fits) % addrSpace)
    let m := store m (h.memlist + 4) (mlength m h.memlist + addrSpace - nbytes)
    return ({ h with mem := m }, (fits + nbytes + addrSpace - 4) % addrSpace)

end Xinu
