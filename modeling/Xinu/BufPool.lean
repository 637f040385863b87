/-
# Buffer pools (`mkbufpool.c`, `getbuf.c`, `freebuf.c`)

The free buffers of a pool are linked through their first words.  In a buffer that is out, the same
word is the number of its pool, in front of the bytes that its holder may use, and `freebuf` trusts
it.  A call of `getbuf` that had to wait takes its buffer long after it looked at the pool.

What all of this rests on is one invariant (`Right`): the free list and the buffers that are out
are the buffers that were carved, the words in front of those that are out are right, and the
semaphore counts the free list, for those who come and for those it has let through.

The pools are taken with `getmem` and the semaphores as they are specified: a block of memory that
nobody has, and counting semaphores.  So the steps are those of `mkbufpool`, `getbuf` and
`freebuf` between kernel calls, and a ledger beside the state remembers which buffers were carved
for each pool and which of them are out.
-/
import Xinu.Kernel
import Xinu.Lib.ByteMemory
import Xinu.Lib.Chains
import Xinu.Lib.Counting
import Xinu.Lib.Runs

namespace Xinu.BufPool

open ByteMemory Chains Counting Runs

/-! ## 1. The pools

The code on a memory of bytes and the table of pools.  A call of `getbuf` is two steps, up to its
wait and behind it, and between them any other call may come. -/

/-- `NBPOOLS`, `BP_MAXB`, `BP_MINB` and `BP_MAXN` of `bufpool.h`. -/
def NBPOOLS : Int := 20
def BP_MAXB : Int := 8192
def BP_MINB : Int := 8
def BP_MAXN : Int := 2048

/-- `struct bpentry`. -/
structure Bpentry where
  bpnext : Nat
  bpsem : Turnstile
  bpsize : Nat

/-- The table, the memory, and the blocks that `mkbufpool` gave to `freemem`, with their sizes. -/
structure Pools where
  buftab : Int → Bpentry
  nbpools : Int
  mem : Mem
  freed : List (Nat × Nat)

/-- After `bufinit`. -/
def start (mem : Mem) : Pools := ⟨fun _ => ⟨0, ⟨0, 0⟩, 0⟩, 0, mem, []⟩

/-- `poolid` is the number of a pool. -/
def Pools.Made (s : Pools) (poolid : Int) : Prop := 0 ≤ poolid ∧ poolid < s.nbpools

/-- `(bufsiz + 3) & (~3)`. -/
def roundBuf (bufsiz : Int) : Nat := (bufsiz.toNat + 3) / 4 * 4

/-- The loop of `mkbufpool` that links the buffers, and the null pointer behind them. -/
def linkBuffers (bufsiz : Nat) : Nat → Nat → Mem → Mem
  | 0, buf, m => store m buf 0
  | numbufs + 1, buf, m => linkBuffers bufsiz numbufs (buf + bufsiz) (store m buf (buf + bufsiz))

/-- The entry and the links of a new pool. -/
def addPool (bufsiz numbufs : Int) (buf : Nat) (s : Pools) : Pools :=
  { s with
    buftab := Function.update s.buftab s.nbpools ⟨buf, ⟨numbufs, 0⟩, roundBuf bufsiz⟩
    nbpools := s.nbpools + 1
    mem := linkBuffers (roundBuf bufsiz + 4) (numbufs.toNat - 1) buf s.mem }

/-- There is no semaphore: the entry is written already, but its number is not given out.  Its
`bpsem`, which is `SYSERR` now, is overwritten before anyone looks at it. -/
def giveUp (bufsiz numbufs : Int) (buf : Nat) (s : Pools) : Pools :=
  { s with
    buftab := Function.update s.buftab s.nbpools
      { s.buftab s.nbpools with bpnext := buf, bpsize := roundBuf bufsiz }
    freed := (buf, numbufs.toNat * (roundBuf bufsiz + 4)) :: s.freed }

/-- `mkbufpool(bufsiz, numbufs)`, where `getmem` returns `buf`, and `sem` says whether `semcreate`
has a semaphore left. -/
def mkbufpool (bufsiz numbufs : Int) (buf : Nat) (sem : Bool) (s : Pools) : Pools × Int :=
  if bufsiz < BP_MINB ∨ bufsiz > BP_MAXB ∨ numbufs < 1 ∨ numbufs > BP_MAXN ∨
      s.nbpools ≥ NBPOOLS then (s, SYSERR)
  else if buf = sysErrPtr then (s, SYSERR)
  else if sem then (addPool bufsiz numbufs buf s, s.nbpools)
  else (giveUp bufsiz numbufs buf s, SYSERR)

/-- `getbuf(poolid)` up to its `wait`. -/
def getbuf (poolid : Int) (s : Pools) : Pools :=
  if poolid < 0 ∨ poolid ≥ s.nbpools then s
  else
    { s with
      buftab := Function.update s.buftab poolid
        { s.buftab poolid with bpsem := (s.buftab poolid).bpsem.wait } }

/-- A call of `getbuf` that was let through unlinks the first buffer and records the pool in it. -/
def unlinkBuf (poolid : Int) (s : Pools) : Pools :=
  { s with
    buftab := Function.update s.buftab poolid
      { s.buftab poolid with
        bpnext := load s.mem (s.buftab poolid).bpnext
        bpsem := (s.buftab poolid).bpsem.goOn }
    mem := store s.mem (s.buftab poolid).bpnext poolid.toNat }

/-- `freebuf(bufaddr)`. -/
def freebuf (bufaddr : Nat) (s : Pools) : Pools × Int :=
  let buf := (bufaddr + addrSpace - 4) % addrSpace
  let poolid := int32 (load s.mem buf)
  if poolid < 0 ∨ poolid ≥ s.nbpools then (s, SYSERR)
  else
    ({ s with
      buftab := Function.update s.buftab poolid
        { s.buftab poolid with bpnext := buf, bpsem := (s.buftab poolid).bpsem.signal 1 }
      mem := store s.mem buf (s.buftab poolid).bpnext }, OK)

/-- What happens next. -/
inductive Event
  | mkbufpool (bufsiz numbufs : Int) (buf : Nat) (sem : Bool)
  /-- A call of `getbuf` comes as far as `wait`. -/
  | getbuf (poolid : Int)
  /-- One that was let through goes on. -/
  | goOn (poolid : Int)
  | freebuf (bufaddr : Nat)
  /-- Some process writes a byte. -/
  | write (addr : Nat) (byte : UInt8)

def step (s : Pools) : Event → Option Pools
  | .mkbufpool bufsiz numbufs buf sem => some (mkbufpool bufsiz numbufs buf sem s).1
  | .getbuf poolid => some (getbuf poolid s)
  | .goOn poolid => if 0 < (s.buftab poolid).bpsem.through then some (unlinkBuf poolid s) else none
  | .freebuf bufaddr => some (freebuf bufaddr s).1
  | .write addr byte => some { s with mem := Function.update s.mem addr byte }

/-! ## 2. Who has what

The ledger is kept by an observer of the calls; it never looks at the links.  Proper callers give
back what they have and write only behind the first word of what they have. -/

/-- The buffers of a block, by the addresses of their first words. -/
def carve (bufsiz : Nat) : Nat → Nat → List Nat
  | 0, _ => []
  | numbufs + 1, buf => buf :: carve bufsiz numbufs (buf + bufsiz)

/-- The buffers that each pool was carved into, and those that are out, each with the pool that it
was taken from. -/
structure Ledger where
  bufs : Int → List Nat
  held : List (Nat × Int)

def emptyLedger : Ledger := ⟨fun _ => [], []⟩

/-- The buffers of a pool that are out. -/
def Ledger.out (l : Ledger) (poolid : Int) : List Nat :=
  (l.held.filter fun x => x.2 = poolid).map Prod.fst

/-- The ledger after an event. -/
def see (s : Pools) (e : Event) (_ : Pools) (l : Ledger) : Ledger :=
  match e with
  | .mkbufpool bufsiz numbufs buf sem =>
    if (mkbufpool bufsiz numbufs buf sem s).2 = SYSERR then l
    else
      { l with
        bufs := Function.update l.bufs s.nbpools
          (carve (roundBuf bufsiz + 4) numbufs.toNat buf) }
  | .goOn poolid => { l with held := ((s.buftab poolid).bpnext, poolid) :: l.held }
  | .freebuf bufaddr => { l with held := l.held.eraseP fun x => x.1 + 4 = bufaddr }
  | _ => l

/-- The block is in memory, and no part of it belongs to a buffer. -/
def Fresh (s : Pools) (l : Ledger) (buf nbytes : Nat) : Prop :=
  0 < buf ∧ buf + nbytes ≤ addrSpace ∧ ∀ p, s.Made p → ∀ b ∈ l.bufs p,
    b + ((s.buftab p).bpsize + 4) ≤ buf ∨ buf + nbytes ≤ b

/-- `getmem` returns what is free, who gives a buffer back has it, and of the buffers only those
that are out are written, behind their first words. -/
def Proper (x : Pools × Ledger) : Event → Prop
  | .mkbufpool bufsiz numbufs buf _ =>
    buf = sysErrPtr ∨ Fresh x.1 x.2 buf (numbufs.toNat * (roundBuf bufsiz + 4))
  | .freebuf bufaddr => ∃ y ∈ x.2.held, bufaddr = y.1 + 4
  | .write addr _ => ∀ p, x.1.Made p → ∀ b ∈ x.2.bufs p,
      b ≤ addr → addr < b + ((x.1.buftab p).bpsize + 4) → (b, p) ∈ x.2.held ∧ b + 4 ≤ addr
  | _ => True

/-- The runs of the pools with their ledger. -/
abbrev PoolReach (mem : Mem) (x : Pools × Ledger) : Prop :=
  Reaches (watch step see) Proper (start mem, emptyLedger) x

/-! ## 3. Carving a block

The buffers of a pool lie one behind the other in the block, so the loop that links them writes
each first word once, and the links lead through them in order. -/

variable {bufsiz numbufs buf b c : Nat} {m : Mem}

theorem length_carve (bufsiz numbufs buf : Nat) : (carve bufsiz numbufs buf).length = numbufs := by
  induction numbufs generalizing buf with
  | zero => rfl
  | succ numbufs ih => rw [carve, List.length_cons, ih]

/-- Every buffer is inside the block. -/
theorem carve_inside (h : b ∈ carve bufsiz numbufs buf) :
    buf ≤ b ∧ b + bufsiz ≤ buf + numbufs * bufsiz := by
  induction numbufs generalizing buf with
  | zero => exact absurd h List.not_mem_nil
  | succ numbufs ih =>
    rw [Nat.succ_mul]
    rcases List.mem_cons.mp h with rfl | h
    · exact ⟨le_rfl, by omega⟩
    · obtain ⟨h1, h2⟩ := ih h
      exact ⟨by omega, by omega⟩

/-- The buffers are disjoint. -/
theorem carve_apart (hb : b ∈ carve bufsiz numbufs buf) (hc : c ∈ carve bufsiz numbufs buf) :
    b = c ∨ b + bufsiz ≤ c ∨ c + bufsiz ≤ b := by
  induction numbufs generalizing buf with
  | zero => exact absurd hb List.not_mem_nil
  | succ numbufs ih =>
    rcases List.mem_cons.mp hb with rfl | hb
    · rcases List.mem_cons.mp hc with rfl | hc
      · exact .inl rfl
      · exact .inr (.inl (carve_inside hc).1)
    · rcases List.mem_cons.mp hc with rfl | hc
      · exact .inr (.inr (carve_inside hb).1)
      · exact ih hb hc

theorem nodup_carve (hsize : 0 < bufsiz) (numbufs buf : Nat) :
    (carve bufsiz numbufs buf).Nodup := by
  induction numbufs generalizing buf with
  | zero => exact List.nodup_nil
  | succ numbufs ih =>
    refine List.nodup_cons.mpr ⟨fun h => ?_, ih _⟩
    have := (carve_inside h).1
    omega

/-- They lie in the block one after the other. -/
theorem pairwise_carve (bufsiz numbufs buf : Nat) :
    (carve bufsiz numbufs buf).Pairwise fun b c => b + bufsiz ≤ c := by
  induction numbufs generalizing buf with
  | zero => exact List.Pairwise.nil
  | succ numbufs ih => exact List.pairwise_cons.mpr ⟨fun c hc => (carve_inside hc).1, ih _⟩

/-- The loop writes in the block only. -/
theorem linkBuffers_frame (hsize : 4 ≤ bufsiz)
    (hend : buf + (numbufs + 1) * bufsiz ≤ addrSpace) {y : Nat}
    (hy : y < buf ∨ buf + (numbufs + 1) * bufsiz ≤ y) :
    linkBuffers bufsiz numbufs buf m y = m y := by
  induction numbufs generalizing buf m with
  | zero =>
    rw [linkBuffers]
    exact store_apply_of_outside (by omega) (by omega)
  | succ numbufs ih =>
    rw [Nat.succ_mul] at hend hy
    have hpos : bufsiz ≤ (numbufs + 1) * bufsiz := Nat.le_mul_of_pos_left _ (Nat.succ_pos _)
    rw [linkBuffers, ih (by omega) (by omega)]
    exact store_apply_of_outside (by omega) (by omega)

/-- **The loop links all buffers.** -/
theorem linkBuffers_walk (hsize : 4 ≤ bufsiz) (hend : buf + (numbufs + 1) * bufsiz ≤ addrSpace) :
    Walk (load (linkBuffers bufsiz numbufs buf m)) buf (carve bufsiz (numbufs + 1) buf) 0 := by
  induction numbufs generalizing buf m with
  | zero =>
    refine ⟨rfl, ?_⟩
    show load (store m buf 0) buf = 0
    rw [load_store_same]
    rfl
  | succ numbufs ih =>
    rw [Nat.succ_mul] at hend
    have hpos : bufsiz ≤ (numbufs + 1) * bufsiz := Nat.le_mul_of_pos_left _ (Nat.succ_pos _)
    have hnext : load (linkBuffers bufsiz (numbufs + 1) buf m) buf = buf + bufsiz := by
      rw [linkBuffers, load_congr (m := store m buf (buf + bufsiz)) (by omega) fun y h1 h2 =>
        linkBuffers_frame hsize (by omega) (by omega), load_store_same]
      exact Nat.mod_eq_of_lt (by omega)
    refine ⟨rfl, ?_⟩
    rw [hnext]
    exact ih (by omega)

/-! ## 4. What is kept

The invariant relates the ledger and the memory.  Its consequences are read off once here: what is
free is not out, the first words of two buffers are apart, and writing one of them changes no
other. -/

/-- Where the buffers of all pools are. -/
structure Layout (made : Int → Prop) (size : Int → Nat) (bufs : Int → List Nat) : Prop where
  placed : ∀ p, made p → ∀ b ∈ bufs p, 0 < b ∧ b + (size p + 4) ≤ addrSpace
  apart : ∀ p q, made p → made q → ∀ b ∈ bufs p, ∀ c ∈ bufs q,
    p = q ∧ b = c ∨ b + (size p + 4) ≤ c ∨ c + (size q + 4) ≤ b
  nodup : ∀ p, made p → (bufs p).Nodup

/-- The ledger is right about the pools, with `free` the buffers on the free list of each. -/
structure Right (s : Pools) (l : Ledger) (free : Int → List Nat) : Prop where
  few : 0 ≤ s.nbpools ∧ s.nbpools ≤ NBPOOLS
  idle : ∀ p, ¬s.Made p → (s.buftab p).bpsem.through = 0
  layout : Layout s.Made (fun p => (s.buftab p).bpsize) l.bufs
  tagged : ∀ x ∈ l.held, s.Made x.2 ∧ load s.mem x.1 = x.2.toNat
  chain : ∀ p, s.Made p → Walk (load s.mem) (s.buftab p).bpnext (free p) 0
  whole : ∀ p, s.Made p → (free p ++ l.out p).Perm (l.bufs p)
  counted : ∀ p, s.Made p → (s.buftab p).bpsem.room = (free p).length

variable {s s' : Pools} {l : Ledger} {free : Int → List Nat} {p q : Int} {x : Nat × Int}

theorem mem_out : b ∈ l.out p ↔ (b, p) ∈ l.held := by
  simp [Ledger.out]

theorem Right.free_mem (h : Right s l free) (hp : s.Made p) (hb : b ∈ free p) : b ∈ l.bufs p :=
  (h.whole p hp).subset (List.mem_append_left _ hb)

theorem Right.out_mem (h : Right s l free) (hp : s.Made p) (hb : b ∈ l.out p) : b ∈ l.bufs p :=
  (h.whole p hp).subset (List.mem_append_right _ hb)

theorem Right.held_mem (h : Right s l free) (hx : x ∈ l.held) : x.1 ∈ l.bufs x.2 :=
  h.out_mem (h.tagged x hx).1 (mem_out.mpr hx)

theorem Right.nbpools_ne (h : Right s l free) : ¬s.nbpools = SYSERR := by
  intro he
  have h0 := h.few.1
  rw [he] at h0
  exact absurd h0 (by decide)

/-- No buffer is free and out, or out twice. -/
theorem Right.nodup (h : Right s l free) (hp : s.Made p) : (free p ++ l.out p).Nodup :=
  (h.whole p hp).nodup_iff.mpr (h.layout.nodup p hp)

/-- The first word of a buffer is written: those of the others are as they were. -/
theorem Right.load_store (h : Right s l free) (hp : s.Made p) (hq : s.Made q) (hb : b ∈ l.bufs p)
    (hc : c ∈ l.bufs q) (hne : ¬(p = q ∧ b = c)) (v : Nat) :
    load (store s.mem b v) c = load s.mem c := by
  have h1 := (h.layout.placed p hp b hb).2
  have h2 := (h.layout.placed q hq c hc).2
  have h3 := (h.layout.apart p q hp hq b hb c hc).resolve_left hne
  exact load_store_of_apart (by omega) (by omega) (by omega)

/-- An entry changes, but no size does. -/
theorem Layout.update {made : Int → Prop} {t : Int → Bpentry} {bufs : Int → List Nat}
    (h : Layout made (fun q => (t q).bpsize) bufs) {e : Bpentry} (he : e.bpsize = (t p).bpsize) :
    Layout made (fun q => (Function.update t p e q).bpsize) bufs := by
  have hsize : (fun q => (Function.update t p e q).bpsize) = fun q => (t q).bpsize := by
    funext q
    by_cases hq : q = p
    · rw [hq, Function.update_self, he]
    · rw [Function.update_of_ne hq]
  rw [hsize]
  exact h

/-- In the beginning there are no pools. -/
theorem right_start (m : Mem) : Right (start m) emptyLedger fun _ => [] := by
  have hnone : ∀ p, ¬(start m).Made p := by
    intro p hp
    have h1 : p < 0 := hp.2
    have h2 := hp.1
    omega
  exact ⟨⟨le_refl (0 : Int), (by decide : (0 : Int) ≤ NBPOOLS)⟩, fun _ _ => rfl,
    ⟨fun p hp => absurd hp (hnone p), fun p _ hp => absurd hp (hnone p),
      fun p hp => absurd hp (hnone p)⟩,
    by simp [emptyLedger], fun p hp => absurd hp (hnone p), fun p hp => absurd hp (hnone p),
    fun p hp => absurd hp (hnone p)⟩

/-- The first words are as they were, and so are the pools. -/
theorem Right.frame (h : Right s l free) {m' : Mem}
    (hm : ∀ p, s.Made p → ∀ b ∈ l.bufs p, ∀ y, b ≤ y → y < b + 4 → m' y = s.mem y) :
    Right { s with mem := m' } l free := by
  have hword : ∀ p, s.Made p → ∀ b ∈ l.bufs p, load m' b = load s.mem b := by
    intro p hp b hb
    have := (h.layout.placed p hp b hb).2
    exact load_congr (by omega) (hm p hp b hb)
  refine ⟨h.few, h.idle, h.layout, fun x hx => ?_, fun p hp => ?_, h.whole, h.counted⟩
  · obtain ⟨hmade, htag⟩ := h.tagged x hx
    exact ⟨hmade, (hword x.2 hmade x.1 (h.held_mem hx)).trans htag⟩
  · exact (h.chain p hp).congr fun b hb => hword p hp b (h.free_mem hp hb)

/-! ## 5. What each call does

Every call changes one pool, and `Right.change` says what has to be shown about that pool.  The
others need only that none of their free buffers is written. -/

/-- **One pool changes.**  The others are as they were when none of their free buffers is written
and what is out of them is out still. -/
theorem Right.change (h : Right s l free) (hp : s.Made p) {e : Bpentry} {m' : Mem}
    {held' : List (Nat × Int)} {ys : List Nat} (hsize : e.bpsize = (s.buftab p).bpsize)
    (htags : ∀ x ∈ held', s.Made x.2 ∧ load m' x.1 = x.2.toNat)
    (hchain : Walk (load m') e.bpnext ys 0)
    (hothers : ∀ q, s.Made q → q ≠ p → ∀ c ∈ free q, load m' c = load s.mem c)
    (hwhole : (ys ++ ({ l with held := held' } : Ledger).out p).Perm (l.bufs p))
    (hout : ∀ q, q ≠ p → (({ l with held := held' } : Ledger).out q).Perm (l.out q))
    (hcount : e.bpsem.room = ys.length) :
    Right { s with buftab := Function.update s.buftab p e, mem := m' } { l with held := held' }
      (Function.update free p ys) := by
  refine ⟨h.few, fun q hq => ?_, h.layout.update hsize, htags, fun q hq => ?_, fun q hq => ?_,
    fun q hq => ?_⟩
  · have hne : q ≠ p := fun he => hq (he ▸ hp)
    simp only [Function.update_of_ne hne]
    exact h.idle q hq
  · by_cases hqp : q = p
    · subst hqp
      simp only [Function.update_self]
      exact hchain
    · simp only [Function.update_of_ne hqp]
      exact (h.chain q hq).congr (hothers q hq hqp)
  · by_cases hqp : q = p
    · subst hqp
      rw [Function.update_self]
      exact hwhole
    · rw [Function.update_of_ne hqp]
      exact ((hout q hqp).append_left (free q)).trans (h.whole q hq)
  · by_cases hqp : q = p
    · subst hqp
      simp only [Function.update_self]
      exact hcount
    · simp only [Function.update_of_ne hqp]
      exact h.counted q hq

/-- **`getbuf` as far as `wait`** promises nothing away. -/
theorem Right.getbuf (h : Right s l free) (p : Int) : Right (getbuf p s) l free := by
  rw [BufPool.getbuf]
  split_ifs with hbad
  · exact h
  have hp : s.Made p := by
    obtain ⟨h1, h2⟩ := not_or.mp hbad
    exact ⟨not_lt.mp h1, not_le.mp h2⟩
  have hsame : Right
      { s with
        buftab := Function.update s.buftab p
          { s.buftab p with bpsem := (s.buftab p).bpsem.wait } }
      l (Function.update free p (free p)) :=
    h.change hp rfl h.tagged (h.chain p hp) (fun _ _ _ _ _ => rfl) (h.whole p hp)
      (fun _ _ => .refl _) ((Turnstile.room_wait _).trans (h.counted p hp))
  rwa [Function.update_eq_self] at hsame

/-- **There is a buffer for whoever was let through.** -/
theorem Right.first (h : Right s l free) (hlet : 0 < (s.buftab p).bpsem.through) :
    s.Made p ∧ ∃ rest, free p = (s.buftab p).bpnext :: rest := by
  have hp : s.Made p := by
    by_contra hp
    have := h.idle p hp
    omega
  refine ⟨hp, ?_⟩
  have hwalk := h.chain p hp
  have hroom := h.counted p hp
  cases hfree : free p with
  | nil =>
    rw [hfree, List.length_nil, Turnstile.room] at hroom
    omega
  | cons b rest =>
    rw [hfree] at hwalk
    exact ⟨rest, by rw [hwalk.1]⟩

theorem out_cons (l : Ledger) (b : Nat) (p q : Int) :
    ({ l with held := (b, p) :: l.held } : Ledger).out q =
      if p = q then b :: l.out q else l.out q := by
  rw [Ledger.out, Ledger.out, List.filter_cons]
  split_ifs with h1 h2 h3
  · rfl
  · exact absurd (by simpa using h1) h2
  · exact absurd (by simpa using h3) h1
  · rfl

/-- **A buffer is taken.** -/
theorem Right.unlinkBuf (h : Right s l free) (hlet : 0 < (s.buftab p).bpsem.through) :
    ∃ free', Right (unlinkBuf p s) { l with held := ((s.buftab p).bpnext, p) :: l.held } free' := by
  obtain ⟨hp, rest, hfree⟩ := h.first hlet
  set b := (s.buftab p).bpnext with hbdef
  have hb : b ∈ l.bufs p := h.free_mem hp (by rw [hfree]; exact List.mem_cons_self)
  have hnd := h.nodup hp
  rw [hfree, List.cons_append, List.nodup_cons] at hnd
  obtain ⟨hnew, hnd⟩ := hnd
  have hwalk := h.chain p hp
  rw [hfree] at hwalk
  have hroom := h.counted p hp
  rw [hfree, List.length_cons] at hroom
  refine ⟨Function.update free p rest, h.change hp rfl (fun x hx => ?_) ?_
    (fun q hq hqp c hc => ?_) ?_ (fun q hqp => ?_) ?_⟩
  · rcases List.mem_cons.mp hx with rfl | hold
    · refine ⟨hp, ?_⟩
      have h1 := hp.2
      have h2 := h.few.2
      have h3 : NBPOOLS = 20 := rfl
      rw [← hbdef, load_store_same]
      exact Nat.mod_eq_of_lt (by simp only [addrSpace]; omega)
    · obtain ⟨hmade, htag⟩ := h.tagged x hold
      refine ⟨hmade, (h.load_store hp hmade hb (h.held_mem hold) ?_ _).trans htag⟩
      rintro ⟨rfl, hbx⟩
      refine hnew (List.mem_append_right _ (mem_out.mpr ?_))
      rw [hbx]
      exact hold
  · refine hwalk.2.congr fun c hc => h.load_store hp hp hb
      (h.free_mem hp (hfree ▸ List.mem_cons_of_mem _ hc)) (fun he => ?_) _
    exact hnew (List.mem_append_left _ (he.2 ▸ hc))
  · exact h.load_store hp hq hb (h.free_mem hq hc) (fun he => hqp he.1.symm) _
  · rw [out_cons, if_pos rfl]
    refine List.perm_middle.trans ?_
    rw [← List.cons_append, ← hfree]
    exact h.whole p hp
  · rw [out_cons, if_neg (Ne.symm hqp)]
  · rw [Turnstile.room_goOn hlet, hroom]
    push_cast
    omega

/-- The first buffer of a pool, or the null pointer, is an address. -/
theorem Right.bpnext_lt (h : Right s l free) (hp : s.Made p) :
    (s.buftab p).bpnext < addrSpace := by
  have hwalk := h.chain p hp
  cases hfree : free p with
  | nil =>
    rw [hfree] at hwalk
    have hnull : (s.buftab p).bpnext = 0 := hwalk
    rw [hnull]
    decide
  | cons b rest =>
    rw [hfree] at hwalk
    have := (h.layout.placed p hp b (h.free_mem hp (by rw [hfree]; exact List.mem_cons_self))).2
    rw [hwalk.1]
    omega

/-- What `freebuf` does with a buffer that is out. -/
theorem Right.freebuf_eq (h : Right s l free) (hx : x ∈ l.held) : freebuf (x.1 + 4) s =
    ({ s with
      buftab := Function.update s.buftab x.2
        { s.buftab x.2 with bpnext := x.1, bpsem := (s.buftab x.2).bpsem.signal 1 }
      mem := store s.mem x.1 (s.buftab x.2).bpnext }, OK) := by
  obtain ⟨hmade, htag⟩ := h.tagged x hx
  have hspace := (h.layout.placed x.2 hmade x.1 (h.held_mem hx)).2
  have hbuf : (x.1 + 4 + addrSpace - 4) % addrSpace = x.1 := by
    simp only [addrSpace] at hspace ⊢
    omega
  have h1 := hmade.1
  have h2 := hmade.2
  have h3 := h.few.2
  have h4 : NBPOOLS = 20 := rfl
  have hpool : int32 (load s.mem x.1) = x.2 := by
    rw [htag, Int.toNat_of_nonneg h1]
    exact int32_eq (by omega) (by omega)
  rw [freebuf]
  simp only [hbuf, hpool]
  rw [if_neg (by omega)]

/-- **A buffer comes back.** -/
theorem Right.freebuf (h : Right s l free) (hx : x ∈ l.held) {held' : List (Nat × Int)}
    (hperm : l.held.Perm (x :: held')) :
    ∃ free', Right (freebuf (x.1 + 4) s).1 { l with held := held' } free' := by
  obtain ⟨b, p⟩ := x
  have hp := (h.tagged _ hx).1
  have hb : b ∈ l.bufs p := h.held_mem hx
  simp only at hp
  have hnext := h.bpnext_lt hp
  have hout : ∀ q, (l.out q).Perm (if p = q then b :: ({ l with held := held' } : Ledger).out q
      else ({ l with held := held' } : Ledger).out q) := by
    intro q
    rw [← out_cons]
    exact (hperm.filter _).map _
  have hnd := h.nodup hp
  have hnd' := ((hout p).append_left (free p)).nodup_iff.mp hnd
  rw [if_pos rfl] at hnd'
  obtain ⟨-, hcons, hdisj⟩ := List.nodup_append.mp hnd'
  have hbfree : b ∉ free p := fun hmem => hdisj b hmem b List.mem_cons_self rfl
  refine ⟨Function.update free p (b :: free p), ?_⟩
  rw [h.freebuf_eq hx]
  refine h.change hp rfl (fun x hx' => ?_) ⟨rfl, ?_⟩ (fun q hq hqp c hc => ?_) ?_
    (fun q hqp => ?_) ?_
  · have hold : x ∈ l.held := hperm.symm.subset (List.mem_cons_of_mem _ hx')
    obtain ⟨hmade, htag⟩ := h.tagged x hold
    refine ⟨hmade, (h.load_store hp hmade hb (h.held_mem hold) ?_ _).trans htag⟩
    rintro ⟨rfl, rfl⟩
    exact (List.nodup_cons.mp hcons).1 (mem_out.mpr hx')
  · rw [load_store_same, Nat.mod_eq_of_lt hnext]
    exact (h.chain p hp).congr fun c hc => h.load_store hp hp hb (h.free_mem hp hc)
      (fun he => hbfree (he.2 ▸ hc)) _
  · exact h.load_store hp hq hb (h.free_mem hq hc) (fun he => hqp he.1.symm) _
  · have hp' := (hout p).append_left (free p)
    rw [if_pos rfl] at hp'
    exact (List.perm_middle.symm.trans hp'.symm).trans (h.whole p hp)
  · have hq' := hout q
    rw [if_neg (Ne.symm hqp)] at hq'
    exact hq'.symm
  · rw [Turnstile.room_signal, h.counted p hp, List.length_cons]
    push_cast
    rfl

/-- The arguments that `mkbufpool` accepts. -/
def Accepted (bufsiz numbufs : Int) (s : Pools) : Prop :=
  BP_MINB ≤ bufsiz ∧ bufsiz ≤ BP_MAXB ∧ 1 ≤ numbufs ∧ numbufs ≤ BP_MAXN ∧ s.nbpools < NBPOOLS

variable {size count : Int} {sem : Bool}

/-- What `mkbufpool` comes to. -/
theorem mkbufpool_cases (size count : Int) (buf : Nat) (sem : Bool) (s : Pools) :
    mkbufpool size count buf sem s = (s, SYSERR) ∧ (Accepted size count s → buf = sysErrPtr) ∨
    Accepted size count s ∧ buf ≠ sysErrPtr ∧
      (mkbufpool size count buf sem s = (addPool size count buf s, s.nbpools) ∧ sem = true ∨
        mkbufpool size count buf sem s = (giveUp size count buf s, SYSERR) ∧ sem = false) := by
  rw [mkbufpool]
  split_ifs with hbad hbuf hsem
  · refine .inl ⟨rfl, fun hacc => ?_⟩
    obtain ⟨h1, h2, h3, h4, h5⟩ := hacc
    omega
  · exact .inl ⟨rfl, fun _ => hbuf⟩
  all_goals
    have hacc : Accepted size count s := by
      simp only [not_or, not_lt, not_le, ge_iff_le, gt_iff_lt] at hbad
      exact hbad
  · exact .inr ⟨hacc, hbuf, .inl ⟨rfl, hsem⟩⟩
  · exact .inr ⟨hacc, hbuf, .inr ⟨rfl, Bool.not_eq_true _ ▸ hsem⟩⟩

/-- **A pool that is given up** leaves the others alone. -/
theorem Right.giveUp (h : Right s l free) (size count : Int) (buf : Nat) :
    Right (giveUp size count buf s) l free := by
  have hne : ∀ p, s.Made p → p ≠ s.nbpools := fun p hp => ne_of_lt hp.2
  have hentry : ∀ p, s.Made p → (BufPool.giveUp size count buf s).buftab p = s.buftab p :=
    fun p hp => Function.update_of_ne (hne p hp) ..
  refine ⟨h.few, fun p hp => ?_, ⟨fun p hp b hb => ?_, fun p q hp hq b hb c hc => ?_,
    h.layout.nodup⟩, h.tagged, fun p hp => ?_, h.whole, fun p hp => ?_⟩
  · by_cases hpn : p = s.nbpools
    · subst hpn
      simp only [BufPool.giveUp, Function.update_self]
      exact h.idle _ hp
    · simp only [BufPool.giveUp, Function.update_of_ne hpn]
      exact h.idle p hp
  · rw [hentry p hp]
    exact h.layout.placed p hp b hb
  · rw [hentry p hp, hentry q hq]
    exact h.layout.apart p q hp hq b hb c hc
  · rw [hentry p hp]
    exact h.chain p hp
  · rw [hentry p hp]
    exact h.counted p hp

/-- With a new pool, the pools are that one and the ones that there were. -/
theorem addPool_made (hp : (addPool size count buf s).Made p) :
    p = s.nbpools ∨ p ≠ s.nbpools ∧ s.Made p := by
  have hlt : p < s.nbpools + 1 := hp.2
  by_cases hpn : p = s.nbpools
  · exact .inl hpn
  · exact .inr ⟨hpn, hp.1, by omega⟩

/-- Outside of its block nothing is written. -/
theorem addPool_frame {a : Nat} (hone : 1 ≤ count)
    (hend : buf + count.toNat * (roundBuf size + 4) ≤ addrSpace)
    (ha : a < buf ∨ buf + count.toNat * (roundBuf size + 4) ≤ a) :
    (addPool size count buf s).mem a = s.mem a := by
  obtain ⟨n, hn⟩ : ∃ n, count.toNat = n + 1 := ⟨count.toNat - 1, by omega⟩
  rw [hn] at hend ha
  rw [addPool, show count.toNat - 1 = n by omega]
  exact linkBuffers_frame (by omega) hend ha

/-- Its links lead through the buffers of the block. -/
theorem addPool_walk (hone : 1 ≤ count)
    (hend : buf + count.toNat * (roundBuf size + 4) ≤ addrSpace) :
    Walk (load (addPool size count buf s).mem) buf (carve (roundBuf size + 4) count.toNat buf)
      0 := by
  obtain ⟨n, hn⟩ : ∃ n, count.toNat = n + 1 := ⟨count.toNat - 1, by omega⟩
  rw [hn] at hend ⊢
  rw [addPool, show count.toNat - 1 = n by omega]
  exact linkBuffers_walk (by omega) hend

/-- The buffers of a block in memory that is fresh, and those that there were. -/
theorem Layout.addPool (h : Layout s.Made (fun p => (s.buftab p).bpsize) l.bufs)
    (hfresh : Fresh s l buf (count.toNat * (roundBuf size + 4))) :
    Layout (addPool size count buf s).Made
      (fun p => ((addPool size count buf s).buftab p).bpsize)
      (Function.update l.bufs s.nbpools (carve (roundBuf size + 4) count.toNat buf)) := by
  obtain ⟨hpos, hend, hapart⟩ := hfresh
  refine ⟨fun p hp b hb => ?_, fun p q hp hq b hb c hc => ?_, fun p hp => ?_⟩
  · rcases addPool_made hp with rfl | ⟨hpn, hp⟩
    · simp only [BufPool.addPool, Function.update_self] at hb ⊢
      have := carve_inside hb
      omega
    · simp only [BufPool.addPool, Function.update_of_ne hpn] at hb ⊢
      exact h.placed p hp b hb
  · rcases addPool_made hp with rfl | ⟨hpn, hp⟩ <;> rcases addPool_made hq with rfl | ⟨hqn, hq⟩
    · simp only [BufPool.addPool, Function.update_self] at hb hc ⊢
      rcases carve_apart hb hc with rfl | hne
      · exact .inl ⟨trivial, rfl⟩
      · exact .inr hne
    · simp only [BufPool.addPool, Function.update_self, Function.update_of_ne hqn] at hb hc ⊢
      have h1 := carve_inside hb
      have h2 := hapart q hq c hc
      omega
    · simp only [BufPool.addPool, Function.update_self, Function.update_of_ne hpn] at hb hc ⊢
      have h1 := carve_inside hc
      have h2 := hapart p hp b hb
      omega
    · simp only [BufPool.addPool, Function.update_of_ne hpn, Function.update_of_ne hqn]
        at hb hc ⊢
      exact h.apart p q hp hq b hb c hc
  · rcases addPool_made hp with rfl | ⟨hpn, hp⟩
    · simp only [Function.update_self]
      exact nodup_carve (by omega) _ _
    · simp only [Function.update_of_ne hpn]
      exact h.nodup p hp

/-- **A new pool** has all its buffers free. -/
theorem Right.addPool (h : Right s l free) (hacc : Accepted size count s)
    (hfresh : Fresh s l buf (count.toNat * (roundBuf size + 4))) :
    Right (addPool size count buf s)
      { l with
        bufs := Function.update l.bufs s.nbpools
          (carve (roundBuf size + 4) count.toNat buf) }
      (Function.update free s.nbpools (carve (roundBuf size + 4) count.toNat buf)) := by
  obtain ⟨-, -, hone, -, hroom⟩ := hacc
  have hlayout := h.layout.addPool hfresh
  obtain ⟨-, hend, hapart⟩ := hfresh
  -- the first words of the buffers that there were
  have hword : ∀ p, s.Made p → ∀ b ∈ l.bufs p,
      load (BufPool.addPool size count buf s).mem b = load s.mem b := by
    intro p hp b hb
    have h1 := hapart p hp b hb
    have h2 := (h.layout.placed p hp b hb).2
    exact load_congr (by omega) fun y h3 h4 => addPool_frame hone hend (by omega)
  have hfew := h.few
  refine ⟨⟨?_, ?_⟩, fun p hp => ?_, hlayout, fun x hx => ?_, fun p hp => ?_, fun p hp => ?_,
    fun p hp => ?_⟩
  · show 0 ≤ s.nbpools + 1
    omega
  · show s.nbpools + 1 ≤ NBPOOLS
    omega
  · have hpn : p ≠ s.nbpools := by
      rintro rfl
      exact hp ⟨hfew.1, Int.lt_succ _⟩
    simp only [BufPool.addPool, Function.update_of_ne hpn]
    exact h.idle p fun hold => hp ⟨hold.1, hold.2.trans (Int.lt_succ _)⟩
  · obtain ⟨hold, htag⟩ := h.tagged x hx
    exact ⟨⟨hold.1, hold.2.trans (Int.lt_succ _)⟩,
      (hword x.2 hold x.1 (h.held_mem hx)).trans htag⟩
  · rcases addPool_made hp with rfl | ⟨hpn, hp⟩
    · have hwalk := addPool_walk (s := s) hone hend
      simp only [BufPool.addPool, Function.update_self] at hwalk ⊢
      exact hwalk
    · have hentry : (BufPool.addPool size count buf s).buftab p = s.buftab p :=
        Function.update_of_ne hpn ..
      rw [hentry, Function.update_of_ne hpn]
      exact (h.chain p hp).congr fun b hb => hword p hp b (h.free_mem hp hb)
  · rcases addPool_made hp with rfl | ⟨hpn, hp⟩
    · have hnone : l.out s.nbpools = [] := by
        refine List.eq_nil_iff_forall_not_mem.mpr fun b hb => ?_
        exact absurd (h.tagged _ (mem_out.mp hb)).1.2 (lt_irrefl _)
      simp only [Function.update_self]
      show (_ ++ l.out s.nbpools).Perm _
      rw [hnone, List.append_nil]
    · simp only [Function.update_of_ne hpn]
      exact h.whole p hp
  · rcases addPool_made hp with rfl | ⟨hpn, hp⟩
    · simp only [BufPool.addPool, Function.update_self, Turnstile.room, length_carve]
      omega
    · simp only [BufPool.addPool, Function.update_of_ne hpn]
      exact h.counted p hp

/-- **`mkbufpool`**, whatever comes of it. -/
theorem Right.mkbufpool (h : Right s l free)
    (hfresh : buf = sysErrPtr ∨ Fresh s l buf (count.toNat * (roundBuf size + 4))) :
    ∃ free', Right (mkbufpool size count buf sem s).1
      (see s (.mkbufpool size count buf sem) (mkbufpool size count buf sem s).1 l) free' := by
  rw [see]
  rcases mkbufpool_cases size count buf sem s with ⟨heq, -⟩ |
    ⟨hacc, hbuf, ⟨heq, -⟩ | ⟨heq, -⟩⟩
  · rw [heq, if_pos rfl]
    exact ⟨free, h⟩
  · rw [heq, if_neg h.nbpools_ne]
    exact ⟨_, h.addPool hacc (hfresh.resolve_left hbuf)⟩
  · rw [heq, if_pos rfl]
    exact ⟨free, h.giveUp size count buf⟩

/-- Whoever gives a buffer back, the entry of that buffer goes. -/
theorem Right.freebuf_see (h : Right s l free) (hx : x ∈ l.held)
    (hs : (BufPool.freebuf (x.1 + 4) s).1 = s') :
    ∃ free', Right s' (see s (.freebuf (x.1 + 4)) s' l) free' := by
  obtain ⟨a, pre, post, -, ha, hl, heq⟩ :=
    List.exists_of_eraseP (p := fun y : Nat × Int => y.1 + 4 = x.1 + 4) hx (by simp)
  have haddr : a.1 = x.1 := by simpa using ha
  have hmem : a ∈ l.held := by rw [hl]; simp
  have hperm : l.held.Perm (a :: (pre ++ post)) := by
    rw [hl]
    exact List.perm_middle
  rw [see, heq, ← hs, ← haddr]
  exact h.freebuf hmem hperm

/-! ## 6. Runs

The step lemma collects the calls, and the results for users of pools follow from the invariant:
one owner for each buffer, what a new pool consists of, and that the contents of a buffer are its
holder's. -/

theorem PoolReach.next {x : Pools × Ledger} (hx : PoolReach m x) (e : Event) (hok : Proper x e)
    (hs : step x.1 e = some s) : PoolReach m (s, see x.1 e s x.2) :=
  hx.tail hok (watch_some.mpr ⟨s, hs, rfl⟩)

/-- What one step keeps. -/
theorem right_step {x y : Pools × Ledger} {e : Event} (h : ∃ free, Right x.1 x.2 free)
    (hok : Proper x e) (hs : watch step see x e = some y) : ∃ free, Right y.1 y.2 free := by
  obtain ⟨s, l⟩ := x
  obtain ⟨free, h⟩ := h
  obtain ⟨t, ht, rfl⟩ := watch_some.mp hs
  cases e with
  | mkbufpool size count buf sem =>
    obtain rfl := Option.some.inj ht
    exact h.mkbufpool hok
  | getbuf poolid =>
    obtain rfl := Option.some.inj ht
    exact ⟨free, h.getbuf poolid⟩
  | goOn poolid =>
    rw [step] at ht
    split_ifs at ht with hlet
    obtain rfl := Option.some.inj ht
    exact h.unlinkBuf hlet
  | freebuf bufaddr =>
    obtain ⟨y, hy, hbuf⟩ := hok
    have hcall : (freebuf bufaddr s).1 = t := Option.some.inj ht
    rw [hbuf] at hcall ⊢
    exact h.freebuf_see hy hcall
  | write addr byte =>
    obtain rfl := Option.some.inj ht
    refine ⟨free, h.frame fun p hp b hb y h1 h2 => Function.update_of_ne (fun hy => ?_) ..⟩
    subst hy
    have := (hok p hp b hb h1 (by omega)).2
    omega

/-- **The ledger is right in every run.** -/
theorem right_run (m : Mem) : ∀ x, PoolReach m x → ∃ free, Right x.1 x.2 free := fun _ hx =>
  hx.invariant (I := fun x => ∃ free, Right x.1 x.2 free) ⟨_, right_start m⟩ fun _ _ _ =>
    right_step

/-- What has one name belongs to one class, and no class has anything twice. -/
theorem nodup_of_classes {xs : List (Nat × Int)}
    (hone : ∀ x ∈ xs, ∀ y ∈ xs, x.1 = y.1 → x.2 = y.2)
    (hclass : ∀ p, ((xs.filter fun x => x.2 = p).map Prod.fst).Nodup) :
    (xs.map Prod.fst).Nodup := by
  induction xs with
  | nil => exact List.nodup_nil
  | cons x xs ih =>
    rw [List.map_cons, List.nodup_cons]
    refine ⟨fun hmem => ?_, ih (fun y hy z hz => hone y (List.mem_cons_of_mem _ hy) z
      (List.mem_cons_of_mem _ hz)) fun p => ?_⟩
    · obtain ⟨y, hy, heq⟩ := List.mem_map.mp hmem
      have hpool := hone y (List.mem_cons_of_mem _ hy) x List.mem_cons_self heq
      have hx := hclass x.2
      rw [List.filter_cons_of_pos (by simp), List.map_cons, List.nodup_cons] at hx
      refine hx.1 (heq ▸ List.mem_map_of_mem (List.mem_filter.mpr ⟨hy, ?_⟩))
      simpa using hpool
    · exact (((List.sublist_cons_self x xs).filter _).map _).nodup (hclass p)

theorem Right.held_nodup (h : Right s l free) : (l.held.map Prod.fst).Nodup := by
  refine nodup_of_classes (fun x hx y hy heq => ?_) fun p => ?_
  · have hmem := h.held_mem hy
    rcases h.layout.apart x.2 y.2 (h.tagged x hx).1 (h.tagged y hy).1 x.1 (h.held_mem hx) y.1 hmem
      with ⟨hpool, -⟩ | hfar | hfar
    · exact hpool
    · omega
    · omega
  · by_cases hp : s.Made p
    · exact (List.nodup_append.mp (h.nodup hp)).2.1
    · have hnone : l.out p = [] := by
        refine List.eq_nil_iff_forall_not_mem.mpr fun b hb => ?_
        exact hp (h.tagged _ (mem_out.mp hb)).1
      show (l.out p).Nodup
      rw [hnone]
      exact List.nodup_nil

/-- What a user of the pools may rely on. -/
structure Sound (s : Pools) (l : Ledger) : Prop where
  once : (l.held.map Prod.fst).Nodup
  home : ∀ x ∈ l.held, s.Made x.2 ∧ x.1 ∈ l.bufs x.2 ∧
    ∃ s', freebuf (x.1 + 4) s = (s', OK) ∧ (s'.buftab x.2).bpnext = x.1
  layout : Layout s.Made (fun p => (s.buftab p).bpsize) l.bufs
  lists : ∀ p, s.Made p → ∃ free, Walk (load s.mem) (s.buftab p).bpnext free 0 ∧
    (free ++ l.out p).Perm (l.bufs p) ∧
    (free.length : Int) = max (s.buftab p).bpsem.count 0 + (s.buftab p).bpsem.through
  serves : ∀ p, 0 < (s.buftab p).bpsem.through →
    s.Made p ∧ (s.buftab p).bpnext ∈ l.bufs p ∧ (s.buftab p).bpnext ∉ l.out p

/-- **Buffers have one owner.**  After every run of proper calls no buffer is out twice, each goes
back to the pool that it came from, the free list of a pool and its buffers that are out are the
buffers that it was carved into, and the list is as long as the semaphore says; so that whoever was
let through finds a buffer, which nobody has. -/
theorem pool_buffers (m : Mem) : ∀ x, PoolReach m x → Sound x.1 x.2 := by
  intro x hx
  obtain ⟨free, h⟩ := right_run m x hx
  refine ⟨h.held_nodup, fun y hy => ⟨(h.tagged y hy).1, h.held_mem hy, _, h.freebuf_eq hy, ?_⟩,
    h.layout, fun p hp => ⟨free p, h.chain p hp, h.whole p hp, (h.counted p hp).symm⟩,
    fun p hlet => ?_⟩
  · simp only [Function.update_self]
  · obtain ⟨hp, rest, hfree⟩ := h.first hlet
    have hmem : (x.1.buftab p).bpnext ∈ free p := by
      rw [hfree]
      exact List.mem_cons_self
    refine ⟨hp, h.free_mem hp hmem, fun hout => ?_⟩
    exact (List.nodup_append.mp (h.nodup hp)).2.2 _ hmem _ hout rfl

/-- The first pool, of buffers of 8 bytes, is made of a block at 0x1000. -/
theorem proper_first {numbufs : Int} (hend : 0x1000 + numbufs.toNat * 12 ≤ addrSpace) :
    Proper (start fun _ => 0, emptyLedger) (.mkbufpool 8 numbufs 0x1000 true) := by
  refine .inr ⟨by decide, hend, fun p hp => ?_⟩
  have h1 : p < 0 := hp.2
  have h2 := hp.1
  omega

/-- A pool of two buffers of 8 bytes, one of which is taken. -/
theorem pool_first : ∃ x, PoolReach (fun _ => 0) x ∧ x.2.held = [(0x1000, 0)] ∧
    (x.1.buftab 0).bpsize = 8 := by
  have hpool := PoolReach.next .refl (.mkbufpool 8 2 0x1000 true) (proper_first (by decide)) rfl
  have hcome := hpool.next (.getbuf 0) trivial rfl
  have hgo := hcome.next (.goOn 0) trivial rfl
  exact ⟨_, hgo, rfl, rfl⟩

theorem pool_buffers_first : ∃ x : Pools × Ledger, x.2.held = [(0x1000, 0)] ∧ Sound x.1 x.2 := by
  obtain ⟨x, hx, hheld, -⟩ := pool_first
  exact ⟨x, hheld, pool_buffers (fun _ => 0) x hx⟩

/-- **The pool `p` is new.**  From `bpnext` on the links in memory lead through `count` buffers to
the null pointer.  The buffers lie in the block one after the other, each with room for the number
of its pool and for `size` bytes, and the semaphore counts them. -/
structure NewPool (s : Pools) (p size count : Int) (buf nbytes : Nat) : Prop where
  room : size ≤ (s.buftab p).bpsize
  sem : (s.buftab p).bpsem = ⟨count, 0⟩
  chain : ∃ bufs, Walk (load s.mem) (s.buftab p).bpnext bufs 0 ∧ (bufs.length : Int) = count ∧
    (bufs.Pairwise fun b c => b + ((s.buftab p).bpsize + 4) ≤ c) ∧
    ∀ b ∈ bufs, buf ≤ b ∧ b + ((s.buftab p).bpsize + 4) ≤ buf + nbytes

/-- **The loop of `mkbufpool` makes such a pool** of a block in memory. -/
theorem addPool_new (s : Pools) (hone : 1 ≤ count)
    (hend : buf + count.toNat * (roundBuf size + 4) ≤ addrSpace) :
    NewPool (addPool size count buf s) s.nbpools size count buf
      (count.toNat * (roundBuf size + 4)) := by
  have hentry : (addPool size count buf s).buftab s.nbpools = ⟨buf, ⟨count, 0⟩, roundBuf size⟩ :=
    Function.update_self ..
  constructor
  · rw [hentry]
    dsimp only
    rw [roundBuf]
    omega
  · rw [hentry]
  · rw [hentry]
    refine ⟨_, addPool_walk hone hend, ?_, pairwise_carve _ _ _, fun b hb => carve_inside hb⟩
    rw [length_carve]
    omega

/-- **What `mkbufpool` comes to** when it accepts its arguments.  Whatever comes of it, the entries
of the pools that there are and all bytes outside the block are as they were.  With memory and a
semaphore there is a new pool, and its number is returned.  Otherwise there is none, nothing is
written to memory, and the block goes back if there was one. -/
theorem mkbufpool_carves (m : Mem) : ∀ x, PoolReach m x → ∀ size count buf sem,
    Accepted size count x.1 → Proper x (.mkbufpool size count buf sem) →
      ∃ s r, mkbufpool size count buf sem x.1 = (s, r) ∧
        (∀ p, x.1.Made p → s.buftab p = x.1.buftab p) ∧
        (∀ a, a < buf ∨ buf + count.toNat * (roundBuf size + 4) ≤ a → s.mem a = x.1.mem a) ∧
        if buf ≠ sysErrPtr ∧ sem = true then
          r = x.1.nbpools ∧ s.nbpools = r + 1 ∧ s.freed = x.1.freed ∧
            NewPool s r size count buf (count.toNat * (roundBuf size + 4))
        else
          r = SYSERR ∧ s.nbpools = x.1.nbpools ∧ s.mem = x.1.mem ∧
            s.freed = (if buf = sysErrPtr then x.1.freed
              else (buf, count.toNat * (roundBuf size + 4)) :: x.1.freed) := by
  intro x hx size count buf sem hacc hok
  have hother : ∀ {p}, x.1.Made p → p ≠ x.1.nbpools := fun hp => ne_of_lt hp.2
  rcases mkbufpool_cases size count buf sem x.1 with ⟨heq, hnone⟩ |
    ⟨-, hbuf, ⟨heq, hsem⟩ | ⟨heq, hsem⟩⟩
  · have hbuf := hnone hacc
    refine ⟨_, _, heq, fun _ _ => rfl, fun _ _ => rfl, ?_⟩
    rw [if_neg (fun h => h.1 hbuf), if_pos hbuf]
    exact ⟨rfl, rfl, rfl, rfl⟩
  · obtain ⟨-, hend, -⟩ := Or.resolve_left hok hbuf
    have hone := hacc.2.2.1
    refine ⟨_, _, heq, fun p hp => Function.update_of_ne (hother hp) _ _,
      fun a ha => addPool_frame hone hend ha, ?_⟩
    rw [if_pos ⟨hbuf, hsem⟩]
    exact ⟨rfl, rfl, rfl, addPool_new x.1 hone hend⟩
  · refine ⟨_, _, heq, fun p hp => Function.update_of_ne (hother hp) _ _, fun _ _ => rfl, ?_⟩
    rw [if_neg (fun h => absurd (h.2.symm.trans hsem) (by decide)), if_neg hbuf]
    exact ⟨rfl, rfl, rfl, rfl⟩

/-- The pool of two buffers at 0x1000. -/
theorem mkbufpool_carves_first : ∃ s r, mkbufpool 8 2 0x1000 true (start fun _ => 0) = (s, r) ∧
    NewPool s r 8 2 0x1000 24 := by
  have hacc : Accepted 8 2 (start fun _ => 0) := by
    refine ⟨?_, ?_, ?_, ?_, ?_⟩ <;> decide
  obtain ⟨s, r, heq, -, -, hmade⟩ :=
    mkbufpool_carves (fun _ => 0) _ .refl 8 2 0x1000 true hacc (proper_first (by decide))
  rw [if_pos ⟨by decide, rfl⟩] at hmade
  exact ⟨s, r, heq, hmade.2.2.2⟩

/-- The first word of a buffer is written: what is behind that of a buffer that is out stays. -/
theorem Right.store_apply (h : Right s l free) (hp : s.Made p) (hb : b ∈ l.bufs p)
    (hx : x ∈ l.held) {a : Nat} (h1 : x.1 + 4 ≤ a) (h2 : a < x.1 + ((s.buftab x.2).bpsize + 4))
    (v : Nat) : store s.mem b v a = s.mem a := by
  have hspace := (h.layout.placed p hp b hb).2
  refine store_apply_of_outside (by omega) ?_
  rcases h.layout.apart p x.2 hp (h.tagged x hx).1 b hb x.1 (h.held_mem hx)
    with ⟨-, rfl⟩ | hfar | hfar
  · omega
  · omega
  · omega

/-- **The calls leave alone what a buffer holds** that is out. -/
theorem buffer_contents (m : Mem) : ∀ x, PoolReach m x → ∀ e y, Proper x e →
    watch step see x e = some y → (∀ addr byte, e ≠ .write addr byte) → ∀ z ∈ x.2.held, ∀ a,
      z.1 + 4 ≤ a → a < z.1 + ((x.1.buftab z.2).bpsize + 4) → y.1.mem a = x.1.mem a := by
  intro x hx e y hok hs hcall z hz a h1 h2
  obtain ⟨free, h⟩ := right_run m x hx
  obtain ⟨t, ht, rfl⟩ := watch_some.mp hs
  have hmade := (h.tagged z hz).1
  cases e with
  | mkbufpool size count buf sem =>
    obtain rfl := Option.some.inj ht
    rcases mkbufpool_cases size count buf sem x.1 with ⟨heq, -⟩ |
      ⟨hacc, hbuf, ⟨heq, -⟩ | ⟨heq, -⟩⟩
    · rw [heq]
    · obtain ⟨-, hend, hapart⟩ := Or.resolve_left hok hbuf
      have hfar := hapart z.2 hmade z.1 (h.held_mem hz)
      have hone := hacc.2.2.1
      obtain ⟨n, hn⟩ : ∃ n, count.toNat = n + 1 := ⟨count.toNat - 1, by omega⟩
      have hsub : count.toNat - 1 = n := by omega
      rw [heq, addPool, hsub]
      exact linkBuffers_frame (by omega) (hn ▸ hend) (by rw [← hn]; omega)
    · rw [heq]
      rfl
  | getbuf poolid =>
    obtain rfl := Option.some.inj ht
    rw [getbuf]
    split_ifs <;> rfl
  | goOn poolid =>
    rw [step] at ht
    split_ifs at ht with hlet
    obtain rfl := Option.some.inj ht
    obtain ⟨hp, rest, hfree⟩ := h.first hlet
    exact h.store_apply hp (h.free_mem hp (by rw [hfree]; exact List.mem_cons_self)) hz h1 h2 _
  | freebuf bufaddr =>
    obtain rfl := Option.some.inj ht
    obtain ⟨w, hw, rfl⟩ := hok
    rw [h.freebuf_eq hw]
    exact h.store_apply (h.tagged w hw).1 (h.held_mem hw) hz h1 h2 _
  | write addr byte => exact absurd rfl (hcall addr byte)

/-- Of a pool of three buffers two are taken.  The second is given back: the link that is written
into it changes nothing in the first. -/
theorem buffer_contents_first : ∃ x y : Pools × Ledger,
    x.2.held = [(0x100c, 0), (0x1000, 0)] ∧ watch step see x (.freebuf 0x1010) = some y ∧
      load x.1.mem 0x100c = 0 ∧ load y.1.mem 0x100c = 0x1018 ∧
      y.1.mem 0x1004 = x.1.mem 0x1004 := by
  have hpool := PoolReach.next .refl (.mkbufpool 8 3 0x1000 true) (proper_first (by decide)) rfl
  have hfirst := (hpool.next (.getbuf 0) trivial rfl).next (.goOn 0) trivial rfl
  have hboth := (hfirst.next (.getbuf 0) trivial rfl).next (.goOn 0) trivial rfl
  refine ⟨_, _, rfl, rfl, by decide +kernel, by decide +kernel, buffer_contents (fun _ => 0) _ hboth
    (.freebuf 0x1010) _ ⟨(0x100c, 0), by decide, rfl⟩ rfl ?_ (0x1000, 0) (by decide)
    0x1004 (by decide) (by decide)⟩
  intro addr byte he
  cases he

end Xinu.BufPool
