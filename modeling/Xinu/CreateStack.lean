/-
# How far down `create` writes: `create.c`

`create` pushes the arguments, three addresses and the nine words of a saved state on the stack that
`getstk` has found.  The size of the stack and the number of arguments are both the caller's, and
nothing compares them.  `stackLog` is the list of all words that are written, and they stay inside
the stack if and only if the arguments and thirteen words more have room in it
(`create_writes_inside_iff`).
-/
import Xinu.ShellArgs

namespace Xinu

open ByteMemory

variable {k k' : Kernel} {saddr funcaddr userret ssize len : Nat} {args : List Nat} {prio : Pri16}
  {name : Nat → UInt8} {pid : Int} {a : Nat}

/-! ## 1. The words that are written -/

/-- The writes of `buildStack`, in order. -/
def stackLog (saddr funcaddr userret : Nat) (args : List Nat) : List (Nat × Nat) :=
  let savsp := pushTop saddr (args.length + 3)
  let pushsp := pushTop savsp 6
  (saddr, STACKMAGIC) :: (pushLog saddr (args.reverse ++ [userret, funcaddr, saddr]) ++
    (pushLog savsp [0x200, 0, 0, 0, 0, 0] ++ (pushLog pushsp [savsp, 0, 0] ++
      [(pushsp, pushTop pushsp 3)])))

/-- **The log is complete.** -/
theorem buildStack_log (saddr funcaddr userret : Nat) (args : List Nat) (m : Mem) :
    (buildStack saddr funcaddr userret args m).1 =
      writeAll m (stackLog saddr funcaddr userret args) := by
  have hlen : (args.reverse ++ [userret, funcaddr, saddr]).length = args.length + 3 := by simp
  obtain ⟨r₁, r₂, r₃, h₁, h₂, h₃, he⟩ := buildStack_eq saddr funcaddr userret args m
  rw [pushAll_log, hlen] at h₁
  rw [pushAll_log, h₁] at h₂
  rw [pushAll_log, h₁, h₂] at h₃
  rw [he, h₃, h₂, stackLog, writeAll_cons, writeAll_append, writeAll_append, writeAll_append]
  rfl

theorem mem_pushLog {sp : Nat} {vs : List Nat} :
    (∃ v, (a, v) ∈ pushLog sp vs) ↔ ∃ i < vs.length, a = pushTop sp (i + 1) := by
  have hmem := congrArg (a ∈ ·) (pushLog_fst sp vs)
  rw [eq_iff_iff] at hmem
  simpa [eq_comm] using hmem

/-- The addresses are those of the stack pointer on its way down. -/
theorem mem_stackLog : (∃ v, (a, v) ∈ stackLog saddr funcaddr userret args) ↔
    ∃ i ≤ args.length + 12, a = pushTop saddr i := by
  have hlen : (args.reverse ++ [userret, funcaddr, saddr]).length = args.length + 3 := by simp
  simp only [stackLog, List.mem_cons, List.mem_append, exists_or, mem_pushLog, hlen,
    pushTop_add, List.length_cons, List.length_nil, Prod.mk.injEq, List.not_mem_nil, or_false,
    exists_and_left, exists_eq, and_true]
  constructor
  · rintro (rfl | ⟨i, hi, rfl⟩ | ⟨i, hi, rfl⟩ | ⟨i, hi, rfl⟩ | rfl)
    · exact ⟨0, Nat.zero_le _, rfl⟩
    · exact ⟨_, by omega, rfl⟩
    · exact ⟨_, by omega, rfl⟩
    · exact ⟨_, by omega, rfl⟩
    · exact ⟨_, by omega, rfl⟩
  · rintro ⟨i, hi, rfl⟩
    rcases Nat.lt_or_ge i (args.length + 4) with h | h
    · cases i with
      | zero => exact .inl rfl
      | succ i => exact .inr (.inl ⟨i, by omega, rfl⟩)
    rcases Nat.lt_or_ge i (args.length + 10) with h' | h'
    · exact .inr (.inr (.inl ⟨i - (args.length + 4), by omega, congrArg _ (by omega)⟩))
    · exact .inr (.inr (.inr (.inl ⟨i - (args.length + 10), by omega, congrArg _ (by omega)⟩)))

/-! ## 2. The words of the stack -/

/-- The word at `a` is one of the `len` bytes that end with the word at `base`. -/
def InStack (base len a : Nat) : Prop := (base + addrSpace - a) % addrSpace + 4 ≤ len

/-- No write is outside the stack. -/
def WritesInside (base len : Nat) (ws : List (Nat × Nat)) : Prop := ∀ w ∈ ws, InStack base len w.1

/-- On a stack that does not run over the ends of memory these are the addresses from
`base - len + 4` to `base`. -/
theorem inStack_iff (hbase : saddr < addrSpace) (hlow : len ≤ saddr + 4) (ha : a < addrSpace) :
    InStack saddr len a ↔ saddr + 4 ≤ a + len ∧ a ≤ saddr := by
  simp only [InStack, addrSpace] at *
  omega

theorem inStack_pushTop (hbase : saddr < addrSpace) (i : Nat) :
    InStack saddr len (pushTop saddr i) ↔ 4 * i % addrSpace + 4 ≤ len := by
  have hmod := pushTop_mod saddr i
  have hlt := pushTop_lt hbase i
  have heq : (saddr + addrSpace - pushTop saddr i) % addrSpace = 4 * i % addrSpace := by
    simp only [addrSpace] at *
    omega
  rw [InStack, heq]

/-- **The log stays inside** a stack that has room for thirteen words more than the arguments, and
inside no other. -/
theorem writesInside_iff (hbase : saddr < addrSpace) (hlen : len < addrSpace) (hdvd : 4 ∣ len) :
    WritesInside saddr len (stackLog saddr funcaddr userret args) ↔
      4 * (args.length + 13) ≤ len := by
  constructor
  · intro h
    by_contra hfew
    obtain ⟨i, rfl⟩ := hdvd
    -- the first word below the stack
    obtain ⟨v, hv⟩ := (@mem_stackLog saddr funcaddr userret args _).mpr
      ⟨i, (by omega : i ≤ args.length + 12), (rfl : _ = pushTop saddr i)⟩
    have hin := (inStack_pushTop hbase i).mp (h _ hv)
    rw [Nat.mod_eq_of_lt hlen] at hin
    omega
  · rintro h ⟨a, v⟩ hw
    obtain ⟨i, hi, rfl⟩ := mem_stackLog.mp ⟨v, hw⟩
    refine (inStack_pushTop hbase i).mpr ?_
    rw [Nat.mod_eq_of_lt (by omega)]
    omega

theorem stackLog_lt (hbase : saddr < addrSpace) {w : Nat × Nat}
    (hw : w ∈ stackLog saddr funcaddr userret args) : w.1 < addrSpace := by
  obtain ⟨i, -, hi⟩ := mem_stackLog.mp ⟨w.2, hw⟩
  rw [hi]
  exact pushTop_lt hbase i

theorem stackSize_lt (ssize : Nat) : stackSize ssize < addrSpace := by
  simp only [stackSize, roundmb, addrSpace]
  omega

theorem four_dvd_stackSize (ssize : Nat) : 4 ∣ stackSize ssize := by
  simp only [stackSize, roundmb]
  omega

theorem roundmb_stackSize (ssize : Nat) : roundmb (stackSize ssize) = stackSize ssize := by
  simp only [stackSize, roundmb, addrSpace]
  omega

/-! ## 3. Every call that succeeds -/

/-- **`create` writes inside the stack if and only if the arguments have room.**  A call that
succeeds carries out the writes of `stackLog` and no other on the memory that `getstk` and the reset
of the heap header leave; they stay inside the allocated stack if and only if thirteen words more
than the arguments fit in the size that was asked for, raised to `MINSTK` and rounded; and then no
byte outside the stack changes. -/
theorem create_writes_inside_iff (hc : create funcaddr ssize prio name args k = some (k', pid))
    (hpid : pid ≠ SYSERR) :
    ∃ h, getstk (k'.proctab pid).prstklen k.heap = some (h, (k'.proctab pid).prstkbase) ∧
      k'.heap.mem = writeAll (resetHeader (k.proctab pid).prheaphd h.mem)
        (stackLog (k'.proctab pid).prstkbase funcaddr k.image.userret args) ∧
      (WritesInside (k'.proctab pid).prstkbase (k'.proctab pid).prstklen
          (stackLog (k'.proctab pid).prstkbase funcaddr k.image.userret args) ↔
        4 * (args.length + 13) ≤ stackSize ssize) ∧
      (Unwrapped k.heap → 4 * (args.length + 13) ≤ stackSize ssize →
        SameOutside ((k'.proctab pid).prstkbase + 4 - (k'.proctab pid).prstklen)
          ((k'.proctab pid).prstkbase + 4) (resetHeader (k.proctab pid).prheaphd h.mem)
          k'.heap.mem) := by
  obtain ⟨hlen, h, hg, hne, hbuild⟩ := create_built hc hpid
  obtain ⟨b, hb, hb0, hfit, hbase⟩ := getstk_block hg hne
  have hlt : (k'.proctab pid).prstkbase < addrSpace := by
    rw [hbase]
    exact Nat.mod_lt _ (by decide)
  have hinside : WritesInside (k'.proctab pid).prstkbase (k'.proctab pid).prstklen
      (stackLog (k'.proctab pid).prstkbase funcaddr k.image.userret args) ↔
      4 * (args.length + 13) ≤ stackSize ssize := by
    rw [hlen]
    exact writesInside_iff hlt (stackSize_lt ssize) (four_dvd_stackSize ssize)
  have hmem : writeAll _ _ = k'.heap.mem :=
    (buildStack_log _ _ _ _ _).symm.trans (congrArg Prod.fst hbuild)
  refine ⟨h, by rw [hlen]; exact hg, hmem.symm, hinside, ?_⟩
  intro hfree hroom
  have hhigh := hfree b hb hb0
  rw [roundmb_stackSize] at hfit
  rw [← hmem]
  refine SameOutside.writeAll ?_ ?_ _
  · simp only [addrSpace] at *
    omega
  · intro w hw
    have hin := hinside.mpr hroom w hw
    rw [inStack_iff hlt (by rw [hlen]; simp only [addrSpace] at *; omega) (stackLog_lt hlt hw)]
      at hin
    omega

theorem create_writes_inside_iff_two : ∃ k' pid,
    create 0x100040 MINSTK ⟨20, by decide⟩ (fun _ => 0) [8, 9] (bss xinuImage bootHeap) =
      some (k', pid) ∧
    WritesInside (k'.proctab pid).prstkbase (k'.proctab pid).prstklen
      (stackLog (k'.proctab pid).prstkbase 0x100040 xinuImage.userret [8, 9]) := by
  have hsome : (create 0x100040 MINSTK ⟨20, by decide⟩ (fun _ => 0) [8, 9]
      (bss xinuImage bootHeap)).isSome = true := by decide +kernel
  have hall : ∀ r ∈ create 0x100040 MINSTK ⟨20, by decide⟩ (fun _ => 0) [8, 9]
      (bss xinuImage bootHeap), r.2 ≠ SYSERR := by decide +kernel
  obtain ⟨⟨k', pid⟩, hr⟩ := Option.isSome_iff_exists.mp hsome
  obtain ⟨h, -, -, hinside, -⟩ := create_writes_inside_iff hr (hall _ hr)
  exact ⟨k', pid, hr, hinside.mpr (by decide)⟩

/-- What a call with a stack of the minimum size and a hundred arguments does to the word below the
stack: the stack, the word before, and the word after. -/
def crowdedStack (s : Sys) : Option (Nat × Nat × Nat × Nat) := do
  let (k, pid) ← create 0x100040 MINSTK 20 (fun _ => 0) (List.replicate 100 7) s.k
  if pid = SYSERR then none
  else
    let p := k.proctab pid
    let a := p.prstkbase - p.prstklen
    return (p.prstkbase, p.prstklen, load s.k.heap.mem a, load k.heap.mem a)

/-- **A hundred arguments do not fit in the smallest stack**, and the call succeeds: it writes an
argument into the free block below. -/
theorem create_writes_below : ∃ s k' pid, Reachable Runs.always s ∧
    create 0x100040 MINSTK ⟨20, by decide⟩ (fun _ => 0) (List.replicate 100 7) s.k =
      some (k', pid) ∧ pid ≠ SYSERR ∧
    ¬ WritesInside (k'.proctab pid).prstkbase (k'.proctab pid).prstklen
      (stackLog (k'.proctab pid).prstkbase 0x100040 s.k.image.userret (List.replicate 100 7)) ∧
    load s.k.heap.mem ((k'.proctab pid).prstkbase - (k'.proctab pid).prstklen) = 0 ∧
    load k'.heap.mem ((k'.proctab pid).prstkbase - (k'.proctab pid).prstklen) = 7 := by
  have hrun : (runFromBoot [makeMain ⟨20, by decide⟩]).bind crowdedStack =
      some (0x23fe6c, 400, 0, 7) := by decide +kernel
  obtain ⟨s, hs, hrow⟩ := Option.bind_eq_some_iff.mp hrun
  obtain ⟨⟨k', pid⟩, hc, hrow⟩ := Option.bind_eq_some_iff.mp hrow
  dsimp only at hrow
  split_ifs at hrow with hpid
  simp only [Option.pure_def, Option.some.injEq, Prod.mk.injEq] at hrow
  obtain ⟨hbase, hlen, hbefore, hafter⟩ := hrow
  refine ⟨s, k', pid, reachable_runFromBoot hs, hc, hpid, ?_, hbefore, hafter⟩
  rw [writesInside_iff (by rw [hbase]; decide) (by rw [hlen]; decide) (by rw [hlen]; decide), hlen]
  decide

end Xinu
