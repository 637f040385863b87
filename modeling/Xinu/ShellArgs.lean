/-
# The arguments of a command: `addargs.c`, and where `shell.c` starts a command

The shell creates the process of a command with two arguments: the number of words, and the address
of its own variable `tmparg`.  `addargs` then builds the argument vector in the lowest part of the
new process's stack, copies the words behind it, and searches the stack that `create` built for the
address of `tmparg`, to put that of the vector in its place.

`create` has built fifteen words (`buildStack_frame`), and the search goes through thirteen of them
before it finds the second argument.  That none of these is the address of `tmparg` is not something
the code sees to.  It follows from what the words are: small numbers, addresses of functions, and
addresses inside of the new stack, where `tmparg` cannot be, because the stack was free memory
before (`Foreign`).

`command_arguments`: so every command starts with its words.
-/
import Xinu.Shell
import Xinu.ContextSwitch
import Xinu.FreeList

namespace Xinu

open ByteMemory

/-! ## 1. `addargs.c`

The vector and the words are written word by word and byte by byte, as in the source, into the
memory that all processes share. -/

/-- The loop that looks for `dummy` from `search` on: the place where it is found, if any. -/
def searchDummy (m : Mem) (dummy prstkbase : Nat) : Nat → Nat → Option (Option Nat)
  | 0, _ => none
  | fuel + 1, search =>
    if search < prstkbase then
      if load m search = dummy then some (some search)
      else searchDummy m dummy prstkbase fuel ((search + 4) % addrSpace)
    else some none

/-- The lowest location in the stack of a process, rounded up to a multiple of 4. -/
def argLoc (p : Procent) : Nat :=
  ((p.prstkbase + addrSpace - p.prstklen % addrSpace + 4) % addrSpace + 3) % addrSpace / 4 * 4

/-- `addargs(pid, ntok, tok, tlen, tokbuf, dummy)`. -/
def addargs (pid ntok : Int) (tok : Nat → Int) (tlen : Int) (tokbuf : Nat → UInt8) (dummy : Nat)
    (k : Kernel) : Option (Kernel × Int) :=
  if ntok ≤ 0 ∨ tlen < 0 then some (k, SYSERR)
  else do
    let prptr := k.proctab pid
    let argloc := argLoc prptr
    let argstr := argloc + 4 * (ntok.toNat + 1)
    let m := storeAll k.heap.mem argloc (fun i => (((argstr : Int) + tok i) % addrSpace).toNat)
      ntok.toNat
    let m := store m (argloc + 4 * ntok.toNat) 0
    let m := copyAll m (argloc + 4 * ntok.toNat + 4) tokbuf tlen.toNat
    match ← searchDummy m dummy prptr.prstkbase walkBound prptr.prstkptr with
    | some search => return (k.setHeap { k.heap with mem := store m search argloc }, OK)
    | none => return (k.setHeap { k.heap with mem := m }, SYSERR)

/-! ## 2. `shell.c`

The table of commands is the one of the source, and each function is known by its address. -/

def SHELL_CMDSTK : Nat := 8192
def SHELL_CMDPRIO : Pri16 := 20

/-- An entry in the table of shell commands.  The name is without its null character. -/
structure Cmdent where
  cname : List UInt8
  cbuiltin : Bool
  cfunc : Nat
  deriving DecidableEq

/-- A string constant. -/
def cstring (s : String) : List UInt8 := s.toList.map fun ch => UInt8.ofNat ch.toNat

/-- The table, for the addresses that the linker gave the functions. -/
def cmdtab (xsh : String → Nat) : List Cmdent :=
  [⟨cstring "argecho", true, xsh "xsh_argecho"⟩,
    ⟨cstring "arp", false, xsh "xsh_arp"⟩,
    ⟨cstring "cat", false, xsh "xsh_cat"⟩,
    ⟨cstring "clear", true, xsh "xsh_clear"⟩,
    ⟨cstring "date", false, xsh "xsh_date"⟩,
    ⟨cstring "devdump", false, xsh "xsh_devdump"⟩,
    ⟨cstring "echo", false, xsh "xsh_echo"⟩,
    ⟨cstring "exit", true, xsh "xsh_exit"⟩,
    ⟨cstring "help", false, xsh "xsh_help"⟩,
    ⟨cstring "kill", true, xsh "xsh_kill"⟩,
    ⟨cstring "memdump", false, xsh "xsh_memdump"⟩,
    ⟨cstring "memstat", false, xsh "xsh_memstat"⟩,
    ⟨cstring "netinfo", false, xsh "xsh_netinfo"⟩,
    ⟨cstring "ping", false, xsh "xsh_ping"⟩,
    ⟨cstring "ps", false, xsh "xsh_ps"⟩,
    ⟨cstring "sleep", false, xsh "xsh_sleep"⟩,
    ⟨cstring "udp", false, xsh "xsh_udpdump"⟩,
    ⟨cstring "udpecho", false, xsh "xsh_udpecho"⟩,
    ⟨cstring "udpeserver", false, xsh "xsh_udpeserver"⟩,
    ⟨cstring "uptime", false, xsh "xsh_uptime"⟩,
    ⟨cstring "?", false, xsh "xsh_help"⟩]

/-- The comparison of a name with the first token: no difference, and the token ends as well. -/
def commandName : List UInt8 → (Nat → UInt8) → Nat → Bool
  | [], cmp, i => cmp i = NULLCH
  | ch :: src, cmp, i => if cmp i ≠ ch then false else commandName src cmp (i + 1)

/-- Lookup first token in the command table. -/
def lookupCommand (tab : List Cmdent) (tokbuf : Nat → UInt8) : Option Cmdent :=
  tab.find? fun e => commandName e.cname tokbuf 0

/-- Spawn child thread for non-built-in commands: the process, or `SYSERR` if the creation or the
argument copy fails. -/
def spawn (e : Cmdent) (s : Lex) (cmd : Command) (tmparg : Nat) (k : Kernel) :
    Option (Kernel × Int) := do
  let (k, child) ← create e.cfunc SHELL_CMDSTK SHELL_CMDPRIO (fun i => e.cname.getD i NULLCH)
    [cmd.ntok.toNat, tmparg] k
  if child = SYSERR then return (k, SYSERR)
  let (k, r) ← addargs child cmd.ntok s.tok cmd.tlen s.tokbuf tmparg k
  if r = SYSERR then return (k, SYSERR)
  return (k, child)

/-! ## 3. The stack that `getstk` finds

Where the stack is decides whether `tmparg` can be inside of it.  All that is needed of the free
list is that its blocks do not run over the end of memory. -/

/-- The blocks of the free list. -/
inductive OnFreeList (h : Heap) : Nat → Prop
  | first : OnFreeList h (mnext h.mem h.memlist)
  | next {b : Nat} : OnFreeList h b → b ≠ 0 → OnFreeList h (mnext h.mem b)

variable {h h' : Heap} {k k' : Kernel} {n a : Nat}

/-- The scan ends with a block of the list that is large enough. -/
theorem getstkScan_fits {fuel fitsprev fits prev curr p b : Nat} (hcurr : OnFreeList h curr)
    (hfits : fits ≠ 0 → OnFreeList h fits ∧ n ≤ mlength h.mem fits)
    (hs : getstkScan h.mem n fuel fitsprev fits prev curr = some (p, b)) (hb : b ≠ 0) :
    OnFreeList h b ∧ n ≤ mlength h.mem b := by
  induction fuel generalizing fitsprev fits prev curr with
  | zero => simp [getstkScan] at hs
  | succ fuel ih =>
    rw [getstkScan] at hs
    split_ifs at hs with h0 hlen
    · obtain ⟨-, rfl⟩ := Prod.mk.inj (Option.some.inj hs)
      exact hfits hb
    · exact ih (.next hcurr h0) (fun _ => ⟨hcurr, hlen⟩) hs
    · exact ih (.next hcurr h0) hfits hs

/-- **A stack is the high end of a free block.** -/
theorem getstk_block (hg : getstk n h = some (h', a)) (ha : a ≠ sysErrPtr) :
    ∃ b, OnFreeList h b ∧ b ≠ 0 ∧ roundmb n ≤ mlength h.mem b ∧
      a = (b + mlength h.mem b + addrSpace - 4) % addrSpace := by
  unfold getstk at hg
  split_ifs at hg with h0
  · exact absurd (Prod.mk.inj (Option.some.inj hg)).2.symm ha
  obtain ⟨⟨p, b⟩, hs, hg⟩ := Option.bind_eq_some_iff.mp hg
  simp only at hg
  by_cases hb : b = 0
  · rw [if_pos hb] at hg
    exact absurd (Prod.mk.inj (Option.some.inj hg)).2.symm ha
  rw [if_neg hb] at hg
  obtain ⟨hlist, hlen⟩ := getstkScan_fits .first (fun h => absurd rfl h) hs hb
  refine ⟨b, hlist, hb, hlen, ?_⟩
  have hlt := load_lt h.mem (b + 4)
  by_cases heq : roundmb n = mlength h.mem b
  · rw [if_pos heq] at hg
    obtain ⟨-, rfl⟩ := Prod.mk.inj (Option.some.inj hg)
    rw [heq]
  · rw [if_neg heq] at hg
    obtain ⟨-, rfl⟩ := Prod.mk.inj (Option.some.inj hg)
    simp only [mlength, load_store_same, addrSpace] at hlen hlt ⊢
    omega

/-- The free list is sound as far as `getstk` needs it: no block runs over the end of memory. -/
def Unwrapped (h : Heap) : Prop := ∀ b, OnFreeList h b → b ≠ 0 → b + mlength h.mem b ≤ addrSpace

/-- The blocks that a walk along the list meets are those of the free list. -/
theorem FreeList.mem_of_onFreeList {bs : List Extents.Extent} {b : Nat} (hf : FreeList h bs)
    (hb : OnFreeList h b) : b = 0 ∨ ∃ e ∈ bs, e.addr = b := by
  have hwalk := hf.threaded.chain
  have hlink : ∀ x ∈ h.memlist :: bs.map Extents.Extent.addr,
      mnext h.mem x = 0 ∨ ∃ e ∈ bs, e.addr = mnext h.mem x := by
    intro x hx
    obtain ⟨pre, post, hsplit⟩ := List.append_of_mem hx
    rw [hsplit] at hwalk
    obtain ⟨c, -, -, hrest⟩ := Chains.walk_append.mp hwalk
    cases post with
    | nil => exact .inl hrest
    | cons y post =>
      refine .inr (List.mem_map.mp ?_)
      -- what follows an element is not the head
      have hy : bs.map Extents.Extent.addr = (pre ++ x :: y :: post).tail := by rw [← hsplit]; rfl
      rw [hy, hrest.1]
      cases pre <;> simp
  induction hb with
  | first => exact hlink _ (by simp)
  | next _ hne ih =>
    obtain ⟨e, he, rfl⟩ := ih.resolve_left hne
    exact hlink _ (List.mem_cons_of_mem _ (List.mem_map_of_mem he))

/-- **A free list as the allocator keeps it is sound.** -/
theorem FreeList.unwrapped {bs : List Extents.Extent} (hf : FreeList h bs) : Unwrapped h := by
  intro b hb hne
  obtain ⟨e, he, rfl⟩ := (hf.mem_of_onFreeList hb).resolve_left hne
  have hfin := (hf.within e he).2
  have hspace := hf.space
  rw [hf.threaded.lens e he]
  rw [Extents.Extent.fin] at hfin
  omega

/-- **The address of a variable**: it is above the words that `create` pushes as numbers, belongs to
no function, and is not in free memory. -/
structure Foreign (h : Heap) (funcs : List Nat) (x : Nat) : Prop where
  high : 0x200 < x ∧ x < addrSpace
  data : ∀ f ∈ funcs, f % addrSpace ≠ x
  live : ∀ b, OnFreeList h b → b ≠ 0 → x < b ∨ b + mlength h.mem b ≤ x

/-- The stack of a command. -/
structure CommandStack (p : Procent) (dummy : Nat) : Prop where
  len : p.prstklen = SHELL_CMDSTK
  low : SHELL_CMDSTK ≤ p.prstkbase + 4
  high : p.prstkbase + 4 ≤ addrSpace
  outside : dummy + SHELL_CMDSTK < p.prstkbase + 4 ∨ p.prstkbase + 4 ≤ dummy

theorem create_commandStack {funcaddr dummy : Nat} {funcs : List Nat} {prio : Pri16}
    {name : Nat → UInt8} {args : List Nat} {pid : Int}
    (hc : create funcaddr SHELL_CMDSTK prio name args k = some (k', pid)) (hpid : pid ≠ SYSERR)
    (hfree : Unwrapped k.heap) (hd : Foreign k.heap funcs dummy) :
    CommandStack (k'.proctab pid) dummy := by
  obtain ⟨hsize', h', hg, hne, -⟩ := create_built hc hpid
  obtain ⟨b, hb, hb0, hlen, hbase⟩ := getstk_block hg hne
  have hsize : roundmb (stackSize SHELL_CMDSTK) = 8192 := by decide
  have hhigh := hfree b hb hb0
  have hlive := hd.live b hb hb0
  have hstk : SHELL_CMDSTK = 8192 := rfl
  rw [hsize] at hlen
  refine ⟨hsize'.trans (by decide), ?_, ?_, ?_⟩
  · simp only [addrSpace] at *
    omega
  · simp only [addrSpace] at *
    omega
  · simp only [addrSpace] at *
    omega

/-! ## 4. The search

It ends at the first word that is the dummy, which is the right one if the words in front are
others. -/

/-- **The search finds the first word that is the dummy.** -/
theorem searchDummy_found {m : Mem} {dummy base : Nat} {xs ys : List Nat} :
    ∀ {fuel sp : Nat}, Words m sp (xs ++ dummy :: ys) → dummy ∉ xs → xs.length < fuel →
      sp + 4 * xs.length < base → base ≤ addrSpace →
      searchDummy m dummy base fuel sp = some (some (sp + 4 * xs.length)) := by
  induction xs with
  | nil =>
    intro fuel sp hw _ hf hlt _
    obtain ⟨n, rfl⟩ := Nat.exists_eq_add_one.mpr (Nat.zero_lt_of_lt hf)
    simp only [List.length_nil, Nat.mul_zero, Nat.add_zero] at hlt ⊢
    rw [searchDummy, if_pos hlt, if_pos hw.1]
  | cons x xs ih =>
    intro fuel sp hw hnot hf hlt hb
    obtain ⟨n, rfl⟩ := Nat.exists_eq_add_one.mpr (Nat.zero_lt_of_lt hf)
    rw [List.length_cons] at hf hlt ⊢
    rw [List.mem_cons, not_or] at hnot
    rw [searchDummy, if_pos (by omega), if_neg (by rw [hw.1]; exact Ne.symm hnot.1),
      Nat.mod_eq_of_lt (by omega), ih hw.2 hnot.2 (by omega) (by omega) hb]
    congr 2
    omega

/-! ## 5. `addargs`

One lemma for all that it writes, and one structure for all that it leaves alone. -/

theorem argLoc_eq {p : Procent} {dummy : Nat} (h : CommandStack p dummy) :
    p.prstkbase + 4 ≤ argLoc p + SHELL_CMDSTK ∧ argLoc p + SHELL_CMDSTK ≤ p.prstkbase + 7 := by
  obtain ⟨hlen, hlow, hhigh, -⟩ := h
  unfold argLoc
  rw [hlen]
  unfold SHELL_CMDSTK at *
  simp only [addrSpace] at *
  omega

/-- **What `addargs` puts below the frame**: the vector and the words behind it. -/
structure ArgsAt (m : Mem) (p : Procent) (argv n t : Nat) (tok : Nat → Int)
    (tokbuf : Nat → UInt8) : Prop where
  fits : argv + 4 * (n + 1) + t ≤ p.prstkptr
  entries : ∀ i < n, load m (argv + 4 * i) =
    (((argv + 4 * (n + 1) : Nat) : Int) + tok i).toNat % addrSpace
  null : load m (argv + 4 * n) = 0
  strings : ∀ j < t, m (argv + 4 * (n + 1) + j) = tokbuf j

/-- Nothing else changes, except the second argument in the frame. -/
def OnlyArgs (m₀ m : Mem) (p : Procent) (argv n t : Nat) : Prop :=
  ∀ x, x < argv ∨ argv + 4 * (n + 1) + t ≤ x → x < p.prstkptr + 52 ∨ p.prstkptr + 56 ≤ x →
    m x = m₀ x

theorem addargs_spec {pid : Int} {n t dummy : Nat} {tok : Nat → Int} {tokbuf : Nat → UInt8}
    {xs : List Nat} {z : Nat} (hstack : CommandStack (k.proctab pid) dummy)
    (hsp : (k.proctab pid).prstkptr + 56 = (k.proctab pid).prstkbase)
    (hw : Words k.heap.mem (k.proctab pid).prstkptr (xs ++ [dummy, z])) (hx : xs.length = 13)
    (hnot : dummy ∉ xs) (hn : 0 < n) (hn' : n ≤ SHELL_MAXTOK)
    (ht : t ≤ SHELL_BUFLEN + SHELL_MAXTOK) (htok : ∀ i < n, 0 ≤ tok i) :
    ∃ m, addargs pid n tok t tokbuf dummy k = some (k.setHeap { k.heap with mem := m }, OK) ∧
      Words m (k.proctab pid).prstkptr (xs ++ [argLoc (k.proctab pid), z]) ∧
      ArgsAt m (k.proctab pid) (argLoc (k.proctab pid)) n t tok tokbuf ∧
      OnlyArgs k.heap.mem m (k.proctab pid) (argLoc (k.proctab pid)) n t := by
  obtain ⟨hlow, hhigh⟩ := argLoc_eq hstack
  have hbase := hstack.high
  have hlen := hstack.len
  have hb := hstack.low
  generalize hp : k.proctab pid = p at *
  generalize hargv : argLoc p = argv at *
  have hmax : SHELL_MAXTOK = 32 := rfl
  have hbuf : SHELL_BUFLEN = 129 := rfl
  have hstk : SHELL_CMDSTK = 8192 := rfl
  have hfit : argv + 4 * (n + 1) + t ≤ p.prstkptr := by omega
  have htop : p.prstkptr + 60 ≤ addrSpace := by omega
  obtain ⟨f, hf⟩ : ∃ f : Nat → Nat, f = fun i =>
    ((((argv + 4 * (n + 1) : Nat) : Int) + tok i) % (addrSpace : Nat)).toNat := ⟨_, rfl⟩
  -- the memory after the loop, after the null pointer and after the strings
  obtain ⟨m₁, hm₁⟩ : ∃ m, m = storeAll k.heap.mem argv f n := ⟨_, rfl⟩
  obtain ⟨m₂, hm₂⟩ : ∃ m, m = store m₁ (argv + 4 * n) 0 := ⟨_, rfl⟩
  obtain ⟨m₃, hm₃⟩ : ∃ m, m = copyAll m₂ (argv + 4 * n + 4) tokbuf t := ⟨_, rfl⟩
  have h₁ : SameOutside argv (argv + 4 * n) k.heap.mem m₁ := by
    rw [hm₁]
    exact storeAll_sameOutside (by omega)
  have h₂ : SameOutside (argv + 4 * n) (argv + 4 * n + 4) m₁ m₂ := by
    rw [hm₂]
    exact .store (by omega) le_rfl le_rfl
  have h₃ : SameOutside (argv + 4 * n + 4) (argv + 4 * n + 4 + t) m₂ m₃ := by
    rw [hm₃]
    exact copyAll_sameOutside (by omega)
  have h₄ : SameOutside (p.prstkptr + 52) (p.prstkptr + 56) m₃ (store m₃ (p.prstkptr + 52) argv) :=
    .store (by omega) le_rfl le_rfl
  have hall : SameOutside argv (argv + 4 * (n + 1) + t) k.heap.mem m₃ :=
    ((h₁.mono le_rfl (by omega)).trans (h₂.mono (by omega) (by omega))).trans
      (h₃.mono (by omega) (by omega))
  have hw₃ : Words m₃ p.prstkptr (xs ++ [dummy, z]) := by
    refine hw.congr fun i hi => hall.load_eq ?_ (Or.inr (by omega))
    simp only [List.length_append, List.length_cons, List.length_nil, hx] at hi
    omega
  have hsearch := @searchDummy_found m₃ dummy p.prstkbase xs [z] walkBound p.prstkptr hw₃ hnot
    (by rw [hx]; decide) (by rw [hx]; omega) (by omega)
  rw [hx] at hsearch
  have hadd : addargs pid n tok t tokbuf dummy k =
      some (k.setHeap { k.heap with mem := store m₃ (p.prstkptr + 52) argv }, OK) := by
    unfold addargs
    rw [if_neg (by omega)]
    simp only [hp, hargv, Int.toNat_natCast]
    rw [← hf, ← hm₁, ← hm₂, ← hm₃, hsearch]
    rfl
  refine ⟨_, hadd, ?_, ⟨hfit, fun i hi => ?_, ?_, fun j hj => ?_⟩, fun x h5 h6 => ?_⟩
  · have hset := hw₃.set xs argv (by rw [hx]) (by rw [hx, List.length_singleton]; decide)
    rwa [Nat.mod_eq_of_lt (by omega)] at hset
  · rw [h₄.load_eq (by omega) (Or.inl (by omega)), h₃.load_eq (by omega) (Or.inl (by omega)),
      h₂.load_eq (by omega) (Or.inl (by omega)), hm₁, load_storeAll (by omega) hi, hf]
    obtain ⟨q, hq⟩ := Int.eq_ofNat_of_zero_le (htok i hi)
    beta_reduce
    rw [hq, ← Nat.cast_add, ← Int.natCast_mod, Int.toNat_natCast, Int.toNat_natCast, Nat.mod_mod]
  · rw [h₄.load_eq (by omega) (Or.inl (by omega)), h₃.load_eq (by omega) (Or.inl (by omega)), hm₂,
      load_store_same, Nat.zero_mod]
  · rw [h₄ _ (Or.inl (by omega)), hm₃]
    exact copyAll_apply (by omega) hj
  · rw [h₄ x h6, hall x h5]

/-! ## 6. The words of a command

The layout of `tokbuf`, which `lexan` has filled, is carried over to the stack. -/

/-- **An argument vector**: pointers to the words, which stand behind it, and `NULL`. -/
structure ArgVector (m : Mem) (argv : Nat) (words : List Token) : Prop where
  entries : ∀ i t, words[i]? = some t → StringAt m (load m (argv + 4 * i)) t.text
  inside : ∀ i t, words[i]? = some t → argv + 4 * (words.length + 1) ≤ load m (argv + 4 * i) ∧
    load m (argv + 4 * i) + t.text.length + 1 ≤
      argv + 4 * (words.length + 1) + (packed words).length
  null : load m (argv + 4 * words.length) = 0

/-- **The vector that `addargs` made** has the words that `lexan` had put in `tokbuf`. -/
theorem ArgsAt.vector {m : Mem} {p : Procent} {argv : Nat} {s : Lex} {words : List Token}
    (h : ArgsAt m p argv words.length (packed words).length s.tok s.tokbuf) (hf : Front s words)
    (hsp : p.prstkptr < addrSpace) : ArgVector m argv words := by
  have hfits := h.fits
  have entry : ∀ i t, words[i]? = some t → load m (argv + 4 * i) =
      argv + 4 * (words.length + 1) + (packed (words.take i)).length ∧
      (packed (words.take i)).length + (t.text.length + 1) ≤ (packed words).length := by
    intro i t ht
    obtain ⟨hi, -⟩ := List.getElem?_eq_some_iff.mp ht
    have hlen := congrArg List.length (packed_split ht)
    simp only [List.length_append, List.length_singleton] at hlen
    refine ⟨?_, by omega⟩
    rw [h.entries i hi, hf.tok i hi, ← Nat.cast_add, Int.toNat_natCast, Nat.mod_eq_of_lt (by omega)]
  refine ⟨fun i t ht => ?_, fun i t ht => ?_, h.null⟩
  · obtain ⟨he, hle⟩ := entry i t ht
    obtain ⟨hi, rfl⟩ := List.getElem?_eq_some_iff.mp ht
    have hsplit : words.take i ++ words[i] :: words.drop (i + 1) = words := by simp
    have hf' : Front s (words.take i ++ words[i] :: words.drop (i + 1)) := by rwa [hsplit]
    obtain ⟨place, hplace, hnull, hchars⟩ := hf'.names
    obtain rfl : (packed (words.take i)).length = place :=
      Int.natCast_inj.mp (Option.some.inj hplace)
    refine ⟨hnull, ?_⟩
    rw [he]
    refine Eq.trans (List.map_congr_left fun j hj => ?_) hchars
    have hj' := List.mem_range.mp hj
    rw [Nat.add_assoc]
    exact h.strings _ (by omega)
  · obtain ⟨he, hle⟩ := entry i t ht
    rw [he]
    omega

/-- The vector is where it was in a memory that has the same bytes below the frame. -/
theorem ArgsAt.congr {m m' : Mem} {p : Procent} {argv n t : Nat} {tok : Nat → Int}
    {tokbuf : Nat → UInt8} (h : ArgsAt m p argv n t tok tokbuf) (hsp : p.prstkptr ≤ addrSpace)
    (hm : ∀ x, argv ≤ x → x < p.prstkptr → m' x = m x) : ArgsAt m' p argv n t tok tokbuf := by
  have hfits := h.fits
  have word : ∀ i ≤ n, load m' (argv + 4 * i) = load m (argv + 4 * i) := fun i hi =>
    load_congr (by omega) fun x h1 h2 => hm x (by omega) (by omega)
  refine ⟨hfits, fun i hi => ?_, ?_, fun j hj => ?_⟩
  · rw [word i hi.le]
    exact h.entries i hi
  · rw [word n le_rfl]
    exact h.null
  · rw [hm _ (by omega) (by omega)]
    exact h.strings j hj

/-! ## 7. The first word

The comparison in the source goes through both names at once and has to end in both. -/

variable {m : Mem} {text name : List UInt8}

/-- **The comparison is right.** -/
theorem commandName_iff (hn : NULLCH ∉ name) (h : StringAt m a text) :
    commandName name m a = true ↔ name = text := by
  induction name generalizing text a with
  | nil =>
    rw [commandName, decide_eq_true_iff]
    cases text with
    | nil => exact ⟨fun _ => rfl, fun _ => stringAt_nil.mp h⟩
    | cons c text =>
      obtain ⟨hc, hne, -⟩ := stringAt_cons.mp h
      exact ⟨fun h => absurd (hc.symm.trans h) hne, fun h => nomatch h⟩
  | cons d name ih =>
    rw [List.mem_cons, not_or] at hn
    rw [commandName]
    cases text with
    | nil =>
      have hd : m a ≠ d := fun h' => hn.1 ((stringAt_nil.mp h).symm.trans h')
      rw [if_pos hd]
      simp
    | cons c text =>
      obtain ⟨hc, -, hrest⟩ := stringAt_cons.mp h
      rw [hc, List.cons.injEq, ← ih hn.2 hrest]
      by_cases hcd : c = d
      · rw [if_neg (not_not.mpr hcd)]
        exact ⟨fun h => ⟨hcd.symm, h⟩, fun h => h.2⟩
      · rw [if_pos hcd]
        exact ⟨fun h => absurd h Bool.false_ne_true, fun h => absurd h.1.symm hcd⟩

theorem cmdtab_names (xsh : String → Nat) : ∀ e ∈ cmdtab xsh, NULLCH ∉ e.cname := by
  intro e he
  have hall : ∀ name ∈ (cmdtab fun _ => 0).map Cmdent.cname, NULLCH ∉ name := by decide
  have hname : e.cname ∈ (cmdtab xsh).map Cmdent.cname := List.mem_map_of_mem he
  exact hall _ hname

/-- The first word of a command is the name that is found. -/
theorem lookup_name {s : Lex} {w : Token} {ws : List Token} {xsh : String → Nat} {e : Cmdent}
    (hf : Front s (w :: ws)) (he : lookupCommand (cmdtab xsh) s.tokbuf = some e) :
    e ∈ cmdtab xsh ∧ e.cname = w.text := by
  have hmem := List.mem_of_find?_eq_some he
  have hsame := List.find?_some he
  have hf' : Front s ([] ++ w :: ws) := hf
  obtain ⟨i, hi, hnull, hchars⟩ := hf'.names
  obtain rfl : 0 = i := Int.natCast_inj.mp (Option.some.inj hi)
  exact ⟨hmem, (commandName_iff (cmdtab_names xsh e hmem) ⟨hnull, hchars⟩).mp hsame⟩

/-- The characters of the tokens, with a null character for each, are not more than those of the
text and one for each token. -/
theorem packed_length (ps : List Piece) : (packed (ps.filterMap Piece.token)).length ≤
    (ps.flatMap Piece.text).length + (ps.filterMap Piece.token).length := by
  induction ps with
  | nil => exact Nat.zero_le _
  | cons x ps ih =>
    have hp : ∀ t ts, (packed (t :: ts)).length = t.text.length + 1 + (packed ts).length := by
      intro t ts
      simp only [packed, List.flatMap_cons, List.length_append, List.length_singleton]
    rw [List.flatMap_cons, List.length_append]
    cases x with
    | blank c =>
      simp only [List.filterMap_cons, Piece.token]
      omega
    | word w =>
      simp only [List.filterMap_cons, Piece.token, hp, List.length_cons, Piece.text]
      omega
    | quoted q w =>
      simp only [List.filterMap_cons, Piece.token, hp, List.length_cons, Piece.text,
        List.length_append]
      omega
    | special c typ =>
      simp only [List.filterMap_cons, Piece.token, hp, List.length_cons, Piece.text]
      omega

/-! ## 8. The child starts

`FirstRun` is the moment of the first switch to the child, with its stack as `create` and
`addargs` have left it. -/

/-- The machine is about to switch to the new process `pid` for the first time: the whole stack of
the process is as it was left, and saving the process that switches away does not touch it. -/
structure FirstRun (mach : Cpu) (old new : Word) (k : Kernel) (pid : Int) : Prop where
  cell : Words mach.mem new.toNat [(k.proctab pid).prstkptr]
  stack : ∀ x, (k.proctab pid).prstkbase + 4 ≤ x + (k.proctab pid).prstklen →
    x < (k.proctab pid).prstkbase + 4 → mach.mem x = k.heap.mem x
  cellSpared : Spared mach old new.toNat 4
  stackSpared : Spared mach old ((k.proctab pid).prstkbase + 4 - (k.proctab pid).prstklen)
    (k.proctab pid).prstklen

/-- **The command starts with its words**: on its stack, with its function called, and with the
vector below the frame that `create` built, which is otherwise as it was. -/
structure CommandStarts (k₁ k : Kernel) (pid : Int) (cfunc userret argv : Nat)
    (words : List Token) : Prop where
  low : (k.proctab pid).prstkbase + 4 ≤ argv + (k.proctab pid).prstklen
  below : argv + 4 * (words.length + 1) + (packed words).length ≤ (k.proctab pid).prstkptr
  frame : (k.proctab pid).prstkptr + 60 = (k.proctab pid).prstkbase + 4
  others : OnlyArgs k₁.heap.mem k.heap.mem (k.proctab pid) argv words.length (packed words).length
  starts : ∀ mach retaddr old new, Called mach retaddr old new →
    Separate (mach.gpr .esp - 40).toNat 52 old.toNat 4 → FirstRun mach old new k pid →
    Started (ctxsw mach) (k.proctab pid).prstkbase cfunc userret [words.length, argv] ∧
      ArgVector (ctxsw mach).mem argv words

/-- The bytes that a switch spares stay. -/
theorem Saved.bytes {s t : Cpu} {retaddr old new : Word} (h : Saved s retaddr old new t)
    {a n x : Nat} (hs : Spared s old a (4 * n)) (ha : a + 4 * n ≤ addrSpace) (hx : a ≤ x)
    (hx' : x < a + 4 * n) : t.mem x = s.mem x := by
  have hp : Spared s old (a + 4 * ((x - a) / 4)) 4 := hs.part (by omega)
  have hb := bytes_of_load_eq (h.others _ hp.frame hp.cell) (j := (x - a) % 4) (by omega)
  rwa [show a + 4 * ((x - a) / 4) + (x - a) % 4 = x by omega, Nat.mod_eq_of_lt (by omega)] at hb

/-- The thirteen words that `create` has put in front of the dummy. -/
def frontWords (sp base cfunc userret n : Nat) : List Nat :=
  [0, 0, sp + 36, sp, 0, 0, 0, 0, 0x200, base, cfunc % addrSpace, userret % addrSpace, n]

/-- What `create` leaves of a command. -/
theorem create_words {cfunc dummy n : Nat} {prio : Pri16} {name : Nat → UInt8} {pid : Int}
    (hc : create cfunc SHELL_CMDSTK prio name [n, dummy] k = some (k', pid)) (hpid : pid ≠ SYSERR)
    (hs : CommandStack (k'.proctab pid) dummy) (hd : dummy < addrSpace) (hn : n < addrSpace) :
    (k'.proctab pid).prstkptr + 56 = (k'.proctab pid).prstkbase ∧
      Words k'.heap.mem (k'.proctab pid).prstkptr (frontWords (k'.proctab pid).prstkptr
        (k'.proctab pid).prstkbase cfunc k.image.userret n ++ [dummy, STACKMAGIC]) := by
  obtain ⟨-, m, hm⟩ := create_stack hc hpid
  obtain ⟨hsp, hbase, hw⟩ := buildStack_frame (by simp [addrSpace]) hm
  have hlow := hs.low
  have hhigh := hs.high
  generalize (k'.proctab pid).prstkptr = sp at *
  generalize (k'.proctab pid).prstkbase = base at *
  have hstk : SHELL_CMDSTK = 8192 := rfl
  simp only [List.length_cons, List.length_nil] at hbase
  have heq : sp + 56 = base := by
    simp only [addrSpace] at *
    omega
  refine ⟨heq, ?_⟩
  rw [Nat.mod_eq_of_lt (show sp + 36 < addrSpace by omega),
    Nat.mod_eq_of_lt (show base < addrSpace by omega), List.map_cons, List.map_cons, List.map_nil,
    Nat.mod_eq_of_lt hd, Nat.mod_eq_of_lt hn] at hw
  exact hw

/-- **None of them is the address of a variable.** -/
theorem dummy_not_mem {sp base cfunc userret n dummy : Nat} {h : Heap} {p : Procent}
    (hd : Foreign h [cfunc, userret] dummy) (hs : CommandStack p dummy) (hbase : base = p.prstkbase)
    (hsp : sp + 56 = base) (hn : n ≤ SHELL_MAXTOK) :
    dummy ∉ frontWords sp base cfunc userret n := by
  have hhigh := hd.high
  have hout := hs.outside
  have hlow := hs.low
  have hf := hd.data cfunc (by simp)
  have hu := hd.data userret (by simp)
  have hmax : SHELL_MAXTOK = 32 := rfl
  have hstk : SHELL_CMDSTK = 8192 := rfl
  intro hm
  simp only [frontWords, List.mem_cons, List.not_mem_nil, or_false] at hm
  omega

/-- **The first switch to such a stack** calls the function with the vector. -/
theorem starts_of_words {pid : Int} {dummy argv cfunc userret : Nat} {s : Lex}
    {words : List Token} {mach : Cpu} {retaddr old new : Word}
    (hs : CommandStack (k.proctab pid) dummy)
    (hsp : (k.proctab pid).prstkptr + 56 = (k.proctab pid).prstkbase)
    (hw : Words k.heap.mem (k.proctab pid).prstkptr (frontWords (k.proctab pid).prstkptr
      (k.proctab pid).prstkbase cfunc userret words.length ++ [argv, STACKMAGIC]))
    (hargs : ArgsAt k.heap.mem (k.proctab pid) argv words.length (packed words).length s.tok
      s.tokbuf) (hf : Front s words)
    (hlow : (k.proctab pid).prstkbase + 4 ≤ argv + SHELL_CMDSTK)
    (hcall : Called mach retaddr old new)
    (hold : Separate (mach.gpr .esp - 40).toNat 52 old.toNat 4)
    (hrun : FirstRun mach old new k pid) :
    Started (ctxsw mach) (k.proctab pid).prstkbase cfunc userret [words.length, argv] ∧
      ArgVector (ctxsw mach).mem argv words := by
  obtain ⟨hcell, hstack, hspared, hspared'⟩ := hrun
  have hbase := hs.high
  have hbot := hs.low
  have hsize := hs.len
  have hfits := hargs.fits
  have hstk : SHELL_CMDSTK = 8192 := rfl
  generalize k.proctab pid = p at *
  obtain ⟨w, hwp⟩ : ∃ w : Word, p.prstkptr = w.toNat := ⟨BitVec.ofNat 32 p.prstkptr, by
    rw [BitVec.toNat_ofNat, Nat.mod_eq_of_lt (by simp only [addrSpace] at *; omega)]⟩
  -- the words of the frame, in the memory of the machine
  have hmach : Words mach.mem w.toNat (frontWords p.prstkptr p.prstkbase cfunc userret
      words.length ++ [argv, STACKMAGIC]) := by
    rw [← hwp]
    refine hw.congr fun i hi => ?_
    simp only [frontWords, List.length_append, List.length_cons, List.length_nil] at hi
    refine load_congr (by omega) fun x h1 h2 => hstack x (by omega) (by omega)
  have hframe : Spared mach old w.toNat (4 * (2 + 13)) := by
    have hp := hspared'.part (show 8132 + 60 ≤ p.prstklen by omega)
    rwa [show p.prstkbase + 4 - p.prstklen + 8132 = w.toNat by omega] at hp
  have hmod : frontWords p.prstkptr p.prstkbase cfunc userret words.length ++ [argv, STACKMAGIC] =
      [0, 0, p.prstkptr + 36, w.toNat, 0, 0, 0, 0, 0x200, p.prstkbase % addrSpace,
        cfunc % addrSpace, userret % addrSpace] ++
        ([words.length, argv].map (· % addrSpace) ++ [STACKMAGIC]) := by
    rw [Nat.mod_eq_of_lt (show p.prstkbase < addrSpace by omega), List.map_cons, List.map_cons,
      List.map_nil, Nat.mod_eq_of_lt (show words.length < addrSpace by omega),
      Nat.mod_eq_of_lt (show argv < addrSpace by omega), ← hwp]
    rfl
  rw [hmod] at hmach
  obtain ⟨hstart, hsaved⟩ := switch_to_words hcall hold (show p.prstkptr + 36 < addrSpace by omega)
    (show (w.toNat + 4 * ([words.length, argv].length + 12)) % addrSpace =
      p.prstkbase % addrSpace by rw [← hwp, ← hsp]; rfl)
    (hwp ▸ hcell) hspared hmach hframe
  refine ⟨hstart, (hargs.congr (by omega) fun x h1 h2 => ?_).vector hf (by omega)⟩
  have hkeep : Spared mach old (p.prstkbase + 4 - p.prstklen) (4 * 2048) := by
    rw [hsize] at hspared' ⊢
    exact hspared'
  rw [ctxsw_eq, restore_mem, hsaved.bytes hkeep (by omega) (by omega) (by omega)]
  exact hstack x (by omega) (by omega)

/-- **A command that is created starts with its words.** -/
theorem spawn_starts {s : Lex} {words : List Token} {cmd : Command} {e : Cmdent} {k₁ : Kernel}
    {tmparg : Nat} {child : Int} (hf : Front s words) (hne : words ≠ [])
    (hntok : cmd.ntok = words.length) (htlen : cmd.tlen = (packed words).length)
    (hlen : (packed words).length ≤ SHELL_BUFLEN + SHELL_MAXTOK)
    (hc : create e.cfunc SHELL_CMDSTK SHELL_CMDPRIO (fun i => e.cname.getD i NULLCH)
      [cmd.ntok.toNat, tmparg] k = some (k₁, child)) (hchild : child ≠ SYSERR)
    (hfree : Unwrapped k.heap) (hvar : Foreign k.heap [e.cfunc, k.image.userret] tmparg) :
    ∃ k' argv, spawn e s cmd tmparg k = some (k', child) ∧ k'.proctab = k₁.proctab ∧
      CommandStarts k₁ k' child e.cfunc k.image.userret argv words := by
  have hn : cmd.ntok.toNat = words.length := by rw [hntok, Int.toNat_natCast]
  rw [hn] at hc
  have hmax : SHELL_MAXTOK = 32 := rfl
  have hfew := hf.few
  have hs := create_commandStack hc hchild hfree hvar
  obtain ⟨hsp, hw⟩ := create_words hc hchild hs hvar.high.2 (by simp only [addrSpace]; omega)
  have htok : ∀ i < words.length, 0 ≤ s.tok i := by
    intro i hi
    rw [hf.tok i hi]
    exact Int.natCast_nonneg _
  obtain ⟨m, hadd, hw', hargs, honly⟩ := @addargs_spec k₁ child _ _ _ s.tok s.tokbuf _ _ hs hsp hw
    rfl (dummy_not_mem hvar hs rfl hsp hfew) (List.length_pos_of_ne_nil hne) hfew hlen htok
  obtain ⟨k', hk'⟩ : ∃ k', k' = k₁.setHeap { k₁.heap with mem := m } := ⟨_, rfl⟩
  have htab : k'.proctab = k₁.proctab := by rw [hk', setHeap_proctab]
  have hmem : k'.heap.mem = m := by rw [hk']; rfl
  rw [← hk'] at hadd
  rw [← htab] at hs hsp hw' hargs honly
  rw [← hmem] at hw' hargs honly
  have hlow := (argLoc_eq hs).1
  refine ⟨k', argLoc (k'.proctab child), ?_, htab, ⟨?_, hargs.fits, by omega, honly, ?_⟩⟩
  · unfold spawn
    rw [hn, hc, Option.bind_eq_bind, Option.bind_some]
    simp only [if_neg hchild, hntok, htlen, hadd]
    rfl
  · rw [hs.len]
    exact hlow
  · intro mach retaddr old new hcall hold hrun
    exact starts_of_words hs hsp hw' hargs hf hlow hcall hold hrun

/-! ## 9. Every line

The parts are put together: `lexan`, the shell's reading, the table, `create`, `addargs`, and the
switch. -/

theorem length_le_packed (ts : List Token) : ts.length ≤ (packed ts).length := by
  induction ts with
  | nil => exact Nat.zero_le _
  | cons t ts ih =>
    simp only [packed, List.flatMap_cons, List.length_append, List.length_cons] at ih ⊢
    omega

/-- The words of a command are not longer than the text. -/
theorem Parses.words_le {ps : List Piece} {c : Reading} (hc : Parses (ps.filterMap Piece.token) c)
    (hs : Splits text ps) : (packed c.words).length ≤ text.length + c.words.length := by
  obtain ⟨rs, -, hr⟩ := hc.rest
  have hle := packed_length ps
  rw [hs.text, hr, packed_append, List.length_append, List.length_append] at hle
  have hrest := length_le_packed (rs ++ if c.backgnd then [amper] else [])
  omega

/-- **Every command starts with its words.**  If the shell accepts a line and creates a process for
the command that it finds, the argument copy does not fail, and the process starts with the function
of the command called with the number of words and a vector of them. -/
theorem command_arguments (line : List UInt8) (tokbuf : Nat → UInt8) (tlen : Int)
    (tok toktyp : Nat → Int) (hend : ∃ c ∈ line, isEnd c)
    (hlen : (lineText line).length ≤ SHELL_BUFLEN - 1) {s : Lex} {r : Int} {cmd : Command}
    (hlex : lexan line tokbuf tlen tok toktyp = some (s, r))
    (hparse : parse s r = some (.lookup cmd)) {xsh : String → Nat} {e : Cmdent}
    (he : lookupCommand (cmdtab xsh) s.tokbuf = some e) {k k₁ : Kernel} {tmparg : Nat} {child : Int}
    (hc : create e.cfunc SHELL_CMDSTK SHELL_CMDPRIO (fun i => e.cname.getD i NULLCH)
      [cmd.ntok.toNat, tmparg] k = some (k₁, child)) (hchild : child ≠ SYSERR)
    (hfree : Unwrapped k.heap) (hvar : Foreign k.heap [e.cfunc, k.image.userret] tmparg) :
    ∃ ps c k' argv, Splits (lineText line) ps ∧ Parses (ps.filterMap Piece.token) c ∧
      (∃ w ws, c.words = w :: ws ∧ e.cname = w.text) ∧
      spawn e s cmd tmparg k = some (k', child) ∧ k'.proctab = k₁.proctab ∧
      CommandStarts k₁ k' child e.cfunc k.image.userret argv c.words := by
  obtain ⟨s', r', reply, hl, -, hp, hr⟩ :=
    shell_reads_grammar line tokbuf tlen tok toktyp hend hlen
  rw [hlex, Option.some.injEq, Prod.mk.injEq] at hl
  obtain ⟨rfl, rfl⟩ := hl
  obtain rfl : Reply.lookup cmd = reply := Option.some.inj (hparse.symm.trans hp)
  rcases hr with ⟨-, hsyn | hsyn⟩ | ⟨ps, ts, hs, hts, hrn, ha⟩
  · exact Reply.noConfusion hsyn
  · exact Reply.noConfusion hsyn
  rcases ha with ⟨-, h⟩ | ⟨c, cmd', hc', -, heq, hacc⟩ | ⟨-, -, h | h⟩
  · exact Reply.noConfusion h
  · obtain rfl : cmd = cmd' := Reply.lookup.inj heq
    subst hts
    have hle := hc'.words_le hs
    have hfew := hacc.words.few
    obtain ⟨w, ws, hw⟩ := List.exists_cons_of_ne_nil hc'.named
    have hname := (lookup_name (hw ▸ hacc.words) he).2
    obtain ⟨k', argv, hspawn, htab, hstart⟩ := spawn_starts hacc.words hc'.named hacc.ntok hacc.tlen
      (by omega) hc hchild hfree hvar
    exact ⟨ps, c, k', argv, hs, hc', ⟨w, ws, hw, hname⟩, hspawn, htab, hstart⟩
  · exact Reply.noConfusion h
  · exact Reply.noConfusion h

/-- `echo hi` and the end of the line. -/
def echoLine : List UInt8 := [101, 99, 104, 111, 32, 104, 105, 10]

theorem bootHeap_free {b : Nat} (h : OnFreeList bootHeap b) : b = 0x142000 ∨ b = 0 := by
  have hfirst : mnext bootHeap.mem bootHeap.memlist = 0x142000 := by decide +kernel
  have hnext : mnext bootHeap.mem 0x142000 = 0 := by decide +kernel
  induction h with
  | first => exact .inl hfirst
  | next _ hb ih =>
    obtain rfl := ih.resolve_right hb
    exact .inr hnext

/-- What the shell finds on the line. -/
def echoCommand : Command := ⟨2, 8, none, none, false⟩
def echoEntry : Cmdent := ⟨cstring "echo", false, 0x100040⟩

theorem command_arguments_echo : ∃ s r k₁ child,
    lexan echoLine (fun _ => 0) 0 (fun _ => 0) (fun _ => 0) = some (s, r) ∧
    parse s r = some (.lookup echoCommand) ∧
    ∃ ps c k' argv, Splits (lineText echoLine) ps ∧ Parses (ps.filterMap Piece.token) c ∧
      (∃ w ws, c.words = w :: ws ∧ echoEntry.cname = w.text) ∧
      spawn echoEntry s echoCommand 0x130000 (bss xinuImage bootHeap) = some (k', child) ∧
      k'.proctab = k₁.proctab ∧
      CommandStarts k₁ k' child echoEntry.cfunc xinuImage.userret argv c.words := by
  have hsome : (lexan echoLine (fun _ => 0) 0 (fun _ => 0) (fun _ => 0)).isSome = true := by decide
  have hall : ∀ x ∈ lexan echoLine (fun _ => 0) 0 (fun _ => 0) (fun _ => 0),
      parse x.1 x.2 = some (.lookup echoCommand) ∧
      lookupCommand (cmdtab fun _ => 0x100040) x.1.tokbuf = some echoEntry := by
    decide
  have hmade : (create echoEntry.cfunc SHELL_CMDSTK SHELL_CMDPRIO
      (fun i => echoEntry.cname.getD i NULLCH) [echoCommand.ntok.toNat, 0x130000]
      (bss xinuImage bootHeap)).isSome = true := by decide +kernel
  have hchild : ∀ x ∈ create echoEntry.cfunc SHELL_CMDSTK SHELL_CMDPRIO
      (fun i => echoEntry.cname.getD i NULLCH) [echoCommand.ntok.toNat, 0x130000]
      (bss xinuImage bootHeap), x.2 ≠ SYSERR := by decide +kernel
  obtain ⟨⟨s, r⟩, hlex⟩ := Option.isSome_iff_exists.mp hsome
  obtain ⟨hparse, he⟩ := hall _ hlex
  obtain ⟨⟨k₁, child⟩, hc⟩ := Option.isSome_iff_exists.mp hmade
  have hlen : mlength bootHeap.mem 0x142000 = 0x100000 := by decide +kernel
  have hfree : Unwrapped (bss xinuImage bootHeap).heap := by
    intro b hb hb0
    obtain rfl := (bootHeap_free hb).resolve_right hb0
    exact le_trans (Nat.add_le_add_left hlen.le _) (by decide)
  have hvar : Foreign (bss xinuImage bootHeap).heap
      [echoEntry.cfunc, (bss xinuImage bootHeap).image.userret] 0x130000 := by
    refine ⟨by decide, by decide, fun b hb hb0 => ?_⟩
    obtain rfl := (bootHeap_free hb).resolve_right hb0
    exact .inl (by decide)
  exact ⟨s, r, k₁, child, hlex, hparse, command_arguments echoLine _ _ _ _
    ⟨10, by decide, by decide⟩ (by decide) hlex hparse he hc (hchild _ hc) hfree hvar⟩

end Xinu
