/-
# The context switch: `ctxsw.S` against the stack that `create` builds

`ctxsw` is thirteen instructions, and this module is a machine for exactly these: eight general
registers, the flags, a flat memory and the address control goes to.  The code is a list of
instructions (`ctxswCode`), and `run` executes it.

Two facts about the code carry everything else.  `save_spec` says what the first half leaves on
the old stack, and `restore_spec` what the second half makes of the words it finds on the new
one.  `create` pushes words that the second half accepts (`buildStack_words`), and the first half
pushes words that the second half turns back into the registers (`switch_back`).

One instruction stands between `popfl` and `ret`: `add $4,%esp`.  It sets the six status flags
from the stack pointer, so these six do not survive a switch.

The words on the stacks are runs of addresses going up by 4 (`Words`), so that pushing, popping
and building a stack are the same kind of statement.  What a switch must not touch is a hypothesis
on addresses (`Spared`), which a new stack outside the old one meets.
-/
import Xinu.System

namespace Xinu

open ByteMemory

/-! ## 1. The machine

The semantics of each instruction is the processor's: where the operand is written, and which
flags change. -/

/-- The general registers, in the order `pushal` pushes them. -/
inductive Reg
  | eax
  | ecx
  | edx
  | ebx
  | esp
  | ebp
  | esi
  | edi
deriving DecidableEq, Repr

abbrev Word := BitVec 32

/-- The flags register: bit 1 always reads as 1. -/
abbrev Eflags := { f : Word // f ||| 2 = f }

/-- What `popfl` makes of a word. -/
def Eflags.ofWord (w : Word) : Eflags := ⟨w ||| 2, by rw [BitVec.or_assoc, BitVec.or_self]⟩

/-- The status flags CF, PF, AF, ZF, SF and OF. -/
def statusMask : Word := 0x8d5

/-- The number of bits set in the low byte of a word. -/
def lowBits (w : Word) : Nat := ((List.range 8).filter fun i => w.getLsbD i).length

/-- The status flags after adding `b` to `a`. -/
def addStatus (a b : Word) : Word :=
  let r := a + b
  (if a.toNat + b.toNat ≥ addrSpace then 0x1 else 0)
    ||| (if lowBits r % 2 = 0 then 0x4 else 0)
    ||| (if a.toNat % 16 + b.toNat % 16 ≥ 16 then 0x10 else 0)
    ||| (if r = 0 then 0x40 else 0)
    ||| (if r.msb then 0x80 else 0)
    ||| (if a.msb = b.msb ∧ a.msb ≠ r.msb then 0x800 else 0)

/-- The flags after an `add`. -/
def Eflags.add (f : Eflags) (a b : Word) : Eflags :=
  .ofWord (f.val &&& ~~~statusMask ||| addStatus a b &&& statusMask)

/-- The machine.  `eip` is where control goes when the code returns. -/
@[ext] structure Cpu where
  gpr : Reg → Word
  eflags : Eflags
  eip : Word
  mem : Mem

/-- The instructions of `ctxsw`, source operand first. -/
inductive Instr
  | pushl (src : Reg)
  | movl (src dst : Reg)
  | pushfl
  | pushal
  /-- `movl disp(base),dst`. -/
  | load (disp : Word) (base dst : Reg)
  /-- `movl src,(base)`. -/
  | store (src base : Reg)
  | popal
  | popfl
  | addl (imm : Word) (dst : Reg)
  | ret

def Cpu.set (s : Cpu) (r : Reg) (v : Word) : Cpu := { s with gpr := Function.update s.gpr r v }

/-- The word in memory at `a`. -/
def Cpu.read (s : Cpu) (a : Word) : Word := BitVec.ofNat 32 (load s.mem a.toNat)

def Cpu.push (s : Cpu) (v : Word) : Cpu :=
  { s with
    gpr := Function.update s.gpr .esp (s.gpr .esp - 4)
    mem := store s.mem (s.gpr .esp - 4).toNat v.toNat }

/-- Pop a word into a register. -/
def Cpu.pop (s : Cpu) (r : Reg) : Cpu :=
  (s.set .esp (s.gpr .esp + 4)).set r (s.read (s.gpr .esp))

def Instr.exec (s : Cpu) : Instr → Cpu
  | .pushl src => s.push (s.gpr src)
  | .movl src dst => s.set dst (s.gpr src)
  | .pushfl => s.push s.eflags.val
  | .pushal =>
    [s.gpr .eax, s.gpr .ecx, s.gpr .edx, s.gpr .ebx, s.gpr .esp, s.gpr .ebp, s.gpr .esi,
      s.gpr .edi].foldl Cpu.push s
  | .load disp base dst => s.set dst (s.read (s.gpr base + disp))
  | .store src base => { s with mem := ByteMemory.store s.mem (s.gpr base).toNat (s.gpr src).toNat }
  | .popal =>
    let s := ((s.pop .edi).pop .esi).pop .ebp
    -- the stored stack pointer is skipped
    let s := s.set .esp (s.gpr .esp + 4)
    (((s.pop .ebx).pop .edx).pop .ecx).pop .eax
  | .popfl =>
    { s.set .esp (s.gpr .esp + 4) with eflags := .ofWord (s.read (s.gpr .esp)) }
  | .addl imm dst => { s.set dst (s.gpr dst + imm) with eflags := s.eflags.add (s.gpr dst) imm }
  | .ret => { s.set .esp (s.gpr .esp + 4) with eip := s.read (s.gpr .esp) }

def run (code : List Instr) (s : Cpu) : Cpu := code.foldl Instr.exec s

/-- `ctxsw` up to the instruction that changes stacks. -/
def saveCode : List Instr :=
  [.pushl .ebp, .movl .esp .ebp, .pushfl, .pushal, .load 8 .ebp .eax, .store .esp .eax,
    .load 12 .ebp .eax, .load 0 .eax .esp]

/-- The rest of `ctxsw`. -/
def restoreCode : List Instr := [.popal, .load 4 .esp .ebp, .popfl, .addl 4 .esp, .ret]

def ctxswCode : List Instr := saveCode ++ restoreCode

/-- `ctxsw(&old_sp, &new_sp)`, from the instruction after the `call` on. -/
def ctxsw (s : Cpu) : Cpu := run ctxswCode s

/-! ## 2. Pushing and popping

Pushes write downwards, so the run of words they leave has the last one first.  A register that is
set leaves the others and the memory alone. -/

@[simp] theorem read_set (s : Cpu) (r : Reg) (v a : Word) : (s.set r v).read a = s.read a := rfl

@[simp] theorem read_pop (s : Cpu) (r : Reg) (a : Word) : (s.pop r).read a = s.read a := rfl

@[simp] theorem mem_set (s : Cpu) (r : Reg) (v : Word) : (s.set r v).mem = s.mem := rfl

@[simp] theorem mem_pop (s : Cpu) (r : Reg) : (s.pop r).mem = s.mem := rfl

theorem gpr_set (s : Cpu) (r x : Reg) (v : Word) :
    (s.set r v).gpr x = if x = r then v else s.gpr x := by
  cases hx : decide (x = r) <;> simp at hx <;> simp [Cpu.set, hx]

theorem gpr_pop (s : Cpu) (r x : Reg) : (s.pop r).gpr x =
    if x = r then s.read (s.gpr .esp) else if x = .esp then s.gpr .esp + 4 else s.gpr x := by
  rw [Cpu.pop, gpr_set, gpr_set]

theorem sub_four_toNat (a : Word) : (a - 4).toNat = (a.toNat + addrSpace - 4) % addrSpace := by
  simp only [addrSpace]
  bv_omega

theorem toNat_map_mod (vs : List Word) :
    (vs.map BitVec.toNat).map (· % addrSpace) = vs.map BitVec.toNat := by
  rw [List.map_map]
  refine List.map_congr_left fun v _ => ?_
  exact Nat.mod_eq_of_lt v.isLt

/-- **Pushing registers is `pushAll` on the stack.** -/
theorem pushes_eq (s : Cpu) (vs : List Word) : vs.foldl Cpu.push s =
    { s with
      gpr := Function.update s.gpr .esp (s.gpr .esp - BitVec.ofNat 32 (4 * vs.length))
      mem := (pushAll s.mem (s.gpr .esp).toNat (vs.map BitVec.toNat)).1 } := by
  induction vs generalizing s with
  | nil => simp [pushAll]
  | cons v vs ih =>
    rw [List.foldl_cons, ih]
    have hsp : (s.push v).gpr .esp = s.gpr .esp - 4 := by simp [Cpu.push]
    have hlen : s.gpr .esp - 4 - BitVec.ofNat 32 (4 * vs.length) =
        s.gpr .esp - BitVec.ofNat 32 (4 * (vs.length + 1)) := by
      apply BitVec.eq_of_toNat_eq
      simp only [BitVec.toNat_sub, BitVec.toNat_ofNat, BitVec.ofNat_eq_ofNat]
      omega
    rw [hsp, hlen, sub_four_toNat]
    simp only [Cpu.push, Function.update_idem, List.map_cons, pushAll, List.length_cons,
      sub_four_toNat]

/-- What lies on the stack after pushing. -/
theorem words_pushes {m : Mem} {sp : Word} {vs : List Word} {ws : List Nat}
    (h : Words m sp.toNat ws) (hn : 4 * (ws.length + vs.length) ≤ addrSpace) :
    Words (pushAll m sp.toNat (vs.map BitVec.toNat)).1
      (sp - BitVec.ofNat 32 (4 * vs.length)).toNat ((vs.reverse.map BitVec.toNat) ++ ws) := by
  have hw := h.pushed (vs.map BitVec.toNat) (by rw [List.length_map]; exact hn)
  rw [toNat_map_mod, ← List.map_reverse] at hw
  refine hw.congr_mod ?_
  have hsp := @pushAll_snd_mod m sp.toNat (vs.map BitVec.toNat)
  rw [List.length_map] at hsp
  have hlt := sp.isLt
  simp only [BitVec.toNat_sub, BitVec.toNat_ofNat, addrSpace] at *
  omega

/-- The word of a run that lies `4 * i` above its start. -/
theorem read_word {s : Cpu} {sp w : Word} {ys : List Nat} (xs : List Word)
    (h : Words s.mem sp.toNat (xs.map BitVec.toNat ++ w.toNat :: ys)) :
    s.read (sp + BitVec.ofNat 32 (4 * xs.length)) = w := by
  have hw := (words_append.mp h).2.1
  rw [List.length_map] at hw
  have ha : load s.mem (sp + BitVec.ofNat 32 (4 * xs.length)).toNat = w.toNat := by
    rw [← hw, ← load_mod s.mem (sp.toNat + 4 * xs.length)]
    congr 1
    simp only [BitVec.toNat_add, BitVec.toNat_ofNat, addrSpace]
    omega
  rw [Cpu.read, ha, BitVec.ofNat_toNat, BitVec.setWidth_eq]

/-! ## 3. The second half: from words to registers

Eleven words from the stack pointer up decide the state in which the code returns, whoever wrote
them. -/

/-- The words `ctxsw` expects on the stack of a process it resumes. -/
structure Frame where
  edi : Word
  esi : Word
  /-- The value `ebp` had while `ctxsw` saved the registers. -/
  link : Word
  /-- The value `esp` had when `pushal` began. -/
  skipped : Word
  ebx : Word
  edx : Word
  ecx : Word
  eax : Word
  eflags : Word
  ebp : Word
  retaddr : Word

/-- The frame from the saved stack pointer upwards. -/
def Frame.list (f : Frame) : List Word :=
  [f.edi, f.esi, f.link, f.skipped, f.ebx, f.edx, f.ecx, f.eax, f.eflags, f.ebp, f.retaddr]

def Frame.words (f : Frame) : List Nat := f.list.map BitVec.toNat

/-- The registers of a frame. -/
def Frame.gpr (f : Frame) (sp : Word) : Reg → Word
  | .eax => f.eax
  | .ecx => f.ecx
  | .edx => f.edx
  | .ebx => f.ebx
  | .esp => sp + 44
  | .ebp => f.ebp
  | .esi => f.esi
  | .edi => f.edi

/-- The machine that has resumed from the frame `f` at `sp`. -/
def Frame.resumed (f : Frame) (sp : Word) (m : Mem) : Cpu where
  gpr := f.gpr sp
  eflags := (Eflags.ofWord f.eflags).add (sp + 36) 4
  eip := f.retaddr
  mem := m

theorem resumed_gpr (f : Frame) (sp : Word) (m : Mem) : (f.resumed sp m).gpr = f.gpr sp := rfl

theorem resumed_eip (f : Frame) (sp : Word) (m : Mem) : (f.resumed sp m).eip = f.retaddr := rfl

theorem resumed_mem (f : Frame) (sp : Word) (m : Mem) : (f.resumed sp m).mem = m := rfl

theorem resumed_eflags (f : Frame) (sp : Word) (m : Mem) :
    (f.resumed sp m).eflags = (Eflags.ofWord f.eflags).add (sp + 36) 4 := rfl

/-- **The second half of `ctxsw`** resumes from the frame at the stack pointer. -/
theorem restore_spec {s : Cpu} {f : Frame} (h : Words s.mem (s.gpr .esp).toNat f.words) :
    run restoreCode s = f.resumed (s.gpr .esp) s.mem := by
  have h0 : s.read (s.gpr .esp) = f.edi := by
    have := read_word [] (w := f.edi) h
    simpa using this
  have h1 : s.read (s.gpr .esp + BitVec.ofNat 32 4) = f.esi := read_word [f.edi] h
  have h2 : s.read (s.gpr .esp + BitVec.ofNat 32 8) = f.link := read_word [f.edi, f.esi] h
  have h4 : s.read (s.gpr .esp + BitVec.ofNat 32 16) = f.ebx :=
    read_word [f.edi, f.esi, f.link, f.skipped] h
  have h5 : s.read (s.gpr .esp + BitVec.ofNat 32 20) = f.edx :=
    read_word [f.edi, f.esi, f.link, f.skipped, f.ebx] h
  have h6 : s.read (s.gpr .esp + BitVec.ofNat 32 24) = f.ecx :=
    read_word [f.edi, f.esi, f.link, f.skipped, f.ebx, f.edx] h
  have h7 : s.read (s.gpr .esp + BitVec.ofNat 32 28) = f.eax :=
    read_word [f.edi, f.esi, f.link, f.skipped, f.ebx, f.edx, f.ecx] h
  have h8 : s.read (s.gpr .esp + BitVec.ofNat 32 32) = f.eflags :=
    read_word [f.edi, f.esi, f.link, f.skipped, f.ebx, f.edx, f.ecx, f.eax] h
  have h9 : s.read (s.gpr .esp + BitVec.ofNat 32 36) = f.ebp :=
    read_word [f.edi, f.esi, f.link, f.skipped, f.ebx, f.edx, f.ecx, f.eax, f.eflags] h
  have h10 : s.read (s.gpr .esp + BitVec.ofNat 32 40) = f.retaddr :=
    read_word [f.edi, f.esi, f.link, f.skipped, f.ebx, f.edx, f.ecx, f.eax, f.eflags,
      f.ebp] h
  -- what the instructions pop, with the offset of each word from the old stack pointer
  refine Cpu.ext (funext fun r => ?_) ?_ ?_ rfl
  · cases r <;>
    simp only [run, restoreCode, List.foldl_cons, List.foldl_nil, Instr.exec, gpr_set, gpr_pop,
      read_set, read_pop, reduceCtorEq, if_true, if_false, Frame.gpr, Frame.resumed,
      BitVec.add_assoc, BitVec.ofNat_eq_ofNat, BitVec.reduceAdd, h0, h1, h2, h4, h5, h6, h7, h9]
  · simp only [run, restoreCode, List.foldl_cons, List.foldl_nil, Instr.exec, gpr_set, gpr_pop,
      read_set, read_pop, reduceCtorEq, if_true, if_false, BitVec.add_assoc,
      BitVec.ofNat_eq_ofNat, BitVec.reduceAdd, h8]
    rfl
  · simp only [run, restoreCode, List.foldl_cons, List.foldl_nil, Instr.exec, gpr_set, gpr_pop,
      reduceCtorEq, if_true, if_false, BitVec.add_assoc, BitVec.ofNat_eq_ofNat, BitVec.reduceAdd]
    exact h10

/-! ## 4. The first half: from registers to words

The pushes and the exchange of the stack pointers.  What they leave is again a frame, of the
registers at the call. -/

/-- The frame the first half pushes, when `retaddr` is what `ctxsw` returns to. -/
def Cpu.frame (s : Cpu) (retaddr : Word) : Frame where
  edi := s.gpr .edi
  esi := s.gpr .esi
  link := s.gpr .esp - 4
  skipped := s.gpr .esp - 8
  ebx := s.gpr .ebx
  edx := s.gpr .edx
  ecx := s.gpr .ecx
  eax := s.gpr .eax
  eflags := s.eflags.val
  ebp := s.gpr .ebp
  retaddr := retaddr

/-- The stack after `call ctxsw` with the arguments `old` and `new`. -/
def Called (s : Cpu) (retaddr old new : Word) : Prop :=
  Words s.mem (s.gpr .esp).toNat [retaddr.toNat, old.toNat, new.toNat]

instance (s : Cpu) (retaddr old new : Word) : Decidable (Called s retaddr old new) :=
  inferInstanceAs (Decidable (Words _ _ _))

/-- The instructions that push. -/
def pushCode : List Instr := [.pushl .ebp, .movl .esp .ebp, .pushfl, .pushal]

/-- Words separate from those pushed stay. -/
theorem load_pushes {m : Mem} {sp : Word} {vs : List Word} {a : Nat}
    (h : Separate a 4 (sp - BitVec.ofNat 32 (4 * vs.length)).toNat (4 * vs.length)) :
    load (pushAll m sp.toNat (vs.map BitVec.toNat)).1 a = load m a := by
  refine load_pushAll_of_separate fun i hi j hj => ?_
  rw [List.length_map] at hj
  have hne := h i hi j hj
  have hsp := @pushAll_snd_mod m sp.toNat (vs.map BitVec.toNat)
  have hlt := sp.isLt
  rw [List.length_map] at hsp
  simp only [BitVec.toNat_sub, BitVec.toNat_ofNat, addrSpace] at *
  omega

/-- What the pushes leave. -/
structure Pushed (s : Cpu) (retaddr old new : Word) (t : Cpu) : Prop where
  esp : t.gpr .esp = s.gpr .esp - 40
  ebp : t.gpr .ebp = s.gpr .esp - 4
  words : Words t.mem (s.gpr .esp - 40).toNat
    ((s.frame retaddr).words ++ [old.toNat, new.toNat])
  others : ∀ a, Separate a 4 (s.gpr .esp - 40).toNat 40 → load t.mem a = load s.mem a

theorem gpr_pushes (s : Cpu) (vs : List Word) (x : Reg) : (vs.foldl Cpu.push s).gpr x =
    if x = .esp then s.gpr .esp - BitVec.ofNat 32 (4 * vs.length) else s.gpr x := by
  rw [pushes_eq]
  cases hx : decide (x = .esp) <;> simp at hx <;> simp [hx]

theorem pushes_words {s : Cpu} {ws : List Nat} (vs : List Word)
    (h : Words s.mem (s.gpr .esp).toNat ws) (hn : 4 * (ws.length + vs.length) ≤ addrSpace) :
    Words (vs.foldl Cpu.push s).mem ((vs.foldl Cpu.push s).gpr .esp).toNat
      (vs.reverse.map BitVec.toNat ++ ws) := by
  rw [gpr_pushes, if_pos rfl, pushes_eq]
  exact words_pushes h hn

/-- Pushing `n` of the ten words changes nothing separate from the ten. -/
theorem pushes_others {s : Cpu} {top : Word} {a i : Nat} (vs : List Word)
    (hn : i + vs.length ≤ 10) (ht : (vs.foldl Cpu.push s).gpr .esp = top + BitVec.ofNat 32 (4 * i))
    (h : Separate a 4 top.toNat 40) : load (vs.foldl Cpu.push s).mem a = load s.mem a := by
  rw [gpr_pushes, if_pos rfl] at ht
  rw [pushes_eq]
  refine load_pushes fun x hx y hy => ?_
  have hne := h x hx (4 * i + y) (by omega)
  rw [ht, BitVec.toNat_add, BitVec.toNat_ofNat]
  simp only [addrSpace] at *
  omega

/-- **The first half pushes the frame.** -/
theorem push_spec {s : Cpu} {retaddr old new : Word} (h : Called s retaddr old new) :
    Pushed s retaddr old new (run pushCode s) := by
  -- `pushl %ebp; movl %esp,%ebp`, then `pushfl`, then `pushal`
  set s₁ := [s.gpr .ebp].foldl Cpu.push s with e₁
  set s₂ := s₁.set .ebp (s₁.gpr .esp) with e₂
  set s₃ := [s.eflags.val].foldl Cpu.push s₂ with e₃
  have hsp₁ : s₁.gpr .esp = s.gpr .esp - 4 := by rw [e₁, gpr_pushes, if_pos rfl]; rfl
  have hsp₂ : s₂.gpr .esp = s.gpr .esp - 4 := by rw [e₂, gpr_set, if_neg (by simp), hsp₁]
  have hsp₃ : s₃.gpr .esp = s.gpr .esp - 8 := by
    rw [e₃, gpr_pushes, if_pos rfl, hsp₂, BitVec.sub_sub]
    rfl
  have hbp₃ : s₃.gpr .ebp = s.gpr .esp - 4 := by
    rw [e₃, gpr_pushes, if_neg (by simp), e₂, gpr_set, if_pos rfl, hsp₁]
  have hkeep : ∀ r, r ≠ .esp → r ≠ .ebp → s₃.gpr r = s.gpr r := by
    intro r h1 h2
    rw [e₃, gpr_pushes, if_neg h1, e₂, gpr_set, if_neg h2, e₁, gpr_pushes, if_neg h1]
  have hflags : s₂.eflags = s.eflags := rfl
  have hrun : run pushCode s = [s₃.gpr .eax, s₃.gpr .ecx, s₃.gpr .edx, s₃.gpr .ebx, s₃.gpr .esp,
      s₃.gpr .ebp, s₃.gpr .esi, s₃.gpr .edi].foldl Cpu.push s₃ := by
    rw [e₃, ← hflags, e₂, e₁]
    simp only [run, pushCode, List.foldl_cons, List.foldl_nil, Instr.exec]
  rw [hsp₃, hbp₃, hkeep .eax (by simp) (by simp), hkeep .ecx (by simp) (by simp),
    hkeep .edx (by simp) (by simp), hkeep .ebx (by simp) (by simp),
    hkeep .esi (by simp) (by simp), hkeep .edi (by simp) (by simp)] at hrun
  clear_value s₁ s₂ s₃
  generalize hvs : [s.gpr .eax, s.gpr .ecx, s.gpr .edx, s.gpr .ebx, s.gpr .esp - 8,
    s.gpr .esp - 4, s.gpr .esi, s.gpr .edi] = vs at hrun
  have hlen : vs.length = 8 := by rw [← hvs]; rfl
  have hend : (vs.foldl Cpu.push s₃).gpr .esp = s.gpr .esp - 40 := by
    rw [gpr_pushes, if_pos rfl, hsp₃, BitVec.sub_sub, hlen]
    rfl
  have hw₁ : Words s₁.mem (s₁.gpr .esp).toNat
      [(s.gpr .ebp).toNat, retaddr.toNat, old.toNat, new.toNat] := by
    rw [e₁]
    exact pushes_words [s.gpr .ebp] h
      (by simp only [List.length_cons, List.length_nil, addrSpace]; omega)
  have hw₂ : Words s₂.mem (s₂.gpr .esp).toNat
      [(s.gpr .ebp).toNat, retaddr.toNat, old.toNat, new.toNat] := by
    rw [hsp₂, ← hsp₁, e₂]
    exact hw₁
  have hw₃ : Words s₃.mem (s₃.gpr .esp).toNat
      [s.eflags.val.toNat, (s.gpr .ebp).toNat, retaddr.toNat, old.toNat, new.toNat] := by
    rw [e₃]
    exact pushes_words [s.eflags.val] hw₂
      (by simp only [List.length_cons, List.length_nil, addrSpace]; omega)
  have hw₄ := pushes_words vs hw₃
    (by simp only [hlen, List.length_cons, List.length_nil, addrSpace]; omega)
  rw [hrun]
  refine ⟨hend, ?_, ?_, fun a ha => ?_⟩
  · rw [gpr_pushes, if_neg (by simp), hbp₃]
  · rw [hend, ← hvs] at hw₄
    rw [← hvs]
    exact hw₄
  · have htop : ∀ n i : Nat, n + i = 10 → s.gpr .esp - BitVec.ofNat 32 (4 * n) =
        s.gpr .esp - 40 + BitVec.ofNat 32 (4 * i) := by
      intro n i hni
      apply BitVec.eq_of_toNat_eq
      simp only [BitVec.toNat_sub, BitVec.toNat_add, BitVec.toNat_ofNat, BitVec.ofNat_eq_ofNat]
      omega
    have h₁ : load s₁.mem a = load s.mem a := by
      rw [e₁] at hsp₁ ⊢
      exact pushes_others [s.gpr .ebp] (by simp) (hsp₁.trans (htop 1 9 rfl)) ha
    have h₂ : load s₂.mem a = load s₁.mem a := by rw [e₂, mem_set]
    have h₃ : load s₃.mem a = load s₂.mem a := by
      rw [e₃] at hsp₃ ⊢
      exact pushes_others [s.eflags.val] (by simp) (hsp₃.trans (htop 2 8 rfl)) ha
    have h₄ := pushes_others vs (by omega) (hend.trans (htop 10 0 rfl)) ha
    exact h₄.trans (h₃.trans (h₂.trans h₁))

/-- What the first half leaves. -/
structure Saved (s : Cpu) (retaddr old new : Word) (t : Cpu) : Prop where
  esp : t.gpr .esp = t.read new
  frame : Words t.mem (s.gpr .esp - 40).toNat (s.frame retaddr).words
  cell : Words t.mem old.toNat [(s.gpr .esp - 40).toNat]
  others : ∀ a, Separate a 4 (s.gpr .esp - 40).toNat 40 → Separate a 4 old.toNat 4 →
    load t.mem a = load s.mem a

/-- The instructions that exchange stack pointers. -/
def exchangeCode : List Instr :=
  [.load 8 .ebp .eax, .store .esp .eax, .load 12 .ebp .eax, .load 0 .eax .esp]

theorem exchange_spec {p q : Cpu} {old new : Word} (h1 : p.read (p.gpr .ebp + 8) = old)
    (hq : q = { p with mem := store p.mem old.toNat (p.gpr .esp).toNat })
    (h2 : q.read (p.gpr .ebp + 12) = new) :
    (run exchangeCode p).gpr .esp = q.read new ∧ (run exchangeCode p).mem = q.mem := by
  have s1 : Instr.exec p (.load 8 .ebp .eax) = p.set .eax old := by rw [Instr.exec, h1]
  have s2 : Instr.exec (p.set .eax old) (.store .esp .eax) = q.set .eax old := by
    rw [hq]
    simp only [Instr.exec, gpr_set, reduceCtorEq, if_true, if_false, mem_set]
    rfl
  have hbp : (q.set .eax old).gpr .ebp = p.gpr .ebp := by
    rw [gpr_set, if_neg (by simp), hq]
  have s3 : Instr.exec (q.set .eax old) (.load 12 .ebp .eax) = (q.set .eax old).set .eax new := by
    rw [Instr.exec, hbp, read_set, h2]
  have s4 : Instr.exec ((q.set .eax old).set .eax new) (.load 0 .eax .esp) =
      ((q.set .eax old).set .eax new).set .esp (q.read new) := by
    rw [Instr.exec, read_set, read_set, gpr_set, if_pos rfl, BitVec.ofNat_eq_ofNat,
      BitVec.add_zero]
  have hrun : run exchangeCode p = ((q.set .eax old).set .eax new).set .esp (q.read new) := by
    rw [run, exchangeCode, List.foldl_cons, List.foldl_cons, List.foldl_cons, List.foldl_cons,
      List.foldl_nil, s1, s2, s3, s4]
  rw [hrun]
  exact ⟨by rw [gpr_set, if_pos rfl], by rw [mem_set, mem_set, mem_set]⟩

/-- **The first half of `ctxsw`** saves the registers on the stack and the stack pointer in its
cell. -/
theorem save_spec {s : Cpu} {retaddr old new : Word} (h : Called s retaddr old new)
    (hold : Separate (s.gpr .esp - 40).toNat 52 old.toNat 4) :
    Saved s retaddr old new (run saveCode s) := by
  have hp := push_spec h
  have hrun : run saveCode s = run exchangeCode (run pushCode s) := by
    rw [run, run, run, ← List.foldl_append]
    rfl
  rw [hrun]
  generalize run pushCode s = p at hp
  -- the two arguments, read before and after the stack pointer is stored
  have hargs : s.gpr .esp - 40 + BitVec.ofNat 32 (4 * 11) = p.gpr .ebp + 8 ∧
      s.gpr .esp - 40 + BitVec.ofNat 32 (4 * 12) = p.gpr .ebp + 12 := by
    rw [hp.ebp]
    constructor <;>
    · apply BitVec.eq_of_toNat_eq
      simp only [BitVec.toNat_sub, BitVec.toNat_add, BitVec.toNat_ofNat, BitVec.ofNat_eq_ofNat]
      omega
  have h1 : p.read (p.gpr .ebp + 8) = old := by
    rw [← hargs.1]
    exact read_word (s.frame retaddr).list hp.words
  obtain ⟨q, hq⟩ : ∃ q : Cpu, q = { p with mem := store p.mem old.toNat (p.gpr .esp).toNat } :=
    ⟨_, rfl⟩
  have hmem : q.mem = store p.mem old.toNat (s.gpr .esp - 40).toNat := by rw [hq, hp.esp]
  have hm : Words q.mem (s.gpr .esp - 40).toNat
      ((s.frame retaddr).words ++ [old.toNat, new.toNat]) := by
    rw [hmem]
    exact hp.words.frame hold
  have h2 : q.read (p.gpr .ebp + 12) = new := by
    rw [← hargs.2]
    exact read_word ((s.frame retaddr).list ++ [old])
      (by rw [List.map_append, List.append_assoc]; exact hm)
  obtain ⟨hsp, hkept⟩ := exchange_spec h1 hq h2
  refine ⟨hsp.trans ?_, ?_, ?_, fun a ha hc => ?_⟩
  · rw [Cpu.read, Cpu.read, hkept]
  · rw [hkept]
    exact (words_append.mp hm).1
  · rw [hkept, hmem]
    exact ⟨(load_store_same _ _ _).trans (Nat.mod_eq_of_lt (BitVec.isLt _)), trivial⟩
  · rw [hkept, hmem]
    exact (load_store_of_separate hc).trans (hp.others a ha)

/-! ## 5. A whole switch

The first half of one process and the second half of another.  The frame of the other one must not
lie where the first half pushes. -/

/-- Saving the process that switches away touches none of the `n` bytes at `a`. -/
structure Spared (s : Cpu) (old : Word) (a n : Nat) : Prop where
  frame : Separate a n (s.gpr .esp - 40).toNat 40
  cell : Separate a n old.toNat 4

theorem Spared.part {s : Cpu} {old : Word} {a n i k : Nat} (h : Spared s old a n)
    (hi : i + k ≤ n) : Spared s old (a + i) k :=
  ⟨h.frame.part hi (show 0 + 40 ≤ 40 by omega), h.cell.part hi (show 0 + 4 ≤ 4 by omega)⟩

theorem restore_mem (s : Cpu) : (run restoreCode s).mem = s.mem := by
  simp only [run, restoreCode, List.foldl_cons, List.foldl_nil, Instr.exec, mem_set, mem_pop]

theorem ctxsw_eq (s : Cpu) : ctxsw s = run restoreCode (run saveCode s) := by
  rw [ctxsw, ctxswCode, run, List.foldl_append]
  rfl

/-- Words the switch spares stay. -/
theorem Saved.keep {s t : Cpu} {retaddr old new : Word} (h : Saved s retaddr old new t) {a : Nat}
    {ws : List Nat} (hw : Words s.mem a ws) (hs : Spared s old a (4 * ws.length)) :
    Words t.mem a ws := by
  refine hw.congr fun i hi => ?_
  have hp : Spared s old (a + 4 * i) 4 := hs.part (by omega)
  exact h.others _ hp.frame hp.cell

/-- **A switch resumes from the frame at the stack pointer of the new process.** -/
theorem ctxsw_spec {s : Cpu} {retaddr old new sp : Word} {f : Frame}
    (h : Called s retaddr old new) (hold : Separate (s.gpr .esp - 40).toNat 52 old.toNat 4)
    (hcell : Words s.mem new.toNat [sp.toNat]) (hcell' : Spared s old new.toNat 4)
    (hf : Words s.mem sp.toNat f.words) (hf' : Spared s old sp.toNat 44) :
    ctxsw s = f.resumed sp (run saveCode s).mem ∧ Saved s retaddr old new (run saveCode s) := by
  have hs := save_spec h hold
  have hsp : (run saveCode s).gpr .esp = sp := by
    have hw : load (run saveCode s).mem new.toNat = sp.toNat := (hs.keep hcell hcell').1
    rw [hs.esp, Cpu.read, hw, BitVec.ofNat_toNat, BitVec.setWidth_eq]
  have hframe : Words (run saveCode s).mem ((run saveCode s).gpr .esp).toNat f.words := by
    rw [hsp]
    exact hs.keep hf hf'
  exact ⟨by rw [ctxsw_eq, restore_spec hframe, hsp], hs⟩

/-- The flags that an `add` leaves alone. -/
theorem add_unmasked (f : Eflags) (a b : Word) :
    (f.add a b).val &&& ~~~statusMask = f.val &&& ~~~statusMask := by
  have hf := f.property
  show ((f.val &&& ~~~statusMask ||| addStatus a b &&& statusMask) ||| 2) &&& ~~~statusMask = _
  generalize addStatus a b = x
  generalize f.val = w at hf
  ext i hi
  have hw := congrArg (fun v => v[i]) hf
  simp only [BitVec.getElem_or] at hw
  simp only [BitVec.getElem_or, BitVec.getElem_and, BitVec.getElem_not]
  cases hm : statusMask[i] <;> cases hwi : w[i] <;> simp_all

theorem ofWord_val (f : Eflags) : Eflags.ofWord f.val = f := Subtype.ext f.property

/-! ## 6. The stack of a new process

`create` pushes the words that the first half would have pushed.  They are a frame, with the
magic word and the arguments above it. -/

/-- **The stack that `create` builds**, from the saved stack pointer up to the magic word. -/
theorem buildStack_frame {saddr funcaddr userret sp : Nat} {args : List Nat} {m m' : Mem}
    (hfit : 4 * (args.length + 13) ≤ addrSpace)
    (hb : buildStack saddr funcaddr userret args m = (m', sp)) :
    sp < addrSpace ∧ (sp + 4 * (args.length + 12)) % addrSpace = saddr % addrSpace ∧
      Words m' sp ([0, 0, (sp + 36) % addrSpace, sp, 0, 0, 0, 0, 0x200,
        saddr % addrSpace, funcaddr % addrSpace, userret % addrSpace] ++
        (args.map (· % addrSpace) ++ [STACKMAGIC])) := by
  obtain ⟨r₁, r₂, r₃, h₁, h₂, h₃, he⟩ := buildStack_eq saddr funcaddr userret args m
  rw [hb] at he
  obtain ⟨rfl, rfl⟩ := Prod.mk.inj he
  have hw₀ : Words (store m saddr STACKMAGIC) saddr [STACKMAGIC] := ⟨load_store_same _ _ _, trivial⟩
  have hw₁ := hw₀.pushed (args.reverse ++ [userret, funcaddr, saddr]) (by
    simp only [List.length_append, List.length_reverse, List.length_cons, List.length_nil]
    omega)
  have e₁ := @pushAll_snd_mod (store m saddr STACKMAGIC) saddr
    (args.reverse ++ [userret, funcaddr, saddr])
  have hw₂ := (h₁ ▸ hw₁).pushed [0x200, 0, 0, 0, 0, 0] (by
    simp only [List.length_append, List.length_reverse, List.length_map, List.length_cons,
      List.length_nil]
    omega)
  have e₂ := @pushAll_snd_mod r₁.1 r₁.2 [0x200, 0, 0, 0, 0, 0]
  rw [← h₂] at hw₂ e₂
  have hw₃ := hw₂.pushed [r₁.2, 0, 0] (by
    simp only [List.length_append, List.length_reverse, List.length_map, List.length_cons,
      List.length_nil]
    omega)
  have e₃ := @pushAll_snd_mod r₂.1 r₂.2 [r₁.2, 0, 0]
  have hsp : r₃.2 < addrSpace := by rw [h₃]; exact pushAll_snd_lt
  rw [← h₃] at hw₃ e₃
  rw [← h₁] at e₁
  clear h₁ h₂ h₃
  simp only [List.map_append, List.map_reverse, List.map_cons, List.map_nil, List.reverse_append,
    List.reverse_cons, List.reverse_nil, List.nil_append, List.cons_append, List.reverse_reverse,
    List.length_cons, List.length_nil, List.length_append,
    List.length_reverse] at hw₃ e₁ e₂ e₃
  have hset := Words.set (b := r₂.2) [0, 0, r₁.2 % addrSpace] r₃.2 hw₃ ?_ ?_
  · have hlink : (r₃.2 + 36) % addrSpace = r₁.2 % addrSpace := by
      simp only [addrSpace] at *
      omega
    refine ⟨hsp, ?_, ?_⟩
    · simp only [addrSpace] at *
      omega
    · rw [Nat.mod_eq_of_lt hsp] at hset
      rw [hlink]
      exact hset
  · simp only [List.length_cons, List.length_nil, addrSpace] at *
    omega
  · simp only [List.length_cons, List.length_nil, List.length_append, List.length_map]
    omega

/-- The value `ebp` had is an address. -/
theorem buildStack_words {saddr funcaddr userret sp : Nat} {args : List Nat} {m m' : Mem}
    (hfit : 4 * (args.length + 13) ≤ addrSpace)
    (hb : buildStack saddr funcaddr userret args m = (m', sp)) :
    sp < addrSpace ∧ (sp + 4 * (args.length + 12)) % addrSpace = saddr % addrSpace ∧
      ∃ link, link < addrSpace ∧ Words m' sp ([0, 0, link, sp, 0, 0, 0, 0, 0x200,
        saddr % addrSpace, funcaddr % addrSpace, userret % addrSpace] ++
        (args.map (· % addrSpace) ++ [STACKMAGIC])) := by
  obtain ⟨hsp, hbase, hw⟩ := buildStack_frame hfit hb
  exact ⟨hsp, hbase, _, Nat.mod_lt _ (by simp), hw⟩

/-- The memory of a new process holds the stack built for it. -/
theorem setupProc_stack (f n : Nat) (prio : Pri16) (nm : Nat → UInt8) (as : List Nat) (pid : Int)
    (saddr : Nat) (k : Kernel) :
    buildStack saddr f k.image.userret as (resetHeader (k.proctab pid).prheaphd k.heap.mem) =
      ((setupProc createFill f n prio nm as pid saddr k).heap.mem,
        ((setupProc createFill f n prio nm as pid saddr k).proctab pid).prstkptr) ∧
      ((setupProc createFill f n prio nm as pid saddr k).proctab pid).prstkbase = saddr ∧
      ((setupProc createFill f n prio nm as pid saddr k).proctab pid).prstklen = n := by
  unfold setupProc
  dsimp only
  set k₁ := Kernel.setProc { k with prcount := k.prcount + 1 } pid
    (initProc saddr n prio nm k.currpid)
    with hk₁
  have hbase : ((createFill pid k₁).proctab pid).prstkbase = saddr ∧
      ((createFill pid k₁).proctab pid).prstklen = n := by
    rw [createFill, setProc_same, setHeap_proctab, hk₁, setProc_same]
    exact ⟨rfl, rfl⟩
  have hmem : (createFill pid k₁).heap.mem =
      resetHeader (k.proctab pid).prheaphd k.heap.mem := by
    rw [createFill, hk₁, setProc_same]
    rfl
  have himage : (createFill pid k₁).image = k.image := rfl
  generalize createFill pid k₁ = k₂ at *
  rw [setProc_same, ← himage, ← hmem]
  exact ⟨rfl, hbase⟩

theorem stackSize_le (ssize : Nat) : stackSize ssize ≤ addrSpace := by
  simp only [stackSize, roundmb, addrSpace]
  omega

/-- **What a call of `create` that succeeds has built**: the stack that `getstk` found, on the
memory with the header of the process's list reset. -/
theorem create_built {funcaddr ssize : Nat} {prio : Pri16} {name : Nat → UInt8} {args : List Nat}
    {k k' : Kernel} {pid : Int} (hc : create funcaddr ssize prio name args k = some (k', pid))
    (hpid : pid ≠ SYSERR) : (k'.proctab pid).prstklen = stackSize ssize ∧
      ∃ h, getstk (stackSize ssize) k.heap = some (h, (k'.proctab pid).prstkbase) ∧
        (k'.proctab pid).prstkbase ≠ sysErrPtr ∧
        buildStack (k'.proctab pid).prstkbase funcaddr k.image.userret args
          (resetHeader (k.proctab pid).prheaphd h.mem) =
            (k'.heap.mem, (k'.proctab pid).prstkptr) := by
  unfold create at hc
  split_ifs at hc with h1
  · exact absurd (congrArg Prod.snd (Option.some.inj hc)).symm hpid
  generalize newpid k.proctab k.createNextpid = r at hc
  obtain ⟨q, n⟩ := r
  simp only at hc
  rcases makeProc_cases hc with he | ⟨k₁, -, he⟩ | ⟨-, k₁, saddr, hg, hne, he⟩
  · exact absurd (congrArg Prod.snd he) hpid
  · exact absurd (congrArg Prod.snd he) hpid
  obtain ⟨x, hx, hx'⟩ := Option.bind_eq_some_iff.mp hg
  obtain ⟨rfl, rfl⟩ := Prod.mk.inj (Option.some.inj hx')
  obtain ⟨rfl, rfl⟩ := Prod.mk.inj he
  obtain ⟨hm, hbase, hlen⟩ := setupProc_stack funcaddr (stackSize ssize) prio name args pid x.2
    (Kernel.setHeap { k with createNextpid := n } x.1)
  rw [hbase]
  exact ⟨hlen, x.1, hx, hne, hm⟩

/-- **A process made by `create` has such a stack.** -/
theorem create_stack {funcaddr ssize : Nat} {prio : Pri16} {name : Nat → UInt8} {args : List Nat}
    {k k' : Kernel} {pid : Int} (hc : create funcaddr ssize prio name args k = some (k', pid))
    (hpid : pid ≠ SYSERR) : (k'.proctab pid).prstklen = stackSize ssize ∧
      ∃ m, buildStack (k'.proctab pid).prstkbase funcaddr k.image.userret args m =
        (k'.heap.mem, (k'.proctab pid).prstkptr) := by
  obtain ⟨hlen, h, -, -, hm⟩ := create_built hc hpid
  exact ⟨hlen, _, hm⟩

/-! ## 7. The first switch and the way back

A new process starts at its function with its arguments in place, and a process that switched away
finds its registers as they were, but for six flags. -/

/-- The machine is about to switch to the new process `pid` for the first time: its memory holds
what `create` left, and saving the process that switches away does not touch it. -/
structure FirstSwitch (s : Cpu) (old new : Word) (k : Kernel) (pid : Int) (nargs : Nat) :
    Prop where
  cell : Words s.mem new.toNat [(k.proctab pid).prstkptr]
  stack : ∀ i < nargs + 13, load s.mem ((k.proctab pid).prstkptr + 4 * i) =
    load k.heap.mem ((k.proctab pid).prstkptr + 4 * i)
  cellSpared : Spared s old new.toNat 4
  stackSpared : Spared s old (k.proctab pid).prstkptr (4 * (nargs + 13))

/-- The machine executes `funcaddr` as if it had been called with `args`, on the stack with the
base `base`: the return address and the arguments lie from the stack pointer on, and the word after
them, at the base, is the magic number. -/
structure Started (t : Cpu) (base funcaddr userret : Nat) (args : List Nat) : Prop where
  eip : t.eip = BitVec.ofNat 32 funcaddr
  stack : Words t.mem (t.gpr .esp).toNat ((userret :: args).map (· % addrSpace))
  /-- `prstkbase` is the address of this word. -/
  magic : Words t.mem base [STACKMAGIC]
  esp : t.gpr .esp + BitVec.ofNat 32 (4 * (args.length + 1)) = BitVec.ofNat 32 base
  ebp : t.gpr .ebp = BitVec.ofNat 32 base
  others : ∀ r, r ≠ .esp → r ≠ .ebp → t.gpr r = 0
  eflags : t.eflags.val &&& ~~~statusMask = (Eflags.ofWord 0x200).val &&& ~~~statusMask

/-- Some process switches back to the one that switched away in `s`, whose stack pointer and
frame are as `ctxsw` left them. -/
structure SwitchBack (s t : Cpu) (retaddr old retaddr' old' : Word) : Prop where
  called : Called t retaddr' old' old
  apart : Separate (t.gpr .esp - 40).toNat 52 old'.toNat 4
  cell : load t.mem old.toNat = load (ctxsw s).mem old.toNat
  frame : ∀ i < 11, load t.mem ((s.gpr .esp - 40).toNat + 4 * i) =
    load (ctxsw s).mem ((s.gpr .esp - 40).toNat + 4 * i)
  cellSpared : Spared t old' old.toNat 4
  frameSpared : Spared t old' (s.gpr .esp - 40).toNat 44

/-- The machine is where `s` was to go on after its call of `ctxsw`. -/
structure Resumed (s : Cpu) (retaddr : Word) (t : Cpu) : Prop where
  eip : t.eip = retaddr
  gpr : ∀ r, r ≠ .esp → t.gpr r = s.gpr r
  /-- The return address has been popped. -/
  esp : t.gpr .esp = s.gpr .esp + 4
  eflags : t.eflags.val &&& ~~~statusMask = s.eflags.val &&& ~~~statusMask

/-- **The first switch to a stack like those that `create` builds.** -/
theorem switch_to_words {s : Cpu} {retaddr old new sp : Word} (hcall : Called s retaddr old new)
    (hold : Separate (s.gpr .esp - 40).toNat 52 old.toNat 4) {base funcaddr userret link : Nat}
    {args : List Nat} (hlink : link < addrSpace)
    (hbase : (sp.toNat + 4 * (args.length + 12)) % addrSpace = base % addrSpace)
    (hcell : Words s.mem new.toNat [sp.toNat]) (hcell' : Spared s old new.toNat 4)
    (hw : Words s.mem sp.toNat ([0, 0, link, sp.toNat, 0, 0, 0, 0, 0x200, base % addrSpace,
      funcaddr % addrSpace, userret % addrSpace] ++ (args.map (· % addrSpace) ++ [STACKMAGIC])))
    (hspared : Spared s old sp.toNat (4 * (args.length + 13))) :
    Started (ctxsw s) base funcaddr userret args ∧
      Saved s retaddr old new (run saveCode s) := by
  obtain ⟨hframe, habove⟩ := (@words_append _ _ [0, 0, link, sp.toNat, 0, 0, 0, 0, 0x200,
    base % addrSpace, funcaddr % addrSpace] _).mp hw
  -- the words of the frame are the registers of the new process
  obtain ⟨f, hfe⟩ : ∃ f : Frame, f = ⟨0, 0, BitVec.ofNat 32 link, sp, 0, 0, 0, 0, 0x200,
    BitVec.ofNat 32 base, BitVec.ofNat 32 funcaddr⟩ := ⟨_, rfl⟩
  have hwords : f.words = [0, 0, link, sp.toNat, 0, 0, 0, 0, 0x200, base % addrSpace,
      funcaddr % addrSpace] := by
    simp [hfe, Frame.words, Frame.list]
    exact hlink
  obtain ⟨hrun, hsaved⟩ := ctxsw_spec hcall hold hcell hcell' (hwords ▸ hframe)
    ⟨hspared.frame.mono (by omega) le_rfl, hspared.cell.mono (by omega) le_rfl⟩
  have habove' : Words (run saveCode s).mem (sp.toNat + 44)
      ((userret % addrSpace :: args.map (· % addrSpace)) ++ [STACKMAGIC]) :=
    hsaved.keep habove (hspared.part (by
      simp only [List.length_append, List.length_cons, List.length_nil, List.length_map]
      omega))
  have hesp : (sp + 44).toNat = (sp.toNat + 44) % addrSpace := BitVec.toNat_add _ _
  refine ⟨?_, hsaved⟩
  rw [hrun]
  refine ⟨by rw [resumed_eip, hfe], ?_, ?_, ?_, by rw [resumed_gpr, hfe, Frame.gpr],
    fun r h1 h2 => ?_, ?_⟩
  · rw [resumed_gpr, Frame.gpr, resumed_mem]
    refine ((words_append.mp habove').1).congr_mod ?_
    rw [hesp, Nat.mod_mod]
  · rw [resumed_mem]
    refine ((words_append.mp habove').2).congr_mod ?_
    simp only [List.length_cons, List.length_map]
    rw [← hbase]
    congr 1
    ring
  · rw [resumed_gpr, Frame.gpr]
    apply BitVec.eq_of_toNat_eq
    rw [BitVec.toNat_add, hesp, BitVec.toNat_ofNat, BitVec.toNat_ofNat]
    simp only [addrSpace] at *
    omega
  · rw [resumed_gpr, hfe]
    cases r <;> first | rfl | contradiction
  · rw [resumed_eflags, hfe]
    exact add_unmasked _ _ _

theorem first_switch {s : Cpu} {retaddr old new : Word} (hcall : Called s retaddr old new)
    (hold : Separate (s.gpr .esp - 40).toNat 52 old.toNat 4) {k k' : Kernel}
    {funcaddr ssize : Nat} {prio : Pri16} {name : Nat → UInt8} {args : List Nat} {pid : Int}
    (hc : create funcaddr ssize prio name args k = some (k', pid)) (hpid : pid ≠ SYSERR)
    (hfit : 4 * (args.length + 13) ≤ (k'.proctab pid).prstklen)
    (h : FirstSwitch s old new k' pid args.length) :
    Started (ctxsw s) (k'.proctab pid).prstkbase funcaddr k.image.userret args := by
  obtain ⟨hlen, m, hm⟩ := create_stack hc hpid
  rw [hlen] at hfit
  replace hfit := hfit.trans (stackSize_le ssize)
  obtain ⟨hlt, hbase, link, hlink, hw⟩ := buildStack_words hfit hm
  have hcell := h.cell
  have hstack := h.stack
  have hspared := h.stackSpared
  generalize (k'.proctab pid).prstkptr = sp at *
  obtain ⟨w, rfl⟩ : ∃ w : Word, sp = w.toNat := ⟨BitVec.ofNat 32 sp, by
    rw [BitVec.toNat_ofNat, Nat.mod_eq_of_lt hlt]⟩
  have hw' : Words s.mem w.toNat _ := hw.congr fun i hi => hstack i (by
    simp only [List.length_append, List.length_cons, List.length_nil, List.length_map] at hi
    omega)
  exact (switch_to_words hcall hold hlink hbase hcell h.cellSpared hw' hspared).1

theorem switch_back {s t : Cpu} {retaddr old new retaddr' old' : Word}
    (hcall : Called s retaddr old new)
    (hold : Separate (s.gpr .esp - 40).toNat 52 old.toNat 4)
    (h : SwitchBack s t retaddr old retaddr' old') : Resumed s retaddr (ctxsw t) := by
  have hs := save_spec hcall hold
  have hmem : (ctxsw s).mem = (run saveCode s).mem := by rw [ctxsw_eq, restore_mem]
  have hcell : Words t.mem old.toNat [(s.gpr .esp - 40).toNat] :=
    ⟨h.cell.trans (by rw [hmem]; exact hs.cell.1), trivial⟩
  have hframe : Words t.mem (s.gpr .esp - 40).toNat (s.frame retaddr).words :=
    hs.frame.congr fun i hi => (h.frame i hi).trans (by rw [hmem])
  obtain ⟨hrun, -⟩ := ctxsw_spec h.called h.apart hcell h.cellSpared hframe h.frameSpared
  rw [hrun]
  refine ⟨rfl, fun r hr => ?_, ?_, ?_⟩
  · rw [resumed_gpr]
    cases r <;> first | rfl | contradiction
  · rw [resumed_gpr, Frame.gpr]
    apply BitVec.eq_of_toNat_eq
    simp only [BitVec.toNat_sub, BitVec.toNat_add, BitVec.toNat_ofNat, BitVec.ofNat_eq_ofNat]
    omega
  · rw [resumed_eflags, add_unmasked, Cpu.frame, ofWord_val]

/-- **What a context switch restores.**  The first switch to a process made by `create` starts it
at its function, with its arguments above the return address; and a process that was switched
away from goes on with its registers.  Of the flags, all but the six status flags are restored. -/
theorem context_switch {s : Cpu} {retaddr old new : Word} (hcall : Called s retaddr old new)
    (hold : Separate (s.gpr .esp - 40).toNat 52 old.toNat 4) :
    (∀ k k' funcaddr ssize prio name args pid,
      create funcaddr ssize prio name args k = some (k', pid) → pid ≠ SYSERR →
      4 * (args.length + 13) ≤ (k'.proctab pid).prstklen →
      FirstSwitch s old new k' pid args.length →
      Started (ctxsw s) (k'.proctab pid).prstkbase funcaddr k.image.userret args) ∧
    ∀ t retaddr' old', SwitchBack s t retaddr old retaddr' old' →
      Resumed s retaddr (ctxsw t) := by
  exact ⟨fun _ _ _ _ _ _ _ _ hc hpid hfit h => first_switch hcall hold hc hpid hfit h,
    fun _ _ _ h => switch_back hcall hold h⟩

/-- A machine that has called `ctxsw(old, new)`, with the flags `eflags`. -/
def atCtxsw (m : Mem) (esp retaddr old new eflags : Word) : Cpu where
  gpr := fun r => if r = .esp then esp else 7
  eflags := .ofWord eflags
  eip := 0
  mem := store (store (store m esp.toNat retaddr.toNat) (esp.toNat + 4) old.toNat) (esp.toNat + 8)
    new.toNat

/-- The machine that first switches to the process `r` that `create` made. -/
def switchTo (r : Kernel × Int) : Cpu :=
  atCtxsw (store r.1.heap.mem 0x3004 (r.1.proctab r.2).prstkptr) 0x2000 0x111 0x3000 0x3004 0

theorem context_switch_run : ∃ r, create 0x100040 MINSTK ⟨20, by decide⟩ (fun _ => 0) [8, 9]
      (bss xinuImage bootHeap) = some r ∧
    Started (ctxsw (switchTo r)) (r.1.proctab r.2).prstkbase 0x100040 0x1060c4 [8, 9] := by
  have hsome : (create 0x100040 MINSTK ⟨20, by decide⟩ (fun _ => 0) [8, 9]
      (bss xinuImage bootHeap)).isSome = true := by decide +kernel
  have hall : ∀ r ∈ create 0x100040 MINSTK ⟨20, by decide⟩ (fun _ => 0) [8, 9]
      (bss xinuImage bootHeap), r.2 ≠ SYSERR ∧ 60 ≤ (r.1.proctab r.2).prstklen ∧
      Called (switchTo r) 0x111 0x3000 0x3004 ∧
      Words (switchTo r).mem 0x3004 [(r.1.proctab r.2).prstkptr] ∧
      (∀ i < 15, load (switchTo r).mem ((r.1.proctab r.2).prstkptr + 4 * i) =
        load r.1.heap.mem ((r.1.proctab r.2).prstkptr + 4 * i)) ∧
      Separate (r.1.proctab r.2).prstkptr 60 0x1fd8 40 ∧
      Separate (r.1.proctab r.2).prstkptr 60 0x3000 4 := by decide +kernel
  obtain ⟨r, hr⟩ := Option.isSome_iff_exists.mp hsome
  obtain ⟨h1, h2, h3, h4, h5, h6, h7⟩ := hall r hr
  have hesp : (switchTo r).gpr .esp = 0x2000 := by simp [switchTo, atCtxsw]
  have hframe : ((switchTo r).gpr .esp - 40).toNat = 0x1fd8 := by
    rw [hesp]
    decide
  have hspared : ∀ a n, Separate a n 0x1fd8 40 → Separate a n 0x3000 4 →
      Spared (switchTo r) 0x3000 a n := fun a n ha hb => ⟨by rw [hframe]; exact ha, hb⟩
  have hold : Separate ((switchTo r).gpr .esp - 40).toNat 52 (0x3000 : Word).toNat 4 := by
    rw [hframe]
    decide +kernel
  exact ⟨r, hr, (context_switch h3 hold).1 _ r.1 _ _ _ _ _ r.2 hr h1 h2
    ⟨h4, h5, hspared _ _ (by decide +kernel) (by decide +kernel), hspared _ _ h6 h7⟩⟩

/-- Registers saved with the carry flag set. -/
def carrySet : Cpu := atCtxsw (fun _ => 0) 0x2000 0x111 0x3000 0x3004 1

/-- A later switch back to them. -/
def switchBack : Cpu := atCtxsw (ctxsw carrySet).mem 0x4000 0x222 0x3004 0x3000 0

/-- **The carry flag does not survive a switch.** -/
theorem carry_lost : Called carrySet 0x111 0x3000 0x3004 ∧
    Separate (carrySet.gpr .esp - 40).toNat 52 (0x3000 : Word).toNat 4 ∧
    SwitchBack carrySet switchBack 0x111 0x3000 0x222 0x3004 ∧
    (ctxsw switchBack).eflags ≠ carrySet.eflags := by
  refine ⟨?_, ?_, ⟨?_, ?_, ?_, ?_, ⟨?_, ?_⟩, ⟨?_, ?_⟩⟩, ?_⟩ <;> decide +kernel

end Xinu
