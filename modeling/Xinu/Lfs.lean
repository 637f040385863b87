/-
# The local file system (`device/lfs`, `include/lfilesys.h`)

The file system keeps a directory in sector 0 of a disk, index blocks in the sectors behind it and
data blocks in the rest; free index blocks and free data blocks are lists threaded through the
disk.  An open file has a control block with a copy of one index block and of one data block.

* A sector is a function to bytes of which only the first `LF_BLKSIZ` are ever looked at.  What a
  sector holds is read and written through the layouts of the C structures, so formatter, checker
  and file operations meet on bytes.
* `int32`, `ibid32`, `dbid32` are `Int`, `uint32` is `Nat`, wraps are written out.
* A function that takes `struct lflcblk *lfptr` takes the control block and returns it; the entry
  points fetch it from `lfltab` and put it back.  `Lf_data` is passed in the same way.
* The mutexes are taken and released inside every operation, so they do not show in operations run
  one at a time.
* `none` is a panic, a read outside an array, or a loop that never ends.
-/
import Xinu.Kernel
import Xinu.Lib.Layout

namespace Xinu

open Layouts

/-! ## 1. Constants -/

abbrev LF_MODE_R : Nat := 1
abbrev LF_MODE_W : Nat := 2
abbrev LF_MODE_RW : Nat := 3
abbrev LF_MODE_N : Nat := 4
abbrev LF_MODE_O : Nat := 8

abbrev LF_BLKSIZ : Nat := 512
abbrev LF_NAME_LEN : Nat := 16
abbrev LF_NUM_DIR_ENT : Nat := 20
abbrev LF_INULL : Int := -1
abbrev LF_DNULL : Int := -1
abbrev LF_IBLEN : Nat := 16

/-- Bytes of data indexed by a single index block. -/
abbrev LF_IDATA : Nat := 8192

abbrev LF_AREA_IB : Int := 1
abbrev LF_AREA_DIR : Int := 0
abbrev LFS_ID : Nat := 0x58696E75
abbrev LF_CTL_TRUNC : Int := 2

/-- The number of file pseudo-devices, `LFILE0` to `LFILE5` of the configuration. -/
abbrev Nlfl : Nat := 6

/-- A C string: the characters before the null character. -/
abbrev Str := { s : List UInt8 // (0 : UInt8) ∉ s }

instance : EmptyCollection Str := ⟨⟨[], List.not_mem_nil⟩⟩

/-! ## 2. What stands on the disk

The C structures as records, and their layouts in the sectors. -/

/-- `struct lfiblk`, an index block. -/
@[ext] structure Lfiblk where
  ib_next : Int
  ib_offset : Nat
  ib_dba : Fin LF_IBLEN → Int

/-- `struct ldentry`, the directory's entry for one file. -/
@[ext] structure Ldentry where
  ld_size : Nat
  ld_ilist : Int
  ld_name : Fin LF_NAME_LEN → UInt8

/-- `struct lfdir`, the directory.  The two 16-bit version numbers, which nothing reads, are held
as one word. -/
@[ext] structure Lfdir where
  lfd_fsysid : Nat
  lfd_vers : Nat
  lfd_allzeros : Nat
  lfd_allones : Nat
  lfd_dfree : Int
  lfd_ifree : Int
  lfd_nfiles : Int
  lfd_files : Fin LF_NUM_DIR_ENT → Ldentry
  lfd_revid : Nat

namespace Layout

open Layouts.Layout

def lfiblk : Layouts.Layout Lfiblk :=
  record (pair signed (pair word (array LF_IBLEN signed)))
    (fun x => ⟨x.1, x.2.1, x.2.2⟩) (fun y => (y.ib_next, y.ib_offset, y.ib_dba)) fun _ => rfl

def ldentry : Layouts.Layout Ldentry :=
  record (pair word (pair signed (array LF_NAME_LEN byte)))
    (fun x => ⟨x.1, x.2.1, x.2.2⟩) (fun y => (y.ld_size, y.ld_ilist, y.ld_name)) fun _ => rfl

def lfdir : Layouts.Layout Lfdir :=
  record
    (pair word (pair word (pair word (pair word (pair signed (pair signed (pair signed
      (pair (array LF_NUM_DIR_ENT ldentry) word))))))))
    (fun x => ⟨x.1, x.2.1, x.2.2.1, x.2.2.2.1, x.2.2.2.2.1, x.2.2.2.2.2.1, x.2.2.2.2.2.2.1,
      x.2.2.2.2.2.2.2.1, x.2.2.2.2.2.2.2.2⟩)
    (fun y => (y.lfd_fsysid, y.lfd_vers, y.lfd_allzeros, y.lfd_allones, y.lfd_dfree, y.lfd_ifree,
      y.lfd_nfiles, y.lfd_files, y.lfd_revid)) fun _ => rfl

theorem size_lfiblk : lfiblk.size = 72 := rfl

theorem size_lfdir : lfdir.size = LF_BLKSIZ := rfl

end Layout

/-- A data block on the free list (`struct lfdbfree`): its first word is the next block. -/
def lf_nextdb (b : Bytes) : Int := Layouts.Layout.signed.readAt b 0

def setNextdb (b : Bytes) (next : Int) : Bytes := Layouts.Layout.signed.writeAt b 0 next

/-! ## 3. The disk

Reads and writes of whole sectors, and what the functions on index blocks make of them: an index
block is a part of a sector, so that putting one is a read and a write. -/

/-- A disk of sectors, some of which cannot be read or written.  What a failed read leaves in the
buffer is arbitrary, as is the content of a bad sector. -/
structure Disk where
  sector : Int → Bytes
  bad : Int → Bool

namespace Disk

def read (k : Disk) (b : Int) : Int × Bytes := (if k.bad b then SYSERR else OK, k.sector b)

def write (k : Disk) (buff : Bytes) (b : Int) : Int × Disk :=
  if k.bad b then (SYSERR, k) else (OK, { k with sector := Function.update k.sector b buff })

variable {k : Disk} {buff : Bytes} {b c : Int}

@[simp] theorem write_bad : (k.write buff b).2.bad = k.bad := by
  rw [write]
  split_ifs <;> rfl

theorem write_of_bad (h : k.bad b = true) : k.write buff b = (SYSERR, k) := if_pos h

/-- A sector that was written is read. -/
theorem write_self (h : k.bad b = false) : (k.write buff b).2.sector b = buff := by
  rw [write, if_neg (by rw [h]; decide)]
  exact Function.update_self ..

theorem write_of_ne (h : c ≠ b) : (k.write buff b).2.sector c = k.sector c := by
  rw [write]
  split_ifs
  · rfl
  · exact Function.update_of_ne h ..

end Disk

/-- `ib2sect`: the sector of an index block. -/
def ib2sect (ib : Int) : Int := ib.tdiv 7 + LF_AREA_IB

/-- `ib2disp`: where in its sector an index block stands. -/
def ib2disp (ib : Int) : Nat := (ib.tmod 7 * 72).toNat

/-- `lfibclear.c`. -/
def lfibclear (offset : Nat) : Lfiblk :=
  { ib_next := LF_INULL, ib_offset := offset, ib_dba := fun _ => LF_DNULL }

/-- `lfibget.c`. -/
def lfibget (diskdev : Disk) (inum : Int) : Lfiblk :=
  Layout.lfiblk.readAt (diskdev.read (ib2sect inum)).2 (ib2disp inum)

/-- `lfibput.c`. -/
def lfibput (diskdev : Disk) (inum : Int) (ibuff : Lfiblk) : Int × Disk :=
  let dbuff := diskdev.read (ib2sect inum)
  if dbuff.1 = SYSERR then (SYSERR, diskdev)
  else (OK, (diskdev.write (Layout.lfiblk.writeAt dbuff.2 (ib2disp inum) ibuff) (ib2sect inum)).2)

/-- `lfscheck.c`. -/
def lfscheck (dirptr : Lfdir) : Int :=
  if dirptr.lfd_fsysid ≠ LFS_ID ∨ dirptr.lfd_allzeros ≠ 0 ∨ dirptr.lfd_allones ≠ 0xffffffff then
    SYSERR
  else if dirptr.lfd_revid ≠ (LFS_ID >>> 24 &&& 0x000000ff ||| LFS_ID >>> 8 &&& 0x0000ff00 |||
      LFS_ID <<< 8 &&& 0x00ff0000 ||| LFS_ID <<< 24 &&& 0xff000000) then SYSERR
  else if dirptr.lfd_nfiles < 0 then SYSERR
  else OK

/-! ## 4. Control blocks

What is in memory while the file system is in use, and the state that it starts from. -/

inductive Lfstate where
  | LF_FREE
  | LF_USED
  deriving DecidableEq

/-- `struct lflcblk`, the control block of a file pseudo-device.  `lfdirptr` is the number of the
directory entry pointed to (looked at only in a block in use), and `lfbyte` the offset in
`lfdblock`, `LF_BLKSIZ` when the file position lies outside. -/
structure Lflcblk where
  lfstate : Lfstate
  lfdev : Int
  lfdirptr : Fin LF_NUM_DIR_ENT
  lfmode : Nat
  lfpos : Nat
  lfname : Fin LF_NAME_LEN → UInt8
  lfinum : Int
  lfiblock : Lfiblk
  lfdnum : Int
  lfdblock : Bytes
  lfbyte : Nat
  lfibdirty : Bool
  lfdbdirty : Bool

/-- `struct lfdata`, with the disk in the place of its device number. -/
structure Lfdata where
  lf_dskdev : Disk
  lf_dir : Lfdir
  lf_dirpresent : Bool
  lf_dirdirty : Bool

/-- `Lf_data` and `lfltab`. -/
structure Lfs where
  Lf_data : Lfdata
  lfltab : Fin Nlfl → Lflcblk

/-- `lfsinit.c`. -/
def lfsinit (k : Disk) : Lfdata where
  lf_dskdev := k
  lf_dir := Layout.lfdir.get fun _ => 0
  lf_dirpresent := false
  lf_dirdirty := false

/-- `lflinit.c`; the bytes it does not set are zero from the start. -/
def lflinit (dvnum : Int) : Lflcblk where
  lfstate := .LF_FREE
  lfdev := dvnum
  lfdirptr := 0
  lfmode := 0
  lfpos := 0
  lfname := fun _ => 0
  lfinum := LF_INULL
  lfiblock := Layout.lfiblk.get fun _ => 0
  lfdnum := 0
  lfdblock := fun _ => 0
  lfbyte := LF_BLKSIZ
  lfibdirty := false
  lfdbdirty := false

/-- The file system after the initialization of its devices; `dev` numbers the pseudo-devices. -/
def Lfs.boot (k : Disk) (dev : Fin Nlfl → Int) : Lfs :=
  { Lf_data := lfsinit k, lfltab := fun d => lflinit (dev d) }

namespace Lfdata

def entry (v : Lfdata) (e : Fin LF_NUM_DIR_ENT) : Ldentry := v.lf_dir.lfd_files e

def setEntry (v : Lfdata) (e : Fin LF_NUM_DIR_ENT) (x : Ldentry) : Lfdata :=
  { v with lf_dir.lfd_files := Function.update v.lf_dir.lfd_files e x }

/-- Write the in-memory directory to its sector. -/
def writeDir (v : Lfdata) : Lfdata :=
  { v with lf_dskdev := (v.lf_dskdev.write (Layout.lfdir.put v.lf_dir) LF_AREA_DIR).2 }

end Lfdata

/-! ## 5. Blocks

Blocks are taken from the front of the two free lists, and data blocks are given back there.  Each
time the directory, which heads the lists, is written to the disk. -/

/-- More steps than a walk along 32-bit block numbers takes: a longer one repeats itself and never
ends. -/
def walkLimit : Nat := 2 ^ 32

/-- `lfflush.c`. -/
def lfflush (v : Lfdata) (lfptr : Lflcblk) : Int × Lfdata × Lflcblk :=
  if lfptr.lfstate = .LF_FREE then (SYSERR, v, lfptr)
  else
    let v₁ := if v.lf_dirdirty then { v.writeDir with lf_dirdirty := false } else v
    let v₂ := if lfptr.lfdbdirty then
      { v₁ with lf_dskdev := (v₁.lf_dskdev.write lfptr.lfdblock lfptr.lfdnum).2 } else v₁
    let v₃ := if lfptr.lfibdirty then
      { v₂ with lf_dskdev := (lfibput v₂.lf_dskdev lfptr.lfinum lfptr.lfiblock).2 } else v₂
    (OK, v₃, { lfptr with lfdbdirty := false, lfibdirty := false })

/-- `lfiballoc.c`. -/
def lfiballoc (v : Lfdata) : Option (Int × Lfdata) :=
  let ibnum := v.lf_dir.lfd_ifree
  if ibnum = LF_INULL then none
  else
    let iblock := lfibget v.lf_dskdev ibnum
    some (ibnum, { ({ v with lf_dir.lfd_ifree := iblock.ib_next } : Lfdata).writeDir with
      lf_dirdirty := false })

/-- `lfdballoc.c`, with the data block it leaves in the buffer. -/
def lfdballoc (v : Lfdata) : Option (Int × Bytes × Lfdata) :=
  let dnum := v.lf_dir.lfd_dfree
  if dnum = LF_DNULL then none
  else
    let dbuff := v.lf_dskdev.read dnum
    if dbuff.1 = SYSERR then none
    else
      some (dnum, fun _ => 43, { ({ v with lf_dir.lfd_dfree := lf_nextdb dbuff.2 } :
        Lfdata).writeDir with lf_dirdirty := false })

/-- `lfdbfree.c`.  Behind the first word of the block goes whatever the stack holds, here zeros;
nothing reads it. -/
def lfdbfree (v : Lfdata) (dnum : Int) : Lfdata :=
  let buf := setNextdb (fun _ => 0) v.lf_dir.lfd_dfree
  ({ v with lf_dir.lfd_dfree := dnum, lf_dskdev := (v.lf_dskdev.write buf dnum).2 } :
    Lfdata).writeDir

/-! ## 6. `lfsetup.c`

The function is one walk, cut here into the parts that its `if`s and its loop make: have an index
block, go on to the right one, and have the data block. -/

/-- Have an index block in memory: the first one of the file, unless the present one can serve. -/
def lfsetupFirst (v : Lfdata) (lfptr : Lflcblk) : Option (Lfdata × Lflcblk) :=
  let ldptr := v.entry lfptr.lfdirptr
  if lfptr.lfinum = LF_INULL then
    if ldptr.ld_ilist = LF_INULL then
      -- an empty file gets its first index block
      (lfiballoc v).map fun (ibnum, v') =>
        (v'.setEntry lfptr.lfdirptr { v'.entry lfptr.lfdirptr with ld_ilist := ibnum },
          { lfptr with lfiblock := lfibclear 0, lfibdirty := true, lfinum := ibnum })
    else
      some (v, { lfptr with
        lfiblock := lfibget v.lf_dskdev ldptr.ld_ilist, lfinum := ldptr.ld_ilist })
  else if lfptr.lfpos < lfptr.lfiblock.ib_offset then
    some (v, { lfptr with
      lfiblock := lfibget v.lf_dskdev ldptr.ld_ilist, lfinum := ldptr.ld_ilist })
  else some (v, lfptr)

/-- Go to the next index block of the file, a new one at its end. -/
def lfsetupNext (v : Lfdata) (lfptr : Lflcblk) : Option (Lfdata × Lflcblk) :=
  let ibptr := lfptr.lfiblock
  if ibptr.ib_next = LF_INULL then
    (lfiballoc v).map fun (ibnum, v') =>
      ({ v' with
          lf_dskdev := (lfibput v'.lf_dskdev lfptr.lfinum { ibptr with ib_next := ibnum }).2 },
        { lfptr with
          lfiblock := lfibclear ((ibptr.ib_offset + LF_IDATA) % 4294967296)
          lfinum := ibnum, lfibdirty := true, lfdnum := LF_DNULL })
  else
    some (v, { lfptr with
      lfiblock := lfibget v.lf_dskdev ibptr.ib_next, lfinum := ibptr.ib_next, lfdnum := LF_DNULL })

/-- Walk until the index block covers the file position (`lfpos & ~LF_IMASK` is the position
rounded down to a multiple of `LF_IDATA`). -/
def lfsetupWalk : Nat → Lfdata → Lflcblk → Option (Lfdata × Lflcblk)
  | 0, _, _ => none
  | n + 1, v, lfptr =>
    if lfptr.lfpos / LF_IDATA * LF_IDATA > lfptr.lfiblock.ib_offset then
      (lfsetupNext v lfptr).bind fun (v', lfptr') => lfsetupWalk n v' lfptr'
    else some (v, lfptr)

/-- The entry of an index block for a file position, `(lfpos & LF_IMASK) >> 9`. -/
def dindex (lfpos : Nat) : Fin LF_IBLEN := 
  ⟨lfpos % LF_IDATA / LF_BLKSIZ, Nat.div_lt_of_lt_mul (Nat.mod_lt _ (by decide))⟩

/-- Have the data block of the file position in memory. -/
def lfsetupData (v : Lfdata) (lfptr : Lflcblk) : Option (Lfdata × Lflcblk) :=
  let dnum := lfptr.lfiblock.ib_dba (dindex lfptr.lfpos)
  if dnum = LF_DNULL then
    (lfdballoc v).map fun (dnum', block, v') =>
      (v', { lfptr with
        lfdblock := block, lfibdirty := true, lfdnum := dnum'
        lfiblock.ib_dba := Function.update lfptr.lfiblock.ib_dba (dindex lfptr.lfpos) dnum' })
  else if dnum ≠ lfptr.lfdnum then
    some (v, { lfptr with
      lfdblock := (v.lf_dskdev.read dnum).2, lfdbdirty := false, lfdnum := dnum })
  else some (v, lfptr)

/-- `lfsetup.c`. -/
def lfsetup (v : Lfdata) (lfptr : Lflcblk) : Option (Lfdata × Lflcblk) :=
  let w := if lfptr.lfibdirty ∨ lfptr.lfdbdirty then (lfflush v lfptr).2 else (v, lfptr)
  (lfsetupFirst w.1 w.2).bind fun (v₁, p₁) =>
    (lfsetupWalk walkLimit v₁ p₁).bind fun (v₂, p₂) =>
      (lfsetupData v₂ p₂).map fun (v₃, p₃) =>
        (v₃, { p₃ with lfbyte := p₃.lfpos % LF_BLKSIZ })

/-! ## 7. `lftruncate.c`

The loop runs over the index blocks and ends at the head of the free list.  A walk that does not
come there is `none`. -/

/-- Free the data blocks of one index block. -/
def lftruncateData (v : Lfdata) (iblock : Lfiblk) : Lfdata :=
  (List.finRange LF_IBLEN).foldl
    (fun v i => if iblock.ib_dba i ≠ LF_DNULL then lfdbfree v (iblock.ib_dba i) else v) v

/-- Walk along the index blocks, disposing of their data blocks. -/
def lftruncateWalk (ifree : Int) : Nat → Lfdata → Int → Option Lfdata
  | 0, _, _ => none
  | n + 1, v, nextib =>
    if nextib = ifree then some v
    else
      let iblock := lfibget v.lf_dskdev nextib
      let v₁ := lftruncateData v iblock
      let iblock' : Lfiblk :=
        { ib_next := if iblock.ib_next = LF_INULL then ifree else iblock.ib_next
          ib_offset := 0
          ib_dba := fun _ => LF_DNULL }
      lftruncateWalk ifree n
        { v₁ with lf_dskdev := (lfibput v₁.lf_dskdev nextib iblock').2 } iblock'.ib_next

/-- `lftruncate.c`. -/
def lftruncate (v : Lfdata) (lfptr : Lflcblk) : Option (Int × Lfdata × Lflcblk) :=
  if (v.entry lfptr.lfdirptr).ld_size = 0 then some (OK, v, lfptr)
  else
    let w := if lfptr.lfibdirty ∨ lfptr.lfdbdirty then (lfflush v lfptr).2 else (v, lfptr)
    let ldptr := w.1.entry lfptr.lfdirptr
    let v₁ := { w.1.setEntry lfptr.lfdirptr { ldptr with ld_ilist := LF_INULL, ld_size := 0 } with
      lf_dirdirty := true }
    (lftruncateWalk v₁.lf_dir.lfd_ifree walkLimit v₁ ldptr.ld_ilist).map fun v₂ =>
      (OK, { v₂ with lf_dir.lfd_ifree := ldptr.ld_ilist, lf_dirdirty := true },
        { w.2 with lfpos := 0, lfinum := LF_INULL, lfdnum := LF_DNULL, lfbyte := LF_BLKSIZ })

/-! ## 8. `lfgetmode.c`

The bits of the mode are collected character by character.  A bit that is there already is an
error, and so is `o` with `n`. -/

/-- The loop over the mode string; `none` is `SYSERR`. -/
def lfgetmodeLoop : List UInt8 → Nat → Option Nat
  | [], mbits => some mbits
  | ch :: mode, mbits =>
    if ch = 114 then   -- 'r'
      if mbits &&& LF_MODE_R ≠ 0 then none else lfgetmodeLoop mode (mbits ||| LF_MODE_R)
    else if ch = 119 then   -- 'w'
      if mbits &&& LF_MODE_W ≠ 0 then none else lfgetmodeLoop mode (mbits ||| LF_MODE_W)
    else if ch = 111 then   -- 'o'
      if mbits &&& LF_MODE_O ≠ 0 ∨ mbits &&& LF_MODE_N ≠ 0 then none
      else lfgetmodeLoop mode (mbits ||| LF_MODE_O)
    else if ch = 110 then   -- 'n'
      if mbits &&& LF_MODE_O ≠ 0 ∨ mbits &&& LF_MODE_N ≠ 0 then none
      else lfgetmodeLoop mode (mbits ||| LF_MODE_N)
    else none

/-- `lfgetmode.c`: with neither `r` nor `w`, both are granted. -/
def lfgetmode (mode : Str) : Option Nat :=
  (lfgetmodeLoop mode.1 0).map fun mbits =>
    if mbits &&& LF_MODE_RW = 0 then mbits ||| LF_MODE_RW else mbits

/-! ## 9. `lfsopen.c`

The searches, the directory, and the claim are functions of their own, because other modules need
them apart: an open may be suspended between them. -/

/-- The comparison loop: the name is the C string at `cmp`. -/
def sameName : List UInt8 → (Nat → UInt8) → Bool
  | [], cmp => cmp 0 = 0
  | c :: nam, cmp => if c = cmp 0 then sameName nam fun i => cmp (i + 1) else false

/-- The characters of a name array, for a walk that starts in it. -/
def chars (a : Fin LF_NAME_LEN → UInt8) (i : Nat) : UInt8 :=
  if h : i < LF_NAME_LEN then a ⟨i, h⟩ else 0

/-- Copy a name with its null character into an array. -/
def lfCopyName (name : List UInt8) (old : Fin LF_NAME_LEN → UInt8) : Fin LF_NAME_LEN → UInt8 :=
  fun i => if i < name.length then name.getD i 0 else if i = name.length then 0 else old i

/-- The first unused pseudo-device, unless the file is open or all are in use. -/
def lfsopenSearch (lfltab : Fin Nlfl → Lflcblk) (name : Str) : Option (Fin Nlfl) :=
  if ∃ d, (lfltab d).lfstate = .LF_USED ∧ sameName name.1 (chars (lfltab d).lfname) then none
  else (List.finRange Nlfl).find? fun d => (lfltab d).lfstate = .LF_FREE

/-- The file's entry in the directory. -/
def lfsopenFind (dirptr : Lfdir) (name : Str) : Option (Fin LF_NUM_DIR_ENT) :=
  (List.finRange LF_NUM_DIR_ENT).find? fun i =>
    (i : Int) < dirptr.lfd_nfiles ∧ sameName name.1 (chars (dirptr.lfd_files i).ld_name)

/-- Find the file in the directory or add it, according to the mode; `none` is `SYSERR`. -/
def lfsopenEntry (v : Lfdata) (name : Str) (mbits : Nat) :
    Option (Fin LF_NUM_DIR_ENT × Lfdata) :=
  match lfsopenFind v.lf_dir name with
  | some e => if mbits &&& LF_MODE_N ≠ 0 then none else some (e, v)
  | none =>
    if mbits &&& LF_MODE_O ≠ 0 then none
    else if h : 0 ≤ v.lf_dir.lfd_nfiles ∧ v.lf_dir.lfd_nfiles < LF_NUM_DIR_ENT then
      let e : Fin LF_NUM_DIR_ENT := ⟨v.lf_dir.lfd_nfiles.toNat, by omega⟩
      some (e, ({ v with lf_dir.lfd_nfiles := v.lf_dir.lfd_nfiles + 1 } : Lfdata).setEntry e
        { ld_size := 0, ld_ilist := LF_INULL, ld_name := lfCopyName name.1 (v.entry e).ld_name })
    else none

/-- The control block of a newly opened file. -/
def lfsopenBlock (lfptr : Lflcblk) (e : Fin LF_NUM_DIR_ENT) (name : Str) (mbits : Nat) :
    Lflcblk :=
  { lfptr with
    lfstate := .LF_USED, lfdirptr := e, lfmode := mbits &&& LF_MODE_RW, lfpos := 0
    lfname := lfCopyName name.1 lfptr.lfname, lfinum := LF_INULL, lfdnum := LF_DNULL
    lfbyte := LF_BLKSIZ, lfibdirty := false, lfdbdirty := false }

/-- Read the directory, if it is not present in memory, and check it. -/
def lfsopenDir (v : Lfdata) : Int × Lfdata :=
  if v.lf_dirpresent then (OK, v)
  else
    let dirptr := v.lf_dskdev.read LF_AREA_DIR
    if dirptr.1 = SYSERR then (SYSERR, { v with lf_dir := Layout.lfdir.get dirptr.2 })
    else if lfscheck (Layout.lfdir.get dirptr.2) = SYSERR then
      (SYSERR, { v with lf_dir := Layout.lfdir.get dirptr.2 })
    else (OK, { v with lf_dir := Layout.lfdir.get dirptr.2, lf_dirpresent := true })

/-- Put a control block back into the table. -/
def Lfs.put (s : Lfs) (v : Lfdata) (d : Fin Nlfl) (lfptr : Lflcblk) : Lfs :=
  { Lf_data := v, lfltab := Function.update s.lfltab d lfptr }

/-- What `lfsopen` does from the search of the directory on, with the pseudo-device it has
chosen. -/
def lfsopenClaim (s : Lfs) (name : Str) (mbits : Nat) (lfnext : Fin Nlfl) : Int × Lfs :=
  match lfsopenEntry s.Lf_data name mbits with
  | none => (SYSERR, s)
  | some (e, v) =>
    ((s.lfltab lfnext).lfdev, s.put v lfnext (lfsopenBlock (s.lfltab lfnext) e name mbits))

/-- A directory whose file count exceeds its entries is searched beyond them, unless the name is
found before. -/
def overrun (dirptr : Lfdir) (name : Str) : Prop :=
  dirptr.lfd_nfiles > LF_NUM_DIR_ENT ∧ lfsopenFind dirptr name = none

instance (dirptr : Lfdir) (name : Str) : Decidable (overrun dirptr name) :=
  inferInstanceAs (Decidable (_ ∧ _))

/-- What `lfsopen` does once the name's length and the mode are checked. -/
def lfsopenWith (s : Lfs) (name : Str) (mbits : Nat) : Option (Int × Lfs) :=
  match lfsopenSearch s.lfltab name with
  | none => some (SYSERR, s)
  | some lfnext =>
    let v := lfsopenDir s.Lf_data
    if v.1 = SYSERR then some (SYSERR, { s with Lf_data := v.2 })
    else if overrun v.2.lf_dir name then none
    else some (lfsopenClaim { s with Lf_data := v.2 } name mbits lfnext)

/-- `lfsopen.c`. -/
def lfsopen (s : Lfs) (name mode : Str) : Option (Int × Lfs) :=
  if name.1.length ≥ LF_NAME_LEN then some (SYSERR, s)
  else match lfgetmode mode with
  | none => some (SYSERR, s)
  | some mbits => lfsopenWith s name mbits

/-! ## 10. Operations on an open file

Reading and writing are made of operations on one byte, as in the source. -/

/-- `lflclose.c`. -/
def lflclose (s : Lfs) (d : Fin Nlfl) : Int × Lfs :=
  let lfptr := s.lfltab d
  if lfptr.lfstate ≠ .LF_USED then (SYSERR, s)
  else
    let w := if s.Lf_data.lf_dirdirty ∨ lfptr.lfdbdirty ∨ lfptr.lfibdirty then
      (lfflush s.Lf_data lfptr).2 else (s.Lf_data, lfptr)
    (OK, s.put w.1 d { w.2 with lfstate := .LF_FREE })

/-- Set up the block of the file position if the byte pointer is outside. -/
def setupIfOutside (v : Lfdata) (lfptr : Lflcblk) : Option (Lfdata × Lflcblk) :=
  if lfptr.lfbyte ≥ LF_BLKSIZ then lfsetup v lfptr else some (v, lfptr)

/-- `ldptr->ld_size++` when a byte is appended. -/
def growIfAppending (v : Lfdata) (lfptr : Lflcblk) : Lfdata :=
  let ldptr := v.entry lfptr.lfdirptr
  if lfptr.lfpos ≥ ldptr.ld_size then
    { v.setEntry lfptr.lfdirptr { ldptr with ld_size := (ldptr.ld_size + 1) % 4294967296 } with
      lf_dirdirty := true }
  else v

/-- `lflputc.c`. -/
def lflputc (s : Lfs) (d : Fin Nlfl) (ch : UInt8) : Option (Int × Lfs) :=
  let lfptr := s.lfltab d
  if lfptr.lfstate ≠ .LF_USED then some (SYSERR, s)
  else if lfptr.lfpos > (s.Lf_data.entry lfptr.lfdirptr).ld_size then some (SYSERR, s)
  else
    (setupIfOutside s.Lf_data lfptr).map fun (v, p) =>
      (OK, s.put (growIfAppending v p) d { p with
        lfdblock := Function.update p.lfdblock p.lfbyte ch, lfbyte := p.lfbyte + 1
        lfpos := (p.lfpos + 1) % 4294967296, lfdbdirty := true })

/-- `lflgetc.c`. -/
def lflgetc (s : Lfs) (d : Fin Nlfl) : Option (Int × Lfs) :=
  let lfptr := s.lfltab d
  if lfptr.lfstate ≠ .LF_USED then some (SYSERR, s)
  else if lfptr.lfpos ≥ (s.Lf_data.entry lfptr.lfdirptr).ld_size then some (EOF, s)
  else
    (setupIfOutside s.Lf_data lfptr).map fun (v, p) =>
      ((p.lfdblock p.lfbyte).toNat, s.put v d { p with
        lfbyte := p.lfbyte + 1, lfpos := (p.lfpos + 1) % 4294967296 })

/-- The loop of `lflread`, with the number of bytes read and the bytes put into the buffer. -/
def lflreadLoop (d : Fin Nlfl) : Nat → Nat → Lfs → Option (Int × List UInt8 × Lfs)
  | 0, numread, s => some (numread, [], s)
  | n + 1, numread, s =>
    (lflgetc s d).bind fun (nxtbyte, s') =>
      if nxtbyte = SYSERR then some (SYSERR, [], s')
      else if nxtbyte = EOF then some (if numread = 0 then EOF else numread, [], s')
      else (lflreadLoop d n (numread + 1) s').map fun (r, bs, s'') =>
        (r, UInt8.ofNat nxtbyte.toNat :: bs, s'')

/-- `lflread.c`, with the bytes it puts into the buffer. -/
def lflread (s : Lfs) (d : Fin Nlfl) (count : Int) : Option (Int × List UInt8 × Lfs) :=
  if count < 0 then some (SYSERR, [], s) else lflreadLoop d count.toNat 0 s

/-- The loop of `lflwrite`; `none` inside is the early return of `SYSERR`. -/
def lflwriteLoop (d : Fin Nlfl) : List UInt8 → Lfs → Option (Bool × Lfs)
  | [], s => some (true, s)
  | b :: buff, s =>
    (lflputc s d b).bind fun (r, s') =>
      if r = SYSERR then some (false, s') else lflwriteLoop d buff s'

/-- `lflwrite.c`; the buffer holds at least `count` bytes. -/
def lflwrite (s : Lfs) (d : Fin Nlfl) (buff : List UInt8) (count : Int) : Option (Int × Lfs) :=
  if count < 0 then some (SYSERR, s)
  else (lflwriteLoop d (buff.take count.toNat) s).map fun (ok, s') =>
    (if ok then count else SYSERR, s')

/-- `lflseek.c`. -/
def lflseek (s : Lfs) (d : Fin Nlfl) (offset : Nat) : Int × Lfs :=
  let lfptr := s.lfltab d
  if lfptr.lfstate ≠ .LF_USED then (SYSERR, s)
  else if offset > (s.Lf_data.entry lfptr.lfdirptr).ld_size then (SYSERR, s)
  else (OK, s.put s.Lf_data d { lfptr with lfpos := offset, lfbyte := LF_BLKSIZ })

/-- `lflcontrol.c`. -/
def lflcontrol (s : Lfs) (d : Fin Nlfl) (func : Int) : Option (Int × Lfs) :=
  let lfptr := s.lfltab d
  if lfptr.lfstate ≠ .LF_USED then some (SYSERR, s)
  else if func = LF_CTL_TRUNC then
    (lftruncate s.Lf_data lfptr).map fun (r, v, p) => (r, s.put v d p)
  else some (SYSERR, s)

/-! ## 11. Operations one at a time

The operations as one type, for runs. -/

inductive LfsOp where
  | open (name mode : Str)
  | close (d : Fin Nlfl)
  | getc (d : Fin Nlfl)
  | putc (d : Fin Nlfl) (ch : UInt8)
  | read (d : Fin Nlfl) (count : Int)
  | write (d : Fin Nlfl) (buff : List UInt8) (count : Int)
  | seek (d : Fin Nlfl) (offset : Nat)
  | control (d : Fin Nlfl) (func : Int)

/-- The value an operation returns, the file data it yields, and the state after it. -/
def Lfs.call (s : Lfs) : LfsOp → Option (Int × List UInt8 × Lfs)
  | .open name mode => (lfsopen s name mode).map fun (r, s') => (r, [], s')
  | .close d => some ((lflclose s d).1, [], (lflclose s d).2)
  | .getc d => (lflgetc s d).map fun (r, s') =>
    (r, if r = SYSERR ∨ r = EOF then [] else [UInt8.ofNat r.toNat], s')
  | .putc d ch => (lflputc s d ch).map fun (r, s') => (r, [], s')
  | .read d count => lflread s d count
  | .write d buff count => (lflwrite s d buff count).map fun (r, s') => (r, [], s')
  | .seek d offset => some ((lflseek s d offset).1, [], (lflseek s d offset).2)
  | .control d func => (lflcontrol s d func).map fun (r, s') => (r, [], s')

/-- The state after an operation. -/
def Lfs.step (s : Lfs) (op : LfsOp) : Option Lfs := (s.call op).map fun r => r.2.2

end Xinu
