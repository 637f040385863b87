/-
# The blocks of the local file system

Where the index blocks and data blocks stand on the disk (`Area`), what writing one of them leaves
of the others, and what a file, its control block and the free lists say about them.

* `FileMap` is the list of the index blocks of a file and the list of its data blocks; the index
  blocks are determined by it (`FileMap.index`).
* While a file is open its control block holds a copy of one index block and one data block, which
  count instead of the disk when they are dirty (`ibView`, `dbView`).
-/
import Xinu.LfsFormat
import Xinu.LfsOpen
import Xinu.Lib.BlockedArray
import Mathlib.Data.List.GetD

namespace Xinu

open Layouts Chains BlockedArray

/-! ## 1. The areas of a disk

Seven index blocks are in one sector.  An index block and a data block have numbers of their own,
and that no two of them overlap on the disk is arithmetic on these numbers. -/

/-- The areas of a file system: `iblocks` index blocks behind the directory, and the data blocks
from sector `first` to the last sector.  Other sectors hold `rest`. -/
structure Area where
  iblocks : Nat
  first : Nat
  total : Nat
  rest : Int → Bytes
  pos : 0 < first
  behind : iblocks ≤ 7 * (first - 1)
  inside : first ≤ total
  /-- The disk is smaller than 4 GiB. -/
  small : total ≤ 8388608

namespace Area

/-- The number of an index block. -/
def Iblock (A : Area) (i : Int) : Prop := 0 ≤ i ∧ i < A.iblocks

/-- The number of a data block. -/
def Dblock (A : Area) (b : Int) : Prop := A.first ≤ b ∧ b < A.total

/-- Every sector can be read and written. -/
def Good (A : Area) (k : Disk) : Prop := ∀ b : Int, 0 ≤ b → b < A.total → k.bad b = false

variable {A : Area} {k k' : Disk} {i j b : Int} {x : Lfiblk} {buff : Bytes}

theorem Iblock.sect (h : A.Iblock i) : 1 ≤ ib2sect i ∧ ib2sect i < A.first := by
  have hbehind := A.behind
  have hpos := A.pos
  obtain ⟨h0, h1⟩ := h
  rw [ib2sect, Int.tdiv_eq_ediv_of_nonneg h0]
  show 1 ≤ i / 7 + 1 ∧ i / 7 + 1 < A.first
  omega

theorem Iblock.disp (h : A.Iblock i) : ib2disp i = (i % 7).toNat * 72 := by
  rw [ib2disp, Int.tmod_eq_emod_of_nonneg h.1]
  omega

theorem Iblock.ne_null (h : A.Iblock i) : i ≠ LF_INULL := by
  have h0 := h.1
  show i ≠ -1
  omega

theorem Dblock.ne_null (h : A.Dblock b) : b ≠ LF_DNULL := by
  have h0 := h.1
  show b ≠ -1
  omega

/-- The areas do not overlap. -/
theorem Dblock.ne_sect (hb : A.Dblock b) (hi : A.Iblock i) : ib2sect i ≠ b := by
  have h1 := hi.sect
  have h2 := hb.1
  omega

theorem Iblock.good (hi : A.Iblock i) (hk : A.Good k) : k.bad (ib2sect i) = false := by
  obtain ⟨h1, h2⟩ := hi.sect
  have hin := A.inside
  exact hk _ (by omega) (by omega)

theorem Dblock.good (hb : A.Dblock b) (hk : A.Good k) : k.bad b = false :=
  hk b (le_trans (by omega) hb.1) hb.2

theorem Good.dir (hk : A.Good k) : k.bad LF_AREA_DIR = false := by
  have hin := A.inside
  have hpos := A.pos
  exact hk 0 (le_refl _) (by omega)

theorem Good.congr (hk : A.Good k) (h : k'.bad = k.bad) : A.Good k' := fun b h0 h1 => by
  rw [h]
  exact hk b h0 h1

end Area

/-! ## 2. Reading what was written

One pair of lemmas for each kind of block: what is read at the place that was written, and what is
read everywhere else. -/

section Access

open Area

variable {A : Area} {k k' : Disk} {i j b : Int} {x : Lfiblk} {buff : Bytes}

theorem lfibget_congr (h : k'.sector (ib2sect i) = k.sector (ib2sect i)) :
    lfibget k' i = lfibget k i := by
  rw [lfibget, lfibget, Disk.read, Disk.read, h]

/-- A data block is no index block. -/
theorem lfibget_write (hb : A.Dblock b) (hi : A.Iblock i) :
    lfibget (k.write buff b).2 i = lfibget k i :=
  lfibget_congr (Disk.write_of_ne (hb.ne_sect hi))

/-- The directory is no index block. -/
theorem lfibget_write_dir (hi : A.Iblock i) :
    lfibget (k.write buff LF_AREA_DIR).2 i = lfibget k i := by
  have hsect := hi.sect
  refine lfibget_congr (Disk.write_of_ne ?_)
  show ib2sect i ≠ 0
  omega

theorem lfibput_eq (hi : A.Iblock i) (hk : A.Good k) : (lfibput k i x).2 =
    (k.write (Layout.lfiblk.writeAt (k.sector (ib2sect i)) (ib2disp i) x) (ib2sect i)).2 := by
  have hok : (k.read (ib2sect i)).1 = OK := by
    rw [Disk.read, if_neg (by rw [hi.good hk]; decide)]
  rw [lfibput]
  rw [if_neg (by rw [hok]; decide), Disk.read]

@[simp] theorem lfibput_bad : (lfibput k i x).2.bad = k.bad := by
  rw [lfibput]
  split_ifs
  · rfl
  · exact Disk.write_bad

theorem lfibput_sector (h : b ≠ ib2sect i) : (lfibput k i x).2.sector b = k.sector b := by
  rw [lfibput]
  split_ifs
  · rfl
  · exact Disk.write_of_ne h

/-- **An index block that was put is got.** -/
theorem lfibget_lfibput (hi : A.Iblock i) (hk : A.Good k) (hx : Layout.lfiblk.ok x) :
    lfibget (lfibput k i x).2 i = x := by
  rw [lfibput_eq hi hk, lfibget, Disk.read, Disk.write_self (hi.good hk)]
  exact Layouts.Layout.readAt_writeAt hx

/-- **The other index blocks are kept**, those in the same sector too. -/
theorem lfibget_lfibput_of_ne (hi : A.Iblock i) (hj : A.Iblock j) (hk : A.Good k) (hne : j ≠ i) :
    lfibget (lfibput k i x).2 j = lfibget k j := by
  by_cases hs : ib2sect j = ib2sect i
  · have hdisp : ib2disp i + 72 ≤ ib2disp j ∨ ib2disp j + 72 ≤ ib2disp i := by
      rw [hi.disp, hj.disp]
      rw [ib2sect, ib2sect, Int.tdiv_eq_ediv_of_nonneg hi.1, Int.tdiv_eq_ediv_of_nonneg hj.1] at hs
      omega
    rw [lfibput_eq hi hk, lfibget, lfibget, Disk.read, Disk.read, hs, Disk.write_self (hi.good hk)]
    exact Layouts.Layout.readAt_writeAt_apart hdisp
  · exact lfibget_congr (lfibput_sector hs)

/-- A block that was freed is linked to the one it was put before. -/
theorem nextdb_write (hb : A.Dblock b) (hk : A.Good k) {next : Int}
    (hn : Layouts.Layout.signed.ok next) (old : Bytes) :
    (k.write (setNextdb old next) b).2.nextdb b = next := by
  rw [Disk.nextdb, Disk.write_self (hb.good hk)]
  exact Layouts.Layout.readAt_writeAt hn

end Access

/-! ## 3. The directory

A directory stored and read again is the same if its numbers fit their fields.  A new file that is
still empty need not be on the disk, which is what `Lags` allows. -/

theorem lfiblk_ok {x : Lfiblk} (hn : -1 ≤ x.ib_next ∧ x.ib_next < 2147483648)
    (ho : x.ib_offset < 4294967296)
    (hd : ∀ j, -1 ≤ x.ib_dba j ∧ x.ib_dba j < 2147483648) : Layout.lfiblk.ok x := by
  refine ⟨⟨?_, hn.2⟩, ho, fun j => ⟨?_, (hd j).2⟩⟩
  · have h1 := hn.1
    dsimp only
    omega
  · have h1 := (hd j).1
    dsimp only
    omega

theorem signed_ok_get (m : Bytes) : Layouts.Layout.signed.ok (Layouts.Layout.signed.get m) := by
  have hlt := Layouts.Layout.value_lt m
  have hget : Layouts.Layout.signed.get m = if Layouts.Layout.value m < 2147483648 then
      (Layouts.Layout.value m : Int) else (Layouts.Layout.value m : Int) - 4294967296 := rfl
  rw [hget]
  constructor <;> split_ifs <;> omega

/-- What an entry of the directory can hold. -/
def Ldentry.Fits (x : Ldentry) : Prop :=
  x.ld_size < 4294967296 ∧ -2147483648 ≤ x.ld_ilist ∧ x.ld_ilist < 2147483648

/-- What the directory can hold. -/
structure Lfdir.Fits (d : Lfdir) : Prop where
  fsysid : d.lfd_fsysid < 4294967296
  vers : d.lfd_vers < 4294967296
  allzeros : d.lfd_allzeros < 4294967296
  allones : d.lfd_allones < 4294967296
  dfree : Layouts.Layout.signed.ok d.lfd_dfree
  ifree : Layouts.Layout.signed.ok d.lfd_ifree
  nfiles : 0 ≤ d.lfd_nfiles ∧ d.lfd_nfiles ≤ LF_NUM_DIR_ENT
  files : ∀ e, (d.lfd_files e).Fits
  revid : d.lfd_revid < 4294967296

theorem Lfdir.Fits.ok {d : Lfdir} (h : d.Fits) : Layout.lfdir.ok d :=
  have hnfiles : Layouts.Layout.signed.ok d.lfd_nfiles := by
    have h1 := h.nfiles.1
    have h2 : d.lfd_nfiles ≤ 20 := h.nfiles.2
    constructor <;> omega
  ⟨h.fsysid, h.vers, h.allzeros, h.allones, h.dfree, h.ifree, hnfiles,
    fun e => ⟨(h.files e).1, (h.files e).2, fun _ => trivial⟩, h.revid⟩

/-- A directory that was read fits. -/
theorem fits_get {m : Bytes} (h : 0 ≤ (Layout.lfdir.get m).lfd_nfiles ∧
    (Layout.lfdir.get m).lfd_nfiles ≤ LF_NUM_DIR_ENT) : (Layout.lfdir.get m).Fits where
  fsysid := Layouts.Layout.value_lt _
  vers := Layouts.Layout.value_lt _
  allzeros := Layouts.Layout.value_lt _
  allones := Layouts.Layout.value_lt _
  dfree := signed_ok_get _
  ifree := signed_ok_get _
  nfiles := h
  files _ := ⟨Layouts.Layout.value_lt _, signed_ok_get _⟩
  revid := Layouts.Layout.value_lt _

@[simp] theorem Lfdata.entry_setEntry (v : Lfdata) (e : Fin LF_NUM_DIR_ENT) (x : Ldentry) :
    (v.setEntry e x).entry e = x := Function.update_self ..

theorem Lfdata.entry_setEntry_of_ne {v : Lfdata} {e e' : Fin LF_NUM_DIR_ENT} {x : Ldentry}
    (h : e' ≠ e) : (v.setEntry e x).entry e' = v.entry e' := Function.update_of_ne h ..

theorem Lfdir.Fits.setEntry {v : Lfdata} {e : Fin LF_NUM_DIR_ENT} {x : Ldentry}
    (h : v.lf_dir.Fits) (hx : x.Fits) : (v.setEntry e x).lf_dir.Fits := by
  refine ⟨h.fsysid, h.vers, h.allzeros, h.allones, h.dfree, h.ifree, h.nfiles, fun e' => ?_,
    h.revid⟩
  show ((v.setEntry e x).entry e').Fits
  by_cases he : e' = e
  · rw [he, Lfdata.entry_setEntry]
    exact hx
  · rw [Lfdata.entry_setEntry_of_ne he]
    exact h.files e'

/-- A directory that was written is read. -/
theorem dir_write {A : Area} {k : Disk} {d : Lfdir} (hk : A.Good k) (hd : d.Fits) :
    (k.write (Layout.lfdir.put d) LF_AREA_DIR).2.dir = d := by
  rw [Disk.dir, Disk.write_self hk.dir]
  exact Layout.lfdir.get_put d hd.ok

/-- The directory on the disk is the one in memory but for files behind its end, which are empty. -/
structure Lfdir.Lags (d d' : Lfdir) : Prop where
  header : { d' with lfd_nfiles := d.lfd_nfiles, lfd_files := d.lfd_files } = d
  nonneg : 0 ≤ d.lfd_nfiles
  nfiles : d.lfd_nfiles ≤ d'.lfd_nfiles
  files : ∀ e : Fin LF_NUM_DIR_ENT, (e : Int) < d.lfd_nfiles → d'.lfd_files e = d.lfd_files e
  fresh : ∀ e : Fin LF_NUM_DIR_ENT, d.lfd_nfiles ≤ e → (e : Int) < d'.lfd_nfiles →
    (d'.lfd_files e).ld_size = 0 ∧ (d'.lfd_files e).ld_ilist = LF_INULL

theorem Lfdir.Lags.refl {d : Lfdir} (h : 0 ≤ d.lfd_nfiles) : d.Lags d :=
  ⟨rfl, h, le_refl _, fun _ _ => rfl, fun _ h h' => absurd h (not_le.mpr h')⟩

/-- Either the directory will be written, or the disk lacks nothing of it but empty files. -/
def Lfdata.Saved (v : Lfdata) : Prop := v.lf_dirdirty = true ∨ v.lf_dskdev.dir.Lags v.lf_dir

theorem Lfdata.Saved.congr {v v' : Lfdata} (h : v.Saved) (hd : v'.lf_dirdirty = v.lf_dirdirty)
    (hdir : v'.lf_dir = v.lf_dir) (hs : v'.lf_dskdev.sector LF_AREA_DIR =
      v.lf_dskdev.sector LF_AREA_DIR) : v'.Saved := by
  rw [Saved, hd, hdir, Disk.dir, hs]
  exact h

/-- **Writing the directory saves it.** -/
theorem saved_writeDir {A : Area} {v : Lfdata} (hk : A.Good v.lf_dskdev) (hd : v.lf_dir.Fits)
    (b : Bool) : Lfdata.Saved { v.writeDir with lf_dirdirty := b } := by
  refine .inr ?_
  have hdir : v.writeDir.lf_dskdev.dir = v.lf_dir := dir_write hk hd
  rw [hdir]
  exact .refl hd.nfiles.1

/-! ## 4. Where a file stands

A file owns two lists of blocks, apart from each other and from the free ones. -/

/-- The index blocks of a file and its data blocks, in their order. -/
structure FileMap where
  chain : List Int
  blocks : List Int

/-- What stands in the index block `i` of a file. -/
def FileMap.index (F : FileMap) (i : Nat) : Lfiblk where
  ib_next := F.chain.getD (i + 1) LF_INULL
  ib_offset := i * LF_IDATA
  ib_dba j := F.blocks.getD (LF_IBLEN * i + j) LF_DNULL

/-- The file has blocks of the file system, each of them once and none of them free.  Its index
blocks are filled up to the last, which may be new. -/
structure FileMap.Own (A : Area) (F : FileMap) (ifree dfree : List Int) : Prop where
  iblock : ∀ i ∈ F.chain ++ ifree, A.Iblock i
  inodup : (F.chain ++ ifree).Nodup
  dblock : ∀ b ∈ F.blocks ++ dfree, A.Dblock b
  dnodup : (F.blocks ++ dfree).Nodup
  room : F.blocks.length ≤ LF_IBLEN * F.chain.length
  filled : LF_IBLEN * (F.chain.length - 1) ≤ F.blocks.length

namespace FileMap.Own

variable {A : Area} {F : FileMap} {ifree dfree : List Int} {i b : Int} {n : Nat}

theorem chain_iblock (h : F.Own A ifree dfree) (hi : i ∈ F.chain) : A.Iblock i :=
  h.iblock i (List.mem_append_left _ hi)

theorem blocks_dblock (h : F.Own A ifree dfree) (hb : b ∈ F.blocks) : A.Dblock b :=
  h.dblock b (List.mem_append_left _ hb)

theorem ifree_iblock (h : F.Own A ifree dfree) (hi : i ∈ ifree) : A.Iblock i :=
  h.iblock i (List.mem_append_right _ hi)

theorem dfree_dblock (h : F.Own A ifree dfree) (hb : b ∈ dfree) : A.Dblock b :=
  h.dblock b (List.mem_append_right _ hb)

theorem chain_nodup (h : F.Own A ifree dfree) : F.chain.Nodup := (List.nodup_append.mp h.inodup).1

theorem blocks_nodup (h : F.Own A ifree dfree) : F.blocks.Nodup := (List.nodup_append.mp h.dnodup).1

theorem ifree_not_chain (h : F.Own A ifree dfree) (hi : i ∈ ifree) : i ∉ F.chain := fun hc =>
  (List.nodup_append.mp h.inodup).2.2 i hc i hi rfl

theorem dfree_not_blocks (h : F.Own A ifree dfree) (hb : b ∈ dfree) : b ∉ F.blocks := fun hc =>
  (List.nodup_append.mp h.dnodup).2.2 b hc b hb rfl

/-- There are fewer data blocks than the sectors of the largest disk. -/
theorem length_blocks (h : F.Own A ifree dfree) : F.blocks.length + dfree.length < 8388608 := by
  have hsub : (F.blocks ++ dfree).toFinset ⊆ Finset.Ico (A.first : Int) A.total := by
    intro b hb
    exact Finset.mem_Ico.mpr (h.dblock b (List.mem_toFinset.mp hb))
  have hcard := Finset.card_le_card hsub
  rw [List.toFinset_card_of_nodup h.dnodup, List.length_append, Int.card_Ico] at hcard
  have hpos := A.pos
  have hsmall := A.small
  omega

/-- **An index block of the file can be stored.** -/
theorem index_ok (h : F.Own A ifree dfree) (hn : n < F.chain.length) :
    Layout.lfiblk.ok (F.index n) := by
  have hmem : ∀ (l : List Int), (∀ x ∈ l, -1 ≤ x ∧ x < 2147483648) → ∀ m,
      -1 ≤ l.getD m (-1) ∧ l.getD m (-1) < 2147483648 := by
    intro l hl m
    by_cases hm : m < l.length
    · rw [List.getD_eq_getElem _ _ hm]
      exact hl _ (List.getElem_mem hm)
    · rw [List.getD_eq_default _ _ (not_lt.mp hm)]
      decide
  have hbehind := A.behind
  have hin := A.inside
  have hsmall := A.small
  refine lfiblk_ok (hmem F.chain (fun i hi => ?_) _) ?_ fun j => hmem F.blocks (fun b hb => ?_) _
  · obtain ⟨h0, h1⟩ := h.chain_iblock hi
    omega
  · have hfilled := h.filled
    have hlen := h.length_blocks
    show n * 8192 < 4294967296
    have : 16 * n ≤ LF_IBLEN * (F.chain.length - 1) := Nat.mul_le_mul_left 16 (by omega)
    omega
  · obtain ⟨h0, h1⟩ := h.blocks_dblock hb
    omega

end FileMap.Own

/-! ## 5. A file grows

A block is put at the end of one of the lists.  Only the last index block changes, or a new one
comes behind it. -/

/-- A further index block. -/
def FileMap.addIndex (F : FileMap) (i : Int) : FileMap := ⟨F.chain ++ [i], F.blocks⟩

/-- A further data block. -/
def FileMap.addBlock (F : FileMap) (b : Int) : FileMap := ⟨F.chain, F.blocks ++ [b]⟩

section Grow

variable {A : Area} {F : FileMap} {ifree dfree : List Int} {i b : Int} {n : Nat}

theorem FileMap.Own.addIndex (h : F.Own A (i :: ifree) dfree)
    (hfull : F.blocks.length = LF_IBLEN * F.chain.length) : (F.addIndex i).Own A ifree dfree where
  iblock := by
    rw [FileMap.addIndex, List.append_assoc]
    exact h.iblock
  inodup := by
    rw [FileMap.addIndex, List.append_assoc]
    exact h.inodup
  dblock := h.dblock
  dnodup := h.dnodup
  room := by
    rw [FileMap.addIndex, List.length_append, hfull]
    exact Nat.mul_le_mul_left _ (Nat.le_add_right _ _)
  filled := by
    rw [FileMap.addIndex, List.length_append, List.length_singleton, Nat.add_sub_cancel, hfull]

theorem FileMap.Own.addBlock (h : F.Own A ifree (b :: dfree))
    (hroom : F.blocks.length < LF_IBLEN * F.chain.length) : (F.addBlock b).Own A ifree dfree where
  iblock := h.iblock
  inodup := h.inodup
  dblock := by
    rw [FileMap.addBlock, List.append_assoc]
    exact h.dblock
  dnodup := by
    rw [FileMap.addBlock, List.append_assoc]
    exact h.dnodup
  room := by
    rw [FileMap.addBlock, List.length_append]
    exact hroom
  filled := by
    rw [FileMap.addBlock, List.length_append]
    exact h.filled.trans (Nat.le_add_right _ _)

theorem FileMap.index_addIndex_of_lt (hn : n + 1 < F.chain.length) :
    (F.addIndex i).index n = F.index n := by
  rw [index, index, addIndex]
  simp only [List.getD_append _ _ _ _ hn]

/-- The last index block is linked to the new one. -/
theorem FileMap.index_addIndex_last (hn : n + 1 = F.chain.length) :
    (F.addIndex i).index n = { F.index n with ib_next := i } := by
  rw [index, index, addIndex]
  simp only [Lfiblk.mk.injEq, and_true]
  rw [List.getD_append_right _ _ _ _ hn.ge, hn, Nat.sub_self]
  rfl

/-- **The new index block is clear.** -/
theorem FileMap.index_addIndex_new (hfull : F.blocks.length = LF_IBLEN * F.chain.length) :
    (F.addIndex i).index F.chain.length = lfibclear (F.chain.length * LF_IDATA) := by
  rw [index, lfibclear, addIndex]
  simp only [Lfiblk.mk.injEq, true_and]
  refine ⟨List.getD_eq_default _ _ (by simp), funext fun j => List.getD_eq_default _ _ ?_⟩
  rw [hfull]
  exact Nat.le_add_right _ _

/-- The index block of a new data block. -/
theorem FileMap.index_addBlock_self {j : Fin LF_IBLEN}
    (hj : LF_IBLEN * n + j = F.blocks.length) : (F.addBlock b).index n =
      { F.index n with ib_dba := Function.update (F.index n).ib_dba j b } := by
  rw [index, index, addBlock]
  simp only [Lfiblk.mk.injEq, true_and]
  funext j'
  by_cases hjj : j' = j
  · subst hjj
    rw [Function.update_self, List.getD_append_right _ _ _ _ hj.ge, hj, Nat.sub_self]
    rfl
  · rw [Function.update_of_ne hjj]
    have hne : LF_IBLEN * n + j' ≠ F.blocks.length := fun h => hjj (Fin.ext (by omega))
    rcases Nat.lt_or_gt_of_ne hne with hlt | hgt
    · rw [List.getD_append _ _ _ _ hlt]
    · rw [List.getD_eq_default _ _ (by rw [List.length_append, List.length_singleton]; omega),
        List.getD_eq_default _ _ hgt.le]

/-- The other index blocks. -/
theorem FileMap.index_addBlock_of_ne {m : Nat} {j : Fin LF_IBLEN}
    (hj : LF_IBLEN * n + j = F.blocks.length) (hm : m ≠ n) : (F.addBlock b).index m =
    F.index m := by
  rw [index, index, addBlock]
  simp only [Lfiblk.mk.injEq, true_and]
  funext j'
  have hne : LF_IBLEN * m + j' ≠ F.blocks.length := fun h => hm (by
    have h1 : (j : Nat) < 16 := j.isLt
    have h2 : (j' : Nat) < 16 := j'.isLt
    have h3 : 16 * n + j = 16 * m + j' := hj.trans h.symm
    omega)
  rcases Nat.lt_or_gt_of_ne hne with hlt | hgt
  · rw [List.getD_append _ _ _ _ hlt]
  · rw [List.getD_eq_default _ _ (by rw [List.length_append, List.length_singleton]; omega),
      List.getD_eq_default _ _ hgt.le]

end Grow

/-! ## 6. What a control block holds

An open file is read through its control block: where this one has a dirty copy, the block on the
disk is out of date. -/

/-- An index block of the file, where a dirty copy counts. -/
def Lflcblk.ibView (p : Lflcblk) (k : Disk) (i : Int) : Lfiblk :=
  if p.lfibdirty ∧ p.lfinum = i then p.lfiblock else lfibget k i

/-- A data block of the file, where a dirty copy counts. -/
def Lflcblk.dbView (p : Lflcblk) (k : Disk) (b : Int) : Bytes :=
  if p.lfdbdirty ∧ p.lfdnum = b then p.lfdblock else k.sector b

/-- The disk holds the file. -/
structure FileStored (k : Disk) (F : FileMap) (file : List UInt8) : Prop where
  index : ∀ n i, F.chain[n]? = some i → lfibget k i = F.index n
  holds : Holds LF_BLKSIZ k.sector F.blocks file

/-- The disk and the control block hold the open file, and the copies are copies. -/
structure Cached (k : Disk) (p : Lflcblk) (F : FileMap) (file : List UInt8) : Prop where
  index : ∀ n i, F.chain[n]? = some i → p.ibView k i = F.index n
  holds : Holds LF_BLKSIZ (p.dbView k) F.blocks file
  icopy : p.lfinum = LF_INULL ∧ p.lfibdirty = false ∨
    ∃ n, F.chain[n]? = some p.lfinum ∧ p.lfiblock = F.index n
  dcopy : p.lfdnum = LF_DNULL ∧ p.lfdbdirty = false ∨
    ∃ m, F.blocks[m]? = some p.lfdnum ∧
      ∀ q < file.length, q / LF_BLKSIZ = m → file[q]? = some (p.lfdblock (q % LF_BLKSIZ))
  pos : p.lfpos ≤ file.length
  byte : p.lfbyte = LF_BLKSIZ ∨
    p.lfbyte = p.lfpos % LF_BLKSIZ ∧ F.blocks[p.lfpos / LF_BLKSIZ]? = some p.lfdnum

section Views

variable {A : Area} {k k' : Disk} {p p' : Lflcblk} {F : FileMap} {file : List UInt8}

theorem Lflcblk.ibView_clean (h : p.lfibdirty = false) : p.ibView k = lfibget k := by
  funext i
  rw [ibView, if_neg (by rw [h]; simp)]

theorem Lflcblk.dbView_clean (h : p.lfdbdirty = false) : p.dbView k = k.sector := by
  funext b
  rw [dbView, if_neg (by rw [h]; simp)]

/-- Without dirty copies everything is on the disk. -/
theorem Cached.stored (h : Cached k p F file) (hi : p.lfibdirty = false)
    (hd : p.lfdbdirty = false) : FileStored k F file where
  index n i hn := by
    rw [← Lflcblk.ibView_clean hi]
    exact h.index n i hn
  holds := by
    rw [← Lflcblk.dbView_clean hd]
    exact h.holds

/-- What is on the disk can be seen through a control block without dirty copies. -/
theorem FileStored.cached (h : FileStored k F file) (hi : p.lfibdirty = false)
    (hd : p.lfdbdirty = false) (hicopy : p.lfinum = LF_INULL ∧ p.lfibdirty = false ∨
      ∃ n, F.chain[n]? = some p.lfinum ∧ p.lfiblock = F.index n)
    (hdcopy : p.lfdnum = LF_DNULL ∧ p.lfdbdirty = false ∨ ∃ m, F.blocks[m]? = some p.lfdnum ∧
      ∀ q < file.length, q / LF_BLKSIZ = m → file[q]? = some (p.lfdblock (q % LF_BLKSIZ)))
    (hpos : p.lfpos ≤ file.length)
    (hbyte : p.lfbyte = LF_BLKSIZ ∨
      p.lfbyte = p.lfpos % LF_BLKSIZ ∧ F.blocks[p.lfpos / LF_BLKSIZ]? = some p.lfdnum) :
    Cached k p F file where
  index n i hn := by
    rw [Lflcblk.ibView_clean hi]
    exact h.index n i hn
  holds := by
    rw [Lflcblk.dbView_clean hd]
    exact h.holds
  icopy := hicopy
  dcopy := hdcopy
  pos := hpos
  byte := hbyte

/-- **Frame rule** for a stored file. -/
theorem FileStored.congr (h : FileStored k F file) (hi : ∀ i ∈ F.chain, lfibget k' i = lfibget k i)
    (hd : ∀ b ∈ F.blocks, k'.sector b = k.sector b) : FileStored k' F file where
  index n i hn := by
    rw [hi i (List.mem_of_getElem? hn)]
    exact h.index n i hn
  holds := h.holds.congr hd

/-- **Frame rule** for an open file. -/
theorem Cached.congr (h : Cached k p F file) (hi : ∀ i ∈ F.chain, lfibget k' i = lfibget k i)
    (hd : ∀ b ∈ F.blocks, k'.sector b = k.sector b) : Cached k' p F file where
  index n i hn := by
    rw [← h.index n i hn, Lflcblk.ibView, Lflcblk.ibView, hi i (List.mem_of_getElem? hn)]
  holds := h.holds.congr fun b hb => by rw [Lflcblk.dbView, Lflcblk.dbView, hd b hb]
  icopy := h.icopy
  dcopy := h.dcopy
  pos := h.pos
  byte := h.byte

end Views

/-! ## 7. The free lists and a file

What an operation on one file may touch, so that the others are framed off. -/

/-- The lists of free blocks. -/
structure FreeLists (v : Lfdata) (ifree dfree : List Int) : Prop where
  iwalk : Walk (fun i => (lfibget v.lf_dskdev i).ib_next) v.lf_dir.lfd_ifree ifree LF_INULL
  dwalk : Walk v.lf_dskdev.nextdb v.lf_dir.lfd_dfree dfree LF_DNULL

/-- What differs between two states of the file system when only the file of the entry `e` was
worked on, with its index blocks `C` and its data blocks `B`. -/
structure FileFrame (A : Area) (e : Fin LF_NUM_DIR_ENT) (C B : List Int) (v v' : Lfdata) :
    Prop where
  bad : v'.lf_dskdev.bad = v.lf_dskdev.bad
  index : ∀ i, A.Iblock i → i ∉ C → lfibget v'.lf_dskdev i = lfibget v.lf_dskdev i
  data : ∀ b, A.Dblock b → b ∉ B → v'.lf_dskdev.sector b = v.lf_dskdev.sector b
  outside : ∀ b : Int, ¬ (0 ≤ b ∧ b < A.total) → v'.lf_dskdev.sector b = v.lf_dskdev.sector b
  present : v'.lf_dirpresent = v.lf_dirpresent
  header : { v'.lf_dir with
    lfd_dfree := v.lf_dir.lfd_dfree, lfd_ifree := v.lf_dir.lfd_ifree
    lfd_files := v.lf_dir.lfd_files } = v.lf_dir
  entries : ∀ e' ≠ e, v'.entry e' = v.entry e'
  name : (v'.entry e).ld_name = (v.entry e).ld_name

/-- The file of an entry and its control block, beside the free lists. -/
structure FileOk (A : Area) (v : Lfdata) (p : Lflcblk) (F : FileMap) (file : List UInt8)
    (ifree dfree : List Int) : Prop where
  good : A.Good v.lf_dskdev
  dir : v.lf_dir.Fits
  own : F.Own A ifree dfree
  free : FreeLists v ifree dfree
  size : (v.entry p.lfdirptr).ld_size = file.length
  ilist : (v.entry p.lfdirptr).ld_ilist = F.chain.headD LF_INULL
  cached : Cached v.lf_dskdev p F file

section FrameRules

variable {A : Area} {e : Fin LF_NUM_DIR_ENT} {C C' B B' : List Int} {v v' v'' : Lfdata}
  {p p' : Lflcblk} {F : FileMap} {file : List UInt8} {ifree dfree : List Int}

theorem FileFrame.refl (v : Lfdata) : FileFrame A e C B v v :=
  ⟨rfl, fun _ _ _ => rfl, fun _ _ _ => rfl, fun _ _ => rfl, rfl, rfl, fun _ _ => rfl, rfl⟩

theorem FileFrame.trans (h : FileFrame A e C B v v') (h' : FileFrame A e C B v' v'') :
    FileFrame A e C B v v'' where
  bad := h'.bad.trans h.bad
  index i hi hc := (h'.index i hi hc).trans (h.index i hi hc)
  data b hb hc := (h'.data b hb hc).trans (h.data b hb hc)
  outside b hb := (h'.outside b hb).trans (h.outside b hb)
  present := h'.present.trans h.present
  header := by
    have h1 := h.header
    rw [← h'.header] at h1
    exact h1
  entries e' he := (h'.entries e' he).trans (h.entries e' he)
  name := h'.name.trans h.name

theorem FileFrame.mono (h : FileFrame A e C B v v') (hC : C ⊆ C') (hB : B ⊆ B') :
    FileFrame A e C' B' v v' where
  bad := h.bad
  index i hi hc := h.index i hi fun hi' => hc (hC hi')
  data b hb hc := h.data b hb fun hb' => hc (hB hb')
  outside := h.outside
  present := h.present
  header := h.header
  entries := h.entries
  name := h.name

end FrameRules

end Xinu
