/-
# Setting up a file's blocks: `lfflush.c`, `lfsetup.c`

`lfsetup` writes back the dirty copies, goes to the index block of the file position and from it to
the data block, and takes new blocks from the free lists at the end of the file.  It keeps the file
and everything else on the disk, and afterwards the byte pointer is at the file position
(`lfsetup_spec`).  A new block is taken only where the file position is the end of the file and all
blocks are full, so a file never has holes.

The statements are about a control block and a disk together (`FileOk`): the blocks of the file in
order, what the copies in memory hold, and which of them are dirty.  Each part of the code changes
one of these and keeps the rest, so `lfsetup` is followed in four parts: write back what is dirty,
get an index block into memory, walk to the index block of the file position, and get the data
block.
-/
import Xinu.LfsBlocks

namespace Xinu

open Layouts Chains BlockedArray

variable {A : Area} {v v' : Lfdata} {p p' : Lflcblk} {F : FileMap} {file : List UInt8}
  {ifree dfree : List Int}

/-! ## 1. `lfflush.c`

Three copies can be dirty: the directory, the data block and the index block.  Each is written
back to its own place, and the three places are different, so the order does not matter. -/

/-- What does not change the directory in memory and no block of the area. -/
theorem FileOk.congr (h : FileOk A v p F file ifree dfree)
    (hbad : v'.lf_dskdev.bad = v.lf_dskdev.bad) (hdir : v'.lf_dir = v.lf_dir)
    (hi : ∀ i, A.Iblock i → lfibget v'.lf_dskdev i = lfibget v.lf_dskdev i)
    (hd : ∀ b, A.Dblock b → v'.lf_dskdev.sector b = v.lf_dskdev.sector b) :
    FileOk A v' p F file ifree dfree where
  good := h.good.congr hbad
  dir := hdir ▸ h.dir
  own := h.own
  free := by
    refine ⟨?_, ?_⟩
    · rw [hdir]
      exact h.free.iwalk.congr fun i hi' => by rw [hi i (h.own.ifree_iblock hi')]
    · rw [hdir]
      exact h.free.dwalk.congr fun b hb => by
        rw [Disk.nextdb, Disk.nextdb, hd b (h.own.dfree_dblock hb)]
  size := by
    rw [Lfdata.entry, hdir]
    exact h.size
  ilist := by
    rw [Lfdata.entry, hdir]
    exact h.ilist
  cached := h.cached.congr (fun i hi' => hi i (h.own.chain_iblock hi'))
    fun b hb => hd b (h.own.blocks_dblock hb)

theorem writeDir_frame (e : Fin LF_NUM_DIR_ENT) (C B : List Int) :
    FileFrame A e C B v v.writeDir where
  bad := Disk.write_bad
  index _ hi _ := lfibget_write_dir hi
  data b hb _ := Disk.write_of_ne (show b ≠ 0 from fun h0 => by
    have h1 := hb.1
    have h2 := A.pos
    omega)
  outside b hb := Disk.write_of_ne (show b ≠ 0 from fun h0 => hb ⟨by omega, by
    have h1 := A.pos
    have h2 := A.inside
    omega⟩)
  present := rfl
  header := rfl
  entries _ _ := rfl
  name := rfl

/-- Writing the directory. -/
theorem FileOk.writeDir (h : FileOk A v p F file ifree dfree) :
    FileOk A v.writeDir p F file ifree dfree := by
  have hf := writeDir_frame (A := A) (v := v) p.lfdirptr [] []
  exact h.congr hf.bad rfl (fun i hi => hf.index i hi (by simp)) fun b hb => hf.data b hb (by simp)

theorem FileOk.dirdirty (h : FileOk A v p F file ifree dfree) (b : Bool) :
    FileOk A { v with lf_dirdirty := b } p F file ifree dfree :=
  h.congr rfl rfl (fun _ _ => rfl) fun _ _ => rfl

/-- The first part of `lfflush`: the directory. -/
def flushDir (v : Lfdata) : Lfdata :=
  if v.lf_dirdirty then { v.writeDir with lf_dirdirty := false } else v

/-- The second part: the data block. -/
def flushData (v : Lfdata) (p : Lflcblk) : Lfdata :=
  if p.lfdbdirty then { v with lf_dskdev := (v.lf_dskdev.write p.lfdblock p.lfdnum).2 } else v

/-- The third part: the index block. -/
def flushIndex (v : Lfdata) (p : Lflcblk) : Lfdata :=
  if p.lfibdirty then { v with lf_dskdev := (lfibput v.lf_dskdev p.lfinum p.lfiblock).2 } else v

theorem lfflush_eq (hused : p.lfstate = .LF_USED) : (lfflush v p).2 =
    (flushIndex (flushData (flushDir v) p) p,
      { p with lfdbdirty := false, lfibdirty := false }) := by
  rw [lfflush, if_neg (by rw [hused]; decide)]
  rfl

theorem FileOk.flushDir (h : FileOk A v p F file ifree dfree) :
    FileOk A (flushDir v) p F file ifree dfree ∧
      FileFrame A p.lfdirptr F.chain F.blocks v (flushDir v) := by
  unfold Xinu.flushDir
  split_ifs
  · have hf := writeDir_frame (A := A) (v := v) p.lfdirptr F.chain F.blocks
    exact ⟨h.writeDir.dirdirty false, ⟨hf.bad, hf.index, hf.data, hf.outside, hf.present, hf.header,
      hf.entries, hf.name⟩⟩
  · exact ⟨h, .refl v⟩

/-- **The data block is written back.** -/
theorem FileOk.flushData (h : FileOk A v p F file ifree dfree) :
    FileOk A (flushData v p) { p with lfdbdirty := false } F file ifree dfree ∧
      FileFrame A p.lfdirptr F.chain F.blocks v (flushData v p) := by
  have hkeep : ∀ k : Disk, ({ p with lfdbdirty := false } : Lflcblk).ibView k = p.ibView k :=
    fun _ => rfl
  unfold Xinu.flushData
  split_ifs with hdirty
  · obtain ⟨m, hm, hcopy⟩ := h.cached.dcopy.resolve_left fun hn => by
      rw [hdirty] at hn
      exact absurd hn.2 (by decide)
    have hmem : p.lfdnum ∈ F.blocks := List.mem_of_getElem? hm
    have hblock := h.own.blocks_dblock hmem
    have hself : (v.lf_dskdev.write p.lfdblock p.lfdnum).2.sector p.lfdnum = p.lfdblock :=
      Disk.write_self (hblock.good h.good)
    have hview : ∀ b, (v.lf_dskdev.write p.lfdblock p.lfdnum).2.sector b =
        p.dbView v.lf_dskdev b := by
      intro b
      rw [Lflcblk.dbView]
      by_cases hb : p.lfdnum = b
      · rw [if_pos ⟨hdirty, hb⟩, ← hb, hself]
      · rw [if_neg fun hc => hb hc.2, Disk.write_of_ne (Ne.symm hb)]
    refine ⟨⟨h.good.congr Disk.write_bad, h.dir, h.own, ⟨?_, ?_⟩, h.size, h.ilist,
      ⟨fun n i hn => ?_, ?_, h.cached.icopy, ?_, h.cached.pos, h.cached.byte⟩⟩, ?_⟩
    · exact h.free.iwalk.congr fun i hi => by
        rw [lfibget_write hblock (h.own.ifree_iblock hi)]
    · refine h.free.dwalk.congr fun b hb => ?_
      rw [Disk.nextdb, Disk.nextdb, Disk.write_of_ne]
      rintro rfl
      exact h.own.dfree_not_blocks hb hmem
    · rw [hkeep, ← h.cached.index n i hn, Lflcblk.ibView, Lflcblk.ibView,
        lfibget_write hblock (h.own.chain_iblock (List.mem_of_getElem? hn))]
    · rw [Lflcblk.dbView_clean rfl]
      exact h.cached.holds.congr fun b _ => hview b
    · exact .inr ⟨m, hm, hcopy⟩
    · refine ⟨Disk.write_bad, fun i hi _ => lfibget_write hblock hi,
        fun b _ hb => Disk.write_of_ne (ne_of_mem_of_not_mem hmem hb).symm, fun b hb => ?_, rfl,
        rfl, fun _ _ => rfl, rfl⟩
      refine Disk.write_of_ne ?_
      rintro rfl
      exact hb ⟨by have := hblock.1; omega, hblock.2⟩
  · have hclean : p.lfdbdirty = false := Bool.not_eq_true _ ▸ hdirty
    refine ⟨⟨h.good, h.dir, h.own, h.free, h.size, h.ilist, ?_⟩, .refl v⟩
    have hp : ({ p with lfdbdirty := false } : Lflcblk) = p := by rw [← hclean]
    rw [hp]
    exact h.cached

/-- **The index block is written back.** -/
theorem FileOk.flushIndex (h : FileOk A v p F file ifree dfree) :
    FileOk A (flushIndex v p) { p with lfibdirty := false } F file ifree dfree ∧
      FileFrame A p.lfdirptr F.chain F.blocks v (flushIndex v p) := by
  unfold Xinu.flushIndex
  split_ifs with hdirty
  · obtain ⟨n, hn, hcopy⟩ := h.cached.icopy.resolve_left fun hc => by
      rw [hdirty] at hc
      exact absurd hc.2 (by decide)
    have hmem : p.lfinum ∈ F.chain := List.mem_of_getElem? hn
    have hblock := h.own.chain_iblock hmem
    have hok : Layout.lfiblk.ok p.lfiblock := by
      rw [hcopy]
      exact h.own.index_ok (List.getElem?_eq_some_iff.mp hn).1
    have hview : ∀ i, A.Iblock i → lfibget (lfibput v.lf_dskdev p.lfinum p.lfiblock).2 i =
        p.ibView v.lf_dskdev i := by
      intro i hi
      rw [Lflcblk.ibView]
      by_cases hip : p.lfinum = i
      · rw [if_pos ⟨hdirty, hip⟩, ← hip, lfibget_lfibput hblock h.good hok]
      · rw [if_neg fun hc => hip hc.2, lfibget_lfibput_of_ne hblock hi h.good (Ne.symm hip)]
    have hdata : ∀ b, A.Dblock b →
        (lfibput v.lf_dskdev p.lfinum p.lfiblock).2.sector b = v.lf_dskdev.sector b :=
      fun b hb => lfibput_sector (hb.ne_sect hblock).symm
    refine ⟨⟨h.good.congr lfibput_bad, h.dir, h.own, ⟨?_, ?_⟩, h.size, h.ilist,
      ⟨fun m i hm => ?_, ?_, ?_, h.cached.dcopy, h.cached.pos, h.cached.byte⟩⟩, ?_⟩
    · refine h.free.iwalk.congr fun i hi => ?_
      rw [lfibget_lfibput_of_ne hblock (h.own.ifree_iblock hi) h.good]
      rintro rfl
      exact h.own.ifree_not_chain hi hmem
    · exact h.free.dwalk.congr fun b hb => by
        rw [Disk.nextdb, Disk.nextdb, hdata b (h.own.dfree_dblock hb)]
    · rw [Lflcblk.ibView_clean rfl, hview i (h.own.chain_iblock (List.mem_of_getElem? hm))]
      exact h.cached.index m i hm
    · refine h.cached.holds.congr fun b hb => ?_
      rw [Lflcblk.dbView, Lflcblk.dbView, hdata b (h.own.blocks_dblock hb)]
    · exact .inr ⟨n, hn, hcopy⟩
    · refine ⟨lfibput_bad, fun i hi hc => lfibget_lfibput_of_ne hblock hi h.good
        (ne_of_mem_of_not_mem hmem hc).symm, fun b hb _ => hdata b hb, fun b hb => ?_, rfl, rfl,
        fun _ _ => rfl, rfl⟩
      refine lfibput_sector ?_
      rintro rfl
      have h1 := hblock.sect
      have h2 := A.inside
      exact hb ⟨by omega, by omega⟩
  · have hclean : p.lfibdirty = false := Bool.not_eq_true _ ▸ hdirty
    refine ⟨⟨h.good, h.dir, h.own, h.free, h.size, h.ilist, ?_⟩, .refl v⟩
    have hp : ({ p with lfibdirty := false } : Lflcblk) = p := by rw [← hclean]
    rw [hp]
    exact h.cached

/-- **`lfflush` leaves no dirty copy**, and the file as it was. -/
theorem FileOk.lfflush (h : FileOk A v p F file ifree dfree) (hused : p.lfstate = .LF_USED) :
    FileOk A (lfflush v p).2.1 (lfflush v p).2.2 F file ifree dfree ∧
      FileFrame A p.lfdirptr F.chain F.blocks v (lfflush v p).2.1 ∧
      (lfflush v p).2.2 = { p with lfdbdirty := false, lfibdirty := false } := by
  rw [lfflush_eq hused]
  obtain ⟨h1, f1⟩ := h.flushDir
  obtain ⟨h2, f2⟩ := h1.flushData
  obtain ⟨h3, f3⟩ := h2.flushIndex
  exact ⟨h3, f1.trans (f2.trans f3), rfl⟩

/-- The sector of the directory is not that of a block. -/
theorem Area.Dblock.ne_dir {b : Int} (hb : A.Dblock b) : LF_AREA_DIR ≠ b := by
  have h1 := hb.1
  have h2 := A.pos
  show 0 ≠ b
  omega

theorem Area.Iblock.ne_dir {i : Int} (hi : A.Iblock i) : LF_AREA_DIR ≠ ib2sect i := by
  have h1 := hi.sect
  show 0 ≠ ib2sect i
  omega

/-- **`lfflush` saves the directory.** -/
theorem FileOk.lfflush_saved (h : FileOk A v p F file ifree dfree) (hused : p.lfstate = .LF_USED)
    (hs : v.Saved) : (Xinu.lfflush v p).2.1.Saved ∧ (Xinu.lfflush v p).2.1.lf_dirdirty = false := by
  have h0 : (Xinu.flushDir v).Saved ∧ (Xinu.flushDir v).lf_dirdirty = false := by
    rw [Xinu.flushDir]
    split_ifs with hdirty
    · exact ⟨saved_writeDir h.good h.dir false, rfl⟩
    · exact ⟨hs, Bool.not_eq_true _ ▸ hdirty⟩
  have h1 : (Xinu.flushData (Xinu.flushDir v) p).Saved ∧
      (Xinu.flushData (Xinu.flushDir v) p).lf_dirdirty = false := by
    rw [Xinu.flushData]
    split_ifs with hdirty
    · obtain ⟨m, hm, -⟩ := h.cached.dcopy.resolve_left fun hc => by simp [hdirty] at hc
      have hb := h.own.blocks_dblock (List.mem_of_getElem? hm)
      exact ⟨h0.1.congr rfl rfl (Disk.write_of_ne hb.ne_dir), h0.2⟩
    · exact h0
  rw [lfflush_eq hused, Xinu.flushIndex]
  split_ifs with hdirty
  · obtain ⟨n, hn, -⟩ := h.cached.icopy.resolve_left fun hc => by simp [hdirty] at hc
    have hi := h.own.chain_iblock (List.mem_of_getElem? hn)
    exact ⟨h1.1.congr rfl rfl (lfibput_sector hi.ne_dir), h1.2⟩
  · exact h1

/-! ## 2. How a file grows

`Grown` says what a setup may do to the map of a file.  It is transitive, so the parts of
`lfsetup` compose. -/

/-- What `lfsetup` may do to the map of a file: add blocks from the free lists at the ends, up to
those of the file position. -/
structure Grown (pos : Nat) (F : FileMap) (ifree dfree : List Int) (F' : FileMap)
    (ifree' dfree' : List Int) : Prop where
  chain : F.chain <+: F'.chain
  blocks : F.blocks <+: F'.blocks
  iblocks : F'.chain ++ ifree' = F.chain ++ ifree
  dblocks : F'.blocks ++ dfree' = F.blocks ++ dfree
  chainBound : F'.chain.length ≤ max F.chain.length (pos / LF_IDATA + 1)
  blocksBound : F'.blocks.length ≤ max F.blocks.length (pos / LF_BLKSIZ + 1)

/-- The fields of a control block that a setup leaves alone. -/
structure Lflcblk.Same (p p' : Lflcblk) : Prop where
  lfstate : p'.lfstate = p.lfstate
  lfdev : p'.lfdev = p.lfdev
  lfdirptr : p'.lfdirptr = p.lfdirptr
  lfmode : p'.lfmode = p.lfmode
  lfpos : p'.lfpos = p.lfpos
  lfname : p'.lfname = p.lfname

section Grown

variable {pos : Nat} {F' F'' : FileMap} {ifree' dfree' ifree'' dfree'' : List Int} {i b : Int}
  {p'' : Lflcblk}

theorem Lflcblk.Same.refl (p : Lflcblk) : p.Same p := ⟨rfl, rfl, rfl, rfl, rfl, rfl⟩

theorem Lflcblk.Same.trans (h : p.Same p') (h' : p'.Same p'') : p.Same p'' :=
  ⟨h'.lfstate.trans h.lfstate, h'.lfdev.trans h.lfdev, h'.lfdirptr.trans h.lfdirptr,
    h'.lfmode.trans h.lfmode, h'.lfpos.trans h.lfpos, h'.lfname.trans h.lfname⟩

theorem Grown.refl : Grown pos F ifree dfree F ifree dfree :=
  ⟨List.prefix_rfl, List.prefix_rfl, rfl, rfl, le_max_left _ _, le_max_left _ _⟩

theorem Grown.trans (h : Grown pos F ifree dfree F' ifree' dfree')
    (h' : Grown pos F' ifree' dfree' F'' ifree'' dfree'') :
    Grown pos F ifree dfree F'' ifree'' dfree'' where
  chain := h.chain.trans h'.chain
  blocks := h.blocks.trans h'.blocks
  iblocks := h'.iblocks.trans h.iblocks
  dblocks := h'.dblocks.trans h.dblocks
  chainBound := by
    have h1 := h.chainBound
    have h2 := h'.chainBound
    omega
  blocksBound := by
    have h1 := h.blocksBound
    have h2 := h'.blocksBound
    omega

theorem Grown.addIndex (h : F.chain.length ≤ pos / LF_IDATA) :
    Grown pos F (i :: ifree) dfree (F.addIndex i) ifree dfree where
  chain := List.prefix_append _ _
  blocks := List.prefix_rfl
  iblocks := by rw [FileMap.addIndex, List.append_assoc]; rfl
  dblocks := rfl
  chainBound := by
    rw [FileMap.addIndex, List.length_append, List.length_singleton]
    omega
  blocksBound := le_max_left _ _

theorem Grown.addBlock (h : F.blocks.length ≤ pos / LF_BLKSIZ) :
    Grown pos F ifree (b :: dfree) (F.addBlock b) ifree dfree where
  chain := List.prefix_rfl
  blocks := List.prefix_append _ _
  iblocks := rfl
  dblocks := by rw [FileMap.addBlock, List.append_assoc]; rfl
  chainBound := le_max_left _ _
  blocksBound := by
    rw [FileMap.addBlock, List.length_append, List.length_singleton]
    omega

end Grown

/-! ## 3. Taking blocks from the free lists

Both free lists are threaded through their blocks.  Taking the first block moves the head to the
second and leaves every other block as it was; with an empty list the code panics. -/

/-- The first free index block is taken. -/
def takeIndex (v : Lfdata) : Lfdata :=
  { ({ v with lf_dir.lfd_ifree := (lfibget v.lf_dskdev v.lf_dir.lfd_ifree).ib_next } :
      Lfdata).writeDir with lf_dirdirty := false }

/-- The first free data block is taken. -/
def takeBlock (v : Lfdata) : Lfdata :=
  { ({ v with lf_dir.lfd_dfree := v.lf_dskdev.nextdb v.lf_dir.lfd_dfree } :
      Lfdata).writeDir with lf_dirdirty := false }

section Take

variable {i b : Int} {e : Fin LF_NUM_DIR_ENT} {C B : List Int}

theorem lfiballoc_nil (h : FreeLists v [] dfree) : lfiballoc v = none := by
  have hnull : v.lf_dir.lfd_ifree = LF_INULL := h.iwalk
  rw [lfiballoc]
  exact if_pos hnull

theorem lfiballoc_cons (h : FreeLists v (i :: ifree) dfree) (hi : A.Iblock i) :
    lfiballoc v = some (i, takeIndex v) := by
  have hhead : v.lf_dir.lfd_ifree = i := h.iwalk.1
  rw [lfiballoc, takeIndex, hhead]
  exact if_neg hi.ne_null

theorem lfdballoc_nil (h : FreeLists v ifree []) : lfdballoc v = none := by
  have hnull : v.lf_dir.lfd_dfree = LF_DNULL := h.dwalk
  rw [lfdballoc]
  exact if_pos hnull

theorem lfdballoc_cons (h : FreeLists v ifree (b :: dfree)) (hb : A.Dblock b)
    (hk : A.Good v.lf_dskdev) : lfdballoc v = some (b, fun _ => 43, takeBlock v) := by
  have hhead : v.lf_dir.lfd_dfree = b := h.dwalk.1
  have hread : (v.lf_dskdev.read b).1 = OK := by
    rw [Disk.read, if_neg (by rw [hb.good hk]; decide)]
  rw [lfdballoc, takeBlock, hhead]
  dsimp only
  rw [if_neg hb.ne_null, if_neg (by rw [hread]; decide)]
  rfl

theorem takeIndex_frame : FileFrame A e C B v (takeIndex v) :=
  have h := writeDir_frame (A := A)
    (v := { v with lf_dir.lfd_ifree := (lfibget v.lf_dskdev v.lf_dir.lfd_ifree).ib_next }) e C B
  ⟨h.bad, h.index, h.data, h.outside, h.present, rfl, fun _ _ => rfl, rfl⟩

theorem takeBlock_frame : FileFrame A e C B v (takeBlock v) :=
  have h := writeDir_frame (A := A)
    (v := { v with lf_dir.lfd_dfree := v.lf_dskdev.nextdb v.lf_dir.lfd_dfree }) e C B
  ⟨h.bad, h.index, h.data, h.outside, h.present, rfl, fun _ _ => rfl, rfl⟩

theorem takeIndex_fits (h : v.lf_dir.Fits) : (takeIndex v).lf_dir.Fits :=
  ⟨h.fsysid, h.vers, h.allzeros, h.allones, h.dfree, signed_ok_get _, h.nfiles, h.files, h.revid⟩

theorem takeBlock_fits (h : v.lf_dir.Fits) : (takeBlock v).lf_dir.Fits :=
  ⟨h.fsysid, h.vers, h.allzeros, h.allones, signed_ok_get _, h.ifree, h.nfiles, h.files, h.revid⟩

theorem takeIndex_saved (hk : A.Good v.lf_dskdev) (h : v.lf_dir.Fits) : (takeIndex v).Saved :=
  saved_writeDir
    (v := { v with lf_dir.lfd_ifree := (lfibget v.lf_dskdev v.lf_dir.lfd_ifree).ib_next })
    hk (takeIndex_fits h) false

theorem takeBlock_saved (hk : A.Good v.lf_dskdev) (h : v.lf_dir.Fits) : (takeBlock v).Saved :=
  saved_writeDir (v := { v with lf_dir.lfd_dfree := v.lf_dskdev.nextdb v.lf_dir.lfd_dfree })
    hk (takeBlock_fits h) false

/-- The lists are read from their blocks and from the directory's heads. -/
theorem FreeLists.congr (h : FreeLists v ifree dfree)
    (hih : v'.lf_dir.lfd_ifree = v.lf_dir.lfd_ifree)
    (hdh : v'.lf_dir.lfd_dfree = v.lf_dir.lfd_dfree)
    (hi : ∀ i ∈ ifree, lfibget v'.lf_dskdev i = lfibget v.lf_dskdev i)
    (hd : ∀ b ∈ dfree, v'.lf_dskdev.sector b = v.lf_dskdev.sector b) :
    FreeLists v' ifree dfree where
  iwalk := by
    rw [hih]
    exact h.iwalk.congr fun i hi' => by rw [hi i hi']
  dwalk := by
    rw [hdh]
    exact h.dwalk.congr fun b hb => by rw [Disk.nextdb, Disk.nextdb, hd b hb]

theorem FreeLists.takeIndex (h : FreeLists v (i :: ifree) dfree)
    (hi : ∀ c ∈ ifree, A.Iblock c) (hd : ∀ b ∈ dfree, A.Dblock b) :
    FreeLists (takeIndex v) ifree dfree := by
  have hf := takeIndex_frame (A := A) (v := v) (e := 0) (C := []) (B := [])
  refine ⟨?_, ?_⟩
  · have hhead : v.lf_dir.lfd_ifree = i := h.iwalk.1
    have htail : (Xinu.takeIndex v).lf_dir.lfd_ifree = (lfibget v.lf_dskdev i).ib_next := by
      rw [← hhead]
      rfl
    rw [htail]
    exact h.iwalk.2.congr fun c hc => by rw [hf.index c (hi c hc) (by simp)]
  · exact h.dwalk.congr fun b hb => by
      rw [Disk.nextdb, Disk.nextdb, hf.data b (hd b hb) (by simp)]

theorem FreeLists.takeBlock (h : FreeLists v ifree (b :: dfree))
    (hi : ∀ c ∈ ifree, A.Iblock c) (hd : ∀ b ∈ dfree, A.Dblock b) :
    FreeLists (takeBlock v) ifree dfree := by
  have hf := takeBlock_frame (A := A) (v := v) (e := 0) (C := []) (B := [])
  refine ⟨?_, ?_⟩
  · exact h.iwalk.congr fun c hc => by rw [hf.index c (hi c hc) (by simp)]
  · have hhead : v.lf_dir.lfd_dfree = b := h.dwalk.1
    have htail : (Xinu.takeBlock v).lf_dir.lfd_dfree = v.lf_dskdev.nextdb b := by
      rw [← hhead]
      rfl
    rw [htail]
    exact h.dwalk.2.congr fun c hc => by
      rw [Disk.nextdb, Disk.nextdb, hf.data c (hd c hc) (by simp)]

end Take

/-! ## 4. An index block in memory

A file without blocks gets its first index block, and the directory entry comes to point to it.
Otherwise the copy in memory is kept if it is not behind the file position, and else the walk
starts again at the first index block. -/

/-- The index block `n` of the file is in memory, at or before the file position, and no data block
is dirty. -/
structure AtIndex (A : Area) (v : Lfdata) (p : Lflcblk) (F : FileMap) (file : List UInt8)
    (ifree dfree : List Int) (n : Nat) : Prop where
  ok : FileOk A v p F file ifree dfree
  outside : p.lfbyte = LF_BLKSIZ
  clean : p.lfdbdirty = false
  inum : F.chain[n]? = some p.lfinum
  iblock : p.lfiblock = F.index n
  reach : n * LF_IDATA ≤ p.lfpos
  /-- Only a new index block is dirty, and it is the one that is wanted. -/
  dirty : p.lfibdirty = true → n = p.lfpos / LF_IDATA

/-- A control block with a new index block. -/
theorem cached_addIndex {k : Disk} {i : Int} (hholds : Holds LF_BLKSIZ k.sector F.blocks file)
    (hindex : ∀ n c, F.chain[n]? = some c → lfibget k c = (F.addIndex i).index n)
    (hi : i ∉ F.chain) (hfull : F.blocks.length = LF_IBLEN * F.chain.length)
    (hinum : p.lfinum = i) (hblock : p.lfiblock = lfibclear (F.chain.length * LF_IDATA))
    (hdirty : p.lfibdirty = true) (hclean : p.lfdbdirty = false)
    (hdcopy : p.lfdnum = LF_DNULL ∧ p.lfdbdirty = false ∨ ∃ m, F.blocks[m]? = some p.lfdnum ∧
      ∀ q < file.length, q / LF_BLKSIZ = m → file[q]? = some (p.lfdblock (q % LF_BLKSIZ)))
    (hpos : p.lfpos ≤ file.length) (hbyte : p.lfbyte = LF_BLKSIZ) :
    Cached k p (F.addIndex i) file := by
  have hlast : (F.addIndex i).chain[F.chain.length]? = some i := by
    rw [FileMap.addIndex, List.getElem?_append_right (le_refl _), Nat.sub_self,
      List.getElem?_cons_zero]
  refine ⟨fun n c hn => ?_, ?_, .inr ⟨F.chain.length, ?_, ?_⟩, hdcopy, hpos, .inl hbyte⟩
  · rcases Nat.lt_or_ge n F.chain.length with hlt | hge
    · rw [FileMap.addIndex, List.getElem?_append_left hlt] at hn
      have hne : p.lfinum ≠ c := fun hc => hi (hinum ▸ hc ▸ List.mem_of_getElem? hn)
      rw [Lflcblk.ibView, if_neg fun hc => hne hc.2]
      exact hindex n c hn
    · have hlt := (List.getElem?_eq_some_iff.mp hn).1
      rw [FileMap.addIndex, List.length_append, List.length_singleton] at hlt
      obtain rfl : n = F.chain.length := by omega
      rw [hlast] at hn
      rw [Lflcblk.ibView, if_pos ⟨hdirty, hinum.trans (Option.some.inj hn)⟩, hblock,
        FileMap.index_addIndex_new hfull]
  · rw [Lflcblk.dbView_clean hclean]
    exact hholds
  · rw [hlast, hinum]
  · rw [hblock, FileMap.index_addIndex_new hfull]

/-- **An empty file gets its first index block.** -/
theorem FileOk.firstIndex {i : Int} (h : FileOk A v p F file (i :: ifree) dfree)
    (hchain : F.chain = []) (hbyte : p.lfbyte = LF_BLKSIZ) (hd : p.lfdbdirty = false) :
    F.blocks = [] ∧ p.lfpos = 0 ∧
    AtIndex A
      ((takeIndex v).setEntry p.lfdirptr { (takeIndex v).entry p.lfdirptr with ld_ilist := i })
      { p with lfiblock := lfibclear 0, lfibdirty := true, lfinum := i }
      (F.addIndex i) file ifree dfree 0 ∧
    FileFrame A p.lfdirptr (F.addIndex i).chain (F.addIndex i).blocks v
      ((takeIndex v).setEntry p.lfdirptr
        { (takeIndex v).entry p.lfdirptr with ld_ilist := i }) := by
  have hib := h.own.ifree_iblock (List.mem_cons_self (a := i) (l := ifree))
  have hblocks : F.blocks = [] := by
    have hroom := h.own.room
    rw [hchain] at hroom
    exact List.length_eq_zero_iff.mp (Nat.le_zero.mp hroom)
  have hfile : file.length = 0 := by
    have hroom := h.cached.holds.room
    rw [hblocks] at hroom
    exact Nat.le_zero.mp hroom
  have hpos : p.lfpos = 0 := by
    have h1 := h.cached.pos
    omega
  have hfull : F.blocks.length = LF_IBLEN * F.chain.length := by rw [hblocks, hchain]; rfl
  have hframe := takeIndex_frame (A := A) (v := v) (e := p.lfdirptr) (C := (F.addIndex i).chain)
    (B := (F.addIndex i).blocks)
  have hfree := h.free.takeIndex (fun c hc => h.own.ifree_iblock (List.mem_cons_of_mem _ hc))
    fun b hb => h.own.dfree_dblock hb
  have hfits := takeIndex_fits h.dir
  have hiok : -2147483648 ≤ i ∧ i < 2147483648 := by
    have h1 := hib.1
    have h2 := hib.2
    have h3 := A.behind
    have h4 := A.inside
    have h5 := A.small
    omega
  have hcached : Cached (takeIndex v).lf_dskdev
      { p with lfiblock := lfibclear 0, lfibdirty := true, lfinum := i } (F.addIndex i) file := by
    refine cached_addIndex ?_ (fun n c hn => ?_) (h.own.ifree_not_chain List.mem_cons_self)
      hfull rfl (by rw [hchain]; rfl) rfl hd h.cached.dcopy h.cached.pos hbyte
    · rw [hblocks]
      exact ⟨by rw [hfile]; exact Nat.zero_le _, fun q _ hq => by omega⟩
    · rw [hchain] at hn
      simp at hn
  refine ⟨hblocks, hpos, ⟨⟨h.good.congr hframe.bad, hfits.setEntry ⟨(h.dir.files _).1, hiok⟩,
    h.own.addIndex hfull, ⟨hfree.iwalk, hfree.dwalk⟩, ?_, ?_, hcached⟩, hbyte, hd, ?_, ?_, ?_,
    fun _ => ?_⟩, ?_⟩
  · rw [Lfdata.entry_setEntry]
    exact h.size
  · rw [Lfdata.entry_setEntry, FileMap.addIndex, hchain]
    rfl
  · rw [FileMap.addIndex, hchain]
    rfl
  · have hnew := FileMap.index_addIndex_new (i := i) hfull
    rw [hchain] at hnew
    exact hnew.symm
  · rw [Nat.zero_mul]
    exact Nat.zero_le _
  · show 0 = p.lfpos / LF_IDATA
    rw [hpos]
    rfl
  · exact ⟨hframe.bad, hframe.index, hframe.data, hframe.outside, hframe.present, hframe.header,
      fun _ he => Lfdata.entry_setEntry_of_ne he, by rw [Lfdata.entry_setEntry]; rfl⟩

/-- **An index block of the file is in memory** after the first part of `lfsetup`. -/
theorem lfsetupFirst_spec (h : FileOk A v p F file ifree dfree) (hbyte : p.lfbyte = LF_BLKSIZ)
    (hi : p.lfibdirty = false) (hd : p.lfdbdirty = false) :
    lfsetupFirst v p = none ∧ F.chain = [] ∧ ifree = [] ∨
    ∃ v' p' F' ifree' n, lfsetupFirst v p = some (v', p') ∧
      AtIndex A v' p' F' file ifree' dfree n ∧ FileFrame A p.lfdirptr F'.chain F'.blocks v v' ∧
      p.Same p' ∧ Grown p.lfpos F ifree dfree F' ifree' dfree ∧
      ((F' = F ∧ ifree' = ifree) ∨ n = p.lfpos / LF_IDATA) ∧
      (v.Saved → v'.Saved ∨ F'.blocks = []) := by
  have hstored := h.cached.stored hi hd
  -- the first index block of the file is read
  have hread : ∀ c cs, F.chain = c :: cs → (v.entry p.lfdirptr).ld_ilist = c ∧ c ≠ LF_INULL ∧
      AtIndex A v { p with lfiblock := lfibget v.lf_dskdev c, lfinum := c } F file ifree dfree
        0 := by
    intro c cs hchain
    have hc : F.chain[0]? = some c := by rw [hchain]; rfl
    have hblock := hstored.index 0 c hc
    refine ⟨by rw [h.ilist, hchain]; rfl, (h.own.chain_iblock (List.mem_of_getElem? hc)).ne_null,
      ⟨h.good, h.dir, h.own, h.free, h.size, h.ilist, hstored.cached hi hd (.inr ⟨0, hc, hblock⟩)
        h.cached.dcopy h.cached.pos h.cached.byte⟩, hbyte, hd, hc, hblock, ?_, fun hdirty => ?_⟩
    · rw [Nat.zero_mul]
      exact Nat.zero_le _
    · cases hi.symm.trans hdirty
  rw [lfsetupFirst]
  dsimp only
  by_cases hinum : p.lfinum = LF_INULL
  · rw [if_pos hinum]
    cases hchain : F.chain with
    | nil =>
      rw [if_pos (by rw [h.ilist, hchain]; rfl)]
      cases ifree with
      | nil => exact .inl ⟨by rw [lfiballoc_nil h.free, Option.map_none], rfl, rfl⟩
      | cons i rest =>
        obtain ⟨hblocks, hpos, hat, hframe⟩ := h.firstIndex hchain hbyte hd
        rw [lfiballoc_cons h.free (h.own.ifree_iblock List.mem_cons_self), Option.map_some]
        refine .inr ⟨_, _, F.addIndex i, rest, 0, rfl, hat, hframe, ⟨rfl, rfl, rfl, rfl, rfl, rfl⟩,
          .addIndex ?_, .inr ?_, fun _ => .inr hblocks⟩
        · rw [hchain]
          exact Nat.zero_le _
        · rw [hpos]
          rfl
    | cons c cs =>
      obtain ⟨hilist, hne, hat⟩ := hread c cs hchain
      rw [hilist, if_neg hne]
      exact .inr ⟨_, _, F, ifree, 0, rfl, hat, .refl v, ⟨rfl, rfl, rfl, rfl, rfl, rfl⟩, .refl,
        .inl ⟨rfl, rfl⟩, .inl⟩
  · rw [if_neg hinum]
    obtain ⟨n, hn, hcopy⟩ := h.cached.icopy.resolve_left fun hc => hinum hc.1
    split_ifs with hback
    · cases hchain : F.chain with
      | nil =>
        rw [hchain] at hn
        simp at hn
      | cons c cs =>
        obtain ⟨hilist, -, hat⟩ := hread c cs hchain
        rw [hilist]
        exact .inr ⟨_, _, F, ifree, 0, rfl, hat, .refl v, ⟨rfl, rfl, rfl, rfl, rfl, rfl⟩, .refl,
          .inl ⟨rfl, rfl⟩, .inl⟩
    · refine .inr ⟨v, p, F, ifree, n, rfl, ⟨h, hbyte, hd, hn, hcopy, ?_, fun hdirty => ?_⟩, .refl v,
        .refl p, .refl, .inl ⟨rfl, rfl⟩, .inl⟩
      · rw [hcopy] at hback
        exact not_lt.mp hback
      · cases hi.symm.trans hdirty

/-! ## 5. The walk along the index blocks

One step goes to the next index block and takes a new one where there is none.  That happens only
at the end of the file, and then all index blocks before it are full. -/

section Walk

variable {n : Nat}

/-- The last index block but the wanted one is full. -/
theorem AtIndex.full (h : AtIndex A v p F file ifree dfree n) (hn : n < p.lfpos / LF_IDATA)
    (hlast : F.chain.length ≤ n + 1) :
    F.chain.length = n + 1 ∧ F.blocks.length = LF_IBLEN * F.chain.length ∧
      n + 1 = p.lfpos / LF_IDATA := by
  have hlt := (List.getElem?_eq_some_iff.mp h.inum).1
  have h1 : F.blocks.length ≤ 16 * F.chain.length := h.ok.own.room
  have h2 : file.length ≤ 512 * F.blocks.length := h.ok.cached.holds.room
  have h3 := h.ok.cached.pos
  have h4 : n < p.lfpos / 8192 := hn
  refine ⟨by omega, ?_, ?_⟩
  · show F.blocks.length = 16 * F.chain.length
    omega
  · show n + 1 = p.lfpos / 8192
    omega

/-- **A new index block is linked behind the last.** -/
theorem AtIndex.addIndex {i : Int} (h : AtIndex A v p F file (i :: ifree) dfree n)
    (hn : n < p.lfpos / LF_IDATA) (hlast : F.chain.length ≤ n + 1) :
    AtIndex A { takeIndex v with
        lf_dskdev := (lfibput (takeIndex v).lf_dskdev p.lfinum
          { p.lfiblock with ib_next := i }).2 }
      { p with
        lfiblock := lfibclear ((p.lfiblock.ib_offset + LF_IDATA) % 4294967296)
        lfinum := i, lfibdirty := true, lfdnum := LF_DNULL } (F.addIndex i) file ifree dfree
      (n + 1) ∧
    FileFrame A p.lfdirptr (F.addIndex i).chain (F.addIndex i).blocks v { takeIndex v with
        lf_dskdev := (lfibput (takeIndex v).lf_dskdev p.lfinum
          { p.lfiblock with ib_next := i }).2 } ∧
    Lfdata.Saved { takeIndex v with
        lf_dskdev := (lfibput (takeIndex v).lf_dskdev p.lfinum
          { p.lfiblock with ib_next := i }).2 } := by
  obtain ⟨hlen, hfull, hwant⟩ := h.full hn hlast
  have hmem : p.lfinum ∈ F.chain := List.mem_of_getElem? h.inum
  have hib := h.ok.own.chain_iblock hmem
  have hi := h.ok.own.ifree_iblock (List.mem_cons_self (a := i) (l := ifree))
  have hclean : p.lfibdirty = false := by
    by_contra hdirty
    have heq := h.dirty (by simpa using hdirty)
    omega
  have hstored := h.ok.cached.stored hclean h.clean
  have hown := h.ok.own.addIndex hfull
  have hlink : { p.lfiblock with ib_next := i } = (F.addIndex i).index n := by
    rw [h.iblock, FileMap.index_addIndex_last hlen.symm]
  have hok : Layout.lfiblk.ok { p.lfiblock with ib_next := i } := by
    rw [hlink]
    refine hown.index_ok ?_
    rw [FileMap.addIndex, List.length_append, List.length_singleton]
    omega
  have htake := takeIndex_frame (A := A) (v := v) (e := p.lfdirptr) (C := (F.addIndex i).chain)
    (B := (F.addIndex i).blocks)
  have hgood : A.Good (takeIndex v).lf_dskdev := h.ok.good.congr htake.bad
  have hfree := h.ok.free.takeIndex
    (fun c hc => h.ok.own.ifree_iblock (List.mem_cons_of_mem _ hc))
    fun b hb => h.ok.own.dfree_dblock hb
  have hsame : ∀ c, A.Iblock c → lfibget (takeIndex v).lf_dskdev c = lfibget v.lf_dskdev c :=
    fun c hc => (takeIndex_frame (e := p.lfdirptr) (C := []) (B := [])).index c hc (by simp)
  have hdata : ∀ b, A.Dblock b → (lfibput (takeIndex v).lf_dskdev p.lfinum
      { p.lfiblock with ib_next := i }).2.sector b = v.lf_dskdev.sector b := fun b hb =>
    (lfibput_sector (hb.ne_sect hib).symm).trans
      ((takeIndex_frame (e := p.lfdirptr) (C := []) (B := [])).data b hb (by simp))
  have hmax : (n + 1) * 8192 < 4294967296 := by
    have h1 := h.ok.own.length_blocks
    have h2 : F.blocks.length = 16 * F.chain.length := hfull
    omega
  refine ⟨⟨⟨hgood.congr lfibput_bad, takeIndex_fits h.ok.dir, hown, ?_, h.ok.size, ?_,
    cached_addIndex ?_ (fun m c hm => ?_) (h.ok.own.ifree_not_chain List.mem_cons_self) hfull rfl ?_
      rfl h.clean (.inl ⟨rfl, h.clean⟩) h.ok.cached.pos h.outside⟩, h.outside, h.clean, ?_, ?_, ?_,
      fun _ => hwant⟩, ?_, ?_⟩
  · refine hfree.congr rfl rfl (fun c hc => ?_) fun b hb => ?_
    · have hc' : c ∈ i :: ifree := List.mem_cons_of_mem _ hc
      exact lfibget_lfibput_of_ne hib (h.ok.own.ifree_iblock hc') hgood
        (ne_of_mem_of_not_mem hmem (h.ok.own.ifree_not_chain hc')).symm
    · exact lfibput_sector ((h.ok.own.dfree_dblock hb).ne_sect hib).symm
  · rw [FileMap.addIndex]
    refine h.ok.ilist.trans ?_
    cases hc : F.chain with
    | nil =>
      rw [hc] at hmem
      simp at hmem
    | cons c cs => rfl
  · exact hstored.holds.congr fun b hb => hdata b (h.ok.own.blocks_dblock hb)
  · -- the links on the disk
    have hm' := (List.getElem?_eq_some_iff.mp hm).1
    by_cases hmn : m = n
    · subst hmn
      obtain rfl : p.lfinum = c := Option.some.inj (h.inum.symm.trans hm)
      exact (lfibget_lfibput hib hgood hok).trans hlink
    · have hc := h.ok.own.chain_iblock (List.mem_of_getElem? hm)
      have hne : c ≠ p.lfinum := by
        rintro rfl
        obtain ⟨h1, h2⟩ := List.getElem?_eq_some_iff.mp hm
        obtain ⟨h3, h4⟩ := List.getElem?_eq_some_iff.mp h.inum
        exact hmn ((h.ok.own.chain_nodup.getElem_inj_iff).mp (h2.trans h4.symm))
      rw [FileMap.index_addIndex_of_lt (by omega)]
      exact (lfibget_lfibput_of_ne hib hc hgood hne).trans
        ((hsame c hc).trans (hstored.index m c hm))
  · rw [h.iblock, FileMap.index]
    show lfibclear ((n * 8192 + 8192) % 4294967296) = lfibclear (F.chain.length * 8192)
    rw [hlen, ← Nat.succ_mul, Nat.mod_eq_of_lt hmax]
  · rw [FileMap.addIndex, ← hlen, List.getElem?_append_right (le_refl _), Nat.sub_self,
      List.getElem?_cons_zero]
  · rw [← hlen, FileMap.index_addIndex_new hfull, h.iblock, FileMap.index]
    show lfibclear ((n * 8192 + 8192) % 4294967296) = lfibclear (F.chain.length * 8192)
    rw [hlen, ← Nat.succ_mul, Nat.mod_eq_of_lt hmax]
  · show (n + 1) * 8192 ≤ p.lfpos
    have h1 : n + 1 = p.lfpos / 8192 := hwant
    omega
  · refine htake.trans ⟨lfibput_bad, fun c hc hnot => ?_, fun b hb _ => ?_, fun b hb => ?_, rfl,
      rfl, fun _ _ => rfl, rfl⟩
    · refine lfibget_lfibput_of_ne hib hc hgood ?_
      rintro rfl
      exact hnot (List.mem_append_left _ hmem)
    · exact lfibput_sector (hb.ne_sect hib).symm
    · refine lfibput_sector ?_
      rintro rfl
      have h1 := hib.sect
      have h2 := A.inside
      exact hb ⟨by omega, by omega⟩
  · refine (takeIndex_saved h.ok.good h.ok.dir).congr rfl rfl (lfibput_sector ?_)
    have h1 := hib.sect
    show (0 : Int) ≠ ib2sect p.lfinum
    omega

/-- **One step of the walk**: to the next index block of the file, or to a new one. -/
theorem lfsetupNext_spec (h : AtIndex A v p F file ifree dfree n) (hn : n < p.lfpos / LF_IDATA) :
    lfsetupNext v p = none ∧ F.chain.length ≤ p.lfpos / LF_IDATA ∧ ifree = [] ∨
    ∃ v' p' F' ifree', lfsetupNext v p = some (v', p') ∧
      AtIndex A v' p' F' file ifree' dfree (n + 1) ∧ FileFrame A p.lfdirptr F'.chain F'.blocks v v'
      ∧ p.Same p' ∧ Grown p.lfpos F ifree dfree F' ifree' dfree ∧ F'.blocks = F.blocks ∧
      ((F' = F ∧ ifree' = ifree) ∨ n + 1 = p.lfpos / LF_IDATA) ∧ (v.Saved → v'.Saved) := by
  have hlt := (List.getElem?_eq_some_iff.mp h.inum).1
  have hnext : p.lfiblock.ib_next = F.chain.getD (n + 1) LF_INULL := by rw [h.iblock]; rfl
  rw [lfsetupNext]
  dsimp only
  rcases Nat.lt_or_ge (n + 1) F.chain.length with hmore | hlast
  · rw [List.getD_eq_getElem _ _ hmore] at hnext
    have hnum : F.chain[n + 1]? = some p.lfiblock.ib_next := by
      rw [hnext, List.getElem?_eq_getElem hmore]
    have hib := h.ok.own.chain_iblock (List.mem_of_getElem? hnum)
    have hclean : p.lfibdirty = false := by
      by_contra hdirty
      have heq := h.dirty (by simpa using hdirty)
      omega
    have hstored := h.ok.cached.stored hclean h.clean
    have hblock := hstored.index _ _ hnum
    rw [if_neg hib.ne_null]
    refine .inr ⟨_, _, F, ifree, rfl, ⟨⟨h.ok.good, h.ok.dir, h.ok.own, h.ok.free, h.ok.size,
      h.ok.ilist, ?_⟩, h.outside, h.clean, hnum, hblock, ?_, fun hdirty => ?_⟩, .refl v,
      ⟨rfl, rfl, rfl, rfl, rfl, rfl⟩, .refl, rfl, .inl ⟨rfl, rfl⟩, id⟩
    · exact hstored.cached hclean h.clean (.inr ⟨_, hnum, hblock⟩) (.inl ⟨rfl, h.clean⟩)
        h.ok.cached.pos (.inl h.outside)
    · show (n + 1) * 8192 ≤ p.lfpos
      have h1 : n < p.lfpos / 8192 := hn
      omega
    · cases hclean.symm.trans hdirty
  · rw [List.getD_eq_default _ _ hlast] at hnext
    rw [if_pos hnext]
    obtain ⟨hlen, -, hwant⟩ := h.full hn hlast
    cases ifree with
    | nil => exact .inl ⟨by rw [lfiballoc_nil h.ok.free, Option.map_none], by omega, rfl⟩
    | cons i rest =>
      obtain ⟨hat, hframe, hsaved⟩ := h.addIndex hn hlast
      rw [lfiballoc_cons h.ok.free (h.ok.own.ifree_iblock List.mem_cons_self), Option.map_some]
      exact .inr ⟨_, _, F.addIndex i, rest, rfl, hat, hframe, ⟨rfl, rfl, rfl, rfl, rfl, rfl⟩,
        .addIndex (by omega), rfl, .inr hwant, fun _ => hsaved⟩

/-- **The walk** ends at the index block of the file position. -/
theorem lfsetupWalk_spec {fuel : Nat} (h : AtIndex A v p F file ifree dfree n)
    (hfuel : p.lfpos / LF_IDATA < n + fuel) :
    lfsetupWalk fuel v p = none ∧ F.chain.length ≤ p.lfpos / LF_IDATA ∧ ifree = [] ∨
    ∃ v' p' F' ifree', lfsetupWalk fuel v p = some (v', p') ∧
      AtIndex A v' p' F' file ifree' dfree (p.lfpos / LF_IDATA) ∧
      FileFrame A p.lfdirptr F'.chain F'.blocks v v' ∧ p.Same p' ∧
      Grown p.lfpos F ifree dfree F' ifree' dfree ∧ F'.blocks = F.blocks ∧
      (v.Saved → v'.Saved) := by
  induction fuel generalizing v p F ifree n with
  | zero =>
    have h1 : n * 8192 ≤ p.lfpos := h.reach
    have h2 : p.lfpos / 8192 < n := hfuel
    omega
  | succ fuel ih =>
    rw [lfsetupWalk, h.iblock]
    have hreach : n * 8192 ≤ p.lfpos := h.reach
    have hbefore : p.lfpos / LF_IDATA * LF_IDATA > (F.index n).ib_offset ↔
      n < p.lfpos / LF_IDATA := by
      show n * 8192 < p.lfpos / 8192 * 8192 ↔ n < p.lfpos / 8192
      omega
    by_cases hn : n < p.lfpos / LF_IDATA
    · rw [if_pos (hbefore.mpr hn)]
      rcases lfsetupNext_spec h hn with ⟨hnone, hfull, hempty⟩ |
        ⟨v₁, p₁, F₁, ifree₁, hsome, hat, hframe, hsame, hgrown, hblocks₁, hkept, hsaved⟩
      · exact .inl ⟨by rw [hnone, Option.bind_none], hfull, hempty⟩
      · rw [hsome, Option.bind_some]
        have hpos := hsame.lfpos
        dsimp only
        rcases ih hat (by rw [hpos]; omega) with ⟨hnone, hfull, hempty⟩ |
          ⟨v₂, p₂, F₂, ifree₂, hsome₂, hat₂, hframe₂, hsame₂, hgrown₂, hblocks, hsaved₂⟩
        · rcases hkept with ⟨rfl, rfl⟩ | hwant
          · exact .inl ⟨hnone, hpos ▸ hfull, hempty⟩
          · have hlt := (List.getElem?_eq_some_iff.mp hat.inum).1
            rw [hpos] at hfull
            omega
        · rw [hpos] at hat₂ hgrown₂
          rw [hsame.lfdirptr] at hframe₂
          refine .inr ⟨v₂, p₂, F₂, ifree₂, hsome₂, hat₂, ?_, hsame.trans hsame₂,
            hgrown.trans hgrown₂, ?_, fun hs => hsaved₂ (hsaved hs)⟩
          · exact (hframe.mono hgrown₂.chain.subset hgrown₂.blocks.subset).trans hframe₂
          · exact hblocks.trans hblocks₁
    · have hdone : p.lfpos / LF_IDATA = n := by
        have h2 : ¬ n < p.lfpos / 8192 := hn
        show p.lfpos / 8192 = n
        omega
      rw [if_neg (mt hbefore.mp hn), hdone]
      exact .inr ⟨v, p, F, ifree, rfl, h, .refl v, .refl p, .refl, rfl, id⟩

end Walk

/-! ## 6. The data block

The entry of the index block names the data block, or is null at the end of the file, where a new
block is taken and the index block becomes dirty. -/

section Data

theorem dindex_sum (pos : Nat) :
    LF_IBLEN * (pos / LF_IDATA) + (dindex pos : Nat) = pos / LF_BLKSIZ := by
  show 16 * (pos / 8192) + pos % 8192 / 512 = pos / 512
  omega

/-- The control block at the end of a setup: the byte pointer is at the file position. -/
def Lflcblk.pointed (p : Lflcblk) : Lflcblk := { p with lfbyte := p.lfpos % LF_BLKSIZ }

/-- **A new data block** at the end of the file. -/
theorem AtIndex.addBlock {b : Int} (h : AtIndex A v p F file ifree (b :: dfree)
      (p.lfpos / LF_IDATA)) (hfew : F.blocks.length ≤ p.lfpos / LF_BLKSIZ) :
    (F.addBlock b).blocks[p.lfpos / LF_BLKSIZ]? = some b ∧
    FileOk A (takeBlock v) { p with
      lfbyte := p.lfpos % LF_BLKSIZ
      lfdblock := fun _ => 43, lfibdirty := true, lfdnum := b
      lfiblock.ib_dba := Function.update p.lfiblock.ib_dba (dindex p.lfpos) b }
      (F.addBlock b) file ifree dfree := by
  have hlt := (List.getElem?_eq_some_iff.mp h.inum).1
  have hmem : p.lfinum ∈ F.chain := List.mem_of_getElem? h.inum
  have hb := h.ok.own.dfree_dblock (List.mem_cons_self (a := b) (l := dfree))
  have h1 : file.length ≤ 512 * F.blocks.length := h.ok.cached.holds.room
  have h2 := h.ok.cached.pos
  have h3 : F.blocks.length ≤ p.lfpos / 512 := hfew
  have hlen : p.lfpos / LF_BLKSIZ = F.blocks.length := by
    show p.lfpos / 512 = F.blocks.length
    omega
  have hsum : LF_IBLEN * (p.lfpos / LF_IDATA) + (dindex p.lfpos : Nat) = F.blocks.length :=
    (dindex_sum _).trans hlen
  have hroom : F.blocks.length < LF_IBLEN * F.chain.length := by
    have h4 : p.lfpos / 8192 < F.chain.length := hlt
    show F.blocks.length < 16 * F.chain.length
    omega
  have hown := h.ok.own.addBlock hroom
  have hget : (F.addBlock b).blocks[F.blocks.length]? = some b := by
    rw [FileMap.addBlock, List.getElem?_append_right (le_refl _), Nat.sub_self,
      List.getElem?_cons_zero]
  have hframe := takeBlock_frame (A := A) (v := v) (e := p.lfdirptr) (C := []) (B := [])
  refine ⟨hlen ▸ hget, ⟨h.ok.good.congr hframe.bad, takeBlock_fits h.ok.dir, hown,
    h.ok.free.takeBlock (fun c hc => h.ok.own.ifree_iblock hc)
      (fun c hc => h.ok.own.dfree_dblock (List.mem_cons_of_mem _ hc)), h.ok.size, h.ok.ilist,
    fun m c hm => ?_, ?_, .inr ⟨_, h.inum, ?_⟩, .inr ⟨_, hget, fun q hq hdiv => ?_⟩, h2,
    .inr ⟨rfl, hlen ▸ hget⟩⟩⟩
  · have hview := h.ok.cached.index m c hm
    by_cases hc : p.lfinum = c
    · have hmn : m = p.lfpos / LF_IDATA := by
        obtain ⟨h4, h5⟩ := List.getElem?_eq_some_iff.mp hm
        obtain ⟨h6, h7⟩ := List.getElem?_eq_some_iff.mp h.inum
        exact (h.ok.own.chain_nodup.getElem_inj_iff).mp (h5.trans (hc.symm.trans h7.symm))
      rw [Lflcblk.ibView, if_pos ⟨rfl, hc⟩, hmn, FileMap.index_addBlock_self hsum, h.iblock]
    · have hm' : m ≠ p.lfpos / LF_IDATA := by
        rintro rfl
        exact hc (Option.some.inj (h.inum.symm.trans hm))
      rw [Lflcblk.ibView, if_neg fun hx => hc hx.2] at hview ⊢
      rw [FileMap.index_addBlock_of_ne hsum hm', ← hview]
      exact hframe.index c (h.ok.own.chain_iblock (List.mem_of_getElem? hm)) (by simp)
  · have hholds := h.ok.cached.holds
    rw [Lflcblk.dbView_clean h.clean] at hholds
    rw [Lflcblk.dbView_clean]
    · exact (hholds.congr fun c hc =>
        hframe.data c (h.ok.own.blocks_dblock hc) (by simp)).addBlock b
    · exact h.clean
  · rw [FileMap.index_addBlock_self hsum, ← h.iblock]
  · have hdiv : q / 512 = F.blocks.length := hdiv
    omega

/-- **The data block of the file position is in memory**, and the byte pointer in it. -/
theorem lfsetupData_spec (h : AtIndex A v p F file ifree dfree (p.lfpos / LF_IDATA)) :
    lfsetupData v p = none ∧ F.blocks.length ≤ p.lfpos / LF_BLKSIZ ∧ dfree = [] ∨
    ∃ v' p' F' dfree', lfsetupData v p = some (v', p') ∧
      FileOk A v' p'.pointed F' file ifree dfree' ∧ FileFrame A p.lfdirptr F'.chain F'.blocks v v' ∧
      p.Same p' ∧ Grown p.lfpos F ifree dfree F' ifree dfree' ∧
      F'.blocks[p.lfpos / LF_BLKSIZ]? = some p'.lfdnum ∧
      (v.Saved ∨ F.blocks = [] → v'.Saved) := by
  have hdba : p.lfiblock.ib_dba (dindex p.lfpos) =
    F.blocks.getD (p.lfpos / LF_BLKSIZ) LF_DNULL := by
    rw [h.iblock, ← dindex_sum]
    rfl
  rw [lfsetupData]
  dsimp only
  rcases Nat.lt_or_ge (p.lfpos / LF_BLKSIZ) F.blocks.length with hin | hfew
  · -- the block exists
    have hne : F.blocks ≠ [] := by
      rintro hnil
      rw [hnil] at hin
      exact absurd hin (Nat.not_lt_zero _)
    rw [List.getD_eq_getElem _ _ hin] at hdba
    have hnum : F.blocks[p.lfpos / LF_BLKSIZ]? = some (p.lfiblock.ib_dba (dindex p.lfpos)) := by
      rw [hdba, List.getElem?_eq_getElem hin]
    have hdb := h.ok.own.blocks_dblock (List.mem_of_getElem? hnum)
    rw [if_neg hdb.ne_null]
    split_ifs with hread
    · have hholds := h.ok.cached.holds
      rw [Lflcblk.dbView_clean h.clean] at hholds
      refine .inr ⟨_, _, F, dfree, rfl, ⟨h.ok.good, h.ok.dir, h.ok.own, h.ok.free, h.ok.size,
        h.ok.ilist, fun m c hm => h.ok.cached.index m c hm, ?_, h.ok.cached.icopy,
        .inr ⟨_, hnum, fun q hq hdiv => ?_⟩, h.ok.cached.pos, .inr ⟨rfl, hnum⟩⟩, .refl v,
        ⟨rfl, rfl, rfl, rfl, rfl, rfl⟩, .refl, hnum, fun hs => hs.resolve_right hne⟩
      · rw [Lflcblk.dbView_clean rfl]
        exact hholds
      · exact hholds.get q _ hq (hdiv ▸ hnum)
    · have hsame := not_not.mp hread
      rw [hsame] at hnum
      exact .inr ⟨v, p, F, dfree, rfl, ⟨h.ok.good, h.ok.dir, h.ok.own, h.ok.free, h.ok.size,
        h.ok.ilist, h.ok.cached.index, h.ok.cached.holds, h.ok.cached.icopy, h.ok.cached.dcopy,
        h.ok.cached.pos, .inr ⟨rfl, hnum⟩⟩, .refl v, .refl p, .refl, hnum,
        fun hs => hs.resolve_right hne⟩
  · rw [List.getD_eq_default _ _ hfew] at hdba
    rw [if_pos hdba]
    cases dfree with
    | nil => exact .inl ⟨by rw [lfdballoc_nil h.ok.free, Option.map_none], hfew, rfl⟩
    | cons b rest =>
      obtain ⟨hnum, hok⟩ := h.addBlock hfew
      rw [lfdballoc_cons h.ok.free (h.ok.own.dfree_dblock List.mem_cons_self) h.ok.good,
        Option.map_some]
      exact .inr ⟨_, _, F.addBlock b, rest, rfl, hok, takeBlock_frame,
        ⟨rfl, rfl, rfl, rfl, rfl, rfl⟩, .addBlock hfew, hnum,
        fun _ => takeBlock_saved h.ok.good h.ok.dir⟩

end Data

/-! ## 7. The whole setup

The four parts together. -/

/-- What `lfsetup` and `lftruncate` do first: dirty copies are written back. -/
theorem FileOk.flushed (h : FileOk A v p F file ifree dfree) (hused : p.lfstate = .LF_USED) :
    ∃ w : Lfdata × Lflcblk,
      (if p.lfibdirty ∨ p.lfdbdirty then (Xinu.lfflush v p).2 else (v, p)) = w ∧
      FileOk A w.1 w.2 F file ifree dfree ∧ FileFrame A p.lfdirptr F.chain F.blocks v w.1 ∧
      p.Same w.2 ∧ w.2.lfibdirty = false ∧ w.2.lfdbdirty = false ∧ w.2.lfbyte = p.lfbyte ∧
      (v.Saved → w.1.Saved) := by
  split_ifs with hdirty
  · obtain ⟨h1, h2, h3⟩ := h.lfflush hused
    refine ⟨_, rfl, h1, h2, ?_, ?_, ?_, ?_, fun hs => (h.lfflush_saved hused hs).1⟩
    · rw [h3]
      exact ⟨rfl, rfl, rfl, rfl, rfl, rfl⟩
    · rw [h3]
    · rw [h3]
    · rw [h3]
  · rw [not_or, Bool.not_eq_true, Bool.not_eq_true] at hdirty
    exact ⟨_, rfl, h, .refl v, .refl p, hdirty.1, hdirty.2, rfl, id⟩

/-- **`lfsetup`** brings the byte pointer to the file position.  It panics where the file ends with
its blocks and no block is free; otherwise the file and its neighbours are kept. -/
theorem lfsetup_spec (h : FileOk A v p F file ifree dfree) (hused : p.lfstate = .LF_USED)
    (hbyte : p.lfbyte = LF_BLKSIZ) :
    lfsetup v p = none ∧ (F.chain.length ≤ p.lfpos / LF_IDATA ∧ ifree = [] ∨
      F.blocks.length ≤ p.lfpos / LF_BLKSIZ ∧ dfree = []) ∨
    ∃ v' p' F' ifree' dfree', lfsetup v p = some (v', p') ∧
      FileOk A v' p' F' file ifree' dfree' ∧ FileFrame A p.lfdirptr F'.chain F'.blocks v v' ∧
      p.Same p' ∧ Grown p.lfpos F ifree dfree F' ifree' dfree' ∧
      p'.lfbyte = p.lfpos % LF_BLKSIZ ∧ F'.blocks[p.lfpos / LF_BLKSIZ]? = some p'.lfdnum ∧
      (v.Saved → v'.Saved) := by
  -- the dirty copies are written back
  obtain ⟨w, hw, hok, hframe, hsame, hi, hd, hkeep, hsaved⟩ := h.flushed hused
  have hbyte' := hkeep.trans hbyte
  have hpos := hsame.lfpos
  rw [lfsetup]
  dsimp only
  rw [hw]
  rcases lfsetupFirst_spec hok hbyte' hi hd with ⟨hnone, hchain, hempty⟩ |
    ⟨v₁, p₁, F₁, ifree₁, n, hsome₁, hat₁, hframe₁, hsame₁, hgrown₁, hkept, hsaved₁⟩
  · refine .inl ⟨by rw [hnone, Option.bind_none], .inl ⟨?_, hempty⟩⟩
    rw [hchain]
    exact Nat.zero_le _
  rw [hsome₁, Option.bind_some]
  have hpos₁ := hsame₁.lfpos
  have hreach : p₁.lfpos / LF_IDATA < n + walkLimit := by
    have h1 := hok.own.length_blocks
    have h2 : file.length ≤ 512 * F.blocks.length := hok.cached.holds.room
    have h3 := hok.cached.pos
    rw [hpos₁, show walkLimit = 4294967296 from rfl, show LF_IDATA = 8192 from rfl]
    omega
  dsimp only
  rcases lfsetupWalk_spec hat₁ hreach with ⟨hnone, hfull, hempty⟩ |
    ⟨v₂, p₂, F₂, ifree₂, hsome₂, hat₂, hframe₂, hsame₂, hgrown₂, hblocks₂, hsaved₂⟩
  · refine .inl ⟨by rw [hnone, Option.bind_none], .inl ?_⟩
    rw [hpos₁, hpos] at hfull
    rcases hkept with ⟨rfl, rfl⟩ | hwant
    · exact ⟨hfull, hempty⟩
    · have hlt := (List.getElem?_eq_some_iff.mp hat₁.inum).1
      rw [hpos] at hwant
      omega
  rw [hsome₂, Option.bind_some]
  have hpos₂ := hsame₂.lfpos
  rw [← hpos₂] at hat₂
  dsimp only
  rcases lfsetupData_spec hat₂ with ⟨hnone, hfull, hempty⟩ |
    ⟨v₃, p₃, F₃, dfree₃, hsome₃, hok₃, hframe₃, hsame₃, hgrown₃, hnum, hsaved₃⟩
  · refine .inl ⟨by rw [hnone, Option.map_none], .inr ⟨?_, hempty⟩⟩
    rw [hpos₂, hpos₁, hpos] at hfull
    exact ((hgrown₁.trans (hpos₁ ▸ hgrown₂)).blocks.length_le).trans hfull
  rw [hsome₃, Option.map_some]
  have hall := (hsame.trans hsame₁).trans (hsame₂.trans hsame₃)
  rw [hpos] at hgrown₁
  rw [hpos₁, hpos] at hgrown₂
  rw [hpos₂, hpos₁, hpos] at hgrown₃ hnum
  have hg := hgrown₂.trans hgrown₃
  refine .inr ⟨v₃, _, F₃, ifree₂, dfree₃, rfl, hok₃, ?_,
    ⟨hall.lfstate, hall.lfdev, hall.lfdirptr, hall.lfmode, hall.lfpos, hall.lfname⟩,
    hgrown₁.trans hg, ?_, hnum, fun hs => hsaved₃ ?_⟩
  · rw [hsame₂.lfdirptr, hsame₁.lfdirptr, hsame.lfdirptr] at hframe₃
    rw [hsame₁.lfdirptr, hsame.lfdirptr] at hframe₂
    rw [hsame.lfdirptr] at hframe₁
    have hf₀ := hframe.mono (hgrown₁.trans hg).chain.subset (hgrown₁.trans hg).blocks.subset
    have hf₁ := hframe₁.mono hg.chain.subset hg.blocks.subset
    have hf₂ := hframe₂.mono hgrown₃.chain.subset hgrown₃.blocks.subset
    exact hf₀.trans (hf₁.trans (hf₂.trans hframe₃))
  · show p₃.lfpos % LF_BLKSIZ = p.lfpos % LF_BLKSIZ
    rw [hall.lfpos]
  · rcases hsaved₁ (hsaved hs) with hs₁ | hempty
    · exact .inl (hsaved₂ hs₁)
    · exact .inr (hblocks₂.trans hempty)

end Xinu
