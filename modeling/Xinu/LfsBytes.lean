/-
# One byte of an open file: `lflgetc.c`, `lflputc.c`, `lflseek.c`, `lflclose.c`

What the operations on an open file do to its blocks and its contents (`FileOk.getc`,
`FileOk.putc`, `FileOk.seek`, `FileOk.close`).  A file has exactly the blocks its size needs
(`Tight`), so reading takes none from the free lists, and writing takes one of each kind at most.
-/
import Xinu.LfsSetup

namespace Xinu

open Layouts Chains BlockedArray

/-! ## 1. The blocks of a size

How many blocks a file has is a function of its size, and this is what `Files` uses to tell when
the disk is full. -/

/-- The data blocks of a file of `size` bytes. -/
def nblocks (size : Nat) : Nat := (size + 511) / 512

/-- The index blocks of a file of `size` bytes. -/
def niblocks (size : Nat) : Nat := (size + 8191) / 8192

/-- The file has just the blocks of its size. -/
def FileMap.Tight (F : FileMap) (size : Nat) : Prop :=
  F.blocks.length = nblocks size ∧ F.chain.length = niblocks size

variable {A : Area} {v v' : Lfdata} {p p' : Lflcblk} {F F' : FileMap} {file : List UInt8}
  {ifree dfree ifree' dfree' : List Int} {pos : Nat}

/-- An empty file has no blocks. -/
theorem FileMap.Tight.nil (h : F.Tight 0) : F = ⟨[], []⟩ := by
  obtain ⟨chain, blocks⟩ := F
  obtain rfl : blocks = [] := List.length_eq_zero_iff.mp h.1
  obtain rfl : chain = [] := List.length_eq_zero_iff.mp h.2
  rfl

theorem FileMap.Tight.inside (h : F.Tight file.length) (hpos : pos < file.length) :
    pos / LF_IDATA < F.chain.length ∧ pos / LF_BLKSIZ < F.blocks.length := by
  rw [h.1, h.2]
  show pos / 8192 < (file.length + 8191) / 8192 ∧ pos / 512 < (file.length + 511) / 512
  omega

/-- **Within the file nothing is taken.** -/
theorem Grown.eq_of_inside (h : Grown pos F ifree dfree F' ifree' dfree')
    (hpos : pos / LF_IDATA < F.chain.length ∧ pos / LF_BLKSIZ < F.blocks.length) :
    F' = F ∧ ifree' = ifree ∧ dfree' = dfree := by
  have hchain : F'.chain = F.chain := (h.chain.eq_of_length_le (by
    have h1 := h.chainBound
    omega)).symm
  have hblocks : F'.blocks = F.blocks := (h.blocks.eq_of_length_le (by
    have h1 := h.blocksBound
    omega)).symm
  refine ⟨?_, List.append_cancel_left (hchain ▸ h.iblocks),
    List.append_cancel_left (hblocks ▸ h.dblocks)⟩
  cases F
  cases F'
  simp only at hchain hblocks
  rw [hchain, hblocks]

/-- **At the end of the file** just the blocks of one more byte are there. -/
theorem Grown.tight_of_end {b : Int} (h : Grown file.length F ifree dfree F' ifree' dfree')
    (htight : F.Tight file.length) (hown : F'.Own A ifree' dfree')
    (hget : F'.blocks[file.length / LF_BLKSIZ]? = some b) : F'.Tight (file.length + 1) := by
  have h1 := h.chainBound
  have h2 := h.blocksBound
  have h3 : file.length / 512 < F'.blocks.length := (List.getElem?_eq_some_iff.mp hget).1
  have h4 : F'.blocks.length ≤ 16 * F'.chain.length := hown.room
  rw [htight.1, show LF_BLKSIZ = 512 from rfl, nblocks] at h2
  rw [htight.2, show LF_IDATA = 8192 from rfl, niblocks] at h1
  rw [FileMap.Tight, nblocks, niblocks]
  omega

/-! ## 2. Setting up the byte

The byte pointer is brought to the file position only if it is outside of the block in memory. -/

/-- **Before a byte is read or written** the byte pointer is at the file position. -/
theorem setupIfOutside_spec (h : FileOk A v p F file ifree dfree) (hused : p.lfstate = .LF_USED) :
    setupIfOutside v p = none ∧ (F.chain.length ≤ p.lfpos / LF_IDATA ∧ ifree = [] ∨
      F.blocks.length ≤ p.lfpos / LF_BLKSIZ ∧ dfree = []) ∨
    ∃ v' p' F' ifree' dfree', setupIfOutside v p = some (v', p') ∧
      FileOk A v' p' F' file ifree' dfree' ∧ FileFrame A p.lfdirptr F'.chain F'.blocks v v' ∧
      p.Same p' ∧ Grown p.lfpos F ifree dfree F' ifree' dfree' ∧
      p'.lfbyte = p.lfpos % LF_BLKSIZ ∧ F'.blocks[p.lfpos / LF_BLKSIZ]? = some p'.lfdnum ∧
      (v.Saved → v'.Saved) := by
  rw [setupIfOutside]
  rcases h.cached.byte with hout | ⟨hin, hnum⟩
  · rw [if_pos hout.ge]
    exact lfsetup_spec h hused hout
  · have hlt : p.lfbyte < LF_BLKSIZ := hin ▸ Nat.mod_lt _ (by decide)
    rw [if_neg (not_le.mpr hlt)]
    exact .inr ⟨v, p, F, ifree, dfree, rfl, h, .refl v, .refl p, .refl, hin, hnum, id⟩

/-- The data block in memory holds the file there. -/
theorem FileOk.dblock (h : FileOk A v p F file ifree dfree) {m : Nat}
    (hnum : F.blocks[m]? = some p.lfdnum) :
    ∀ q < file.length, q / LF_BLKSIZ = m → file[q]? = some (p.lfdblock (q % LF_BLKSIZ)) := by
  have hb := h.own.blocks_dblock (List.mem_of_getElem? hnum)
  obtain ⟨k, hk, hcopy⟩ := h.cached.dcopy.resolve_left fun hc => hb.ne_null hc.1
  obtain ⟨h1, h2⟩ := List.getElem?_eq_some_iff.mp hnum
  obtain ⟨h3, h4⟩ := List.getElem?_eq_some_iff.mp hk
  obtain rfl : k = m := (h.own.blocks_nodup.getElem_inj_iff).mp (h4.trans h2.symm)
  exact hcopy

/-- The byte pointer after a byte. -/
theorem next_byte {blocks : List Int} {num : Int} (hnum : blocks[pos / LF_BLKSIZ]? = some num) :
    pos % LF_BLKSIZ + 1 = LF_BLKSIZ ∨ pos % LF_BLKSIZ + 1 = (pos + 1) % LF_BLKSIZ ∧
      blocks[(pos + 1) / LF_BLKSIZ]? = some num := by
  rcases Nat.lt_or_ge (pos % 512 + 1) 512 with hlt | hge
  · refine .inr ⟨?_, ?_⟩
    · show pos % 512 + 1 = (pos + 1) % 512
      omega
    · rw [show (pos + 1) / LF_BLKSIZ = pos / LF_BLKSIZ from by
        show (pos + 1) / 512 = pos / 512
        omega]
      exact hnum
  · refine .inl ?_
    show pos % 512 + 1 = 512
    omega

/-- Sizes stay below 4 GiB. -/
theorem FileOk.length_lt (h : FileOk A v p F file ifree dfree) : file.length ≤ 4294966784 := by
  have h1 := h.own.length_blocks
  have h2 : file.length ≤ 512 * F.blocks.length := h.cached.holds.room
  omega

/-! ## 3. Reading a byte -/

/-- **`lflgetc`** behind the setup. -/
theorem FileOk.next (h : FileOk A v p F file ifree dfree) (hpos : p.lfpos < file.length)
    (hbyte : p.lfbyte = p.lfpos % LF_BLKSIZ)
    (hnum : F.blocks[p.lfpos / LF_BLKSIZ]? = some p.lfdnum) :
    file[p.lfpos]? = some (p.lfdblock p.lfbyte) ∧
    FileOk A v { p with lfbyte := p.lfbyte + 1, lfpos := (p.lfpos + 1) % 4294967296 } F file ifree
      dfree := by
  have hmax := h.length_lt
  have hnext : (p.lfpos + 1) % 4294967296 = p.lfpos + 1 := Nat.mod_eq_of_lt (by omega)
  refine ⟨?_, ⟨h.good, h.dir, h.own, h.free, h.size, h.ilist, h.cached.index, h.cached.holds,
    h.cached.icopy, h.cached.dcopy, ?_, ?_⟩⟩
  · rw [hbyte]
    exact h.dblock hnum _ hpos rfl
  · show (p.lfpos + 1) % 4294967296 ≤ file.length
    rw [hnext]
    exact hpos
  · show p.lfbyte + 1 = LF_BLKSIZ ∨ p.lfbyte + 1 = (p.lfpos + 1) % 4294967296 % LF_BLKSIZ ∧
      F.blocks[(p.lfpos + 1) % 4294967296 / LF_BLKSIZ]? = some p.lfdnum
    rw [hnext, hbyte]
    exact next_byte hnum

/-- **A byte of the file is read** without touching anything else. -/
theorem FileOk.getc (h : FileOk A v p F file ifree dfree) (hused : p.lfstate = .LF_USED)
    (htight : F.Tight file.length) (hpos : p.lfpos < file.length) :
    ∃ v' p', setupIfOutside v p = some (v', p') ∧ file[p.lfpos]? = some (p'.lfdblock p'.lfbyte) ∧
      FileOk A v' { p' with lfbyte := p'.lfbyte + 1, lfpos := (p'.lfpos + 1) % 4294967296 } F file
        ifree dfree ∧ FileFrame A p.lfdirptr F.chain F.blocks v v' ∧ p.Same p' ∧
        (v.Saved → v'.Saved) := by
  have hin := htight.inside hpos
  rcases setupIfOutside_spec h hused with ⟨-, ⟨hfull, -⟩ | ⟨hfull, -⟩⟩ |
    ⟨v', p', F', ifree', dfree', hsome, hok, hframe, hsame, hgrown, hbyte, hnum, hsaved⟩
  · exact absurd hin.1 (not_lt.mpr hfull)
  · exact absurd hin.2 (not_lt.mpr hfull)
  · obtain ⟨rfl, rfl, rfl⟩ := hgrown.eq_of_inside hin
    rw [← hsame.lfpos] at hpos hbyte hnum
    obtain ⟨hget, hnext⟩ := hok.next hpos hbyte hnum
    rw [hsame.lfpos] at hget
    exact ⟨v', p', hsome, hget, hnext, hframe, hsame, hsaved⟩

/-! ## 4. Writing a byte

Two cases: within the file, and at its end, where `lfsetup` may allocate blocks first. -/

/-- The control block behind a byte that was written. -/
def Lflcblk.written (p : Lflcblk) (ch : UInt8) : Lflcblk :=
  { p with
    lfdblock := Function.update p.lfdblock p.lfbyte ch, lfbyte := p.lfbyte + 1
    lfpos := (p.lfpos + 1) % 4294967296, lfdbdirty := true }

theorem growIfAppending_frame {C B : List Int} :
    FileFrame A p.lfdirptr C B v (growIfAppending v p) := by
  rw [growIfAppending]
  dsimp only
  split_ifs
  · exact ⟨rfl, fun _ _ _ => rfl, fun _ _ _ => rfl, fun _ _ => rfl, rfl, rfl,
      fun _ he => Lfdata.entry_setEntry_of_ne he,
      (congrArg Ldentry.ld_name (v.entry_setEntry p.lfdirptr _)).trans rfl⟩
  · exact .refl v

/-- **`lflputc`** behind the setup. -/
theorem FileOk.written (h : FileOk A v p F file ifree dfree)
    (hbyte : p.lfbyte = p.lfpos % LF_BLKSIZ)
    (hnum : F.blocks[p.lfpos / LF_BLKSIZ]? = some p.lfdnum) (ch : UInt8) :
    FileOk A (growIfAppending v p) (p.written ch) F (write file p.lfpos ch) ifree dfree := by
  have hpos := h.cached.pos
  have hmax := h.length_lt
  have hnext : (p.lfpos + 1) % 4294967296 = p.lfpos + 1 := Nat.mod_eq_of_lt (by omega)
  have hlen := length_write (x := ch) hpos
  have hframe := growIfAppending_frame (A := A) (p := p) (v := v) (C := []) (B := [])
  have hdisk : (growIfAppending v p).lf_dskdev = v.lf_dskdev := by
    rw [growIfAppending]
    split_ifs <;> rfl
  have hblock := h.dblock hnum
  -- the entry of the directory
  have hentry : (growIfAppending v p).entry p.lfdirptr =
      { v.entry p.lfdirptr with ld_size := (write file p.lfpos ch).length } := by
    rw [growIfAppending, h.size, hlen]
    dsimp only
    split_ifs with hend
    · have hmod : (file.length + 1) % 4294967296 = file.length + 1 := Nat.mod_eq_of_lt (by omega)
      have hmax' : max file.length (p.lfpos + 1) = file.length + 1 := by omega
      rw [hmax', hmod]
      exact v.entry_setEntry p.lfdirptr _
    · have hmax' : max file.length (p.lfpos + 1) = file.length := by omega
      rw [hmax', ← h.size]
  have hdir : (growIfAppending v p).lf_dir.Fits ∧
      (growIfAppending v p).lf_dir.lfd_ifree = v.lf_dir.lfd_ifree ∧
      (growIfAppending v p).lf_dir.lfd_dfree = v.lf_dir.lfd_dfree := by
    rw [growIfAppending]
    dsimp only
    split_ifs
    · exact ⟨h.dir.setEntry ⟨Nat.mod_lt _ (by decide), (h.dir.files _).2⟩, rfl, rfl⟩
    · exact ⟨h.dir, rfl, rfl⟩
  -- the block that is written, and the others
  have hview : ∀ c, c ≠ p.lfdnum → (p.written ch).dbView v.lf_dskdev c =
    p.dbView v.lf_dskdev c := by
    intro c hc
    rw [Lflcblk.dbView, Lflcblk.dbView, if_neg fun hx => hc hx.2.symm, if_neg fun hx =>
      hc hx.2.symm]
  have hself : (p.written ch).dbView v.lf_dskdev p.lfdnum =
      Function.update p.lfdblock (p.lfpos % LF_BLKSIZ) ch := by
    rw [← hbyte]
    exact if_pos ⟨rfl, rfl⟩
  have hrest : ∀ q < file.length, q / LF_BLKSIZ = p.lfpos / LF_BLKSIZ → q ≠ p.lfpos →
      file[q]? = some (Function.update p.lfdblock (p.lfpos % LF_BLKSIZ) ch (q % LF_BLKSIZ)) := by
    intro q hq hdiv hne
    rw [Function.update_of_ne, hblock q hq hdiv]
    intro hmod
    exact hne (by rw [← Nat.div_add_mod q LF_BLKSIZ, hdiv, hmod, Nat.div_add_mod])
  refine ⟨h.good.congr hframe.bad, hdir.1, h.own, ⟨?_, ?_⟩, ?_, ?_, ?_⟩
  · rw [hdisk, hdir.2.1]
    exact h.free.iwalk
  · rw [hdisk, hdir.2.2]
    exact h.free.dwalk
  · show ((growIfAppending v p).entry p.lfdirptr).ld_size = _
    rw [hentry]
  · show ((growIfAppending v p).entry p.lfdirptr).ld_ilist = _
    rw [hentry]
    exact h.ilist
  rw [hdisk]
  refine ⟨h.cached.index, ?_, h.cached.icopy, .inr ⟨_, hnum, fun q hq hdiv => ?_⟩, ?_, ?_⟩
  · refine h.cached.holds.write (b := p.lfdnum) (by decide) hpos hnum h.own.blocks_nodup ?_ ?_
      fun c _ hc => hview c hc
    · rw [hself, Function.update_self]
    · rw [hself]
      exact hrest
  · show (write file p.lfpos ch)[q]? =
      some (Function.update p.lfdblock p.lfbyte ch (q % LF_BLKSIZ))
    rw [getElem?_write hpos, hbyte]
    split_ifs with hq'
    · rw [hq', Function.update_self]
    · rw [hlen] at hq
      exact hrest q (by omega) hdiv hq'
  · show (p.lfpos + 1) % 4294967296 ≤ (write file p.lfpos ch).length
    rw [hnext, hlen]
    exact le_max_right _ _
  · show p.lfbyte + 1 = LF_BLKSIZ ∨ p.lfbyte + 1 = (p.lfpos + 1) % 4294967296 % LF_BLKSIZ ∧
      F.blocks[(p.lfpos + 1) % 4294967296 / LF_BLKSIZ]? = some p.lfdnum
    rw [hnext, hbyte]
    exact next_byte hnum

/-- **A byte of the file is written**, unless the file has to grow and the disk is full. -/
theorem FileOk.putc (h : FileOk A v p F file ifree dfree) (hused : p.lfstate = .LF_USED)
    (htight : F.Tight file.length) (ch : UInt8) :
    setupIfOutside v p = none ∧ p.lfpos = file.length ∧
      (F.chain.length < niblocks (file.length + 1) ∧ ifree = [] ∨
        F.blocks.length < nblocks (file.length + 1) ∧ dfree = []) ∨
    ∃ v' p' F' ifree' dfree', setupIfOutside v p = some (v', p') ∧
      FileOk A (growIfAppending v' p') (p'.written ch) F' (write file p.lfpos ch) ifree' dfree' ∧
      FileFrame A p.lfdirptr F'.chain F'.blocks v (growIfAppending v' p') ∧ p.Same p' ∧
      Grown p.lfpos F ifree dfree F' ifree' dfree' ∧ F'.Tight (write file p.lfpos ch).length ∧
      (v.Saved → (growIfAppending v' p').Saved) := by
  have hpos := h.cached.pos
  rcases setupIfOutside_spec h hused with ⟨hnone, hfull⟩ |
    ⟨v', p', F', ifree', dfree', hsome, hok, hframe, hsame, hgrown, hbyte, hnum, hsaved⟩
  · have hend : p.lfpos = file.length := by
      by_contra hne
      have hlt : p.lfpos < file.length := by omega
      have hin := htight.inside hlt
      rcases hfull with ⟨hfull, -⟩ | ⟨hfull, -⟩
      · exact absurd hin.1 (not_lt.mpr hfull)
      · exact absurd hin.2 (not_lt.mpr hfull)
    refine .inl ⟨hnone, hend, ?_⟩
    rw [hend] at hfull
    refine hfull.imp (fun hx => ⟨?_, hx.2⟩) fun hx => ⟨?_, hx.2⟩
    · have hx : F.chain.length ≤ file.length / 8192 := hx.1
      rw [niblocks]
      omega
    · have hx : F.blocks.length ≤ file.length / 512 := hx.1
      rw [nblocks]
      omega
  · have hgrow := growIfAppending_frame (A := A) (p := p') (v := v') (C := F'.chain)
      (B := F'.blocks)
    rw [hsame.lfdirptr] at hgrow
    have htight' : F'.Tight (write file p.lfpos ch).length := by
      rw [length_write hpos]
      rcases Nat.lt_or_ge p.lfpos file.length with hlt | hge
      · obtain ⟨rfl, -, -⟩ := hgrown.eq_of_inside (htight.inside hlt)
        rw [Nat.max_eq_left hlt]
        exact htight
      · have hend : p.lfpos = file.length := le_antisymm hpos hge
        rw [hend] at hgrown hnum ⊢
        rw [Nat.max_eq_right (Nat.le_succ _)]
        exact hgrown.tight_of_end htight hok.own hnum
    rw [← hsame.lfpos] at hbyte hnum
    have hput := hok.written hbyte hnum ch
    rw [hsame.lfpos] at hput
    refine .inr ⟨v', p', F', ifree', dfree', hsome, hput, hframe.trans hgrow, hsame, hgrown,
      htight', fun hs => ?_⟩
    rw [growIfAppending]
    dsimp only
    split_ifs
    · exact .inl rfl
    · exact hsaved hs

/-! ## 5. Seeking and closing

Neither changes what the file holds; closing writes the dirty copies. -/

/-- **`lflseek`** moves the file position. -/
theorem FileOk.seek (h : FileOk A v p F file ifree dfree) (hpos : pos ≤ file.length) :
    FileOk A v { p with lfpos := pos, lfbyte := LF_BLKSIZ } F file ifree dfree :=
  ⟨h.good, h.dir, h.own, h.free, h.size, h.ilist, h.cached.index, h.cached.holds, h.cached.icopy,
    h.cached.dcopy, hpos, .inl rfl⟩

/-- What `lflclose` does before the control block is freed. -/
def flushIfDirty (v : Lfdata) (p : Lflcblk) : Lfdata × Lflcblk :=
  if v.lf_dirdirty ∨ p.lfdbdirty ∨ p.lfibdirty then (lfflush v p).2 else (v, p)

/-- **`lflclose`** leaves the whole file on the disk. -/
theorem FileOk.close (h : FileOk A v p F file ifree dfree) (hused : p.lfstate = .LF_USED)
    (hs : v.Saved) : FileOk A (flushIfDirty v p).1 (flushIfDirty v p).2 F file ifree dfree ∧
      FileStored (flushIfDirty v p).1.lf_dskdev F file ∧
      FileFrame A p.lfdirptr F.chain F.blocks v (flushIfDirty v p).1 ∧ p.Same (flushIfDirty v p).2 ∧
      (flushIfDirty v p).1.Saved ∧ (flushIfDirty v p).1.lf_dirdirty = false := by
  rw [flushIfDirty]
  split_ifs with hdirty
  · obtain ⟨h1, h2, h3⟩ := h.lfflush hused
    obtain ⟨h4, h5⟩ := h.lfflush_saved hused hs
    have hclean : (Xinu.lfflush v p).2.2.lfibdirty = false ∧ (Xinu.lfflush v p).2.2.lfdbdirty =
      false := by
      rw [h3]
      exact ⟨rfl, rfl⟩
    have hsame : p.Same (Xinu.lfflush v p).2.2 := by
      rw [h3]
      exact ⟨rfl, rfl, rfl, rfl, rfl, rfl⟩
    exact ⟨h1, h1.cached.stored hclean.1 hclean.2, h2, hsame, h4, h5⟩
  · simp only [not_or, Bool.not_eq_true] at hdirty
    exact ⟨h, h.cached.stored hdirty.2.2 hdirty.2.1, .refl v, .refl p, hs, hdirty.1⟩

end Xinu
