/-
# The invariant of the local file system

What holds of the disk, the directory in memory and the control blocks together (`LfsInv`).  A
`Census` says for every entry of the directory which file it is, which blocks it has and what its
bytes are, and which blocks are free.

An operation works on one open file.  Its part of the invariant is `FileOk` (`LfsInv.fileOk`), and
what it leaves there, with a frame for the rest, is the invariant again (`LfsInv.put`).
-/
import Xinu.LfsFiles
import Xinu.LfsTruncate
import Xinu.Lib.Shares

namespace Xinu

open Layouts Chains BlockedArray Shares

/-! ## 1. The census

What the tables and the disk do not say in one place.  The invariant relates all of them to it. -/

/-- The files by their entries, and the free blocks. -/
structure Census where
  map : Fin LF_NUM_DIR_ENT → FileMap
  file : Fin LF_NUM_DIR_ENT → List UInt8
  name : Fin LF_NUM_DIR_ENT → Str
  ifree : List Int
  dfree : List Int

/-- Another file for an entry. -/
def Census.set (c : Census) (e : Fin LF_NUM_DIR_ENT) (F : FileMap) (file : List UInt8)
    (ifree dfree : List Int) : Census where
  map := Function.update c.map e F
  file := Function.update c.file e file
  name := c.name
  ifree := ifree
  dfree := dfree

/-- All index blocks. -/
def Area.istock (A : Area) : List Int := (List.range A.iblocks).map fun i : Nat => (i : Int)

/-- All data blocks. -/
def Area.dstock (A : Area) : List Int :=
  (List.range' A.first (A.total - A.first)).map fun i : Nat => (i : Int)

/-- A pseudo-device with an open file. -/
abbrev Lfs.Used (s : Lfs) (d : Fin Nlfl) : Prop := (s.lfltab d).lfstate = .LF_USED

/-- The entry of the file on a pseudo-device. -/
abbrev Lfs.entryOf (s : Lfs) (d : Fin Nlfl) : Fin LF_NUM_DIR_ENT := (s.lfltab d).lfdirptr

/-- The entry is that of a file. -/
def Lfdata.Born (v : Lfdata) (e : Fin LF_NUM_DIR_ENT) : Prop := (e : Int) < v.lf_dir.lfd_nfiles

/-- **The invariant**, with the directory in memory. -/
structure LfsInv (A : Area) (s : Lfs) (c : Census) : Prop where
  present : s.Lf_data.lf_dirpresent = true
  good : A.Good s.Lf_data.lf_dskdev
  dir : s.Lf_data.lf_dir.Fits
  accepted : lfscheck s.Lf_data.lf_dir = OK
  /-- Every block belongs to one file or is free. -/
  ishare : Shared (fun e => (c.map e).chain) c.ifree A.istock
  dshare : Shared (fun e => (c.map e).blocks) c.dfree A.dstock
  tight : ∀ e, (c.map e).Tight (c.file e).length
  free : FreeLists s.Lf_data c.ifree c.dfree
  size : ∀ e, s.Lf_data.Born e → (s.Lf_data.entry e).ld_size = (c.file e).length
  ilist : ∀ e, s.Lf_data.Born e → (s.Lf_data.entry e).ld_ilist = (c.map e).chain.headD LF_INULL
  named : ∀ e, s.Lf_data.Born e →
    sameName (c.name e).1 (chars (s.Lf_data.entry e).ld_name)
  distinct : ∀ e e', s.Lf_data.Born e → s.Lf_data.Born e' → c.name e = c.name e' → e = e'
  unborn : ∀ e, ¬ s.Lf_data.Born e → c.file e = []
  opened : ∀ d, s.Used d → Cached s.Lf_data.lf_dskdev (s.lfltab d) (c.map (s.entryOf d))
    (c.file (s.entryOf d))
  closed : ∀ e, (∀ d, s.Used d → s.entryOf d ≠ e) →
    FileStored s.Lf_data.lf_dskdev (c.map e) (c.file e)
  inside : ∀ d, s.Used d → s.Lf_data.Born (s.entryOf d)
  lfname : ∀ d, s.Used d → sameName (c.name (s.entryOf d)).1 (chars (s.lfltab d).lfname)
  apart : ∀ d d', s.Used d → s.Used d' → s.entryOf d = s.entryOf d' → d = d'
  saved : s.Lf_data.Saved
  rest : ∀ b : Int, ¬ (0 ≤ b ∧ b < A.total) → s.Lf_data.lf_dskdev.sector b = A.rest b
  dirty : s.Lf_data.lf_dirdirty = true → ∃ d, s.Used d

/-! ## 2. One file of it

The part of the invariant that an operation on an open file needs, and why other files are not
concerned. -/

section Parts

variable {A : Area} {s : Lfs} {c : Census} {d : Fin Nlfl} {e e' : Fin LF_NUM_DIR_ENT} {i b : Int}

theorem Area.mem_istock : i ∈ A.istock ↔ A.Iblock i := by
  simp only [Area.istock, Area.Iblock, List.mem_map, List.mem_range]
  constructor
  · rintro ⟨n, hn, rfl⟩
    omega
  · rintro ⟨h0, h1⟩
    exact ⟨i.toNat, by omega, by omega⟩

theorem Area.mem_dstock : b ∈ A.dstock ↔ A.Dblock b := by
  have hin := A.inside
  simp only [Area.dstock, Area.Dblock, List.mem_map, List.mem_range'_1]
  constructor
  · rintro ⟨n, hn, rfl⟩
    omega
  · rintro ⟨h0, h1⟩
    exact ⟨b.toNat, by omega, by omega⟩

theorem Area.istock_nodup : (A.istock : Multiset Int).Nodup :=
  Multiset.coe_nodup.mpr (List.nodup_range.map fun _ _ h => Int.ofNat.inj h)

theorem Area.dstock_nodup : (A.dstock : Multiset Int).Nodup :=
  Multiset.coe_nodup.mpr (List.Nodup.map (fun _ _ h => Int.ofNat.inj h) List.nodup_range')

/-- The blocks of one file and the free blocks. -/
theorem LfsInv.own (h : LfsInv A s c) (e : Fin LF_NUM_DIR_ENT) :
    (c.map e).Own A c.ifree c.dfree where
  iblock i hi := Area.mem_istock.mp (h.ishare.mem (i := e) hi)
  inodup := h.ishare.nodup Area.istock_nodup e
  dblock b hb := Area.mem_dstock.mp (h.dshare.mem (i := e) hb)
  dnodup := h.dshare.nodup Area.dstock_nodup e
  room := by
    rw [(h.tight e).1, (h.tight e).2]
    show ((c.file e).length + 511) / 512 ≤ 16 * (((c.file e).length + 8191) / 8192)
    omega
  filled := by
    rw [(h.tight e).1, (h.tight e).2]
    show 16 * (((c.file e).length + 8191) / 8192 - 1) ≤ ((c.file e).length + 511) / 512
    omega

/-- Another file has other blocks. -/
theorem LfsInv.not_chain (h : LfsInv A s c) (he : e' ≠ e) (hi : i ∈ (c.map e').chain) :
    i ∉ (c.map e).chain ++ c.ifree :=
  h.ishare.disjoint Area.istock_nodup he.symm hi

/-- No data block of another file is one of this file, or free. -/
theorem LfsInv.not_blocks (h : LfsInv A s c) (he : e' ≠ e) (hb : b ∈ (c.map e').blocks) :
    b ∉ (c.map e).blocks ++ c.dfree :=
  h.dshare.disjoint Area.dstock_nodup he.symm hb

/-- **The part of an open file.** -/
theorem LfsInv.fileOk (h : LfsInv A s c) (hd : s.Used d) :
    FileOk A s.Lf_data (s.lfltab d) (c.map (s.entryOf d)) (c.file (s.entryOf d))
    c.ifree c.dfree where
  good := h.good
  dir := h.dir
  own := h.own _
  free := h.free
  size := h.size _ (h.inside d hd)
  ilist := h.ilist _ (h.inside d hd)
  cached := h.opened d hd

end Parts

/-! ## 3. What an operation on one file leaves

The way back, from what is known of one file and a frame to the invariant. -/

section Put

variable {A : Area} {s : Lfs} {c : Census} {d d' : Fin Nlfl} {e e' : Fin LF_NUM_DIR_ENT}
  {v v' : Lfdata} {p' : Lflcblk} {F' : FileMap} {file' : List UInt8} {ifree' dfree' C B : List Int}

/-- An operation on one file makes none, -/
theorem FileFrame.nfiles (h : FileFrame A e C B v v') : v'.lf_dir.lfd_nfiles =
    v.lf_dir.lfd_nfiles :=
  (congrArg Lfdir.lfd_nfiles h.header :)

/-- so the same entries are files, -/
theorem FileFrame.born (h : FileFrame A e C B v v') : v'.Born e' ↔ v.Born e' := by
  rw [Lfdata.Born, Lfdata.Born, h.nfiles]

/-- the file system still has its identification, -/
theorem FileFrame.accepted (h : FileFrame A e C B v v') : lfscheck v'.lf_dir =
    lfscheck v.lf_dir := by
  rw [← h.header]
  rfl

/-- and every file keeps its name. -/
theorem FileFrame.ld_name (h : FileFrame A e C B v v') :
    (v'.entry e').ld_name = (v.entry e').ld_name := by
  by_cases he : e' = e
  · rw [he, h.name]
  · rw [h.entries e' he]

@[simp] theorem Lfs.put_self : (s.put v d p').lfltab d = p' := Function.update_self ..

theorem Lfs.put_of_ne (h : d' ≠ d) : (s.put v d p').lfltab d' = s.lfltab d' :=
  Function.update_of_ne h ..

theorem Lfs.used_put_self : (s.put v d p').Used d ↔ p'.lfstate = .LF_USED := by
  rw [Lfs.Used, Lfs.put_self]

theorem Lfs.entryOf_put_self : (s.put v d p').entryOf d = p'.lfdirptr := by
  rw [Lfs.entryOf, Lfs.put_self]

@[simp] theorem Census.map_set {c : Census} : (c.set e F' file' ifree' dfree').map e = F' :=
  Function.update_self ..

@[simp] theorem Census.file_set {c : Census} : (c.set e F' file' ifree' dfree').file e = file' :=
  Function.update_self ..

theorem Census.map_set_of_ne {c : Census} (h : e' ≠ e) :
    (c.set e F' file' ifree' dfree').map e' = c.map e' := Function.update_of_ne h ..

theorem Census.file_set_of_ne {c : Census} (h : e' ≠ e) :
    (c.set e F' file' ifree' dfree').file e' = c.file e' := Function.update_of_ne h ..

/-- **An operation on an open file keeps the invariant.** -/
theorem LfsInv.put (h : LfsInv A s c) (hd : s.Used d)
    (hok : FileOk A v' p' F' file' ifree' dfree') (htight : F'.Tight file'.length)
    (hstate : p'.lfstate = .LF_USED) (hptr : p'.lfdirptr = s.entryOf d)
    (hname : p'.lfname = (s.lfltab d).lfname)
    (hframe : FileFrame A (s.entryOf d) C B s.Lf_data v')
    (hC : C ⊆ (c.map (s.entryOf d)).chain ++ c.ifree)
    (hB : B ⊆ (c.map (s.entryOf d)).blocks ++ c.dfree)
    (hi : (F'.chain ++ ifree').Perm ((c.map (s.entryOf d)).chain ++ c.ifree))
    (hb : (F'.blocks ++ dfree').Perm ((c.map (s.entryOf d)).blocks ++ c.dfree))
    (hs : v'.Saved) :
    LfsInv A (s.put v' d p') (c.set (s.entryOf d) F' file' ifree' dfree') := by
  -- the other files are where they were
  have hindex : ∀ e ≠ s.entryOf d, ∀ i ∈ (c.map e).chain,
      lfibget v'.lf_dskdev i = lfibget s.Lf_data.lf_dskdev i := fun e he i hi' =>
    hframe.index i ((h.own e).chain_iblock hi') fun hc => h.not_chain he hi' (hC hc)
  have hdata : ∀ e ≠ s.entryOf d, ∀ b ∈ (c.map e).blocks,
      v'.lf_dskdev.sector b = s.Lf_data.lf_dskdev.sector b := fun e he b hb' =>
    hframe.data b ((h.own e).blocks_dblock hb') fun hc => h.not_blocks he hb' (hB hc)
  have hused : ∀ d', (s.put v' d p').Used d' ↔ s.Used d' := fun d' => by
    by_cases hd' : d' = d
    · rw [hd', Lfs.Used, Lfs.put_self, hstate]
      exact ⟨fun _ => hd, fun _ => rfl⟩
    · rw [Lfs.Used, Lfs.put_of_ne hd']
  have hentry : ∀ d', (s.put v' d p').entryOf d' = s.entryOf d' := fun d' => by
    by_cases hd' : d' = d
    · rw [hd', Lfs.entryOf, Lfs.put_self, hptr]
    · rw [Lfs.entryOf, Lfs.put_of_ne hd']
  have hother : ∀ d', s.Used d' → d' ≠ d → s.entryOf d' ≠ s.entryOf d := fun d' hd' hne he =>
    hne (h.apart d' d hd' hd he)
  refine ⟨hframe.present.trans h.present, hok.good, hok.dir, hframe.accepted.trans h.accepted, ?_,
    ?_,
    fun e => ?_, hok.free, fun e he => ?_, fun e he => ?_, fun e he => ?_, fun e e' he he' => ?_,
    fun e he => ?_, fun d' hd' => ?_, fun e he => ?_, fun d' hd' => ?_, fun d' hd' => ?_,
    fun d₁ d₂ h₁ h₂ heq => ?_, hs, fun b hb => (hframe.outside b hb).trans (h.rest b hb),
    fun _ => ⟨d, (hused d).mpr hd⟩⟩
  · have hfun : (fun e => ((c.set (s.entryOf d) F' file' ifree' dfree').map e).chain) =
        Function.update (fun e => (c.map e).chain) (s.entryOf d) F'.chain :=
      Function.comp_update FileMap.chain c.map (s.entryOf d) F'
    rw [hfun]
    exact h.ishare.update hi
  · have hfun : (fun e => ((c.set (s.entryOf d) F' file' ifree' dfree').map e).blocks) =
        Function.update (fun e => (c.map e).blocks) (s.entryOf d) F'.blocks :=
      Function.comp_update FileMap.blocks c.map (s.entryOf d) F'
    rw [hfun]
    exact h.dshare.update hb
  · by_cases he : e = s.entryOf d
    · rw [he, Census.map_set, Census.file_set]
      exact htight
    · rw [Census.map_set_of_ne he, Census.file_set_of_ne he]
      exact h.tight e
  · by_cases he' : e = s.entryOf d
    · rw [he', Census.file_set, ← hptr]
      exact hok.size
    · rw [Census.file_set_of_ne he']
      exact (congrArg Ldentry.ld_size (hframe.entries e he')).trans (h.size e (hframe.born.mp he))
  · by_cases he' : e = s.entryOf d
    · rw [he', Census.map_set, ← hptr]
      exact hok.ilist
    · rw [Census.map_set_of_ne he']
      exact (congrArg Ldentry.ld_ilist (hframe.entries e he')).trans (h.ilist e (hframe.born.mp he))
  · show sameName (c.name e).1 (chars (v'.entry e).ld_name) = true
    rw [hframe.ld_name]
    exact h.named e (hframe.born.mp he)
  · exact h.distinct e e' (hframe.born.mp he) (hframe.born.mp he')
  · have he' : e ≠ s.entryOf d := by
      rintro rfl
      exact he (hframe.born.mpr (h.inside d hd))
    rw [Census.file_set_of_ne he']
    exact h.unborn e fun hborn => he (hframe.born.mpr hborn)
  · rw [hentry]
    by_cases hdd : d' = d
    · rw [hdd, Lfs.put_self, Census.map_set, Census.file_set]
      exact hok.cached
    · have hd' := (hused d').mp hd'
      have hne := hother d' hd' hdd
      rw [Lfs.put_of_ne hdd, Census.map_set_of_ne hne, Census.file_set_of_ne hne]
      exact (h.opened d' hd').congr (hindex _ hne) (hdata _ hne)
  · have hne : e ≠ s.entryOf d := fun heq =>
      he d ((hused d).mpr hd) ((hentry d).trans heq.symm)
    rw [Census.map_set_of_ne hne, Census.file_set_of_ne hne]
    refine (h.closed e fun d' hd' => ?_).congr (hindex _ hne) (hdata _ hne)
    rw [← hentry d']
    exact he d' ((hused d').mpr hd')
  · rw [hentry]
    exact hframe.born.mpr (h.inside d' ((hused d').mp hd'))
  · rw [hentry]
    have hfield : ((s.put v' d p').lfltab d').lfname = (s.lfltab d').lfname := by
      by_cases hdd : d' = d
      · rw [hdd, Lfs.put_self, hname]
      · rw [Lfs.put_of_ne hdd]
    rw [hfield]
    exact h.lfname d' ((hused d').mp hd')
  · rw [hentry, hentry] at heq
    exact h.apart d₁ d₂ ((hused d₁).mp h₁) ((hused d₂).mp h₂) heq

/-- **A file that is on the disk can be closed.** -/
theorem LfsInv.release (h : LfsInv A s c) (hd : s.Used d)
    (hstored : FileStored s.Lf_data.lf_dskdev (c.map (s.entryOf d)) (c.file (s.entryOf d)))
    (hclean : s.Lf_data.lf_dirdirty = false) :
    LfsInv A (s.put s.Lf_data d { s.lfltab d with lfstate := .LF_FREE }) c := by
  have hfree : ¬ (s.put s.Lf_data d { s.lfltab d with lfstate := .LF_FREE }).Used d := by
    rw [Lfs.Used, Lfs.put_self]
    simp
  have hold : ∀ d', (s.put s.Lf_data d { s.lfltab d with lfstate := .LF_FREE }).Used d' →
      (s.put s.Lf_data d { s.lfltab d with lfstate := .LF_FREE }).lfltab d' = s.lfltab d' :=
    fun d' hd' => Lfs.put_of_ne fun heq => hfree (heq ▸ hd')
  have hused : ∀ d', (s.put s.Lf_data d { s.lfltab d with lfstate := .LF_FREE }).Used d' →
      s.Used d' := fun d' hd' => by
    have hd'' := hd'
    rw [Lfs.Used, hold d' hd'] at hd''
    exact hd''
  have hentry : ∀ d', (s.put s.Lf_data d { s.lfltab d with lfstate := .LF_FREE }).Used d' →
      (s.put s.Lf_data d { s.lfltab d with lfstate := .LF_FREE }).entryOf d' = s.entryOf d' :=
    fun d' hd' => congrArg Lflcblk.lfdirptr (hold d' hd')
  refine ⟨h.present, h.good, h.dir, h.accepted, h.ishare, h.dshare, h.tight, h.free, h.size,
    h.ilist, h.named, h.distinct, h.unborn, fun d' hd' => ?_, fun e he => ?_, fun d' hd' => ?_,
    fun d' hd' => ?_, fun d₁ d₂ h₁ h₂ heq => ?_, h.saved, h.rest, fun hdirty => ?_⟩
  · rw [hentry d' hd', hold d' hd']
    exact h.opened d' (hused d' hd')
  · by_cases hed : e = s.entryOf d
    · rw [hed]
      exact hstored
    · refine h.closed e fun d' hd' heq => ?_
      have hne : d' ≠ d := by
        rintro rfl
        exact hed heq.symm
      have hd'' : (s.put s.Lf_data d { s.lfltab d with lfstate := .LF_FREE }).Used d' := by
        rw [Lfs.Used, Lfs.put_of_ne hne]
        exact hd'
      exact he d' hd'' ((hentry d' hd'').trans heq)
  · rw [hentry d' hd']
    exact h.inside d' (hused d' hd')
  · rw [hentry d' hd', hold d' hd']
    exact h.lfname d' (hused d' hd')
  · rw [hentry d₁ h₁, hentry d₂ h₂] at heq
    exact h.apart d₁ d₂ (hused d₁ h₁) (hused d₂ h₂) heq
  · cases hclean.symm.trans hdirty

end Put

end Xinu
