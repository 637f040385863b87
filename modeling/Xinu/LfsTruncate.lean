/-
# Truncating a file: `lftruncate.c`, `lfdbfree.c`

`lftruncate` gives every block of a file back: the data blocks one by one, the last one in front,
and the index blocks as the chain they are.  The walk along the chain ends, because it stops at
the head of the list of free index blocks and the last index block is linked to it
(`lftruncateWalk_spec`).  The file is empty afterwards and nothing else has changed
(`lftruncate_spec`).
-/
import Xinu.LfsSetup

namespace Xinu

open Layouts Chains BlockedArray

/-! ## 1. A loop over the entries of an array -/

/-- What every round of a loop over the entries `0` to `n - 1` advances by one. -/
theorem foldl_finRange {σ : Type*} (P : Nat → σ → Prop) : ∀ {n : Nat} {f : σ → Fin n → σ} {s : σ},
    P 0 s → (∀ (i : Fin n) (s : σ), P i s → P (i + 1) (f s i)) →
    P n ((List.finRange n).foldl f s)
  | 0, _, _, h0, _ => h0
  | n + 1, f, s, h0, hstep => by
    rw [List.finRange_succ_last, List.foldl_append, List.foldl_map, List.foldl_cons, List.foldl_nil]
    exact hstep (Fin.last n) _ (foldl_finRange (f := fun s i => f s i.castSucc) P h0
      fun i s hi => hstep i.castSucc s hi)

/-! ## 2. While a file is truncated

`Freeing` counts what has been given back already: so many index blocks and, of the next one, so
many data blocks. -/

/-- The numbers of blocks are small. -/
theorem Area.Iblock.signed {A : Area} {i : Int} (hi : A.Iblock i) :
    0 ≤ i ∧ i < 2147483648 := by
  have h1 := hi.1
  have h2 := hi.2
  have h3 := A.behind
  have h4 := A.inside
  have h5 := A.small
  omega

theorem Area.Dblock.signed {A : Area} {b : Int} (hb : A.Dblock b) : 0 ≤ b ∧ b < 2147483648 := by
  have h1 := hb.1
  have h2 := hb.2
  have h3 := A.small
  omega

/-- The state while the file of the entry `e` is truncated: `n` index blocks and `m` data blocks
are given back.  `v₀` is the state before the loop. -/
structure Freeing (A : Area) (F : FileMap) (e : Fin LF_NUM_DIR_ENT) (ifree dfree : List Int)
    (v₀ v : Lfdata) (n m : Nat) : Prop where
  good : A.Good v.lf_dskdev
  dir : v.lf_dir.Fits
  done : Walk (fun i => (lfibget v.lf_dskdev i).ib_next) (F.chain.headD v₀.lf_dir.lfd_ifree)
    (F.chain.take n) (F.chain.getD n v₀.lf_dir.lfd_ifree)
  rest : ∀ k i, n ≤ k → F.chain[k]? = some i → lfibget v.lf_dskdev i = F.index k
  iwalk : Walk (fun i => (lfibget v.lf_dskdev i).ib_next) v₀.lf_dir.lfd_ifree ifree LF_INULL
  dwalk : Walk v.lf_dskdev.nextdb v.lf_dir.lfd_dfree ((F.blocks.take m).reverse ++ dfree) LF_DNULL
  frame : FileFrame A e F.chain F.blocks v₀ v
  files : v.lf_dir.lfd_files = v₀.lf_dir.lfd_files
  dirty : v.lf_dirdirty = v₀.lf_dirdirty

variable {A : Area} {F : FileMap} {e : Fin LF_NUM_DIR_ENT} {ifree dfree : List Int}
  {v₀ v : Lfdata} {n m : Nat} {b c : Int}

/-- **One data block is given back.** -/
theorem Freeing.dbfree (h : Freeing A F e ifree dfree v₀ v n m) (hown : F.Own A ifree dfree)
    (hb : F.blocks[m]? = some b) : Freeing A F e ifree dfree v₀ (lfdbfree v b) n (m + 1) := by
  have hmem : b ∈ F.blocks := List.mem_of_getElem? hb
  have hblock := hown.blocks_dblock hmem
  -- the state before the directory is written
  let w : Lfdata := { v with
    lf_dir.lfd_dfree := b
    lf_dskdev := (v.lf_dskdev.write (setNextdb (fun _ => 0) v.lf_dir.lfd_dfree) b).2 }
  have hdir := writeDir_frame (A := A) (v := w) e [] []
  have hindex : ∀ i, A.Iblock i → lfibget (lfdbfree v b).lf_dskdev i = lfibget v.lf_dskdev i :=
    fun i hi => (hdir.index i hi (by simp)).trans (lfibget_write hblock hi)
  have hdata : ∀ d, A.Dblock d → d ≠ b →
      (lfdbfree v b).lf_dskdev.sector d = v.lf_dskdev.sector d :=
    fun d hd hne => (hdir.data d hd (by simp)).trans (Disk.write_of_ne hne)
  have hchain : ∀ i ∈ F.chain, lfibget (lfdbfree v b).lf_dskdev i = lfibget v.lf_dskdev i :=
    fun i hi => hindex i (hown.chain_iblock hi)
  have hfits : (lfdbfree v b).lf_dir.Fits := by
    obtain ⟨h1, h2⟩ := hblock.signed
    exact ⟨h.dir.fsysid, h.dir.vers, h.dir.allzeros, h.dir.allones, ⟨le_trans (by decide) h1, h2⟩,
      h.dir.ifree, h.dir.nfiles, h.dir.files, h.dir.revid⟩
  refine ⟨h.good.congr (hdir.bad.trans Disk.write_bad), hfits, ?_, fun k i hk hi => ?_, ?_, ?_, ?_,
    h.files, h.dirty⟩
  · exact h.done.congr fun i hi => by rw [hchain i (List.mem_of_mem_take hi)]
  · rw [hchain i (List.mem_of_getElem? hi)]
    exact h.rest k i hk hi
  · exact h.iwalk.congr fun i hi => by rw [hindex i (hown.ifree_iblock hi)]
  · -- the block is in front of those that are free already
    obtain ⟨hm, hbm⟩ := List.getElem?_eq_some_iff.mp hb
    have htake : (F.blocks.take (m + 1)).reverse ++ dfree =
        b :: ((F.blocks.take m).reverse ++ dfree) := by
      rw [List.take_succ_eq_append_getElem hm, hbm, List.reverse_append]
      rfl
    have hnext : (lfdbfree v b).lf_dskdev.nextdb b = v.lf_dir.lfd_dfree := by
      have hsector : (lfdbfree v b).lf_dskdev.sector b = w.lf_dskdev.sector b :=
        hdir.data b hblock (by simp)
      rw [Disk.nextdb, hsector]
      exact nextdb_write hblock h.good h.dir.dfree _
    have hnot : b ∉ (F.blocks.take m).reverse ++ dfree := by
      have hnd := hown.blocks_nodup
      rw [← List.take_append_drop (m + 1) F.blocks, List.take_succ_eq_append_getElem hm, hbm] at hnd
      have hnd := (List.nodup_append.mp (List.nodup_append.mp hnd).1).2.2
      rw [List.mem_append, List.mem_reverse, not_or]
      exact ⟨fun hin => hnd b hin b List.mem_cons_self rfl,
        fun hin => hown.dfree_not_blocks hin hmem⟩
    rw [htake]
    refine ⟨rfl, ?_⟩
    rw [hnext]
    refine h.dwalk.congr fun d hd => ?_
    have hd' : A.Dblock d := by
      rcases List.mem_append.mp hd with hin | hin
      · exact hown.blocks_dblock (List.mem_of_mem_take (List.mem_reverse.mp hin))
      · exact hown.dfree_dblock hin
    rw [Disk.nextdb, Disk.nextdb, hdata d hd' (ne_of_mem_of_not_mem hd hnot)]
  · refine h.frame.trans ⟨hdir.bad.trans Disk.write_bad, fun i hi _ => hindex i hi,
      fun d hd hnot => hdata d hd (ne_of_mem_of_not_mem hmem hnot).symm, fun d hd => ?_, rfl, rfl,
      fun _ _ => rfl, rfl⟩
    refine (hdir.outside d hd).trans (Disk.write_of_ne ?_)
    rintro rfl
    exact hd ⟨by have := hblock.1; omega, hblock.2⟩

/-- No more data blocks to give back. -/
theorem Freeing.past (h : Freeing A F e ifree dfree v₀ v n m) (hm : F.blocks.length ≤ m) :
    Freeing A F e ifree dfree v₀ v n (m + 1) := by
  refine ⟨h.good, h.dir, h.done, h.rest, h.iwalk, ?_, h.frame, h.files, h.dirty⟩
  have hdwalk := h.dwalk
  rw [List.take_of_length_le hm] at hdwalk
  rw [List.take_of_length_le (Nat.le_succ_of_le hm)]
  exact hdwalk

/-- **The data blocks of one index block are given back.** -/
theorem Freeing.data (h : Freeing A F e ifree dfree v₀ v n (LF_IBLEN * n))
    (hown : F.Own A ifree dfree) :
    Freeing A F e ifree dfree v₀ (lftruncateData v (F.index n)) n (LF_IBLEN * (n + 1)) := by
  have hloop : Freeing A F e ifree dfree v₀ (lftruncateData v (F.index n)) n
      (LF_IBLEN * n + LF_IBLEN) := by
    refine foldl_finRange (P := fun j v => Freeing A F e ifree dfree v₀ v n (LF_IBLEN * n + j)) h
      fun j v hj => ?_
    have hdba : (F.index n).ib_dba j = F.blocks.getD (LF_IBLEN * n + j) LF_DNULL := rfl
    rcases Nat.lt_or_ge (LF_IBLEN * n + j) F.blocks.length with hlt | hge
    · have hget : F.blocks[LF_IBLEN * n + j]? = some ((F.index n).ib_dba j) := by
        rw [hdba, List.getD_eq_getElem _ _ hlt, List.getElem?_eq_getElem hlt]
      rw [if_pos (hown.blocks_dblock (List.mem_of_getElem? hget)).ne_null]
      exact hj.dbfree hown hget
    · rw [if_neg (by rw [hdba, List.getD_eq_default _ _ hge]; simp)]
      exact hj.past hge
  exact hloop

/-! ## 3. The walk along the index blocks

By induction on the index blocks that are left. -/

/-- **One index block is given back.** -/
theorem Freeing.iblock (h : Freeing A F e ifree dfree v₀ v n m) (hown : F.Own A ifree dfree)
    (hc : F.chain[n]? = some c) :
    Freeing A F e ifree dfree v₀ { v with
      lf_dskdev := (lfibput v.lf_dskdev c
        { ib_next := F.chain.getD (n + 1) v₀.lf_dir.lfd_ifree
          ib_offset := 0
          ib_dba := fun _ => LF_DNULL }).2 } (n + 1) m := by
  obtain ⟨hn, hcn⟩ := List.getElem?_eq_some_iff.mp hc
  have hmem : c ∈ F.chain := List.mem_of_getElem? hc
  have hic := hown.chain_iblock hmem
  set x : Lfiblk :=
    { ib_next := F.chain.getD (n + 1) v₀.lf_dir.lfd_ifree
      ib_offset := 0
      ib_dba := fun _ => LF_DNULL } with hx
  have hrange : ∀ i, A.Iblock i → -1 ≤ i ∧ i < 2147483648 := fun i hi =>
    ⟨le_trans (by decide) hi.signed.1, hi.signed.2⟩
  have hhead : -1 ≤ v₀.lf_dir.lfd_ifree ∧ v₀.lf_dir.lfd_ifree < 2147483648 := by
    rw [← h.iwalk.head]
    cases hf : ifree with
    | nil => decide
    | cons i is => exact hrange i (hown.ifree_iblock (hf ▸ List.mem_cons_self))
  have hok : Layout.lfiblk.ok x := by
    have hnull : LF_DNULL < 2147483648 := by decide
    refine lfiblk_ok ?_ (by simp [hx]) fun _ => ⟨le_refl _, hnull⟩
    rcases Nat.lt_or_ge (n + 1) F.chain.length with hlt | hge
    · rw [hx]
      dsimp only
      rw [List.getD_eq_getElem _ _ hlt]
      exact hrange _ (hown.chain_iblock (List.getElem_mem hlt))
    · rw [hx]
      dsimp only
      rw [List.getD_eq_default _ _ hge]
      exact hhead
  have hself : lfibget (lfibput v.lf_dskdev c x).2 c = x := lfibget_lfibput hic h.good hok
  have hother : ∀ i, A.Iblock i → i ≠ c →
      lfibget (lfibput v.lf_dskdev c x).2 i = lfibget v.lf_dskdev i :=
    fun i hi hne => lfibget_lfibput_of_ne hic hi h.good hne
  have hdata : ∀ b, A.Dblock b → (lfibput v.lf_dskdev c x).2.sector b = v.lf_dskdev.sector b :=
    fun b hb => lfibput_sector (hb.ne_sect hic).symm
  refine ⟨h.good.congr lfibput_bad, h.dir, ?_, fun k i hk hi => ?_, ?_, ?_, ?_, h.files, h.dirty⟩
  · have hnot : c ∉ F.chain.take n := by
      have hnd := hown.chain_nodup
      rw [← List.take_append_drop (n + 1) F.chain, List.take_succ_eq_append_getElem hn, hcn] at hnd
      exact fun hin => (List.nodup_append.mp (List.nodup_append.mp hnd).1).2.2 c hin c
        List.mem_cons_self rfl
    have hdone := h.done
    rw [List.getD_eq_getElem _ _ hn, hcn] at hdone
    rw [List.take_succ_eq_append_getElem hn, hcn]
    refine walk_append.mpr ⟨c, hdone.congr fun i hi => ?_, rfl, ?_⟩
    · rw [hother i (hown.chain_iblock (List.mem_of_mem_take hi)) (ne_of_mem_of_not_mem hi hnot)]
    · dsimp only
      rw [hself]
      rfl
  · have hne : i ≠ c := by
      rintro rfl
      obtain ⟨hk', hik⟩ := List.getElem?_eq_some_iff.mp hi
      have := (hown.chain_nodup.getElem_inj_iff).mp (hik.trans hcn.symm)
      omega
    rw [← h.rest k i (Nat.le_of_succ_le hk) hi]
    exact hother i (hown.chain_iblock (List.mem_of_getElem? hi)) hne
  · refine h.iwalk.congr fun i hi => ?_
    rw [hother i (hown.ifree_iblock hi) ?_]
    rintro rfl
    exact hown.ifree_not_chain hi hmem
  · refine h.dwalk.congr fun b hb => ?_
    have hb' : A.Dblock b := by
      rcases List.mem_append.mp hb with hin | hin
      · exact hown.blocks_dblock (List.mem_of_mem_take (List.mem_reverse.mp hin))
      · exact hown.dfree_dblock hin
    rw [Disk.nextdb, Disk.nextdb, hdata b hb']
  · refine h.frame.trans ⟨lfibput_bad, fun i hi hnot => hother i hi
      (ne_of_mem_of_not_mem hmem hnot).symm, fun b hb _ => hdata b hb, fun b hb => ?_, rfl, rfl,
      fun _ _ => rfl, rfl⟩
    refine lfibput_sector ?_
    rintro rfl
    have h1 := hic.sect
    have h2 := A.inside
    exact hb ⟨by omega, by omega⟩

/-- **The walk ends** with every block given back. -/
theorem lftruncateWalk_spec {fuel : Nat} (h : Freeing A F e ifree dfree v₀ v n (LF_IBLEN * n))
    (hown : F.Own A ifree dfree) (hn : n ≤ F.chain.length) (hfuel : F.chain.length < n + fuel) :
    ∃ v', lftruncateWalk v₀.lf_dir.lfd_ifree fuel v (F.chain.getD n v₀.lf_dir.lfd_ifree) = some v' ∧
      Freeing A F e ifree dfree v₀ v' F.chain.length (LF_IBLEN * F.chain.length) := by
  induction fuel generalizing v n with
  | zero => omega
  | succ fuel ih =>
    rw [lftruncateWalk]
    rcases Nat.lt_or_ge n F.chain.length with hlt | hge
    · have hc : F.chain[n]? = some F.chain[n] := List.getElem?_eq_getElem hlt
      have hmem : F.chain[n] ∈ F.chain := List.getElem_mem hlt
      have hne : F.chain[n] ≠ v₀.lf_dir.lfd_ifree := by
        rw [← h.iwalk.head]
        cases hf : ifree with
        | nil => exact (hown.chain_iblock hmem).ne_null
        | cons i is =>
          have hi : i ∈ ifree := hf ▸ List.mem_cons_self
          exact ne_of_mem_of_not_mem hmem (hown.ifree_not_chain hi)
      have hblock := h.rest n _ (le_refl n) hc
      rw [List.getD_eq_getElem _ _ hlt, if_neg hne]
      dsimp only
      have hnext : (if (F.index n).ib_next = LF_INULL then v₀.lf_dir.lfd_ifree
          else (F.index n).ib_next) = F.chain.getD (n + 1) v₀.lf_dir.lfd_ifree := by
        have hib : (F.index n).ib_next = F.chain.getD (n + 1) LF_INULL := rfl
        rcases Nat.lt_or_ge (n + 1) F.chain.length with hmore | hlast
        · rw [List.getD_eq_getElem _ _ hmore] at hib ⊢
          rw [hib, if_neg (hown.chain_iblock (List.getElem_mem hmore)).ne_null]
        · rw [List.getD_eq_default _ _ hlast] at hib ⊢
          rw [if_pos hib]
      rw [hblock, hnext]
      exact ih ((h.data hown).iblock hown hc) hlt (by omega)
    · rw [List.getD_eq_default _ _ hge, if_pos rfl]
      obtain rfl : n = F.chain.length := le_antisymm hn hge
      exact ⟨v, rfl, h⟩

/-! ## 4. The whole truncation

The entry of the file is cleared before the walk, and the head of the free list of index blocks is
set after it. -/

variable {p : Lflcblk} {file : List UInt8}

/-- **`lftruncate`** returns, and leaves the file without bytes and without blocks. -/
theorem lftruncate_spec (h : FileOk A v p F file ifree dfree) (hused : p.lfstate = .LF_USED) :
    file = [] ∧ lftruncate v p = some (OK, v, p) ∨
    file ≠ [] ∧ ∃ v' p', lftruncate v p = some (OK, v', p') ∧
      FileOk A v' p' ⟨[], []⟩ [] (F.chain ++ ifree) (F.blocks.reverse ++ dfree) ∧
      FileFrame A p.lfdirptr F.chain F.blocks v v' ∧ p'.lfstate = p.lfstate ∧ p'.lfdev = p.lfdev ∧
      p'.lfdirptr = p.lfdirptr ∧ p'.lfname = p.lfname ∧ p'.lfpos = 0 ∧ v'.lf_dirdirty = true := by
  rw [lftruncate, h.size]
  by_cases hempty : file = []
  · exact .inl ⟨hempty, by rw [hempty]; rfl⟩
  have hlen : 0 < file.length := List.length_pos_iff.mpr hempty
  rw [if_neg hlen.ne']
  -- the dirty copies are written back
  obtain ⟨w, hw, hok, hframe, hsame, hi, hd, -⟩ := h.flushed hused
  have hptr := hsame.lfdirptr
  have hstored := hok.cached.stored hi hd
  have hroom : file.length ≤ 512 * F.blocks.length := hstored.holds.room
  have hroom' : F.blocks.length ≤ 16 * F.chain.length := hok.own.room
  obtain ⟨c, cs, hchain⟩ : ∃ c cs, F.chain = c :: cs := by
    cases hc : F.chain with
    | nil =>
      rw [hc] at hroom'
      simp only [List.length_nil] at hroom'
      omega
    | cons c cs => exact ⟨c, cs, rfl⟩
  have hilist : (w.1.entry p.lfdirptr).ld_ilist = c := by
    rw [← hptr, hok.ilist, hchain]
    rfl
  have hc : A.Iblock c := hok.own.chain_iblock (hchain ▸ List.mem_cons_self)
  -- the entry is cleared before the loop
  set v₁ : Lfdata := { w.1.setEntry p.lfdirptr
    { w.1.entry p.lfdirptr with ld_ilist := LF_INULL, ld_size := 0 } with lf_dirdirty := true }
    with hv₁
  have hnull : -2147483648 ≤ LF_INULL ∧ LF_INULL < 2147483648 := by decide
  have hfits : v₁.lf_dir.Fits := hok.dir.setEntry ⟨Nat.zero_lt_succ _, hnull⟩
  have hframe₁ : FileFrame A p.lfdirptr F.chain F.blocks w.1 v₁ :=
    ⟨rfl, fun _ _ _ => rfl, fun _ _ _ => rfl, fun _ _ => rfl, rfl, rfl,
      fun _ he => Lfdata.entry_setEntry_of_ne he,
      (congrArg Ldentry.ld_name (w.1.entry_setEntry p.lfdirptr _)).trans rfl⟩
  have hstart : Freeing A F p.lfdirptr ifree dfree v₁ v₁ 0 (LF_IBLEN * 0) :=
    ⟨hok.good, hfits, by rw [hchain]; rfl, fun k i _ hk => hstored.index k i hk, hok.free.iwalk,
      hok.free.dwalk, .refl _, rfl, rfl⟩
  have hcount : F.chain.length < 0 + walkLimit := by
    have h1 := hok.own.length_blocks
    have h2 : 16 * (F.chain.length - 1) ≤ F.blocks.length := hok.own.filled
    rw [show walkLimit = 4294967296 from rfl]
    omega
  obtain ⟨v₂, hv₂, hend⟩ := lftruncateWalk_spec hstart hok.own (Nat.zero_le _) hcount
  have hfirst : F.chain.getD 0 v₁.lf_dir.lfd_ifree = c := by rw [hchain]; rfl
  rw [hfirst] at hv₂
  dsimp only
  rw [hw, hilist, hv₂, Option.map_some]
  have hi₂ : { v₂ with lf_dir.lfd_ifree := c, lf_dirdirty := true }.lf_dir.Fits := by
    refine ⟨hend.dir.fsysid, hend.dir.vers, hend.dir.allzeros, hend.dir.allones, hend.dir.dfree,
      ?_, hend.dir.nfiles, hend.dir.files, hend.dir.revid⟩
    exact ⟨le_trans (by decide) hc.signed.1, hc.signed.2⟩
  have hentry : v₂.entry p.lfdirptr =
      { w.1.entry p.lfdirptr with ld_ilist := LF_INULL, ld_size := 0 } := by
    rw [Lfdata.entry, hend.files]
    exact Function.update_self ..
  have hperm : ∀ xs free : List Int, (F.blocks.reverse ++ free).Perm (F.blocks ++ free) :=
    fun _ free => (List.reverse_perm _).append_right free
  refine .inr ⟨hempty, _, _, rfl, ⟨hend.good, hi₂, ?_, ⟨?_, ?_⟩, ?_, ?_, ?_⟩, ?_, hsame.lfstate,
    hsame.lfdev, hptr, hsame.lfname, rfl, rfl⟩
  · exact ⟨fun i hi' => hok.own.iblock i hi', hok.own.inodup,
      fun b hb => hok.own.dblock b ((hperm [] dfree).subset hb),
      (hperm [] dfree).nodup_iff.mpr hok.own.dnodup, le_refl _, Nat.zero_le _⟩
  · have hdone := hend.done
    rw [List.take_length, List.getD_eq_default _ _ (le_refl _)] at hdone
    refine walk_append.mpr ⟨_, ?_, hend.iwalk⟩
    rw [hchain] at hdone ⊢
    exact hdone
  · have hdwalk := hend.dwalk
    rw [List.take_of_length_le hok.own.room] at hdwalk
    exact hdwalk
  · show (v₂.entry w.2.lfdirptr).ld_size = 0
    rw [hptr, hentry]
  · show (v₂.entry w.2.lfdirptr).ld_ilist = LF_INULL
    rw [hptr, hentry]
  · exact ⟨fun n i hn => by simp at hn, .nil, .inl ⟨rfl, hi⟩, .inl ⟨rfl, hd⟩, Nat.zero_le _,
      .inl rfl⟩
  · have hf := hend.frame
    exact hframe.trans (hframe₁.trans ⟨hf.bad, hf.index, hf.data, hf.outside, hf.present, hf.header,
      hf.entries, hf.name⟩)

end Xinu
