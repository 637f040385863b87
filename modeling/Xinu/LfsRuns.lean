/-
# Runs of the local file system

What holds after every sequence of operations on a disk with an empty file system.

* `lfs_refines_files`: the operations return what the operations on files return, until one would
  need more blocks than the disk has.  That one does not return.  In the model this is `none`, which
  is the panic of `lfiballoc` and `lfdballoc`, but would also be an endless walk along index blocks
  or an access outside a table.
* `lfs_blocks_owned`: every block belongs to one file or is free, and the disk with the copies in
  memory says so.
* `lfs_durable`: when no file is open, a fresh mount finds the files again, all that are not empty.
-/
import Xinu.LfsNaming

namespace Xinu

open Layouts Chains BlockedArray Shares

variable {A : Area} {F : Files} {s : Lfs} {c : Census} {d : Fin Nlfl} {name : Str} {mbits : Nat}

/-! ## 1. Opening

The only operation that goes to the disk before it can answer, and the only one that may make a
directory entry.  Its parts are taken in the order of the source: the directory, the entry for the
name, and the claim of a pseudo-device. -/

/-- The directory is in memory after `lfsopen` has read it. -/
theorem lfsopenDir_loaded (h : LfsInv A s.loaded c) :
    lfsopenDir s.Lf_data = (OK, s.loaded.Lf_data) := by
  have hp : (lfsopenDir s.Lf_data).2.lf_dirpresent = true := h.present
  have hfst : (lfsopenDir s.Lf_data).1 = OK := by
    rw [lfsopenDir] at hp ⊢
    dsimp only at hp ⊢
    split_ifs at hp ⊢ with h1 h2 h3
    · rfl
    · exact absurd hp h1
    · exact absurd hp h1
    · rfl
  exact Prod.ext hfst rfl

/-- Reading the directory leaves the disk alone. -/
theorem lfsopenDir_dskdev {v : Lfdata} : (lfsopenDir v).2.lf_dskdev = v.lf_dskdev := by
  rw [lfsopenDir]
  dsimp only
  split_ifs <;> rfl

/-- `lfsopen` behind its checks, with the directory in memory. -/
theorem lfsopenWith_loaded (h : LfsInv A s.loaded c) : lfsopenWith s name mbits =
    match lfsopenSearch s.lfltab name with
    | none => some (SYSERR, s)
    | some d => some (lfsopenClaim s.loaded name mbits d) := by
  have hover : ¬ overrun s.loaded.Lf_data.lf_dir name := fun hx =>
    absurd h.dir.nfiles.2 (not_le.mpr hx.1)
  rw [lfsopenWith]
  cases lfsopenSearch s.lfltab name with
  | none => rfl
  | some d =>
    dsimp only
    rw [lfsopenDir_loaded h]
    have hok : ¬ OK = SYSERR := by decide
    exact (if_neg hok).trans (if_neg hover)

/-- The entry of a file, for a claim. -/
theorem lfsopenEntry_old {e : Fin LF_NUM_DIR_ENT} (h : LfsInv A s c) (hs : ShowsFiles F s c)
    (he : s.Lf_data.Born e) (hname : c.name e = name) : name ∈ F.names ∧
    lfsopenEntry s.Lf_data name mbits =
      if mbits &&& LF_MODE_N ≠ 0 then none else some (e, s.Lf_data) := by
  refine ⟨(hs.names name).mpr ⟨e, he, hname⟩, ?_⟩
  rw [lfsopenEntry, (found h).mpr ⟨he, hname⟩]

theorem lfsopenEntry_new (h : LfsInv A s c) (hs : ShowsFiles F s c) (hno : name ∉ F.names) :
    lfsopenEntry s.Lf_data name mbits = none ∧
      (mbits &&& LF_MODE_O ≠ 0 ∨ LF_NUM_DIR_ENT ≤ F.names.card) ∨
    ∃ e : Fin LF_NUM_DIR_ENT, s.Lf_data.lf_dir.lfd_nfiles = e ∧
      lfsopenEntry s.Lf_data name mbits = some (e, s.Lf_data.create e name) ∧
      ¬ (mbits &&& LF_MODE_O ≠ 0 ∨ LF_NUM_DIR_ENT ≤ F.names.card) := by
  have hcard := card_names h hs
  have h0 := h.dir.nfiles.1
  rw [lfsopenEntry, (not_found h hs).mpr hno]
  dsimp only
  by_cases hold : mbits &&& LF_MODE_O ≠ 0
  · rw [if_pos hold]
    exact .inl ⟨rfl, .inl hold⟩
  rw [if_neg hold]
  by_cases hroom : 0 ≤ s.Lf_data.lf_dir.lfd_nfiles ∧ s.Lf_data.lf_dir.lfd_nfiles < LF_NUM_DIR_ENT
  · rw [dif_pos hroom]
    refine .inr ⟨_, ?_, rfl, ?_⟩
    · exact (Int.toNat_of_nonneg h0).symm
    · rintro (hx | hx)
      · exact hold hx
      · have hlt := hroom.2
        omega
  · rw [dif_neg hroom]
    refine .inl ⟨rfl, .inr ?_⟩
    have hge : ¬ s.Lf_data.lf_dir.lfd_nfiles < LF_NUM_DIR_ENT := fun hx => hroom ⟨h0, hx⟩
    omega

/-- **The claim of a pseudo-device** opens the file, or refuses. -/
theorem claim_agrees (h : LfsInv A s c) (hs : ShowsFiles F s c) (hd : ¬ s.Used d)
    (hnot : ¬ ∃ d, (F.opened d).map Prod.fst = some name) (hshort : name.1.length < LF_NAME_LEN)
    {spec : Int × Files}
    (hspec : (if name ∈ F.names then
        if mbits &&& LF_MODE_N ≠ 0 then (SYSERR, F) else (F.dev d, F.seekTo d name 0)
      else if mbits &&& LF_MODE_O ≠ 0 ∨ LF_NUM_DIR_ENT ≤ F.names.card then (SYSERR, F)
      else (F.dev d, { F with names := insert name F.names }.seekTo d name 0)) = spec) :
    ∃ s', lfsopenClaim s name mbits d = (spec.1, s') ∧ Shown A spec.2 s' := by
  rw [lfsopenClaim]
  by_cases hin : name ∈ F.names
  · obtain ⟨e, he, hname⟩ := (hs.names name).mp hin
    rw [if_pos hin] at hspec
    rw [(lfsopenEntry_old h hs he hname).2]
    by_cases hmode : mbits &&& LF_MODE_N ≠ 0
    · rw [if_pos hmode] at hspec ⊢
      subst hspec
      exact ⟨s, rfl, c, h, hs⟩
    · rw [if_neg hmode] at hspec ⊢
      subst hspec
      have hclosed : ∀ d', s.Used d' → s.entryOf d' ≠ e := by
        rintro d' hd' rfl
        exact hnot ⟨d', by rw [hs.view hd', ← hname]; rfl⟩
      refine ⟨s.put s.Lf_data d (lfsopenBlock (s.lfltab d) e name mbits), ?_, c,
        h.claim hd he hname hshort hclosed, hs.claim hname⟩
      dsimp only
      rw [hs.dev]
  · rw [if_neg hin] at hspec
    rcases @lfsopenEntry_new _ _ _ _ _ mbits h hs hin with ⟨hnone, hcond⟩ | ⟨e, he, hsome, hcond⟩
    · rw [if_pos hcond] at hspec
      subst hspec
      rw [hnone]
      exact ⟨s, rfl, c, h, hs⟩
    · rw [if_neg hcond] at hspec
      subst hspec
      rw [hsome]
      have hnew : ∀ e', s.Lf_data.Born e' → c.name e' ≠ name := fun e' he' hname =>
        hin ((hs.names name).mpr ⟨e', he', hname⟩)
      have hinv := h.create he hnew hshort
      have hshow := hs.create h he hin
      have hclosed : ∀ d', s.Used d' → s.entryOf d' ≠ e := by
        rintro d' hd' rfl
        have hlt : (s.entryOf d' : Int) < s.Lf_data.lf_dir.lfd_nfiles := h.inside d' hd'
        omega
      have hborn : (s.Lf_data.create e name).Born e := (Lfdata.born_create he).mpr (.inr rfl)
      refine ⟨s.put (s.Lf_data.create e name) d (lfsopenBlock (s.lfltab d) e name mbits), ?_, _,
        hinv.claim hd hborn (Function.update_self ..) hshort hclosed,
        hshow.claim (Function.update_self ..)⟩
      dsimp only
      rw [← hs.dev d]

/-- **`lfsopen`** agrees with the opening of files. -/
theorem open_agrees (h : Represents A F s) (name mode : Str) :
    ∃ s', lfsopen s name mode = some ((F.call (.open name mode)).1, s') ∧
      Represents A (F.call (.open name mode)).2.2 s' := by
  obtain ⟨c, hinv, hs⟩ := h.shown
  rw [lfsopen, Files.call]
  by_cases hlong : name.1.length ≥ LF_NAME_LEN
  · rw [if_pos hlong, if_pos hlong]
    exact ⟨s, rfl, h⟩
  rw [if_neg hlong, if_neg hlong]
  cases lfgetmode mode with
  | none => exact ⟨s, rfl, h⟩
  | some mbits =>
    dsimp only
    rw [lfsopenWith_loaded hinv, Files.openFile]
    have hsearch := @searched _ _ _ _ name hinv hs
    have htab : s.loaded.lfltab = s.lfltab := rfl
    rw [htab] at hsearch
    rw [hsearch]
    by_cases hopen : ∃ d, (F.opened d).map Prod.fst = some name
    · rw [if_pos hopen, if_pos hopen]
      exact ⟨s, rfl, h⟩
    rw [if_neg hopen, if_neg hopen]
    cases hfree : (List.finRange Nlfl).find? fun d => (F.opened d).isNone with
    | none => exact ⟨s, rfl, h⟩
    | some d =>
      have hd : ¬ s.loaded.Used d := by
        intro hd
        have hnone := List.find?_some hfree
        rw [hs.view hd] at hnone
        cases hnone
      obtain ⟨s', hclaim, hshown⟩ := @claim_agrees _ _ _ _ _ _ mbits hinv hs hd hopen
        (not_le.mp hlong) _ rfl
      exact ⟨s', congrArg some hclaim, hshown.represents⟩

/-! ## 2. Every operation

One lemma for each operation, in which the state of the source and the files that it represents
take the step together.  `call_agrees` puts them together, by the constructor of the call. -/

theorem Represents.unused (h : Represents A F s) (hd : F.opened d = none) :
    (s.lfltab d).lfstate ≠ .LF_USED := by
  obtain ⟨c, -, hs⟩ := h.shown
  intro hused
  rw [hs.view (d := d) hused] at hd
  cases hd

theorem Represents.used (h : Represents A F s) {n : Str} {pos : Nat}
    (hd : F.opened d = some (n, pos)) : Shown A F s := by
  obtain ⟨c, -, hs⟩ := h.shown
  exact h.shown_of_used (hs.of_opened hd).1

/-- An operation that returns. -/
theorem Agrees.returns {out : Option (Int × List UInt8 × Lfs)} {spec : Int × List UInt8 × Files}
    {s' : Lfs} (hout : out = some (spec.1, spec.2.1, s')) (hs : Represents A spec.2.2 s') :
    Agrees A out spec := .inl ⟨s', hout, hs⟩

theorem getc_agrees (h : Represents A F s) : Agrees A (s.call (.getc d)) (F.call (.getc d)) := by
  rw [Lfs.call, Files.call]
  cases hd : F.opened d with
  | none =>
    rw [lflgetc]
    exact .returns (by rw [if_pos (h.unused hd)]; rfl) h
  | some x =>
    obtain ⟨n, pos⟩ := x
    rcases (h.used hd).getc hd with ⟨hend, hget⟩ | ⟨b, s', hb, hget, hs'⟩
    · dsimp only
      rw [hend, hget]
      exact .returns rfl h
    · dsimp only
      rw [hb, hget, Option.map_some]
      have hne : ¬ ((b.toNat : Int) = SYSERR ∨ (b.toNat : Int) = EOF) := by
        have h0 : (0 : Int) ≤ b.toNat := Int.natCast_nonneg _
        show ¬ ((b.toNat : Int) = -1 ∨ (b.toNat : Int) = -2)
        omega
      refine .returns ?_ hs'.represents
      rw [if_neg hne, Int.toNat_natCast, UInt8.ofNat_toNat]

theorem putc_agrees (h : Represents A F s) (ch : UInt8) :
    Agrees A (s.call (.putc d ch)) (F.call (.putc d ch)) := by
  rw [Lfs.call, Files.call]
  cases hd : F.opened d with
  | none =>
    rw [lflputc, Files.write, hd]
    exact .returns (by rw [if_pos (h.unused hd)]; rfl) h
  | some x =>
    obtain ⟨n, pos⟩ := x
    rcases (h.used hd).putc hd ch with ⟨s', hput, hs'⟩ | ⟨hput, hfull⟩
    · rw [hput, Option.map_some]
      refine .returns ?_ hs'.represents
      rw [Files.write_eq hd]
      rfl
    · exact .inr ⟨by rw [hput, Option.map_none], hfull⟩

theorem read_agrees (h : Represents A F s) (count : Int) :
    Agrees A (s.call (.read d count)) (F.call (.read d count)) := by
  rw [Lfs.call, Files.call, lflread]
  split_ifs with hneg hzero
  · exact .returns rfl h
  · rw [hzero]
    exact .returns rfl h
  obtain ⟨k, hk⟩ : ∃ k, count.toNat = k + 1 := ⟨count.toNat - 1, by omega⟩
  cases hd : F.opened d with
  | none =>
    rw [Files.read, hd, hk, lflreadLoop, lflgetc]
    exact .returns (by rw [if_pos (h.unused hd)]; rfl) h
  | some x =>
    obtain ⟨n, pos⟩ := x
    obtain ⟨s', hloop, hs'⟩ := (h.used hd).readLoop hd count.toNat 0 rfl
    rw [hloop, Files.read, hd]
    refine .returns ?_ hs'.represents
    rw [Nat.zero_add, hk]
    by_cases hnil : ((F.content n).drop pos).take (k + 1) = []
    · rw [if_pos ⟨Nat.succ_ne_zero k, rfl, hnil⟩]
      dsimp only
      rw [if_pos hnil]
    · rw [if_neg fun hx => hnil hx.2.2]
      dsimp only
      rw [if_neg hnil]

theorem write_agrees (h : Represents A F s) (buff : List UInt8) (count : Int) :
    Agrees A (s.call (.write d buff count)) (F.call (.write d buff count)) := by
  rw [Lfs.call, Files.call, lflwrite]
  by_cases hneg : count < 0
  · rw [if_pos hneg, if_pos hneg]
    exact .returns rfl h
  rw [if_neg hneg, if_neg hneg]
  by_cases hnil : buff.take count.toNat = []
  · rw [if_pos hnil, hnil]
    exact .returns rfl h
  rw [if_neg hnil]
  cases hd : F.opened d with
  | none =>
    obtain ⟨b, bytes, hb⟩ := List.exists_cons_of_ne_nil hnil
    have hput : lflputc s d b = some (SYSERR, s) := by rw [lflputc, if_pos (h.unused hd)]
    rw [Files.write, hd, hb, lflwriteLoop, hput]
    exact .returns rfl h
  | some x =>
    obtain ⟨n, pos⟩ := x
    rcases (h.used hd).writeLoop hd (buff.take count.toNat) with ⟨s', hloop, hs'⟩ | ⟨hloop, hfull⟩
    · rw [hloop, Option.map_some, Option.map_some]
      refine .returns ?_ hs'.represents
      rw [Files.write_eq hd]
    · exact .inr ⟨by rw [hloop]; rfl, hfull⟩

theorem seek_agrees (h : Represents A F s) (offset : Nat) :
    Agrees A (s.call (.seek d offset)) (F.call (.seek d offset)) := by
  rw [Lfs.call, Files.call]
  cases hd : F.opened d with
  | none =>
    rw [lflseek, Files.seek, hd]
    exact .returns (by rw [if_pos (h.unused hd)]) h
  | some x =>
    obtain ⟨n, pos⟩ := x
    obtain ⟨s', hseek, hs'⟩ := (h.used hd).seek hd offset
    rw [hseek]
    exact .returns rfl hs'.represents

theorem control_agrees (h : Represents A F s) (func : Int) :
    Agrees A (s.call (.control d func)) (F.call (.control d func)) := by
  rw [Lfs.call, Files.call]
  by_cases hfunc : func = LF_CTL_TRUNC
  · rw [if_pos hfunc, hfunc]
    cases hd : F.opened d with
    | none =>
      rw [lflcontrol, Files.truncate, hd]
      exact .returns (by rw [if_pos (h.unused hd)]; rfl) h
    | some x =>
      obtain ⟨n, pos⟩ := x
      obtain ⟨s', htrunc, hs'⟩ := (h.used hd).truncate hd
      rw [htrunc]
      refine .returns ?_ hs'.represents
      rw [Files.truncate, hd]
      rfl
  · rw [if_neg hfunc, lflcontrol]
    dsimp only
    rw [if_neg hfunc, ite_self]
    exact .returns rfl h

theorem close_agrees (h : Represents A F s) : Agrees A (s.call (.close d)) (F.call (.close d)) := by
  rw [Lfs.call, Files.call]
  cases hd : F.opened d with
  | none =>
    rw [lflclose, Files.close, hd]
    exact .returns (by rw [if_pos (h.unused hd)]) h
  | some x =>
    obtain ⟨n, pos⟩ := x
    obtain ⟨s', hclose, hs'⟩ := (h.used hd).close hd
    rw [hclose]
    exact .returns rfl hs'.represents

/-- **Every operation agrees with the one on files.** -/
theorem call_agrees (h : Represents A F s) (op : LfsOp) : Agrees A (s.call op) (F.call op) := by
  cases op with
  | «open» name mode =>
    obtain ⟨s', hopen, hs'⟩ := open_agrees h name mode
    refine .returns ?_ hs'
    rw [Lfs.call, hopen, Files.call]
    split_ifs
    · rfl
    · cases lfgetmode mode <;> rfl
  | close d => exact close_agrees h
  | getc d => exact getc_agrees h
  | putc d ch => exact putc_agrees h ch
  | read d count => exact read_agrees h count
  | write d buff count => exact write_agrees h buff count
  | seek d offset => exact seek_agrees h offset
  | control d func => exact control_agrees h func

/-! ## 3. Disks at rest

What holds of a disk while no file is open.  A disk at rest can be mounted (`DiskAtRest.mount`),
and when the last file is closed the disk is at rest again (`Represents.holding`): the two
directions that `lfs_durable` is made of. -/

/-- The entry is that of a file on the disk. -/
def Disk.Born (k : Disk) (e : Fin LF_NUM_DIR_ENT) : Prop := (e : Int) < k.dir.lfd_nfiles

instance (k : Disk) (e : Fin LF_NUM_DIR_ENT) : Decidable (k.Born e) :=
  inferInstanceAs (Decidable (_ < _))

/-- What a disk holds while no file is open. -/
structure DiskAtRest (A : Area) (k : Disk) (c : Census) : Prop where
  good : A.Good k
  accepted : lfscheck k.dir = OK
  nfiles : 0 ≤ k.dir.lfd_nfiles ∧ k.dir.lfd_nfiles ≤ LF_NUM_DIR_ENT
  ishare : Shared (fun e => (c.map e).chain) c.ifree A.istock
  dshare : Shared (fun e => (c.map e).blocks) c.dfree A.dstock
  tight : ∀ e, (c.map e).Tight (c.file e).length
  iwalk : Walk (fun i => (lfibget k i).ib_next) k.dir.lfd_ifree c.ifree LF_INULL
  dwalk : Walk k.nextdb k.dir.lfd_dfree c.dfree LF_DNULL
  size : ∀ e, k.Born e → (k.dir.lfd_files e).ld_size = (c.file e).length
  ilist : ∀ e, k.Born e → (k.dir.lfd_files e).ld_ilist = (c.map e).chain.headD LF_INULL
  named : ∀ e, k.Born e → sameName (c.name e).1 (chars (k.dir.lfd_files e).ld_name)
  distinct : ∀ e e', k.Born e → k.Born e' → c.name e = c.name e' → e = e'
  unborn : ∀ e, ¬ k.Born e → c.file e = []
  stored : ∀ e, FileStored k (c.map e) (c.file e)
  rest : ∀ b : Int, ¬ (0 ≤ b ∧ b < A.total) → k.sector b = A.rest b

/-- The disk holds the files of the given names and contents. -/
def HoldsFiles (A : Area) (k : Disk) (names : Finset Str) (content : Str → List UInt8) : Prop :=
  ∃ c, DiskAtRest A k c ∧ (∀ n, n ∈ names ↔ ∃ e, k.Born e ∧ c.name e = n) ∧
    (∀ e, k.Born e → content (c.name e) = c.file e) ∧ ∀ n ∉ names, content n = []

section Mount

variable {k : Disk} {names : Finset Str} {content : Str → List UInt8}

/-- The state after the directory of the disk is read. -/
theorem loaded_boot (h : DiskAtRest A k c) (dev : Fin Nlfl → Int) :
    (Lfs.boot k dev).loaded = { Lfs.boot k dev with
      Lf_data := { lfsinit k with lf_dir := k.dir, lf_dirpresent := true } } := by
  have hread : (k.read LF_AREA_DIR).1 = OK := by
    rw [Disk.read, if_neg (by rw [h.good.dir]; simp)]
  have hne : ¬ OK = SYSERR := by decide
  have hdir : lfsopenDir (lfsinit k) =
      (OK, { lfsinit k with lf_dir := k.dir, lf_dirpresent := true }) := by
    rw [lfsopenDir, if_neg (by simp [lfsinit])]
    show (if (k.read LF_AREA_DIR).1 = SYSERR then _ else if lfscheck k.dir = SYSERR then _ else _) =
      _
    rw [hread, h.accepted, if_neg hne, if_neg hne]
    rfl
  rw [Lfs.loaded, Lfs.boot, hdir]

/-- **A disk at rest is mounted.** -/
theorem DiskAtRest.mount (h : DiskAtRest A k c) (dev : Fin Nlfl → Int) :
    LfsInv A (Lfs.boot k dev).loaded c := by
  have hfree : ∀ d, ¬ (Lfs.boot k dev).Used d := fun d hd => by cases hd
  rw [loaded_boot h]
  exact ⟨rfl, h.good, fits_get h.nfiles, h.accepted, h.ishare, h.dshare, h.tight,
    ⟨h.iwalk, h.dwalk⟩, h.size, h.ilist, h.named, h.distinct, h.unborn,
    fun d hd => absurd hd (hfree d), fun e _ => h.stored e, fun d hd => absurd hd (hfree d),
    fun d hd => absurd hd (hfree d), fun d _ hd => absurd hd (hfree d), .inr (.refl h.nfiles.1),
    h.rest, fun hdirty => by cases hdirty⟩

/-- **After the boot the files of the disk are there**, none of them open. -/
theorem HoldsFiles.represents (h : HoldsFiles A k names content) (dev : Fin Nlfl → Int) :
    Represents A ⟨dev, names, content, fun _ => none⟩ (Lfs.boot k dev) := by
  obtain ⟨c, hrest, hnames, hcontent, habsent⟩ := h
  have hfree : ∀ d, ¬ (Lfs.boot k dev).Used d := fun d hd => by cases hd
  refine ⟨fun d hd => absurd hd (hfree d), c, hrest.mount dev, ?_⟩
  rw [loaded_boot hrest]
  exact ⟨fun _ => rfl, hnames, hcontent, habsent, fun d => (if_neg (hfree d)).symm⟩

/-- An empty file system holds no files. -/
theorem EmptyFs.holding (h : EmptyFs k A.iblocks (A.first - 1) A.total)
    (hfiles : k.dir.lfd_nfiles = 0) (hgood : A.Good k)
    (hrest : ∀ b : Int, ¬ (0 ≤ b ∧ b < A.total) → k.sector b = A.rest b) :
    HoldsFiles A k ∅ fun _ => [] := by
  have hpos := A.pos
  have hfirst : A.first - 1 + 1 = A.first := by omega
  have hnot : ∀ e, ¬ k.Born e := fun e he => by
    have he : (e : Int) < k.dir.lfd_nfiles := he
    omega
  have htight : FileMap.Tight ⟨[], []⟩ 0 := ⟨rfl, rfl⟩
  have hi := h.iblocks
  have hd := h.dblocks
  simp only [hfirst, List.map_id', bind_pure_comp, List.map_eq_map] at hi hd
  refine ⟨⟨fun _ => ⟨[], []⟩, fun _ => [], fun _ => ∅, A.istock, A.dstock⟩,
    ⟨hgood, h.accepted, ?_, shared_nil rfl, shared_nil rfl, fun _ => htight, hi, hd,
      fun e he => absurd he (hnot e), fun e he => absurd he (hnot e),
      fun e he => absurd he (hnot e), fun e _ he => absurd he (hnot e), fun _ _ => rfl,
      fun _ => ⟨fun n i hn => by simp at hn, .nil⟩, hrest⟩, fun n => ?_,
    fun e he => absurd he (hnot e), fun _ _ => rfl⟩
  · rw [hfiles]
    decide
  · simp [hnot]

/-- **When no file is open the disk is at rest**, and it has all files that are not empty. -/
theorem Represents.holding (h : Represents A F s) (hclosed : ∀ d, F.opened d = none) :
    ∃ names ⊆ F.names, (∀ n ∈ F.names, n ∉ names → F.content n = []) ∧
      HoldsFiles A s.Lf_data.lf_dskdev names F.content := by
  obtain ⟨c, hinv, hs⟩ := h.shown
  have hdisk : s.loaded.Lf_data.lf_dskdev = s.Lf_data.lf_dskdev := lfsopenDir_dskdev
  have hfree : ∀ d, ¬ s.loaded.Used d := fun d hd => by
    have hview := hs.view hd
    rw [hclosed d] at hview
    cases hview
  have hlags : s.Lf_data.lf_dskdev.dir.Lags s.loaded.Lf_data.lf_dir := by
    rcases hinv.saved with hdirty | hlags
    · obtain ⟨d, hd⟩ := hinv.dirty hdirty
      exact absurd hd (hfree d)
    · rw [hdisk] at hlags
      exact hlags
  set k := s.Lf_data.lf_dskdev with hk
  -- a file of the disk is a file in memory, and the other ones are empty
  have hborn : ∀ e, k.Born e → s.loaded.Lf_data.Born e := fun e he =>
    lt_of_lt_of_le he hlags.nfiles
  have hentry : ∀ e, k.Born e → k.dir.lfd_files e = s.loaded.Lf_data.entry e := fun e he =>
    (hlags.files e he).symm
  have hlost : ∀ e, ¬ k.Born e → c.file e = [] := by
    intro e he
    by_cases hmem : s.loaded.Lf_data.Born e
    · have hsize := hinv.size e hmem
      have hzero : (s.loaded.Lf_data.entry e).ld_size = 0 :=
        (hlags.fresh e (not_lt.mp he) hmem).1
      rw [hzero] at hsize
      exact List.length_eq_zero_iff.mp hsize.symm
    · exact hinv.unborn e hmem
  have hheader := hlags.header
  have hfew := hinv.dir.nfiles.2
  have hle := hlags.nfiles
  have hrest : DiskAtRest A k c := by
    refine ⟨hdisk ▸ hinv.good, ?_, ⟨hlags.nonneg, hle.trans hfew⟩, hinv.ishare, hinv.dshare,
      hinv.tight, ?_, ?_, fun e he => ?_, fun e he => ?_, fun e he => ?_,
      fun e e' he he' => hinv.distinct e e' (hborn e he) (hborn e' he'), hlost, fun e => ?_,
      fun b hb => ?_⟩
    · rw [← hheader]
      exact lfscheck_congr hinv.accepted rfl rfl rfl rfl hlags.nonneg
    · have hw := hinv.free.iwalk
      rw [hdisk] at hw
      rw [← hheader]
      exact hw
    · have hw := hinv.free.dwalk
      rw [hdisk] at hw
      rw [← hheader]
      exact hw
    · rw [hentry e he]
      exact hinv.size e (hborn e he)
    · rw [hentry e he]
      exact hinv.ilist e (hborn e he)
    · rw [hentry e he]
      exact hinv.named e (hborn e he)
    · have hstored := hinv.closed e fun d hd => absurd hd (hfree d)
      rw [hdisk] at hstored
      exact hstored
    · have hb' := hinv.rest b hb
      rw [hdisk] at hb'
      exact hb'
  refine ⟨F.names.filter fun n => ∃ e, k.Born e ∧ c.name e = n, Finset.filter_subset _ _,
    fun n hn hno => ?_, c, hrest, fun n => ?_, fun e he => hs.content e (hborn e he), fun n hn =>
    ?_⟩
  · obtain ⟨e, he, rfl⟩ := (hs.names n).mp hn
    rw [hs.content e he]
    exact hlost e fun hb => hno (Finset.mem_filter.mpr ⟨hn, e, hb, rfl⟩)
  · rw [Finset.mem_filter, hs.names]
    constructor
    · rintro ⟨-, e, he, hname⟩
      exact ⟨e, he, hname⟩
    · rintro ⟨e, he, hname⟩
      exact ⟨⟨e, hborn e he, hname⟩, e, he, hname⟩
  · by_cases hin : n ∈ F.names
    · obtain ⟨e, he, rfl⟩ := (hs.names n).mp hin
      rw [hs.content e he]
      exact hlost e fun hb => hn (Finset.mem_filter.mpr ⟨hin, e, hb, rfl⟩)
    · exact hs.absent n hin

end Mount

/-! ## 4. Runs

By induction on the operations, with `call_agrees` for one of them. -/

/-- What a sequence of operations returns and yields, and the state after it. -/
def Lfs.results (s : Lfs) : List LfsOp → Option (List (Int × List UInt8) × Lfs)
  | [] => some ([], s)
  | op :: ops => (s.call op).bind fun (r, data, s') =>
    (s'.results ops).map fun (rest, s'') => ((r, data) :: rest, s'')

/-- **A run agrees with the one on files**, up to the first operation for which the disk is too
small. -/
theorem results_agree (h : Represents A F s) (ops : List LfsOp) :
    F.FitsAll A ops ∧ (∃ s', s.results ops = some ((F.calls ops).1, s') ∧
      Represents A (F.calls ops).2 s') ∨ ¬ F.FitsAll A ops ∧ s.results ops = none := by
  induction ops generalizing F s with
  | nil => exact .inl ⟨trivial, s, rfl, h⟩
  | cons op ops ih =>
    rw [Lfs.results, Files.FitsAll, Files.calls]
    rcases call_agrees h op with ⟨s', hcall, hs'⟩ | ⟨hcall, hfull⟩
    · rw [hcall, Option.bind_some]
      dsimp only
      rcases ih hs' with ⟨hfits, s'', hrun, hs''⟩ | ⟨hfull, hrun⟩
      · rw [hrun, Option.map_some]
        exact .inl ⟨⟨hs'.fits, hfits⟩, s'', rfl, hs''⟩
      · exact .inr ⟨fun hx => hfull hx.2, by rw [hrun, Option.map_none]⟩
    · exact .inr ⟨fun hx => hfull hx.1, by rw [hcall, Option.bind_none]⟩

/-- A run that returns stands for its files. -/
theorem represents_of_results {s' : Lfs} {rs : List (Int × List UInt8)} {ops : List LfsOp}
    (h : Represents A F s) (hrun : s.results ops = some (rs, s')) :
    Represents A (F.calls ops).2 s' := by
  rcases results_agree h ops with ⟨-, s'', hrun', hs''⟩ | ⟨-, hnone⟩
  · rw [hrun] at hrun'
    cases hrun'
    exact hs''
  · rw [hrun] at hnone
    cases hnone

/-- The areas of the disk of ten sectors. -/
def freshArea : Area where
  iblocks := 7
  first := 2
  total := 10
  rest := freshDisk.sector
  pos := Nat.two_pos
  behind := Nat.le_refl 7
  inside := Nat.le_add_left 2 8
  small := Nat.le_of_ble_eq_true rfl

/-- The disk of ten sectors holds no files. -/
theorem freshDisk_holdsFiles : HoldsFiles freshArea freshDisk ∅ fun _ => [] := by
  have hempty : EmptyFs freshDisk freshArea.iblocks (freshArea.first - 1) freshArea.total := by
    constructor <;> decide +kernel
  exact hempty.holding (by decide +kernel) (fun _ _ _ => rfl) fun _ _ => rfl

section Results

variable {k : Disk} {names : Finset Str} {content : Str → List UInt8} {dev : Fin Nlfl → Int}
  {ops : List LfsOp} {rs : List (Int × List UInt8)}

/-- **The local file system refines files of bytes.**  After a boot on a disk that holds files,
every sequence of operations returns and yields what it should, if the disk can hold the files after
every operation; otherwise it does not return. -/
theorem lfs_refines_files (h : HoldsFiles A k names content) (dev : Fin Nlfl → Int)
    (ops : List LfsOp) :
    (Files.FitsAll A ⟨dev, names, content, fun _ => none⟩ ops →
      ∃ s, (Lfs.boot k dev).results ops =
        some ((Files.calls ⟨dev, names, content, fun _ => none⟩ ops).1, s)) ∧
    (¬ Files.FitsAll A ⟨dev, names, content, fun _ => none⟩ ops →
      (Lfs.boot k dev).results ops = none) := by
  rcases results_agree (h.represents dev) ops with ⟨hfits, s, hrun, -⟩ | ⟨hfull, hnone⟩
  · exact ⟨fun _ => ⟨s, hrun⟩, fun hx => absurd hfits hx⟩
  · exact ⟨fun hx => absurd hx hfull, fun _ => hnone⟩

/-- A file is written, read and closed, and found again; a file of 4097 bytes does not fit into
eight blocks. -/
theorem lfs_refines_files_fresh :
    (∃ s, (Lfs.boot freshDisk fun d => 7 + d).results
      [.open fileA ∅, .write 0 [98, 99, 100] 3, .seek 0 1, .getc 0, .close 0, .open fileA ∅,
        .read 0 9] = some ([(7, []), (3, []), (OK, []), (99, [99]), (OK, []), (7, []),
          (3, [98, 99, 100])], s)) ∧
    (Lfs.boot freshDisk fun d => 7 + d).results
      [.open fileA ∅, .write 0 (List.replicate 4097 0) 4097] = none :=
  ⟨(lfs_refines_files freshDisk_holdsFiles (fun d => 7 + d)
      [.open fileA ∅, .write 0 [98, 99, 100] 3, .seek 0 1,
        .getc 0, .close 0, .open fileA ∅, .read 0 9]).1 (by decide +kernel),
    (lfs_refines_files freshDisk_holdsFiles (fun d => 7 + d)
      [.open fileA ∅, .write 0 (List.replicate 4097 0) 4097]).2 (by decide +kernel)⟩

/-! ## 5. Who has which block

The ownership that `LfsInv` carries, in the words of the two free lists and the index blocks. -/

/-- An index block as it is now: a dirty copy of an open file counts instead of the disk. -/
def Lfs.indexBlock (s : Lfs) (i : Int) : Lfiblk :=
  match (List.finRange Nlfl).find? fun d =>
    decide (s.Used d ∧ (s.lfltab d).lfibdirty = true ∧ (s.lfltab d).lfinum = i) with
  | some d => (s.lfltab d).lfiblock
  | none => lfibget s.Lf_data.lf_dskdev i

/-- Every block is on the free list of its kind or in one file, and a file has the blocks of its
size, in the order in which its index blocks lead to them. -/
structure BlocksOwned (A : Area) (s : Lfs) (map : Fin LF_NUM_DIR_ENT → FileMap)
    (ifree dfree : List Int) : Prop where
  ishare : Shared (fun e => (map e).chain) ifree A.istock
  dshare : Shared (fun e => (map e).blocks) dfree A.dstock
  free : FreeLists s.Lf_data ifree dfree
  head : ∀ e, s.Lf_data.Born e → (s.Lf_data.entry e).ld_ilist = (map e).chain.headD LF_INULL
  counts : ∀ e, s.Lf_data.Born e → (map e).Tight (s.Lf_data.entry e).ld_size
  unborn : ∀ e, ¬ s.Lf_data.Born e → map e = ⟨[], []⟩
  linked : ∀ e n i, (map e).chain[n]? = some i → s.indexBlock i = (map e).index n

/-- The index blocks of a file as they are now. -/
theorem LfsInv.linked (h : LfsInv A s c) {e : Fin LF_NUM_DIR_ENT} {n : Nat} {i : Int}
    (hi : (c.map e).chain[n]? = some i) : s.indexBlock i = (c.map e).index n := by
  have hmem : i ∈ (c.map e).chain := List.mem_of_getElem? hi
  -- a dirty copy of the block is that of its own file
  have hown : ∀ d, s.Used d → (s.lfltab d).lfibdirty = true → (s.lfltab d).lfinum = i →
      s.entryOf d = e := by
    intro d hd hdirty hnum
    by_contra hne
    obtain ⟨m, hm, -⟩ := (h.opened d hd).icopy.resolve_left fun hx => by
      rw [hdirty] at hx
      exact absurd hx.2 (by decide)
    rw [hnum] at hm
    exact h.not_chain hne (List.mem_of_getElem? hm) (List.mem_append_left _ hmem)
  rw [Lfs.indexBlock]
  cases hfind : (List.finRange Nlfl).find? fun d =>
      decide (s.Used d ∧ (s.lfltab d).lfibdirty = true ∧ (s.lfltab d).lfinum = i) with
  | some d =>
    have hd := List.find?_some hfind
    rw [decide_eq_true_iff] at hd
    have he := hown d hd.1 hd.2.1 hd.2.2
    have hview := (h.opened d hd.1).index n i (he ▸ hi)
    rw [Lflcblk.ibView, if_pos ⟨hd.2.1, hd.2.2⟩, he] at hview
    exact hview
  | none =>
    have hno : ∀ d, ¬ (s.Used d ∧ (s.lfltab d).lfibdirty = true ∧ (s.lfltab d).lfinum = i) := by
      intro d
      have hx := List.find?_eq_none.mp hfind d (List.mem_finRange d)
      rw [decide_eq_true_iff] at hx
      exact hx
    by_cases hopen : ∃ d, s.Used d ∧ s.entryOf d = e
    · obtain ⟨d, hd, rfl⟩ := hopen
      have hview := (h.opened d hd).index n i hi
      rw [Lflcblk.ibView, if_neg fun hx => hno d ⟨hd, hx.1, hx.2⟩] at hview
      exact hview
    · exact (h.closed e fun d hd he => hopen ⟨d, hd, he⟩).index n i hi

theorem LfsInv.blocksOwned (h : LfsInv A s c) : BlocksOwned A s c.map c.ifree c.dfree where
  ishare := h.ishare
  dshare := h.dshare
  free := h.free
  head := h.ilist
  counts e he := by
    rw [h.size e he]
    exact h.tight e
  unborn e he := by
    have htight := h.tight e
    rw [h.unborn e he] at htight
    exact htight.nil
  linked _ _ _ hi := h.linked hi

/-- **Every block has one owner**, after every sequence of operations, and sectors outside the file
system keep what they held. -/
theorem lfs_blocks_owned (h : HoldsFiles A k names content)
    (hrun : (Lfs.boot k dev).results ops = some (rs, s)) :
    (∃ map ifree dfree, BlocksOwned A s.loaded map ifree dfree) ∧
    ∀ b : Int, ¬ (0 ≤ b ∧ b < A.total) → s.Lf_data.lf_dskdev.sector b = k.sector b := by
  obtain ⟨c, hinv, -⟩ := (represents_of_results (h.represents dev) hrun).shown
  have hdisk : s.loaded.Lf_data.lf_dskdev = s.Lf_data.lf_dskdev := lfsopenDir_dskdev
  obtain ⟨c₀, hrest, -⟩ := h
  refine ⟨⟨c.map, c.ifree, c.dfree, hinv.blocksOwned⟩, fun b hb => ?_⟩
  have hb' := hinv.rest b hb
  rw [hdisk] at hb'
  exact hb'.trans (hrest.rest b hb).symm

/-- After a byte was written and the file truncated. -/
theorem lfs_blocks_owned_fresh : ∃ s rs, (Lfs.boot freshDisk fun d => 7 + d).results
      [.open fileA ∅, .putc 0 98, .control 0 LF_CTL_TRUNC] = some (rs, s) ∧
    (∃ map ifree dfree, BlocksOwned freshArea s.loaded map ifree dfree) ∧
    ∀ b : Int, ¬ (0 ≤ b ∧ b < 10) → s.Lf_data.lf_dskdev.sector b = freshDisk.sector b := by
  have hsome : ((Lfs.boot freshDisk fun d => 7 + d).results
      [.open fileA ∅, .putc 0 98, .control 0 LF_CTL_TRUNC]).isSome = true := by decide +kernel
  obtain ⟨⟨rs, s⟩, hrun⟩ := Option.isSome_iff_exists.mp hsome
  exact ⟨s, rs, hrun, lfs_blocks_owned freshDisk_holdsFiles hrun⟩

/-! ## 6. What a fresh mount finds

A run from one mount to the next.  `lfsopen` writes a new entry into the directory in memory only,
and it is `lfflush` that brings the directory to the disk, after something was written: so a new
file that stays empty need not be there after the next mount. -/

/-- **The local file system is durable.**  When after some operations no file is open, the disk
holds the files, with their names and contents.  Of the files that are empty some may be missing. -/
theorem lfs_durable (h : HoldsFiles A k names content)
    (hrun : (Lfs.boot k dev).results ops = some (rs, s))
    (hclosed : ∀ d, (s.lfltab d).lfstate = .LF_FREE) :
    ∃ names' ⊆ (Files.calls ⟨dev, names, content, fun _ => none⟩ ops).2.names,
      (∀ n ∈ (Files.calls ⟨dev, names, content, fun _ => none⟩ ops).2.names, n ∉ names' →
        (Files.calls ⟨dev, names, content, fun _ => none⟩ ops).2.content n = []) ∧
      HoldsFiles A s.Lf_data.lf_dskdev names'
        (Files.calls ⟨dev, names, content, fun _ => none⟩ ops).2.content := by
  have hrep := represents_of_results (h.represents dev) hrun
  refine hrep.holding fun d => ?_
  obtain ⟨c, -, hs⟩ := hrep.shown
  refine hs.view_none fun hused => ?_
  have hstate : (s.lfltab d).lfstate = .LF_USED := hused
  rw [hclosed d] at hstate
  cases hstate

/-- After a byte was written and the file closed. -/
theorem lfs_durable_fresh : ∃ s rs, (Lfs.boot freshDisk fun d => 7 + d).results
      [.open fileA ∅, .putc 0 98, .close 0] = some (rs, s) ∧
    ∃ names' ⊆ {fileA}, (∀ n ∈ ({fileA} : Finset Str), n ∉ names' → n ≠ fileA) ∧
      ∃ content, content fileA = [98] ∧
      HoldsFiles freshArea s.Lf_data.lf_dskdev names' content := by
  have hsome : ((Lfs.boot freshDisk fun d => 7 + d).results
      [.open fileA ∅, .putc 0 98, .close 0]).any
        (fun r => decide (∀ d, (r.2.lfltab d).lfstate = .LF_FREE)) = true := by decide +kernel
  obtain ⟨⟨rs, s⟩, hrun, hclosed⟩ := (Option.any_eq_true _ _).mp hsome
  obtain ⟨names', hsub, hlost, hholding⟩ :=
    lfs_durable freshDisk_holdsFiles hrun (of_decide_eq_true hclosed)
  have hnames : (Files.calls ⟨fun d => 7 + d, ∅, fun _ => [], fun _ => none⟩
      [.open fileA ∅, .putc 0 98, .close 0]).2.names = {fileA} := by decide +kernel
  have hcontent : (Files.calls ⟨fun d => 7 + d, ∅, fun _ => [], fun _ => none⟩
      [.open fileA ∅, .putc 0 98, .close 0]).2.content fileA = [98] := by decide +kernel
  rw [hnames] at hsub hlost
  refine ⟨s, rs, hrun, names', hsub, fun n hn hno => ?_, _, hcontent, hholding⟩
  rintro rfl
  have hempty := hlost fileA hn hno
  rw [hcontent] at hempty
  cases hempty

end Results

end Xinu
