/-
# Opening a file: `lfsopen.c`

`lfsopen` agrees with `Files.openFile`: the open files and the directory hold each name once, so the
searches by name find the file (`searched`, `found`).  A new file takes the next entry of the
directory, without blocks (`LfsInv.create`), and an open one a control block without copies
(`LfsInv.claim`).
-/
import Xinu.LfsRefine

namespace Xinu

open Layouts Chains BlockedArray Shares

variable {A : Area} {F : Files} {s : Lfs} {c : Census} {d d' : Fin Nlfl} {name : Str} {mbits : Nat}
  {e : Fin LF_NUM_DIR_ENT}

/-! ## 1. The searches

Names are arrays of bytes in the tables and strings for the caller.  That they are found rests on
each name being there once. -/

/-- The name of a file is that of its entry, and of its control block. -/
theorem sameName_eq_iff {n m : Str} {cmp : Nat → UInt8} (hn : sameName n.1 cmp = true) :
    sameName m.1 cmp = true ↔ m = n := by
  constructor
  · exact fun hm => sameName_unique hm hn
  · rintro rfl
    exact hn

/-- **The search for a pseudo-device.** -/
theorem searched (h : LfsInv A s c) (hs : ShowsFiles F s c) : lfsopenSearch s.lfltab name =
    if ∃ d, (F.opened d).map Prod.fst = some name then none
    else (List.finRange Nlfl).find? fun d => (F.opened d).isNone := by
  have hopen : (∃ d, s.Used d ∧ sameName name.1 (chars (s.lfltab d).lfname) = true) ↔
      ∃ d, (F.opened d).map Prod.fst = some name := by
    refine exists_congr fun d => ?_
    by_cases hd : s.Used d
    · rw [hs.view hd, sameName_eq_iff (h.lfname d hd), Option.map_some, Option.some_inj]
      exact ⟨fun hx => hx.2.symm, fun hx => ⟨hd, hx.symm⟩⟩
    · rw [hs.view_none hd]
      simp [hd]
  have hfree : (fun d => decide ((s.lfltab d).lfstate = .LF_FREE)) =
      fun d => (F.opened d).isNone := by
    funext d
    by_cases hd : s.Used d
    · rw [hs.view hd, hd]
      rfl
    · rw [hs.view_none hd]
      cases hstate : (s.lfltab d).lfstate with
      | LF_FREE => rfl
      | LF_USED => exact absurd hstate hd
  rw [lfsopenSearch, hfree]
  exact if_congr hopen rfl rfl

/-- **The search of the directory.** -/
theorem found (h : LfsInv A s c) : lfsopenFind s.Lf_data.lf_dir name = some e ↔
    s.Lf_data.Born e ∧ c.name e = name := by
  have hiff : ∀ i, s.Lf_data.Born i →
      (sameName name.1 (chars (s.Lf_data.lf_dir.lfd_files i).ld_name) = true ↔ name = c.name i) :=
    fun i hi => sameName_eq_iff (h.named i hi)
  rw [lfsopenFind]
  constructor
  · intro hfind
    have he := List.find?_some hfind
    rw [decide_eq_true_iff] at he
    exact ⟨he.1, ((hiff e he.1).mp he.2).symm⟩
  · rintro ⟨hborn, hname⟩
    cases hfind : (List.finRange LF_NUM_DIR_ENT).find? fun i : Fin LF_NUM_DIR_ENT => decide
        ((i : Int) < s.Lf_data.lf_dir.lfd_nfiles ∧
          sameName name.1 (chars (s.Lf_data.lf_dir.lfd_files i).ld_name) = true) with
    | none =>
      have hno := List.find?_eq_none.mp hfind e (List.mem_finRange e)
      rw [decide_eq_true_iff] at hno
      exact absurd ⟨hborn, (hiff e hborn).mpr hname.symm⟩ hno
    | some i =>
      have hi := List.find?_some hfind
      rw [decide_eq_true_iff] at hi
      rw [h.distinct i e hi.1 hborn (((hiff i hi.1).mp hi.2).symm.trans hname.symm)]

theorem not_found (h : LfsInv A s c) (hs : ShowsFiles F s c) :
    lfsopenFind s.Lf_data.lf_dir name = none ↔ name ∉ F.names := by
  rw [hs.names]
  constructor
  · rintro hnone ⟨e, he⟩
    rw [(found h).mpr he] at hnone
    cases hnone
  · intro hno
    cases hfind : lfsopenFind s.Lf_data.lf_dir name with
    | none => rfl
    | some e => exact absurd ⟨e, (found h).mp hfind⟩ hno

/-- The directory is full when there are as many files as entries. -/
theorem card_names (h : LfsInv A s c) (hs : ShowsFiles F s c) :
    (F.names.card : Int) = s.Lf_data.lf_dir.lfd_nfiles := by
  have h0 := h.dir.nfiles.1
  have h1 : s.Lf_data.lf_dir.lfd_nfiles ≤ 20 := h.dir.nfiles.2
  rw [hs.names_eq, Finset.card_image_of_injOn h.name_injOn, Lfdata.born]
  have hcard : ∀ k : Nat, k ≤ LF_NUM_DIR_ENT →
      (Finset.univ.filter fun e : Fin LF_NUM_DIR_ENT => (e : Int) < (k : Int)).card = k := by
    decide
  have hle : s.Lf_data.lf_dir.lfd_nfiles.toNat ≤ 20 := by omega
  have hk := hcard s.Lf_data.lf_dir.lfd_nfiles.toNat hle
  rw [Int.toNat_of_nonneg h0] at hk
  omega

/-! ## 2. A file is opened

A control block without copies shows what is on the disk, so that nothing else changes. -/

/-- **A file that is not open gets a pseudo-device.** -/
theorem LfsInv.claim (h : LfsInv A s c) (hd : ¬ s.Used d) (hborn : s.Lf_data.Born e)
    (hname : c.name e = name) (hshort : name.1.length < LF_NAME_LEN)
    (hclosed : ∀ d', s.Used d' → s.entryOf d' ≠ e) :
    LfsInv A (s.put s.Lf_data d (lfsopenBlock (s.lfltab d) e name mbits)) c := by
  set s' := s.put s.Lf_data d (lfsopenBlock (s.lfltab d) e name mbits) with hs'
  have hself : s'.lfltab d = lfsopenBlock (s.lfltab d) e name mbits := Lfs.put_self
  have hother : ∀ d' ≠ d, s'.lfltab d' = s.lfltab d' := fun d' hd' => Lfs.put_of_ne hd'
  have hused : ∀ d' ≠ d, s'.Used d' → s.Used d' := fun d' hd' hu => by
    rw [Lfs.Used, hother d' hd'] at hu
    exact hu
  have hptr : s'.entryOf d = e := by
    rw [Lfs.entryOf, hself]
    rfl
  have hstored := h.closed e hclosed
  refine ⟨h.present, h.good, h.dir, h.accepted, h.ishare, h.dshare, h.tight, h.free, h.size,
    h.ilist, h.named, h.distinct, h.unborn, fun d' hd' => ?_, fun e' he' => ?_, fun d' hd' => ?_,
    fun d' hd' => ?_, fun d₁ d₂ h₁ h₂ heq => ?_, h.saved, h.rest,
    fun _ => ⟨d, by rw [Lfs.Used, hself]; rfl⟩⟩
  · by_cases hdd : d' = d
    · rw [hdd, hptr, hself]
      exact hstored.cached rfl rfl (.inl ⟨rfl, rfl⟩) (.inl ⟨rfl, rfl⟩) (Nat.zero_le _) (.inl rfl)
    · have hold := hused d' hdd hd'
      rw [Lfs.entryOf, hother d' hdd]
      exact h.opened d' hold
  · refine h.closed e' fun d' hd' => ?_
    have hdd : d' ≠ d := by
      rintro rfl
      exact hd hd'
    have hno := he' d' (by rw [Lfs.Used, hother d' hdd]; exact hd')
    rw [Lfs.entryOf, hother d' hdd] at hno
    exact hno
  · by_cases hdd : d' = d
    · rw [hdd, hptr]
      exact hborn
    · have hold := hused d' hdd hd'
      rw [Lfs.entryOf, hother d' hdd]
      exact h.inside d' hold
  · by_cases hdd : d' = d
    · rw [hdd, hptr, hself, hname]
      exact sameName_lfCopyName hshort _
    · have hold := hused d' hdd hd'
      rw [Lfs.entryOf, hother d' hdd]
      exact h.lfname d' hold
  · by_cases hd₁ : d₁ = d
    · by_cases hd₂ : d₂ = d
      · rw [hd₁, hd₂]
      · rw [hd₁, hptr, Lfs.entryOf, hother d₂ hd₂] at heq
        exact absurd heq.symm (hclosed d₂ (hused d₂ hd₂ h₂))
    · by_cases hd₂ : d₂ = d
      · rw [hd₂, hptr, Lfs.entryOf, hother d₁ hd₁] at heq
        exact absurd heq (hclosed d₁ (hused d₁ hd₁ h₁))
      · rw [Lfs.entryOf, Lfs.entryOf, hother d₁ hd₁, hother d₂ hd₂] at heq
        exact h.apart d₁ d₂ (hused d₁ hd₁ h₁) (hused d₂ hd₂ h₂) heq

/-- What is seen of it. -/
theorem ShowsFiles.claim (hs : ShowsFiles F s c) (hname : c.name e = name) :
    ShowsFiles (F.seekTo d name 0) (s.put s.Lf_data d (lfsopenBlock (s.lfltab d) e name mbits))
    c where
  dev d' := by
    by_cases hd : d' = d
    · rw [hd, Lfs.put_self]
      exact hs.dev d
    · rw [Lfs.put_of_ne hd]
      exact hs.dev d'
  names := hs.names
  content := hs.content
  absent := hs.absent
  opened d' := by
    show Function.update F.opened d (some (name, 0)) d' = _
    by_cases hd : d' = d
    · rw [hd, Function.update_self, if_pos (Lfs.used_put_self.mpr rfl), Lfs.entryOf_put_self,
        Lfs.put_self, ← hname]
      rfl
    · have hold : (s.put s.Lf_data d (lfsopenBlock (s.lfltab d) e name mbits)).lfltab d' =
          s.lfltab d' := Lfs.put_of_ne hd
      rw [Function.update_of_ne hd, hs.opened d']
      simp only [Lfs.Used, Lfs.entryOf, hold]

/-! ## 3. A file is created

The directory in memory has a further entry and the disk is as it was, which the invariant allows
for a file that is empty. -/

/-- The directory with a new file. -/
def Lfdata.create (v : Lfdata) (e : Fin LF_NUM_DIR_ENT) (name : Str) : Lfdata :=
  ({ v with lf_dir.lfd_nfiles := v.lf_dir.lfd_nfiles + 1 } : Lfdata).setEntry e
    { ld_size := 0, ld_ilist := LF_INULL, ld_name := lfCopyName name.1 (v.entry e).ld_name }

theorem Lfdata.entry_create (v : Lfdata) (e : Fin LF_NUM_DIR_ENT) (name : Str) :
    (v.create e name).entry e =
      { ld_size := 0, ld_ilist := LF_INULL, ld_name := lfCopyName name.1 (v.entry e).ld_name } :=
  Lfdata.entry_setEntry ..

theorem Lfdata.entry_create_of_ne {v : Lfdata} {e e' : Fin LF_NUM_DIR_ENT} (h : e' ≠ e) :
    (v.create e name).entry e' = v.entry e' := Lfdata.entry_setEntry_of_ne h

/-- The new entry follows the others. -/
theorem Lfdata.born_create {v : Lfdata} (he : v.lf_dir.lfd_nfiles = e) {e' : Fin LF_NUM_DIR_ENT} :
    (v.create e name).Born e' ↔ v.Born e' ∨ e' = e := by
  show (e' : Int) < v.lf_dir.lfd_nfiles + 1 ↔ (e' : Int) < v.lf_dir.lfd_nfiles ∨ e' = e
  rw [Fin.ext_iff]
  omega

/-- What `lfscheck` looks at. -/
theorem lfscheck_congr {dir dir' : Lfdir} (h : lfscheck dir = OK)
    (hid : dir'.lfd_fsysid = dir.lfd_fsysid) (hzeros : dir'.lfd_allzeros = dir.lfd_allzeros)
    (hones : dir'.lfd_allones = dir.lfd_allones) (hrev : dir'.lfd_revid = dir.lfd_revid)
    (h0 : 0 ≤ dir'.lfd_nfiles) : lfscheck dir' = OK := by
  have hne : ¬ SYSERR = OK := by decide
  rw [lfscheck] at h
  rw [lfscheck, hid, hzeros, hones, hrev]
  split_ifs at h with h1 h2 h3
  · exact absurd h hne
  · exact absurd h hne
  · exact absurd h hne
  · rw [if_neg h1, if_neg h2, if_neg (not_lt.mpr h0)]

/-- A new file lags behind on the disk, but it is empty. -/
theorem saved_create {v : Lfdata} (h : v.Saved) (he : v.lf_dir.lfd_nfiles = e) :
    (v.create e name).Saved := by
  rcases h with hdirty | hlags
  · exact .inl hdirty
  refine .inr ⟨hlags.header, hlags.nonneg, ?_, fun e' he' => ?_, fun e' hge hlt => ?_⟩
  · show v.lf_dskdev.dir.lfd_nfiles ≤ v.lf_dir.lfd_nfiles + 1
    have hle := hlags.nfiles
    omega
  · have hne : e' ≠ e := by
      rintro rfl
      have hle := hlags.nfiles
      have he' : (e' : Int) < v.lf_dskdev.dir.lfd_nfiles := he'
      omega
    exact (Lfdata.entry_create_of_ne hne).trans (hlags.files e' he')
  · by_cases hne : e' = e
    · rw [hne]
      have hentry := v.entry_create e name
      exact ⟨congrArg Ldentry.ld_size hentry, congrArg Ldentry.ld_ilist hentry⟩
    · have hborn' : (v.create e name).Born e' := hlt
      have hborn := (Lfdata.born_create he).mp hborn'
      have hentry : (v.create e name).entry e' = v.entry e' := Lfdata.entry_create_of_ne hne
      have hfresh := hlags.fresh e' hge (hborn.resolve_right hne)
      exact ⟨(congrArg Ldentry.ld_size hentry).trans hfresh.1,
        (congrArg Ldentry.ld_ilist hentry).trans hfresh.2⟩

/-- **A new file** has the next entry and no blocks. -/
theorem LfsInv.create (h : LfsInv A s c) (he : s.Lf_data.lf_dir.lfd_nfiles = e)
    (hnew : ∀ e', s.Lf_data.Born e' → c.name e' ≠ name) (hshort : name.1.length < LF_NAME_LEN) :
    LfsInv A { s with Lf_data := s.Lf_data.create e name }
      { c with name := Function.update c.name e name } := by
  have hnot : ¬ s.Lf_data.Born e := by
    show ¬ (e : Int) < s.Lf_data.lf_dir.lfd_nfiles
    omega
  have hempty := h.unborn e hnot
  have hborn : ∀ e', (s.Lf_data.create e name).Born e' ↔ s.Lf_data.Born e' ∨ e' = e :=
    fun _ => Lfdata.born_create he
  have hne : ∀ e', s.Lf_data.Born e' → e' ≠ e := by
    rintro e' he' rfl
    exact hnot he'
  have hchain : (c.map e).chain = [] := by
    have hlen := (h.tight e).2
    rw [hempty] at hlen
    exact List.length_eq_zero_iff.mp hlen
  have hname : ∀ e', s.Lf_data.Born e' → Function.update c.name e name e' = c.name e' :=
    fun e' he' => Function.update_of_ne (hne e' he') ..
  refine ⟨h.present, h.good, ?_, ?_, h.ishare, h.dshare, h.tight,
    ⟨h.free.iwalk, h.free.dwalk⟩, fun e' he' => ?_, fun e' he' => ?_, fun e' he' => ?_,
    fun e₁ e₂ h₁ h₂ heq => ?_, fun e' he' => ?_, h.opened, h.closed, fun d hd => ?_, fun d hd => ?_,
    h.apart, saved_create h.saved he, h.rest, h.dirty⟩
  · have hnull : -2147483648 ≤ LF_INULL ∧ LF_INULL < 2147483648 := by decide
    have hlt : (e : Nat) < 20 := e.isLt
    refine Lfdir.Fits.setEntry ?_ ⟨Nat.zero_lt_succ _, hnull⟩
    refine ⟨h.dir.fsysid, h.dir.vers, h.dir.allzeros, h.dir.allones, h.dir.dfree, h.dir.ifree, ?_,
      h.dir.files, h.dir.revid⟩
    show 0 ≤ s.Lf_data.lf_dir.lfd_nfiles + 1 ∧ s.Lf_data.lf_dir.lfd_nfiles + 1 ≤ 20
    omega
  · refine lfscheck_congr h.accepted rfl rfl rfl rfl ?_
    show 0 ≤ s.Lf_data.lf_dir.lfd_nfiles + 1
    omega
  · rcases (hborn e').mp he' with hold | rfl
    · exact (congrArg Ldentry.ld_size (Lfdata.entry_create_of_ne (hne e' hold))).trans
        (h.size e' hold)
    · exact (congrArg Ldentry.ld_size (s.Lf_data.entry_create e' name)).trans (by rw [hempty]; rfl)
  · rcases (hborn e').mp he' with hold | rfl
    · exact (congrArg Ldentry.ld_ilist (Lfdata.entry_create_of_ne (hne e' hold))).trans
        (h.ilist e' hold)
    · exact (congrArg Ldentry.ld_ilist (s.Lf_data.entry_create e' name)).trans (by rw [hchain]; rfl)
  · show sameName (Function.update c.name e name e').1
      (chars ((s.Lf_data.create e name).entry e').ld_name) = true
    rcases (hborn e').mp he' with hold | rfl
    · rw [hname e' hold, Lfdata.entry_create_of_ne (hne e' hold)]
      exact h.named e' hold
    · rw [Function.update_self, Lfdata.entry_create]
      exact sameName_lfCopyName hshort _
  · have heq : Function.update c.name e name e₁ = Function.update c.name e name e₂ := heq
    rcases (hborn e₁).mp h₁ with hold₁ | rfl
    · rw [hname e₁ hold₁] at heq
      rcases (hborn e₂).mp h₂ with hold₂ | rfl
      · rw [hname e₂ hold₂] at heq
        exact h.distinct e₁ e₂ hold₁ hold₂ heq
      · rw [Function.update_self] at heq
        exact absurd heq (hnew e₁ hold₁)
    · rw [Function.update_self] at heq
      rcases (hborn e₂).mp h₂ with hold₂ | rfl
      · rw [hname e₂ hold₂] at heq
        exact absurd heq.symm (hnew e₂ hold₂)
      · rfl
  · exact h.unborn e' fun hold => he' ((hborn e').mpr (.inl hold))
  · exact (hborn _).mpr (.inl (h.inside d hd))
  · show sameName (Function.update c.name e name (s.entryOf d)).1 (chars (s.lfltab d).lfname) = true
    rw [hname _ (h.inside d hd)]
    exact h.lfname d hd

/-- What is seen of it. -/
theorem ShowsFiles.create (hs : ShowsFiles F s c) (h : LfsInv A s c)
    (he : s.Lf_data.lf_dir.lfd_nfiles = e) (hnew : name ∉ F.names) :
    ShowsFiles { F with names := insert name F.names } { s with Lf_data := s.Lf_data.create e name }
      { c with name := Function.update c.name e name } := by
  have hnot : ¬ s.Lf_data.Born e := by
    show ¬ (e : Int) < s.Lf_data.lf_dir.lfd_nfiles
    omega
  have hborn : ∀ e', (s.Lf_data.create e name).Born e' ↔ s.Lf_data.Born e' ∨ e' = e :=
    fun _ => Lfdata.born_create he
  have hne : ∀ e', s.Lf_data.Born e' → e' ≠ e := by
    rintro e' he' rfl
    exact hnot he'
  have hname : ∀ e', s.Lf_data.Born e' → Function.update c.name e name e' = c.name e' :=
    fun e' he' => Function.update_of_ne (hne e' he') ..
  refine ⟨hs.dev, fun n => ?_, fun e' he' => ?_, fun n hn => ?_, fun d => ?_⟩
  · rw [Finset.mem_insert, hs.names]
    constructor
    · rintro (rfl | ⟨e', he', rfl⟩)
      · exact ⟨e, (hborn e).mpr (.inr rfl), Function.update_self ..⟩
      · exact ⟨e', (hborn e').mpr (.inl he'), hname e' he'⟩
    · rintro ⟨e', he', rfl⟩
      rcases (hborn e').mp he' with hold | rfl
      · exact .inr ⟨e', hold, (hname e' hold).symm⟩
      · exact .inl (Function.update_self ..)
  · show F.content (Function.update c.name e name e') = c.file e'
    rcases (hborn e').mp he' with hold | rfl
    · rw [hname e' hold]
      exact hs.content e' hold
    · rw [Function.update_self, hs.absent name hnew, h.unborn e' hnot]
  · exact hs.absent n fun hold => hn (Finset.mem_insert_of_mem hold)
  · have hview := hs.opened d
    by_cases hd : s.Used d
    · rw [if_pos hd] at hview
      refine hview.trans ?_
      show some (c.name (s.entryOf d), _) =
        if s.Used d then some (Function.update c.name e name (s.entryOf d), _) else none
      rw [if_pos hd, hname _ (h.inside d hd)]
    · rw [if_neg hd] at hview
      exact hview.trans (if_neg hd).symm

end Xinu
