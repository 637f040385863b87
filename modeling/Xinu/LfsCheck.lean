/-
# What `lfscheck` leaves unchecked (`lfscheck.c`, `lfsopen.c`, `lfsckfmt.c`)

`lfscheck` looks at the identification of a file system and at the sign of the file count.
`lfsopen` then searches as many directory entries as the count says, and `lfsckfmt` follows the
two free lists as far as their links go.  On a disk that is accepted the search stays in the
directory and the walks end exactly when the count is no more than the directory's entries, and
neither list comes back to a block (`dirSafe_iff`).
-/
import Xinu.LfsFormat
import Xinu.LfsOpen

namespace Xinu

open Layouts Chains

/-! ## 1. The entries that `lfsopen` uses

The search is written a second time as the list of the entries that it looks at, so that it can be
said that one of them is outside of the directory.  `past` stands for the bytes behind the array. -/

/-- What `lfsopen` finds as entry `i` of a directory; behind the array stands `past`. -/
def dirEntry (dirptr : Lfdir) (past : Nat → Ldentry) (i : Nat) : Ldentry :=
  if h : i < LF_NUM_DIR_ENT then dirptr.lfd_files ⟨i, h⟩ else past i

/-- The search from entry `i` on, with `n` entries left below the file count: the entries it looks
at, and the one that has the name. -/
def lfsopenLoop (ldptr : Nat → Ldentry) (name : Str) : Nat → Nat → List Int × Option Nat
  | 0, _ => ([], none)
  | n + 1, i =>
    if sameName name.1 (chars (ldptr i).ld_name) then ([(i : Int)], some i)
    else
      let r := lfsopenLoop ldptr name n (i + 1)
      (i :: r.1, r.2)

/-- The entries that `lfsopen` uses once it has the directory. -/
def lfsopenUses (dirptr : Lfdir) (past : Nat → Ldentry) (name : Str) (mbits : Nat) : List Int :=
  let r := lfsopenLoop (dirEntry dirptr past) name dirptr.lfd_nfiles.toNat 0
  match r.2 with
  | some _ => r.1
  | none =>
    if mbits &&& LF_MODE_O ≠ 0 then r.1
    else if dirptr.lfd_nfiles ≥ LF_NUM_DIR_ENT then r.1
    -- the entry of the new file
    else r.1 ++ [dirptr.lfd_nfiles]

/-- The entries that a call of `lfsopen` uses. -/
def lfsopenEntries (s : Lfs) (past : Nat → Ldentry) (name mode : Str) : List Int :=
  if name.1.length ≥ LF_NAME_LEN then []
  else match lfgetmode mode with
  | none => []
  | some mbits => match lfsopenSearch s.lfltab name with
    | none => []
    | some _ =>
      let v := lfsopenDir s.Lf_data
      if v.1 = SYSERR then [] else lfsopenUses v.2.lf_dir past name mbits

/-- A number of a directory entry. -/
def InDirectory (i : Int) : Prop := 0 ≤ i ∧ i < LF_NUM_DIR_ENT

variable {ldptr : Nat → Ldentry} {past : Nat → Ldentry} {name : Str} {mbits : Nat} {d : Lfdir}

theorem mem_lfsopenLoop {n i : Nat} {j : Int} : j ∈ (lfsopenLoop ldptr name n i).1 ↔
    i ≤ j ∧ j < i + n ∧
      ∀ m : Nat, i ≤ m → (m : Int) < j → ¬ sameName name.1 (chars (ldptr m).ld_name) := by
  induction n generalizing i with
  | zero =>
    simp only [lfsopenLoop, List.not_mem_nil, false_iff]
    omega
  | succ n ih =>
    rw [lfsopenLoop]
    split_ifs with h
    · rw [List.mem_singleton]
      constructor
      · rintro rfl
        exact ⟨le_refl _, by omega, fun m h1 h2 => by omega⟩
      · rintro ⟨h1, -, h2⟩
        by_contra hne
        exact h2 i (le_refl i) (by omega) h
    · rw [List.mem_cons, ih]
      constructor
      · rintro (rfl | ⟨h1, h2, h3⟩)
        · exact ⟨le_refl _, by omega, fun m h1 h2 => by omega⟩
        · refine ⟨by omega, by omega, fun m hm hmj => ?_⟩
          rcases Nat.eq_or_lt_of_le hm with rfl | hm
          · exact h
          · exact h3 m hm hmj
      · rintro ⟨h1, h2, h3⟩
        rcases eq_or_lt_of_le h1 with rfl | hlt
        · exact .inl rfl
        · exact .inr ⟨by omega, by omega, fun m hm hmj => h3 m (by omega) hmj⟩

/-- With a file count in the directory's range the search stays there. -/
theorem uses_inDirectory (h0 : 0 ≤ d.lfd_nfiles) (h : d.lfd_nfiles ≤ LF_NUM_DIR_ENT) {i : Int}
    (hi : i ∈ lfsopenUses d past name mbits) : InDirectory i := by
  have hloop : ∀ j ∈ (lfsopenLoop (dirEntry d past) name d.lfd_nfiles.toNat 0).1,
      InDirectory j := by
    intro j hj
    obtain ⟨h1, h2, -⟩ := mem_lfsopenLoop.mp hj
    exact ⟨by omega, by omega⟩
  unfold lfsopenUses at hi
  dsimp only at hi
  split at hi
  · exact hloop i hi
  · split_ifs at hi with h1 h2
    · exact hloop i hi
    · exact hloop i hi
    · rcases List.mem_append.mp hi with hi | hi
      · exact hloop i hi
      · rw [List.mem_singleton.mp hi]
        exact ⟨h0, not_le.mp h2⟩

theorem mem_uses_of_loop {i : Int}
    (hi : i ∈ (lfsopenLoop (dirEntry d past) name d.lfd_nfiles.toNat 0).1) :
    i ∈ lfsopenUses d past name mbits := by
  unfold lfsopenUses
  dsimp only
  split
  · exact hi
  · split_ifs
    · exact hi
    · exact hi
    · exact List.mem_append_left _ hi

theorem find_eq_none : lfsopenFind d name = none ↔ ∀ i : Fin LF_NUM_DIR_ENT,
    (i : Int) < d.lfd_nfiles → ¬ sameName name.1 (chars (d.lfd_files i).ld_name) := by
  rw [lfsopenFind, List.find?_eq_none]
  simp

/-- **The search leaves the directory** exactly when the count is too large and no entry has the
name. -/
theorem uses_outside_iff (h0 : 0 ≤ d.lfd_nfiles) :
    (∃ i ∈ lfsopenUses d past name mbits, ¬ InDirectory i) ↔ overrun d name := by
  constructor
  · rintro ⟨i, hi, hout⟩
    by_contra hin
    by_cases hbig : d.lfd_nfiles ≤ LF_NUM_DIR_ENT
    · exact hout (uses_inDirectory h0 hbig hi)
    · -- a file with the name is found in the array, and the search ends there
      have hsome : ¬ lfsopenFind d name = none := fun h => hin ⟨not_le.mp hbig, h⟩
      rw [find_eq_none] at hsome
      push Not at hsome
      obtain ⟨e, -, hname⟩ := hsome
      have hentry : sameName name.1 (chars (dirEntry d past e).ld_name) = true := by
        rw [dirEntry, dif_pos e.isLt]
        exact hname
      have hloop : i ∈ (lfsopenLoop (dirEntry d past) name d.lfd_nfiles.toNat 0).1 := by
        unfold lfsopenUses at hi
        dsimp only at hi
        split at hi
        · exact hi
        · split_ifs at hi with h1 h2
          · exact hi
          · exact hi
          · exact absurd h2 (by omega)
      obtain ⟨h1, h2, h3⟩ := mem_lfsopenLoop.mp hloop
      refine h3 e (Nat.zero_le _) ?_ hentry
      have he := e.isLt
      rw [InDirectory] at hout
      omega
  · rintro ⟨hbig, hnone⟩
    refine ⟨LF_NUM_DIR_ENT, mem_uses_of_loop (mem_lfsopenLoop.mpr ⟨by omega, by omega, ?_⟩),
      fun h => absurd h.2 (by omega)⟩
    intro m _ hm
    have hlt : m < LF_NUM_DIR_ENT := by exact_mod_cast hm
    rw [dirEntry, dif_pos hlt]
    exact find_eq_none.mp hnone ⟨m, hlt⟩ (by simp only; omega)

/-- **The model of `lfsopen` gives up exactly there.** -/
theorem lfsopen_eq_none_iff {s : Lfs} {mode : Str}
    (h0 : 0 ≤ (lfsopenDir s.Lf_data).2.lf_dir.lfd_nfiles) :
    lfsopen s name mode = none ↔ ∃ i ∈ lfsopenEntries s past name mode, ¬ InDirectory i := by
  unfold lfsopen lfsopenEntries
  split_ifs with hlen
  · simp
  · cases hm : lfgetmode mode with
    | none => simp
    | some mbits =>
      dsimp only
      rw [lfsopenWith]
      cases hs : lfsopenSearch s.lfltab name with
      | none => simp
      | some lfnext =>
        dsimp only
        by_cases hv : (lfsopenDir s.Lf_data).1 = SYSERR
        · simp [hv]
        · rw [if_neg hv, if_neg hv, uses_outside_iff h0]
          split_ifs with ho <;> simp [ho]

/-! ## 2. `lfsckfmt.c`

The walks along the two free lists have a fuel.  `none` is a panic, or a walk that used up its
fuel. -/

/-- What the function prints. -/
structure CkReport where
  lfiblks : Int
  ibsectors : Nat
  dblks : Nat

/-- An index block with such a number is looked for in front of the buffer that holds its sector. -/
def inFront (ib : Int) : Prop := ib.tmod 7 < 0

instance : DecidablePred inFront := fun _ => inferInstanceAs (Decidable (_ < _))

/-- The link of an index block; `stray` stands in front of the buffer at each of the reads. -/
def ckIbnext (disk : Disk) (stray : Nat → Int) (j : Nat) (nextib : Int) : Int :=
  if inFront nextib then int32 (stray j) else (lfibget disk nextib).ib_next

/-- `lfsckfmt.c`, with as much fuel for each of its walks; `none` is also a panic. -/
def lfsckfmt (disk : Disk) (stray : Nat → Int) (fuel : Nat) : Option CkReport :=
  let buff := disk.read LF_AREA_DIR
  let dir := Layout.lfdir.get buff.2
  if buff.1 = SYSERR then none
  else if lfscheck dir = SYSERR then none
  else
    (follow (ckIbnext disk stray) LF_INULL fuel 0 dir.lfd_ifree).bind fun lfiblks =>
      (follow (fun _ => disk.nextdb) LF_DNULL fuel 0 dir.lfd_dfree).map fun dblks =>
        { lfiblks := int32 lfiblks
          ibsectors := ((int32 (int32 lfiblks + 6)).tdiv 7 % 4294967296).toNat
          dblks := dblks % 4294967296 }

theorem int32_mem (x : Int) : int32 x ∈ Finset.Icc (-2147483648 : Int) 2147483647 := by
  rw [Finset.mem_Icc]
  have h1 := Int.le_bmod (x := x) (m := 4294967296) (by decide)
  have h2 := Int.bmod_lt (x := x) (m := 4294967296) (by decide)
  unfold int32
  omega

theorem int32_of_mem {x : Int} (h : x ∈ Finset.Icc (-2147483648 : Int) 2147483647) :
    int32 x = x := by
  rw [Finset.mem_Icc] at h
  exact int32_eq h.1 h.2

theorem signed_mem (m : Bytes) :
    Layouts.Layout.signed.get m ∈ Finset.Icc (-2147483648 : Int) 2147483647 := by
  have hlt := Layouts.Layout.value_lt m
  have hget : Layouts.Layout.signed.get m = if Layouts.Layout.value m < 2147483648 then
      (Layouts.Layout.value m : Int) else (Layouts.Layout.value m : Int) - 4294967296 := rfl
  rw [hget, Finset.mem_Icc]
  split_ifs <;> omega

/-! ## 3. When an accepted disk is safe

The two halves are apart.  A count that is too large is only harmful for a name that no entry has,
and such a name exists because there are more names than entries.  A walk ends when no block comes
twice, and otherwise no fuel is enough. -/

/-- **What is wanted of a disk that `lfscheck` accepts**: no `lfsopen` that finds its directory
uses an entry outside of it, and the walks of `lfsckfmt` end. -/
def DirSafe (k : Disk) : Prop :=
  (∀ s past name mode, s.Lf_data.lf_dskdev = k →
    (s.Lf_data.lf_dirpresent = true → s.Lf_data.lf_dir = k.dir) →
    ∀ i ∈ lfsopenEntries s past name mode, InDirectory i) ∧
  ∀ stray, ∃ fuel, lfsckfmt k stray fuel ≠ none

/-- A free list that comes back to no block. -/
def IblocksOnward (k : Disk) : Prop :=
  Onward (fun ib => (lfibget k ib).ib_next) k.dir.lfd_ifree LF_INULL ∧
    ∀ ib, Passes (fun ib => (lfibget k ib).ib_next) k.dir.lfd_ifree LF_INULL ib → ¬ inFront ib

def DblocksOnward (k : Disk) : Prop := Onward k.nextdb k.dir.lfd_dfree LF_DNULL

variable {k : Disk}

theorem read_dir (hread : k.bad LF_AREA_DIR = false) : (k.read LF_AREA_DIR).1 = OK := by
  rw [Disk.read, hread]
  rfl

/-- Having the directory of the disk in memory. -/
theorem lfsopenDir_dir {v : Lfdata} (hread : k.bad LF_AREA_DIR = false)
    (haccepted : lfscheck k.dir = OK) (hk : v.lf_dskdev = k)
    (hp : v.lf_dirpresent = true → v.lf_dir = k.dir) :
    (lfsopenDir v).1 = OK ∧ (lfsopenDir v).2.lf_dir = k.dir := by
  rw [lfsopenDir]
  split_ifs with h
  · exact ⟨rfl, hp h⟩
  · have hr := read_dir hread
    have hd : Layout.lfdir.get (v.lf_dskdev.read LF_AREA_DIR).2 = k.dir := by
      rw [hk]
      rfl
    dsimp only
    rw [hd, hk, if_neg (by rw [hr]; decide), if_neg (by rw [haccepted]; decide)]
    exact ⟨rfl, rfl⟩

theorem nfiles_nonneg (haccepted : lfscheck d = OK) : 0 ≤ d.lfd_nfiles := by
  by_contra h
  rw [lfscheck] at haccepted
  split_ifs at haccepted with h1 h2 h3
  · exact absurd haccepted (by decide)
  · exact absurd haccepted (by decide)
  · exact absurd haccepted (by decide)
  · exact h3 (not_le.mp h)

/-- The names of one character from a range of 21. -/
def shortName (i : Fin 21) : Str := ⟨[UInt8.ofNat (i + 1)], by
  rw [List.mem_singleton]
  revert i
  decide⟩

theorem shortName_injective : Function.Injective shortName := by
  decide

/-- Some name is in no entry. -/
theorem exists_unknown (d : Lfdir) : ∃ name : Str, name.1.length < LF_NAME_LEN ∧
    lfsopenFind d name = none := by
  by_contra hall
  push Not at hall
  have hfound : ∀ i : Fin 21, ∃ e, lfsopenFind d (shortName i) = some e := fun i =>
    Option.ne_none_iff_exists'.mp (hall (shortName i) (by simp [shortName]))
  choose e he using hfound
  obtain ⟨i, j, hij, heq⟩ := Fintype.exists_ne_map_eq_of_card_lt e (by simp)
  have hname : ∀ i, sameName (shortName i).1 (chars (d.lfd_files (e i)).ld_name) = true := by
    intro i
    have hsat := List.find?_some (he i)
    simp only [decide_eq_true_eq] at hsat
    exact hsat.2
  exact hij (shortName_injective (sameName_unique (hname i) (heq ▸ hname j)))

theorem lfsckfmt_eq (hread : k.bad LF_AREA_DIR = false) (haccepted : lfscheck k.dir = OK)
    (stray : Nat → Int) (fuel : Nat) : lfsckfmt k stray fuel =
      (follow (ckIbnext k stray) LF_INULL fuel 0 k.dir.lfd_ifree).bind fun lfiblks =>
        (follow (fun _ => k.nextdb) LF_DNULL fuel 0 k.dir.lfd_dfree).map fun dblks =>
          { lfiblks := int32 lfiblks
            ibsectors := ((int32 (int32 lfiblks + 6)).tdiv 7 % 4294967296).toNat
            dblks := dblks % 4294967296 } := by
  have hdir : Layout.lfdir.get (k.read LF_AREA_DIR).2 = k.dir := rfl
  rw [lfsckfmt, read_dir hread, hdir, haccepted]
  rfl

/-- The function ends when both of its walks do. -/
theorem lfsckfmt_ends_iff (hread : k.bad LF_AREA_DIR = false) (haccepted : lfscheck k.dir = OK) :
    (∀ stray, ∃ fuel, lfsckfmt k stray fuel ≠ none) ↔
      (∀ stray, ∃ fuel, follow (ckIbnext k stray) LF_INULL fuel 0 k.dir.lfd_ifree ≠ none) ∧
        ∃ fuel, follow (fun _ => k.nextdb) LF_DNULL fuel 0 k.dir.lfd_dfree ≠ none := by
  simp only [lfsckfmt_eq hread haccepted]
  constructor
  · intro hends
    constructor
    · intro stray
      obtain ⟨fuel, h⟩ := hends stray
      exact ⟨fuel, fun hnone => h (by rw [hnone, Option.bind_none])⟩
    · obtain ⟨fuel, h⟩ := hends fun _ => 0
      refine ⟨fuel, fun hnone => h ?_⟩
      rw [hnone]
      exact Option.bind_fun_none _
  · rintro ⟨h1, fuel₂, h2⟩ stray
    obtain ⟨fuel₁, h1⟩ := h1 stray
    obtain ⟨n₁, h1⟩ := Option.ne_none_iff_exists'.mp h1
    obtain ⟨n₂, h2⟩ := Option.ne_none_iff_exists'.mp h2
    refine ⟨fuel₁ + fuel₂, ?_⟩
    rw [follow_more h1, Nat.add_comm fuel₁, follow_more h2]
    exact Option.some_ne_none _

theorem iblocks_iff (k : Disk) :
    (∀ stray, ∃ fuel, follow (ckIbnext k stray) LF_INULL fuel 0 k.dir.lfd_ifree ≠ none) ↔
      IblocksOnward k := by
  have hiff := @follow_always_iff _ (fun ib => (lfibget k ib).ib_next) k.dir.lfd_ifree LF_INULL _
    (Finset.Icc (-2147483648) 2147483647) inFront _ (signed_mem _) fun _ => signed_mem _
  rw [IblocksOnward, ← hiff]
  constructor
  · intro hends stray hin
    obtain ⟨fuel, h⟩ := hends stray
    refine ⟨fuel, ?_⟩
    have hget : ckIbnext k stray = fun j x => if inFront x then stray j else
        (lfibget k x).ib_next := by
      funext j x
      rw [ckIbnext, int32_of_mem (hin j)]
    rwa [← hget]
  · intro hends stray
    exact hends (fun j => int32 (stray j)) fun _ => int32_mem _

theorem dblocks_iff (k : Disk) :
    (∃ fuel, follow (fun _ => k.nextdb) LF_DNULL fuel 0 k.dir.lfd_dfree ≠ none) ↔
      DblocksOnward k := by
  have hiff := @follow_always_iff _ k.nextdb k.dir.lfd_dfree LF_DNULL _
    (Finset.Icc (-2147483648) 2147483647) (fun _ => False) _ (signed_mem _) fun _ => signed_mem _
  simp only [if_false, not_false_eq_true, implies_true, and_true] at hiff
  rw [DblocksOnward, ← hiff]
  constructor
  · exact fun h _ _ => h
  · exact fun h => h (fun _ => 0) fun _ => by simp

/-- The first open after the boot, with an empty mode string. -/
theorem lfsopen_boot (hread : k.bad LF_AREA_DIR = false) (haccepted : lfscheck k.dir = OK)
    (hlen : name.1.length < LF_NAME_LEN) (h : overrun k.dir name) :
    lfsopen (Lfs.boot k fun _ => 0) name ⟨[], by simp⟩ = none := by
  set s := Lfs.boot k fun _ => 0 with hs
  have hmode : lfgetmode ⟨[], by simp⟩ = some LF_MODE_RW := rfl
  -- every pseudo-device is free
  have hsearch : lfsopenSearch s.lfltab name = some 0 := by
    rw [lfsopenSearch, if_neg fun ⟨_, hd, _⟩ => nomatch hd]
    rfl
  obtain ⟨h1, h2⟩ := lfsopenDir_dir (v := s.Lf_data) hread haccepted rfl Bool.noConfusion
  rw [lfsopen, if_neg (not_le.mpr hlen), hmode]
  dsimp only
  rw [lfsopenWith, hsearch]
  dsimp only
  rw [if_neg (by rw [h1]; decide), if_pos (by rw [h2]; exact h)]

/-- **When an accepted disk is safe**: its file count is no more than the directory has entries,
and following each free list leads to no block twice, and to no index block with a number below
zero that is not the first in its sector. -/
theorem dirSafe_iff (k : Disk) (hread : k.bad LF_AREA_DIR = false)
    (haccepted : lfscheck k.dir = OK) :
    DirSafe k ↔
      k.dir.lfd_nfiles ≤ LF_NUM_DIR_ENT ∧ IblocksOnward k ∧ DblocksOnward k := by
  have h0 := nfiles_nonneg haccepted
  rw [DirSafe]
  refine and_congr ⟨fun hall => ?_, fun hcount s past name mode hk hp i hi => ?_⟩
    ((lfsckfmt_ends_iff hread haccepted).trans (and_congr (iblocks_iff k) (dblocks_iff k)))
  · by_contra hbig
    obtain ⟨name, hlen, hnone⟩ := exists_unknown k.dir
    obtain ⟨-, h2⟩ := lfsopenDir_dir (v := (Lfs.boot k fun _ => 0).Lf_data) hread haccepted rfl
      Bool.noConfusion
    obtain ⟨i, hi, hout⟩ := (@lfsopen_eq_none_iff (fun _ => k.dir.lfd_files 0) _ _ _
      (by rw [h2]; exact h0)).mp (lfsopen_boot hread haccepted hlen ⟨not_le.mp hbig, hnone⟩)
    exact hout (hall _ _ _ _ rfl Bool.noConfusion i hi)
  · unfold lfsopenEntries at hi
    split at hi
    · exact absurd hi (by simp)
    · split at hi
      · exact absurd hi (by simp)
      · split at hi
        · exact absurd hi (by simp)
        · obtain ⟨h1, h2⟩ := lfsopenDir_dir hread haccepted hk hp
          dsimp only at hi
          rw [if_neg (by rw [h1]; decide), h2] at hi
          exact uses_inDirectory h0 hcount hi

/-- The empty file system is safe. -/
theorem dirSafe_emptyDir : DirSafe emptyDirDisk := by
  have haccepted : lfscheck emptyDirDisk.dir = OK := by decide +kernel
  have hcount : emptyDirDisk.dir.lfd_nfiles = 0 := by decide +kernel
  have hifree : emptyDirDisk.dir.lfd_ifree = LF_INULL := by decide +kernel
  have hdfree : emptyDirDisk.dir.lfd_dfree = LF_DNULL := by decide +kernel
  refine (dirSafe_iff emptyDirDisk rfl haccepted).mpr ⟨by rw [hcount]; decide, ⟨?_, ?_⟩, ?_⟩
  · rw [hifree]
    exact onward_self
  · rw [hifree]
    exact fun _ h => absurd h not_passes_self
  · rw [DblocksOnward, hdfree]
    exact onward_self

/-- A disk whose directory claims 21 files, and whose first free index block is followed by
itself. -/
def overfullDisk : Disk where
  sector b :=
    if b = LF_AREA_DIR then Layout.lfdir.put
      { emptyDirDisk.dir with lfd_nfiles := 21, lfd_ifree := 0 }
    else fun _ => 0
  bad _ := false

/-- **It is accepted**, an open looks at entry 20, and the check of its format goes on for ever. -/
theorem overfullDisk_not_safe : lfscheck overfullDisk.dir = OK ∧
    20 ∈ lfsopenEntries (Lfs.boot overfullDisk fun _ => 0) (fun _ => ⟨0, 0, fun _ => 0⟩) nameA
      modeRw ∧
    ∀ fuel, lfsckfmt overfullDisk (fun _ => 0) fuel = none := by
  have haccepted : lfscheck overfullDisk.dir = OK := by decide +kernel
  have hifree : overfullDisk.dir.lfd_ifree = 0 := by decide +kernel
  refine ⟨haccepted, by decide +kernel, fun fuel => ?_⟩
  have hlink : (lfibget overfullDisk 0).ib_next = 0 := by decide +kernel
  have hself : ∀ j, ckIbnext overfullDisk (fun _ => 0) j 0 = 0 := fun j => by
    rw [ckIbnext, if_neg (by decide), hlink]
  rw [lfsckfmt_eq rfl haccepted, hifree, follow_stuck (by decide) hself, Option.bind_none]

end Xinu
