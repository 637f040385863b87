/-
# Formatting a disk (`lfscreate.c`)

`lfscreate` clears the directory with `memset` and never sets the fields by which `lfscheck`
recognizes a file system: `lfd_fsysid`, `lfd_allones` and `lfd_revid`.  So whenever it gets past
its argument check and its first write, the disk it leaves is rejected (`lfscreate_ok_iff`).

For very small disks the count of data blocks wraps around and the last loop goes through all
32-bit numbers, sector 0 among them.  What it writes there is the head of a free block, which is no
file system either; `Unmarked` covers both.
-/
import Xinu.Lfs
import Xinu.Lib.Chains

namespace Xinu

open Layouts Chains

/-! ## 1. The function -/

/-- `dsiz / LF_BLKSIZ`, the sectors of the disk. -/
def sectors (dsiz : Nat) : Nat := dsiz / LF_BLKSIZ

/-- The sectors that comprise index blocks, in `uint32` arithmetic. -/
def ibsectors (lfiblks : Int) : Nat := ((lfiblks + 6) % 4294967296).toNat / 7

/-- The arguments the function refuses. -/
def invalid (lfiblks : Int) (dsiz : Nat) : Prop := ibsectors lfiblks > sectors dsiz / 2

instance (lfiblks : Int) (dsiz : Nat) : Decidable (invalid lfiblks dsiz) :=
  inferInstanceAs (Decidable (_ > _))

/-- The initial directory. -/
def initialDir (lfiblks : Int) : Lfdir :=
  { Layout.lfdir.get fun _ => 0 with
    lfd_nfiles := 0, lfd_dfree := int32 (ibsectors lfiblks + 1) }

/-- The list of free index blocks, from number `i` on; `n` are still to be linked to the next. -/
def lfscreateIblocks : Nat → Disk → Nat → Disk
  | 0, disk, i => (lfibput disk i { lfibclear 0 with ib_next := LF_INULL }).2
  | n + 1, disk, i =>
    lfscreateIblocks n (lfibput disk i { lfibclear 0 with ib_next := i + 1 }).2 (i + 1)

/-- The list of free data blocks, from number `dbindex` on. -/
def lfscreateDblocks : Nat → Disk → Int → Disk
  | 0, disk, dbindex => (disk.write (setNextdb (fun _ => 0) LF_DNULL) dbindex).2
  | n + 1, disk, dbindex =>
    lfscreateDblocks n (disk.write (setNextdb (fun _ => 0) (int32 (dbindex + 1))) dbindex).2
      (int32 (dbindex + 1))

/-- How often the last loop runs: `dblks - 1`, in `uint32` arithmetic. -/
def dblocksToLink (lfiblks : Int) (dsiz : Nat) : Nat :=
  (((sectors dsiz : Int) - ibsectors lfiblks - 2) % 4294967296).toNat

/-- `lfscreate.c`. -/
def lfscreate (disk : Disk) (lfiblks : Int) (dsiz : Nat) : Int × Disk :=
  if invalid lfiblks dsiz then (SYSERR, disk)
  else
    let w := disk.write (Layout.lfdir.put (initialDir lfiblks)) LF_AREA_DIR
    if w.1 = SYSERR then (SYSERR, w.2)
    else
      let disk' := lfscreateIblocks (ibsectors lfiblks * 7 - 1) w.2 0
      (OK, lfscreateDblocks (dblocksToLink lfiblks dsiz) disk' (int32 (ibsectors lfiblks + 1)))

/-! ## 2. What it is for -/

/-- The directory of a disk. -/
def Disk.dir (k : Disk) : Lfdir := Layout.lfdir.get (k.sector LF_AREA_DIR)

/-- The link of a free data block. -/
def Disk.nextdb (k : Disk) (b : Int) : Int := lf_nextdb (k.sector b)

/-- An empty file system over `n` index blocks in `ibs` sectors, on a disk of `total` sectors. -/
structure EmptyFs (k : Disk) (n ibs total : Nat) : Prop where
  accepted : lfscheck k.dir = OK
  iblocks : Walk (fun i => (lfibget k i).ib_next) k.dir.lfd_ifree
    ((List.range n).map fun i => (i : Int)) LF_INULL
  dblocks : Walk k.nextdb k.dir.lfd_dfree
    ((List.range' (ibs + 1) (total - (ibs + 1))).map fun i => (i : Int)) LF_DNULL
  disjoint : ∀ i < n, ∀ b ∈ List.range' (ibs + 1) (total - (ibs + 1)), ib2sect i ≠ b

/-- What is wanted of `lfscreate`: it refuses, or it stays on the disk and leaves an empty file
system. -/
def CreateOk (k : Disk) (lfiblks : Int) (dsiz : Nat) : Prop :=
  (lfscreate k lfiblks dsiz).1 = SYSERR ∨
    (∀ b, ¬ (0 ≤ b ∧ b < sectors dsiz) → (lfscreate k lfiblks dsiz).2.sector b = k.sector b) ∧
    EmptyFs (lfscreate k lfiblks dsiz).2 (ibsectors lfiblks * 7) (ibsectors lfiblks)
      (sectors dsiz)

/-! ## 3. Sector 0 -/

/-- Sector 0 does not begin with the identification of a file system. -/
def Unmarked (k : Disk) : Prop := Layouts.Layout.word.get (k.sector LF_AREA_DIR) ≠ LFS_ID

theorem Unmarked.check {k : Disk} (h : Unmarked k) : lfscheck k.dir = SYSERR :=
  if_pos (Or.inl h)

/-- The first word of a free block is its link. -/
theorem word_setNextdb (b : Bytes) {x : Int} :
    (Layouts.Layout.word.get (setNextdb b x) : Int) = x % 4294967296 := by
  have hput : Layouts.Layout.word.get (setNextdb b x) =
      Layouts.Layout.word.get (Layouts.Layout.word.put (x % 4294967296).toNat) := by
    refine Layouts.Layout.word.get_congr _ _ fun i hi => ?_
    exact if_pos ⟨Nat.zero_le i, (Nat.zero_add Layouts.Layout.signed.size).symm ▸ hi⟩
  rw [hput, Layouts.Layout.word.get_put _ (show (x % 4294967296).toNat < _ by omega)]
  omega

theorem Unmarked.write_apart {k : Disk} (h : Unmarked k) {b : Int} (hb : b ≠ LF_AREA_DIR)
    (buff : Bytes) : Unmarked (k.write buff b).2 := by
  rwa [Unmarked, Disk.write_of_ne (Ne.symm hb)]

theorem Unmarked.write {k : Disk} (h : Unmarked k) {buff : Bytes} (b : Int)
    (hb : Layouts.Layout.word.get buff ≠ LFS_ID) : Unmarked (k.write buff b).2 := by
  by_cases hdir : b = LF_AREA_DIR
  · cases hbad : k.bad b with
    | true => rwa [Disk.write_of_bad hbad]
    | false =>
      rw [Unmarked, ← hdir, Disk.write_self hbad]
      exact hb
  · exact h.write_apart hdir buff

/-- Index blocks are in sectors behind the directory. -/
theorem Unmarked.lfibput {k : Disk} (h : Unmarked k) (i : Nat) (ib : Lfiblk) :
    Unmarked (lfibput k i ib).2 := by
  have hsect : ib2sect i ≠ LF_AREA_DIR := by
    have hdiv : (0 : Int) ≤ (i : Int).tdiv 7 := Int.tdiv_nonneg (by omega) (by omega)
    show (i : Int).tdiv 7 + 1 ≠ 0
    omega
  unfold Xinu.lfibput
  dsimp only
  split_ifs
  · exact h
  · exact h.write_apart hsect _

theorem Unmarked.lfscreateIblocks {k : Disk} (h : Unmarked k) (n i : Nat) :
    Unmarked (lfscreateIblocks n k i) := by
  induction n generalizing k i with
  | zero => exact h.lfibput i _
  | succ n ih => exact ih (h.lfibput i _) (i + 1)

/-- A free block whose link is the block after sector 0, or none, is no directory. -/
theorem Unmarked.lfscreateDblocks {k : Disk} (h : Unmarked k) (n : Nat) (b : Int) :
    Unmarked (lfscreateDblocks n k b) := by
  induction n generalizing k b with
  | zero =>
    refine h.write b ?_
    have hw := word_setNextdb (fun _ => 0) (x := LF_DNULL)
    intro hid
    rw [hid] at hw
    exact absurd hw (by decide)
  | succ n ih =>
    refine ih ?_ _
    by_cases hdir : b = LF_AREA_DIR
    · have hw := word_setNextdb (fun _ => 0) (x := int32 (b + 1))
      rw [hdir] at hw ⊢
      refine h.write _ fun hid => ?_
      rw [hid] at hw
      exact absurd hw (by decide)
    · exact h.write_apart hdir _

/-! ## 4. The result -/

/-- **A disk that `lfscreate` has formatted is not accepted**, unless it refused to format it. -/
theorem lfscheck_lfscreate {k : Disk} {lfiblks : Int} {dsiz : Nat}
    (hargs : ¬ invalid lfiblks dsiz) (hdir : k.bad LF_AREA_DIR = false) :
    (lfscreate k lfiblks dsiz).1 = OK ∧ lfscheck (lfscreate k lfiblks dsiz).2.dir = SYSERR := by
  have hret : (k.write (Layout.lfdir.put (initialDir lfiblks)) LF_AREA_DIR).1 = OK := by
    rw [Disk.write, if_neg (by rw [hdir]; decide)]
  have hfirst : Unmarked (k.write (Layout.lfdir.put (initialDir lfiblks)) LF_AREA_DIR).2 := by
    rw [Unmarked, Disk.write_self hdir]
    have hid : (initialDir lfiblks).lfd_fsysid = 0 := rfl
    have hget : Layouts.Layout.word.get (Layout.lfdir.put (initialDir lfiblks)) =
        (initialDir lfiblks).lfd_fsysid := by
      refine (Layouts.Layout.word.get_congr _ _ fun i hi => if_pos hi).trans ?_
      exact Layouts.Layout.word.get_put _
        (show (initialDir lfiblks).lfd_fsysid < 4294967296 by omega)
    rw [hget, hid]
    decide
  rw [lfscreate, if_neg hargs]
  dsimp only
  rw [if_neg (by rw [hret]; decide)]
  exact ⟨rfl, ((hfirst.lfscreateIblocks _ _).lfscreateDblocks _ _).check⟩

/-- **When formatting does what is wanted**: exactly when the function refuses, because the index
area would take more than half of the disk or because the directory cannot be written. -/
theorem lfscreate_ok_iff (k : Disk) (lfiblks : Int) (dsiz : Nat) :
    CreateOk k lfiblks dsiz ↔ invalid lfiblks dsiz ∨ k.bad LF_AREA_DIR = true := by
  constructor
  · intro hok
    by_contra hc
    rw [not_or, Bool.not_eq_true] at hc
    obtain ⟨hret, hcheck⟩ := lfscheck_lfscreate hc.1 hc.2
    rcases hok with h | ⟨-, h⟩
    · rw [hret] at h
      exact absurd h (by decide)
    · rw [h.accepted] at hcheck
      exact absurd hcheck (by decide)
  · rintro (h | h)
    · left
      rw [lfscreate, if_pos h]
    · left
      rw [lfscreate]
      split_ifs
      · rfl
      · dsimp only
        rw [Disk.write_of_bad h, if_pos rfl]

/-- A disk of ten sectors that is formatted with seven index blocks is not accepted. -/
theorem lfscreate_not_ok : ¬ CreateOk ⟨fun _ _ => 0, fun _ => false⟩ 7 5120 := by
  rintro (h | ⟨-, h⟩)
  · exact absurd h (by decide +kernel)
  · exact absurd h.accepted (by decide +kernel)

end Xinu
