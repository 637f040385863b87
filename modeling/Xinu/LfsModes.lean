/-
# Access modes of the local file system

`lfsopen` records the mode bits of an open file in `lfmode`, and no operation looks at them: bytes
are written through a file opened for reading and read through one opened for writing.  A mode
string is respected exactly when it grants both (`mode_respected_iff`).

The runs that show it start at the boot on a freshly formatted disk of ten sectors.
-/
import Xinu.Lfs
import Xinu.Lib.Runs

namespace Xinu

open Layouts Runs

/-! ## 1. What a mode promises -/

/-- The operation is one on the open file `d`. -/
def LfsOp.On (d : Fin Nlfl) : LfsOp → Prop
  | .open _ _ => False
  | .close _ => False
  | .getc d' => d' = d
  | .putc d' _ => d' = d
  | .read d' _ => d' = d
  | .write d' _ _ => d' = d
  | .seek d' _ => d' = d
  | .control d' _ => d' = d

/-- A sequence of operations, with all the data it yields. -/
def Lfs.calls (s : Lfs) : List LfsOp → Option (List UInt8 × Lfs)
  | [] => some ([], s)
  | op :: ops => (s.call op).bind fun (_, data, s') =>
    (s'.calls ops).map fun (rest, s'') => (data ++ rest, s'')

/-- What reading an open file from its start to its end yields. -/
def Lfs.contents (s : Lfs) (d : Fin Nlfl) : Option (List UInt8) :=
  (lflread (lflseek s d 0).2 d (s.Lf_data.entry (s.lfltab d).lfdirptr).ld_size).map fun r => r.2.1

/-- In the state `s`, the open of a file with the given mode string succeeds on `d` and leads to
`s₀`. -/
structure Opens (s : Lfs) (name mode : Str) (d : Fin Nlfl) (s₀ : Lfs) : Prop where
  chosen : lfsopenSearch s.lfltab name = some d
  called : ∃ r, lfsopen s name mode = some (r, s₀)
  used : (s₀.lfltab d).lfstate = .LF_USED

/-- **A mode string is respected**: whatever is done through a file opened with it, after any
operations since the boot on any disk, the file is not changed without write permission, and yields
no data without read permission. -/
def Respected (mode : Str) : Prop :=
  ∀ k dev s name d s₀ mbits ops data s₁, Reaches Lfs.step always (Lfs.boot k dev) s →
    lfgetmode mode = some mbits → Opens s name mode d s₀ → (∀ op ∈ ops, LfsOp.On d op) →
    s₀.calls ops = some (data, s₁) →
    (mbits &&& LF_MODE_W = 0 → s₁.contents d = s₀.contents d) ∧
    (mbits &&& LF_MODE_R = 0 → data = [])

/-! ## 2. The mode bits -/

/-- The loop's updates keep the bits below 12, so that `LF_MODE_O` and `LF_MODE_N` are not both
set. -/
theorem mode_or_lt : ∀ m < 12, m ||| LF_MODE_R < 12 ∧ m ||| LF_MODE_W < 12 ∧
    (¬ (m &&& LF_MODE_O ≠ 0 ∨ m &&& LF_MODE_N ≠ 0) →
      m ||| LF_MODE_O < 12 ∧ m ||| LF_MODE_N < 12) := by
  decide

theorem lfgetmodeLoop_lt {mode : List UInt8} {m mbits : Nat} (hm : m < 12)
    (h : lfgetmodeLoop mode m = some mbits) : mbits < 12 := by
  induction mode generalizing m with
  | nil =>
    obtain rfl : m = mbits := by simpa [lfgetmodeLoop] using h
    exact hm
  | cons ch mode ih =>
    obtain ⟨hR, hW, hON⟩ := mode_or_lt m hm
    rw [lfgetmodeLoop] at h
    split_ifs at h with _ _ _ _ _ ho _ hn
    · exact ih hR h
    · exact ih hW h
    · exact ih (hON ho).1 h
    · exact ih (hON hn).2 h

/-- A mode that does not grant both reading and writing grants one of them, and asks for a new
file, for an old one, or for neither. -/
theorem lfgetmode_cases {mode : Str} {mbits : Nat} (h : lfgetmode mode = some mbits)
    (hrw : mbits &&& LF_MODE_RW ≠ LF_MODE_RW) :
    mbits = 1 ∨ mbits = 2 ∨ mbits = 5 ∨ mbits = 6 ∨ mbits = 9 ∨ mbits = 10 := by
  obtain ⟨m, hm, rfl⟩ := Option.map_eq_some_iff.mp h
  have hlt := lfgetmodeLoop_lt (by decide) hm
  have hall : ∀ m < 12, ∀ b, b = (if m &&& LF_MODE_RW = 0 then m ||| LF_MODE_RW else m) →
      b &&& LF_MODE_RW ≠ LF_MODE_RW → b = 1 ∨ b = 2 ∨ b = 5 ∨ b = 6 ∨ b = 9 ∨ b = 10 := by
    simp only [forall_eq]
    decide
  exact hall m hlt _ rfl hrw

/-! ## 3. Runs on a fresh disk -/

/-- The directory of an empty file system. -/
def freshDir : Lfdir :=
  { lfd_fsysid := LFS_ID, lfd_vers := 0, lfd_allzeros := 0, lfd_allones := 0xffffffff
    lfd_dfree := 2, lfd_ifree := 0, lfd_nfiles := 0
    lfd_files := fun _ => { ld_size := 0, ld_ilist := LF_INULL, ld_name := fun _ => 0 }
    lfd_revid := 0x756E6958 }

/-- A disk of ten sectors: the directory, seven free index blocks in sector 1, and the free data
blocks 2 to 9. -/
def freshDisk : Disk where
  sector b :=
    if b = 0 then Layout.lfdir.put freshDir
    else if b = 1 then fun i => Layout.lfiblk.put
      { lfibclear 0 with ib_next := if i / 72 < 6 then i / 72 + 1 else LF_INULL } (i % 72)
    else setNextdb (fun _ => 0) (if b < 9 then b + 1 else LF_DNULL)
  bad _ := false

def freshLfs : Lfs := Lfs.boot freshDisk fun d => 7 + d

/-- The file `"a"`. -/
def fileA : Str := ⟨[97], by decide⟩

/-- What is seen of an open and the operations through it: the pseudo-device and its state, what
the file held before and after, and the data. -/
structure Trial where
  chosen : Option (Fin Nlfl)
  state : Lfstate
  before : Option (List UInt8)
  after : Option (List UInt8)
  data : List UInt8
  deriving DecidableEq

/-- After the operations `prep`, open the file `"a"` and do `ops` through it. -/
def trial (prep : List LfsOp) (mbits : Nat) (ops : List LfsOp) : Option Trial :=
  (exec Lfs.step always freshLfs prep).bind fun s =>
    (lfsopenWith s fileA mbits).bind fun x =>
      (x.2.calls ops).map fun y =>
        ⟨lfsopenSearch s.lfltab fileA, (x.2.lfltab 0).lfstate, x.2.contents 0, y.2.contents 0, y.1⟩

/-- What a respected mode says about a trial. -/
theorem Respected.trial {mode : Str} (h : Respected mode) {mbits : Nat}
    (hm : lfgetmode mode = some mbits) {prep ops : List LfsOp} {c₀ c₁ : Option (List UInt8)}
    {data : List UInt8} (hops : ∀ op ∈ ops, LfsOp.On 0 op)
    (ht : trial prep mbits ops = some ⟨some 0, .LF_USED, c₀, c₁, data⟩) :
    (mbits &&& LF_MODE_W = 0 → c₁ = c₀) ∧ (mbits &&& LF_MODE_R = 0 → data = []) := by
  obtain ⟨s, hs, ht⟩ := Option.bind_eq_some_iff.mp ht
  obtain ⟨⟨r, s₀⟩, hopen, ht⟩ := Option.bind_eq_some_iff.mp ht
  obtain ⟨⟨data', s₁⟩, hcalls, ht⟩ := Option.map_eq_some_iff.mp ht
  simp only [Trial.mk.injEq] at ht
  obtain ⟨hfind, hused, rfl, rfl, rfl⟩ := ht
  have hcalled : lfsopen s fileA mode = some (r, s₀) := by
    rw [lfsopen, if_neg (by decide), hm]
    exact hopen
  exact h freshDisk (fun d => 7 + d) s fileA 0 s₀ mbits ops data' s₁ (reaches_of_exec hs) hm
    ⟨hfind, ⟨r, hcalled⟩, hused⟩ hops hcalls

/-- Write a byte through a file opened for reading. -/
def writing : List LfsOp := [.putc 0 98]

/-- Read the file's first byte through a file opened for writing, after writing one. -/
def reading : List LfsOp := [.putc 0 98, .seek 0 0, .getc 0]

/-- Create the file and close it. -/
def creation : List LfsOp := [.open fileA ∅, .putc 0 120, .close 0]

theorem trial_writing : ∀ mbits ∈ [1, 5],
    trial [] mbits writing = some ⟨some 0, .LF_USED, some [], some [98], []⟩ := by
  decide +kernel

theorem trial_reading : ∀ mbits ∈ [2, 6],
    trial [] mbits reading = some ⟨some 0, .LF_USED, some [], some [98], [98]⟩ := by
  decide +kernel

theorem trial_writing_old :
    trial creation 9 writing = some ⟨some 0, .LF_USED, some [120], some [98], []⟩ := by
  decide +kernel

theorem trial_reading_old :
    trial creation 10 reading = some ⟨some 0, .LF_USED, some [120], some [98], [98]⟩ := by
  decide +kernel

/-! ## 4. The result -/

/-- **Which modes are respected**: those that the parser refuses and those that grant both reading
and writing. -/
theorem mode_respected_iff (mode : Str) :
    Respected mode ↔ ∀ mbits, lfgetmode mode = some mbits → mbits &&& LF_MODE_RW = LF_MODE_RW := by
  constructor
  · intro h mbits hm
    by_contra hrw
    have hw : ∀ op ∈ writing, LfsOp.On 0 op := by simp [writing, LfsOp.On]
    have hr : ∀ op ∈ reading, LfsOp.On 0 op := by simp [reading, LfsOp.On]
    rcases lfgetmode_cases hm hrw with rfl | rfl | rfl | rfl | rfl | rfl
    · exact absurd ((h.trial hm hw (trial_writing 1 (by decide))).1 (by decide)) (by decide)
    · exact absurd ((h.trial hm hr (trial_reading 2 (by decide))).2 (by decide)) (by decide)
    · exact absurd ((h.trial hm hw (trial_writing 5 (by decide))).1 (by decide)) (by decide)
    · exact absurd ((h.trial hm hr (trial_reading 6 (by decide))).2 (by decide)) (by decide)
    · exact absurd ((h.trial hm hw trial_writing_old).1 (by decide)) (by decide)
    · exact absurd ((h.trial hm hr trial_reading_old).2 (by decide)) (by decide)
  · intro h k dev s name d s₀ mbits ops data s₁ _ hm _ _ _
    have hrw := h mbits hm
    constructor
    · intro hw
      have hand : mbits &&& LF_MODE_RW &&& LF_MODE_W = 0 := by
        rw [Nat.and_assoc]
        exact hw
      rw [hrw] at hand
      exact absurd hand (by decide)
    · intro hr
      have hand : mbits &&& LF_MODE_RW &&& LF_MODE_R = 0 := by
        rw [Nat.and_assoc]
        exact hr
      rw [hrw] at hand
      exact absurd hand (by decide)

/-- A file opened with the mode string `"r"` is written to. -/
theorem mode_r_not_respected : ¬ Respected ⟨[114], by decide⟩ := by
  intro h
  have hops : ∀ op ∈ writing, LfsOp.On 0 op := by simp [writing, LfsOp.On]
  have hm : lfgetmode ⟨[114], by decide⟩ = some 1 := by decide
  have hw := (h.trial hm hops (trial_writing 1 (by decide))).1 (by decide)
  exact absurd hw (by decide)

end Xinu
