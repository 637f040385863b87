/-
# The local file system refines its files

`ShowsFiles` relates the files to a state with the directory in memory, and `Represents` to any
state.  Each operation agrees with the one on the files: it returns the same, or it panics because
the files afterwards would not find room on the disk (`Agrees`, `call_agrees`).

The blocks, the copies in memory and the free lists are below: what is used of them here is one
lemma for each operation on one open file (`LfsBytes`, `LfsTruncate`) and the census of all blocks
(`LfsInv`).  Here they become operations on named lists of bytes.  A panic is an answer too: it is
allowed when the files that the operation asks for would need more blocks than the disk has.
-/
import Xinu.LfsInv

namespace Xinu

open Layouts Chains BlockedArray Shares

/-! ## 1. The relation

A file is seen with its name, its content and, if it is open, its position.  How many blocks the
files need is a function of their lengths, and the blocks of the disk are those of the files and
the free ones, so files that are there fit. -/

/-- What is seen of a state with the directory in memory. -/
structure ShowsFiles (F : Files) (s : Lfs) (c : Census) : Prop where
  dev : ∀ d, (s.lfltab d).lfdev = F.dev d
  names : ∀ n, n ∈ F.names ↔ ∃ e, s.Lf_data.Born e ∧ c.name e = n
  content : ∀ e, s.Lf_data.Born e → F.content (c.name e) = c.file e
  absent : ∀ n ∉ F.names, F.content n = []
  opened : ∀ d, F.opened d =
    if s.Used d then some (c.name (s.entryOf d), (s.lfltab d).lfpos) else none

/-- The state with the directory read, if it was not. -/
def Lfs.loaded (s : Lfs) : Lfs := { s with Lf_data := (lfsopenDir s.Lf_data).2 }

/-- The state stands for the files. -/
structure Represents (A : Area) (F : Files) (s : Lfs) : Prop where
  present : ∀ d, s.Used d → s.Lf_data.lf_dirpresent = true
  shown : ∃ c, LfsInv A s.loaded c ∧ ShowsFiles F s.loaded c

/-- The operation returns what it should and leaves the files it should, or it panics and the disk
could not have held them. -/
def Agrees (A : Area) (out : Option (Int × List UInt8 × Lfs)) (spec : Int × List UInt8 × Files) :
    Prop :=
  (∃ s', out = some (spec.1, spec.2.1, s') ∧ Represents A spec.2.2 s') ∨
    out = none ∧ ¬ spec.2.2.Fits A

variable {A : Area} {F : Files} {s : Lfs} {c : Census} {d d' : Fin Nlfl} {n : Str}

theorem Lfs.loaded_of_present (h : s.Lf_data.lf_dirpresent = true) : s.loaded = s := by
  rw [Lfs.loaded, lfsopenDir, if_pos h]

theorem LfsInv.represents (h : LfsInv A s c) (hs : ShowsFiles F s c) : Represents A F s where
  present _ _ := h.present
  shown := by
    rw [Lfs.loaded_of_present h.present]
    exact ⟨c, h, hs⟩

/-- The entries of files. -/
def Lfdata.born (v : Lfdata) : Finset (Fin LF_NUM_DIR_ENT) :=
  Finset.univ.filter fun e => (e : Int) < v.lf_dir.lfd_nfiles

theorem Lfdata.mem_born {v : Lfdata} {e : Fin LF_NUM_DIR_ENT} : e ∈ v.born ↔ v.Born e := by
  rw [Lfdata.born, Finset.mem_filter]
  exact ⟨fun h => h.2, fun h => ⟨Finset.mem_univ e, h⟩⟩

theorem ShowsFiles.names_eq (hs : ShowsFiles F s c) : F.names = s.Lf_data.born.image c.name := by
  ext n
  rw [hs.names, Finset.mem_image]
  simp only [Lfdata.mem_born]

theorem LfsInv.name_injOn (h : LfsInv A s c) : Set.InjOn c.name s.Lf_data.born :=
  fun e he e' he' heq => h.distinct e e' (Lfdata.mem_born.mp he) (Lfdata.mem_born.mp he') heq

/-- A sum over the files is one over their entries. -/
theorem ShowsFiles.sum (hs : ShowsFiles F s c) (h : LfsInv A s c) (w : Str → Nat) :
    ∑ n ∈ F.names, w n = ∑ e ∈ s.Lf_data.born, w (c.name e) := by
  rw [hs.names_eq, Finset.sum_image h.name_injOn]

/-- What entries without a file have does not count. -/
theorem LfsInv.sum_born (h : LfsInv A s c) {f : Nat → Nat} (hf : f 0 = 0) :
    ∑ e ∈ s.Lf_data.born, f (c.file e).length = ∑ e, f (c.file e).length := by
  refine Finset.sum_subset (Finset.subset_univ _) fun e _ he => ?_
  rw [h.unborn e (mt Lfdata.mem_born.mpr he)]
  exact hf

/-- All index blocks are counted. -/
theorem LfsInv.icard (h : LfsInv A s c) :
    ∑ e, niblocks (c.file e).length + c.ifree.length = A.iblocks := by
  have hcard := h.ishare.card
  have hsum : ∑ e, niblocks (c.file e).length = ∑ e, (c.map e).chain.length :=
    Finset.sum_congr rfl fun e _ => (h.tight e).2.symm
  rw [Multiset.coe_card, Area.istock, List.length_map, List.length_range] at hcard
  rw [hsum]
  exact hcard

/-- All data blocks are counted. -/
theorem LfsInv.dcard (h : LfsInv A s c) :
    ∑ e, nblocks (c.file e).length + c.dfree.length = A.total - A.first := by
  have hcard := h.dshare.card
  have hsum : ∑ e, nblocks (c.file e).length = ∑ e, (c.map e).blocks.length :=
    Finset.sum_congr rfl fun e _ => (h.tight e).1.symm
  rw [Multiset.coe_card, Area.dstock, List.length_map, List.length_range'] at hcard
  rw [hsum]
  exact hcard

/-- The sum over the files that are shown. -/
theorem ShowsFiles.sum_content (hs : ShowsFiles F s c) (h : LfsInv A s c)
    {f : Nat → Nat} (hf : f 0 = 0) :
    ∑ n ∈ F.names, f (F.content n).length = ∑ e, f (c.file e).length := by
  rw [hs.sum h, ← h.sum_born hf]
  exact Finset.sum_congr rfl fun e he => by rw [hs.content e (Lfdata.mem_born.mp he)]

/-- **The files of a state find room on its disk.** -/
theorem ShowsFiles.fits (hs : ShowsFiles F s c) (h : LfsInv A s c) : F.Fits A := by
  have h1 := h.icard
  have h2 := h.dcard
  rw [Files.Fits, hs.sum_content h (f := niblocks) rfl, hs.sum_content h (f := nblocks) rfl]
  omega

theorem Represents.fits (h : Represents A F s) : F.Fits A := by
  obtain ⟨c, hinv, hs⟩ := h.shown
  exact hs.fits hinv

/-! ## 2. An open file

What an operation does through one open file is one function on its view, and all other files are
seen as before. -/

/-- **The view of an open file.** -/
theorem ShowsFiles.view (hs : ShowsFiles F s c) (hd : s.Used d) :
    F.opened d = some (c.name (s.entryOf d), (s.lfltab d).lfpos) := by
  rw [hs.opened, if_pos hd]

theorem ShowsFiles.view_none (hs : ShowsFiles F s c) (hd : ¬ s.Used d) : F.opened d = none := by
  rw [hs.opened, if_neg hd]

theorem Census.set_self (c : Census) (e : Fin LF_NUM_DIR_ENT) :
    c.set e (c.map e) (c.file e) c.ifree c.dfree = c := by
  rw [Census.set, Function.update_eq_self, Function.update_eq_self]

theorem Files.setContent_self (F : Files) (n : Str) : F.setContent n (F.content n) = F := by
  rw [Files.setContent, Function.update_eq_self]

/-- **What is seen behind an operation on an open file.** -/
theorem ShowsFiles.put (hs : ShowsFiles F s c) (h : LfsInv A s c) (hd : s.Used d)
    (p' : Lflcblk) (F' : FileMap) (file' : List UInt8) (ifree' dfree' : List Int)
    (hframe : FileFrame A (s.entryOf d) C B s.Lf_data v') (hstate : p'.lfstate = .LF_USED)
    (hptr : p'.lfdirptr = s.entryOf d) (hdev : p'.lfdev = (s.lfltab d).lfdev) :
    ShowsFiles
      ((F.setContent (c.name (s.entryOf d)) file').seekTo d (c.name (s.entryOf d)) p'.lfpos)
      (s.put v' d p') (c.set (s.entryOf d) F' file' ifree' dfree') where
  dev d' := by
    by_cases hd' : d' = d
    · rw [hd', Lfs.put_self, hdev]
      exact hs.dev d
    · rw [Lfs.put_of_ne hd']
      exact hs.dev d'
  names m := by
    show m ∈ F.names ↔ ∃ e, v'.Born e ∧ c.name e = m
    simp only [hframe.born]
    exact hs.names m
  content e he := by
    have he := hframe.born.mp he
    show Function.update F.content (c.name (s.entryOf d)) file' (c.name e) = _
    by_cases hed : e = s.entryOf d
    · rw [hed, Function.update_self, Census.file_set]
    · rw [Function.update_of_ne fun heq => hed (h.distinct e _ he (h.inside d hd) heq),
        Census.file_set_of_ne hed]
      exact hs.content e he
  absent m hm := by
    have hne : m ≠ c.name (s.entryOf d) := by
      rintro rfl
      exact hm ((hs.names _).mpr ⟨_, h.inside d hd, rfl⟩)
    show Function.update F.content (c.name (s.entryOf d)) file' m = []
    rw [Function.update_of_ne hne]
    exact hs.absent m hm
  opened d' := by
    show Function.update F.opened d (some (c.name (s.entryOf d), p'.lfpos)) d' = _
    by_cases hd' : d' = d
    · rw [hd', Function.update_self]
      rw [if_pos (Lfs.used_put_self.mpr hstate), Lfs.entryOf_put_self, Lfs.put_self, hptr]
      rfl
    · have hold : (s.put v' d p').lfltab d' = s.lfltab d' := Lfs.put_of_ne hd'
      rw [Function.update_of_ne hd', hs.opened d']
      simp only [Lfs.Used, Lfs.entryOf, hold]
      rfl

/-! ## 3. Reading

Reading moves the position only.  `lflread` is a loop over `lflgetc`, and stops at the end of the
file. -/

/-- A state with the directory in memory that stands for the files. -/
def Shown (A : Area) (F : Files) (s : Lfs) : Prop := ∃ c, LfsInv A s c ∧ ShowsFiles F s c

theorem Shown.represents (h : Shown A F s) : Represents A F s := by
  obtain ⟨c, hinv, hs⟩ := h
  exact hinv.represents hs

theorem Represents.shown_of_used (h : Represents A F s) (hd : s.Used d) : Shown A F s := by
  have hshown := h.shown
  rw [Lfs.loaded_of_present (h.present d hd)] at hshown
  exact hshown

/-- An open file is seen. -/
theorem ShowsFiles.of_opened {n : Str} {pos : Nat} (hs : ShowsFiles F s c)
    (hd : F.opened d = some (n, pos)) :
    s.Used d ∧ n = c.name (s.entryOf d) ∧ pos = (s.lfltab d).lfpos := by
  by_cases hused : s.Used d
  · rw [hs.view hused] at hd
    cases hd
    exact ⟨hused, rfl, rfl⟩
  · rw [hs.view_none hused] at hd
    cases hd

section Bytes

variable {pos : Nat}

@[simp] theorem Files.opened_seekTo (F : Files) (d : Fin Nlfl) (n : Str) (pos : Nat) :
    (F.seekTo d n pos).opened d = some (n, pos) := Function.update_self ..

@[simp] theorem Files.seekTo_seekTo (F : Files) (d : Fin Nlfl) (n : Str) (pos pos' : Nat) :
    (F.seekTo d n pos).seekTo d n pos' = F.seekTo d n pos' := by
  rw [seekTo, seekTo, seekTo, Function.update_idem]

theorem Files.seekTo_self {F : Files} (hd : F.opened d = some (n, pos)) : F.seekTo d n pos = F := by
  rw [seekTo, ← hd, Function.update_eq_self]

/-- **`lflgetc`** reads the byte at the position. -/
theorem Shown.getc (h : Shown A F s) (hd : F.opened d = some (n, pos)) :
    (F.content n)[pos]? = none ∧ lflgetc s d = some (EOF, s) ∨
    ∃ b s', (F.content n)[pos]? = some b ∧ lflgetc s d = some ((b.toNat : Int), s') ∧
      Shown A (F.seekTo d n (pos + 1)) s' := by
  obtain ⟨c, hinv, hs⟩ := h
  obtain ⟨hused, rfl, rfl⟩ := hs.of_opened hd
  have hok := hinv.fileOk hused
  rw [hs.content _ (hinv.inside d hused), lflgetc]
  dsimp only
  rw [if_neg (by rw [hused]; simp), hok.size]
  rcases Nat.lt_or_ge (s.lfltab d).lfpos (c.file (s.entryOf d)).length with hlt | hge
  · obtain ⟨v', p', hsome, hget, hnext, hframe, hsame, hsaved⟩ := hok.getc hused (hinv.tight _) hlt
    have hmax := hok.length_lt
    have hpos : (p'.lfpos + 1) % 4294967296 = (s.lfltab d).lfpos + 1 := by
      rw [hsame.lfpos]
      exact Nat.mod_eq_of_lt (by omega)
    have hstate : p'.lfstate = .LF_USED := hsame.lfstate.trans hused
    have hinv' := hinv.put hused hnext (hinv.tight _) hstate hsame.lfdirptr hsame.lfname hframe
      (List.subset_append_left _ _) (List.subset_append_left _ _) (List.Perm.refl _)
      (List.Perm.refl _) (hsaved hinv.saved)
    have hshow := hs.put hinv hused { p' with
        lfbyte := p'.lfbyte + 1, lfpos := (p'.lfpos + 1) % 4294967296 }
      (c.map (s.entryOf d)) (c.file (s.entryOf d)) c.ifree c.dfree
      hframe hstate hsame.lfdirptr hsame.lfdev
    have hseek : (F.setContent (c.name (s.entryOf d)) (c.file (s.entryOf d))).seekTo d
        (c.name (s.entryOf d)) ((p'.lfpos + 1) % 4294967296) =
        F.seekTo d (c.name (s.entryOf d)) ((s.lfltab d).lfpos + 1) := by
      rw [← hs.content _ (hinv.inside d hused), Files.setContent_self, hpos]
    rw [Census.set_self] at hinv' hshow
    rw [hseek] at hshow
    rw [hget, if_neg (not_le.mpr hlt), hsome, Option.map_some]
    exact .inr ⟨_, _, rfl, rfl, c, hinv', hshow⟩
  · exact .inl ⟨List.getElem?_eq_none hge, if_pos hge⟩

/-- **The loop of `lflread`** reads from the position on, as much as there is. -/
theorem Shown.readLoop (h : Shown A F s) (hd : F.opened d = some (n, pos)) (k numread : Nat)
    {bytes : List UInt8} (hbytes : ((F.content n).drop pos).take k = bytes) :
    ∃ s', lflreadLoop d k numread s =
      some (if k ≠ 0 ∧ numread = 0 ∧ bytes = [] then EOF
          else ((numread + bytes.length : Nat) : Int),
        bytes, s') ∧ Shown A (F.seekTo d n (pos + bytes.length)) s' := by
  induction k generalizing F s pos numread bytes with
  | zero =>
    obtain rfl : bytes = [] := hbytes.symm.trans List.take_zero
    rw [lflreadLoop, if_neg (by simp)]
    refine ⟨s, rfl, ?_⟩
    rw [List.length_nil, Nat.add_zero, Files.seekTo_self hd]
    exact h
  | succ k ih =>
    rw [lflreadLoop]
    rcases h.getc hd with ⟨hend, hget⟩ | ⟨b, s', hb, hget, hs'⟩
    · rw [List.drop_eq_nil_of_le (List.getElem?_eq_none_iff.mp hend), List.take_nil] at hbytes
      subst hbytes
      rw [hget, Option.bind_some]
      dsimp only
      rw [if_neg (by decide), if_pos rfl]
      refine ⟨s, ?_, ?_⟩
      · simp
      · rw [List.length_nil, Nat.add_zero, Files.seekTo_self hd]
        exact h
    · obtain ⟨hlt, hbe⟩ := List.getElem?_eq_some_iff.mp hb
      rw [List.drop_eq_getElem_cons hlt, hbe, List.take_succ_cons] at hbytes
      obtain ⟨s'', hloop, hs''⟩ := ih hs' (Files.opened_seekTo ..) (numread + 1) rfl
      have hne : ((b.toNat : Int) ≠ SYSERR) ∧ ((b.toNat : Int) ≠ EOF) := by
        have h0 : (0 : Int) ≤ b.toNat := Int.natCast_nonneg _
        constructor
        · show (b.toNat : Int) ≠ -1
          omega
        · show (b.toNat : Int) ≠ -2
          omega
      rw [hget, Option.bind_some]
      dsimp only
      rw [if_neg hne.1, if_neg hne.2, hloop, Option.map_some, if_neg (by simp), Int.toNat_natCast,
        UInt8.ofNat_toNat]
      rw [Files.seekTo_seekTo] at hs''
      subst hbytes
      refine ⟨s'', ?_, ?_⟩
      · rw [if_neg (by simp), List.length_cons]
        have hsum : numread + 1 + (List.take k ((F.content n).drop (pos + 1))).length =
          numread + ((List.take k ((F.content n).drop (pos + 1))).length + 1) := by omega
        rw [← hsum]
        rfl
      · rw [List.length_cons, ← Nat.add_assoc, Nat.add_right_comm]
        exact hs''

/-! ## 4. Writing

A byte replaces the one at the position or makes the file longer.  Where it needs a block and
there is none the code panics, and then the longer file would not have found room. -/

/-- What finds room after a file has grown found room before. -/
theorem Files.Fits.mono {F F' : Files} (h : F'.Fits A) (hnames : F'.names = F.names)
    (hlen : ∀ n, (F.content n).length ≤ (F'.content n).length) : F.Fits A := by
  rw [Files.Fits, hnames] at h
  refine ⟨(Finset.sum_le_sum fun n _ => ?_).trans h.1, (Finset.sum_le_sum fun n _ => ?_).trans h.2⟩
  · exact Nat.div_le_div_right (Nat.add_le_add_right (hlen n) _)
  · exact Nat.div_le_div_right (Nat.add_le_add_right (hlen n) _)

/-- **A disk that is full cannot hold the longer file.** -/
theorem ShowsFiles.not_fits (hs : ShowsFiles F s c) (h : LfsInv A s c) (hd : s.Used d)
    {file' : List UInt8}
    (hfull : (c.map (s.entryOf d)).chain.length < niblocks file'.length ∧ c.ifree = [] ∨
      (c.map (s.entryOf d)).blocks.length < nblocks file'.length ∧ c.dfree = [])
    (hlen : (c.file (s.entryOf d)).length ≤ file'.length) (pos : Nat) :
    ¬ ((F.setContent (c.name (s.entryOf d)) file').seekTo d (c.name (s.entryOf d)) pos).Fits A := by
  have hborn := h.inside d hd
  -- one file needs more, the others as much as they have
  have hmore : ∀ f : Nat → Nat, Monotone f → f 0 = 0 →
      f (c.file (s.entryOf d)).length < f file'.length →
      ∑ e, f (c.file e).length < ∑ n ∈ F.names,
        f (Function.update F.content (c.name (s.entryOf d)) file' n).length := by
    intro f hf h0 hlt
    rw [hs.sum h, ← h.sum_born h0]
    refine Finset.sum_lt_sum (fun e he => ?_) ⟨s.entryOf d, Lfdata.mem_born.mpr hborn, ?_⟩
    · by_cases hed : e = s.entryOf d
      · rw [hed, Function.update_self]
        exact hf hlen
      · have hne : c.name e ≠ c.name (s.entryOf d) := fun heq =>
          hed (h.distinct e _ (Lfdata.mem_born.mp he) hborn heq)
        rw [Function.update_of_ne hne, hs.content e (Lfdata.mem_born.mp he)]
    · rw [Function.update_self]
      exact hlt
  rintro ⟨hi, hb⟩
  rcases hfull with ⟨hlt, hnil⟩ | ⟨hlt, hnil⟩
  · have hcard := h.icard
    rw [hnil, List.length_nil, Nat.add_zero] at hcard
    rw [(h.tight _).2] at hlt
    have hsum := hmore niblocks (fun a b hab => Nat.div_le_div_right (Nat.add_le_add_right hab _))
      rfl hlt
    rw [hcard] at hsum
    exact absurd hi (not_le.mpr hsum)
  · have hcard := h.dcard
    rw [hnil, List.length_nil, Nat.add_zero] at hcard
    rw [(h.tight _).1] at hlt
    have hsum := hmore nblocks (fun a b hab => Nat.div_le_div_right (Nat.add_le_add_right hab _))
      rfl hlt
    rw [hcard] at hsum
    exact absurd hb (not_le.mpr hsum)

/-- The files after some bytes are written. -/
theorem Files.write_eq {F : Files} (hd : F.opened d = some (n, pos)) (bytes : List UInt8) :
    F.write d bytes = (true, (F.setContent n (overwrite (F.content n) pos bytes)).seekTo d n
      (pos + bytes.length)) := by
  rw [Files.write, hd]

/-- **`lflputc`** writes a byte at the position, unless the disk is full. -/
theorem Shown.putc (h : Shown A F s) (hd : F.opened d = some (n, pos)) (ch : UInt8) :
    (∃ s', lflputc s d ch = some (OK, s') ∧ Shown A (F.write d [ch]).2 s') ∨
    lflputc s d ch = none ∧ ¬ (F.write d [ch]).2.Fits A := by
  obtain ⟨c, hinv, hs⟩ := h
  rw [Files.write_eq hd]
  obtain ⟨hused, rfl, rfl⟩ := hs.of_opened hd
  have hok := hinv.fileOk hused
  have hpos := hok.cached.pos
  have hmax := hok.length_lt
  have hfile : overwrite (F.content (c.name (s.entryOf d))) (s.lfltab d).lfpos [ch] =
      BlockedArray.write (c.file (s.entryOf d)) (s.lfltab d).lfpos ch := by
    rw [hs.content _ (hinv.inside d hused)]
    rfl
  rw [hfile, lflputc]
  dsimp only
  rw [if_neg (by rw [hused]; simp), hok.size, if_neg (not_lt.mpr hpos)]
  rcases hok.putc hused (hinv.tight _) ch with ⟨hnone, hend, hfull⟩ |
    ⟨v', p', F', ifree', dfree', hsome, hput, hframe, hsame, hgrown, htight, hsaved⟩
  · refine .inr ⟨by rw [hnone, Option.map_none], ?_⟩
    have hlen := length_write (x := ch) hpos
    refine hs.not_fits hinv hused ?_ ?_ _
    · rw [hlen, hend, Nat.max_eq_right (Nat.le_succ _)]
      exact hfull
    · rw [hlen]
      exact le_max_left _ _
  · have hstate : (p'.written ch).lfstate = .LF_USED := hsame.lfstate.trans hused
    have hinv' := hinv.put hused hput htight hstate hsame.lfdirptr hsame.lfname hframe
      (fun i hi => ?_) (fun b hb => ?_) (by rw [hgrown.iblocks]) (by rw [hgrown.dblocks])
      (hsaved hinv.saved)
    · have hshow := hs.put hinv hused (p'.written ch) F'
        (BlockedArray.write (c.file (s.entryOf d)) (s.lfltab d).lfpos ch)
        ifree' dfree' hframe hstate hsame.lfdirptr hsame.lfdev
      have hnext : (p'.written ch).lfpos = (s.lfltab d).lfpos + 1 := by
        show (p'.lfpos + 1) % 4294967296 = (s.lfltab d).lfpos + 1
        rw [hsame.lfpos]
        exact Nat.mod_eq_of_lt (by omega)
      rw [hnext] at hshow
      rw [hsome, Option.map_some]
      exact .inl ⟨_, rfl, _, hinv', hshow⟩
    · rw [← hgrown.iblocks]
      exact List.mem_append_left _ hi
    · rw [← hgrown.dblocks]
      exact List.mem_append_left _ hb

/-- The file position is in the file. -/
theorem Shown.pos_le (h : Shown A F s) (hd : F.opened d = some (n, pos)) :
    pos ≤ (F.content n).length := by
  obtain ⟨c, hinv, hs⟩ := h
  obtain ⟨hused, rfl, rfl⟩ := hs.of_opened hd
  rw [hs.content _ (hinv.inside d hused)]
  exact (hinv.opened d hused).pos

/-- **The loop of `lflwrite`** writes from the position on, unless the disk gets full. -/
theorem Shown.writeLoop (h : Shown A F s) (hd : F.opened d = some (n, pos)) (bytes : List UInt8) :
    (∃ s', lflwriteLoop d bytes s = some (true, s') ∧ Shown A (F.write d bytes).2 s') ∨
    lflwriteLoop d bytes s = none ∧ ¬ (F.write d bytes).2.Fits A := by
  induction bytes generalizing F s pos with
  | nil =>
    rw [Files.write_eq hd, overwrite_nil, Files.setContent_self, List.length_nil, Nat.add_zero,
      Files.seekTo_self hd]
    exact .inl ⟨s, rfl, h⟩
  | cons b bytes ih =>
    have hpos := h.pos_le hd
    have hopen : (F.write d [b]).2.opened d = some (n, pos + 1) := by
      rw [Files.write_eq hd]
      exact Files.opened_seekTo ..
    have hstep : ((F.write d [b]).2.write d bytes).2 = (F.write d (b :: bytes)).2 := by
      rw [Files.write_eq hopen, Files.write_eq hd, Files.write_eq hd]
      have hover := overwrite_cons (x := b) hpos bytes
      rw [← hover]
      simp only [Files.setContent, Files.seekTo, Function.update_self, Function.update_idem,
        List.length_cons]
      rw [Nat.add_assoc, Nat.add_comm 1]
      rfl
    rw [lflwriteLoop]
    rcases h.putc hd b with ⟨s', hput, hs'⟩ | ⟨hput, hfull⟩
    · rw [hput, Option.bind_some]
      dsimp only
      rw [if_neg (by decide), ← hstep]
      exact ih hs' hopen
    · refine .inr ⟨by rw [hput, Option.bind_none], fun hfits => hfull (hfits.mono ?_ fun m => ?_)⟩
      · rw [Files.write_eq hd, Files.write_eq hd]
        rfl
      · rw [Files.write_eq hd, Files.write_eq hd]
        show (Function.update F.content n (BlockedArray.write (F.content n) pos b) m).length ≤
          (Function.update F.content n (overwrite (F.content n) pos (b :: bytes)) m).length
        by_cases hm : m = n
        · rw [hm, Function.update_self, Function.update_self, length_write hpos]
          simp only [overwrite, List.length_append, List.length_take, List.length_drop,
            List.length_cons]
          omega
        · rw [Function.update_of_ne hm, Function.update_of_ne hm]

/-! ## 5. Seeking, truncating and closing

None of the three needs a block, so none of them panics. -/

/-- **`lflseek`** goes to a position in the file. -/
theorem Shown.seek (h : Shown A F s) (hd : F.opened d = some (n, pos)) (offset : Nat) :
    ∃ s', lflseek s d offset = ((F.seek d offset).1, s') ∧ Shown A (F.seek d offset).2 s' := by
  obtain ⟨c, hinv, hs⟩ := h
  obtain ⟨hused, hn, -⟩ := hs.of_opened hd
  have hok := hinv.fileOk hused
  rw [Files.seek, hd, lflseek]
  dsimp only
  rw [if_neg (by rw [hused]; simp), hok.size, hn, hs.content _ (hinv.inside d hused)]
  split_ifs with hout
  · exact ⟨s, rfl, c, hinv, hs⟩
  · have hinv' := hinv.put hused (hok.seek (not_lt.mp hout)) (hinv.tight _)
      hused rfl rfl (.refl s.Lf_data)
      (List.nil_subset _) (List.nil_subset _) (List.Perm.refl _) (List.Perm.refl _) hinv.saved
    have hshow := hs.put hinv hused
      { s.lfltab d with lfpos := offset, lfbyte := LF_BLKSIZ } (c.map (s.entryOf d))
      (c.file (s.entryOf d)) c.ifree c.dfree (.refl (C := []) (B := []) s.Lf_data) hused rfl rfl
    rw [Census.set_self] at hinv' hshow
    rw [← hs.content _ (hinv.inside d hused), Files.setContent_self] at hshow
    exact ⟨_, rfl, c, hinv', hshow⟩

/-- **`lftruncate`** empties the file. -/
theorem Shown.truncate (h : Shown A F s) (hd : F.opened d = some (n, pos)) :
    ∃ s', lflcontrol s d LF_CTL_TRUNC = some (OK, s') ∧ Shown A (F.truncate d).2 s' := by
  obtain ⟨c, hinv, hs⟩ := h
  rw [Files.truncate, hd]
  obtain ⟨hused, rfl, rfl⟩ := hs.of_opened hd
  have hok := hinv.fileOk hused
  have hcontent := hs.content _ (hinv.inside d hused)
  rw [lflcontrol]
  dsimp only
  rw [if_neg (by rw [hused]; simp), if_pos rfl]
  rcases lftruncate_spec hok hused with ⟨hempty, hsame⟩ |
    ⟨-, v', p', hsome, hok', hframe, hstate, hdev, hptr, hname, hpos, hdirty⟩
  · -- an empty file stays as it is, with the position at its start
    have hzero : (s.lfltab d).lfpos = 0 := by
      have hle := hok.cached.pos
      rw [hempty] at hle
      exact Nat.le_zero.mp hle
    have hback :
        (F.setContent (c.name (s.entryOf d)) []).seekTo d (c.name (s.entryOf d)) 0 = F := by
      rw [← hempty, ← hcontent, Files.setContent_self, ← hzero, Files.seekTo_self hd]
    have hput : s.put s.Lf_data d (s.lfltab d) = s := by
      rw [Lfs.put, Function.update_eq_self]
    rw [hsame, Option.map_some, hback]
    exact ⟨_, rfl, c, by rw [hput]; exact hinv, by rw [hput]; exact hs⟩
  · have hinv' := hinv.put hused hok' ⟨rfl, rfl⟩ (hstate.trans hused) hptr hname hframe
      (List.subset_append_left _ _) (List.subset_append_left _ _) (List.Perm.refl _)
      ((List.reverse_perm _).append_right _) (.inl hdirty)
    have hshow := hs.put hinv hused _ ⟨[], []⟩ []
      ((c.map (s.entryOf d)).chain ++ c.ifree)
      ((c.map (s.entryOf d)).blocks.reverse ++ c.dfree) hframe (hstate.trans hused) hptr hdev
    rw [hpos] at hshow
    rw [hsome, Option.map_some]
    exact ⟨_, rfl, _, hinv', hshow⟩

/-- **`lflclose`** closes the file. -/
theorem Shown.close (h : Shown A F s) (hd : F.opened d = some (n, pos)) :
    ∃ s', lflclose s d = ((F.close d).1, s') ∧ Shown A (F.close d).2 s' := by
  obtain ⟨c, hinv, hs⟩ := h
  rw [Files.close, hd]
  obtain ⟨hused, rfl, rfl⟩ := hs.of_opened hd
  have hok := hinv.fileOk hused
  obtain ⟨hok', hstored, hframe, hsame, hsaved, hclean⟩ := hok.close hused hinv.saved
  have hw : (if s.Lf_data.lf_dirdirty ∨ (s.lfltab d).lfdbdirty ∨ (s.lfltab d).lfibdirty then
      (lfflush s.Lf_data (s.lfltab d)).2 else (s.Lf_data, s.lfltab d)) =
      flushIfDirty s.Lf_data (s.lfltab d) := rfl
  rw [lflclose]
  dsimp only
  rw [if_neg (by rw [hused]; simp), hw]
  set w := flushIfDirty s.Lf_data (s.lfltab d) with hwdef
  have hstate : w.2.lfstate = .LF_USED := hsame.lfstate.trans hused
  have hinv' := hinv.put hused hok' (hinv.tight _) hstate hsame.lfdirptr hsame.lfname hframe
    (List.subset_append_left _ _) (List.subset_append_left _ _) (List.Perm.refl _)
    (List.Perm.refl _) hsaved
  have hshow := hs.put hinv hused _ (c.map (s.entryOf d)) (c.file (s.entryOf d)) c.ifree
    c.dfree hframe hstate hsame.lfdirptr hsame.lfdev
  rw [Census.set_self] at hinv' hshow
  rw [← hs.content _ (hinv.inside d hused), Files.setContent_self] at hshow
  have hentry : (s.put w.1 d w.2).entryOf d = s.entryOf d := by
    rw [Lfs.entryOf_put_self]
    exact hsame.lfdirptr
  have hend := hinv'.release (Lfs.used_put_self.mpr hstate) (by rw [hentry]; exact hstored) hclean
  have hput : (s.put w.1 d w.2).put w.1 d { (s.put w.1 d w.2).lfltab d with lfstate := .LF_FREE } =
      s.put w.1 d { w.2 with lfstate := .LF_FREE } := by
    rw [Lfs.put_self, Lfs.put, Lfs.put, Lfs.put, Function.update_idem]
  have hend' : LfsInv A (s.put w.1 d { w.2 with lfstate := .LF_FREE }) c := hput ▸ hend
  refine ⟨_, rfl, c, hend', fun d' => ?_, hshow.names, hshow.content, hshow.absent, fun d' => ?_⟩
  · have hdev' := hshow.dev d'
    by_cases hdd : d' = d
    · rw [hdd, Lfs.put_self] at hdev' ⊢
      exact hdev'
    · rw [Lfs.put_of_ne hdd] at hdev' ⊢
      exact hdev'
  · show Function.update F.opened d none d' = _
    by_cases hdd : d' = d
    · rw [hdd, Function.update_self, if_neg (by rw [Lfs.used_put_self]; simp)]
    · have hold : (s.put w.1 d { w.2 with lfstate := .LF_FREE }).lfltab d' = s.lfltab d' :=
        Lfs.put_of_ne hdd
      rw [Function.update_of_ne hdd, hs.opened d']
      simp only [Lfs.Used, Lfs.entryOf, hold]

end Bytes

end Xinu
