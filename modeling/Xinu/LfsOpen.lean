/-
# Concurrent opens and closes of local files

`lfsopen` looks for a free pseudo-device, and for the name among the open files, before it waits
for `lf_mutex`; it claims the pseudo-device afterwards, with the mutex.  In between another open
can claim the same pseudo-device, or open the same file.  When every claim still finds what the
search had found, two files that are open have different pseudo-devices and different directory
entries (`opens_apart`).

A call advances from one point where it can be suspended to the next: `wait(lf_mutex)` and
`wait(lfmutex)`, and every disk operation.  A free mutex may be taken by any call that waits for
it, which includes the order in which the semaphore's queue serves them.
-/
import Xinu.LfsModes
import Xinu.Lib.Runs

namespace Xinu

open Layouts Runs

/-! ## 1. The calls

A call is cut where it can be suspended, and what it does in between is one step.  `LfsPc` has a
constructor for each of these points, with the values that the call still needs from before it. -/

/-- Where a process stands in its call. -/
inductive LfsPc where
  | idle
  /-- At `wait(lf_mutex)`, with the pseudo-device that the search has chosen. -/
  | openWait (name : Str) (mbits : Nat) (lfnext : Fin Nlfl)
  /-- Reading the directory, with `lf_mutex`. -/
  | openRead (name : Str) (mbits : Nat) (lfnext : Fin Nlfl)
  /-- At `wait(lfptr->lfmutex)`. -/
  | closeWait (d : Fin Nlfl)
  /-- In `lfflush`, writing the directory. -/
  | flushDir (d : Fin Nlfl)
  /-- In `lfflush`, writing the data block. -/
  | flushData (d : Fin Nlfl)
  /-- In `lfibput`, reading the sector of the index block. -/
  | flushRead (d : Fin Nlfl)
  /-- In `lfibput`, writing it back with the index block in place. -/
  | flushWrite (d : Fin Nlfl) (dbuff : Bytes)

/-- An open that succeeded and is still open: what it returned and the file it refers to. -/
structure OpenFile where
  dev : Fin Nlfl
  file : Fin LF_NUM_DIR_ENT
  deriving DecidableEq

/-- The file system, the holders of its mutexes, where every process stands, and the opens that
succeeded and whose pseudo-device has not been closed since. -/
structure LfsSys where
  fs : Lfs
  lf_mutex : Option Nat
  lfmutex : Fin Nlfl → Option Nat
  pc : Nat → LfsPc
  live : List OpenFile

namespace LfsSys

/-- After the initialization. -/
def boot (k : Disk) (dev : Fin Nlfl → Int) : LfsSys where
  fs := Lfs.boot k dev
  lf_mutex := none
  lfmutex := fun _ => none
  pc := fun _ => .idle
  live := []

def setPc (x : LfsSys) (p : Nat) (c : LfsPc) : LfsSys := { x with pc := Function.update x.pc p c }

/-- `lfsopen` from the search of the directory on; it ends with `signal(lf_mutex)`. -/
def claim (x : LfsSys) (p : Nat) (name : Str) (mbits : Nat) (lfnext : Fin Nlfl) :
    Option LfsSys :=
  if overrun x.fs.Lf_data.lf_dir name then none
  else some { x.setPc p .idle with
    fs := (lfsopenClaim x.fs name mbits lfnext).2
    lf_mutex := none
    live := match lfsopenEntry x.fs.Lf_data name mbits with
      | none => x.live
      | some (e, _) => ⟨lfnext, e⟩ :: x.live }

/-- The end of `lflclose`: the pseudo-device is free, and `signal(lfptr->lfmutex)`. -/
def release (x : LfsSys) (p : Nat) (d : Fin Nlfl) : LfsSys :=
  { x.setPc p .idle with
    fs := x.fs.put x.fs.Lf_data d { x.fs.lfltab d with lfstate := .LF_FREE }
    lfmutex := Function.update x.lfmutex d none
    live := x.live.filter fun r => r.dev ≠ d }

/-- `lfflush` behind its write of the data block. -/
def afterData (x : LfsSys) (p : Nat) (d : Fin Nlfl) : LfsSys :=
  if (x.fs.lfltab d).lfibdirty then x.setPc p (.flushRead d) else x.release p d

/-- `lfflush` behind its write of the directory. -/
def afterDir (x : LfsSys) (p : Nat) (d : Fin Nlfl) : LfsSys :=
  if (x.fs.lfltab d).lfdbdirty then x.setPc p (.flushData d) else x.afterData p d

/-- The disk operation under way ends, and the call goes on to its next one. -/
def disk (x : LfsSys) (p : Nat) : Option LfsSys :=
  match x.pc p with
  | .flushDir d =>
    let v := { x.fs.Lf_data.writeDir with lf_dirdirty := false }
    some ({ x with fs.Lf_data := v }.afterDir p d)
  | .flushData d =>
    let lfptr := x.fs.lfltab d
    let v := { x.fs.Lf_data with
      lf_dskdev := (x.fs.Lf_data.lf_dskdev.write lfptr.lfdblock lfptr.lfdnum).2 }
    some ({ x with fs := x.fs.put v d { lfptr with lfdbdirty := false } }.afterData p d)
  | .flushRead d =>
    let lfptr := x.fs.lfltab d
    let dbuff := x.fs.Lf_data.lf_dskdev.read (ib2sect lfptr.lfinum)
    if dbuff.1 = SYSERR then
      some ({ x with fs := x.fs.put x.fs.Lf_data d { lfptr with lfibdirty := false } }.release p d)
    else some (x.setPc p (.flushWrite d
      (Layout.lfiblk.writeAt dbuff.2 (ib2disp lfptr.lfinum) lfptr.lfiblock)))
  | .flushWrite d dbuff =>
    let lfptr := x.fs.lfltab d
    let v := { x.fs.Lf_data with
      lf_dskdev := (x.fs.Lf_data.lf_dskdev.write dbuff (ib2sect lfptr.lfinum)).2 }
    some ({ x with fs := x.fs.put v d { lfptr with lfibdirty := false } }.release p d)
  | .openRead name mbits lfnext =>
    let v := lfsopenDir x.fs.Lf_data
    if v.1 = SYSERR then
      some { x.setPc p .idle with fs.Lf_data := v.2, lf_mutex := none }
    else { x with fs.Lf_data := v.2 }.claim p name mbits lfnext
  | _ => none

end LfsSys

/-- What a process can do next. -/
inductive LfsEvent where
  | open (p : Nat) (name mode : Str)
  | close (p : Nat) (d : Fin Nlfl)
  /-- `wait(lf_mutex)` or `wait(lfptr->lfmutex)` returns. -/
  | enter (p : Nat)
  /-- The disk operation under way ends. -/
  | disk (p : Nat)

namespace LfsSys

/-- One step of a process. -/
def step (x : LfsSys) : LfsEvent → Option LfsSys
  | .open p name mode =>
    match x.pc p with
    | .idle =>
      if name.1.length ≥ LF_NAME_LEN then some x
      else match lfgetmode mode with
      | none => some x
      | some mbits => match lfsopenSearch x.fs.lfltab name with
        | none => some x
        | some lfnext => some (x.setPc p (.openWait name mbits lfnext))
    | _ => none
  | .close p d =>
    match x.pc p with
    | .idle => some (x.setPc p (.closeWait d))
    | _ => none
  | .enter p =>
    match x.pc p with
    | .openWait name mbits lfnext =>
      if x.lf_mutex ≠ none then none
      else if x.fs.Lf_data.lf_dirpresent then x.claim p name mbits lfnext
      else some { x.setPc p (.openRead name mbits lfnext) with lf_mutex := some p }
    | .closeWait d =>
      if x.lfmutex d ≠ none then none
      else if (x.fs.lfltab d).lfstate ≠ .LF_USED then some (x.setPc p .idle)
      else
        let x' := { x with lfmutex := Function.update x.lfmutex d (some p) }
        some (if x.fs.Lf_data.lf_dirdirty then x'.setPc p (.flushDir d) else x'.afterDir p d)
    | _ => none
  | .disk p => x.disk p

end LfsSys

/-! ## 2. The property and the condition

What the search has found is one pseudo-device, and that the name is not open.  Both are stated
for the moment of the claim, which is the step behind the last disk operation. -/

/-- Two open files have different pseudo-devices and different directory entries. -/
def OpenFile.Apart (a b : OpenFile) : Prop := a.dev ≠ b.dev ∧ a.file ≠ b.file

instance : DecidableRel OpenFile.Apart := fun _ _ => inferInstanceAs (Decidable (_ ∧ _))

/-- At the claim, the pseudo-device is still free and the file is still not open. -/
def Unclaimed (lfltab : Fin Nlfl → Lflcblk) (name : Str) (lfnext : Fin Nlfl) : Prop :=
  (lfltab lfnext).lfstate = .LF_FREE ∧
    ∀ d, (lfltab d).lfstate = .LF_USED → ¬ sameName name.1 (chars (lfltab d).lfname)

instance (lfltab : Fin Nlfl → Lflcblk) (name : Str) (lfnext : Fin Nlfl) :
    Decidable (Unclaimed lfltab name lfnext) :=
  inferInstanceAs (Decidable (_ ∧ _))

/-- The claim that a step makes, with the directory it makes it in. -/
def LfsSys.claims (x : LfsSys) : LfsEvent → Option (Lfdata × Str × Nat × Fin Nlfl)
  | .enter p =>
    match x.pc p with
    | .openWait name mbits lfnext =>
      if x.fs.Lf_data.lf_dirpresent then some (x.fs.Lf_data, name, mbits, lfnext) else none
    | _ => none
  | .disk p =>
    match x.pc p with
    | .openRead name mbits lfnext =>
      let v := lfsopenDir x.fs.Lf_data
      if v.1 = SYSERR then none else some (v.2, name, mbits, lfnext)
    | _ => none
  | _ => none

/-- **The condition of a step**: what the search has found still holds when the claim is made,
unless the file is not opened at all. -/
def StillFree (x : LfsSys) (ev : LfsEvent) : Prop :=
  (x.claims ev).all fun c =>
    (lfsopenEntry c.1 c.2.1 c.2.2.1).isNone || decide (Unclaimed x.fs.lfltab c.2.1 c.2.2.2)

instance : DecidableRel StillFree := fun _ _ => inferInstanceAs (Decidable (_ = true))

/-! ## 3. Names

The directory has the names as arrays of bytes, and a call has a string.  An array holds one name
at most, so that comparing names is comparing directory entries. -/

theorem sameName_iff {n : List UInt8} {cmp : Nat → UInt8} :
    sameName n cmp = true ↔ (∀ i < n.length, cmp i = n.getD i 0) ∧ cmp n.length = 0 := by
  induction n generalizing cmp with
  | nil => simp [sameName]
  | cons c n ih =>
    rw [sameName]
    split_ifs with hc
    · rw [ih]
      constructor
      · rintro ⟨h1, h2⟩
        refine ⟨fun i hi => ?_, h2⟩
        cases i with
        | zero => exact hc.symm
        | succ i => exact h1 i (by simpa using hi)
      · rintro ⟨h1, h2⟩
        exact ⟨fun i hi => h1 (i + 1) (by simpa using hi), h2⟩
    · simp only [false_iff, not_and]
      intro h1
      exact absurd (h1 0 (by simp)).symm hc

/-- An array holds one name. -/
theorem sameName_unique {n m : Str} {cmp : Nat → UInt8} (hn : sameName n.1 cmp)
    (hm : sameName m.1 cmp) : n = m := by
  obtain ⟨n, hn0⟩ := n
  obtain ⟨m, hm0⟩ := m
  refine Subtype.ext ?_
  dsimp only at hn hm ⊢
  induction n generalizing m cmp with
  | nil =>
    cases m with
    | nil => rfl
    | cons c m =>
      simp only [sameName, decide_eq_true_eq] at hn hm
      split_ifs at hm with hc
      exact absurd (by simp [hc, hn]) hm0
  | cons c n ih =>
    simp only [sameName] at hn
    split_ifs at hn with hc
    cases m with
    | nil =>
      simp only [sameName, decide_eq_true_eq] at hm
      exact absurd (by simp [hc, hm]) hn0
    | cons c' m =>
      simp only [sameName] at hm
      split_ifs at hm with hc'
      rw [hc, ← hc', ih (fun h => hn0 (List.mem_cons_of_mem _ h)) hn m
        (fun h => hm0 (List.mem_cons_of_mem _ h)) hm]

/-- A name that was copied into an array is there. -/
theorem sameName_lfCopyName {n : Str} (hn : n.1.length < LF_NAME_LEN)
    (old : Fin LF_NAME_LEN → UInt8) : sameName n.1 (chars (lfCopyName n.1 old)) := by
  rw [sameName_iff]
  constructor
  · intro i hi
    rw [chars, dif_pos (hi.trans hn), lfCopyName, if_pos hi]
  · rw [chars, dif_pos hn, lfCopyName, if_neg (by simp), if_pos rfl]

/-! ## 4. The table of open files

`Table` ties the opens that succeeded to the control blocks, and these to the directory: a control
block in use leads to an entry that holds the name, and two of them to different entries. -/

/-- What holds of the pseudo-devices in use, and of the opens still open. -/
structure Table (fs : Lfs) (live : List OpenFile) : Prop where
  present : ∀ d, (fs.lfltab d).lfstate = .LF_USED → fs.Lf_data.lf_dirpresent = true
  inside : ∀ d, (fs.lfltab d).lfstate = .LF_USED →
    ((fs.lfltab d).lfdirptr : Int) < fs.Lf_data.lf_dir.lfd_nfiles
  named : ∀ d, (fs.lfltab d).lfstate = .LF_USED → ∃ n : Str,
    sameName n.1 (chars (fs.lfltab d).lfname) ∧
    sameName n.1 (chars (fs.Lf_data.lf_dir.lfd_files (fs.lfltab d).lfdirptr).ld_name)
  apart : ∀ d d', (fs.lfltab d).lfstate = .LF_USED → (fs.lfltab d').lfstate = .LF_USED →
    d ≠ d' → (fs.lfltab d).lfdirptr ≠ (fs.lfltab d').lfdirptr
  used : ∀ r ∈ live, (fs.lfltab r.dev).lfstate = .LF_USED ∧ (fs.lfltab r.dev).lfdirptr = r.file
  distinct : live.Pairwise fun a b => a.dev ≠ b.dev

variable {fs fs' : Lfs} {live : List OpenFile} {name : Str} {mbits : Nat} {lfnext : Fin Nlfl}

/-- **The opens still open are apart.** -/
theorem Table.pairwise (h : Table fs live) : live.Pairwise OpenFile.Apart := by
  refine h.distinct.imp_of_mem fun {a b} ha hb hne => ⟨hne, fun hfile => ?_⟩
  obtain ⟨hau, haf⟩ := h.used a ha
  obtain ⟨hbu, hbf⟩ := h.used b hb
  exact h.apart a.dev b.dev hau hbu hne (haf.trans (hfile.trans hbf.symm))

/-- The table depends on what is open and on the directory only. -/
theorem Table.congr (h : Table fs live) (hdir : fs'.Lf_data.lf_dir = fs.Lf_data.lf_dir)
    (hpresent : fs'.Lf_data.lf_dirpresent = fs.Lf_data.lf_dirpresent)
    (htab : ∀ d, (fs'.lfltab d).lfstate = (fs.lfltab d).lfstate ∧
      (fs'.lfltab d).lfdirptr = (fs.lfltab d).lfdirptr ∧
      (fs'.lfltab d).lfname = (fs.lfltab d).lfname) : Table fs' live where
  present d hd := by
    rw [hpresent]
    exact h.present d ((htab d).1 ▸ hd)
  inside d hd := by
    rw [hdir, (htab d).2.1]
    exact h.inside d ((htab d).1 ▸ hd)
  named d hd := by
    rw [hdir, (htab d).2.1, (htab d).2.2]
    exact h.named d ((htab d).1 ▸ hd)
  apart d d' hd hd' hne := by
    rw [(htab d).2.1, (htab d').2.1]
    exact h.apart d d' ((htab d).1 ▸ hd) ((htab d').1 ▸ hd') hne
  used r hr := by
    rw [(htab r.dev).1, (htab r.dev).2.1]
    exact h.used r hr
  distinct := h.distinct

/-- While nothing is open, the directory does not matter. -/
theorem Table.unused (hfree : ∀ d, (fs.lfltab d).lfstate = .LF_FREE) : Table fs [] where
  present d hd := absurd (hd.symm.trans (hfree d)) (by decide)
  inside d hd := absurd (hd.symm.trans (hfree d)) (by decide)
  named d hd := absurd (hd.symm.trans (hfree d)) (by decide)
  apart d _ hd := absurd (hd.symm.trans (hfree d)) (by decide)
  used r hr := absurd hr (by simp)
  distinct := .nil

theorem Table.live_nil (h : Table fs live) (hfree : ∀ d, (fs.lfltab d).lfstate = .LF_FREE) :
    live = [] := by
  cases live with
  | nil => rfl
  | cons r live =>
    exact absurd ((h.used r (by simp)).1.symm.trans (hfree r.dev)) (by decide)

/-- Without a directory in memory nothing is open. -/
theorem Table.free (h : Table fs live) (hp : fs.Lf_data.lf_dirpresent = false) (d : Fin Nlfl) :
    (fs.lfltab d).lfstate = .LF_FREE := by
  cases hd : (fs.lfltab d).lfstate with
  | LF_FREE => rfl
  | LF_USED => rw [h.present d hd] at hp; exact absurd hp (by decide)

/-- Closing a pseudo-device. -/
theorem Table.release (h : Table fs live) (d : Fin Nlfl) :
    Table (fs.put fs.Lf_data d { fs.lfltab d with lfstate := .LF_FREE })
      (live.filter fun r => r.dev ≠ d) := by
  have hne : ∀ d', (Function.update fs.lfltab d { fs.lfltab d with lfstate := .LF_FREE } d').lfstate
      = .LF_USED → d' ≠ d := by
    rintro d' hd' rfl
    rw [Function.update_self] at hd'
    exact nomatch hd'
  have heq : ∀ d' ≠ d, Function.update fs.lfltab d { fs.lfltab d with lfstate := .LF_FREE } d' =
      fs.lfltab d' := fun d' hd' => Function.update_of_ne hd' ..
  constructor
  · intro d' hd'
    exact h.present d' (heq d' (hne d' hd') ▸ hd')
  · intro d' hd'
    have he := heq d' (hne d' hd')
    simp only [Lfs.put, he] at hd' ⊢
    exact h.inside d' hd'
  · intro d' hd'
    have he := heq d' (hne d' hd')
    simp only [Lfs.put, he] at hd' ⊢
    exact h.named d' hd'
  · intro d₁ d₂ h₁ h₂ hne'
    have he₁ := heq d₁ (hne d₁ h₁)
    have he₂ := heq d₂ (hne d₂ h₂)
    simp only [Lfs.put, he₁, he₂] at h₁ h₂ ⊢
    exact h.apart d₁ d₂ h₁ h₂ hne'
  · intro r hr
    obtain ⟨hr, hd⟩ := List.mem_filter.mp hr
    simp only [Lfs.put, heq r.dev (of_decide_eq_true hd)]
    exact h.used r hr
  · exact h.distinct.filter _

/-! ## 5. A claim

The one step that makes a file open.  A new file's entry goes behind those in use, or an old entry
is used again; either way the names that were there are still there, at their places. -/

/-- What a claim makes of the directory: the file's entry is in it and holds the name, and the
entries that were there are as before.  A new entry is behind all others. -/
theorem lfsopenEntry_some {v v' : Lfdata} {e : Fin LF_NUM_DIR_ENT}
    (hname : name.1.length < LF_NAME_LEN) (h : lfsopenEntry v name mbits = some (e, v')) :
    (e : Int) < v'.lf_dir.lfd_nfiles ∧ sameName name.1 (chars (v'.lf_dir.lfd_files e).ld_name) ∧
    v.lf_dir.lfd_nfiles ≤ v'.lf_dir.lfd_nfiles ∧ v'.lf_dirpresent = v.lf_dirpresent ∧
    ((∀ i, v'.lf_dir.lfd_files i = v.lf_dir.lfd_files i) ∨
      v.lf_dir.lfd_nfiles = e ∧ ∀ i ≠ e, v'.lf_dir.lfd_files i = v.lf_dir.lfd_files i) := by
  rw [lfsopenEntry] at h
  split at h
  · rename_i i hfind
    split_ifs at h
    obtain ⟨rfl, rfl⟩ := by simpa using h
    have hi := List.find?_some hfind
    simp only [decide_eq_true_iff] at hi
    exact ⟨hi.1, hi.2, le_refl _, rfl, .inl fun _ => rfl⟩
  · split_ifs at h with _ hn
    obtain ⟨rfl, rfl⟩ := by simpa using h
    refine ⟨?_, ?_, ?_, rfl, .inr ⟨?_, fun i hi => Function.update_of_ne hi ..⟩⟩
    · show ((v.lf_dir.lfd_nfiles.toNat : Nat) : Int) < v.lf_dir.lfd_nfiles + 1
      omega
    · simp only [Lfdata.setEntry, Function.update_self]
      exact sameName_lfCopyName hname _
    · show v.lf_dir.lfd_nfiles ≤ v.lf_dir.lfd_nfiles + 1
      omega
    · show v.lf_dir.lfd_nfiles = (v.lf_dir.lfd_nfiles.toNat : Int)
      omega

/-- **A claim of what is unclaimed keeps the table.** -/
theorem Table.claim (h : Table fs live) (hp : fs.Lf_data.lf_dirpresent = true)
    (hname : name.1.length < LF_NAME_LEN) {e : Fin LF_NUM_DIR_ENT} {v : Lfdata}
    (he : lfsopenEntry fs.Lf_data name mbits = some (e, v)) (hc : Unclaimed fs.lfltab name lfnext) :
    Table (fs.put v lfnext (lfsopenBlock (fs.lfltab lfnext) e name mbits))
      (⟨lfnext, e⟩ :: live) := by
  obtain ⟨hin, hsame, hle, hpres, hfiles⟩ := lfsopenEntry_some hname he
  set t := Function.update fs.lfltab lfnext (lfsopenBlock (fs.lfltab lfnext) e name mbits) with ht
  have hself : t lfnext = lfsopenBlock (fs.lfltab lfnext) e name mbits :=
    Function.update_self ..
  have hother : ∀ d, d ≠ lfnext → t d = fs.lfltab d := fun d hd => Function.update_of_ne hd ..
  -- an open file's entry is another one, and it is still there
  have hne : ∀ d, (fs.lfltab d).lfstate = .LF_USED → (fs.lfltab d).lfdirptr ≠ e := by
    intro d hd heq
    obtain ⟨n, hn1, hn2⟩ := h.named d hd
    rcases hfiles with hsame' | ⟨hnew, -⟩
    · rw [heq, ← hsame'] at hn2
      rw [sameName_unique hn2 hsame] at hn1
      exact hc.2 d hd hn1
    · have := h.inside d hd
      rw [heq] at this
      omega
  have hkept : ∀ d, (fs.lfltab d).lfstate = .LF_USED →
      v.lf_dir.lfd_files (fs.lfltab d).lfdirptr =
        fs.Lf_data.lf_dir.lfd_files (fs.lfltab d).lfdirptr := by
    intro d hd
    rcases hfiles with hall | ⟨-, hall⟩
    · exact hall _
    · exact hall _ (hne d hd)
  constructor
  · intro d _
    exact hpres.trans hp
  · intro d hd
    show ((t d).lfdirptr : Int) < v.lf_dir.lfd_nfiles
    by_cases hdn : d = lfnext
    · rw [hdn, hself]
      exact hin
    · have hd' : (t d).lfstate = .LF_USED := hd
      rw [hother d hdn] at hd' ⊢
      exact (h.inside d hd').trans_le hle
  · intro d hd
    show ∃ n : Str, sameName n.1 (chars (t d).lfname) ∧
      sameName n.1 (chars (v.lf_dir.lfd_files (t d).lfdirptr).ld_name)
    by_cases hdn : d = lfnext
    · rw [hdn, hself]
      exact ⟨name, sameName_lfCopyName hname _, hsame⟩
    · have hd' : (t d).lfstate = .LF_USED := hd
      rw [hother d hdn] at hd' ⊢
      rw [hkept d hd']
      exact h.named d hd'
  · intro d d' hd hd' hdd
    have hd : (t d).lfstate = .LF_USED := hd
    have hd' : (t d').lfstate = .LF_USED := hd'
    show (t d).lfdirptr ≠ (t d').lfdirptr
    by_cases h1 : d = lfnext
    · have h2 : d' ≠ lfnext := fun h2 => hdd (h1.trans h2.symm)
      rw [hother d' h2] at hd' ⊢
      rw [h1, hself]
      exact (hne d' hd').symm
    · rw [hother d h1] at hd ⊢
      by_cases h2 : d' = lfnext
      · rw [h2, hself]
        exact hne d hd
      · rw [hother d' h2] at hd' ⊢
        exact h.apart d d' hd hd' hdd
  · intro r hr
    show (t r.dev).lfstate = .LF_USED ∧ (t r.dev).lfdirptr = r.file
    rcases List.mem_cons.mp hr with rfl | hr
    · rw [hself]
      exact ⟨rfl, rfl⟩
    · obtain ⟨hu, hf⟩ := h.used r hr
      have hrn : r.dev ≠ lfnext := by
        intro hrn
        rw [hrn, hc.1] at hu
        exact absurd hu (by decide)
      rw [hother _ hrn]
      exact ⟨hu, hf⟩
  · refine List.pairwise_cons.mpr ⟨fun r hr hrn => ?_, h.distinct⟩
    have hu := (h.used r hr).1
    rw [← hrn, hc.1] at hu
    exact absurd hu (by decide)

/-! ## 6. The invariant

`OpenInv` is the table together with who may be reading the directory.  Each part of a call that
changes the file system has one lemma here. -/

/-- The name of an open is short enough for the tables. -/
def LfsPc.Short : LfsPc → Prop
  | .openWait name _ _ => name.1.length < LF_NAME_LEN
  | .openRead name _ _ => name.1.length < LF_NAME_LEN
  | _ => True

/-- The process is reading the directory. -/
def LfsPc.Reading : LfsPc → Prop
  | .openRead _ _ _ => True
  | _ => False

/-- The table is in order, and only the holder of `lf_mutex` reads the directory, as long as it is
not present. -/
structure OpenInv (x : LfsSys) : Prop where
  table : Table x.fs x.live
  short : ∀ p, (x.pc p).Short
  reading : ∀ p, (x.pc p).Reading → x.lf_mutex = some p ∧ x.fs.Lf_data.lf_dirpresent = false

variable {x x' : LfsSys} {p : Nat} {d : Fin Nlfl} {c : LfsPc}

theorem OpenInv.setPc (h : OpenInv x) (hs : c.Short) (hr : ¬ c.Reading) :
    OpenInv (x.setPc p c) where
  table := h.table
  short q := by
    show (Function.update x.pc p c q).Short
    by_cases hq : q = p
    · rwa [hq, Function.update_self]
    · rw [Function.update_of_ne hq]
      exact h.short q
  reading q hq := by
    have hq : (Function.update x.pc p c q).Reading := hq
    have hqp : q ≠ p := by
      rintro rfl
      rw [Function.update_self] at hq
      exact hr hq
    rw [Function.update_of_ne hqp] at hq
    exact h.reading q hq

/-- The mutex of one file does not matter. -/
theorem OpenInv.setLfmutex (h : OpenInv x) (m : Fin Nlfl → Option Nat) :
    OpenInv { x with lfmutex := m } := ⟨h.table, h.short, h.reading⟩

/-- What `lfflush` changes does not matter. -/
theorem OpenInv.congr (h : OpenInv x) (fs : Lfs) (hdir : fs.Lf_data.lf_dir = x.fs.Lf_data.lf_dir)
    (hpresent : fs.Lf_data.lf_dirpresent = x.fs.Lf_data.lf_dirpresent)
    (htab : ∀ d, (fs.lfltab d).lfstate = (x.fs.lfltab d).lfstate ∧
      (fs.lfltab d).lfdirptr = (x.fs.lfltab d).lfdirptr ∧
      (fs.lfltab d).lfname = (x.fs.lfltab d).lfname) : OpenInv { x with fs := fs } where
  table := h.table.congr hdir hpresent htab
  short := h.short
  reading q hq := ⟨(h.reading q hq).1, hpresent.trans (h.reading q hq).2⟩

/-- Changing one control block's flags and blocks only. -/
theorem OpenInv.put (h : OpenInv x) (v : Lfdata) (lfptr : Lflcblk)
    (hdir : v.lf_dir = x.fs.Lf_data.lf_dir)
    (hpresent : v.lf_dirpresent = x.fs.Lf_data.lf_dirpresent)
    (hstate : lfptr.lfstate = (x.fs.lfltab d).lfstate)
    (hptr : lfptr.lfdirptr = (x.fs.lfltab d).lfdirptr)
    (hname : lfptr.lfname = (x.fs.lfltab d).lfname) :
    OpenInv { x with fs := x.fs.put v d lfptr } := by
  refine h.congr _ hdir hpresent fun d' => ?_
  by_cases hd : d' = d
  · rw [hd]
    simp only [Lfs.put, Function.update_self]
    exact ⟨hstate, hptr, hname⟩
  · have he : (x.fs.put v d lfptr).lfltab d' = x.fs.lfltab d' := Function.update_of_ne hd ..
    rw [he]
    exact ⟨rfl, rfl, rfl⟩

theorem OpenInv.release (h : OpenInv x) : OpenInv (x.release p d) := by
  have hidle : OpenInv (x.setPc p .idle) := h.setPc trivial fun hf => hf
  exact ⟨h.table.release d, hidle.short, hidle.reading⟩

theorem OpenInv.afterData (h : OpenInv x) : OpenInv (x.afterData p d) := by
  rw [LfsSys.afterData]
  split_ifs
  · exact h.setPc trivial fun hf => hf
  · exact h.release

theorem OpenInv.afterDir (h : OpenInv x) : OpenInv (x.afterDir p d) := by
  rw [LfsSys.afterDir]
  split_ifs
  · exact h.setPc trivial fun hf => hf
  · exact h.afterData

/-- **A claim keeps the invariant**, made with the directory present and nobody reading it. -/
theorem OpenInv.claim (ht : Table x.fs x.live) (hs : ∀ q, (x.pc q).Short)
    (hr : ∀ q ≠ p, ¬ (x.pc q).Reading) (hp : x.fs.Lf_data.lf_dirpresent = true)
    (hname : name.1.length < LF_NAME_LEN)
    (hc : lfsopenEntry x.fs.Lf_data name mbits = none ∨ Unclaimed x.fs.lfltab name lfnext)
    (h : x.claim p name mbits lfnext = some x') : OpenInv x' := by
  rw [LfsSys.claim] at h
  split_ifs at h
  obtain rfl := Option.some.inj h
  refine ⟨?_, fun q => ?_, fun q hq => ?_⟩
  · show Table (lfsopenClaim x.fs name mbits lfnext).2 _
    rw [lfsopenClaim]
    cases he : lfsopenEntry x.fs.Lf_data name mbits with
    | none => exact ht
    | some r =>
      rcases hc with hc | hc
      · rw [he] at hc
        exact absurd hc (by simp)
      · exact ht.claim hp hname he hc
  · show (Function.update x.pc p .idle q).Short
    by_cases hq : q = p
    · rw [hq, Function.update_self]
      trivial
    · rw [Function.update_of_ne hq]
      exact hs q
  · have hq : (Function.update x.pc p .idle q).Reading := hq
    by_cases hqp : q = p
    · rw [hqp, Function.update_self] at hq
      exact hq.elim
    · rw [Function.update_of_ne hqp] at hq
      exact absurd hq (hr q hqp)

/-- What reading the directory leaves, when it succeeds. -/
theorem lfsopenDir_ok {v : Lfdata} (h : (lfsopenDir v).1 ≠ SYSERR) :
    (lfsopenDir v).2.lf_dirpresent = true := by
  revert h
  rw [lfsopenDir]
  dsimp only
  split_ifs with hp
  · exact fun _ => hp
  · exact fun h => absurd rfl h
  · exact fun h => absurd rfl h
  · exact fun _ => rfl

/-! ## 7. The steps

By the event, and for an event of a call under way by the point that the call has reached. -/

/-- The disk operation of an open. -/
theorem OpenInv.arrive (h : OpenInv x) (hpc : x.pc p = .openRead name mbits lfnext)
    (hok : StillFree x (.disk p)) (hs : x.disk p = some x') : OpenInv x' := by
  have hread := h.reading p (by rw [hpc]; trivial)
  have hfree := h.table.free hread.2
  have hlive := h.table.live_nil hfree
  have hothers : ∀ q ≠ p, ¬ (x.pc q).Reading := by
    intro q hq hqr
    have hm := (h.reading q hqr).1
    rw [hread.1] at hm
    exact hq (Option.some.inj hm).symm
  rw [LfsSys.disk, hpc] at hs
  dsimp only at hs
  split_ifs at hs with herr
  · obtain rfl := Option.some.inj hs
    have hidle : OpenInv (x.setPc p .idle) := h.setPc trivial fun hf => hf
    refine ⟨?_, hidle.short, fun q hq => ?_⟩
    · show Table _ x.live
      rw [hlive]
      exact .unused hfree
    · have hq : (Function.update x.pc p .idle q).Reading := hq
      by_cases hqp : q = p
      · rw [hqp, Function.update_self] at hq
        exact hq.elim
      · rw [Function.update_of_ne hqp] at hq
        exact absurd hq (hothers q hqp)
  · have hc : x.claims (.disk p) = some ((lfsopenDir x.fs.Lf_data).2, name, mbits, lfnext) := by
      rw [LfsSys.claims, hpc]
      exact if_neg herr
    rw [StillFree, hc, Option.all_some, Bool.or_eq_true, Option.isNone_iff_eq_none,
      decide_eq_true_iff] at hok
    have hshort := h.short p
    rw [hpc] at hshort
    refine OpenInv.claim (x := { x with fs.Lf_data := (lfsopenDir x.fs.Lf_data).2 }) ?_ h.short
      hothers (lfsopenDir_ok herr) hshort hok hs
    show Table _ x.live
    rw [hlive]
    exact .unused hfree

theorem OpenInv.disk (h : OpenInv x) (hok : StillFree x (.disk p)) (hs : x.disk p = some x') :
    OpenInv x' := by
  cases hpc : x.pc p with
  | openRead name mbits lfnext => exact h.arrive hpc hok hs
  | flushDir d =>
    rw [LfsSys.disk, hpc] at hs
    obtain rfl := Option.some.inj hs
    exact OpenInv.afterDir (h.congr _ rfl rfl fun _ => ⟨rfl, rfl, rfl⟩)
  | flushData d =>
    rw [LfsSys.disk, hpc] at hs
    obtain rfl := Option.some.inj hs
    exact OpenInv.afterData (h.put _ _ rfl rfl rfl rfl rfl)
  | flushRead d =>
    rw [LfsSys.disk, hpc] at hs
    dsimp only at hs
    split_ifs at hs
    · obtain rfl := Option.some.inj hs
      exact OpenInv.release (h.put _ _ rfl rfl rfl rfl rfl)
    · obtain rfl := Option.some.inj hs
      exact h.setPc trivial fun hf => hf
  | flushWrite d dbuff =>
    rw [LfsSys.disk, hpc] at hs
    obtain rfl := Option.some.inj hs
    exact OpenInv.release (h.put _ _ rfl rfl rfl rfl rfl)
  | idle => rw [LfsSys.disk, hpc] at hs; exact absurd hs (by simp)
  | openWait _ _ _ => rw [LfsSys.disk, hpc] at hs; exact absurd hs (by simp)
  | closeWait _ => rw [LfsSys.disk, hpc] at hs; exact absurd hs (by simp)

/-- A mutex is taken: `lf_mutex` by an open, or a file's mutex by a close. -/
theorem OpenInv.enter (h : OpenInv x) (hok : StillFree x (.enter p))
    (hs : x.step (.enter p) = some x') : OpenInv x' := by
  rw [LfsSys.step] at hs
  cases hpc : x.pc p with
  | openWait name mbits lfnext =>
    rw [hpc] at hs
    dsimp only at hs
    have hshort := h.short p
    rw [hpc] at hshort
    split_ifs at hs with hm hp
    · have hc : x.claims (.enter p) = some (x.fs.Lf_data, name, mbits, lfnext) := by
        rw [LfsSys.claims, hpc]
        exact if_pos hp
      rw [StillFree, hc, Option.all_some, Bool.or_eq_true, Option.isNone_iff_eq_none,
        decide_eq_true_iff] at hok
      refine OpenInv.claim h.table h.short (fun q _ hq => ?_) hp hshort hok hs
      rw [(h.reading q hq).2] at hp
      exact absurd hp (by decide)
    · obtain rfl := Option.some.inj hs
      refine ⟨h.table, fun q => ?_, fun q hq => ?_⟩
      · show (Function.update x.pc p _ q).Short
        by_cases hq : q = p
        · rw [hq, Function.update_self]
          exact hshort
        · rw [Function.update_of_ne hq]
          exact h.short q
      · have hq : (Function.update x.pc p _ q).Reading := hq
        by_cases hqp : q = p
        · rw [hqp]
          exact ⟨rfl, Bool.eq_false_iff.mpr hp⟩
        · rw [Function.update_of_ne hqp] at hq
          exact absurd (h.reading q hq).1 (by simpa using fun he => hm (by rw [he]; simp))
  | closeWait d =>
    rw [hpc] at hs
    dsimp only at hs
    split_ifs at hs
    · obtain rfl := Option.some.inj hs
      exact h.setPc trivial fun hf => hf
    · obtain rfl := Option.some.inj hs
      exact OpenInv.setPc (h.setLfmutex _) trivial fun hf => hf
    · obtain rfl := Option.some.inj hs
      exact OpenInv.afterDir (h.setLfmutex _)
  | idle => rw [hpc] at hs; exact absurd hs (by simp)
  | openRead _ _ _ => rw [hpc] at hs; exact absurd hs (by simp)
  | flushDir _ => rw [hpc] at hs; exact absurd hs (by simp)
  | flushData _ => rw [hpc] at hs; exact absurd hs (by simp)
  | flushRead _ => rw [hpc] at hs; exact absurd hs (by simp)
  | flushWrite _ _ => rw [hpc] at hs; exact absurd hs (by simp)

/-- A call begins. -/
theorem OpenInv.open (h : OpenInv x) {mode : Str} (hs : x.step (.open p name mode) = some x') :
    OpenInv x' := by
  rw [LfsSys.step] at hs
  split at hs
  · split_ifs at hs with hlen
    · obtain rfl := Option.some.inj hs
      exact h
    · split at hs
      · obtain rfl := Option.some.inj hs
        exact h
      · split at hs
        · obtain rfl := Option.some.inj hs
          exact h
        · obtain rfl := Option.some.inj hs
          exact h.setPc (not_le.mp hlen) fun hf => hf
  · exact absurd hs (by simp)

theorem OpenInv.close (h : OpenInv x) (hs : x.step (.close p d) = some x') : OpenInv x' := by
  rw [LfsSys.step] at hs
  split at hs
  · obtain rfl := Option.some.inj hs
    exact h.setPc trivial fun hf => hf
  · exact absurd hs (by simp)

/-- **Every step whose claim still finds what the search found keeps the invariant.** -/
theorem OpenInv.step {ev : LfsEvent} (h : OpenInv x) (hok : StillFree x ev)
    (hs : x.step ev = some x') : OpenInv x' := by
  cases ev with
  | «open» p name mode => exact h.open hs
  | close p d => exact h.close hs
  | enter p => exact h.enter hok hs
  | disk p => exact h.disk hok hs

/-! ## 8. The result

The condition is met by opens that come one after the other, and it is needed: two opens that come
together collide. -/

/-- No call is under way, and the table of open files is in order. -/
structure LfsSys.AtRest (x : LfsSys) : Prop where
  table : Table x.fs x.live
  idle : ∀ p, x.pc p = .idle

theorem LfsSys.atRest_boot (k : Disk) (dev : Fin Nlfl → Int) : (boot k dev).AtRest where
  table := .unused fun _ => rfl
  idle _ := rfl

/-- **Open files are apart.**  From a state at rest, through every interleaving of opens and closes
in which each claim still finds its pseudo-device free and the file not open, two opens that have
succeeded and are still open have different pseudo-devices and different files. -/
theorem opens_apart {x₀ x : LfsSys} (h : x₀.AtRest) (hr : Reaches LfsSys.step StillFree x₀ x) :
    x.live.Pairwise OpenFile.Apart := by
  have hinv : OpenInv x := by
    refine hr.invariant (I := OpenInv) ⟨h.table, fun p => ?_, fun p hp => ?_⟩
      fun _ _ _ hi hok hs => hi.step hok hs
    · rw [h.idle p]
      trivial
    · rw [h.idle p] at hp
      exact hp.elim
  exact hinv.table.pairwise

/-- Mode `"rw"`. -/
def modeRw : Str := ⟨[114, 119], by decide⟩

def nameA : Str := fileA
def nameB : Str := ⟨[98], by decide⟩

/-- A disk whose sectors hold an empty directory. -/
def emptyDirDisk : Disk where
  sector _ := Layout.lfdir.put
    { lfd_fsysid := LFS_ID, lfd_vers := 0, lfd_allzeros := 0, lfd_allones := 0xffffffff
      lfd_dfree := LF_DNULL, lfd_ifree := LF_INULL, lfd_nfiles := 0
      lfd_files := fun _ => { ld_size := 0, ld_ilist := LF_INULL, ld_name := fun _ => 0 }
      lfd_revid := 0x756E6958 }
  bad _ := false

/-- One open after the other. -/
theorem opens_apart_inTurn : ∃ x,
    Reaches LfsSys.step StillFree (LfsSys.boot emptyDirDisk fun d => 18 + d) x ∧
      x.live = [⟨1, 1⟩, ⟨0, 0⟩] ∧ x.live.Pairwise OpenFile.Apart := by
  have h1 : (exec LfsSys.step StillFree (LfsSys.boot emptyDirDisk fun d => 18 + d)
      [.open 1 nameA modeRw, .enter 1, .disk 1, .open 2 nameB modeRw, .enter 2]).map
        LfsSys.live = some [⟨1, 1⟩, ⟨0, 0⟩] := by
    decide +kernel
  obtain ⟨x, hx, hl⟩ := Option.map_eq_some_iff.mp h1
  have hr := reaches_of_exec hx
  exact ⟨x, hr, hl, opens_apart (LfsSys.atRest_boot _ _) hr⟩

/-- While the first open reads the directory, a second one finds the same pseudo-device free. -/
theorem opens_collide : ∃ x,
    Reaches LfsSys.step always (LfsSys.boot emptyDirDisk fun d => 18 + d) x ∧
      x.live = [⟨0, 1⟩, ⟨0, 0⟩] ∧ ¬ x.live.Pairwise OpenFile.Apart := by
  have h1 : (exec LfsSys.step always (LfsSys.boot emptyDirDisk fun d => 18 + d)
      [.open 1 nameA modeRw, .enter 1, .open 2 nameB modeRw, .disk 1, .enter 2]).map
        LfsSys.live = some [⟨0, 1⟩, ⟨0, 0⟩] := by
    decide +kernel
  obtain ⟨x, hx, hl⟩ := Option.map_eq_some_iff.mp h1
  refine ⟨x, reaches_of_exec hx, hl, ?_⟩
  rw [hl]
  decide

end Xinu
