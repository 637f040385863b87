/-
# The namespace: `mount.c`, `nammap.c`

The namespace is a table of prefixes.  A name is mapped by the first entry whose prefix it begins
with: the prefix is replaced, and the entry says to which device the new name belongs.  If that is
the namespace itself, the new name is meant to be mapped again, and so on until another device is
reached (`mapName`).

`nammap` has the loop for this, but it substitutes into `tmpname` every time and never copies the
new name there.  So a name that leads to the namespace is never mapped, whatever the table says.

`namrepl`, which does one substitution, keeps the length of the name in a `char`.  From 127
characters on it is negative there, and of the new name only the replacement is written, without a
null character behind it.

`nammap_right_iff` says for which names neither matters, and `namrepl_right_iff` for which names the
one substitution is right.
-/
import Xinu.Lfs

namespace Xinu
namespace Names

open ByteMemory

/-! ## 1. `name.h`

The number of devices comes from the configuration and is part of the table.  A string in the
table fits into its array, as `mount` has checked. -/

def NM_PRELEN : Nat := 64
def NM_REPLLEN : Nat := 96
def NM_MAXLEN : Nat := 256
def NNAMES : Nat := 40

/-- `NDEVS` of the `conf.h` in the repository.  The configuration program writes there the number of
the devices, so in what follows it is a parameter of the table. -/
def NDEVS : Int := 24

def isbaddev (ndevs f : Int) : Prop := f < 0 ∨ f ≥ ndevs

instance (ndevs f : Int) : Decidable (isbaddev ndevs f) := inferInstanceAs (Decidable (_ ∨ _))

/-- Strings that fit, with their null character, in `n` bytes. -/
abbrev Fits (n : Nat) := { s : Str // s.val.length < n }

/-- `struct nmentry`, where there are `ndevs` devices. -/
structure Nmentry (ndevs : Int) where
  nprefix : Fits NM_PRELEN
  nreplace : Fits NM_REPLLEN
  ndevice : Int
  device_ok : ¬ isbaddev ndevs ndevice
  deriving DecidableEq

/-- A string as an array. -/
def chars (s : Str) (i : Nat) : UInt8 := s.val.getD i 0

/-- The loop of `namlen`, when `n` characters may still be looked at. -/
def namlenLoop (name : Nat → UInt8) : Nat → Nat → Int
  | 0, _ => SYSERR
  | n + 1, i => if name i = 0 then i + 1 else namlenLoop name n (i + 1)

/-- `namlen(name, maxlen)`. -/
def namlen (name : Nat → UInt8) (maxlen : Nat) : Int := namlenLoop name maxlen 0

variable {ndevs : Int} {name : Nat → UInt8} {text pre : List UInt8} {i n : Nat}

theorem namlenLoop_eq (h : StringAt name i text) :
    namlenLoop name n i = if text.length < n then (i + text.length + 1 : Int) else SYSERR := by
  induction n generalizing i text with
  | zero => rfl
  | succ n ih =>
    rw [namlenLoop]
    cases text with
    | nil =>
      rw [if_pos (stringAt_nil.mp h), List.length_nil, if_pos (Nat.succ_pos n)]
      simp
    | cons c text =>
      obtain ⟨hc, hne, ht⟩ := stringAt_cons.mp h
      rw [hc, if_neg hne, ih ht, List.length_cons]
      by_cases hlt : text.length < n
      · rw [if_pos hlt, if_pos (by omega)]
        push_cast
        ring
      · rw [if_neg hlt, if_neg (by omega)]

/-- **The length, with the null character**, if the string fits. -/
theorem namlen_eq (h : StringAt name 0 text) :
    namlen name n = if text.length < n then (text.length + 1 : Int) else SYSERR := by
  rw [namlen, namlenLoop_eq h]
  simp

theorem chars_string (s : Str) : StringAt (chars s) 0 s.val := by
  refine stringAt_of_get s.property (fun j hj => ?_) ?_
  · rw [chars, Nat.zero_add, List.getD_eq_getElem?_getD, List.getElem?_eq_getElem hj]
    rfl
  · rw [chars, Nat.zero_add, List.getD_eq_getElem?_getD, List.getElem?_eq_none le_rfl]
    rfl

theorem namlen_fits {s : Str} (h : namlen (chars s) n ≠ SYSERR) : s.val.length < n := by
  by_contra hno
  rw [namlen_eq (chars_string s), if_neg hno] at h
  exact h rfl

/-- `mount(prefix, replace, device)`.  The table is `nametab` up to `nnames`. -/
def mount (pre replace : Str) (device : Int) (tab : List (Nmentry ndevs)) :
    List (Nmentry ndevs) × Int :=
  if h : namlen (chars pre) NM_PRELEN ≠ SYSERR ∧ namlen (chars replace) NM_REPLLEN ≠ SYSERR ∧
      ¬ isbaddev ndevs device ∧ tab.length < NNAMES then
    (tab ++ [⟨⟨pre, namlen_fits h.1⟩, ⟨replace, namlen_fits h.2.1⟩, device, h.2.2.1⟩], OK)
  else (tab, SYSERR)

/-! ## 2. `nammap.c`

Buffers are functions on indices, so that what stands in them before a call, and what is written
beyond their end, can be spoken of. -/

/-- The loop of `namcpy`, from the character `cnt` on. -/
def namcpyLoop (oldname : Nat → UInt8) : Nat → Nat → (Nat → UInt8) → (Nat → UInt8) × Int
  | 0, _, newname => (newname, SYSERR)
  | n + 1, cnt, newname =>
    let newname := Function.update newname cnt (oldname cnt)
    if oldname cnt = 0 then (newname, OK) else namcpyLoop oldname n (cnt + 1) newname

/-- `namcpy(newname, oldname, buflen)`. -/
def namcpy (newname oldname : Nat → UInt8) (buflen : Nat) : (Nat → UInt8) × Int :=
  namcpyLoop oldname buflen 0 newname

/-- Compare prefix to string and count prefix size. -/
def comparePrefix : List UInt8 → (Nat → UInt8) → Nat → Option Nat
  | [], _, plen => some plen
  | c :: pptr, name, plen => if c ≠ name plen then none else comparePrefix pptr name (plen + 1)

/-- Copy `n` characters, from `src[i]` on to `dst[j]` on. -/
def copyChars (src : Nat → UInt8) : Nat → Nat → Nat → (Nat → UInt8) → Nat → UInt8
  | 0, _, _, dst => dst
  | n + 1, i, j, dst => copyChars src n (i + 1) (j + 1) (Function.update dst j (src i))

/-- What a `char` holds. -/
def char (x : Int) : Int := (x + 128) % 256 - 128

/-- `namrepl(name, newname)`, from an entry of the table on. -/
def namrepl (name newname : Nat → UInt8) : List (Nmentry ndevs) → (Nat → UInt8) × Int
  | [] => (newname, SYSERR)
  | namptr :: rest =>
    match comparePrefix namptr.nprefix.val.val name 0 with
    | none => namrepl name newname rest
    | some plen =>
      let olen := char (namlen name NM_MAXLEN)
      let rlen := namlen (chars namptr.nreplace.val) NM_MAXLEN - 1
      let remain := olen - plen
      if rlen + remain > NM_MAXLEN then (newname, SYSERR)
      else
        let newname := copyChars (chars namptr.nreplace.val) rlen.toNat 0 0 newname
        let newname := copyChars name remain.toNat plen rlen.toNat newname
        (newname, namptr.ndevice)

/-- The loop of `nammap`.  The copy into `tmpname` before it returns is left out: nothing reads it
any more. -/
def nammapLoop (tab : List (Nmentry ndevs)) (tmpname : Nat → UInt8) (namdev : Int) :
    Nat → (Nat → UInt8) → (Nat → UInt8) × Int
  | 0, newname => (newname, SYSERR)
  | n + 1, newname =>
    let (newname, newdev) := namrepl tmpname newname tab
    if newdev ≠ namdev then (newname, newdev) else nammapLoop tab tmpname namdev n newname

/-- `nammap(name, newname, namdev)`.  The array `tmpname` is not initialized. -/
def nammap (tab : List (Nmentry ndevs)) (tmpname name newname : Nat → UInt8) (namdev : Int) :
    (Nat → UInt8) × Int :=
  let (tmpname, r) := namcpy tmpname name NM_MAXLEN
  if r = SYSERR then (newname, SYSERR) else nammapLoop tab tmpname namdev tab.length newname

/-! ## 3. What it is for

The same on strings, without buffers: what a user of the namespace expects. -/

/-- The entry for a name: the first whose prefix it begins with. -/
def entryFor (tab : List (Nmentry ndevs)) (name : List UInt8) : Option (Nmentry ndevs) :=
  tab.find? fun e => e.nprefix.val.val <+: name

/-- The name after the substitution. -/
def Nmentry.apply (e : Nmentry ndevs) (name : List UInt8) : List UInt8 :=
  e.nreplace.val.val ++ name.drop e.nprefix.val.val.length

/-- **One substitution**: the device and the new name.  It fails if the name is not in the table, or
if the name or the new one does not fit. -/
def substitute (tab : List (Nmentry ndevs)) (name : List UInt8) : Option (Int × List UInt8) :=
  if name.length < NM_MAXLEN then
    (entryFor tab name).bind fun e =>
      if (e.apply name).length < NM_MAXLEN then some (e.ndevice, e.apply name) else none
  else none

/-- **The map of a name**: at most `n` substitutions, up to the first that leaves the namespace. -/
def mapName (tab : List (Nmentry ndevs)) (namdev : Int) :
    Nat → List UInt8 → Option (Int × List UInt8)
  | 0, _ => none
  | n + 1, name => (substitute tab name).bind fun r =>
    if r.1 ≠ namdev then some r else mapName tab namdev n r.2

variable {tab : List (Nmentry ndevs)} {namdev : Int} {newname : Nat → UInt8} {e : Nmentry ndevs}

/-- Tables that a list of mounts makes of an empty one. -/
def mountAll (ms : List (Str × Str × Int)) : List (Nmentry ndevs) :=
  ms.foldl (fun tab m => (mount m.1 m.2.1 m.2.2 tab).1) []

/-! ## 4. The copies

What the copying loops leave at each index. -/

variable {dst src : Nat → UInt8} {j x : Nat}

theorem copyChars_apply : copyChars src n i j dst x =
    if j ≤ x ∧ x < j + n then src (i + (x - j)) else dst x := by
  induction n generalizing i j dst with
  | zero => rw [copyChars, if_neg (by omega)]
  | succ n ih =>
    rw [copyChars, ih]
    by_cases hx : x = j
    · subst hx
      rw [if_neg (by omega), if_pos (by omega), Function.update_self, Nat.sub_self, Nat.add_zero]
    · rw [Function.update_of_ne hx]
      by_cases hin : j ≤ x ∧ x < j + (n + 1)
      · rw [if_pos (by omega), if_pos hin]
        congr 1
        omega
      · rw [if_neg (by omega), if_neg hin]

/-- **`namcpy` copies a name that fits.** -/
theorem namcpyLoop_fits (h : StringAt src i text) (hlt : text.length < n) :
    ∃ dst', namcpyLoop src n i dst = (dst', OK) ∧ (∀ x < i, dst' x = dst x) ∧
      StringAt dst' i text := by
  induction n generalizing i text dst with
  | zero => omega
  | succ n ih =>
    rw [namcpyLoop]
    cases text with
    | nil =>
      have h0 := stringAt_nil.mp h
      refine ⟨Function.update dst i (src i), by simp only [h0, if_true], fun x hx => ?_, ?_⟩
      · exact Function.update_of_ne (by omega) _ _
      · rw [stringAt_nil, Function.update_self, h0]
    | cons c text =>
      obtain ⟨hc, hne, ht⟩ := stringAt_cons.mp h
      rw [List.length_cons] at hlt
      obtain ⟨dst', hrun, hkeep, hs⟩ := @ih _ _ (Function.update dst i (src i)) ht (by omega)
      refine ⟨dst', by simp only [hc, if_neg hne] at hrun ⊢; exact hrun, fun x hx => ?_, ?_⟩
      · rw [hkeep x (by omega), Function.update_of_ne (by omega)]
      · rw [stringAt_cons, hkeep i (by omega), Function.update_self]
        exact ⟨hc, hne, hs⟩

theorem namcpyLoop_long (h : StringAt src i text) (hle : n ≤ text.length) :
    (namcpyLoop src n i dst).2 = SYSERR := by
  induction n generalizing i text dst with
  | zero => rfl
  | succ n ih =>
    cases text with
    | nil => simp at hle
    | cons c text =>
      obtain ⟨hc, hne, ht⟩ := stringAt_cons.mp h
      rw [List.length_cons] at hle
      simp only [namcpyLoop, hc, if_neg hne]
      exact ih ht (by omega)

/-! ## 5. One substitution

`namrepl` is right about the entry and the device in any case.  About the new name it is right if
the length of the name fits into a `char`. -/

/-- **The comparison is right.** -/
theorem comparePrefix_eq (h : StringAt name i text) (hpre : (0 : UInt8) ∉ pre) :
    comparePrefix pre name i = if pre <+: text then some (i + pre.length) else none := by
  induction pre generalizing i text with
  | nil => rw [comparePrefix, if_pos List.nil_prefix, List.length_nil, Nat.add_zero]
  | cons c pre ih =>
    rw [List.mem_cons, not_or] at hpre
    rw [comparePrefix]
    cases text with
    | nil =>
      rw [stringAt_nil.mp h, if_pos (Ne.symm hpre.1), if_neg (by simp)]
    | cons d text =>
      obtain ⟨hd, -, ht⟩ := stringAt_cons.mp h
      rw [hd, ih ht hpre.2]
      by_cases hcd : c = d
      · rw [if_neg (not_not.mpr hcd)]
        simp only [List.cons_prefix_cons, hcd, true_and, List.length_cons]
        congr 2
        omega
      · rw [if_pos hcd, if_neg]
        intro hp
        exact hcd (List.cons_prefix_cons.mp hp).1

/-- The new name, when the length that `namrepl` computes leaves `remain` characters. -/
def Nmentry.write (e : Nmentry ndevs) (name newname : Nat → UInt8) (remain : Nat) : Nat → UInt8 :=
  copyChars name remain e.nprefix.val.val.length e.nreplace.val.val.length
    (copyChars (chars e.nreplace.val) e.nreplace.val.val.length 0 0 newname)

/-- **`namrepl` finds the entry for the name.** -/
theorem namrepl_eq (h : StringAt name 0 text) : namrepl name newname tab =
    match entryFor tab text with
    | none => (newname, SYSERR)
    | some e =>
      if e.nreplace.val.val.length + (char (namlen name NM_MAXLEN) - e.nprefix.val.val.length) >
        NM_MAXLEN then (newname, SYSERR)
      else (e.write name newname
        (char (namlen name NM_MAXLEN) - e.nprefix.val.val.length).toNat, e.ndevice) := by
  induction tab with
  | nil => rfl
  | cons e tab ih =>
    have hr : namlen (chars e.nreplace.val) NM_MAXLEN - 1 = e.nreplace.val.val.length := by
      have hlt := e.nreplace.property
      have h96 : NM_REPLLEN ≤ NM_MAXLEN := by decide
      rw [namlen_eq (chars_string _), if_pos (by omega), add_sub_cancel_right]
    rw [namrepl, comparePrefix_eq h e.nprefix.val.property, entryFor, List.find?_cons, hr]
    by_cases hp : e.nprefix.val.val <+: text
    · rw [if_pos hp, decide_eq_true hp]
      simp only [Nat.zero_add, Int.toNat_natCast]
      rfl
    · rw [if_neg hp, decide_eq_false hp]
      exact ih

/-- An entry's prefix is not longer than the name. -/
theorem entryFor_matches (h : entryFor tab text = some e) : e.nprefix.val.val <+: text := by
  simpa using List.find?_some h

theorem write_apply (remain : Nat) : e.write name newname remain x =
    if x < e.nreplace.val.val.length then chars e.nreplace.val x
    else if x < e.nreplace.val.val.length + remain then
      name (e.nprefix.val.val.length + (x - e.nreplace.val.val.length))
    else newname x := by
  rw [Nmentry.write, copyChars_apply, copyChars_apply]
  by_cases h1 : x < e.nreplace.val.val.length
  · rw [if_neg (by omega), if_pos ⟨Nat.zero_le _, by omega⟩, if_pos h1, Nat.zero_add, Nat.sub_zero]
  · rw [if_neg h1]
    by_cases h2 : x < e.nreplace.val.val.length + remain
    · rw [if_pos ⟨by omega, h2⟩, if_pos h2]
    · rw [if_neg (by omega), if_neg h2, if_neg (by omega)]

/-- **The whole rest of the name makes the new name.** -/
theorem write_string (h : StringAt name 0 text) (hp : e.nprefix.val.val <+: text) :
    StringAt (e.write name newname (text.length + 1 - e.nprefix.val.val.length)) 0
      (e.apply text) := by
  have hle := hp.length_le
  have hlen : (e.apply text).length =
      e.nreplace.val.val.length + (text.length - e.nprefix.val.val.length) := by
    rw [Nmentry.apply, List.length_append, List.length_drop]
  have hr := chars_string e.nreplace.val
  refine stringAt_of_get ?_ (fun j hj => ?_) ?_
  · rw [Nmentry.apply, List.mem_append, not_or]
    exact ⟨e.nreplace.val.property, fun hm => h.1 (List.mem_of_mem_drop hm)⟩
  · rw [Nat.zero_add, write_apply]
    simp only [Nmentry.apply]
    rcases Nat.lt_or_ge j e.nreplace.val.val.length with hlt | hge
    · rw [if_pos hlt, List.getElem_append_left hlt, ← hr.get hlt, Nat.zero_add]
    · rw [if_neg (by omega), if_pos (by omega), List.getElem_append_right hge, List.getElem_drop,
        ← h.get (by omega), Nat.zero_add]
  · rw [Nat.zero_add, write_apply, hlen, if_neg (by omega), if_pos (by omega)]
    have hn := h.null
    rw [Nat.zero_add] at hn
    rw [show e.nprefix.val.val.length + (e.nreplace.val.val.length +
      (text.length - e.nprefix.val.val.length) - e.nreplace.val.val.length) = text.length by omega]
    exact hn

/-- Up to 126 characters, the length fits in a `char`, and the new name fits. -/
theorem namrepl_short (h : StringAt name 0 text) (hlen : text.length + 1 < 128)
    (he : entryFor tab text = some e) : (e.apply text).length < NM_MAXLEN ∧
      namrepl name newname tab =
        (e.write name newname (text.length + 1 - e.nprefix.val.val.length), e.ndevice) := by
  have hp := (entryFor_matches he).length_le
  have hr := e.nreplace.property
  have hmax : NM_MAXLEN = 256 := rfl
  have hrep : NM_REPLLEN = 96 := rfl
  have hc : char (text.length + 1) = (text.length + 1 : Nat) := by
    unfold char
    omega
  refine ⟨?_, ?_⟩
  · rw [Nmentry.apply, List.length_append, List.length_drop]
    omega
  rw [namrepl_eq h, he, namlen_eq h, if_pos (by omega), hc]
  simp only
  rw [if_neg (by omega)]
  congr 2
  omega

/-- From 127 characters on, only the replacement is written. -/
theorem namrepl_long (h : StringAt name 0 text) (hlen : 128 ≤ text.length + 1)
    (hfit : text.length < NM_MAXLEN) (he : entryFor tab text = some e) :
    namrepl name newname tab = (e.write name newname 0, e.ndevice) := by
  have hr := e.nreplace.property
  have hmax : NM_MAXLEN = 256 := rfl
  have hrep : NM_REPLLEN = 96 := rfl
  have hc : char (text.length + 1) ≤ 0 := by
    unfold char
    omega
  rw [namrepl_eq h, he, namlen_eq h, if_pos hfit]
  simp only
  rw [if_neg (by omega)]
  congr 2
  omega

/-- The device does not depend on the buffer. -/
theorem namrepl_device (h : StringAt name 0 text) (hfit : text.length < NM_MAXLEN)
    (he : entryFor tab text = some e) : (namrepl name newname tab).2 = e.ndevice := by
  rcases Nat.lt_or_ge (text.length + 1) 128 with hlt | hge
  · rw [(namrepl_short h hlt he).2]
  · rw [namrepl_long h hge hfit he]

/-! ## 6. The loop

A round that leads to the namespace leaves the name as it was, so all rounds after it are the
same. -/

/-- A substitution that leads to the namespace is repeated until the loop gives up. -/
theorem nammapLoop_stuck (h : ∀ newname, (namrepl name newname tab).2 = namdev) :
    (nammapLoop tab name namdev n newname).2 = SYSERR := by
  induction n generalizing newname with
  | zero => rfl
  | succ n ih =>
    rw [nammapLoop]
    simp only [h newname, ne_eq, not_true_eq_false, if_false]
    exact ih

theorem nammapLoop_out (h : (namrepl name newname tab).2 ≠ namdev) :
    nammapLoop tab name namdev (n + 1) newname = namrepl name newname tab := by
  rw [nammapLoop]
  simp only [if_pos h]

/-- The result of a mapping is what it should be: the device and the name, or `SYSERR`. -/
def Gives (r : (Nat → UInt8) × Int) : Option (Int × List UInt8) → Prop
  | none => r.2 = SYSERR
  | some (newdev, text) => r.2 = newdev ∧ StringAt r.1 0 text

/-- The devices of the table are no errors. -/
theorem device_ne_sysErr (e : Nmentry ndevs) : e.ndevice ≠ SYSERR := by
  intro hsys
  exact e.device_ok (.inl (by rw [hsys]; unfold SYSERR; omega))

/-- A device that is reached is in the table. -/
theorem mapName_device {newdev : Int} {text' : List UInt8}
    (h : mapName tab namdev n text = some (newdev, text')) : newdev ≠ SYSERR := by
  induction n generalizing text with
  | zero => simp [mapName] at h
  | succ n ih =>
    obtain ⟨r, hr, hres⟩ := Option.bind_eq_some_iff.mp h
    by_cases hd : r.1 ≠ namdev
    · rw [if_pos hd, Option.some.injEq] at hres
      subst hres
      unfold substitute at hr
      split_ifs at hr
      obtain ⟨e, -, he⟩ := Option.bind_eq_some_iff.mp hr
      split_ifs at he
      obtain ⟨rfl, -⟩ := Prod.mk.inj (Option.some.inj he)
      exact device_ne_sysErr e
    · rw [if_neg hd] at hres
      exact ih hres

/-! ## 7. Every name

The cases of `Handled` are gone through, and for each other name there are buffers with which the
result is wrong. -/

/-- **The names that `nammap` maps rightly**: those that do not fit or are not in the table; those
that go to another device and have at most 126 characters; and those that go to the namespace, if
the new name does not fit or leads nowhere. -/
def Handled (tab : List (Nmentry ndevs)) (namdev : Int) (text : List UInt8) : Prop :=
  NM_MAXLEN ≤ text.length ∨ ∀ e, entryFor tab text = some e →
    if e.ndevice = namdev then
      (e.apply text).length < NM_MAXLEN → mapName tab namdev (tab.length - 1) (e.apply text) = none
    else text.length + 1 < 128

theorem nammap_long (h : StringAt name 0 text) (hlen : NM_MAXLEN ≤ text.length)
    (tmpname : Nat → UInt8) : (nammap tab tmpname name newname namdev).2 = SYSERR := by
  rw [nammap, namcpy]
  simp only [namcpyLoop_long h hlen, if_true]

theorem nammap_fits (h : StringAt name 0 text) (hlen : text.length < NM_MAXLEN)
    (tmpname newname : Nat → UInt8) : ∃ tmp, StringAt tmp 0 text ∧
      nammap tab tmpname name newname namdev = nammapLoop tab tmp namdev tab.length newname := by
  obtain ⟨tmp, hcopy, -, hs⟩ := @namcpyLoop_fits _ _ _ tmpname name h hlen
  refine ⟨tmp, hs, ?_⟩
  rw [nammap, namcpy, hcopy]
  rfl

theorem substitute_none (h : NM_MAXLEN ≤ text.length ∨ entryFor tab text = none) :
    substitute tab text = none := by
  rcases h with hlen | he
  · exact if_neg (Nat.not_lt.mpr hlen)
  · rw [substitute, he, Option.bind_none, ite_self]

theorem mapName_none (h : NM_MAXLEN ≤ text.length ∨ entryFor tab text = none) :
    mapName tab namdev n text = none := by
  cases n with
  | zero => rfl
  | succ n => rw [mapName, substitute_none h, Option.bind_none]

theorem mapName_out (hfit : text.length < NM_MAXLEN) (he : entryFor tab text = some e)
    (hd : e.ndevice ≠ namdev) : mapName tab namdev (n + 1) text =
      if (e.apply text).length < NM_MAXLEN then some (e.ndevice, e.apply text) else none := by
  rw [mapName, substitute, if_pos hfit, he, Option.bind_some]
  by_cases hlt : (e.apply text).length < NM_MAXLEN
  · rw [if_pos hlt, Option.bind_some]
    exact if_pos hd
  · rw [if_neg hlt, Option.bind_none]

theorem mapName_on (hfit : text.length < NM_MAXLEN) (he : entryFor tab text = some e)
    (hd : e.ndevice = namdev) : mapName tab namdev (n + 1) text =
      if (e.apply text).length < NM_MAXLEN then mapName tab namdev n (e.apply text) else none := by
  rw [mapName, substitute, if_pos hfit, he, Option.bind_some]
  by_cases hlt : (e.apply text).length < NM_MAXLEN
  · rw [if_pos hlt, Option.bind_some, if_neg (not_not.mpr hd), if_pos hlt]
  · rw [if_neg hlt, Option.bind_none, if_neg hlt]

/-- A name that is not in the table. -/
theorem nammap_unknown (h : StringAt name 0 text) (hfit : text.length < NM_MAXLEN)
    (he : entryFor tab text = none) (tmpname : Nat → UInt8) :
    (nammap tab tmpname name newname namdev).2 = SYSERR := by
  obtain ⟨tmp, hs, hrun⟩ := nammap_fits h hfit tmpname newname
  have hsub : ∀ newname, namrepl tmp newname tab = (newname, SYSERR) := by
    intro newname
    rw [namrepl_eq hs, he]
  rw [hrun]
  cases tab.length with
  | zero => rfl
  | succ n =>
    by_cases hd : SYSERR = namdev
    · exact nammapLoop_stuck fun newname => by rw [hsub, hd]
    · rw [nammapLoop_out (by rw [hsub]; exact hd), hsub]

/-- A name that goes to the namespace. -/
theorem nammap_stuck (h : StringAt name 0 text) (hfit : text.length < NM_MAXLEN)
    (he : entryFor tab text = some e) (hd : e.ndevice = namdev) (tmpname : Nat → UInt8) :
    (nammap tab tmpname name newname namdev).2 = SYSERR := by
  obtain ⟨tmp, hs, hrun⟩ := nammap_fits h hfit tmpname newname
  rw [hrun]
  exact nammapLoop_stuck fun newname => (namrepl_device hs hfit he).trans hd

/-- A name that goes to another device. -/
theorem nammap_out (h : StringAt name 0 text) (hfit : text.length < NM_MAXLEN)
    (he : entryFor tab text = some e) (hd : e.ndevice ≠ namdev) (tmpname : Nat → UInt8) :
    ∃ tmp, StringAt tmp 0 text ∧
      nammap tab tmpname name newname namdev = namrepl tmp newname tab := by
  obtain ⟨tmp, hs, hrun⟩ := nammap_fits h hfit tmpname newname
  refine ⟨tmp, hs, ?_⟩
  obtain ⟨n, hn⟩ := Nat.exists_eq_add_one.mpr
    (List.length_pos_of_mem (List.mem_of_find?_eq_some he))
  rw [hrun, hn]
  exact nammapLoop_out (by rw [namrepl_device hs hfit he]; exact hd)

/-- The replacement alone, in a buffer of null characters. -/
theorem write_replacement (name : Nat → UInt8) :
    StringAt (e.write name (fun _ => 0) 0) 0 e.nreplace.val.val := by
  refine stringAt_of_get e.nreplace.val.property (fun j hj => ?_) ?_
  · rw [Nat.zero_add, write_apply, if_pos hj, ← (chars_string e.nreplace.val).get hj,
      Nat.zero_add]
  · rw [Nat.zero_add, write_apply, if_neg (lt_irrefl _), if_neg (by omega)]

/-- It is not the new name of a long name, of which more is left than the prefix. -/
theorem replacement_ne (hlen : 128 ≤ text.length + 1) : e.apply text ≠ e.nreplace.val.val := by
  intro heq
  have hlen' := congrArg List.length heq
  rw [Nmentry.apply, List.length_append, List.length_drop] at hlen'
  have hpre := e.nprefix.property
  have h64 : NM_PRELEN = 64 := rfl
  omega

/-- A long name is not mapped to what it should be, if the buffer has a null character behind the
replacement. -/
theorem long_wrong (h : StringAt name 0 text) (hfit : text.length < NM_MAXLEN)
    (he : entryFor tab text = some e) (hd : e.ndevice ≠ namdev) (hlen : 128 ≤ text.length + 1)
    (tmpname : Nat → UInt8) : ¬ Gives (nammap tab tmpname name (fun _ => 0) namdev)
      (mapName tab namdev tab.length text) := by
  obtain ⟨tmp, hs, hrun⟩ := nammap_out h hfit he hd tmpname
  obtain ⟨n, hn⟩ := Nat.exists_eq_add_one.mpr
    (List.length_pos_of_mem (List.mem_of_find?_eq_some he))
  rw [hrun, namrepl_long hs hlen hfit he, hn, mapName_out hfit he hd]
  intro hg
  split_ifs at hg with hlt
  · exact replacement_ne hlen (hg.2.unique (write_replacement tmp))
  · exact device_ne_sysErr e hg

/-- **`nammap` is right for these names and no others**, whatever its buffers held. -/
theorem nammap_right_iff (tab : List (Nmentry ndevs)) (namdev : Int) (name : Nat → UInt8)
    (text : List UInt8) (h : StringAt name 0 text) :
    (∀ tmpname newname, Gives (nammap tab tmpname name newname namdev)
      (mapName tab namdev tab.length text)) ↔ Handled tab namdev text := by
  by_cases hlen : NM_MAXLEN ≤ text.length
  · refine ⟨fun _ => .inl hlen, fun _ tmpname newname => ?_⟩
    rw [mapName_none (.inl hlen)]
    exact nammap_long h hlen tmpname
  have hfit := Nat.lt_of_not_le hlen
  cases he : entryFor tab text with
  | none =>
    refine ⟨fun _ => .inr fun e he' => ?_, fun _ tmpname newname => ?_⟩
    · rw [he] at he'
      cases he'
    · rw [mapName_none (.inr he)]
      exact nammap_unknown h hfit he tmpname
  | some e =>
    obtain ⟨n, hn⟩ := Nat.exists_eq_add_one.mpr
      (List.length_pos_of_mem (List.mem_of_find?_eq_some he))
    have hiff : Handled tab namdev text ↔ if e.ndevice = namdev then
        (e.apply text).length < NM_MAXLEN →
          mapName tab namdev (tab.length - 1) (e.apply text) = none
        else text.length + 1 < 128 := by
      constructor
      · rintro (hl | hall)
        · exact absurd hl hlen
        · exact hall e he
      · intro hc
        refine .inr fun e' he' => ?_
        obtain rfl := Option.some.inj (he.symm.trans he')
        exact hc
    rw [hiff]
    by_cases hd : e.ndevice = namdev
    · have hnone : mapName tab namdev tab.length text = none ↔ ((e.apply text).length < NM_MAXLEN →
          mapName tab namdev (tab.length - 1) (e.apply text) = none) := by
        rw [hn, mapName_on hfit he hd, Nat.add_sub_cancel, ite_eq_right_iff]
      rw [if_pos hd, ← hnone]
      have hstuck := fun tmpname newname => @nammap_stuck _ _ _ _ namdev newname _ h hfit
        he hd tmpname
      constructor
      · intro hg
        cases hm : mapName tab namdev tab.length text with
        | none => rfl
        | some r =>
          have hgive := hg (fun _ => 0) (fun _ => 0)
          rw [hm] at hgive
          exact absurd (hgive.1.symm.trans (hstuck _ _)) (mapName_device hm)
      · intro hm tmpname newname
        rw [hm]
        exact hstuck tmpname newname
    · rw [if_neg hd]
      constructor
      · intro hg
        by_contra hlong
        exact long_wrong h hfit he hd (Nat.le_of_not_lt hlong) (fun _ => 0) (hg _ _)
      · intro hshort tmpname newname
        obtain ⟨tmp, hs, hrun⟩ := @nammap_out _ _ _ _ namdev newname _ h hfit he hd tmpname
        obtain ⟨hlt, hsub⟩ := @namrepl_short _ _ _ _ newname _ hs hshort he
        rw [hrun, hsub, hn, mapName_out hfit he hd, if_pos hlt]
        exact ⟨rfl, write_string hs (entryFor_matches he)⟩

/-- `/a`, which leads to `/b`, which leads to device 5; 3 is the namespace. -/
def mounts : List (Nmentry NDEVS) :=
  mountAll [(⟨[47, 97], by decide⟩, ⟨[47, 98], by decide⟩, 3),
    (⟨[47, 98], by decide⟩, ∅, 5)]

/-- `/ax` -/
def axName : Str := ⟨[47, 97, 120], by decide⟩

theorem nammap_right_iff_ax :
    (∀ tmpname newname, Gives (nammap mounts tmpname (chars axName) newname 3)
      (mapName mounts 3 mounts.length axName.val)) ↔ Handled mounts 3 axName.val :=
  nammap_right_iff mounts 3 (chars axName) axName.val (chars_string axName)

/-- **The name `/ax` should be mapped to `x` on device 5**, and is not mapped. -/
theorem nammap_stuck_ax : StringAt (chars axName) 0 axName.val ∧
    mapName mounts 3 mounts.length axName.val = some (5, [120]) ∧
    ¬ Gives (nammap mounts (fun _ => 0) (chars axName) (fun _ => 0) 3)
      (mapName mounts 3 mounts.length axName.val) := by
  have hmap : mapName mounts 3 mounts.length axName.val = some (5, [120]) := by decide
  have hrun : (nammap mounts (fun _ => 0) (chars axName) (fun _ => 0) 3).2 = SYSERR := by
    decide +kernel
  refine ⟨chars_string axName, hmap, fun hg => ?_⟩
  rw [hmap] at hg
  exact absurd (hg.1.symm.trans hrun) (by decide)

/-! ## 8. One substitution, in the buffer

`namrepl` can be called by others as well, and its result is compared with one substitution. -/

/-- `namrepl` gives what the substitution gives, whatever the buffer held, and writes nothing beyond
its end. -/
def Replaces (tab : List (Nmentry ndevs)) (name : Nat → UInt8) (text : List UInt8) : Prop :=
  ∀ newname, Gives (namrepl name newname tab) (substitute tab text) ∧
    ∀ x, NM_MAXLEN ≤ x → (namrepl name newname tab).1 x = newname x

/-- What is written lies in the buffer, if the replacement and the rest fit. -/
theorem write_outside {remain : Nat} (hfit : e.nreplace.val.val.length + remain ≤ NM_MAXLEN)
    (hx : NM_MAXLEN ≤ x) : e.write name newname remain x = newname x := by
  rw [write_apply, if_neg (by omega), if_neg (by omega)]

/-- **`namrepl` is right for the names that no entry matches and for those of at most 126
characters**, and for no others. -/
theorem namrepl_right_iff (tab : List (Nmentry ndevs)) (name : Nat → UInt8) (text : List UInt8)
    (h : StringAt name 0 text) (hfit : text.length < NM_MAXLEN) :
    Replaces tab name text ↔ entryFor tab text = none ∨ text.length + 1 < 128 := by
  cases he : entryFor tab text with
  | none =>
    refine iff_of_true (fun newname => ?_) (Or.inl rfl)
    have hrun : namrepl name newname tab = (newname, SYSERR) := by rw [namrepl_eq h, he]
    rw [hrun, substitute_none (.inr he)]
    exact ⟨rfl, fun _ _ => rfl⟩
  | some e =>
    have hsub : substitute tab text =
        if (e.apply text).length < NM_MAXLEN then some (e.ndevice, e.apply text) else none := by
      rw [substitute, if_pos hfit, he, Option.bind_some]
    constructor
    · intro hr
      by_contra hno
      have hlong : 128 ≤ text.length + 1 := Nat.le_of_not_lt fun hlt => hno (Or.inr hlt)
      have hg := (hr fun _ => 0).1
      rw [namrepl_long h hlong hfit he, hsub] at hg
      by_cases hlt : (e.apply text).length < NM_MAXLEN
      · rw [if_pos hlt] at hg
        exact replacement_ne hlong (hg.2.unique (write_replacement name))
      · rw [if_neg hlt] at hg
        exact device_ne_sysErr e hg
    · rintro (hn | hshort)
      · exact absurd hn (Option.some_ne_none e)
      intro newname
      obtain ⟨hlt, hrun⟩ := @namrepl_short _ _ _ _ newname _ h hshort he
      rw [hrun, hsub, if_pos hlt]
      refine ⟨⟨rfl, write_string h (entryFor_matches he)⟩, fun x hx => write_outside ?_ hx⟩
      have hrep := e.nreplace.property
      have h96 : NM_REPLLEN = 96 := rfl
      have hmax : NM_MAXLEN = 256 := rfl
      omega

theorem namrepl_right_iff_ax : Replaces mounts (chars axName) axName.val ↔
    entryFor mounts axName.val = none ∨ axName.val.length + 1 < 128 :=
  namrepl_right_iff mounts (chars axName) axName.val (chars_string axName) (by decide)

/-- A buffer with another string in it. -/
theorem not_replaces {d : Int} {new old : List UInt8} (hsub : substitute tab text = some (d, new))
    (hs : StringAt (namrepl name newname tab).1 0 old) (hne : new ≠ old) :
    ¬ Replaces tab name text := by
  intro hr
  have hg := (hr newname).1
  rw [hsub] at hg
  exact hne (hg.2.unique hs)

/-- A name of 127 characters. -/
def longName : Str := ⟨List.replicate 127 97, by decide⟩

theorem longName_length : longName.val.length = 127 := List.length_replicate

/-- The table that `naminit` ends with, in which every name is a file of the device. -/
def catchAll : List (Nmentry NDEVS) := mountAll [(∅, ∅, 17)]

/-- **The long name should be mapped to itself**, and is mapped to the empty name. -/
theorem namrepl_loses_name : StringAt (chars longName) 0 longName.val ∧
    longName.val.length < NM_MAXLEN ∧
    substitute catchAll longName.val = some (17, longName.val) ∧
    StringAt (namrepl (chars longName) (fun _ => 0) catchAll).1 0 [] ∧
    ¬ Replaces catchAll (chars longName) longName.val := by
  have hsub : substitute catchAll longName.val = some (17, longName.val) := by decide +kernel
  have hempty : StringAt (namrepl (chars longName) (fun _ => 0) catchAll).1 0 [] := by
    rw [stringAt_nil]
    decide +kernel
  have hlt : 127 < NM_MAXLEN := by decide
  have hne : longName.val ≠ [] := List.ne_nil_of_length_pos (longName_length ▸ Nat.succ_pos 126)
  exact ⟨chars_string longName, longName_length ▸ hlt, hsub, hempty,
    not_replaces hsub hempty hne⟩

end Names
end Xinu
