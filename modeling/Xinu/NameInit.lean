/-
# The names of the devices: `naminit.c`

`naminit` fills the namespace.  Every device gets a prefix `/dev/` and its name in lower case, then
come `/dev/null`, the directories of the file systems, and at the end `/` and the empty prefix,
which catch every other name.  The order matters, as the first prefix that fits decides, and before
the two catch-alls there is a guard: `/dev/` with `SYSERR` for a device, so that no other name under
`/dev/` gets as far as a file system.

The guard is never in the table.  `mount` refuses `SYSERR`, as it refuses everything that is no
device, and `naminit` does not look at what it returns.  The device table may be of any length: what
counts as a device is what has an entry there, as `NDEVS` is the number of them.

`nammap_closed_iff`: so a name under `/dev/` that is no device is an error only if there is no file
system, or the name is too long.
-/
import Xinu.Names
import Xinu.ShellArgs

namespace Xinu
namespace Names

open ByteMemory

/-! ## 1. `naminit.c` -/

/-- The fields of `struct dentry` that `naminit` reads. -/
structure Dentry where
  dvnum : Int
  dvname : Str

/-- A configuration: the device table, and the three devices that `naminit` names. -/
structure Conf where
  devtab : List Dentry
  NULLDEV : Int
  RFILESYS : Int
  LFILESYS : Int

/-- `NDEVS`, which the configuration program defines as the number of entries that it writes. -/
def Conf.NDEVS (c : Conf) : Int := c.devtab.length

/-- Map a character to lower case. -/
def lowerCase (ch : UInt8) : UInt8 := if 65 ≤ ch ∧ ch ≤ 90 then ch + (97 - 65) else ch

def devPrefix : List UInt8 := cstring "/dev/"

theorem lowerCase_ne_zero {ch : UInt8} (h : ch ≠ 0) : lowerCase ch ≠ 0 := by
  unfold lowerCase
  split_ifs with hup
  · intro hz
    have hnat := congrArg UInt8.toNat hz
    have h1 : 65 ≤ ch.toNat := hup.1
    have h2 : ch.toNat ≤ 90 := hup.2
    rw [UInt8.toNat_add] at hnat
    change (ch.toNat + 32) % 256 = 0 at hnat
    omega
  · exact h

/-- The name of a device in lower case. -/
def Dentry.lower (d : Dentry) : List UInt8 := d.dvname.val.map lowerCase

theorem Dentry.zero_not_mem_lower (d : Dentry) : (0 : UInt8) ∉ d.lower := by
  intro hm
  obtain ⟨ch, hch, hz⟩ := List.mem_map.mp hm
  refine lowerCase_ne_zero (fun h0 => ?_) hz
  rw [h0] at hch
  exact d.dvname.property hch

/-- What is in `tmpstr`.  The loop takes at most 250 characters of the name, and if there are more
it puts no null character behind them; `mount` does not take so long a prefix either way. -/
def Dentry.tmpstr (d : Dentry) : Str :=
  ⟨devPrefix ++ d.lower.take (NM_MAXLEN - 6), by
    rw [List.mem_append, not_or]
    exact ⟨by decide, fun hm => d.zero_not_mem_lower (List.mem_of_mem_take hm)⟩⟩

/-- The arguments of a call of `mount`. -/
abbrev Mount := Str × Str × Int

/-- A string constant as an argument. -/
def nullstr : Str := ∅

/-- The other prefixes. -/
def otherMounts (c : Conf) : List Mount :=
  [(⟨cstring "/dev/null", by decide⟩, nullstr, c.NULLDEV),
    (⟨cstring "/remote/", by decide⟩, ⟨cstring "remote:", by decide⟩, c.RFILESYS),
    (⟨cstring "/local/", by decide⟩, nullstr, c.LFILESYS),
    (⟨devPrefix, by decide⟩, nullstr, SYSERR),
    (⟨cstring "~/", by decide⟩, nullstr, c.LFILESYS),
    (⟨cstring "/", by decide⟩, ⟨cstring "root:", by decide⟩, c.RFILESYS),
    (nullstr, nullstr, c.LFILESYS)]

/-- The calls of `mount` that `naminit` makes. -/
def Conf.mounts (c : Conf) : List Mount :=
  c.devtab.map (fun d => (d.tmpstr, nullstr, d.dvnum)) ++ otherMounts c

/-- `naminit()`: the table that it leaves.  It goes on when `mount` returns an error. -/
def naminit (c : Conf) : List (Nmentry c.NDEVS) := mountAll c.mounts

/-! ## 2. The table that mounts make -/

/-- The arguments that `mount` takes, while there is room. -/
def Accepted (ndevs : Int) (m : Mount) : Prop :=
  m.1.val.length < NM_PRELEN ∧ m.2.1.val.length < NM_REPLLEN ∧ ¬ isbaddev ndevs m.2.2

instance (ndevs : Int) (m : Mount) : Decidable (Accepted ndevs m) :=
  inferInstanceAs (Decidable (_ ∧ _ ∧ _))

/-- The entry that a mount makes. -/
def entryOf (ndevs : Int) (m : Mount) : Option (Nmentry ndevs) :=
  if h : Accepted ndevs m then some ⟨⟨m.1, h.1⟩, ⟨m.2.1, h.2.1⟩, m.2.2, h.2.2⟩ else none

variable {ndevs : Int} {tab : List (Nmentry ndevs)} {ms : List Mount} {m : Mount}
  {e : Nmentry ndevs} {text : List UInt8}

theorem namlen_ne_sysErr {s : Str} {n : Nat} :
    namlen (chars s) n ≠ SYSERR ↔ s.val.length < n := by
  refine ⟨namlen_fits, fun h => ?_⟩
  rw [namlen_eq (chars_string s), if_pos h]
  unfold SYSERR
  omega

/-- **`mount` with room in the table.** -/
theorem mount_eq (hroom : tab.length < NNAMES) :
    (mount m.1 m.2.1 m.2.2 tab).1 = tab ++ (entryOf ndevs m).toList := by
  have hiff : (namlen (chars m.1) NM_PRELEN ≠ SYSERR ∧ namlen (chars m.2.1) NM_REPLLEN ≠ SYSERR ∧
      ¬ isbaddev ndevs m.2.2 ∧ tab.length < NNAMES) ↔ Accepted ndevs m := by
    rw [namlen_ne_sysErr, namlen_ne_sysErr, Accepted]
    exact and_congr_right fun _ => and_congr_right fun _ => and_iff_left hroom
  unfold mount entryOf
  by_cases h : Accepted ndevs m
  · rw [dif_pos (hiff.mpr h), dif_pos h]
    rfl
  · rw [dif_neg (fun hm => h (hiff.mp hm)), dif_neg h]
    exact (List.append_nil tab).symm

/-- **Mounts that fit in the table are all there, as far as they are accepted**, in their order. -/
theorem mountAll_eq (hfit : ms.length ≤ NNAMES) :
    mountAll ms = ms.filterMap (entryOf ndevs) := by
  induction ms using List.reverseRecOn with
  | nil => rfl
  | append_singleton ms m ih =>
    rw [List.length_append, List.length_singleton] at hfit
    have htab := ih (by omega)
    have hle := List.length_filterMap_le (entryOf ndevs) ms
    rw [mountAll, List.foldl_append]
    change (mount m.1 m.2.1 m.2.2 (mountAll ms) : List (Nmentry ndevs) × Int).1 = _
    rw [mount_eq (by rw [htab]; omega), htab, List.filterMap_append]
    cases he : entryOf ndevs m with
    | none => rw [List.filterMap_cons_none he, List.filterMap_nil, Option.toList_none]
    | some e => rw [List.filterMap_cons_some he, List.filterMap_nil, Option.toList_some]

/-- A name is caught by a mount that is accepted and whose prefix it begins with. -/
def Catches (ndevs : Int) (text : List UInt8) (m : Mount) : Prop :=
  Accepted ndevs m ∧ m.1.val <+: text

instance (ndevs : Int) (text : List UInt8) : DecidablePred (Catches ndevs text) :=
  fun _ => inferInstanceAs (Decidable (_ ∧ _))

/-- **The device of a name** is that of the first mount that catches it. -/
theorem entryFor_mountAll (hfit : ms.length ≤ NNAMES) :
    (entryFor (mountAll ms : List (Nmentry ndevs)) text).map Nmentry.ndevice =
      (ms.find? fun m => Catches ndevs text m).map fun m => m.2.2 := by
  rw [mountAll_eq hfit, entryFor]
  clear hfit
  induction ms with
  | nil => rfl
  | cons m ms ih =>
    by_cases hacc : Accepted ndevs m
    · rw [List.filterMap_cons_some (dif_pos hacc)]
      by_cases hp : m.1.val <+: text
      · have hc : decide (Catches ndevs text m) = true := decide_eq_true ⟨hacc, hp⟩
        rw [List.find?_cons_of_pos (by exact decide_eq_true hp),
          List.find?_cons_of_pos (p := fun m => decide (Catches ndevs text m)) hc]
        rfl
      · have hc : ¬ decide (Catches ndevs text m) = true := fun h => hp (of_decide_eq_true h).2
        rw [List.find?_cons_of_neg (by exact fun h => hp (of_decide_eq_true h)),
          List.find?_cons_of_neg (p := fun m => decide (Catches ndevs text m)) hc, ih]
    · have hc : ¬ decide (Catches ndevs text m) = true := fun h => hacc (of_decide_eq_true h).1
      rw [List.filterMap_cons_none (dif_neg hacc),
        List.find?_cons_of_neg (p := fun m => decide (Catches ndevs text m)) hc, ih]

/-! ## 3. `nammap` on such a table -/

/-- **When a name is an error**: it is too long, or no entry takes it out of the namespace. -/
theorem nammap_error_iff {name : Nat → UInt8} (h : StringAt name 0 text)
    (tmpname newname : Nat → UInt8) (namdev : Int) :
    (nammap tab tmpname name newname namdev).2 = SYSERR ↔
      NM_MAXLEN ≤ text.length ∨ ∀ d ∈ (entryFor tab text).map Nmentry.ndevice, d = namdev := by
  by_cases hlen : NM_MAXLEN ≤ text.length
  · exact iff_of_true (nammap_long h hlen tmpname) (Or.inl hlen)
  have hfit := Nat.lt_of_not_le hlen
  rw [or_iff_right hlen]
  cases he : entryFor tab text with
  | none =>
    refine iff_of_true (nammap_unknown h hfit he tmpname) fun d hd => ?_
    exact absurd hd (Option.not_mem_none d)
  | some e =>
    rw [Option.map_some]
    by_cases hd : e.ndevice = namdev
    · exact iff_of_true (nammap_stuck h hfit he hd tmpname) fun d hm => (Option.mem_some.mp hm) ▸ hd
    · refine iff_of_false (fun herr => ?_) fun hall => hd (hall _ rfl)
      obtain ⟨tmp, hs, hrun⟩ := @nammap_out _ _ _ _ _ newname _ h hfit he hd tmpname
      rw [hrun, namrepl_device hs hfit he] at herr
      exact device_ne_sysErr e herr

/-! ## 4. The names under `/dev/` -/

/-- The file system that catches what no other prefix does. -/
def Conf.catchAll (c : Conf) : Option Int :=
  if ¬ isbaddev c.NDEVS c.RFILESYS then some c.RFILESYS
  else if ¬ isbaddev c.NDEVS c.LFILESYS then some c.LFILESYS
  else none

variable {c : Conf} {rest : List UInt8}

/-- A prefix of a device catches only names in which the name of the device comes next. -/
theorem tmpstr_catches {d : Dentry}
    (h : Catches ndevs (devPrefix ++ rest) (d.tmpstr, nullstr, d.dvnum)) : d.lower <+: rest := by
  obtain ⟨⟨hlen, -⟩, hp⟩ := h
  have htake : d.lower.take (NM_MAXLEN - 6) <+: rest := (List.prefix_append_right_inj _).mp hp
  have hshort : (d.lower.take (NM_MAXLEN - 6)).length < NM_PRELEN := by
    refine lt_of_le_of_lt ?_ hlen
    rw [Dentry.tmpstr, List.length_append]
    exact Nat.le_add_left _ _
  rw [List.length_take] at hshort
  have hpre : NM_PRELEN = 64 := rfl
  have hmax : NM_MAXLEN = 256 := rfl
  rwa [List.take_of_length_le (by omega)] at htake

theorem not_prefix_append {p q : List UInt8} (h : p.take q.length ≠ q.take p.length)
    (rest : List UInt8) : ¬ p <+: q ++ rest := by
  intro hp
  refine h ?_
  have hq : q <+: q ++ rest := List.prefix_append q rest
  rcases List.prefix_or_prefix_of_prefix hp hq with hpq | hqp
  · rw [List.take_of_length_le hpq.length_le]
    exact List.prefix_iff_eq_take.mp hpq
  · rw [List.take_of_length_le hqp.length_le]
    exact (List.prefix_iff_eq_take.mp hqp).symm

/-- Of the other mounts only the last two catch such a name. -/
theorem otherMounts_catch (c : Conf) (hnull : ¬ cstring "null" <+: rest) :
    ((otherMounts c).find? fun m => Catches c.NDEVS (devPrefix ++ rest) m).map
      (fun m => m.2.2) = c.catchAll := by
  have hdev : ¬ cstring "/dev/null" <+: devPrefix ++ rest :=
    fun h => hnull ((List.prefix_append_right_inj devPrefix).mp h)
  have hremote : ¬ cstring "/remote/" <+: devPrefix ++ rest := not_prefix_append (by decide) rest
  have hlocal : ¬ cstring "/local/" <+: devPrefix ++ rest := not_prefix_append (by decide) rest
  have hhome : ¬ cstring "~/" <+: devPrefix ++ rest := not_prefix_append (by decide) rest
  have hroot : cstring "/" <+: devPrefix ++ rest :=
    List.IsPrefix.trans (by decide : cstring "/" <+: devPrefix) (List.prefix_append _ _)
  have hguard : isbaddev c.NDEVS SYSERR := .inl (by decide)
  have hrootLen : (cstring "/").length < NM_PRELEN ∧ (cstring "root:").length < NM_REPLLEN := by
    decide
  have hnullLen : nullstr.val.length < NM_PRELEN ∧ nullstr.val.length < NM_REPLLEN := by decide
  have hempty : nullstr.val <+: devPrefix ++ rest := List.nil_prefix
  simp only [otherMounts, List.find?_cons, List.find?_nil, Catches, Accepted, hdev, hremote, hlocal,
    hhome, hguard, hroot, hempty, hrootLen, hnullLen, not_true_eq_false, true_and, and_true,
    and_false, false_and, decide_false]
  unfold Conf.catchAll
  by_cases hr : isbaddev c.NDEVS c.RFILESYS
  · by_cases hl : isbaddev c.NDEVS c.LFILESYS
    · simp [hr, hl]
    · simp [hr, hl]
  · simp [hr]

/-- **Where the names under `/dev/` go** that are no devices: to the file system. -/
theorem naminit_catchAll (hfit : c.mounts.length ≤ NNAMES) (hnull : ¬ cstring "null" <+: rest)
    (hdev : ∀ d ∈ c.devtab, ¬ d.lower <+: rest) :
    (entryFor (naminit c) (devPrefix ++ rest)).map Nmentry.ndevice = c.catchAll := by
  rw [naminit, entryFor_mountAll hfit, Conf.mounts, List.find?_append, ← otherMounts_catch c hnull]
  have hnone : (c.devtab.map fun d => ((d.tmpstr, nullstr, d.dvnum) : Mount)).find?
      (fun m => Catches c.NDEVS (devPrefix ++ rest) m) = none := by
    rw [List.find?_eq_none]
    intro m hm hc
    obtain ⟨d, hd, rfl⟩ := List.mem_map.mp hm
    exact hdev d hd (tmpstr_catches (of_decide_eq_true hc))
  rw [hnone, Option.none_or]

/-- **A name under `/dev/` that is no device is an error in these cases**: it is too long, there is
no file system, or the namespace itself is the file system.  In all others it is a file. -/
theorem nammap_closed_iff (c : Conf) (hfit : c.mounts.length ≤ NNAMES) (namdev : Int)
    (rest : List UInt8) (hnull : ¬ cstring "null" <+: rest)
    (hdev : ∀ d ∈ c.devtab, ¬ d.lower <+: rest) (name tmpname newname : Nat → UInt8)
    (h : StringAt name 0 (devPrefix ++ rest)) :
    (nammap (naminit c) tmpname name newname namdev).2 = SYSERR ↔
      NM_MAXLEN ≤ (devPrefix ++ rest).length ∨ ∀ d ∈ c.catchAll, d = namdev := by
  rw [nammap_error_iff h, naminit_catchAll hfit hnull hdev]

/-- A name of `conf.c`. -/
def device (dvnum : Int) (dvname : String) (h : (0 : UInt8) ∉ cstring dvname) : Dentry :=
  ⟨dvnum, cstring dvname, h⟩

/-- The configuration of `conf.c`. -/
def conf : Conf where
  devtab :=
    [device 0 "CONSOLE" (by decide), device 1 "NULLDEV" (by decide),
      device 2 "ETHER0" (by decide), device 3 "NAMESPACE" (by decide),
      device 4 "RDISK" (by decide), device 5 "RAM0" (by decide),
      device 6 "RFILESYS" (by decide), device 7 "RFILE0" (by decide),
      device 8 "RFILE1" (by decide), device 9 "RFILE2" (by decide),
      device 10 "RFILE3" (by decide), device 11 "RFILE4" (by decide),
      device 12 "RFILE5" (by decide), device 13 "RFILE6" (by decide),
      device 14 "RFILE7" (by decide), device 15 "RFILE8" (by decide),
      device 16 "RFILE9" (by decide), device 17 "LFILESYS" (by decide),
      device 18 "LFILE0" (by decide), device 19 "LFILE1" (by decide),
      device 20 "LFILE2" (by decide), device 21 "LFILE3" (by decide),
      device 22 "LFILE4" (by decide), device 23 "LFILE5" (by decide)]
  NULLDEV := 1
  RFILESYS := 6
  LFILESYS := 17

/-- `/dev/disk` -/
def diskName : Str := ⟨devPrefix ++ cstring "disk", by decide⟩

theorem nammap_closed_iff_disk :
    (nammap (naminit conf) (fun _ => 0) (chars diskName) (fun _ => 0) 3).2 = SYSERR ↔
      NM_MAXLEN ≤ (devPrefix ++ cstring "disk").length ∨ ∀ d ∈ conf.catchAll, d = 3 :=
  nammap_closed_iff conf (by decide) 3 (cstring "disk") (by decide) (by decide) (chars diskName) _ _
    (chars_string diskName)

/-- **The name `/dev/disk` is the file `dev/disk`** of the remote file system. -/
theorem nammap_open_disk : conf.mounts.length ≤ NNAMES ∧ ¬ cstring "null" <+: cstring "disk" ∧
    (∀ d ∈ conf.devtab, ¬ d.lower <+: cstring "disk") ∧
    (nammap (naminit conf) (fun _ => 0) (chars diskName) (fun _ => 0) 3).2 = conf.RFILESYS ∧
    (List.range 14).map (nammap (naminit conf) (fun _ => 0) (chars diskName) (fun _ => 0) 3).1 =
      cstring "root:dev/disk" ++ [0] := by
  refine ⟨by decide, by decide, by decide, by decide +kernel, by decide +kernel⟩

end Names
end Xinu
