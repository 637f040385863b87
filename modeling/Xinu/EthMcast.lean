/-
# Multicast addresses: `ethmcast.c`

The Ethernet device keeps the multicast addresses it listens to at the front of an array.
`ethmcast_add` appends one; `ethmcast_remove` shifts what is behind the address it removes, and
its last round copies from the entry behind the last one and clears it.  With a full table that
entry is behind the array.

So the list is always what its calls make of it, and every access is inside the array if and only
if no address is removed from a full table (`ethmcast_iff`).
-/
import Xinu.Kernel

namespace Xinu

/-! ## 1. The code

Each call has, beside its result, the entries that it touches. -/

/-- Bytes in an Ethernet address. -/
abbrev ETH_ADDR_LEN : Nat := 6

/-- Max multicast addresses. -/
abbrev ETH_NUM_MCAST : Int := 32

abbrev Eaddr : Type := Vector UInt8 ETH_ADDR_LEN

/-- What the routines use of an Ethernet control block.  Behind `ed_mca` is whatever is in memory
there. -/
structure EthMcast where
  /-- The MAC frame filter register. -/
  macff : UInt32
  ed_mcc : Int
  ed_mca : Int → Eaddr

/-- What a call returns, what it leaves, and the entries of `ed_mca` it touches. -/
structure McastRun where
  result : Int
  dev : EthMcast
  touched : List Int

def ethmcast_add (ethptr : EthMcast) (addr : Eaddr) : McastRun :=
  let ethptr := { ethptr with macff := ethptr.macff ||| 0x00000010 }
  let mcast_count := ethptr.ed_mcc
  if mcast_count < ETH_NUM_MCAST then
    let ed_mca := Function.update ethptr.ed_mca mcast_count addr
    ⟨OK, { ethptr with ed_mcc := mcast_count + 1, ed_mca := ed_mca }, [mcast_count]⟩
  else ⟨SYSERR, ethptr, []⟩

/-- The loop that finds the address, with the rounds that are left. -/
def findMcast (addr : Eaddr) (ed_mca : Int → Eaddr) : Nat → Int → Int × List Int
  | 0, i => (i, [])
  | n + 1, i =>
    if addr = ed_mca i then (i, [i])
    else
      let r := findMcast addr ed_mca n (i + 1)
      (r.1, i :: r.2)

/-- The loop that shifts values to fill in the hole. -/
def shiftMcast : Nat → Int → (Int → Eaddr) → (Int → Eaddr) × List Int
  | 0, _, ed_mca => (ed_mca, [])
  | n + 1, j, ed_mca =>
    let ed_mca := Function.update ed_mca j (ed_mca (j + 1))
    let ed_mca := Function.update ed_mca (j + 1) (Vector.replicate ETH_ADDR_LEN 0x30)
    let r := shiftMcast n (j + 1) ed_mca
    (r.1, j :: (j + 1) :: r.2)

def ethmcast_remove (ethptr : EthMcast) (addr : Eaddr) : McastRun :=
  let mcast_count := ethptr.ed_mcc
  let found := findMcast addr ethptr.ed_mca mcast_count.toNat 0
  let i := found.1
  if i < mcast_count then
    let shifted := shiftMcast (mcast_count - i).toNat i ethptr.ed_mca
    ⟨OK, { ethptr with ed_mcc := mcast_count - 1, ed_mca := shifted.1 }, found.2 ++ shifted.2⟩
  else ⟨SYSERR, ethptr, found.2⟩

inductive McastCall
  | add (addr : Eaddr)
  | remove (addr : Eaddr)
  deriving DecidableEq

def McastCall.run : McastCall → EthMcast → McastRun
  | .add addr, ethptr => ethmcast_add ethptr addr
  | .remove addr, ethptr => ethmcast_remove ethptr addr

/-- The device behind a sequence of calls. -/
def afterCalls (d : EthMcast) (calls : List McastCall) : EthMcast :=
  calls.foldl (fun d call => (call.run d).dev) d

/-! ## 2. What the list is to be

The list that the calls describe, apart from the array. -/

/-- The first `ed_mcc` entries. -/
def EthMcast.entries (d : EthMcast) : List Eaddr :=
  (List.range d.ed_mcc.toNat).map fun i : Nat => d.ed_mca i

/-- The call does what it is asked for. -/
def McastCall.Accepted (l : List Eaddr) : McastCall → Prop
  | .add _ => (l.length : Int) < ETH_NUM_MCAST
  | .remove addr => addr ∈ l

instance (l : List Eaddr) : DecidablePred (McastCall.Accepted l)
  | .add _ => inferInstanceAs (Decidable (_ < _))
  | .remove addr => inferInstanceAs (Decidable (addr ∈ l))

/-- An accepted address is appended; the first occurrence of a removed one is deleted. -/
def McastCall.edit (l : List Eaddr) : McastCall → List Eaddr
  | .add addr => if (l.length : Int) < ETH_NUM_MCAST then l ++ [addr] else l
  | .remove addr => l.erase addr

/-- The list that a sequence of calls makes. -/
def mcastList (calls : List McastCall) : List Eaddr := calls.foldl McastCall.edit []

/-- A call on a device with the list `l` does what it is to do. -/
structure McastRight (d : EthMcast) (l : List Eaddr) (call : McastCall) : Prop where
  entries : (call.run d).dev.entries = call.edit l
  count : 0 ≤ (call.run d).dev.ed_mcc ∧ (call.run d).dev.ed_mcc ≤ ETH_NUM_MCAST
  result : (call.run d).result = if call.Accepted l then OK else SYSERR
  inside : ∀ i ∈ (call.run d).touched, 0 ≤ i ∧ i < ETH_NUM_MCAST

/-! ## 3. The loops

Both by induction on the rounds that are left. -/

variable {d : EthMcast} {l : List Eaddr} {addr : Eaddr} {mca : Int → Eaddr} {n : Nat} {i j k : Int}

/-- **The search** ends at the first occurrence, and looks at nothing behind it. -/
theorem findMcast_spec (addr : Eaddr) (mca : Int → Eaddr) (n : Nat) (i : Int) :
    (findMcast addr mca n i).1 =
        i + (((List.range n).map fun k : Nat => mca (i + k)).idxOf addr : Nat) ∧
      ∀ k ∈ (findMcast addr mca n i).2, i ≤ k ∧ k < i + n := by
  induction n generalizing i with
  | zero => simp [findMcast]
  | succ n ih =>
    obtain ⟨hfst, htouched⟩ := ih (i + 1)
    have hcons : ((List.range (n + 1)).map fun k : Nat => mca (i + k)) =
        mca i :: (List.range n).map fun k : Nat => mca (i + 1 + k) := by
      rw [List.range_succ_eq_map]
      simp [Function.comp_def, Int.add_assoc, Int.add_comm 1]
    rw [hcons]
    by_cases heq : addr = mca i
    · simp [findMcast, ← heq]
    · simp only [findMcast, if_neg heq, List.idxOf_cons_ne _ (Ne.symm heq), hfst]
      refine ⟨by push_cast; ring, fun k hk => ?_⟩
      rcases List.mem_cons.mp hk with rfl | hk
      · omega
      · have := htouched k hk
        omega

/-- **The shift** moves `n` entries down by one, and reaches the one behind them. -/
theorem shiftMcast_spec (n : Nat) (j : Int) (mca : Int → Eaddr) :
    (∀ k, k < j ∨ j + n < k → (shiftMcast n j mca).1 k = mca k) ∧
      (∀ k, j ≤ k → k < j + n → (shiftMcast n j mca).1 k = mca (k + 1)) ∧
      (∀ k ∈ (shiftMcast n j mca).2, j ≤ k ∧ k ≤ j + n) ∧
      (0 < n → j + n ∈ (shiftMcast n j mca).2) := by
  induction n generalizing j mca with
  | zero => exact ⟨fun _ _ => rfl, by omega, by simp [shiftMcast], by omega⟩
  | succ n ih =>
    set mca₁ := Function.update (Function.update mca j (mca (j + 1))) (j + 1)
      (Vector.replicate ETH_ADDR_LEN 0x30) with hmca₁
    obtain ⟨hout, hin, htouched, hlast⟩ := ih (j + 1) mca₁
    have hrun : shiftMcast (n + 1) j mca =
        ((shiftMcast n (j + 1) mca₁).1, j :: (j + 1) :: (shiftMcast n (j + 1) mca₁).2) := rfl
    rw [hrun]
    refine ⟨fun k hk => ?_, fun k hjk hk => ?_, fun k hk => ?_, fun _ => ?_⟩
    · rw [hout k (by omega), hmca₁, Function.update_of_ne (by omega),
        Function.update_of_ne (by omega)]
    · rcases hjk.eq_or_lt with rfl | hlt
      · rw [hout j (by omega), hmca₁, Function.update_of_ne (by omega), Function.update_self]
      · rw [hin k (by omega) (by push_cast at hk; omega), hmca₁,
          Function.update_of_ne (by omega), Function.update_of_ne (by omega)]
    · simp only [List.mem_cons] at hk
      rcases hk with rfl | rfl | hk
      · omega
      · omega
      · have := htouched k hk
        omega
    · rcases Nat.eq_zero_or_pos n with rfl | hn
      · simp
      · have := hlast hn
        rw [show j + ((n + 1 : Nat) : Int) = j + 1 + n by push_cast; ring]
        simp [this]

/-! ## 4. One call

An accepted call edits the list, and a call that is refused leaves it. -/

/-- The device keeps the list, which is no longer than the array. -/
structure McastKeeps (d : EthMcast) (l : List Eaddr) : Prop where
  count : d.ed_mcc = l.length
  fits : l.length ≤ 32
  entry : ∀ i (h : i < l.length), d.ed_mca i = l[i]

theorem McastKeeps.entries (h : McastKeeps d l) : d.entries = l := by
  refine List.ext_getElem (by simp [EthMcast.entries, h.count]) fun i h₁ h₂ => ?_
  simp [EthMcast.entries, h.entry i h₂]

theorem McastKeeps.add_room (h : McastKeeps d l) (hlt : (l.length : Int) < ETH_NUM_MCAST)
    (addr : Eaddr) :
    ethmcast_add d addr =
      ⟨OK, ⟨d.macff ||| 0x00000010, l.length + 1, Function.update d.ed_mca l.length addr⟩,
        [(l.length : Int)]⟩ := by
  simp only [ethmcast_add, h.count]
  rw [if_pos hlt]

theorem McastKeeps.add_full (h : McastKeeps d l) (hlt : ¬ (l.length : Int) < ETH_NUM_MCAST)
    (addr : Eaddr) :
    ethmcast_add d addr = ⟨SYSERR, { d with macff := d.macff ||| 0x00000010 }, []⟩ := by
  simp only [ethmcast_add, h.count]
  rw [if_neg hlt]

theorem McastKeeps.add (h : McastKeeps d l) (addr : Eaddr) :
    McastKeeps (ethmcast_add d addr).dev (McastCall.edit l (.add addr)) ∧
      (ethmcast_add d addr).result = if (l.length : Int) < ETH_NUM_MCAST then OK else SYSERR := by
  by_cases hlt : (l.length : Int) < ETH_NUM_MCAST
  · rw [h.add_room hlt, McastCall.edit, if_pos hlt, if_pos hlt]
    simp only [ETH_NUM_MCAST] at hlt
    refine ⟨⟨by simp, by simp; omega, fun i hi => ?_⟩, rfl⟩
    rcases Nat.lt_or_ge i l.length with hil | hil
    · rw [List.getElem_append_left hil, ← h.entry i hil]
      exact Function.update_of_ne (by omega) ..
    · obtain rfl : i = l.length := by simp at hi; omega
      simp
  · rw [h.add_full hlt, McastCall.edit, if_neg hlt, if_neg hlt]
    exact ⟨⟨h.count, h.fits, h.entry⟩, rfl⟩

/-- Adding touches the entry behind the list. -/
theorem McastKeeps.add_inside (h : McastKeeps d l) : ∀ i ∈ (ethmcast_add d addr).touched,
    0 ≤ i ∧ i < ETH_NUM_MCAST := by
  by_cases hlt : (l.length : Int) < ETH_NUM_MCAST
  · rw [h.add_room hlt]
    simp only [List.mem_singleton]
    rintro i rfl
    exact ⟨by omega, hlt⟩
  · rw [h.add_full hlt]
    simp

/-- What the search of a device that keeps `l` finds. -/
theorem McastKeeps.find (h : McastKeeps d l) (addr : Eaddr) :
    (findMcast addr d.ed_mca d.ed_mcc.toNat 0).1 = (l.idxOf addr : Nat) ∧
      ∀ k ∈ (findMcast addr d.ed_mca d.ed_mcc.toNat 0).2, 0 ≤ k ∧ k < l.length := by
  have hspec := findMcast_spec addr d.ed_mca d.ed_mcc.toNat 0
  have hentries := h.entries
  rw [EthMcast.entries] at hentries
  simp only [zero_add, hentries] at hspec
  rwa [h.count, Int.toNat_natCast] at hspec ⊢

/-- An address that is not there is not removed. -/
theorem McastKeeps.remove_absent (h : McastKeeps d l) (hmem : addr ∉ l) :
    ethmcast_remove d addr =
      ⟨SYSERR, d, (findMcast addr d.ed_mca d.ed_mcc.toNat 0).2⟩ := by
  have hidx := List.idxOf_eq_length hmem
  simp only [ethmcast_remove]
  rw [if_neg (by rw [(h.find addr).1, hidx, h.count]; omega)]

/-- The address that is there is shifted out. -/
theorem McastKeeps.remove_present (h : McastKeeps d l) (hmem : addr ∈ l) :
    ethmcast_remove d addr =
      let shifted := shiftMcast (l.length - l.idxOf addr) (l.idxOf addr : Nat) d.ed_mca
      ⟨OK, { d with ed_mcc := l.length - 1, ed_mca := shifted.1 },
        (findMcast addr d.ed_mca d.ed_mcc.toNat 0).2 ++ shifted.2⟩ := by
  have hidx := List.idxOf_lt_length_of_mem hmem
  have hrounds : (d.ed_mcc - (l.idxOf addr : Nat)).toNat = l.length - l.idxOf addr := by
    rw [h.count]
    omega
  simp only [ethmcast_remove]
  rw [if_pos (by rw [(h.find addr).1, h.count]; omega), (h.find addr).1, hrounds, h.count]

theorem McastKeeps.remove (h : McastKeeps d l) (addr : Eaddr) :
    McastKeeps (ethmcast_remove d addr).dev (l.erase addr) ∧
      (ethmcast_remove d addr).result = if addr ∈ l then OK else SYSERR := by
  by_cases hmem : addr ∈ l
  · have hidx := List.idxOf_lt_length_of_mem hmem
    have hfits := h.fits
    have hlen := List.length_erase_of_mem hmem
    rw [h.remove_present hmem, if_pos hmem]
    obtain ⟨hout, hin, -, -⟩ :=
      shiftMcast_spec (l.length - l.idxOf addr) (l.idxOf addr : Nat) d.ed_mca
    refine ⟨⟨by simp only; omega, by omega, fun i hi => ?_⟩, rfl⟩
    simp only [← List.eraseIdx_idxOf_eq_erase]
    rw [List.getElem_eraseIdx]
    split_ifs with hlt
    · rw [← h.entry i (by omega)]
      exact hout i (.inl (by omega))
    · rw [← h.entry (i + 1) (by omega)]
      exact hin i (by omega) (by omega)
  · rw [h.remove_absent hmem, List.erase_of_not_mem hmem, if_neg hmem]
    exact ⟨h, rfl⟩

/-- **Removing touches the entry behind the list**, if it removes anything. -/
theorem McastKeeps.remove_inside_iff (h : McastKeeps d l) (addr : Eaddr) :
    (∀ i ∈ (ethmcast_remove d addr).touched, 0 ≤ i ∧ i < ETH_NUM_MCAST) ↔
      ¬ (addr ∈ l ∧ l.length = 32) := by
  have hfits := h.fits
  have hfound := (h.find addr).2
  by_cases hmem : addr ∈ l
  · have hidx := List.idxOf_lt_length_of_mem hmem
    obtain ⟨-, -, htouched, hlast⟩ :=
      shiftMcast_spec (l.length - l.idxOf addr) (l.idxOf addr : Nat) d.ed_mca
    rw [h.remove_present hmem]
    constructor
    · rintro hin ⟨-, hfull⟩
      have := (hin _ (List.mem_append_right _ (hlast (by omega)))).2
      simp only [ETH_NUM_MCAST] at this
      omega
    · intro hnot i hi
      rcases List.mem_append.mp hi with hi | hi
      · have := hfound i hi
        simp only [ETH_NUM_MCAST]
        omega
      · have := htouched i hi
        have hne : l.length ≠ 32 := fun hfull => hnot ⟨hmem, hfull⟩
        simp only [ETH_NUM_MCAST]
        omega
  · rw [h.remove_absent hmem]
    refine iff_of_true (fun i hi => ?_) fun hfull => hmem hfull.1
    have := hfound i hi
    simp only [ETH_NUM_MCAST]
    omega

/-- **One call** makes of the list what it should. -/
theorem McastKeeps.call (h : McastKeeps d l) (call : McastCall) :
    McastKeeps (call.run d).dev (call.edit l) ∧
      (call.run d).result = if call.Accepted l then OK else SYSERR := by
  cases call with
  | add addr => exact h.add addr
  | remove addr => exact h.remove addr

theorem McastKeeps.right_iff (h : McastKeeps d l) (call : McastCall) :
    McastRight d l call ↔ ¬ ∃ addr, call = .remove addr ∧ addr ∈ l ∧ l.length = 32 := by
  have hinside : (∀ i ∈ (call.run d).touched, 0 ≤ i ∧ i < ETH_NUM_MCAST) ↔
      ¬ ∃ addr, call = .remove addr ∧ addr ∈ l ∧ l.length = 32 := by
    cases call with
    | add addr => exact iff_of_true h.add_inside (by simp)
    | remove addr => simpa [McastCall.run] using h.remove_inside_iff addr
  obtain ⟨hkeeps, hresult⟩ := h.call call
  rw [← hinside]
  refine ⟨McastRight.inside, fun hin => ⟨hkeeps.entries, ?_, hresult, hin⟩⟩
  have := hkeeps.fits
  rw [hkeeps.count]
  exact ⟨by omega, by simp only [ETH_NUM_MCAST]; omega⟩

/-! ## 5. Runs

Along a sequence of calls the list in the array is the one that they describe. -/

/-- **Behind any calls** the device keeps the list that they make. -/
theorem mcastKeeps_afterCalls (h : d.ed_mcc = 0) (calls : List McastCall) :
    McastKeeps (afterCalls d calls) (mcastList calls) := by
  have hrun : ∀ calls : List McastCall, ∀ d l, McastKeeps d l →
      McastKeeps (afterCalls d calls) (calls.foldl McastCall.edit l) := by
    intro calls
    induction calls with
    | nil => exact fun _ _ h => h
    | cons call calls ih => exact fun d l h => ih _ _ (h.call call).1
  exact hrun calls d [] ⟨by simp [h], by simp, by simp⟩

/-- **The exact condition**: every call of a sequence does what it is to do, and touches nothing
outside the array, if and only if no address is removed from a full table. -/
theorem ethmcast_iff (d : EthMcast) (h : d.ed_mcc = 0) (calls : List McastCall) :
    (∀ before call behind, calls = before ++ call :: behind →
      McastRight (afterCalls d before) (mcastList before) call) ↔
    ∀ before addr behind, calls = before ++ .remove addr :: behind →
      ¬ (addr ∈ mcastList before ∧ (mcastList before).length = 32) := by
  constructor
  · intro hright before addr behind hcalls hfull
    have := ((mcastKeeps_afterCalls h before).right_iff _).mp (hright before _ behind hcalls)
    exact this ⟨addr, rfl, hfull⟩
  · rintro hnot before call behind hcalls
    refine ((mcastKeeps_afterCalls h before).right_iff _).mpr ?_
    rintro ⟨addr, rfl, hfull⟩
    exact hnot before addr behind hcalls hfull

/-- An empty table, to which calls are made. -/
theorem ethmcast_iff_empty :
    let d : EthMcast := ⟨0, 0, fun _ => Vector.replicate 6 0⟩
    let addr : Eaddr := #v[1, 0, 0x5e, 0, 0, 1]
    d.ed_mcc = 0 ∧
      ((∀ before call behind, [McastCall.add addr, .remove addr] = before ++ call :: behind →
        McastRight (afterCalls d before) (mcastList before) call) ↔
      ∀ before addr' behind,
        [McastCall.add addr, .remove addr] = before ++ .remove addr' :: behind →
          ¬ (addr' ∈ mcastList before ∧ (mcastList before).length = 32)) :=
  ⟨rfl, ethmcast_iff _ rfl _⟩

/-- Thirty-two addresses are added and one of them is removed: the entry behind the array is
touched. -/
theorem ethmcast_full :
    let d : EthMcast := ⟨0, 0, fun _ => Vector.replicate 6 0⟩
    let addr : Eaddr := #v[1, 0, 0x5e, 0, 0, 1]
    ∃ i ∈ ((McastCall.remove addr).run (afterCalls d (List.replicate 32 (.add addr)))).touched,
      ¬ i < ETH_NUM_MCAST := by
  decide +kernel

end Xinu
