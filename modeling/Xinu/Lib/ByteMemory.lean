/-
# A flat byte memory with 32-bit little-endian words

The memory of a 32-bit machine without paging is a function from addresses to bytes, and a
word access at `a` touches the four bytes `a`, `a + 1`, `a + 2`, `a + 3`, each taken modulo
`2 ^ 32`.  Nothing is assumed about alignment, so overlapping and wrapping accesses mean what
the bytes say.

The two facts every client uses are `load_store_same` and `load_store_of_apart`.  A routine
that writes only inside a range is described by `SameOutside`, which composes.
-/
import Mathlib.Tactic

namespace ByteMemory

/-- The number of byte addresses. -/
abbrev addrSpace : Nat := 4294967296

/-- A memory: one byte at each address.  Only addresses below `addrSpace` are ever used. -/
abbrev Mem := Nat → UInt8

/-- The word at `a`, least significant byte first. -/
def load (m : Mem) (a : Nat) : Nat :=
  (m (a % addrSpace)).toNat + 256 * (m ((a + 1) % addrSpace)).toNat
    + 65536 * (m ((a + 2) % addrSpace)).toNat + 16777216 * (m ((a + 3) % addrSpace)).toNat

/-- The memory after writing the word `v` at `a`. -/
def store (m : Mem) (a v : Nat) : Mem := fun x =>
  if x = a % addrSpace then UInt8.ofNat v
  else if x = (a + 1) % addrSpace then UInt8.ofNat (v / 256)
  else if x = (a + 2) % addrSpace then UInt8.ofNat (v / 65536)
  else if x = (a + 3) % addrSpace then UInt8.ofNat (v / 16777216)
  else m x

/-! ## 1. Reading back -/

/-- A word is below `2 ^ 32`. -/
theorem load_lt (m : Mem) (a : Nat) : load m a < addrSpace := by
  have h0 := (m (a % addrSpace)).toNat_lt
  have h1 := (m ((a + 1) % addrSpace)).toNat_lt
  have h2 := (m ((a + 2) % addrSpace)).toNat_lt
  have h3 := (m ((a + 3) % addrSpace)).toNat_lt
  simp only [load, addrSpace] at *
  omega

/-- An address is only used modulo the address space. -/
theorem load_mod (m : Mem) (a : Nat) : load m (a % addrSpace) = load m a := by
  simp [load, Nat.add_mod]

/-- **Reading the word just written.**  The four bytes are distinct even when the access wraps,
so no condition on `a` is needed. -/
@[simp] theorem load_store_same (m : Mem) (a v : Nat) :
    load (store m a v) a = v % addrSpace := by
  have h1 : (a + 1) % addrSpace ≠ a % addrSpace := by simp only [addrSpace]; omega
  have h2 : (a + 2) % addrSpace ≠ a % addrSpace := by simp only [addrSpace]; omega
  have h3 : (a + 3) % addrSpace ≠ a % addrSpace := by simp only [addrSpace]; omega
  have h4 : (a + 2) % addrSpace ≠ (a + 1) % addrSpace := by simp only [addrSpace]; omega
  have h5 : (a + 3) % addrSpace ≠ (a + 1) % addrSpace := by simp only [addrSpace]; omega
  have h6 : (a + 3) % addrSpace ≠ (a + 2) % addrSpace := by simp only [addrSpace]; omega
  simp only [load, store, if_true, if_neg h1, if_neg h2, if_neg h3, if_neg h4, if_neg h5,
    if_neg h6, UInt8.toNat_ofNat']
  simp only [addrSpace]
  omega

/-- A write leaves every byte outside its four alone. -/
theorem store_apply_of_outside {m : Mem} {a v x : Nat} (ha : a + 4 ≤ addrSpace)
    (hx : x < a ∨ a + 4 ≤ x) : store m a v x = m x := by
  have h0 : a % addrSpace = a := Nat.mod_eq_of_lt (by omega)
  have h1 : (a + 1) % addrSpace = a + 1 := Nat.mod_eq_of_lt (by omega)
  have h2 : (a + 2) % addrSpace = a + 2 := Nat.mod_eq_of_lt (by omega)
  have h3 : (a + 3) % addrSpace = a + 3 := Nat.mod_eq_of_lt (by omega)
  simp only [store, h0, h1, h2, h3]
  rw [if_neg (by omega), if_neg (by omega), if_neg (by omega), if_neg (by omega)]

/-- A word depends on its four bytes only. -/
theorem load_congr {m m' : Mem} {a : Nat} (ha : a + 4 ≤ addrSpace)
    (h : ∀ x, a ≤ x → x < a + 4 → m' x = m x) : load m' a = load m a := by
  have h0 : a % addrSpace = a := Nat.mod_eq_of_lt (by omega)
  have h1 : (a + 1) % addrSpace = a + 1 := Nat.mod_eq_of_lt (by omega)
  have h2 : (a + 2) % addrSpace = a + 2 := Nat.mod_eq_of_lt (by omega)
  have h3 : (a + 3) % addrSpace = a + 3 := Nat.mod_eq_of_lt (by omega)
  simp only [load, h0, h1, h2, h3]
  rw [h a (by omega) (by omega), h (a + 1) (by omega) (by omega),
    h (a + 2) (by omega) (by omega), h (a + 3) (by omega) (by omega)]

/-- **A write does not change a word apart from it.** -/
theorem load_store_of_apart {m : Mem} {a b v : Nat} (ha : a + 4 ≤ addrSpace)
    (hb : b + 4 ≤ addrSpace) (h : a + 4 ≤ b ∨ b + 4 ≤ a) :
    load (store m b v) a = load m a :=
  load_congr ha fun x h1 h2 => store_apply_of_outside hb (by omega)

/-! ## 2. Writing inside a range -/

/-- `SameOutside lo hi m m'`: going from `m` to `m'` changed no byte outside `[lo, hi)`. -/
def SameOutside (lo hi : Nat) (m m' : Mem) : Prop := ∀ x, x < lo ∨ hi ≤ x → m' x = m x

theorem SameOutside.refl (lo hi : Nat) (m : Mem) : SameOutside lo hi m m := fun _ _ => rfl

theorem SameOutside.trans {lo hi : Nat} {m₁ m₂ m₃ : Mem} (h₁ : SameOutside lo hi m₁ m₂)
    (h₂ : SameOutside lo hi m₂ m₃) : SameOutside lo hi m₁ m₃ :=
  fun x hx => (h₂ x hx).trans (h₁ x hx)

/-- Widening the range keeps the fact. -/
theorem SameOutside.mono {lo hi lo' hi' : Nat} {m m' : Mem} (h : SameOutside lo hi m m')
    (hlo : lo' ≤ lo) (hhi : hi ≤ hi') : SameOutside lo' hi' m m' :=
  fun x hx => h x (by omega)

/-- One word written inside the range. -/
theorem SameOutside.store {lo hi a v : Nat} {m : Mem} (ha : a + 4 ≤ addrSpace) (hlo : lo ≤ a)
    (hhi : a + 4 ≤ hi) : SameOutside lo hi m (store m a v) :=
  fun _ hx => store_apply_of_outside ha (by omega)

/-- A word apart from the range is unchanged. -/
theorem SameOutside.load_eq {lo hi a : Nat} {m m' : Mem} (h : SameOutside lo hi m m')
    (ha : a + 4 ≤ addrSpace) (hout : a + 4 ≤ lo ∨ hi ≤ a) :
    load m' a = load m a :=
  load_congr ha fun x h1 h2 => h x (by omega)

/-! ## 3. Pushing words on a downward-growing stack -/

/-- `pushAll m sp vs`: for each word `v` of `vs` in turn, `*--sp = v`.  Returns the memory and
the final stack pointer.  The pointer wraps like any other 32-bit address. -/
def pushAll : Mem → Nat → List Nat → Mem × Nat
  | m, sp, [] => (m, sp)
  | m, sp, v :: vs =>
    pushAll (store m ((sp + addrSpace - 4) % addrSpace) v) ((sp + addrSpace - 4) % addrSpace) vs

/-! ## 4. Runs of words

Addresses here wrap: two ranges are `Separate` when they have no byte in common modulo the
address space. -/

/-- The `n` bytes from `a` and the `n'` bytes from `b` have no byte in common. -/
def Separate (a n b n' : Nat) : Prop :=
  ∀ i < n, ∀ j < n', (a + i) % addrSpace ≠ (b + j) % addrSpace

instance (a n b n' : Nat) : Decidable (Separate a n b n') :=
  inferInstanceAs (Decidable (∀ i < n, ∀ j < n', _ ≠ _))

theorem Separate.symm {a n b n' : Nat} (h : Separate a n b n') : Separate b n' a n :=
  fun i hi j hj e => h j hj i hi e.symm

/-- Two parts of separate ranges are separate. -/
theorem Separate.part {a n b n' i k j l : Nat} (h : Separate a n b n') (hi : i + k ≤ n)
    (hj : j + l ≤ n') : Separate (a + i) k (b + j) l := by
  intro x hx y hy
  have := h (i + x) (by omega) (j + y) (by omega)
  rwa [Nat.add_assoc, Nat.add_assoc]

theorem Separate.mono {a n b n' k l : Nat} (h : Separate a n b n') (hk : k ≤ n) (hl : l ≤ n') :
    Separate a k b l := fun i hi j hj => h i (by omega) j (by omega)

/-- **A write does not change a word separate from it.** -/
theorem load_store_of_separate {m : Mem} {a b v : Nat} (h : Separate a 4 b 4) :
    load (store m b v) a = load m a := by
  have byte : ∀ i < 4, store m b v ((a + i) % addrSpace) = m ((a + i) % addrSpace) := by
    intro i hi
    have h0 := h i hi 0 (by omega)
    simp only [Nat.add_zero] at h0
    simp only [store, if_neg h0, if_neg (h i hi 1 (by omega)), if_neg (h i hi 2 (by omega)),
      if_neg (h i hi 3 (by omega))]
  have h0 := byte 0 (by omega)
  simp only [Nat.add_zero] at h0
  simp only [load, h0, byte 1 (by omega), byte 2 (by omega), byte 3 (by omega)]

/-- The words `ws` lie at `a` and upwards. -/
def Words (m : Mem) : Nat → List Nat → Prop
  | _, [] => True
  | a, w :: ws => load m a = w ∧ Words m (a + 4) ws

instance Words.decidable (m : Mem) : (a : Nat) → (ws : List Nat) → Decidable (Words m a ws)
  | _, [] => isTrue trivial
  | a, w :: ws =>
    haveI := Words.decidable m (a + 4) ws
    inferInstanceAs (Decidable (load m a = w ∧ Words m (a + 4) ws))

theorem words_append {m : Mem} {a : Nat} {xs ys : List Nat} :
    Words m a (xs ++ ys) ↔ Words m a xs ∧ Words m (a + 4 * xs.length) ys := by
  induction xs generalizing a with
  | nil => simp [Words]
  | cons x xs ih =>
    have he : a + 4 + 4 * xs.length = a + 4 * (xs.length + 1) := by omega
    simp only [List.cons_append, Words, ih, List.length_cons, he, and_assoc]

/-- An address is only used modulo the address space. -/
theorem Words.congr_mod {m : Mem} {a b : Nat} {ws : List Nat} (h : Words m a ws)
    (he : a % addrSpace = b % addrSpace) : Words m b ws := by
  induction ws generalizing a b with
  | nil => trivial
  | cons w ws ih =>
    refine ⟨?_, ih h.2 (by simp only [addrSpace] at *; omega)⟩
    rw [← load_mod, ← he, load_mod]
    exact h.1

/-- A write separate from a run of words keeps it. -/
theorem Words.frame {m : Mem} {a b v : Nat} {ws : List Nat} (h : Words m a ws)
    (hs : Separate a (4 * ws.length) b 4) : Words (store m b v) a ws := by
  induction ws generalizing a with
  | nil => trivial
  | cons w ws ih =>
    simp only [List.length_cons] at hs
    refine ⟨(load_store_of_separate (hs.mono (by omega) le_rfl)).trans h.1, ih h.2 ?_⟩
    exact hs.part (by omega : 4 + 4 * ws.length ≤ _) (by omega : 0 + 4 ≤ _)

/-- A run of words depends on its words only. -/
theorem Words.congr {m m' : Mem} {a : Nat} {ws : List Nat} (h : Words m a ws)
    (hl : ∀ i < ws.length, load m' (a + 4 * i) = load m (a + 4 * i)) : Words m' a ws := by
  induction ws generalizing a with
  | nil => trivial
  | cons w ws ih =>
    refine ⟨(hl 0 (by simp)).trans h.1, ih h.2 fun i hi => ?_⟩
    have := hl (i + 1) (by simpa using hi)
    rwa [show a + 4 * (i + 1) = a + 4 + 4 * i by omega] at this

/-- Writing the word at a place in a run. -/
theorem Words.set {m : Mem} {a b x : Nat} {ys : List Nat} (xs : List Nat) (v : Nat)
    (h : Words m a (xs ++ x :: ys)) (hb : b % addrSpace = (a + 4 * xs.length) % addrSpace)
    (hn : 4 * (xs.length + 1 + ys.length) ≤ addrSpace) :
    Words (ByteMemory.store m b v) a (xs ++ v % addrSpace :: ys) := by
  obtain ⟨h1, -, h3⟩ := words_append.mp h
  refine words_append.mpr ⟨h1.frame fun i hi j hj => ?_, ?_, h3.frame fun i hi j hj => ?_⟩
  · simp only [addrSpace] at *
    omega
  · rw [← load_mod, ← hb, load_mod]
    exact load_store_same m b v
  · simp only [addrSpace] at *
    omega

/-- **A push adds one word in front of a run.** -/
theorem Words.push {m : Mem} {sp v : Nat} {ws : List Nat} (h : Words m sp ws)
    (hn : 4 * (ws.length + 1) ≤ addrSpace) :
    Words (store m ((sp + addrSpace - 4) % addrSpace) v) ((sp + addrSpace - 4) % addrSpace)
      (v % addrSpace :: ws) := by
  refine ⟨load_store_same _ _ _, Words.frame (h.congr_mod ?_) ?_⟩
  · simp only [addrSpace]; omega
  · intro i hi j hj
    simp only [addrSpace] at *
    omega

/-- **Pushing words puts them in front of the run, last one first.** -/
theorem Words.pushed {m : Mem} {sp : Nat} {ws : List Nat} (h : Words m sp ws) (vs : List Nat)
    (hn : 4 * (ws.length + vs.length) ≤ addrSpace) :
    Words (pushAll m sp vs).1 (pushAll m sp vs).2
      ((vs.map (· % addrSpace)).reverse ++ ws) := by
  induction vs generalizing m sp ws with
  | nil => exact h
  | cons v vs ih =>
    simp only [List.length_cons] at hn
    have h1 := h.push (v := v) (by omega)
    have h2 := ih h1 (by simp only [List.length_cons]; omega)
    rw [List.map_cons, List.reverse_cons, List.append_assoc]
    exact h2

/-- The stack pointer after pushing. -/
theorem pushAll_snd_mod {m : Mem} {sp : Nat} {vs : List Nat} :
    ((pushAll m sp vs).2 + 4 * vs.length) % addrSpace = sp % addrSpace := by
  induction vs generalizing m sp with
  | nil => rfl
  | cons v vs ih =>
    have h := @ih (store m ((sp + addrSpace - 4) % addrSpace) v) ((sp + addrSpace - 4) % addrSpace)
    simp only [pushAll, List.length_cons, addrSpace] at h ⊢
    omega

theorem pushAll_snd_lt {m : Mem} {sp v : Nat} {vs : List Nat} :
    (pushAll m sp (v :: vs)).2 < addrSpace := by
  induction vs generalizing m sp v with
  | nil =>
    simp only [pushAll]
    exact Nat.mod_lt _ (by simp)
  | cons w vs ih =>
    rw [pushAll]
    exact ih

/-- Pushing changes no word separate from the words pushed. -/
theorem load_pushAll_of_separate {m : Mem} {sp a : Nat} {vs : List Nat}
    (hs : Separate a 4 (pushAll m sp vs).2 (4 * vs.length)) :
    load (pushAll m sp vs).1 a = load m a := by
  induction vs generalizing m sp with
  | nil => rfl
  | cons v vs ih =>
    simp only [pushAll, List.length_cons] at hs ⊢
    rw [ih (hs.mono le_rfl (by omega))]
    refine load_store_of_separate fun i hi j hj => ?_
    -- the word pushed first is the highest one
    have h := hs i hi (4 * vs.length + j) (by omega)
    have hsp := @pushAll_snd_mod (store m ((sp + addrSpace - 4) % addrSpace) v)
      ((sp + addrSpace - 4) % addrSpace) vs
    simp only [addrSpace] at *
    omega

/-! ## 5. Filling a range -/

/-- For `i` from 0 to `n - 1`, write the word `f i` at `a + 4 * i`. -/
def storeAll (m : Mem) (a : Nat) (f : Nat → Nat) (n : Nat) : Mem :=
  (List.range n).foldl (fun m i => store m (a + 4 * i) (f i)) m

/-- For `j` from 0 to `n - 1`, copy the byte `src j` to `a + j`. -/
def copyAll (m : Mem) (a : Nat) (src : Nat → UInt8) (n : Nat) : Mem :=
  (List.range n).foldl (fun m j => Function.update m ((a + j) % addrSpace) (src j)) m

theorem storeAll_succ (m : Mem) (a : Nat) (f : Nat → Nat) (n : Nat) :
    storeAll m a f (n + 1) = store (storeAll m a f n) (a + 4 * n) (f n) := by
  rw [storeAll, List.range_succ, List.foldl_append]
  rfl

theorem copyAll_succ (m : Mem) (a : Nat) (src : Nat → UInt8) (n : Nat) :
    copyAll m a src (n + 1) =
      Function.update (copyAll m a src n) ((a + n) % addrSpace) (src n) := by
  rw [copyAll, List.range_succ, List.foldl_append]
  rfl

theorem storeAll_sameOutside {m : Mem} {a : Nat} {f : Nat → Nat} {n : Nat}
    (h : a + 4 * n ≤ addrSpace) : SameOutside a (a + 4 * n) m (storeAll m a f n) := by
  induction n with
  | zero => exact SameOutside.refl _ _ _
  | succ n ih =>
    rw [storeAll_succ]
    have h1 := ih (by omega)
    exact (h1.mono le_rfl (by omega)).trans (.store (by omega) (by omega) (by omega))

/-- **The words written are there.** -/
theorem load_storeAll {m : Mem} {a : Nat} {f : Nat → Nat} {n i : Nat}
    (h : a + 4 * n ≤ addrSpace) (hi : i < n) :
    load (storeAll m a f n) (a + 4 * i) = f i % addrSpace := by
  induction n with
  | zero => omega
  | succ n ih =>
    rw [storeAll_succ]
    rcases Nat.lt_or_ge i n with hlt | hge
    · rw [load_store_of_apart (by omega) (by omega) (by omega), ih (by omega) hlt]
    · obtain rfl : i = n := by omega
      exact load_store_same _ _ _

theorem copyAll_sameOutside {m : Mem} {a : Nat} {src : Nat → UInt8} {n : Nat}
    (h : a + n ≤ addrSpace) : SameOutside a (a + n) m (copyAll m a src n) := by
  induction n with
  | zero => exact SameOutside.refl _ _ _
  | succ n ih =>
    intro x hx
    have h1 := ih (by omega)
    rw [copyAll_succ, Nat.mod_eq_of_lt (by omega), Function.update_of_ne (by omega)]
    exact h1 x (by omega)

/-- **The bytes copied are there.** -/
theorem copyAll_apply {m : Mem} {a : Nat} {src : Nat → UInt8} {n j : Nat}
    (h : a + n ≤ addrSpace) (hj : j < n) : copyAll m a src n (a + j) = src j := by
  induction n with
  | zero => omega
  | succ n ih =>
    rw [copyAll_succ, Nat.mod_eq_of_lt (by omega)]
    rcases Nat.lt_or_ge j n with hlt | hge
    · rw [Function.update_of_ne (by omega), ih (by omega) hlt]
    · obtain rfl : j = n := by omega
      exact Function.update_self _ _ _

/-- Two equal words have equal bytes. -/
theorem bytes_of_load_eq {m m' : Mem} {a j : Nat} (h : load m' a = load m a) (hj : j < 4) :
    m' ((a + j) % addrSpace) = m ((a + j) % addrSpace) := by
  have b0 := (m (a % addrSpace)).toNat_lt
  have b1 := (m ((a + 1) % addrSpace)).toNat_lt
  have b2 := (m ((a + 2) % addrSpace)).toNat_lt
  have b3 := (m ((a + 3) % addrSpace)).toNat_lt
  have c0 := (m' (a % addrSpace)).toNat_lt
  have c1 := (m' ((a + 1) % addrSpace)).toNat_lt
  have c2 := (m' ((a + 2) % addrSpace)).toNat_lt
  have c3 := (m' ((a + 3) % addrSpace)).toNat_lt
  simp only [load] at h
  apply UInt8.toNat_inj.mp
  obtain rfl | rfl | rfl | rfl : j = 0 ∨ j = 1 ∨ j = 2 ∨ j = 3 := by omega
  · rw [Nat.add_zero]
    omega
  · omega
  · omega
  · omega

/-- Writing back what a word holds changes nothing. -/
theorem store_load (m : Mem) (a : Nat) : store m a (load m a) = m := by
  have hsame : load (store m a (load m a)) a = load m a := by
    rw [load_store_same, Nat.mod_eq_of_lt (load_lt m a)]
  funext x
  by_cases hx : ∃ j < 4, x = (a + j) % addrSpace
  · obtain ⟨j, hj, rfl⟩ := hx
    exact bytes_of_load_eq hsame hj
  · have hne : ∀ j < 4, x ≠ (a + j) % addrSpace := fun j hj e => hx ⟨j, hj, e⟩
    have h0 := hne 0 (by omega)
    rw [Nat.add_zero] at h0
    rw [store, if_neg h0, if_neg (hne 1 (by omega)), if_neg (hne 2 (by omega)),
      if_neg (hne 3 (by omega))]

/-! ## 6. Changes of memory that read nothing

A list of writes at fixed addresses either keeps a byte or gives it a value that does not depend
on the memory written to. -/

/-- The change keeps the byte at `x`. -/
def Spares (f : Mem → Mem) (x : Nat) : Prop := ∀ m, f m x = m x

/-- Each byte is kept or overwritten. -/
def Blind (f : Mem → Mem) : Prop := ∀ x, Spares f x ∨ ∀ m m', f m x = f m' x

theorem Blind.comp {f g : Mem → Mem} (hg : Blind g) (hf : Blind f) : Blind fun m => g (f m) := by
  intro x
  rcases hg x with hg | hg
  · rcases hf x with hf | hf
    · exact Or.inl fun m => (hg _).trans (hf m)
    · exact Or.inr fun m m' => (hg _).trans ((hf m m').trans (hg _).symm)
  · exact Or.inr fun m m' => hg _ _

theorem Blind.store (a v : Nat) : Blind fun m => store m a v := by
  intro x
  by_cases h : x = a % addrSpace ∨ x = (a + 1) % addrSpace ∨ x = (a + 2) % addrSpace ∨
      x = (a + 3) % addrSpace
  · refine Or.inr fun m m' => ?_
    simp only [ByteMemory.store]
    split_ifs <;> first | rfl | tauto
  · simp only [not_or] at h
    refine Or.inl fun m => ?_
    simp only [ByteMemory.store, if_neg h.1, if_neg h.2.1, if_neg h.2.2.1, if_neg h.2.2.2]

/-- A write of zero, byte by byte. -/
theorem store_zero_inside {m : Mem} {a x j : Nat} (hj : j < 4) (hx : x = (a + j) % addrSpace) :
    store m a 0 x = 0 := by
  simp only [ByteMemory.store]
  split_ifs with h0 h1 h2 h3
  · rfl
  · rfl
  · rfl
  · rfl
  · obtain rfl | rfl | rfl | rfl : j = 0 ∨ j = 1 ∨ j = 2 ∨ j = 3 := by omega
    · exact absurd hx h0
    · exact absurd hx h1
    · exact absurd hx h2
    · exact absurd hx h3

theorem store_outside {m : Mem} {a v x : Nat} (hx : ∀ j < 4, x ≠ (a + j) % addrSpace) :
    store m a v x = m x := by
  have h0 := hx 0 (by omega)
  rw [Nat.add_zero] at h0
  simp only [ByteMemory.store, if_neg h0, if_neg (hx 1 (by omega)), if_neg (hx 2 (by omega)),
    if_neg (hx 3 (by omega))]

/-- The stack pointer does not depend on the memory. -/
theorem pushAll_snd_congr (m m' : Mem) (sp : Nat) (vs : List Nat) :
    (pushAll m sp vs).2 = (pushAll m' sp vs).2 := by
  induction vs generalizing m m' sp with
  | nil => rfl
  | cons v vs ih =>
    rw [pushAll, pushAll]
    exact ih _ _ _

theorem Blind.pushAll (sp : Nat) (vs : List Nat) : Blind fun m => (pushAll m sp vs).1 := by
  induction vs generalizing sp with
  | nil => exact fun x => Or.inl fun m => rfl
  | cons v vs ih =>
    have hpush := (ih ((sp + addrSpace - 4) % addrSpace)).comp
      (.store ((sp + addrSpace - 4) % addrSpace) v)
    intro x
    simp only [Spares, ByteMemory.pushAll]
    exact hpush x

/-- **Two memories look alike after the change** if and only if they agree where it spares them. -/
theorem Blind.eq_iff {f : Mem → Mem} (hf : Blind f) {m m' : Mem} :
    f m = f m' ↔ ∀ x, Spares f x → m x = m' x := by
  constructor
  · intro he x hx
    rw [← hx m, ← hx m', he]
  · intro h
    funext x
    rcases hf x with hx | hx
    · rw [hx, hx, h x hx]
    · exact hx m m'

/-- A byte is zero after the change if and only if what is written there is zero and what is
spared there was. -/
theorem Blind.zero_iff {f : Mem → Mem} (hf : Blind f) {m : Mem} {x : Nat} :
    f m x = 0 ↔ f (fun _ => 0) x = 0 ∧ (Spares f x → m x = 0) := by
  rcases hf x with hx | hx
  · rw [hx, hx]
    exact ⟨fun h => ⟨rfl, fun _ => h⟩, fun h => h.2 hx⟩
  · rw [hx m fun _ => 0]
    refine ⟨fun h => ⟨h, fun hs => ?_⟩, And.left⟩
    rw [← hs m, hx m fun _ => 0, h]

/-- A word is zero if and only if its bytes are. -/
theorem load_eq_zero {m : Mem} {a : Nat} :
    load m a = 0 ↔ ∀ i < 4, m ((a + i) % addrSpace) = 0 := by
  have hz : ∀ b : UInt8, b = 0 ↔ b.toNat = 0 := fun b => by
    rw [← UInt8.toNat_inj]
    rfl
  constructor
  · intro h i hi
    rw [hz]
    simp only [load] at h
    obtain rfl | rfl | rfl | rfl : i = 0 ∨ i = 1 ∨ i = 2 ∨ i = 3 := by omega
    · rw [Nat.add_zero]
      omega
    · omega
    · omega
    · omega
  · intro h
    have h0 := (hz _).mp (h 0 (by omega))
    have h1 := (hz _).mp (h 1 (by omega))
    have h2 := (hz _).mp (h 2 (by omega))
    have h3 := (hz _).mp (h 3 (by omega))
    simp only [Nat.add_zero] at h0
    simp only [load, h0, h1, h2, h3]

/-! ## 7. The writes of a stack -/

/-- Carry out writes of words, in order. -/
def writeAll (m : Mem) (ws : List (Nat × Nat)) : Mem := ws.foldl (fun m w => store m w.1 w.2) m

theorem writeAll_cons (m : Mem) (w : Nat × Nat) (ws : List (Nat × Nat)) :
    writeAll m (w :: ws) = writeAll (store m w.1 w.2) ws := rfl

theorem writeAll_append (m : Mem) (ws ws' : List (Nat × Nat)) :
    writeAll m (ws ++ ws') = writeAll (writeAll m ws) ws' := List.foldl_append

/-- The word below. -/
def below (sp : Nat) : Nat := (sp + addrSpace - 4) % addrSpace

theorem below_lt (sp : Nat) : below sp < addrSpace := Nat.mod_lt _ (by decide)

/-- The stack pointer after `n` pushes. -/
def pushTop (sp n : Nat) : Nat := below^[n] sp

theorem pushTop_succ (sp n : Nat) : pushTop sp (n + 1) = pushTop (below sp) n :=
  Function.iterate_succ_apply below n sp

theorem pushTop_add (sp a b : Nat) : pushTop (pushTop sp a) b = pushTop sp (b + a) :=
  (Function.iterate_add_apply below b a sp).symm

theorem pushTop_lt {sp : Nat} (hsp : sp < addrSpace) (n : Nat) : pushTop sp n < addrSpace := by
  cases n with
  | zero => exact hsp
  | succ n =>
    rw [pushTop, Function.iterate_succ_apply']
    exact below_lt _

theorem pushTop_mod (sp n : Nat) : (pushTop sp n + 4 * n) % addrSpace = sp % addrSpace := by
  induction n generalizing sp with
  | zero => rfl
  | succ n ih =>
    have h := ih (below sp)
    rw [pushTop_succ]
    simp only [below, addrSpace] at h ⊢
    omega

/-- The writes of `pushAll`. -/
def pushLog : Nat → List Nat → List (Nat × Nat)
  | _, [] => []
  | sp, v :: vs => (below sp, v) :: pushLog (below sp) vs

/-- **A log of `pushAll`**: its writes, in order, and where the stack pointer is in the end. -/
theorem pushAll_log (m : Mem) (sp : Nat) (vs : List Nat) :
    pushAll m sp vs = (writeAll m (pushLog sp vs), pushTop sp vs.length) := by
  induction vs generalizing m sp with
  | nil => rfl
  | cons v vs ih =>
    have hpush : pushAll m sp (v :: vs) = pushAll (store m (below sp) v) (below sp) vs := rfl
    rw [hpush, ih, List.length_cons, pushTop_succ, pushLog, writeAll_cons]

/-- The addresses of the log. -/
theorem pushLog_fst (sp : Nat) (vs : List Nat) :
    (pushLog sp vs).map Prod.fst = (List.range vs.length).map fun i => pushTop sp (i + 1) := by
  induction vs generalizing sp with
  | nil => rfl
  | cons v vs ih =>
    rw [pushLog, List.map_cons, ih, List.length_cons, List.range_succ_eq_map, List.map_cons,
      List.map_map]
    refine congrArg₂ _ ?_ (List.map_congr_left fun i _ => ?_)
    · rw [pushTop_succ, pushTop, Function.iterate_zero_apply]
    · rw [Function.comp_apply, ← pushTop_succ]

/-- **Frame rule.** -/
theorem SameOutside.writeAll {lo hi : Nat} (hhi : hi ≤ addrSpace) {ws : List (Nat × Nat)}
    (hws : ∀ w ∈ ws, lo ≤ w.1 ∧ w.1 + 4 ≤ hi) (m : Mem) : SameOutside lo hi m (writeAll m ws) := by
  induction ws generalizing m with
  | nil => exact .refl lo hi m
  | cons w ws ih =>
    obtain ⟨h1, h2⟩ := hws w (by simp)
    have hw : SameOutside lo hi m (ByteMemory.store m w.1 w.2) := .store (by omega) h1 h2
    exact hw.trans (ih (fun x hx => hws x (by simp [hx])) _)

/-! ## 8. Strings -/

/-- The characters of `text` stand at `a`, with a null character behind them. -/
def StringAt (m : Mem) (a : Nat) (text : List UInt8) : Prop :=
  (0 : UInt8) ∉ text ∧ (List.range (text.length + 1)).map (fun j => m (a + j)) = text ++ [0]

variable {m : Mem} {a : Nat} {c : UInt8} {text text' : List UInt8}

theorem stringAt_nil : StringAt m a [] ↔ m a = 0 := by
  simp [StringAt]

theorem stringAt_cons :
    StringAt m a (c :: text) ↔ m a = c ∧ c ≠ 0 ∧ StringAt m (a + 1) text := by
  have hrange : (List.range ((c :: text).length + 1)).map (fun j => m (a + j)) =
      m a :: (List.range (text.length + 1)).map fun j => m (a + 1 + j) := by
    rw [List.length_cons, List.range_succ_eq_map, List.map_cons, List.map_map, Nat.add_zero]
    congr 1
    refine List.map_congr_left fun j _ => ?_
    rw [Function.comp_apply, Nat.succ_eq_add_one, Nat.add_assoc, Nat.add_comm 1 j]
  rw [StringAt, StringAt, hrange, List.cons_append, List.cons.injEq, List.mem_cons, not_or,
    ne_comm]
  tauto

/-- The character at a place of a string. -/
theorem StringAt.get (h : StringAt m a text) {j : Nat} (hj : j < text.length) :
    m (a + j) = text[j] := by
  have hg := List.getElem_of_eq h.2 (i := j) (by simp; omega)
  rw [List.getElem_map, List.getElem_range, List.getElem_append_left hj] at hg
  exact hg

theorem StringAt.null (h : StringAt m a text) : m (a + text.length) = 0 := by
  have hg := List.getElem_of_eq h.2 (i := text.length) (by simp)
  rw [List.getElem_map, List.getElem_range, List.getElem_append_right le_rfl] at hg
  simpa using hg

theorem stringAt_of_get (h0 : (0 : UInt8) ∉ text)
    (hj : ∀ j (h : j < text.length), m (a + j) = text[j]) (hn : m (a + text.length) = 0) :
    StringAt m a text := by
  refine ⟨h0, List.ext_getElem (by simp) fun j h1 h2 => ?_⟩
  rw [List.getElem_map, List.getElem_range]
  rw [List.length_append, List.length_singleton] at h2
  rcases Nat.lt_or_ge j text.length with hlt | hge
  · rw [List.getElem_append_left hlt]
    exact hj j hlt
  · obtain rfl : j = text.length := by omega
    rw [List.getElem_append_right le_rfl, hn]
    simp

/-- Only one string stands at a place. -/
theorem StringAt.unique (h : StringAt m a text) (h' : StringAt m a text') : text = text' := by
  induction text generalizing a text' with
  | nil =>
    cases text' with
    | nil => rfl
    | cons c' text' =>
      obtain ⟨hc, hne, -⟩ := stringAt_cons.mp h'
      exact absurd (hc.symm.trans (stringAt_nil.mp h)) hne
  | cons c text ih =>
    obtain ⟨hc, hne, ht⟩ := stringAt_cons.mp h
    cases text' with
    | nil => exact absurd (hc.symm.trans (stringAt_nil.mp h')) hne
    | cons c' text' =>
      obtain ⟨hc', -, ht'⟩ := stringAt_cons.mp h'
      rw [ih ht ht', hc.symm.trans hc']

end ByteMemory
