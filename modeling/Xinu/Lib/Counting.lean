/-
# Counting semaphores with their waiting lists

A `Counter` is a count together with those who wait, oldest first.  The two are tied: nobody waits
while the count is not negative, and a negative count counts the waiting.  That is a field, so each
operation is defined with the proof that it keeps the tie.

A `Gate` also knows those who were released and have not run since.  Its `grants` are what the
semaphore has granted and nobody has made use of yet.
-/
import Mathlib.Tactic

namespace Counting

/-- A counting semaphore and those waiting for it. -/
@[ext] structure Counter (α : Type*) where
  count : Int
  waiting : List α
  balanced : (waiting.length : Int) = max (-count) 0

namespace Counter

variable {α : Type*} (c : Counter α)

/-! ## 1. The tie -/

theorem waiting_ne_nil : c.waiting ≠ [] ↔ c.count < 0 := by
  have := c.balanced
  rw [← List.length_pos_iff]
  omega

theorem waiting_eq_nil (h : 0 ≤ c.count) : c.waiting = [] := by
  have := c.balanced
  exact List.length_eq_zero_iff.mp (by omega)

/-! ## 2. Operations -/

/-- A semaphore on which `n` may pass. -/
def create (n : Nat) : Counter α := ⟨n, [], by simp⟩

/-- `a` passes, or waits behind the others. -/
def wait (a : α) : Counter α where
  count := c.count - 1
  waiting := if c.count ≤ 0 then c.waiting ++ [a] else c.waiting
  balanced := by
    have := c.balanced
    split_ifs
    · rw [List.length_append, List.length_singleton]
      omega
    · omega

theorem wait_blocks {c : Counter α} (h : c.count ≤ 0) (a : α) :
    (c.wait a).waiting = c.waiting ++ [a] := if_pos h

theorem wait_passes {c : Counter α} (h : 0 < c.count) (a : α) : (c.wait a).waiting = c.waiting :=
  if_neg (not_le.mpr h)

/-- Signalled `n` times, which releases the first `n`. -/
def signal (n : Nat) : Counter α where
  count := c.count + n
  waiting := c.waiting.drop n
  balanced := by
    have := c.balanced
    rw [List.length_drop]
    omega

/-- One of those waiting, if it is one, gives up. -/
def withdraw [DecidableEq α] (a : α) : Counter α where
  count := if a ∈ c.waiting then c.count + 1 else c.count
  waiting := c.waiting.erase a
  balanced := by
    have := c.balanced
    split_ifs with h
    · have := List.length_pos_of_mem h
      rw [List.length_erase_of_mem h]
      omega
    · rw [List.erase_of_not_mem h]
      exact this

theorem withdraw_of_notMem [DecidableEq α] {c : Counter α} {a : α} (h : a ∉ c.waiting) :
    c.withdraw a = c := by
  ext1
  · exact if_neg h
  · exact List.erase_of_not_mem h

end Counter

/-! ## 3. The released -/

/-- A counting semaphore and those whom it has released and who have not run since. -/
@[ext] structure Gate (α : Type*) where
  sem : Counter α
  released : List α

namespace Gate

variable {α : Type*} (g : Gate α)

def create (n : Nat) : Gate α := ⟨Counter.create n, []⟩

def wait (a : α) : Gate α := { g with sem := g.sem.wait a }

def signal (n : Nat) : Gate α := ⟨g.sem.signal n, g.released ++ g.sem.waiting.take n⟩

/-- The count is set, and all who wait are released. -/
def reset (n : Nat) : Gate α := ⟨Counter.create n, g.released ++ g.sem.waiting⟩

/-- A released one runs. -/
def run [DecidableEq α] (a : α) : Gate α := { g with released := g.released.erase a }

/-- What was granted and not used: what the count leaves, and the released. -/
def grants : Int := max g.sem.count 0 + g.released.length

theorem signal_zero : g.signal 0 = g := by
  ext1
  · ext1
    · exact add_zero _
    · rfl
  · exact List.append_nil _

@[simp] theorem grants_create (n : Nat) : (create n : Gate α).grants = n := by
  simp [grants, create, Counter.create]

theorem grants_nonneg : 0 ≤ g.grants := by
  unfold grants
  omega

theorem count_le_grants : g.sem.count ≤ g.grants := by
  unfold grants
  omega

variable {g} {a : α}

/-- Who passes uses a grant. -/
theorem grants_wait_passes (h : 0 < g.sem.count) : (g.wait a).grants = g.grants - 1 := by
  simp only [grants, wait, Counter.wait]
  omega

theorem grants_wait_blocks (h : g.sem.count ≤ 0) : (g.wait a).grants = g.grants := by
  simp only [grants, wait, Counter.wait]
  omega

/-- **A signal grants**, whether it counts or releases. -/
theorem grants_signal (n : Nat) : (g.signal n).grants = g.grants + n := by
  have hb := g.sem.balanced
  simp only [grants, signal, Counter.signal, List.length_append, List.length_take]
  omega

/-- Who runs uses a grant. -/
theorem grants_run [DecidableEq α] (h : a ∈ g.released) : (g.run a).grants = g.grants - 1 := by
  have hpos := List.length_pos_of_mem h
  simp only [grants, run, List.length_erase_of_mem h]
  omega

end Gate

/-! ## 4. Turnstiles -/

/-- A counting semaphore where it does not matter who waits: the count, and how many were let
through and have not gone on. -/
@[ext] structure Turnstile where
  count : Int
  through : Nat
deriving DecidableEq

namespace Turnstile

variable (t : Turnstile)

/-- Someone is let through, or waits. -/
def wait : Turnstile := ⟨t.count - 1, if 0 < t.count then t.through + 1 else t.through⟩

/-- Signalled `n` times, which lets the first `n` of those waiting through. -/
def signal (n : Nat) : Turnstile := ⟨t.count + n, t.through + min n (-t.count).toNat⟩

/-- One of those let through goes on. -/
def goOn : Turnstile := { t with through := t.through - 1 }

/-- What was granted: what the count leaves, and those let through. -/
def room : Int := max t.count 0 + t.through

theorem room_nonneg : 0 ≤ t.room := by
  unfold room
  omega

/-- Waiting changes nothing: who is let through has been granted what the count gives up. -/
@[simp] theorem room_wait : t.wait.room = t.room := by
  simp only [room, wait]
  split <;> omega

/-- **A signal grants**, whether it counts or lets through. -/
@[simp] theorem room_signal (n : Nat) : (t.signal n).room = t.room + n := by
  simp only [room, signal]
  omega

/-- Who goes on uses a grant. -/
theorem room_goOn {t : Turnstile} (h : 0 < t.through) : t.goOn.room = t.room - 1 := by
  simp only [room, goOn]
  omega

end Turnstile

/-! ## 5. Those inside -/

namespace Counter

variable {α : Type*} {c : Counter α} {s : Finset α} {n : Int} {a : α}

/-- `s` are those who have called `wait` and have not gone on, whether they wait or were let
through, and `n` is what has been granted to them and to those to come. -/
structure Serves (c : Counter α) (s : Finset α) (n : Int) : Prop where
  total : c.count + s.card = n
  waiting : ∀ a ∈ c.waiting, a ∈ s

theorem Serves.create (n : Nat) : (create n : Counter α).Serves ∅ n where
  total := by simp [Counter.create]
  waiting := by simp [Counter.create]

/-- **Coming changes nothing**: who comes takes what the count gives up. -/
theorem Serves.wait [DecidableEq α] (h : c.Serves s n) (ha : a ∉ s) :
    (c.wait a).Serves (insert a s) n where
  total := by
    have := h.total
    rw [Finset.card_insert_of_notMem ha, Counter.wait]
    push_cast
    omega
  waiting := by
    intro b hb
    simp only [Counter.wait] at hb
    split_ifs at hb
    · rcases List.mem_append.mp hb with hb | hb
      · exact Finset.mem_insert_of_mem (h.waiting b hb)
      · rw [List.mem_singleton.mp hb]
        exact Finset.mem_insert_self ..
    · exact Finset.mem_insert_of_mem (h.waiting b hb)

/-- **A signal grants**. -/
theorem Serves.signal (h : c.Serves s n) (m : Nat) : (c.signal m).Serves s (n + m) where
  total := by
    have := h.total
    simp only [Counter.signal]
    omega
  waiting := fun b hb => h.waiting b (List.mem_of_mem_drop hb)

/-- **Going on uses a grant**. -/
theorem Serves.leave [DecidableEq α] (h : c.Serves s n) (ha : a ∈ s) (hw : a ∉ c.waiting) :
    c.Serves (s.erase a) (n - 1) where
  total := by
    have := h.total
    have := Finset.card_erase_add_one ha
    omega
  waiting := fun b hb =>
    Finset.mem_erase.mpr ⟨ne_of_mem_of_not_mem hb hw, h.waiting b hb⟩

/-- What the count leaves and those let through are what was granted. -/
theorem Serves.room [DecidableEq α] (h : c.Serves s n) (hnd : c.waiting.Nodup) :
    max c.count 0 + (s.filter (· ∉ c.waiting)).card = n := by
  have hsub : c.waiting.toFinset ⊆ s := fun b hb => h.waiting b (List.mem_toFinset.mp hb)
  have hfilter : s.filter (· ∉ c.waiting) = s \ c.waiting.toFinset := by
    ext b
    simp
  have hcard := Finset.card_sdiff_add_card_eq_card hsub
  have htotal := h.total
  have hbal := c.balanced
  rw [List.toFinset_card_of_nodup hnd] at hcard
  rw [hfilter]
  omega

theorem Serves.nonneg [DecidableEq α] (h : c.Serves s n) (hnd : c.waiting.Nodup) : 0 ≤ n := by
  have := h.room hnd
  omega

end Counter

/-- Who is at a place that has room for one is there alone. -/
theorem eq_singleton_of_mem {α : Type*} {l : List α} {a : α} (ha : a ∈ l) (hone : l.length ≤ 1) :
    l = [a] := by
  have hpos := List.length_pos_of_mem ha
  obtain ⟨x, rfl⟩ := List.length_eq_one_iff.mp (by omega : l.length = 1)
  rw [List.mem_singleton.mp ha]

end Counting
