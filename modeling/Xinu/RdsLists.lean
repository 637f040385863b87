/-
# The lists of the remote disk

`Lists r Q C F H` says that the links of `r` form the request queue `Q`, the cache `C` and the free
list `F`, the first two in both directions, and that every buffer is on exactly one of them or
among those held, `H`.  Each assignment to the links is one operation on these lists, and each
search of the code is a `List.find?`.
-/
import Xinu.Rds

namespace Xinu

open Chains LinkedPath

/-! ## 1. The representation

The ends of the two doubly linked lists are heads and tails outside of the pool of buffers. -/

/-- The links of `r` form these lists. -/
structure Lists (r : Rdscblk) (Q C F H : List (Fin RD_BUFFS)) : Prop where
  queue : Path r.rd_next r.rd_prev .rh (Q.map .buf) .rt
  cache : Path r.rd_next r.rd_prev .ch (C.map .buf) .ct
  free : Walk r.rd_next r.rd_free (F.map .buf) .null
  all : (Q ++ C ++ F ++ H).Perm (List.finRange RD_BUFFS)

variable {r r' : Rdscblk} {Q C F H Q₁ Q₂ C₁ C₂ F₁ : List (Fin RD_BUFFS)} {i j : Fin RD_BUFFS}

theorem mem_map_buf : RdPtr.buf i ∈ Q.map RdPtr.buf ↔ i ∈ Q := by
  simp

theorem perm_insert (xs : List (Fin RD_BUFFS)) (i : Fin RD_BUFFS) (ys : List (Fin RD_BUFFS)) :
    (xs ++ i :: ys).Perm (i :: (xs ++ ys)) := List.perm_middle

namespace Lists

theorem nodup (h : Lists r Q C F H) : (Q ++ C ++ F ++ H).Nodup :=
  h.all.nodup_iff.mpr (List.nodup_finRange _)

/-- No buffer is in two places. -/
theorem apart (h : Lists r Q C F H) :
    Q.Nodup ∧ C.Nodup ∧ (∀ i ∈ Q, i ∉ C) ∧ (∀ i ∈ Q, i ∉ F) ∧ (∀ i ∈ Q, i ∉ H) ∧
      (∀ i ∈ C, i ∉ F) ∧ (∀ i ∈ C, i ∉ H) ∧ ∀ i ∈ F, i ∉ H := by
  have hn := h.nodup
  simp only [List.nodup_append, List.mem_append] at hn
  obtain ⟨⟨⟨hQ, hC, hQC⟩, -, hF⟩, -, hH⟩ := hn
  exact ⟨hQ, hC, fun i hi hj => hQC i hi i hj rfl, fun i hi hj => hF i (.inl hi) i hj rfl,
    fun i hi hj => hH i (.inl (.inl hi)) i hj rfl, fun i hi hj => hF i (.inr hi) i hj rfl,
    fun i hi hj => hH i (.inl (.inr hi)) i hj rfl, fun i hi hj => hH i (.inr hi) i hj rfl⟩

theorem nodup_queue (h : Lists r Q C F H) :
    (RdPtr.rh :: (Q.map RdPtr.buf ++ [RdPtr.rt])).Nodup := by
  have hQ := h.apart.1
  simp only [List.nodup_cons, List.nodup_append, List.mem_append, List.mem_map, List.mem_singleton]
  refine ⟨by simp, (List.nodup_map_iff fun a b hab => RdPtr.buf.inj hab).mpr hQ, by simp, ?_⟩
  rintro a ⟨x, -, rfl⟩ b rfl
  simp

theorem nodup_cache (h : Lists r Q C F H) :
    (RdPtr.ch :: (C.map RdPtr.buf ++ [RdPtr.ct])).Nodup := by
  have hC := h.apart.2.1
  simp only [List.nodup_cons, List.nodup_append, List.mem_append, List.mem_map, List.mem_singleton]
  refine ⟨by simp, (List.nodup_map_iff fun a b hab => RdPtr.buf.inj hab).mpr hC, by simp, ?_⟩
  rintro a ⟨x, -, rfl⟩ b rfl
  simp

/-- The lists are in the links, not in the buffers or the semaphores. -/
theorem congr (h : Lists r Q C F H) (hn : r'.rd_next = r.rd_next) (hp : r'.rd_prev = r.rd_prev)
    (hf : r'.rd_free = r.rd_free) : Lists r' Q C F H where
  queue := by rw [hn, hp]; exact h.queue
  cache := by rw [hn, hp]; exact h.cache
  free := by rw [hn, hf]; exact h.free
  all := h.all

theorem length_lt (h : Lists r Q C F H) :
    Q.length < rdWalkLimit ∧ C.length < rdWalkLimit := by
  have hlen := h.all.length_eq
  simp only [List.length_append, List.length_finRange] at hlen
  unfold rdWalkLimit
  omega

/-! ## 2. Assignments

Unlinking, and inserting at one end, for each of the lists.  A buffer is held in between. -/

/-- A queued buffer is unlinked. -/
theorem unlinkQueue (h : Lists r (Q₁ ++ i :: Q₂) C F H) :
    Lists (r.unlink i) (Q₁ ++ Q₂) C F (i :: H) := by
  obtain ⟨-, -, hQC, hQF, -⟩ := h.apart
  have hq := h.queue
  rw [List.map_append, List.map_cons] at hq
  have hprev := getLastD_mem (Q₁.map RdPtr.buf) .rh
  have hnext := headD_mem (Q₂.map RdPtr.buf) .rt
  rw [← hq.prev_mid] at hprev
  rw [← hq.next_mid] at hnext
  refine ⟨?_, ?_, ?_, ?_⟩
  · rw [List.map_append]
    refine Path.unlink hq ?_
    have hnd := h.nodup_queue
    rwa [List.map_append, List.map_cons] at hnd
  · refine h.cache.frame ?_ ?_
    · intro hm
      rcases List.mem_cons.mp hprev with h1 | h1
      · rw [h1] at hm
        simp at hm
      · obtain ⟨x, hx, hx'⟩ := List.mem_map.mp h1
        rw [← hx'] at hm
        exact hQC x (List.mem_append_left _ hx) (by simpa using hm)
    · intro hm
      rcases List.mem_append.mp hnext with h1 | h1
      · obtain ⟨x, hx, hx'⟩ := List.mem_map.mp h1
        rw [← hx'] at hm
        exact hQC x (List.mem_append_right _ (List.mem_cons_of_mem _ hx)) (by simpa using hm)
      · rw [List.mem_singleton.mp h1] at hm
        simp at hm
  · refine h.free.frame fun hm => ?_
    rcases List.mem_cons.mp hprev with h1 | h1
    · rw [h1] at hm
      simp at hm
    · obtain ⟨x, hx, hx'⟩ := List.mem_map.mp h1
      rw [← hx'] at hm
      exact hQF x (List.mem_append_left _ hx) (mem_map_buf.mp hm)
  · refine List.Perm.trans ?_ h.all
    simp only [List.append_assoc, List.cons_append]
    refine List.Perm.append_left Q₁ ?_
    refine List.Perm.trans ?_ ((perm_insert (Q₂ ++ (C ++ F)) i H).trans ?_)
    · simp
    · simp

theorem unlinkQueueHead (h : Lists r (i :: Q) C F H) : Lists (r.unlink i) Q C F (i :: H) :=
  unlinkQueue (show Lists r ([] ++ i :: Q) C F H from h)

/-- A cached buffer is unlinked. -/
theorem unlinkCache (h : Lists r Q (C₁ ++ i :: C₂) F H) :
    Lists (r.unlink i) Q (C₁ ++ C₂) F (i :: H) := by
  obtain ⟨-, -, hQC, -, -, hCF, -⟩ := h.apart
  have hc := h.cache
  rw [List.map_append, List.map_cons] at hc
  have hprev := getLastD_mem (C₁.map RdPtr.buf) .ch
  have hnext := headD_mem (C₂.map RdPtr.buf) .ct
  rw [← hc.prev_mid] at hprev
  rw [← hc.next_mid] at hnext
  refine ⟨?_, ?_, ?_, ?_⟩
  · refine h.queue.frame ?_ ?_
    · intro hm
      rcases List.mem_cons.mp hprev with h1 | h1
      · rw [h1] at hm
        simp at hm
      · obtain ⟨x, hx, hx'⟩ := List.mem_map.mp h1
        rw [← hx'] at hm
        exact hQC x (by simpa using hm) (List.mem_append_left _ hx)
    · intro hm
      rcases List.mem_append.mp hnext with h1 | h1
      · obtain ⟨x, hx, hx'⟩ := List.mem_map.mp h1
        rw [← hx'] at hm
        exact hQC x (by simpa using hm) (List.mem_append_right _ (List.mem_cons_of_mem _ hx))
      · rw [List.mem_singleton.mp h1] at hm
        simp at hm
  · rw [List.map_append]
    refine Path.unlink hc ?_
    have hnd := h.nodup_cache
    rwa [List.map_append, List.map_cons] at hnd
  · refine h.free.frame fun hm => ?_
    rcases List.mem_cons.mp hprev with h1 | h1
    · rw [h1] at hm
      simp at hm
    · obtain ⟨x, hx, hx'⟩ := List.mem_map.mp h1
      rw [← hx'] at hm
      exact hCF x (List.mem_append_left _ hx) (mem_map_buf.mp hm)
  · refine List.Perm.trans ?_ h.all
    simp only [List.append_assoc, List.cons_append]
    refine List.Perm.append_left Q (List.Perm.append_left C₁ ?_)
    refine List.Perm.trans ?_ ((perm_insert (C₂ ++ F) i H).trans ?_)
    · simp
    · simp

theorem unlinkCacheHead (h : Lists r Q (i :: C) F H) : Lists (r.unlink i) Q C F (i :: H) :=
  unlinkCache (show Lists r Q ([] ++ i :: C) F H from h)

/-- A held buffer goes to the front of the cache. -/
theorem pushCache (h : Lists r Q C F (i :: H)) : Lists (r.pushCache i) Q (i :: C) F H := by
  obtain ⟨-, -, hQC, -, hQH, hCF, hCH, hFH⟩ := h.apart
  have hiQ : i ∉ Q := fun hi => hQH i hi (by simp)
  have hiC : i ∉ C := fun hi => hCH i hi (by simp)
  have hiF : i ∉ F := fun hi => hFH i hi (by simp)
  have hnext := headD_mem (C.map RdPtr.buf) .ct
  rw [← h.cache.next_head] at hnext
  refine ⟨?_, ?_, ?_, ?_⟩
  · refine Path.frame (Path.frame h.queue (by simpa using hiQ) (by simpa using hiQ)) (by simp) ?_
    intro hm
    rcases List.mem_append.mp hnext with h1 | h1
    · obtain ⟨x, hx, hx'⟩ := List.mem_map.mp h1
      rw [← hx'] at hm
      exact hQC x (by simpa using hm) hx
    · rw [List.mem_singleton.mp h1] at hm
      simp at hm
  · rw [List.map_cons]
    exact Path.insert_front h.cache h.nodup_cache (by simpa using hiC)
  · exact (h.free.frame (by simpa using hiF)).frame (by simp)
  · refine List.Perm.trans ?_ h.all
    simp only [List.append_assoc, List.cons_append]
    refine List.Perm.append_left Q ?_
    refine List.Perm.trans ?_ (perm_insert (C ++ F) i H).symm |>.trans ?_
    · simp
    · simp

/-- A held buffer becomes the last request. -/
theorem append (h : Lists r Q C F (i :: H)) : Lists (r.append i) (Q ++ [i]) C F H := by
  obtain ⟨-, -, hQC, hQF, hQH, hCF, hCH, hFH⟩ := h.apart
  have hiQ : i ∉ Q := fun hi => hQH i hi (by simp)
  have hiC : i ∉ C := fun hi => hCH i hi (by simp)
  have hiF : i ∉ F := fun hi => hFH i hi (by simp)
  have hprev := getLastD_mem (Q.map RdPtr.buf) .rh
  rw [← h.queue.prev_tail] at hprev
  refine ⟨?_, ?_, ?_, ?_⟩
  · rw [List.map_append]
    exact Path.insert_back h.queue h.nodup_queue (by simpa using hiQ)
  · refine Path.frame (Path.frame h.cache (by simpa using hiC) (by simp)) ?_ (by simpa using hiC)
    intro hm
    rcases List.mem_cons.mp hprev with h1 | h1
    · rw [h1] at hm
      simp at hm
    · obtain ⟨x, hx, hx'⟩ := List.mem_map.mp h1
      rw [← hx'] at hm
      exact hQC x hx (by simpa using hm)
  · refine (h.free.frame (by simpa using hiF)).frame fun hm => ?_
    rcases List.mem_cons.mp hprev with h1 | h1
    · rw [h1] at hm
      simp at hm
    · obtain ⟨x, hx, hx'⟩ := List.mem_map.mp h1
      rw [← hx'] at hm
      exact hQF x hx (mem_map_buf.mp hm)
  · refine List.Perm.trans ?_ h.all
    simp only [List.append_assoc, List.cons_append, List.nil_append]
    refine List.Perm.append_left Q ?_
    refine List.Perm.trans ?_ (perm_insert (C ++ F) i H).symm |>.trans ?_
    · simp
    · simp

/-- A held buffer goes to the free list. -/
theorem pushFree (h : Lists r Q C F (i :: H)) : Lists (r.pushFree i) Q C (i :: F) H := by
  obtain ⟨-, -, -, -, hQH, -, hCH, hFH⟩ := h.apart
  have hiQ : i ∉ Q := fun hi => hQH i hi (by simp)
  have hiC : i ∉ C := fun hi => hCH i hi (by simp)
  have hiF : i ∉ F := fun hi => hFH i hi (by simp)
  refine ⟨h.queue.frame_next (by simpa using hiQ), h.cache.frame_next (by simpa using hiC), ?_, ?_⟩
  · rw [List.map_cons]
    refine ⟨rfl, ?_⟩
    have hself : (r.pushFree i).rd_next (.buf i) = r.rd_free := Function.update_self ..
    rw [hself]
    exact h.free.frame (by simpa using hiF)
  · refine List.Perm.trans ?_ h.all
    simp only [List.append_assoc, List.cons_append]
    refine List.Perm.append_left Q (List.Perm.append_left C ?_)
    exact List.perm_middle.symm

/-- The first buffer of the free list is taken. -/
theorem popFree (h : Lists r Q C (i :: F) H) :
    r.rd_free = .buf i ∧ Lists { r with rd_free := r.rd_next (.buf i) } Q C F (i :: H) := by
  have hf := h.free
  rw [List.map_cons] at hf
  refine ⟨hf.1, h.queue, h.cache, hf.2, ?_⟩
  refine List.Perm.trans ?_ h.all
  simp only [List.append_assoc, List.cons_append]
  exact List.Perm.append_left Q (List.Perm.append_left C List.perm_middle)

/-! ## 3. Searches

In either direction, and always for the first buffer that passes a test. -/

theorem find_queue (h : Lists r Q C F H) (test : Rdbuff → Bool) :
    r.find r.rd_next test .rt (r.rd_next .rh) = some (Q.find? fun i => test (r.rd_buf i)) :=
  search_walk (walk_of_path h.queue) (fun _ => rfl) (by simp) h.length_lt.1

theorem find_queue_back (h : Lists r Q C F H) (test : Rdbuff → Bool) :
    r.find r.rd_prev test .rh (r.rd_prev .rt) =
      some (Q.reverse.find? fun i => test (r.rd_buf i)) := by
  have hw : Walk r.rd_prev (r.rd_prev .rt) (Q.reverse.map RdPtr.buf) .rh := by
    rw [List.map_reverse]
    exact walk_back_of_path h.queue
  exact search_walk hw (fun _ => rfl) (by simp) (by simpa using h.length_lt.1)

theorem find_cache (h : Lists r Q C F H) (test : Rdbuff → Bool) :
    r.find r.rd_next test .ct (r.rd_next .ch) = some (C.find? fun i => test (r.rd_buf i)) :=
  search_walk (walk_of_path h.cache) (fun _ => rfl) (by simp) h.length_lt.2

theorem find_cache_back (h : Lists r Q C F H) (test : Rdbuff → Bool) :
    r.find r.rd_prev test .ch (r.rd_prev .ct) =
      some (C.reverse.find? fun i => test (r.rd_buf i)) := by
  have hw : Walk r.rd_prev (r.rd_prev .ct) (C.reverse.map RdPtr.buf) .ch := by
    rw [List.map_reverse]
    exact walk_back_of_path h.cache
  exact search_walk hw (fun _ => rfl) (by simp) (by simpa using h.length_lt.2)

/-- The search of the cache up to one of its buffers. -/
theorem find_until (h : Lists r Q (C₁ ++ i :: C₂) F H) (test : Rdbuff → Bool) :
    r.find r.rd_next test (.buf i) (r.rd_next .ch) =
      some (C₁.find? fun i => test (r.rd_buf i)) := by
  have hw := walk_of_path h.cache
  rw [List.map_append, List.map_cons, walk_append] at hw
  obtain ⟨c, hc, rfl, -⟩ := hw
  have hnd := h.apart.2.1
  have hlen := h.length_lt.2
  rw [List.length_append] at hlen
  refine search_walk hc (fun _ => rfl) (fun x hx he => ?_) (by omega)
  rw [List.nodup_append] at hnd
  exact hnd.2.2 x hx i (by simp) (RdPtr.buf.inj he)

/-- The head of the request queue. -/
theorem head (h : Lists r Q C F H) : (r.rd_next .rh).node = Q.head? := by
  rw [h.queue.next_head]
  cases Q <;> rfl

end Lists

end Xinu
