/-
# The message lists of the ports

The message nodes are on the free list or on the queue of one port.  `NodesAt` says which node is
where, for the ports whose queue is intact (`live`), and each of the routines that move nodes is
described by what it does to these lists.
-/
import Xinu.Lib.Chains
import Xinu.Ports

namespace Xinu

open Chains

variable {P P' : Ports} {a : Option Nat} {l l' fl : List Nat} {i t : Nat} {p : Int}
  {live live' : Int → Prop} {q q' : Int → List Nat}

/-! ## 1. Lists of nodes

A list is given by the nodes that it runs through.  It depends on the links of these alone
(`Chain.congr`), which is why the lists of other ports are not touched. -/

/-- The link of a node. -/
def Ports.link (P : Ports) (i : Option Nat) : Option Nat := i.bind fun i => (P.nodes i).ptnext

/-- A list that starts at `a` and whose nodes are `l`. -/
def Chain (P : Ports) (a : Option Nat) (l : List Nat) : Prop := Walk P.link a (l.map some) none

theorem chain_nil : Chain P a [] ↔ a = none := Iff.rfl

theorem chain_cons : Chain P a (i :: l) ↔ a = some i ∧ Chain P (P.nodes i).ptnext l := Iff.rfl

theorem walk_link_congr {c : Option Nat} (h : Walk P.link a (l.map some) c)
    (hn : ∀ i ∈ l, (P'.nodes i).ptnext = (P.nodes i).ptnext) : Walk P'.link a (l.map some) c := by
  refine h.congr fun x hx => ?_
  obtain ⟨i, hi, rfl⟩ := List.mem_map.mp hx
  exact hn i hi

theorem Chain.congr (h : Chain P a l) (hn : ∀ i ∈ l, (P'.nodes i).ptnext = (P.nodes i).ptnext) :
    Chain P' a l := walk_link_congr h hn

/-- **The last node gets a new link.** -/
theorem Chain.extend (h : Chain P a (l ++ [t]))
    (hn : ∀ i ∈ l, (P'.nodes i).ptnext = (P.nodes i).ptnext)
    (h' : Chain P' (P'.nodes t).ptnext l') : Chain P' a (l ++ t :: l') := by
  rw [Chain, List.map_append, walk_append] at h ⊢
  obtain ⟨c, hfront, hlast⟩ := h
  exact ⟨c, walk_link_congr hfront hn, hlast.1, h'⟩

/-! ## 2. Where the nodes are

`live` says which ports have their queue intact.  What the entries of other ports lead to is left
open: it may be nodes that are free by now. -/

/-- The queue of the port `p` is `l`. -/
def Queued (P : Ports) (p : Int) (l : List Nat) : Prop :=
  Chain P (P.porttab p).pthead l ∧ (P.porttab p).pttail = l.getLast?

/-- **Where the nodes are.**  The free list is `fl`, and the queue of each port that is live
is `q`. -/
structure NodesAt (P : Ports) (live : Int → Prop) (fl : List Nat) (q : Int → List Nat) :
    Prop where
  free : Chain P P.ptfree fl
  queue : ∀ p, live p → Queued P p (q p)
  nodup : fl.Nodup ∧ ∀ p, (q p).Nodup
  apart : ∀ p, ∀ i ∈ q p, i ∉ fl
  disjoint : ∀ p p', ∀ i ∈ q p, i ∈ q p' → p = p'

/-- What the table says about a port, its queue apart. -/
structure SameKeys (P P' : Ports) : Prop where
  ssem : ∀ p, (P'.porttab p).ptssem = (P.porttab p).ptssem
  rsem : ∀ p, (P'.porttab p).ptrsem = (P.porttab p).ptrsem
  state : ∀ p, (P'.porttab p).ptstate = (P.porttab p).ptstate
  maxcnt : ∀ p, (P'.porttab p).ptmaxcnt = (P.porttab p).ptmaxcnt
  seq : ∀ p, (P'.porttab p).ptseq = (P.porttab p).ptseq
  nextid : P'.ptnextid = P.ptnextid

theorem SameKeys.refl (P : Ports) : SameKeys P P :=
  ⟨fun _ => rfl, fun _ => rfl, fun _ => rfl, fun _ => rfl, fun _ => rfl, rfl⟩

/-- The head and the tail of one queue are set. -/
theorem SameKeys.of_update {e : Ptentry} (hp : P'.porttab = Function.update P.porttab p e)
    (he : e = { P.porttab p with pthead := e.pthead, pttail := e.pttail })
    (hn : P'.ptnextid = P.ptnextid) : SameKeys P P' := by
  have hall : ∀ q, P'.porttab q = { P.porttab q with
      pthead := (P'.porttab q).pthead, pttail := (P'.porttab q).pttail } := by
    intro q
    by_cases hq : q = p
    · subst hq
      rw [hp, Function.update_self]
      exact he
    · rw [hp, Function.update_of_ne hq]
  refine ⟨fun q => ?_, fun q => ?_, fun q => ?_, fun q => ?_, fun q => ?_, hn⟩ <;> rw [hall q]

/-- **Other ports become live, or lose their queue**: each port keeps its queue or has none. -/
theorem NodesAt.congr (h : NodesAt P live fl q) (hn : P'.nodes = P.nodes)
    (hf : P'.ptfree = P.ptfree) (hq : ∀ p, q' p = q p ∨ q' p = [])
    (hl : ∀ p, live' p → (live p ∧ q' p = q p ∧ (P'.porttab p).pthead = (P.porttab p).pthead ∧
        (P'.porttab p).pttail = (P.porttab p).pttail) ∨
      q' p = [] ∧ (P'.porttab p).pthead = none ∧ (P'.porttab p).pttail = none) :
    NodesAt P' live' fl q' := by
  have hsub : ∀ p, ∀ i ∈ q' p, i ∈ q p := by
    intro p i hi
    rcases hq p with e | e
    · rwa [e] at hi
    · rw [e] at hi
      simp at hi
  refine ⟨?_, fun p hp => ?_, ⟨h.nodup.1, fun p => ?_⟩, fun p i hi => h.apart p i (hsub p i hi),
    fun p p' i hi hi' => h.disjoint p p' i (hsub p i hi) (hsub p' i hi')⟩
  · rw [hf]
    exact h.free.congr fun i _ => by rw [hn]
  · rcases hl p hp with ⟨hlive, e, e1, e2⟩ | ⟨e, e1, e2⟩
    · obtain ⟨h1, h2⟩ := h.queue p hlive
      rw [Queued, e, e1, e2]
      exact ⟨h1.congr fun i _ => by rw [hn], h2⟩
    · rw [Queued, e, e1, e2]
      exact ⟨rfl, rfl⟩
  · rcases hq p with e | e
    · rw [e]
      exact h.nodup.2 p
    · rw [e]
      exact List.nodup_nil

/-- A live queue and its tail. -/
theorem NodesAt.split (h : NodesAt P live fl q) (hp : live p) :
    (q p = [] ∧ (P.porttab p).pthead = none ∧ (P.porttab p).pttail = none) ∨
      ∃ l t, q p = l ++ [t] ∧ (P.porttab p).pttail = some t := by
  obtain ⟨h1, h2⟩ := h.queue p hp
  rcases List.eq_nil_or_concat (q p) with e | ⟨l, t, e⟩
  · rw [e] at h1 h2
    exact .inl ⟨e, h1, h2⟩
  · rw [e, List.concat_eq_append, List.getLast?_append_cons, List.getLast?_singleton] at h2
    exact .inr ⟨l, t, by rw [e, List.concat_eq_append], h2⟩

/-! ## 3. The routines that move nodes

All three take a node or a list from one place and put it at one end of another.  What is written
into the nodes on the way does not matter, and `NodesAt.moveIn` leaves it open. -/

theorem setNext_other (P : Ports) {i j : Nat} (v : Option Nat) (h : j ≠ i) :
    (P.setNext i v).nodes j = P.nodes j := Function.update_of_ne h ..

theorem setNext_self (P : Ports) (i : Nat) (v : Option Nat) :
    ((P.setNext i v).nodes i).ptnext = v := by simp [Ports.setNext]

/-- The first free node goes to the end of a queue, whatever is written on the way. -/
theorem NodesAt.moveIn (h : NodesAt P live (i :: fl) q) (hfree : P'.ptfree = (P.nodes i).ptnext)
    (hn : ∀ x, x ≠ i → x ∉ q p → (P'.nodes x).ptnext = (P.nodes x).ptnext)
    (hq : Queued P' p (q p ++ [i])) (hports : ∀ p', p' ≠ p → P'.porttab p' = P.porttab p') :
    NodesAt P' live fl (Function.update q p (q p ++ [i])) := by
  have hnot : i ∉ fl := (List.nodup_cons.mp h.nodup.1).1
  have hi : ∀ p', i ∉ q p' := fun p' hm => h.apart p' i hm (by simp)
  refine ⟨?_, fun p' hp' => ?_, ⟨(List.nodup_cons.mp h.nodup.1).2, fun p' => ?_⟩,
    fun p' x hx => ?_, fun p' p'' x hx hx' => ?_⟩
  · rw [hfree]
    exact (chain_cons.mp h.free).2.congr fun x hx => hn x (ne_of_mem_of_not_mem hx hnot)
      fun hm => h.apart p x hm (List.mem_cons_of_mem _ hx)
  · by_cases hpp : p' = p
    · subst hpp
      rwa [Function.update_self]
    · obtain ⟨h1, h2⟩ := h.queue p' hp'
      rw [Function.update_of_ne hpp, Queued, hports p' hpp]
      exact ⟨h1.congr fun x hx => hn x (ne_of_mem_of_not_mem hx (hi p'))
        fun hm => hpp (h.disjoint p' p x hx hm), h2⟩
  · by_cases hpp : p' = p
    · subst hpp
      rw [Function.update_self, List.nodup_append_comm]
      exact List.nodup_cons.mpr ⟨hi p', h.nodup.2 p'⟩
    · rw [Function.update_of_ne hpp]
      exact h.nodup.2 p'
  · by_cases hpp : p' = p
    · subst hpp
      rw [Function.update_self] at hx
      rcases List.mem_append.mp hx with hx | hx
      · exact fun hm => h.apart p' x hx (List.mem_cons_of_mem _ hm)
      · rw [List.mem_singleton.mp hx]
        exact hnot
    · rw [Function.update_of_ne hpp] at hx
      exact fun hm => h.apart p' x hx (List.mem_cons_of_mem _ hm)
  · -- a node of two queues was in both before, or is the new one and was in none
    have hold : ∀ r, x ∈ Function.update q p (q p ++ [i]) r → x ∈ q r ∨ r = p ∧ x = i := by
      intro r hr
      by_cases hrp : r = p
      · subst hrp
        rw [Function.update_self] at hr
        exact (List.mem_append.mp hr).imp_right fun e => ⟨rfl, List.mem_singleton.mp e⟩
      · rw [Function.update_of_ne hrp] at hr
        exact .inl hr
    rcases hold p' hx with h1 | ⟨h1, e1⟩ <;> rcases hold p'' hx' with h2 | ⟨h2, e2⟩
    · exact h.disjoint p' p'' x h1 h2
    · exact absurd (e2 ▸ h1) (hi p')
    · exact absurd (e1 ▸ h2) (hi p'')
    · exact h1.trans h2.symm

/-- **`ptsend` moves the first free node** to the end of the queue. -/
theorem NodesAt.enqueue (h : NodesAt P live fl q) (hp : live p) {msg : Nat}
    (he : P.enqueueMsg p msg = some P') : ∃ i fl', fl = i :: fl' ∧
      NodesAt P' live fl' (Function.update q p (q p ++ [i])) ∧ SameKeys P P' := by
  obtain ⟨i, hi, hP'⟩ := Option.map_eq_some_iff.mp he
  cases fl with
  | nil => exact absurd (chain_nil.mp h.free ▸ hi) (by simp)
  | cons j fl' =>
    obtain rfl : j = i := Option.some.inj ((chain_cons.mp h.free).1.symm.trans hi)
    have hj : ∀ p', j ∉ q p' := fun p' hm => h.apart p' j hm (by simp)
    refine ⟨j, fl', rfl, ?_⟩
    rcases h.split hp with ⟨hnil, -, htail⟩ | ⟨l, t, hl, htail⟩
    · rw [htail] at hP'
      obtain rfl := hP'
      refine ⟨h.moveIn rfl (fun x hx _ => ?_) ?_ fun p' hpp => setPort_of_ne _ _ hpp,
        .of_update rfl rfl rfl⟩
      · simp [Function.update_of_ne hx]
      · rw [hnil, Queued, setPort_same]
        refine ⟨chain_cons.mpr ⟨rfl, chain_nil.mpr ?_⟩, rfl⟩
        simp
    · rw [htail] at hP'
      have hjt : j ≠ t := by
        rintro rfl
        exact hj p (by simp [hl])
      obtain rfl := hP'
      refine ⟨h.moveIn rfl (fun x hx hm => ?_) ?_ fun p' hpp => setPort_of_ne _ _ hpp,
        .of_update rfl rfl rfl⟩
      · have hxt : x ≠ t := by
          rintro rfl
          exact hm (by simp [hl])
        rw [setPort_nodes, setNext_other _ _ hxt]
        simp [Function.update_of_ne hx]
      · obtain ⟨h1, -⟩ := h.queue p hp
        have hnd := h.nodup.2 p
        rw [hl] at h1 hnd ⊢
        rw [Queued, setPort_same, List.append_assoc]
        refine ⟨h1.extend (fun x hx => ?_) ?_, by simp⟩
        · have hxt : x ≠ t := by
            rintro rfl
            exact (List.nodup_append.mp hnd).2.2 x hx x (by simp) rfl
          have hxj : x ≠ j := by
            rintro rfl
            exact hj p (by simp [hl, hx])
          rw [setPort_nodes, setNext_other _ _ hxt]
          simp [Function.update_of_ne hxj]
        · rw [setPort_nodes, setNext_self]
          refine chain_cons.mpr ⟨rfl, chain_nil.mpr ?_⟩
          rw [setPort_nodes, setNext_other _ _ hjt]
          simp

/-- **`ptrecv` moves the first node of the queue** to the free list. -/
theorem NodesAt.dequeue (h : NodesAt P live fl q) (hp : live p) {r : Ports × Nat}
    (he : P.dequeueMsg p = some r) : ∃ i l, q p = i :: l ∧ r.2 = (P.nodes i).ptmsg ∧
      NodesAt r.1 live (i :: fl) (Function.update q p l) ∧ SameKeys P r.1 := by
  obtain ⟨i, hi, rfl⟩ := Option.map_eq_some_iff.mp he
  obtain ⟨h1, h2⟩ := h.queue p hp
  rcases hq : q p with _ | ⟨j, l⟩
  · rw [hq, chain_nil] at h1
    exact absurd (h1 ▸ hi) (by simp)
  rw [hq] at h1 h2
  obtain ⟨hj, hrest⟩ := chain_cons.mp h1
  obtain rfl : j = i := Option.some.inj (hj.symm.trans hi)
  have hnd := h.nodup.2 p
  rw [hq] at hnd
  have hnot : j ∉ fl := h.apart p j (by simp [hq])
  have hown : ∀ p', p' ≠ p → j ∉ q p' := fun p' hpp hm =>
    hpp (h.disjoint p' p j hm (by simp [hq]))
  have hsub : ∀ p', ∀ x ∈ Function.update q p l p', x ∈ q p' ∧ x ≠ j := by
    intro p' x hx
    by_cases hpp : p' = p
    · subst hpp
      rw [Function.update_self] at hx
      exact ⟨by simp [hq, hx], ne_of_mem_of_not_mem hx (List.nodup_cons.mp hnd).1⟩
    · rw [Function.update_of_ne hpp] at hx
      exact ⟨hx, ne_of_mem_of_not_mem hx (hown p' hpp)⟩
  -- what the two ways to unlink the node have in common
  have hcommon : ∀ P₁ : Ports, P₁.nodes = P.nodes → P₁.ptfree = P.ptfree →
      (∀ p', p' ≠ p → P₁.porttab p' = P.porttab p') →
      (P₁.porttab p).pthead = (P.nodes j).ptnext → (P₁.porttab p).pttail = l.getLast? →
      NodesAt { P₁.setNext j P₁.ptfree with ptfree := some j } live (j :: fl)
        (Function.update q p l) := by
    intro P₁ hnodes hfree hports hhead htail
    have hother : ∀ x, x ≠ j → ((P₁.setNext j P₁.ptfree).nodes x).ptnext = (P.nodes x).ptnext := by
      intro x hx
      rw [setNext_other _ _ hx, hnodes]
    refine ⟨chain_cons.mpr ⟨rfl, ?_⟩, fun p' hp' => ?_,
      ⟨List.nodup_cons.mpr ⟨hnot, h.nodup.1⟩, fun p' => ?_⟩, fun p' x hx hm => ?_,
      fun p' p'' x hx hx' => h.disjoint p' p'' x (hsub p' x hx).1 (hsub p'' x hx').1⟩
    · have hlink : ((P₁.setNext j P₁.ptfree).nodes j).ptnext = P.ptfree := by
        rw [setNext_self, hfree]
      rw [hlink]
      exact h.free.congr fun x hx => hother x (ne_of_mem_of_not_mem hx hnot)
    · by_cases hpp : p' = p
      · subst hpp
        rw [Function.update_self]
        refine ⟨?_, htail⟩
        rw [setNext_porttab, hhead]
        exact hrest.congr fun x hx =>
          hother x (ne_of_mem_of_not_mem hx (List.nodup_cons.mp hnd).1)
      · rw [Function.update_of_ne hpp]
        obtain ⟨h3, h4⟩ := h.queue p' hp'
        rw [Queued, setNext_porttab, hports p' hpp]
        exact ⟨h3.congr fun x hx => hother x (ne_of_mem_of_not_mem hx (hown p' hpp)), h4⟩
    · by_cases hpp : p' = p
      · subst hpp
        rw [Function.update_self]
        exact (List.nodup_cons.mp hnd).2
      · rw [Function.update_of_ne hpp]
        exact h.nodup.2 p'
    · obtain ⟨h3, h4⟩ := hsub p' x hx
      exact (List.mem_cons.mp hm).elim h4 (h.apart p' x h3)
  refine ⟨j, l, rfl, rfl, ?_⟩
  have hlone : (P.porttab p).pthead = (P.porttab p).pttail ↔ l = [] := by
    rw [hj, h2]
    constructor
    · intro e
      rcases List.eq_nil_or_concat l with hl | ⟨l', t, hl⟩
      · exact hl
      · rw [hl, List.concat_eq_append, ← List.cons_append, List.getLast?_append_cons,
          List.getLast?_singleton, Option.some.injEq] at e
        exact absurd (by rw [hl, e]; simp) (List.nodup_cons.mp hnd).1
    · rintro rfl
      rfl
  dsimp only
  by_cases hl : l = []
  · rw [if_pos (hlone.mpr hl)]
    refine ⟨hcommon _ rfl rfl (fun p' hpp => setPort_of_ne _ _ hpp) ?_ ?_,
      .of_update rfl rfl rfl⟩
    · rw [setPort_same]
      rw [hl, chain_nil] at hrest
      exact hrest.symm
    · rw [setPort_same, hl]
      rfl
  · rw [if_neg fun e => hl (hlone.mp e)]
    refine ⟨hcommon _ rfl rfl (fun p' hpp => setPort_of_ne _ _ hpp) ?_ ?_,
      .of_update rfl rfl rfl⟩
    · rw [setPort_same]
    · rw [setPort_same]
      refine h2.trans ?_
      rcases List.eq_nil_or_concat l with e | ⟨l', t, e⟩
      · exact absurd e hl
      · rw [e, List.concat_eq_append, ← List.cons_append, List.getLast?_append_cons,
          List.getLast?_append_cons]

/-- **`_ptclear` puts a whole queue in front of the free list.** -/
theorem NodesAt.freeQueue (h : NodesAt P live fl q) (hp : live p) (he : P.freeQueue p = some P') :
    NodesAt P' (fun p' => live p' ∧ p' ≠ p) (q p ++ fl) (Function.update q p []) ∧
      P'.porttab = P.porttab ∧ P'.ptnextid = P.ptnextid := by
  obtain ⟨t, ht, rfl⟩ := Option.map_eq_some_iff.mp he
  rcases h.split hp with ⟨-, -, hnone⟩ | ⟨l, t', hl, htail⟩
  · rw [hnone] at ht
    simp at ht
  obtain rfl : t' = t := Option.some.inj (htail.symm.trans ht)
  obtain ⟨h1, -⟩ := h.queue p hp
  have hnd := h.nodup.2 p
  have hmem : t' ∈ q p := by simp [hl]
  have hsub : ∀ p', ∀ x ∈ Function.update q p [] p', p' ≠ p ∧ x ∈ q p' := by
    intro p' x hx
    by_cases hpp : p' = p
    · subst hpp
      simp at hx
    · rw [Function.update_of_ne hpp] at hx
      exact ⟨hpp, hx⟩
  have hother : ∀ x, x ≠ t' → ((P.setNext t' P.ptfree).nodes x).ptnext = (P.nodes x).ptnext :=
    fun x hx => by rw [setNext_other _ _ hx]
  refine ⟨⟨?_, fun p' ⟨hp', hpp⟩ => ?_, ⟨?_, fun p' => ?_⟩, fun p' x hx hm => ?_,
    fun p' p'' x hx hx' => h.disjoint p' p'' x (hsub p' x hx).2 (hsub p'' x hx').2⟩, rfl, rfl⟩
  · rw [hl] at h1 hnd ⊢
    rw [List.append_assoc]
    refine h1.extend (fun x hx => hother x ?_) ?_
    · rintro rfl
      exact (List.nodup_append.mp hnd).2.2 x hx x (by simp) rfl
    · have hlink : ((P.setNext t' P.ptfree).nodes t').ptnext = P.ptfree := setNext_self ..
      rw [hlink]
      exact h.free.congr fun x hx => hother x (ne_of_mem_of_not_mem hx (h.apart p t' hmem))
  · rw [Function.update_of_ne hpp]
    obtain ⟨h3, h4⟩ := h.queue p' hp'
    refine ⟨h3.congr fun x hx => hother x ?_, h4⟩
    rintro rfl
    exact hpp (h.disjoint p' p x hx hmem)
  · exact List.nodup_append.mpr ⟨hnd, h.nodup.1, fun x hx y hy e => h.apart p x hx (e ▸ hy)⟩
  · by_cases hpp : p' = p
    · subst hpp
      simp
    · rw [Function.update_of_ne hpp]
      exact h.nodup.2 p'
  · obtain ⟨hpp, hx⟩ := hsub p' x hx
    rcases List.mem_append.mp hm with hm | hm
    · exact hpp (h.disjoint p' p x hx hm)
    · exact h.apart p' x hx hm

/-! ## 4. `ptinit`

The loop links each node to the next one in the array, and the last one to nothing. -/

theorem ptinitLoop_chain (n curr : Nat) (P : Ports) :
    Chain (ptinitLoop n curr P) (some curr) (List.range' curr (n + 1)) ∧
      ∀ x < curr, (ptinitLoop n curr P).nodes x = P.nodes x := by
  induction n generalizing curr P with
  | zero =>
    refine ⟨chain_cons.mpr ⟨rfl, chain_nil.mpr (setNext_self ..)⟩, fun x hx => ?_⟩
    exact setNext_other _ _ (ne_of_lt hx)
  | succ n ih =>
    obtain ⟨h1, h2⟩ := ih (curr + 1) (P.setNext curr (some (curr + 1)))
    rw [ptinitLoop, List.range'_succ]
    refine ⟨chain_cons.mpr ⟨rfl, ?_⟩, fun x hx => ?_⟩
    · rw [h2 curr (Nat.lt_succ_self _), setNext_self]
      exact h1
    · rw [h2 x (by omega), setNext_other _ _ (ne_of_lt hx)]

/-- **After `ptinit` every node is free.** -/
theorem ptinit_stored (maxmsgs : Int) (P : Ports) (hl : ∀ p, ¬ live p) :
    NodesAt (ptinit maxmsgs P) live (List.range' 0 ((maxmsgs - 1).toNat + 1)) fun _ => [] where
  free := by
    have hfree : ∀ n curr (P : Ports), (ptinitLoop n curr P).ptfree = P.ptfree := by
      intro n
      induction n with
      | zero => exact fun _ _ => rfl
      | succ n ih => exact fun curr P => ih _ _
    rw [ptinit, hfree]
    exact (ptinitLoop_chain ..).1
  queue := fun p hp => absurd hp (hl p)
  nodup := ⟨List.nodup_range', fun _ => List.nodup_nil⟩
  apart := by simp
  disjoint := by simp

/-- Fewer ports are live. -/
theorem NodesAt.mono (h : NodesAt P live fl q) (hl : ∀ p, live' p → live p) :
    NodesAt P live' fl q :=
  { h with queue := fun p hp => h.queue p (hl p hp) }

end Xinu
