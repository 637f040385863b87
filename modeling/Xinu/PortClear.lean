/-
# Clearing a port: `ptclear.c`

A port that is cleared passes through limbo.  While it is there one process clears it, and knows how
far it has come: whether the messages have been given back, and which of the two semaphores has been
reset or deleted (`ClearOk`).  Each of the steps keeps the invariant of the ports, and the last one
leaves the port free, or open and as good as new.

`ptreset` and `ptdelete` share `_ptclear`, which disposes of the messages one by one, calling the
caller's function for each, and then resets or deletes both semaphores.  At each of these points
the process can be switched out.  The invariant of a port in limbo is therefore about the process
that clears it: its frame says how much of the port is still there, and that all who come or go on
meanwhile are turned away.
-/
import Xinu.PortRuns

namespace Xinu

open Counting

variable {x y : PortSys} {asked : Int → Int} {L L' : Ledger} {n₁ n₂ n₁' n₂' : Int → Int}
  {p pid sem : Int} {f : PortFrame} {fs : List PortFrame} {st : PtState}

/-! ## 1. Who clears a port

A process begins to clear a port only when the port is open, and an open port is not being
cleared.  So there is never a second one. -/

/-- Nobody is clearing the port `p`. -/
def Unattended (x : PortSys) (p : Int) : Prop := ∀ pid, p ∉ x.busy pid

theorem mem_busy : p ∈ x.busy pid ↔ ∃ f ∈ x.frames pid, f.clears = some p := by
  simp only [PortSys.busy, List.mem_filterMap]

/-- Who clears a port knows that it is in limbo. -/
theorem ClearOk.limbo {P : Ports} (h : ClearOk P L asked f) (hf : f.clears = some p) :
    (P.porttab p).ptstate = .limbo := by
  cases f <;> simp only [PortFrame.clears, Option.some.injEq, reduceCtorEq] at hf
  all_goals
    subst hf
    exact h.1

/-- An open port is not being cleared. -/
theorem PortsInv.unattended (h : PortsInv x asked L n₁ n₂)
    (hs : (x.ports.porttab p).ptstate ≠ .limbo) : Unattended x p := by
  intro pid hm
  obtain ⟨f, hf, hc⟩ := mem_busy.mp hm
  exact hs ((h.clears pid f hf).limbo hc)

/-- A port that a process has stopped clearing is not being cleared. -/
theorem PortsInv.unattended_returned (h : PortsInv x asked L n₁ n₂)
    (hf : x.frames x.cur = f :: fs) (hc : f.clears = some p) : Unattended (x.returned fs) p := by
  have hbusy : x.busy x.cur = p :: fs.filterMap PortFrame.clears := by
    rw [PortSys.busy, hf, List.filterMap_cons_some hc]
  intro pid hm
  rw [busy_of_frames (y := x.returned fs) (x := x) rfl] at hm
  split_ifs at hm with hcur
  · have hnd := h.once.1 x.cur
    rw [hbusy] at hnd
    exact (List.nodup_cons.mp hnd).1 hm
  · exact hcur (h.once.2 pid x.cur p hm (by rw [hbusy]; exact List.mem_cons_self))

theorem Unattended.not_live (h : Unattended x p) (hs : (x.ports.porttab p).ptstate ≠ .alloc) :
    ¬ x.live p := by
  rintro (hl | ⟨pid, st, w, hm⟩)
  · exact hs hl
  · exact h pid (mem_busy.mpr ⟨_, hm, rfl⟩)

/-- One more process clears a port that nobody was clearing. -/
theorem PortsInv.once_of_push (h : PortsInv x asked L n₁ n₂) (hu : Unattended x p)
    (hf : f.clears = some p) (hframes : y.frames = Function.update x.frames x.cur
      (f :: x.frames x.cur)) :
    (∀ pid, (y.busy pid).Nodup) ∧
      ∀ pid pid', ∀ q ∈ y.busy pid, q ∈ y.busy pid' → pid = pid' := by
  have hb : ∀ pid, y.busy pid = if pid = x.cur then p :: x.busy x.cur else x.busy pid := by
    intro pid
    rw [busy_of_frames hframes, List.filterMap_cons_some hf]
    rfl
  have hmem : ∀ pid, ∀ q ∈ y.busy pid, q ∈ x.busy pid ∨ pid = x.cur ∧ q = p := by
    intro pid q hq
    rw [hb] at hq
    split_ifs at hq with hcur
    · rcases List.mem_cons.mp hq with rfl | hq
      · exact .inr ⟨hcur, rfl⟩
      · rw [hcur]
        exact .inl hq
    · exact .inl hq
  refine ⟨fun pid => ?_, fun pid pid' q hq hq' => ?_⟩
  · rw [hb]
    split_ifs
    · exact List.nodup_cons.mpr ⟨hu x.cur, h.once.1 x.cur⟩
    · exact h.once.1 pid
  · rcases hmem pid q hq with h1 | ⟨h1, rfl⟩ <;> rcases hmem pid' q hq' with h2 | ⟨h2, e⟩
    · exact h.once.2 pid pid' q h1 h2
    · exact absurd h1 (e ▸ hu pid)
    · exact absurd h2 (hu pid')
    · rw [h1, h2]

/-! ## 2. Assignments to one port

The rule for the assignments between two kernel calls, and its first use: the state of the port is
set to limbo, and from then on the queue is in the hands of the process. -/

/-- **Assignments of the current process to the port `p`**, with its frames and the system as they
are. -/
theorem PortsInv.assign {P : Ports} (h : PortsInv x asked L n₁ n₂) (hp : ¬ isbadport p)
    (hidle : x.sys.cont x.cur = .user)
    (hports : ∀ p', p' ≠ p → P.porttab p' = x.ports.porttab p')
    (hnext : 0 ≤ P.ptnextid ∧ P.ptnextid < NPORTS) (hσ : L'.σ = L.σ)
    (hown : ∀ s p', p' ≠ p → (L'.own s = some p' ↔ L.own s = some p'))
    (howned : ∀ s, L'.own s = some p → L.own s = some p ∧ PortInUse P p ∧
      (s = (P.porttab p).ptssem ∨ s = (P.porttab p).ptrsem))
    (hq : ∀ p', p' ≠ p → L'.q p' = L.q p')
    (hstored : NodesAt P ({ x with ports := P } : PortSys).live L'.fl L'.q)
    (hall : ∀ i < L'.size, i ∈ L'.fl ∨ ∃ p, i ∈ L'.q p)
    (hempty : ¬ PortInUse P p → L'.q p = [])
    (hn : ∀ p', p' ≠ p → n₁' p' = n₁ p' ∧ n₂' p' = n₂ p')
    (hopen : (P.porttab p).ptstate = .alloc →
      OpenPort { x with ports := P } L' (asked p) (n₁' p) (n₂' p) p)
    (hclear : ∀ pid, ∀ g ∈ x.frames pid, g.clears = some p → ClearOk P L' asked g)
    (hfresh : (P.porttab p).ptstate = .limbo → ∀ pid, ∀ g ∈ x.frames pid,
      g.isAt p (P.porttab p).ptseq = false) :
    PortsInv { x with ports := P } asked L' n₁' n₂' := by
  have hout : OnlyAt x x.cur p := onlyAt_of_cont (by rw [hidle]; simp) p
  have hframes : x.frames = Function.update x.frames x.cur (x.frames x.cur) :=
    (Function.update_eq_self ..).symm
  refine @PortsInv.step _ _ _ _ _ _ _ _ _ _ p (x.frames x.cur) h
    ⟨hframes, fun _ _ _ => rfl, fun _ _ _ => id, hports, hq, fun _ _ => rfl, hown,
      fun s _ _ _ => congrFun hσ s, hout, hout, fun _ hg => .inl hg⟩ ?_
    (fun hne => (h.alive _ hne).2) hnext (fun hbad => absurd hbad hp) hstored hall hempty
    (h.inner x.cur) (h.waits x.cur) hn hopen hclear h.once (fun s hs => ?_) hfresh
    fun s c hs hc => ?_
  · rw [hσ]
    exact h.keeper
  · obtain ⟨h1, h2, h3⟩ := howned s hs
    rw [hσ]
    exact ⟨h2, (h.owned s p h1).2.1, h3⟩
  · rw [hσ] at hc
    exact h.queued s p c (howned s hs).1 hc

/-- The queue of a port in limbo is left to who clears it. -/
structure InLimbo (x : PortSys) (L : Ledger) (asked : Int → Int) (p : Int) (st : PtState) :
    Prop where
  state : (x.ports.porttab p).ptstate = .limbo
  holds : Holds₂ x.ports L.own p
  aim : st = .alloc ∧ CountKept x.ports (asked p) p ∨ st = .free
  alone : Unattended x p

/-- **A reset or a deletion begins.** -/
theorem AtRest.toLimbo (h : AtRest x asked L) (hidle : x.sys.cont x.cur = .user)
    (hs : (x.ports.porttab p).ptstate = .alloc)
    (hfresh : ∀ pid, ∀ g ∈ x.frames pid, g.isAt p (int32 ((x.ports.porttab p).ptseq + 1)) = false)
    (haim : st = .alloc ∧ asked p < 65536 ∨ st = .free) :
    AtRest { x with ports := x.ports.setPort p fun e =>
        { e with ptstate := .limbo, ptseq := int32 (e.ptseq + 1) } } asked L ∧
      InLimbo { x with ports := x.ports.setPort p fun e =>
        { e with ptstate := .limbo, ptseq := int32 (e.ptseq + 1) } } L asked p st := by
  have hgood := h.good_of_state (p := p) (by rw [hs]; simp)
  have hopen := h.opened p hs
  have halone : Unattended x p := PortsInv.unattended h (by rw [hs]; simp)
  have hself := setPort_same x.ports p fun e : Ptentry =>
    { e with ptstate := .limbo, ptseq := int32 (e.ptseq + 1) }
  refine ⟨PortsInv.assign h hgood hidle (fun p' hp' => setPort_of_ne _ _ hp') h.next rfl
    (fun _ _ _ => Iff.rfl) (fun s hown => ?_) (fun _ _ => rfl) ?_ h.all
    (fun hno => absurd (.inr (congrArg Ptentry.ptstate hself)) hno) (fun _ _ => ⟨rfl, rfl⟩)
    (fun hs' => ?_) (fun pid g hg hc => ?_) (fun _ pid g hg => ?_), ?_, ?_, ?_, halone⟩
  · obtain ⟨-, -, h3⟩ := h.owned s p hown
    rw [PortInUse, hself]
    exact ⟨hown, .inr rfl, h3⟩
  · refine h.stored.congr rfl rfl (fun _ => .inl rfl) fun p' hp' => .inl ?_
    by_cases hpp : p' = p
    · subst hpp
      refine absurd hp' (Unattended.not_live (x := { x with ports := _ }) halone ?_)
      rw [hself]
      simp
    · rw [setPort_of_ne _ _ hpp]
      refine ⟨hp'.imp_left fun hl => ?_, rfl, rfl, rfl⟩
      rwa [setPort_of_ne _ _ hpp] at hl
  · rw [hself] at hs'
    simp at hs'
  · exact absurd (mem_busy.mpr ⟨g, hg, hc⟩) (halone pid)
  · rw [hself]
    exact hfresh pid g hg
  · exact congrArg Ptentry.ptstate hself
  · refine ⟨?_, ?_, ?_⟩
    · rw [hself]
      exact hopen.holds.sender
    · rw [hself]
      exact hopen.holds.receiver
    · rw [hself]
      exact hopen.holds.distinct
  · refine haim.imp_left fun hasked => ⟨hasked.1, ?_⟩
    have hlt := hasked.2
    obtain ⟨h3, -, h5⟩ := hopen.asked
    rw [CountKept, hself]
    simp only [h5, UInt16.toNat_ofNat']
    omega

/-! ## 3. The two semaphores

Each of the two kernel calls releases all who wait.  Those that are released find another sequence
number or another state and return `SYSERR`, so they are granted nothing, and what the counts add
up to does not matter until the port is open again. -/

/-- **A kernel call of the process that clears the port `p`**, about one of its semaphores. -/
theorem PortsInv.call_limbo {P : Ports} {c : Call} (own' : Int → Option Int)
    (h : PortsInv x asked L n₁ n₂) (hcall : PortCalled { x with ports := P } y L.σ c f)
    (hc : c.byPorts = true) (hs : (x.ports.porttab p).ptstate = .limbo) (halone : Unattended x p)
    (huser : ∀ g ∈ x.frames x.cur, g.isUser = true) (hkeys : SameKeys x.ports P)
    (hports : ∀ p', p' ≠ p → P.porttab p' = x.ports.porttab p')
    (hnodes : P.nodes = x.ports.nodes ∧ P.ptfree = x.ports.ptfree) (hf : f.clears = some p)
    (hdispose : ∀ p st w, f ≠ .dispose p st w) (habout : c.about = some sem)
    (hsem : ¬ isbadsem sem → L.own sem = some p)
    (hown : ∀ s p', p' ≠ p → (own' s = some p' ↔ L.own s = some p'))
    (howned : ∀ s, own' s = some p →
      L.own s = some p ∧ semSee x.sys (.call c) y.sys L.σ s ≠ none)
    (hclear : ClearOk P { L with σ := semSee x.sys (.call c) y.sys L.σ, own := own' } asked f) :
    PortsInv y asked { L with σ := semSee x.sys (.call c) y.sys L.σ, own := own' } n₁ n₂ := by
  have hPs : (P.porttab p).ptstate = .limbo := by rw [hkeys.state, hs]
  have hport : f.port = some p := port_of_clears hf
  have hframes : ∀ pid, ∀ g ∈ y.frames pid, g = f ∨ g ∈ x.frames pid := by
    intro pid g hg
    rw [hcall.frames] at hg
    by_cases hcur : pid = x.cur
    · rw [hcur] at hg ⊢
      rw [show ({ x with ports := P } : PortSys).cur = x.cur from rfl, Function.update_self] at hg
      exact List.mem_cons.mp hg
    · rw [Function.update_of_ne hcur] at hg
      exact .inr hg
  have hat : ∀ p' seq, f.isAt p' seq = false := by
    intro p' seq
    cases f <;> first | rfl | simp [PortFrame.clears] at hf
  refine h.call hcall hc (h.good_of_state (by rw [hs]; simp)) huser hports hkeys.nextid
    (fun q hq => Option.some.inj (hq.symm.trans hport)) rfl (fun s p' hp' hs' he => hp' ?_) hown
    (fun _ _ => rfl) ?_ h.all (.inr hPs) ?_ (fun _ _ => ⟨rfl, rfl⟩) (fun hs' => ?_)
    (fun pid g hg hgc => ?_)
    (h.once_of_push halone hf hcall.frames) (fun s hs' => ?_) (fun _ pid g hg => ?_)
    fun s d hs' hd => h.queued_call hc hcall.frames (howned s hs').1 hd
  · rw [habout] at he
    obtain rfl := Option.some.inj he
    exact h.own_unique hsem hs'
  · refine h.stored.congr hnodes.1 hnodes.2 (fun _ => .inl rfl) fun p' hp' => .inl ?_
    have hlive := hcall.live_mono (fun p'' h'' => .inl (by rwa [hkeys.state] at h'')) hdispose hp'
    have hpp : p' ≠ p := by
      rintro rfl
      exact halone.not_live (by rw [hs]; simp) hlive
    rw [hports p' hpp]
    exact ⟨hlive, rfl, rfl, rfl⟩
  · rintro ⟨p', seq, h'⟩
    rw [hat] at h'
    simp at h'
  · rw [hPs] at hs'
    simp at hs'
  · rcases hframes pid g hg with rfl | hg
    · exact hclear
    · exact absurd (mem_busy.mpr ⟨g, hg, hgc⟩) (halone pid)
  · obtain ⟨h1, h2⟩ := howned s hs'
    rw [PortInUse, hPs, hkeys.ssem, hkeys.rsem]
    exact ⟨.inr rfl, h2, (h.owned s p h1).2.2⟩
  · rcases hframes pid g hg with rfl | hg
    · exact hat _ _
    · rw [hkeys.seq]
      exact h.fresh p hs pid g hg

theorem semSee_semreset {s t : Sys} {σ : Store} {n : Nat} (hs : σ sem ≠ none) :
    semSee s (.call (.semreset sem n)) t σ sem = some (.create n) := by
  obtain ⟨d, hd⟩ := Option.ne_none_iff_exists'.mp hs
  have hn : ¬ (n : Int) < 0 := by omega
  simp only [semSee, if_neg hn, Store.apply, Function.update_self, hd, Option.map_some,
    Int.toNat_natCast]

theorem semSee_semreset_ne {s t : Sys} {σ : Store} {n : Nat} {s' : Int} (hs : σ s' ≠ none) :
    semSee s (.call (.semreset sem n)) t σ s' ≠ none := by
  by_cases he : s' = sem
  · subst he
    rw [semSee_semreset hs]
    simp
  · rw [semSee_of_ne rfl (by simpa [Call.about] using Ne.symm he)]
    exact hs

/-- **The first kernel call of `_ptclear`.** -/
theorem AtRest.clearSend (h : AtRest x asked L) (hlim : InLimbo x L asked p st)
    (hq : L.q p = []) (huser : ∀ g ∈ x.frames x.cur, g.isUser = true)
    (hy : x.clearSend p st = some y) : ∃ L', AtRest y asked L' ∧ L'.size = L.size := by
  have hown := hlim.holds.sender
  have hne := hlim.holds.distinct
  rcases hlim.aim with ⟨rfl, hfits⟩ | rfl
  · -- a reset
    simp only [PortSys.clearSend, if_pos] at hy
    set P := x.ports.setPort p fun e => { e with pthead := none, pttail := none } with hP
    have hkeys : SameKeys x.ports P := .of_update rfl rfl rfl
    have hself : P.porttab p = { x.ports.porttab p with pthead := none, pttail := none } :=
      setPort_same ..
    have hrange : InRange x.sys (.call (.semreset (x.ports.porttab p).ptssem
        (x.ports.porttab p).ptmaxcnt.toNat)) := by
      have := (x.ports.porttab p).ptmaxcnt.toNat_lt
      simp only [InRange, maxCount]
      omega
    have hcall := PortCalled.of_call (x := { x with ports := P })
      (c := .semreset (x.ports.porttab p).ptssem (x.ports.porttab p).ptmaxcnt.toNat) h.keeper rfl
      hrange hy
    have hsome := (h.owned _ p hown).2.1
    refine ⟨_, PortsInv.call_limbo L.own h hcall rfl hlim.state hlim.alone huser hkeys
      (fun p' hp' => setPort_of_ne _ _ hp') ⟨rfl, rfl⟩ rfl (by simp) rfl (fun _ => hown)
      (fun _ _ _ => Iff.rfl) (fun s hs => ⟨hs, semSee_semreset_ne (h.owned s p hs).2.1⟩) ?_, rfl⟩
    refine ⟨by rw [hkeys.state, hlim.state], hq, .inl ⟨rfl, ?_, ⟨?_, ?_, ?_⟩, ?_, ?_⟩⟩
    · rw [CountKept, hself]
      exact hfits
    · rw [hself]
      exact hown
    · rw [hself]
      exact hlim.holds.receiver
    · rw [hself]
      exact hne
    · rw [hself]
      exact semSee_semreset (s := x.sys) (t := y.sys) hsome
    · rw [hself]
      exact ⟨rfl, rfl⟩
  · -- a deletion
    have hy' : x.call (.semdelete (x.ports.porttab p).ptssem) (.clearSend p .free) = some y := hy
    have hcall := PortCalled.of_call (c := .semdelete (x.ports.porttab p).ptssem) h.keeper rfl
      trivial hy'
    have hupdate : ∀ s, s ≠ (x.ports.porttab p).ptssem →
        Function.update L.own (x.ports.porttab p).ptssem none s = L.own s := fun s hs =>
      Function.update_of_ne hs ..
    refine ⟨_, PortsInv.call_limbo (P := x.ports)
      (Function.update L.own (x.ports.porttab p).ptssem none) h hcall rfl hlim.state
      hlim.alone huser (.refl _) (fun _ _ => rfl) ⟨rfl, rfl⟩ rfl (by simp) rfl (fun _ => hown)
      (fun s p' hp' => ?_) (fun s hs => ?_) ⟨hlim.state, hq, .inr ⟨rfl, fun hgood => ?_⟩⟩, rfl⟩
    · by_cases he : s = (x.ports.porttab p).ptssem
      · rw [he, Function.update_self, hown]
        simpa using hp'.symm
      · rw [hupdate s he]
    · by_cases he : s = (x.ports.porttab p).ptssem
      · rw [he, Function.update_self] at hs
        simp at hs
      · rw [hupdate s he] at hs
        refine ⟨hs, ?_⟩
        rw [semSee_of_ne rfl (by simpa [Call.about] using Ne.symm he)]
        exact (h.owned s p hs).2.1
    · exact (hupdate _ hne.symm).trans (hlim.holds.receiver hgood)

/-- The semaphore `sem` is given up. -/
theorem own_update_iff {own : Int → Option Int} {p' : Int}
    (hsem : own sem = some p ∨ own sem = none) (hp' : p' ≠ p) (s : Int) :
    Function.update own sem none s = some p' ↔ own s = some p' := by
  by_cases he : s = sem
  · rw [he, Function.update_self]
    rcases hsem with e | e
    · rw [e]
      simpa using hp'.symm
    · rw [e]
  · rw [Function.update_of_ne he]

/-- **The second kernel call of `_ptclear`.** -/
theorem AtRest.clearRecv (h : AtRest x asked L) (hok : ClearOk x.ports L asked (.clearSend p st))
    (halone : Unattended x p) (huser : ∀ g ∈ x.frames x.cur, g.isUser = true)
    (hy : x.clearRecv p st = some y) : ∃ L', AtRest y asked L' ∧ L'.size = L.size := by
  obtain ⟨hs, hq, ⟨rfl, hemptied⟩ | ⟨rfl, hrecv⟩⟩ := hok
  · -- a reset
    have hy' : x.call (.semreset (x.ports.porttab p).ptrsem (0 : Nat)) (.clearRecv p .alloc) =
      some y := hy
    have hcall := PortCalled.of_call (c := .semreset (x.ports.porttab p).ptrsem (0 : Nat)) h.keeper
      rfl (by simp [InRange, maxCount]) hy'
    have hne := hemptied.holds.distinct
    refine ⟨_, PortsInv.call_limbo (P := x.ports) L.own h hcall rfl hs halone huser
      (.refl _) (fun _ _ => rfl) ⟨rfl, rfl⟩ rfl (by simp) rfl hemptied.holds.receiver
      (fun _ _ _ => Iff.rfl) (fun s hs => ⟨hs, semSee_semreset_ne (h.owned s p hs).2.1⟩) ?_, rfl⟩
    refine ⟨hs, hq, .inl ⟨rfl, ⟨hemptied.fits, hemptied.holds, ?_, hemptied.queue⟩, ?_⟩⟩
    · exact (semSee_of_ne (s := x.sys) (t := y.sys) (c := .semreset (x.ports.porttab p).ptrsem
        (0 : Nat)) rfl (by simpa [Call.about] using hne.symm)).trans hemptied.sender
    · by_cases hbad : isbadsem (x.ports.porttab p).ptrsem
      · exact .inl hbad
      · exact .inr (semSee_semreset (s := x.sys) (t := y.sys)
          (h.owned _ p (hemptied.holds.receiver hbad)).2.1)
  · -- a deletion
    have hy' : x.call (.semdelete (x.ports.porttab p).ptrsem) (.clearRecv p .free) = some y := hy
    have hcall := PortCalled.of_call (c := .semdelete (x.ports.porttab p).ptrsem) h.keeper rfl
      trivial hy'
    have hsem : L.own (x.ports.porttab p).ptrsem = some p ∨
        L.own (x.ports.porttab p).ptrsem = none := by
      by_cases hbad : isbadsem (x.ports.porttab p).ptrsem
      · refine .inr (Option.eq_none_iff_forall_not_mem.mpr fun p' hp' => ?_)
        exact absurd (h.keeper.kept.inTable _ hbad) (h.owned _ p' hp').2.1
      · exact .inl (hrecv hbad)
    refine ⟨_, PortsInv.call_limbo (P := x.ports)
      (Function.update L.own (x.ports.porttab p).ptrsem none) h hcall rfl hs halone huser
      (.refl _) (fun _ _ => rfl) ⟨rfl, rfl⟩ rfl (by simp) rfl hrecv
      (fun s p' hp' => own_update_iff hsem hp' s) (fun s hs => ?_) ⟨hs, hq, .inr rfl⟩, rfl⟩
    by_cases he : s = (x.ports.porttab p).ptrsem
    · rw [he, Function.update_self] at hs
      simp at hs
    · rw [Function.update_of_ne he] at hs
      refine ⟨hs, ?_⟩
      rw [semSee_of_ne rfl (by simpa [Call.about] using Ne.symm he)]
      exact (h.owned s p hs).2.1

/-- **The end of `_ptclear`.** -/
theorem AtRest.clearDone (h : AtRest x asked L) (hok : ClearOk x.ports L asked (.clearRecv p st))
    (halone : Unattended x p) (hidle : x.sys.cont x.cur = .user) :
    ∃ L', AtRest (x.clearDone p st) asked L' ∧ L'.size = L.size := by
  obtain ⟨hs, hq, hst⟩ := hok
  have hgood := h.good_of_state (p := p) (by rw [hs]; simp)
  have hbounds : 0 ≤ p ∧ p < NPORTS := by
    simp only [isbadport, not_or, not_lt, not_le] at hgood
    omega
  rcases hst with ⟨rfl, hemptied, hrecv⟩ | rfl
  · -- the port is open again
    set P := x.ports.setPort p fun e => { e with ptstate := .alloc } with hP
    have hself : P.porttab p = { x.ports.porttab p with ptstate := .alloc } := setPort_same ..
    have hempty : ∀ g : PortFrame → Bool, (∀ f, g f = true →
        f.isAt p (x.ports.porttab p).ptseq = true) → x.inside g = ∅ := fun g hg =>
      inside_eq_empty (h.fresh p hs) hg
    refine ⟨L, (PortsInv.assign (P := P) h hgood hidle (fun p' hp' => setPort_of_ne _ _ hp')
      h.next rfl (fun _ _ _ => Iff.rfl) (fun s hs => ?_) (fun _ _ => rfl) ?_ h.all (fun _ => hq)
      (fun _ _ => ⟨rfl, rfl⟩) (fun _ => ⟨?_, ?_, ?_, ?_⟩) (fun pid g hg hc => ?_)
      fun hl => ?_).reply OK, rfl⟩
    · rw [PortInUse, hself]
      exact ⟨hs, .inl rfl, (h.owned s p hs).2.2⟩
    · refine h.stored.congr rfl rfl (fun _ => .inl rfl) fun p' hp' => ?_
      by_cases hpp : p' = p
      · subst hpp
        rw [hself]
        exact .inr ⟨hq, hemptied.queue.1, hemptied.queue.2⟩
      · rw [setPort_of_ne _ _ hpp]
        refine .inl ⟨hp'.imp_left fun hl => ?_, rfl, rfl, rfl⟩
        rwa [setPort_of_ne _ _ hpp] at hl
    · have hfits := hemptied.fits
      have hlt := (x.ports.porttab p).ptmaxcnt.toNat_lt
      rw [CountKept] at hfits
      rw [hself, hfits]
      refine ⟨by omega, ?_, ?_⟩
      · simp only [maxCount]
        omega
      · rw [Int.toNat_natCast, UInt16.ofNat_toNat]
    · refine ⟨?_, ?_, ?_⟩
      · rw [hself]
        exact hemptied.holds.sender
      · rw [hself]
        exact hemptied.holds.receiver
      · rw [hself]
        exact hemptied.holds.distinct
    · rw [hself]
      refine ⟨_, hemptied.sender, ?_⟩
      have hin : ({ x with ports := P } : PortSys).inside
          (PortFrame.sends p (x.ports.porttab p).ptseq) = ∅ :=
        hempty _ fun f hf => by simp [PortFrame.isAt, hf]
      have hfits := hemptied.fits
      rw [CountKept] at hfits
      rw [hin, hq, hfits]
      simpa using Counter.Serves.create _
    · rw [hself]
      have hin : ({ x with ports := P } : PortSys).inside
          (PortFrame.receives p (x.ports.porttab p).ptseq) = ∅ :=
        hempty _ fun f hf => by simp [PortFrame.isAt, hf]
      rw [hin, hq]
      rcases hrecv with hbad | hrecv
      · exact .inr ⟨hbad, rfl⟩
      · exact .inl ⟨_, hrecv, Counter.Serves.create 0⟩
    · exact absurd (mem_busy.mpr ⟨g, hg, hc⟩) (halone pid)
    · rw [hself] at hl
      simp at hl
  · -- the port is free
    set P : Ports := { x.ports.setPort p fun e => { e with ptstate := .free } with ptnextid := p }
      with hP
    have hself : P.porttab p = { x.ports.porttab p with ptstate := .free } :=
      setPort_same x.ports p fun e => { e with ptstate := .free }
    have hothers : ∀ p', p' ≠ p → P.porttab p' = x.ports.porttab p' := fun p' hp' =>
      Function.update_of_ne hp' ..
    have hfreed : AtRest { x with ports := P } asked
        { L with own := fun s => if L.own s = some p then none else L.own s } := by
      refine PortsInv.assign (P := P) h hgood hidle hothers hbounds rfl (fun s p' hp' => ?_)
        (fun s hs => ?_) (fun _ _ => rfl) ?_ h.all (fun _ => hq) (fun _ _ => ⟨rfl, rfl⟩)
        (fun hl => ?_)
        (fun pid g hg hc => ?_) fun hl => ?_
      · dsimp only
        split_ifs with he
        · rw [he]
          simpa using hp'.symm
        · rfl
      · dsimp only at hs
        split_ifs at hs with he
        exact absurd hs he
      · refine h.stored.congr rfl rfl (fun _ => .inl rfl) fun p' hp' => ?_
        by_cases hpp : p' = p
        · subst hpp
          refine absurd hp' (Unattended.not_live (x := { x with ports := P }) halone ?_)
          rw [hself]
          simp
        · rw [hothers p' hpp]
          refine .inl ⟨hp'.imp_left fun hl => ?_, rfl, rfl, rfl⟩
          rwa [hothers p' hpp] at hl
      · rw [hself] at hl
        simp at hl
      · exact absurd (mem_busy.mpr ⟨g, hg, hc⟩) (halone pid)
      · rw [hself] at hl
        simp at hl
    exact ⟨_, PortsInv.reply hfreed OK, rfl⟩

/-! ## 4. The messages

With messages on the queue the caller's function is called for the first one, in the process that
clears the port; it may call any port routine, also for other ports.  When it returns the next one
follows, and behind the last one the nodes are given back together. -/

theorem setFrames_frames (x : PortSys) (fs : List PortFrame) :
    (x.setFrames fs).frames = Function.update x.frames x.cur fs := rfl

/-- The current process comes to the disposal of a message. -/
theorem AtRest.toDispose (h : AtRest x asked L) (hlim : InLimbo x L asked p st)
    (hqueue : Queued x.ports p (L.q p)) (huser : ∀ g ∈ x.frames x.cur, g.isUser = true)
    (hidle : x.sys.cont x.cur = .user) (w : Nat) :
    AtRest (x.setFrames (.dispose p st w :: x.frames x.cur)) asked L := by
  set y := x.setFrames (.dispose p st w :: x.frames x.cur) with hy
  have hgood := h.good_of_state (p := p) (by rw [hlim.state]; simp)
  have hframes : ∀ pid, ∀ g ∈ y.frames pid, g = .dispose p st w ∨ g ∈ x.frames pid := by
    intro pid g hg
    by_cases hcur : pid = x.cur
    · rw [hcur] at hg ⊢
      rw [hy, setFrames_frames, Function.update_self] at hg
      exact List.mem_cons.mp hg
    · rw [hy, setFrames_frames, Function.update_of_ne hcur] at hg
      exact .inr hg
  refine @PortsInv.step _ _ _ _ _ _ _ _ _ _ p (.dispose p st w :: x.frames x.cur) h
    ⟨rfl, fun _ _ _ => rfl, fun _ _ _ => id, fun _ _ => rfl, fun _ _ => rfl, fun _ _ => rfl,
      fun _ _ _ => Iff.rfl, fun _ _ _ _ => rfl, ?_, ?_, fun g hg => ?_⟩ h.keeper (fun _ => ?_)
    h.next (fun hbad => absurd hbad hgood) ?_ h.all (h.empty p) ?_ ?_ (fun _ _ => ⟨rfl, rfl⟩)
    (fun hs => ?_)
    (fun pid g hg hc => ?_) (h.once_of_push hlim.alone rfl rfl) (fun s hs => h.owned s p hs)
    (fun _ pid g hg => ?_) fun s c hs hc => h.queued_of_update rfl hs hc
  · exact onlyAt_of_cont (by rw [hidle]; simp) p
  · exact onlyAt_of_cont (x := y) (by rw [hy]; exact hidle ▸ by simp) p
  · rcases List.mem_cons.mp hg with rfl | hg
    · exact .inr fun q hq => (Option.some.inj hq).symm
    · exact .inl hg
  · have hrun : (y.sys.k.proctab x.cur).prstate = .curr := h.keeper.running
    rw [hrun]
    simp
  · refine { h.stored with queue := fun p' hp' => ?_ }
    by_cases hpp : p' = p
    · rw [hpp]
      exact hqueue
    · refine h.stored.queue p' (hp'.imp_right ?_)
      rintro ⟨pid, st', w', hm⟩
      refine ⟨pid, st', w', (hframes pid _ hm).resolve_left fun e => hpp ?_⟩
      exact (PortFrame.dispose.inj e).1
  · rintro g gs hg g' hg'
    exact huser g' (by rw [(List.cons.inj hg).2]; exact hg')
  · rintro g gs hg ⟨p', seq, hat⟩
    rw [← (List.cons.inj hg).1] at hat
    simp [PortFrame.isAt, PortFrame.sends, PortFrame.receives] at hat
  · rw [show y.ports = x.ports from rfl, hlim.state] at hs
    simp at hs
  · rcases hframes pid g hg with rfl | hg
    · exact ⟨hlim.state, hlim.holds, hlim.aim⟩
    · exact absurd (mem_busy.mpr ⟨g, hg, hc⟩) (hlim.alone pid)
  · rcases hframes pid g hg with rfl | hg
    · rfl
    · exact h.fresh p hlim.state pid g hg

/-- **A port is to be cleared**, by `ptreset` or `ptdelete`. -/
theorem AtRest.ptclear (h : AtRest x asked L) (hidle : x.sys.cont x.cur = .user) (hu : x.user)
    (hs : (x.ports.porttab p).ptstate = .alloc)
    (hfresh : ∀ pid, ∀ g ∈ x.frames pid, g.isAt p (int32 ((x.ports.porttab p).ptseq + 1)) = false)
    (haim : st = .alloc ∧ asked p < 65536 ∨ st = .free) (hy : x.ptclear p st = some y) :
    ∃ L', AtRest y asked L' ∧ L'.size = L.size := by
  obtain ⟨hrest, hlim⟩ := h.toLimbo hidle hs hfresh haim
  have huser := h.all_user hu
  have hqueue := h.stored.queue p (.inl hs)
  have hself := setPort_same x.ports p fun e : Ptentry =>
    { e with ptstate := .limbo, ptseq := int32 (e.ptseq + 1) }
  simp only [PortSys.ptclear] at hy
  split at hy
  · obtain rfl := Option.some.inj hy
    refine ⟨L, hrest.toDispose hlim ?_ huser hidle _, rfl⟩
    rw [Queued, hself]
    exact hqueue
  · rename_i hhead
    rw [hself] at hhead
    refine hrest.clearSend hlim ?_ huser hy
    obtain ⟨h1, -⟩ := hqueue
    rcases hq : L.q p with _ | ⟨i, l⟩
    · rfl
    · rw [hq] at h1
      exact absurd ((chain_cons.mp h1).1.symm.trans hhead) (by simp)

/-- **The disposal function returns.** -/
theorem AtRest.disposed {w : Nat} (h : AtRest x asked L)
    (hf : x.frames x.cur = .dispose p st w :: fs) (hidle : x.sys.cont x.cur = .user)
    (hy : (x.setFrames fs).disposed p st w = some y) :
    ∃ L', AtRest y asked L' ∧ L'.size = L.size := by
  have hcont : Function.update x.sys.cont x.cur .user = x.sys.cont := by
    rw [← hidle, Function.update_eq_self]
  have hz : x.returned fs = x.setFrames fs := by
    rw [PortSys.returned, hcont]
    rfl
  have hout : Outside x := outside_of_head hf fun _ _ => rfl
  have hrest := h.back hf (by rw [hz]; exact h.keeper) hout
  have halone := PortsInv.unattended_returned h hf (p := p) rfl
  rw [hz] at hrest halone
  have hmem : PortFrame.dispose p st w ∈ x.frames x.cur := by rw [hf]; exact List.mem_cons_self
  obtain ⟨h1, h2, h3⟩ := h.clears x.cur _ hmem
  have hlive : x.live p := .inr ⟨x.cur, st, w, hmem⟩
  have huser : ∀ g ∈ (x.setFrames fs).frames x.cur, g.isUser = true := by
    rw [setFrames_frames, Function.update_self]
    exact h.inner x.cur _ fs hf
  have hlim : InLimbo (x.setFrames fs) L asked p st := ⟨h1, h2, h3, halone⟩
  have hstate : (x.ports.porttab p).ptstate ≠ .alloc := by rw [h1]; simp
  simp only [PortSys.disposed] at hy
  split at hy
  · obtain rfl := Option.some.inj hy
    exact ⟨L, hrest.toDispose hlim (h.stored.queue p hlive) huser hidle _, rfl⟩
  · -- the whole queue goes to the free list
    obtain ⟨P, hP, hy⟩ := Option.bind_eq_some_iff.mp hy
    obtain ⟨hstored, hports, hnext⟩ := NodesAt.freeQueue h.stored hlive hP
    have hgood := h.good_of_state (p := p) (by rw [h1]; simp)
    have hfreed : AtRest { x.setFrames fs with ports := P } asked
        { L with fl := L.q p ++ L.fl, q := Function.update L.q p [] } := by
      refine PortsInv.assign (P := P) hrest hgood hidle (fun p' _ => by rw [hports]; rfl)
        (by rw [hnext]; exact h.next) rfl (fun _ _ _ => Iff.rfl) (fun s hs => ?_)
        (fun p' hp' => Function.update_of_ne hp' ..) (hstored.mono fun p' hp' => ?_)
        (fun i hi => ?_) (fun _ => Function.update_self ..) (fun p' hp' => ?_) (fun hs => ?_)
        (fun pid g hg hc => ?_)
        fun _ pid g hg => ?_
      · rw [PortInUse, hports]
        exact ⟨hs, .inr h1, (h.owned s p hs).2.2⟩
      · have hne : p' ≠ p := by
          rintro rfl
          refine Unattended.not_live (x := { x.setFrames fs with ports := P }) halone ?_ hp'
          rw [hports]
          exact hstate
        refine ⟨?_, hne⟩
        rcases hp' with hp' | ⟨pid, st', w', hm⟩
        · rw [hports] at hp'
          exact .inl hp'
        · refine .inr ⟨pid, st', w', ?_⟩
          by_cases hcur : pid = x.cur
          · rw [hcur] at hm ⊢
            rw [hf]
            refine List.mem_cons_of_mem _ ?_
            simpa [PortSys.setFrames] using hm
          · simpa [PortSys.setFrames, Function.update_of_ne hcur] using hm
      · rcases h.all i hi with hm | ⟨p', hm⟩
        · exact .inl (List.mem_append_right _ hm)
        · by_cases hp' : p' = p
          · rw [hp'] at hm
            exact .inl (List.mem_append_left _ hm)
          · exact .inr ⟨p', by simpa only [Function.update_of_ne hp'] using hm⟩
      · simp only [Function.update_of_ne hp', and_self]
      · rw [hports] at hs
        exact absurd hs hstate
      · exact absurd (mem_busy.mpr ⟨g, hg, hc⟩) (halone pid)
      · rw [hports]
        exact hrest.fresh p h1 pid g hg
    refine hfreed.clearSend ⟨?_, ?_, ?_, halone⟩ (Function.update_self ..) huser hy
    · rw [hports]
      exact h1
    · exact h2.congr (by rw [hports]) fun _ => Iff.rfl
    · rw [CountKept, hports]
      exact h3

/-! ## 5. Going on with a port routine

All the ways in which a process goes on inside a port routine, in one statement. -/

/-- The kernel call that a process goes on behind has returned. -/
theorem goOn_ret (hdispose : ∀ p st w, f ≠ .dispose p st w) (hy : x.goOn f fs = some y) :
    ∃ v, x.sys.cont x.cur = .ret v ∧ (x.returned fs).resume v f = some y := by
  cases hcont : x.sys.cont x.cur with
  | ret v =>
    have hgo : x.goOn f fs = (Xinu.step x.sys .finish).bind fun s =>
        ({ x.setFrames fs with sys := s } : PortSys).resume v f := by
      cases f with
      | dispose p st w => exact absurd rfl (hdispose p st w)
      | _ => simp only [PortSys.goOn, hcont]
    rw [hgo, finish_ret fs hcont] at hy
    exact ⟨v, rfl, hy⟩
  | _ =>
    cases f with
    | dispose p st w => exact absurd rfl (hdispose p st w)
    | _ => simp [PortSys.goOn, hcont] at hy

/-- **Going on with a port routine** keeps what was granted. -/
theorem AtRest.goOn (h : AtRest x asked L) (hf : x.frames x.cur = f :: fs)
    (hy : x.goOn f fs = some y) : ∃ L', AtRest y asked L' ∧ L'.size = L.size := by
  have hclear : ClearOk x.ports L asked f := h.clears x.cur f (by rw [hf]; exact List.mem_cons_self)
  by_cases hdispose : ∃ p st w, f = .dispose p st w
  · obtain ⟨p, st, w, rfl⟩ := hdispose
    simp only [PortSys.goOn] at hy
    split_ifs at hy with hmay
    exact h.disposed hf hmay.2.1 hy
  simp only [not_exists] at hdispose
  obtain ⟨v, hcont, hy⟩ := goOn_ret hdispose hy
  have hkeeper := h.keeper.returned hcont fs
  have huser : ∀ g ∈ (x.returned fs).frames x.cur, g.isUser = true := by
    rw [returned_frames]
    exact h.inner x.cur f fs hf
  have hback : (∀ p seq, f.isAt p seq = false) → AtRest (x.returned fs) asked L := fun hat =>
    h.back hf hkeeper (outside_of_head hf hat)
  cases f with
  | send p seq msg => exact h.go_send hf hcont hy
  | recv p seq => exact h.go_recv hf hcont hy
  | signal value =>
    obtain rfl := Option.some.inj hy
    exact ⟨L, (hback fun _ _ => rfl).reply _, rfl⟩
  | dispose p st w => exact absurd rfl (hdispose p st w)
  | clearSend p st =>
    exact (hback fun _ _ => rfl).clearRecv hclear (PortsInv.unattended_returned h hf rfl) huser hy
  | clearRecv p st =>
    obtain rfl := Option.some.inj hy
    exact (hback fun _ _ => rfl).clearDone hclear (PortsInv.unattended_returned h hf rfl)
      (Function.update_self ..)

end Xinu
