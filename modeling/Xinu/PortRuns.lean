/-
# Coming to a port and going on: `ptsend.c`, `ptrecv.c`

A process is in a port routine from the call up to its return, and can be switched out at each
kernel call in between.  So a routine is taken apart at these calls, and each part has a rule:
what the process assigns, and which kernel call it then makes about which port.

The rules have the form "the invariant of the ports (`PortsInv`) before gives the invariant
after", for a step that concerns one port.  All that is needed of the other ports is that nobody's
frames at them change, and that the semaphores of a port belong to no other (`own_unique`).

`ptsend` and `ptrecv` have two parts each: up to their first `wait`, which promises nothing that
is not there (`PortsInv.come`), and behind it, where nodes are moved and the other side is
signalled (`AtRest.go_send`, `AtRest.go_recv`).
-/
import Xinu.PortInv

namespace Xinu

open Counting

variable {x y : PortSys} {asked asked' : Int → Int} {L L' : Ledger} {n₁ n₂ n₁' n₂' : Int → Int}
  {p pid sem : Int} {f : PortFrame} {fs : List PortFrame} {σ : Store} {s : Sys} {c : Call}

/-! ## 1. Kernel calls inside a port routine

A port routine makes its kernel calls in the process's own name: `wait`, `signal`, `semreset` and
`semdelete`.  `PortCalled` is what such a call does to the frames and the semaphores, whether it
returns at once or the process is switched out in it. -/

theorem notMem_inside_of_cont {g : PortFrame → Bool} (h : x.sys.cont pid ≠ .ret OK) :
    pid ∉ x.inside g := fun hm => h (mem_inside.mp hm).2.2

theorem onlyAt_of_cont (h : x.sys.cont pid ≠ .ret OK) (p : Int) : OnlyAt x pid p :=
  fun _ _ _ => ⟨notMem_inside_of_cont h, notMem_inside_of_cont h⟩

/-- Who is in a frame about `p` is at no other port. -/
theorem onlyAt_of_head (h : (x.frames pid).head? = some f)
    (hf : ∀ q, f.port = some q → q = p) : OnlyAt x pid p := by
  intro q hq seq
  refine ⟨fun hm => hq (hf q ?_), fun hm => hq (hf q ?_)⟩
  all_goals
    have hat := (mem_inside.mp hm).2.1
    rw [h, Option.any_some] at hat
    exact @port_of_isAt _ _ seq (by simp [PortFrame.isAt, hat])

/-- The calls that a port routine makes. -/
def Call.byPorts : Call → Bool
  | .wait _ | .signal _ | .semreset _ _ | .semdelete _ => true
  | _ => false

/-- **What a kernel call inside a port routine does.** -/
structure PortCalled (x y : PortSys) (σ : Store) (c : Call) (f : PortFrame) : Prop where
  keeper : KeeperInv (y.sys, semSee x.sys (.call c) y.sys σ)
  frames : y.frames = Function.update x.frames x.cur (f :: x.frames x.cur)
  ports : y.ports = x.ports
  cont : ∀ pid, pid ≠ x.cur → y.sys.cont pid = x.sys.cont pid
  ret : ∃ k v, c.enter x.sys.k = some (k, .ret v) ∧ y.sys.cont x.cur = .ret v
  life : ∀ pid, (y.sys.k.proctab pid).prstate = .free ↔ (x.sys.k.proctab pid).prstate = .free
  idle : x.sys.idle

theorem PortCalled.of_call (h : KeeperInv (x.sys, σ)) (hc : c.byPorts = true)
    (hok : InRange x.sys (.call c)) (hy : x.call c f = some y) : PortCalled x y σ c f := by
  obtain ⟨t, ht, rfl⟩ := Option.map_eq_some_iff.mp hy
  have hkeeper := (h.step hok ht).1
  simp only [Xinu.step] at ht
  split_ifs at ht with hg
  obtain ⟨r, hr, rfl⟩ := Option.map_eq_some_iff.mp ht
  have hsched : c.schedules = true := by cases c <;> simp_all [Call.byPorts, Call.schedules]
  have hmade : c.made r.2 = none := by
    cases hm : c.made r.2 with
    | none => rfl
    | some z => exact absurd hm (made_none hsched _ z)
  have hret : ∃ k v, r = (k, .ret v) := by
    cases c <;> simp [Call.byPorts] at hc
    all_goals
      obtain ⟨z, -, hz⟩ := returning_some hr
      exact ⟨_, _, hz⟩
  obtain ⟨k, v, rfl⟩ := hret
  have hkeeps := enter_keeps h.sys.kernel.settled hsched hg.2.2 hr
  refine ⟨hkeeper, rfl, rfl, fun pid hpid => ?_, ⟨k, v, hr, ?_⟩,
    fun pid => (hkeeps.quiet.stays pid).life, hg.1⟩
  · simp only [hmade, assignAt]
    exact Function.update_of_ne hpid ..
  · simp only [hmade, assignAt]
    exact Function.update_self ..

/-- The current process is back from its kernel call, in the frames `fs`. -/
def PortSys.returned (x : PortSys) (fs : List PortFrame) : PortSys :=
  { x.setFrames fs with
    sys := { x.sys with cont := Function.update x.sys.cont x.cur .user } }

@[simp] theorem returned_cur : (x.returned fs).cur = x.cur := rfl

@[simp] theorem returned_ports : (x.returned fs).ports = x.ports := rfl

@[simp] theorem returned_frames : (x.returned fs).frames x.cur = fs := Function.update_self ..

/-- The end of such a call. -/
theorem finish_ret {v : Int} (fs : List PortFrame) (hcont : x.sys.cont x.cur = .ret v) :
    Xinu.step x.sys .finish = some (x.returned fs).sys := by
  simp only [Xinu.step, hcont, finishCall, Option.map_some]
  rfl

theorem KeeperInv.returned {v : Int} (h : KeeperInv (x.sys, σ)) (hcont : x.sys.cont x.cur = .ret v)
    (fs : List PortFrame) : KeeperInv ((x.returned fs).sys, σ) :=
  (h.step (e := .finish) trivial (finish_ret fs hcont)).1

/-! ## 2. Coming and going

The invariant counts who is inside a `wait` of a port.  When the frames of one process change,
each count changes by what that process adds (`present`), and nobody else is concerned. -/

/-- `1` if the process is inside. -/
def present (x : PortSys) (pid : Int) (g : PortFrame → Bool) : Int :=
  if pid ∈ x.inside g then 1 else 0

/-- Who is inside when the process is so no more. -/
theorem Counter.Serves.depart {g : PortFrame → Bool} {n : Int} {d : Counter Int}
    {F : List PortFrame}
    (h : d.Serves (x.inside g) n)
    (hframes : y.frames = Function.update x.frames x.cur F)
    (hcont : ∀ pid, pid ≠ x.cur → x.frames pid ≠ [] → y.sys.cont pid = x.sys.cont pid)
    (hc : IsProc x.cur) (hy : x.cur ∉ y.inside g) (hw : x.cur ∉ d.waiting) :
    d.Serves (y.inside g) (n - present x x.cur g) := by
  have hnew := inside_update hframes hcont hc g
  have hcond : ¬ (F.head?.any g = true ∧ y.sys.cont x.cur = .ret OK) := fun e =>
    hy (by rw [hnew, if_pos e]; exact Finset.mem_insert_self ..)
  rw [hnew, if_neg hcond, present]
  split_ifs with hin
  · exact h.leave hin hw
  · rw [Finset.erase_eq_of_notMem hin, sub_zero]
    exact h

theorem busy_of_frames {F : List PortFrame} (h : y.frames = Function.update x.frames x.cur F)
    (pid : Int) :
    y.busy pid = if pid = x.cur then F.filterMap PortFrame.clears else x.busy pid := by
  rw [PortSys.busy, PortSys.busy, h]
  split_ifs with hp
  · rw [hp, Function.update_self]
  · rw [Function.update_of_ne hp]

/-- Each port is cleared by one process at most, if the current process clears no others than
before. -/
theorem PortsInv.once_of_sublist (h : PortsInv x asked L n₁ n₂) {F : List PortFrame}
    (hframes : y.frames = Function.update x.frames x.cur F)
    (hsub : (F.filterMap PortFrame.clears).Sublist (x.busy x.cur)) :
    (∀ pid, (y.busy pid).Nodup) ∧
      ∀ pid pid', ∀ p ∈ y.busy pid, p ∈ y.busy pid' → pid = pid' := by
  have hb := fun pid => busy_of_frames hframes pid
  have hmem : ∀ pid, ∀ p ∈ y.busy pid, p ∈ x.busy pid := by
    intro pid p hp
    rw [hb] at hp
    split_ifs at hp with hc
    · rw [hc]
      exact hsub.subset hp
    · exact hp
  refine ⟨fun pid => ?_, fun pid pid' p hp hp' => h.once.2 pid pid' p (hmem _ _ hp) (hmem _ _ hp')⟩
  rw [hb]
  split_ifs with hc
  · exact (h.once.1 x.cur).sublist hsub
  · exact h.once.1 pid

/-- Who waits for a port stays in it when the current process, which waits for nothing, moves. -/
theorem PortsInv.queued_of_update (h : PortsInv x asked L n₁ n₂) {F : List PortFrame}
    {d : Counter Int} (hframes : y.frames = Function.update x.frames x.cur F)
    (hs : L.own sem = some p) (hd : L.σ sem = some d) : ∀ pid ∈ d.waiting, y.frames pid ≠ [] := by
  intro pid hpid
  have hne : pid ≠ x.cur := by
    rintro rfl
    exact h.keeper.cur_notMem hd hpid
  rw [hframes, Function.update_of_ne hne]
  exact h.queued sem p d hs hd pid hpid

/-- **The current process leaves its innermost frame.** -/
theorem PortsInv.pop (h : PortsInv x asked L n₁ n₂) (hf : x.frames x.cur = f :: fs)
    (hkeeper : KeeperInv ((x.returned fs).sys, L.σ)) :
    PortsInv (x.returned fs) asked L
      (fun p => n₁ p - present x x.cur (PortFrame.sends p (x.ports.porttab p).ptseq))
      fun p => n₂ p - present x x.cur (PortFrame.receives p (x.ports.porttab p).ptseq) := by
  have hcur := h.keeper.cur
  have hothers : ∀ pid, pid ≠ x.cur → x.frames pid ≠ [] →
      (x.returned fs).sys.cont pid = x.sys.cont pid :=
    fun pid hpid _ => Function.update_of_ne hpid ..
  have huser : (x.returned fs).sys.cont x.cur = .user := Function.update_self ..
  have hbefore : OnlyAt x x.cur (f.port.getD (-1)) := by
    refine onlyAt_of_head (f := f) (by rw [hf]; rfl) fun q hq => ?_
    rw [hq, Option.getD_some]
  have hsub : ∀ pid, ∀ g ∈ (x.returned fs).frames pid, g ∈ x.frames pid := by
    intro pid g hg
    by_cases hp : pid = x.cur
    · subst hp
      rw [returned_frames] at hg
      rw [hf]
      exact List.mem_cons_of_mem _ hg
    · simpa only [PortSys.returned, PortSys.setFrames, Function.update_of_ne hp] using hg
  have hafter : ∀ g, x.cur ∉ (x.returned fs).inside g := fun g =>
    notMem_inside_of_cont (by rw [huser]; simp)
  refine @PortsInv.step _ _ _ _ _ _ _ _ _ _ (f.port.getD (-1)) fs h
    ⟨rfl, hothers, fun pid _ _ => id, fun _ _ => rfl, fun _ _ => rfl,
      fun _ _ => rfl, fun _ _ _ => Iff.rfl, fun _ _ _ _ => rfl, hbefore,
      fun _ _ _ => ⟨hafter _, hafter _⟩,
      fun g hg => .inl (by rw [hf]; exact List.mem_cons_of_mem _ hg)⟩
    hkeeper ?_ h.next (h.range _) ?_ h.all (h.empty _) ?_ ?_ ?_ ?_ ?_ ?_ ?_ ?_ ?_
  · exact fun _ => (h.alive x.cur (by rw [hf]; simp)).2
  · refine h.stored.mono fun p hp => hp.imp_right ?_
    rintro ⟨pid, st, w, hm⟩
    exact ⟨pid, st, w, hsub pid _ hm⟩
  · rintro g gs rfl g' hg'
    exact h.inner x.cur f _ hf g' (List.mem_cons_of_mem _ hg')
  · rintro g gs rfl ⟨p, seq, hat⟩
    have hg := h.inner x.cur f _ hf g (by simp)
    cases g <;> simp [PortFrame.isAt, PortFrame.sends, PortFrame.receives,
      PortFrame.isUser] at hat hg
  · intro p hp
    have h1 := hbefore p hp (x.ports.porttab p).ptseq
    rw [present, present, if_neg h1.1, if_neg h1.2, sub_zero, sub_zero]
    exact ⟨rfl, rfl⟩
  · intro hopen
    obtain ⟨h1, h2, ⟨d, hd, hserves⟩, hr⟩ := h.opened _ hopen
    refine ⟨h1, h2, ⟨d, hd, Counter.Serves.depart hserves rfl hothers hcur (hafter _)
      (h.keeper.cur_notMem hd)⟩, ?_⟩
    rcases hr with ⟨d', hd', hserves'⟩ | ⟨hbad, hempty⟩
    · exact .inl ⟨d', hd', Counter.Serves.depart hserves' rfl hothers hcur (hafter _)
        (h.keeper.cur_notMem hd')⟩
    · refine .inr ⟨hbad, ?_⟩
      have hnone : x.cur ∉ x.inside (PortFrame.receives (f.port.getD (-1))
          (x.ports.porttab (f.port.getD (-1))).ptseq) := by
        rw [hempty]
        exact Finset.notMem_empty _
      exact (inside_eq rfl hothers hnone (hafter _)).trans hempty
  · exact fun pid g hg _ => h.clears pid g (hsub pid g hg)
  · refine h.once_of_sublist rfl ?_
    rw [PortSys.busy, hf]
    exact (List.sublist_cons_self f fs).filterMap _
  · exact fun sem hs => h.owned sem _ hs
  · exact fun hl pid g hg => h.fresh _ hl pid g (hsub pid g hg)
  · exact fun sem c hs hc => h.queued_of_update rfl hs hc

/-! ## 3. A kernel call about one port

The step rule.  Assignments to one port come first, then the kernel call about one of its
semaphores; what has to be shown of them is that the port they concern is right afterwards. -/

/-- The semaphore that a call is about. -/
def Call.about : Call → Option Int
  | .wait sem | .signal sem | .signaln sem _ | .semdelete sem | .semreset sem _ => some sem
  | _ => none

theorem semSee_of_ne {t : Sys} (hc : c.byPorts = true) (h : c.about ≠ some sem) :
    semSee s (.call c) t σ sem = σ sem := by
  cases c with
  | wait sem' | signal sem' | semdelete sem' =>
    exact Function.update_of_ne (fun e => h (by rw [Call.about, e])) ..
  | semreset sem' n =>
    simp only [semSee]
    split_ifs
    · rfl
    · exact Function.update_of_ne (fun e => h (by rw [Call.about, e])) ..
  | _ => simp [Call.byPorts] at hc

/-- **The step rule for a kernel call** by a process that is in no `wait`, after assignments to the
port `p₀`. -/
theorem PortsInv.call {P : Ports} {p₀ : Int} (h : PortsInv x asked L n₁ n₂)
    (hcall : PortCalled { x with ports := P } y L.σ c f) (hc : c.byPorts = true)
    (hp₀ : ¬ isbadport p₀) (huser : ∀ g ∈ x.frames x.cur, g.isUser = true)
    (hports : ∀ p, p ≠ p₀ → P.porttab p = x.ports.porttab p)
    (hnext : P.ptnextid = x.ports.ptnextid) (hf : ∀ q, f.port = some q → q = p₀)
    (hσ : L'.σ = semSee x.sys (.call c) y.sys L.σ)
    (hsem : ∀ s p, p ≠ p₀ → L.own s = some p → c.about ≠ some s)
    (hown : ∀ s p, p ≠ p₀ → (L'.own s = some p ↔ L.own s = some p))
    (hq : ∀ p, p ≠ p₀ → L'.q p = L.q p) (hstored : NodesAt P y.live L'.fl L'.q)
    (hall : ∀ i < L'.size, i ∈ L'.fl ∨ ∃ p, i ∈ L'.q p) (huse : PortInUse P p₀)
    (hwait : (∃ p seq, f.isAt p seq = true) →
      y.sys.cont x.cur = .ret OK ∨ y.sys.cont x.cur = .ret SYSERR)
    (hn : ∀ p, p ≠ p₀ → n₁' p = n₁ p ∧ n₂' p = n₂ p)
    (hopen : (P.porttab p₀).ptstate = .alloc → OpenPort y L' (asked p₀) (n₁' p₀) (n₂' p₀) p₀)
    (hclear : ∀ pid, ∀ g ∈ y.frames pid, g.clears = some p₀ → ClearOk P L' asked g)
    (honce : (∀ pid, (y.busy pid).Nodup) ∧
      ∀ pid pid', ∀ p ∈ y.busy pid, p ∈ y.busy pid' → pid = pid')
    (howned : ∀ s, L'.own s = some p₀ → PortInUse P p₀ ∧ L'.σ s ≠ none ∧
      (s = (P.porttab p₀).ptssem ∨ s = (P.porttab p₀).ptrsem))
    (hfresh : (P.porttab p₀).ptstate = .limbo → ∀ pid, ∀ g ∈ y.frames pid,
      g.isAt p₀ (P.porttab p₀).ptseq = false)
    (hqueued : ∀ sem c, L'.own sem = some p₀ → L'.σ sem = some c → ∀ pid ∈ c.waiting,
      y.frames pid ≠ []) :
    PortsInv y asked L' n₁' n₂' := by
  have hidle : x.sys.cont x.cur = .user := hcall.idle
  have hPy : y.ports = P := hcall.ports
  have hhead : (y.frames x.cur).head? = some f := by
    rw [hcall.frames]
    exact congrArg List.head? (Function.update_self x.cur (f :: x.frames x.cur) x.frames)
  refine @PortsInv.step _ _ _ _ _ _ _ _ _ _ p₀ (f :: x.frames x.cur) h
    ⟨hcall.frames, fun pid hpid _ => hcall.cont pid hpid, fun pid _ _ => ?_, fun p hp => ?_, hq,
      fun _ _ => rfl, hown, fun s p hp hs => ?_, ?_, ?_, ?_⟩ ?_ ?_ ?_
    (fun hbad => absurd hbad hp₀) ?_ hall (fun hno => absurd (hPy ▸ huse) hno) ?_ ?_ hn ?_ ?_ honce
    ?_ ?_ hqueued
  · exact fun hlive hfree => hlive ((hcall.life pid).mp hfree)
  · rw [hPy]
    exact hports p hp
  · rw [hσ]
    exact semSee_of_ne hc (hsem s p hp hs)
  · exact onlyAt_of_cont (by rw [hidle]; simp) p₀
  · exact onlyAt_of_head hhead hf
  · intro g hg
    rcases List.mem_cons.mp hg with rfl | hg
    · exact .inr hf
    · exact .inl hg
  · rw [hσ]
    exact hcall.keeper
  · intro _ hfree
    have hrun := h.keeper.running
    rw [(hcall.life x.cur).mp hfree] at hrun
    exact absurd hrun (by simp)
  · rw [hPy, hnext]
    exact h.next
  · rw [hPy]
    exact hstored
  · intro g gs hg g' hg'
    exact huser g' (by rw [(List.cons.inj hg).2]; exact hg')
  · intro g gs hg hat
    exact hwait (by rw [(List.cons.inj hg).1]; exact hat)
  · rw [hPy]
    exact hopen
  · rw [hPy]
    exact hclear
  · rw [hPy]
    exact howned
  · rw [hPy]
    exact hfresh

/-- Who waits after the call is the caller, or waited before. -/
theorem waiting_semSee {t : Sys} {d : Counter Int} (hc : c.byPorts = true)
    (hd : semSee s (.call c) t σ sem = some d) (hpid : pid ∈ d.waiting) :
    pid = s.k.currpid ∨ ∃ d₀, σ sem = some d₀ ∧ pid ∈ d₀.waiting := by
  by_cases hsem : c.about = some sem
  swap
  · rw [semSee_of_ne hc hsem] at hd
    exact .inr ⟨d, hd, hpid⟩
  have happly : ∀ g : Counter Int → Counter Int, σ.apply sem g sem = some d →
      ∃ d₀, σ sem = some d₀ ∧ g d₀ = d := by
    intro g hg
    rw [Store.apply, Function.update_self] at hg
    exact Option.map_eq_some_iff.mp hg
  cases c with
  | wait sem' =>
    obtain rfl : sem' = sem := Option.some.inj hsem
    obtain ⟨d₀, h0, rfl⟩ := happly _ hd
    simp only [Counter.wait] at hpid
    split_ifs at hpid
    · rcases List.mem_append.mp hpid with hpid | hpid
      · exact .inr ⟨d₀, h0, hpid⟩
      · exact .inl (List.mem_singleton.mp hpid)
    · exact .inr ⟨d₀, h0, hpid⟩
  | signal sem' =>
    obtain rfl : sem' = sem := Option.some.inj hsem
    obtain ⟨d₀, h0, rfl⟩ := happly _ hd
    exact .inr ⟨d₀, h0, List.mem_of_mem_drop hpid⟩
  | semreset sem' n =>
    obtain rfl : sem' = sem := Option.some.inj hsem
    simp only [semSee] at hd
    split_ifs at hd
    · exact .inr ⟨d, hd, hpid⟩
    · obtain ⟨d₀, h0, rfl⟩ := happly _ hd
      simp [Counter.create] at hpid
  | semdelete sem' =>
    obtain rfl : sem' = sem := Option.some.inj hsem
    simp [semSee] at hd
  | _ => simp [Call.byPorts] at hc

theorem PortsInv.queued_call (h : PortsInv x asked L n₁ n₂) {d : Counter Int}
    (hc : c.byPorts = true) (hframes : y.frames = Function.update x.frames x.cur (f :: fs))
    (hs : L.own sem = some p) (hd : semSee x.sys (.call c) y.sys L.σ sem = some d) :
    ∀ pid ∈ d.waiting, y.frames pid ≠ [] := by
  intro pid hpid
  rw [hframes]
  by_cases hcur : pid = x.cur
  · rw [hcur, Function.update_self]
    simp
  · rw [Function.update_of_ne hcur]
    obtain ⟨d₀, h0, hm⟩ := (waiting_semSee hc hd hpid).resolve_left hcur
    exact h.queued sem p d₀ hs h0 pid hm

/-- A semaphore that a port holds belongs to no other. -/
theorem PortsInv.own_unique (h : PortsInv x asked L n₁ n₂) {p₀ : Int}
    (h₀ : ¬ isbadsem sem → L.own sem = some p₀) (hs : L.own sem = some p) : p = p₀ := by
  by_cases hbad : isbadsem sem
  · exact absurd (h.keeper.kept.inTable sem hbad) (h.owned sem p hs).2.1
  · exact Option.some.inj (hs.symm.trans (h₀ hbad))

theorem PortsInv.good_of_state (h : PortsInv x asked L n₁ n₂)
    (hs : (x.ports.porttab p).ptstate ≠ .unset) : ¬ isbadport p := fun hbad => hs (h.range p hbad)

/-- **A `wait` or a `signal` on a semaphore of an open port**, after assignments that leave the keys
of the ports alone. -/
theorem PortsInv.call_open {P : Ports} {p₀ : Int} (h : PortsInv x asked L n₁ n₂)
    (hcall : PortCalled { x with ports := P } y L.σ c f) (hc : c = .wait sem ∨ c = .signal sem)
    (hstate : (x.ports.porttab p₀).ptstate = .alloc)
    (huser : ∀ g ∈ x.frames x.cur, g.isUser = true) (hkeys : SameKeys x.ports P)
    (hports : ∀ p, p ≠ p₀ → P.porttab p = x.ports.porttab p)
    (hsem : sem = (x.ports.porttab p₀).ptssem ∨ sem = (x.ports.porttab p₀).ptrsem)
    (hf : ∀ q, f.port = some q → q = p₀) (hf' : f.clears = none)
    (hσ : L'.σ = semSee x.sys (.call c) y.sys L.σ) (hown : L'.own = L.own)
    (hq : ∀ p, p ≠ p₀ → L'.q p = L.q p) (hstored : NodesAt P y.live L'.fl L'.q)
    (hall : ∀ i < L'.size, i ∈ L'.fl ∨ ∃ p, i ∈ L'.q p)
    (hwait : (∃ p seq, f.isAt p seq = true) →
      y.sys.cont x.cur = .ret OK ∨ y.sys.cont x.cur = .ret SYSERR)
    (hn : ∀ p, p ≠ p₀ → n₁' p = n₁ p ∧ n₂' p = n₂ p)
    (hopen : OpenPort y L' (asked p₀) (n₁' p₀) (n₂' p₀) p₀) : PortsInv y asked L' n₁' n₂' := by
  have hby : c.byPorts = true := by rcases hc with rfl | rfl <;> rfl
  have habout : c.about = some sem := by rcases hc with rfl | rfl <;> rfl
  have hholds := (h.opened p₀ hstate).holds
  have hkept : ∀ s, L.σ s ≠ none → semSee x.sys (.call c) y.sys L.σ s ≠ none := by
    intro s hs
    by_cases he : sem = s
    · subst he
      rcases hc with rfl | rfl <;> simpa [semSee, Store.apply] using hs
    · rwa [semSee_of_ne hby (by rw [habout]; simpa using he)]
  refine h.call hcall hby (h.good_of_state (by rw [hstate]; simp)) huser hports hkeys.nextid hf hσ
    (fun s p hp hs he => hp ?_) (fun s p _ => by rw [hown]) hq hstored hall
    (.inl (by rw [hkeys.state, hstate])) hwait hn
    (fun _ => hopen) (fun pid g hg hgc => ?_) ?_ (fun s hs => ?_) (fun hl => ?_)
    fun s d hs hd => ?_
  · rw [habout] at he
    obtain rfl := Option.some.inj he
    refine h.own_unique (fun hgood => ?_) hs
    rcases hsem with e | e
    · rw [e]
      exact hholds.sender
    · rw [e] at hgood ⊢
      exact hholds.receiver hgood
  · -- nobody clears an open port
    have hold : g ∈ x.frames pid := by
      rw [hcall.frames] at hg
      by_cases hcur : pid = x.cur
      · rw [hcur] at hg ⊢
        rw [Function.update_self] at hg
        rcases List.mem_cons.mp hg with rfl | hg
        · rw [hf'] at hgc
          simp at hgc
        · exact hg
      · rwa [Function.update_of_ne hcur] at hg
    have hlimbo : (x.ports.porttab p₀).ptstate = .limbo := by
      have hok := h.clears pid g hold
      cases g <;> simp only [PortFrame.clears, Option.some.injEq, reduceCtorEq] at hgc
      all_goals
        subst hgc
        exact hok.1
    rw [hstate] at hlimbo
    exact absurd hlimbo (by simp)
  · refine h.once_of_sublist hcall.frames ?_
    rw [List.filterMap_cons_none hf']
    exact List.Sublist.refl _
  · rw [hown] at hs
    obtain ⟨h1, h2, h3⟩ := h.owned s p₀ hs
    rw [PortInUse, hkeys.state, hkeys.ssem, hkeys.rsem, hσ]
    exact ⟨h1, hkept s h2, h3⟩
  · rw [hkeys.state, hstate] at hl
    exact absurd hl (by simp)
  · rw [hown] at hs
    rw [hσ] at hd
    exact h.queued_call hby hcall.frames hs hd

/-! ## 4. Coming to a port

Up to `wait` both routines do the same on different semaphores, so they share `Comes`.  The caller
is inside when the count was positive, and waits otherwise; either way the sum that the invariant
is about does not change. -/

/-- A process that executes its own code is in the frames of disposal functions only. -/
theorem PortsInv.all_user (h : PortsInv x asked L n₁ n₂) (hu : x.user) :
    ∀ g ∈ x.frames x.cur, g.isUser = true := by
  intro g hg
  rcases hfs : x.frames x.cur with _ | ⟨f, fs⟩
  · simp [hfs] at hg
  · rw [hfs] at hg
    rcases List.mem_cons.mp hg with rfl | hg
    · rw [PortSys.user, hfs] at hu
      exact hu
    · exact h.inner x.cur f fs hfs g hg

theorem wait_value {k : Kernel} {r : Kernel × Int} (hs : wait sem k = some r) :
    r.2 = if isbadsem sem ∨ (k.semtab sem).sstate = .free then SYSERR else OK := by
  unfold wait at hs
  by_cases h1 : isbadsem sem
  · rw [if_pos h1] at hs
    rw [← Option.some.inj hs, if_pos (.inl h1)]
  by_cases h2 : (k.semtab sem).sstate = .free
  · rw [if_neg h1, if_pos h2] at hs
    rw [← Option.some.inj hs, if_pos (.inr h2)]
  rw [if_neg h1, if_neg h2] at hs
  rw [if_neg (not_or.mpr ⟨h1, h2⟩)]
  dsimp only at hs
  split_ifs at hs
  · obtain ⟨k', -, hr⟩ := Option.bind_eq_some_iff.mp hs
    rw [← Option.some.inj hr]
  · rw [← Option.some.inj hs]

/-- What the caller of `wait` is told. -/
theorem PortCalled.wait_ret (hcall : PortCalled x y σ (.wait sem) f) (h : KeeperInv (x.sys, σ)) :
    y.sys.cont x.cur = .ret (if (σ sem).isSome then OK else SYSERR) := by
  obtain ⟨k, v, he, hv⟩ := hcall.ret
  obtain ⟨r, hr, he⟩ := returning_some he
  obtain ⟨-, rfl⟩ : _ ∧ v = r.2 := by simpa using he
  rw [hv, wait_value hr]
  by_cases hbad : isbadsem sem ∨ (x.sys.k.semtab sem).sstate = .free
  · have hnone : σ sem = none := h.kept.unused hbad
    rw [if_pos hbad, hnone]
    rfl
  · simp only [not_or] at hbad
    obtain ⟨d, hd, -⟩ : ∃ d, σ sem = some d ∧ _ := h.kept.used hbad.1 (used_of_not_free hbad.2)
    rw [if_neg (not_or.mpr hbad), hd]
    rfl

/-- Who comes is inside, if it may be. -/
theorem PortCalled.inside_come {g : PortFrame → Bool} (hcall : PortCalled x y σ c f)
    (hc : IsProc x.cur) (hg : g f = true) (hret : y.sys.cont x.cur = .ret OK) :
    y.inside g = Insert.insert x.cur (x.inside g) := by
  rw [inside_update hcall.frames (fun pid hpid _ => hcall.cont pid hpid) hc, if_pos ⟨hg, hret⟩]

theorem PortCalled.inside_stay {g : PortFrame → Bool} (hcall : PortCalled x y σ c f)
    (hg : g f = false ∨ y.sys.cont x.cur ≠ .ret OK) : y.inside g = x.inside g := by
  have hidle : x.sys.cont x.cur = .user := hcall.idle
  refine inside_eq hcall.frames (fun pid hpid _ => hcall.cont pid hpid)
    (notMem_inside_of_cont (by rw [hidle]; simp)) ?_
  rcases hg with hg | hg
  · intro hm
    have hat := (mem_inside.mp hm).2.1
    rw [hcall.frames, Function.update_self] at hat
    simp [hg] at hat
  · exact notMem_inside_of_cont hg

theorem PortCalled.live_mono {P : Ports} (hcall : PortCalled { x with ports := P } y σ c f)
    (hstate : ∀ p, (P.porttab p).ptstate = .alloc → x.live p)
    (hf : ∀ p st w, f ≠ .dispose p st w) (hp : y.live p) : x.live p := by
  rcases hp with hp | ⟨pid, st, w, hm⟩
  · rw [hcall.ports] at hp
    exact hstate p hp
  · refine .inr ⟨pid, st, w, ?_⟩
    rw [hcall.frames] at hm
    by_cases hcur : pid = x.cur
    · rw [hcur] at hm ⊢
      rw [show ({ x with ports := P } : PortSys).cur = x.cur from rfl, Function.update_self] at hm
      exact (List.mem_cons.mp hm).resolve_left fun e => hf p st w e.symm
    · rwa [Function.update_of_ne hcur] at hm

/-- What `ptsend` and `ptrecv` do up to `wait`: the frame they leave, and the semaphore. -/
inductive Comes (x : PortSys) (p : Int) : PortFrame → Int → Prop
  | send (msg : Nat) :
    Comes x p (.send p (x.ports.porttab p).ptseq msg) (x.ports.porttab p).ptssem
  | recv : Comes x p (.recv p (x.ports.porttab p).ptseq) (x.ports.porttab p).ptrsem

/-- **Coming to a port changes nothing** that was granted. -/
theorem PortsInv.come (h : PortsInv x asked L n₁ n₂) (hmay : x.mayCall) (husable : x.usable p)
    (hf : Comes x p f sem) (hy : x.call (.wait sem) f = some y) :
    ∃ L', PortsInv y asked L' n₁ n₂ ∧ L'.q = L.q ∧ L'.size = L.size := by
  have hstate : (x.ports.porttab p).ptstate = .alloc := by
    by_contra hne
    exact husable (.inr hne)
  have hcall := PortCalled.of_call (c := .wait sem) h.keeper rfl trivial hy
  have hret := hcall.wait_ret h.keeper
  have hnot : x.cur ∉ x.inside (PortFrame.sends p (x.ports.porttab p).ptseq) ∧
      x.cur ∉ x.inside (PortFrame.receives p (x.ports.porttab p).ptseq) := by
    have hidle : x.sys.cont x.cur = .user := hcall.idle
    exact ⟨notMem_inside_of_cont (by rw [hidle]; simp), notMem_inside_of_cont (by rw [hidle]; simp)⟩
  have hopen := h.opened p hstate
  have hstored : NodesAt x.ports y.live L.fl L.q :=
    h.stored.mono fun _ => hcall.live_mono (P := x.ports) (fun _ => .inl) fun _ _ _ => by
      cases hf <;> simp
  refine ⟨{ L with σ := semSee x.sys (.call (.wait sem)) y.sys L.σ }, ?_, rfl, rfl⟩
  refine h.call_open (P := x.ports) hcall (.inl rfl) hstate (h.all_user hmay.1) (.refl _)
    (fun _ _ => rfl) ?_ ?_ ?_ rfl rfl (fun _ _ => rfl) hstored h.all ?_ (fun _ _ => ⟨rfl, rfl⟩) ?_
  · cases hf
    · exact .inl rfl
    · exact .inr rfl
  · intro q hq
    cases hf <;> exact (Option.some.inj hq).symm
  · cases hf <;> rfl
  · intro _
    rw [hret]
    split_ifs
    · exact .inl rfl
    · exact .inr rfl
  have hother : ∀ s, s ≠ sem → semSee x.sys (.call (.wait sem)) y.sys L.σ s = L.σ s := fun s hs =>
    semSee_of_ne rfl (by simpa [Call.about] using hs.symm)
  have hself : ∀ d, L.σ sem = some d →
      semSee x.sys (.call (.wait sem)) y.sys L.σ sem = some (d.wait x.cur) := by
    intro d hd
    simp only [semSee, Store.apply, Function.update_self, hd, Option.map_some]
  have hcont : ∀ d, L.σ sem = some d → y.sys.cont x.cur = .ret OK := by
    intro d hd
    rw [hret, hd]
    rfl
  refine ⟨?_, ?_, ?_, ?_⟩
  · rw [hcall.ports]
    exact hopen.asked
  · rw [hcall.ports]
    exact hopen.holds
  · rw [hcall.ports]
    obtain ⟨d, hd, hserves⟩ := hopen.sender
    cases hf with
    | send msg =>
      rw [hcall.inside_come (g := PortFrame.sends p _) h.keeper.cur (by simp [PortFrame.sends])
        (hcont d hd)]
      exact ⟨_, hself d hd, hserves.wait hnot.1⟩
    | recv =>
      rw [hcall.inside_stay (g := PortFrame.sends p _) (.inl rfl)]
      exact ⟨d, (hother _ hopen.holds.distinct).trans hd, hserves⟩
  · rw [hcall.ports]
    refine hopen.receiver.imp ?_ ?_
    · rintro ⟨d, hd, hserves⟩
      cases hf with
      | send msg =>
        rw [hcall.inside_stay (g := PortFrame.receives p _) (.inl rfl)]
        exact ⟨d, (hother _ hopen.holds.distinct.symm).trans hd, hserves⟩
      | recv =>
        rw [hcall.inside_come (g := PortFrame.receives p _) h.keeper.cur
          (by simp [PortFrame.receives]) (hcont d hd)]
        exact ⟨_, hself d hd, hserves.wait hnot.2⟩
    · rintro ⟨hbad, hempty⟩
      refine ⟨hbad, ?_⟩
      cases hf with
      | send msg =>
        rw [hcall.inside_stay (g := PortFrame.receives p _) (.inl rfl)]
        exact hempty
      | recv =>
        have hnone : L.σ (x.ports.porttab p).ptrsem = none := h.keeper.kept.inTable _ hbad
        rw [hcall.inside_stay (.inr (by rw [hret, hnone]; decide))]
        exact hempty

/-! ## 5. Going on behind the `wait`

A process that goes on finds its port as it left it, or closed or opened anew in the meantime; the
sequence number tells.  In the first case it moves a node between the free list and the queue and
signals the other semaphore, in the others it returns `SYSERR`. -/

/-- What is known of a counting semaphore in use. -/
theorem KeeperInv.counter {d : Counter Int} (h : KeeperInv (s, σ)) (hd : σ sem = some d) :
    ¬ isbadsem sem ∧ (s.k.semtab sem).sstate = .used ∧ (s.k.semtab sem).scount = d.count ∧
      waitList s.k sem = d.waiting ∧ d.waiting.Nodup := by
  have hgood : ¬ isbadsem sem := by
    intro hbad
    have hnone : σ sem = none := h.kept.inTable sem hbad
    rw [hnone] at hd
    simp at hd
  have hs := h.kept.shows sem hgood
  rw [show (s, σ).2 sem = some d from hd] at hs
  refine ⟨hgood, hs.1, hs.2.2.count, hs.2.2.list, ?_⟩
  rw [← hs.2.2.list]
  exact h.agree.once sem hgood

/-- The process is in no `wait` that grants it anything at an open port. -/
def Outside (x : PortSys) : Prop := ∀ p, (x.ports.porttab p).ptstate = .alloc →
  x.cur ∉ x.inside (PortFrame.sends p (x.ports.porttab p).ptseq) ∧
    x.cur ∉ x.inside (PortFrame.receives p (x.ports.porttab p).ptseq)

theorem PortsInv.of_eq (h : PortsInv x asked L n₁ n₂)
    (hn : ∀ p, (x.ports.porttab p).ptstate = .alloc → n₁' p = n₁ p ∧ n₂' p = n₂ p) :
    PortsInv x asked L n₁' n₂' := by
  refine { h with opened := fun p hp => ?_ }
  rw [(hn p hp).1, (hn p hp).2]
  exact h.opened p hp

theorem PortsInv.reply (h : PortsInv x asked L n₁ n₂) (v : Int) :
    PortsInv (x.reply v) asked L n₁ n₂ :=
  ⟨h.keeper, h.alive, h.next, h.range, h.stored, h.all, h.empty, h.inner, h.waits,
    fun p hp => ⟨(h.opened p hp).asked, (h.opened p hp).holds, (h.opened p hp).sender,
      (h.opened p hp).receiver⟩, h.clears, h.once, h.owned, h.fresh, h.queued⟩

/-- The current process goes back to its other frames, where it was granted nothing. -/
theorem AtRest.back (h : AtRest x asked L) (hf : x.frames x.cur = f :: fs)
    (hkeeper : KeeperInv ((x.returned fs).sys, L.σ)) (hout : Outside x) :
    AtRest (x.returned fs) asked L := by
  refine (PortsInv.pop h hf hkeeper).of_eq fun p hp => ?_
  have h1 := hout p hp
  rw [present, present, if_neg h1.1, if_neg h1.2, sub_zero, sub_zero]
  exact ⟨rfl, rfl⟩

/-- A process in a frame that is no `wait` is outside. -/
theorem outside_of_head (hf : x.frames x.cur = f :: fs) (hat : ∀ p seq, f.isAt p seq = false) :
    Outside x := by
  intro p _
  have hno := hat p (x.ports.porttab p).ptseq
  rw [PortFrame.isAt, Bool.or_eq_false_iff] at hno
  refine ⟨fun hm => ?_, fun hm => ?_⟩
  all_goals
    have hany := (mem_inside.mp hm).2.1
    rw [hf] at hany
    simp [hno] at hany

/-- And so is one whose port was closed while it waited. -/
theorem outside_of_closed {v seq : Int} (hf : x.frames x.cur = f :: fs)
    (hat : ∀ p' seq', f.isAt p' seq' = true → p' = p ∧ seq' = seq)
    (hcont : x.sys.cont x.cur = .ret v) (hclosed : ¬ x.stillOpen p seq v) : Outside x := by
  intro p' hp'
  have hno : ∀ g : PortFrame → Bool,
      (g f = true → f.isAt p' (x.ports.porttab p').ptseq = true) → x.cur ∉ x.inside g := by
    intro g hg hm
    obtain ⟨-, hany, hret⟩ := mem_inside.mp hm
    rw [hf, List.head?_cons, Option.any_some] at hany
    obtain ⟨rfl, hseq⟩ := hat _ _ (hg hany)
    rw [hcont] at hret
    obtain rfl : v = OK := by simpa using hret
    refine hclosed (not_or.mpr ⟨by decide, not_or.mpr ⟨not_not.mpr hp', not_not.mpr hseq⟩⟩)
  exact ⟨hno _ fun e => by simp [PortFrame.isAt, e], hno _ fun e => by simp [PortFrame.isAt, e]⟩

/-- What the `signal` of an open port grants: to senders, or to receivers. -/
def Grants (e : Ptentry) (sem m₁ m₂ k₁ k₂ : Int) : Prop :=
  sem = e.ptssem ∧ k₁ = m₁ + 1 ∧ k₂ = m₂ ∨ sem = e.ptrsem ∧ k₁ = m₁ ∧ k₂ = m₂ + 1

/-- **The second half of `ptsend` and `ptrecv`**: nodes are moved, and the other side is signalled.
-/
theorem PortsInv.pass {P : Ports} {fl' : List Nat} {q' : Int → List Nat} {value : Int}
    (h : PortsInv x asked L n₁ n₂) (hstate : (x.ports.porttab p).ptstate = .alloc)
    (huser : ∀ g ∈ x.frames x.cur, g.isUser = true) (hkeys : SameKeys x.ports P)
    (hports : ∀ p', p' ≠ p → P.porttab p' = x.ports.porttab p')
    (hstored : NodesAt P x.live fl' q') (hq : ∀ p', p' ≠ p → q' p' = L.q p')
    (hall : ∀ i < L.size, i ∈ fl' ∨ ∃ p, i ∈ q' p)
    (hgrants : Grants (x.ports.porttab p) sem (n₁ p) (n₂ p) (n₁' p) (n₂' p))
    (hmax : n₁' p ≤ maxCount ∧ n₂' p ≤ maxCount)
    (hn : ∀ p', p' ≠ p → n₁' p' = n₁ p' ∧ n₂' p' = n₂ p')
    (hy : ({ x with ports := P } : PortSys).call (.signal sem) (.signal value) = some y) :
    PortsInv y asked
      { L with σ := semSee x.sys (.call (.signal sem)) y.sys L.σ, fl := fl', q := q' } n₁' n₂' := by
  have hopen := h.opened p hstate
  have hrange : InRange x.sys (.call (.signal sem)) := by
    intro hgood hused
    obtain ⟨d, hd, -, hh⟩ := h.keeper.kept.used hgood hused
    have hcount : d.count + 1 ≤ maxCount := by
      rcases hgrants with ⟨rfl, h1, -⟩ | ⟨rfl, -, h2⟩
      · obtain ⟨d', hd', hserves⟩ := hopen.sender
        obtain rfl : d' = d := Option.some.inj (hd'.symm.trans hd)
        have := hserves.total
        omega
      · rcases hopen.receiver with ⟨d', hd', hserves⟩ | ⟨hbad, -⟩
        · obtain rfl : d' = d := Option.some.inj (hd'.symm.trans hd)
          have := hserves.total
          omega
        · exact absurd hbad hgood
    have hcount' := hh.count
    simp only at hcount'
    omega
  have hcall := PortCalled.of_call (c := .signal sem) (x := { x with ports := P }) h.keeper rfl
    hrange hy
  have hother : ∀ s, s ≠ sem → semSee x.sys (.call (.signal sem)) y.sys L.σ s = L.σ s :=
    fun s hs => semSee_of_ne rfl (by simpa [Call.about] using hs.symm)
  have hself : ∀ d, L.σ sem = some d →
      semSee x.sys (.call (.signal sem)) y.sys L.σ sem = some (d.signal 1) := by
    intro d hd
    simp only [semSee, Store.apply, Function.update_self, hd, Option.map_some]
  have hstay : ∀ g : PortFrame → Bool, g (.signal value) = false → y.inside g = x.inside g :=
    fun g hg => hcall.inside_stay (.inl hg)
  refine h.call_open hcall (.inr rfl) hstate huser hkeys hports ?_ (fun q hq => ?_) rfl rfl rfl hq
    (hstored.mono fun _ => hcall.live_mono (fun p' hp' => .inl ?_) (by simp)) hall ?_ hn
    ⟨?_, ?_, ?_, ?_⟩
  · exact hgrants.imp (fun e => e.1) fun e => e.1
  · exact absurd hq (by simp [PortFrame.port])
  · rwa [hkeys.state] at hp'
  · rintro ⟨p', seq, hat⟩
    simp [PortFrame.isAt, PortFrame.sends, PortFrame.receives] at hat
  · rw [hcall.ports, hkeys.maxcnt]
    exact hopen.asked
  · rw [hcall.ports]
    refine ⟨?_, ?_, ?_⟩
    · rw [hkeys.ssem]
      exact hopen.holds.sender
    · rw [hkeys.rsem]
      exact hopen.holds.receiver
    · rw [hkeys.ssem, hkeys.rsem]
      exact hopen.holds.distinct
  · rw [hcall.ports, hkeys.ssem, hkeys.seq, hstay (PortFrame.sends p _) rfl]
    obtain ⟨d, hd, hserves⟩ := hopen.sender
    rcases hgrants with ⟨rfl, h1, -⟩ | ⟨rfl, h1, -⟩
    · rw [h1]
      exact ⟨_, hself d hd, hserves.signal 1⟩
    · rw [h1]
      exact ⟨d, (hother _ hopen.holds.distinct).trans hd, hserves⟩
  · rw [hcall.ports, hkeys.rsem, hkeys.seq, hstay (PortFrame.receives p _) rfl]
    refine hopen.receiver.imp_left ?_
    rintro ⟨d, hd, hserves⟩
    rcases hgrants with ⟨rfl, -, h2⟩ | ⟨rfl, -, h2⟩
    · rw [h2]
      exact ⟨d, (hother _ hopen.holds.distinct.symm).trans hd, hserves⟩
    · rw [h2]
      exact ⟨_, hself d hd, hserves.signal 1⟩

theorem present_of_mem {g : PortFrame → Bool} (h : pid ∈ x.inside g) : present x pid g = 1 :=
  if_pos h

theorem present_of_notMem {g : PortFrame → Bool} (h : pid ∉ x.inside g) : present x pid g = 0 :=
  if_neg h

/-- The room that an open port has left. -/
theorem OpenPort.room_nonneg {n m₁ m₂ : Int} (h : OpenPort x L n m₁ m₂ p)
    (hkeeper : KeeperInv (x.sys, L.σ)) : 0 ≤ m₁ := by
  obtain ⟨d, hd, hserves⟩ := h.sender
  exact hserves.nonneg (hkeeper.counter hd).2.2.2.2

/-- A port that a process has found open behind its `wait`. -/
theorem stillOpen_iff {seq v : Int} : x.stillOpen p seq v ↔
    v ≠ SYSERR ∧ (x.ports.porttab p).ptstate = .alloc ∧ (x.ports.porttab p).ptseq = seq := by
  simp only [PortSys.stillOpen, not_or, not_not]

theorem length_update_of_ne {q : Int → List Nat} {p' : Int} (l : List Nat) (h : p' ≠ p) :
    (Function.update q p l p').length = (q p').length := by rw [Function.update_of_ne h]

/-- What the port `p` grants to the process that goes on there: nothing at other ports. -/
theorem present_elsewhere {p' : Int} (seq : Int) (hf : x.frames x.cur = f :: fs)
    (hport : f.port = some p) (hp' : p' ≠ p) : present x x.cur (PortFrame.sends p' seq) = 0 ∧
      present x x.cur (PortFrame.receives p' seq) = 0 := by
  have hout := onlyAt_of_head (p := p) (by rw [hf]; rfl) (fun q hq => by
    rw [hport] at hq
    exact (Option.some.inj hq).symm) p' hp' seq
  exact ⟨present_of_notMem hout.1, present_of_notMem hout.2⟩

theorem enqueueMsg_elsewhere {P P' : Ports} {p' : Int} {msg : Nat}
    (h : P.enqueueMsg p msg = some P') (hp' : p' ≠ p) : P'.porttab p' = P.porttab p' := by
  obtain ⟨i, -, rfl⟩ := Option.map_eq_some_iff.mp h
  dsimp only
  split
  · exact setPort_of_ne _ _ hp'
  · exact setPort_of_ne _ _ hp'

theorem dequeueMsg_elsewhere {P : Ports} {r : Ports × Nat} {p' : Int}
    (h : P.dequeueMsg p = some r) (hp' : p' ≠ p) : r.1.porttab p' = P.porttab p' := by
  obtain ⟨i, -, rfl⟩ := Option.map_eq_some_iff.mp h
  dsimp only
  rw [setNext_porttab]
  split_ifs
  · exact setPort_of_ne _ _ hp'
  · exact setPort_of_ne _ _ hp'

/-- What a `wait` of the port routines returns. -/
theorem PortsInv.ret_ok {v : Int} (seq : Int) (h : PortsInv x asked L n₁ n₂)
    (hf : x.frames x.cur = f :: fs) (hat : f.isAt p seq = true)
    (hcont : x.sys.cont x.cur = .ret v) (hv : v ≠ SYSERR) : v = OK := by
  rcases h.waits x.cur f fs hf ⟨p, seq, hat⟩ with hw | hw
  · exact Cont.ret.inj (hcont.symm.trans hw)
  · exact absurd (Cont.ret.inj (hcont.symm.trans hw)) hv

/-- **`ptsend` goes on behind its `wait`.** -/
theorem AtRest.go_send {seq v : Int} {msg : Nat} (h : AtRest x asked L)
    (hf : x.frames x.cur = .send p seq msg :: fs) (hcont : x.sys.cont x.cur = .ret v)
    (hy : (x.returned fs).resume v (.send p seq msg) = some y) :
    ∃ L', AtRest y asked L' ∧ L'.size = L.size := by
  have hkeeper := h.keeper.returned hcont fs
  have hz := PortsInv.pop h hf hkeeper
  by_cases hopen : x.stillOpen p seq v
  swap
  · obtain rfl := Option.some.inj ((if_neg hopen).symm.trans hy)
    refine ⟨L, (AtRest.back h hf hkeeper (outside_of_closed hf (fun p' seq' hat => ?_) hcont
      hopen)).reply _, rfl⟩
    have he : p = p' ∧ seq = seq' := by
      simpa [PortFrame.isAt, PortFrame.sends, PortFrame.receives] using hat
    exact ⟨he.1.symm, he.2.symm⟩
  obtain ⟨P, hP, hcall⟩ := Option.bind_eq_some_iff.mp ((if_pos hopen).symm.trans hy)
  obtain ⟨hv, hstate, hseq⟩ := stillOpen_iff.mp hopen
  obtain rfl := h.ret_ok (p := p) seq hf (by simp [PortFrame.isAt, PortFrame.sends]) hcont hv
  -- the process was granted one of the places that are left
  have hin : present x x.cur (PortFrame.sends p (x.ports.porttab p).ptseq) = 1 :=
    present_of_mem (mem_inside.mpr ⟨h.keeper.cur, by simp [hf, hseq, PortFrame.sends], hcont⟩)
  have hout : present x x.cur (PortFrame.receives p (x.ports.porttab p).ptseq) = 0 :=
    present_of_notMem fun hm => by
      have hat := (mem_inside.mp hm).2.1
      simp [hf, PortFrame.receives] at hat
  obtain ⟨i, fl', hfl, hstored, hkeys⟩ := NodesAt.enqueue hz.stored (.inl hstate) hP
  have hroom := (hz.opened p hstate).room_nonneg hkeeper
  have hasked := (hz.opened p hstate).asked.2.1
  have hlen : ((Function.update L.q p (L.q p ++ [i]) p).length : Int) = (L.q p).length + 1 := by
    rw [Function.update_self, List.length_append, List.length_singleton]
    push_cast
    rfl
  simp only [hin] at hroom
  refine ⟨_, PortsInv.pass (p := p) hz hstate ?_ hkeys (fun p' => enqueueMsg_elsewhere hP)
    hstored (fun p' hp' => Function.update_of_ne hp' ..) (fun j hj => ?_) (.inr ⟨rfl, ?_, ?_⟩) ?_
    (fun p' hp' => ?_) hcall, rfl⟩
  · rw [returned_cur, returned_frames]
    exact h.inner x.cur _ fs hf
  · rcases h.all j hj with hm | ⟨p', hm⟩
    · rw [hfl] at hm
      rcases List.mem_cons.mp hm with rfl | hm
      · exact .inr ⟨p, by simp⟩
      · exact .inl hm
    · refine .inr ⟨p', ?_⟩
      by_cases hp' : p' = p
      · subst hp'
        simp [hm]
      · rwa [Function.update_of_ne hp']
  · simp only [hlen, hin]
    omega
  · simp only [hlen, hout]
    omega
  · simp only [hlen]
    omega
  · obtain ⟨h1, h2⟩ := present_elsewhere (x.ports.porttab p').ptseq hf rfl hp'
    simp only [length_update_of_ne _ hp', h1, h2, sub_zero, and_self]

/-- **`ptrecv` goes on behind its `wait`.** -/
theorem AtRest.go_recv {seq v : Int} (h : AtRest x asked L)
    (hf : x.frames x.cur = .recv p seq :: fs) (hcont : x.sys.cont x.cur = .ret v)
    (hy : (x.returned fs).resume v (.recv p seq) = some y) :
    ∃ L', AtRest y asked L' ∧ L'.size = L.size := by
  have hkeeper := h.keeper.returned hcont fs
  have hz := PortsInv.pop h hf hkeeper
  by_cases hopen : x.stillOpen p seq v
  swap
  · obtain rfl := Option.some.inj ((if_neg hopen).symm.trans hy)
    refine ⟨L, (AtRest.back h hf hkeeper (outside_of_closed hf (fun p' seq' hat => ?_) hcont
      hopen)).reply _, rfl⟩
    have he : p = p' ∧ seq = seq' := by
      simpa [PortFrame.isAt, PortFrame.sends, PortFrame.receives] using hat
    exact ⟨he.1.symm, he.2.symm⟩
  obtain ⟨r, hr, hcall⟩ := Option.bind_eq_some_iff.mp ((if_pos hopen).symm.trans hy)
  obtain ⟨hv, hstate, hseq⟩ := stillOpen_iff.mp hopen
  obtain rfl := h.ret_ok (p := p) seq hf (by simp [PortFrame.isAt, PortFrame.receives])
    hcont hv
  have hin : present x x.cur (PortFrame.receives p (x.ports.porttab p).ptseq) = 1 :=
    present_of_mem (mem_inside.mpr ⟨h.keeper.cur, by simp [hf, hseq, PortFrame.receives], hcont⟩)
  have hout : present x x.cur (PortFrame.sends p (x.ports.porttab p).ptseq) = 0 :=
    present_of_notMem fun hm => by
      have hat := (mem_inside.mp hm).2.1
      simp [hf, PortFrame.sends] at hat
  obtain ⟨i, l, hl, -, hstored, hkeys⟩ := NodesAt.dequeue hz.stored (.inl hstate) hr
  have hroom := (hz.opened p hstate).room_nonneg hkeeper
  have hasked := (hz.opened p hstate).asked.2.1
  have hlen : ((L.q p).length : Int) = (Function.update L.q p l p).length + 1 := by
    rw [Function.update_self, hl, List.length_cons]
    push_cast
    rfl
  simp only [hout] at hroom
  refine ⟨_, PortsInv.pass (p := p) hz hstate ?_ hkeys (fun p' => dequeueMsg_elsewhere hr)
    hstored (fun p' hp' => Function.update_of_ne hp' ..) (fun j hj => ?_) (.inl ⟨rfl, ?_, ?_⟩) ?_
    (fun p' hp' => ?_) hcall, rfl⟩
  · rw [returned_cur, returned_frames]
    exact h.inner x.cur _ fs hf
  · rcases h.all j hj with hm | ⟨p', hm⟩
    · exact .inl (List.mem_cons_of_mem _ hm)
    · by_cases hp' : p' = p
      · subst hp'
        rw [hl] at hm
        rcases List.mem_cons.mp hm with rfl | hm
        · exact .inl List.mem_cons_self
        · exact .inr ⟨p', by simpa using hm⟩
      · exact .inr ⟨p', by rwa [Function.update_of_ne hp']⟩
  · simp only [hlen, hout]
    omega
  · simp only [hlen, hin]
    omega
  · simp only [hlen] at hroom ⊢
    omega
  · obtain ⟨h1, h2⟩ := present_elsewhere (x.ports.porttab p').ptseq hf rfl hp'
    simp only [length_update_of_ne _ hp', h1, h2, sub_zero, and_self]

end Xinu
