/-
# A port admits as many messages as were asked for

Every step keeps the invariant of the ports, as long as nobody else touches their semaphores, a
sender's semaphore can be made, a count that is reset fits its field, and no process is still inside
a routine with the sequence number that a port is about to get (`CountFits`).  So the sends that a
port admits are what was asked for, less the messages in its queue and the senders that were let
through and have not gone on (`port_capacity`).

Two things are put together here.  The step lemma (`AtRest.step`) sorts the events: what a process
does of its own accord, `ptinit` and `ptcreate`, coming to a port, and going on in a port
routine.  And the sum that the invariant keeps for an open port is solved for the sends that would
pass now (`AtRest.room_eq`), which is what the semaphore's count shows.
-/
import Xinu.PortClear

namespace Xinu

open Counting

variable {x y : PortSys} {asked : Int → Int} {L : Ledger} {n₁ n₂ : Int → Int}
  {p pid sem : Int} {e : Event} {s t : Sys} {σ : Store}

/-! ## 1. The process's own code

Outside the port routines a process may call whatever it likes, except that it leaves the
semaphores of the ports alone and ends nobody who is inside a routine.  Then no port notices, and
a process it makes is at no port. -/

/-- The port ids. -/
def portIds : Finset Int := (Finset.range NPORTS.toNat).map Nat.castEmbedding

theorem mem_portIds : p ∈ portIds ↔ ¬ isbadport p := by
  simp only [portIds, Finset.mem_map, Finset.mem_range, Nat.castEmbedding_apply, isbadport]
  constructor
  · rintro ⟨i, hi, rfl⟩
    omega
  · intro h
    exact ⟨p.toNat, by omega, by omega⟩

/-- The call leaves the semaphores of the ports alone, and kills nobody in a port routine. -/
def KeepsOff (x : PortSys) (c : Call) : Prop :=
  (∀ q ∈ portIds, PortInUse x.ports q →
    c.about ≠ some (x.ports.porttab q).ptssem ∧ c.about ≠ some (x.ports.porttab q).ptrsem) ∧
  ((c.victim x.sys.k).all fun pid => (x.frames pid).isEmpty) = true

/-- A process that lives stays so, if no call ends it. -/
theorem step_survives (h : SysInv False s) (hs : step s e = some t)
    (hl : (s.k.proctab pid).prstate ≠ .free) (hv : ∀ c, e = .call c → c.victim s.k ≠ some pid) :
    (t.k.proctab pid).prstate ≠ .free := by
  cases e with
  | call c =>
    obtain ⟨r, hc⟩ := call_step h False.elim hs
    have hm : c.made r.2 ≠ some pid := fun hm => hl (hc.made pid hm)
    rcases hc.stays pid hm with hst | ⟨hv', -⟩
    · exact fun hf => hl (hst.life.mp hf)
    · exact absurd hv' (hv c rfl)
  | finish =>
    obtain ⟨r, hr, rfl⟩ := Option.map_eq_some_iff.mp hs
    obtain ⟨-, hst, -⟩ := finish_spec h.kernel h.alive hr
    exact fun hf => hl ((hst pid).life.mp hf)
  | callback =>
    obtain ⟨hb, -⟩ := callback_bland hs
    exact fun hf => hl ((hb.life pid).mp hf)
  | tick =>
    simp only [Xinu.step] at hs
    split_ifs at hs with hg
    obtain ⟨k₁, h1, rfl⟩ := Option.map_eq_some_iff.mp hs
    have hst := (clkhandler_keeps h.kernel.settled h1).quiet.stays pid
    exact fun hf => hl (hst.life.mp hf)
  | store a v =>
    simp only [Xinu.step] at hs
    split_ifs at hs with hg
    obtain rfl := Option.some.inj hs
    exact hl

/-- A step changes where the current process is, and where a process is that it makes. -/
theorem step_cont (hs : step s e = some t) (hp : pid ≠ s.k.currpid) (hm : e.made s.k ≠ some pid) :
    t.cont pid = s.cont pid := by
  cases e with
  | call c =>
    simp only [Xinu.step] at hs
    split_ifs at hs with hg
    obtain ⟨r, hr, rfl⟩ := Option.map_eq_some_iff.mp hs
    have hm' : c.made r.2 ≠ some pid := by simpa [Event.made, hr] using hm
    simp only [assignAt_of_ne hm', Function.update_of_ne hp]
  | finish =>
    obtain ⟨r, hr, rfl⟩ := Option.map_eq_some_iff.mp hs
    exact Function.update_of_ne hp ..
  | callback =>
    simp only [Xinu.step] at hs
    split_ifs at hs
    · obtain rfl := Option.some.inj hs
      rfl
    · obtain rfl := Option.some.inj hs
      rfl
  | tick =>
    simp only [Xinu.step] at hs
    split_ifs at hs with hg
    obtain ⟨k₁, h1, rfl⟩ := Option.map_eq_some_iff.mp hs
    exact Function.update_of_ne hp ..
  | store a v =>
    simp only [Xinu.step] at hs
    split_ifs at hs with hg
    obtain rfl := Option.some.inj hs
    rfl

/-- **What the keeper does not hear of.** -/
theorem semSee_keeps {d : Counter Int} (h : KeeperInv (s, σ)) (hs : step s e = some t)
    (hd : σ sem = some d) (hoff : ∀ c, e = .call c → c.about ≠ some sem)
    (hkill : ∀ c v, e = .call c → c.victim s.k = some v → v ∉ d.waiting) :
    semSee s e t σ sem = some d := by
  cases e with
  | call c =>
    have habout := hoff c rfl
    have hne : ∀ sem', c.about = some sem' → sem ≠ sem' := by
      rintro sem' h1 rfl
      exact habout h1
    cases c with
    | wait sem' | signal sem' | semdelete sem' =>
      exact (Function.update_of_ne (hne sem' rfl) ..).trans hd
    | signaln sem' n | semreset sem' n =>
      simp only [semSee]
      split_ifs
      · exact hd
      · exact (Function.update_of_ne (hne sem' rfl) ..).trans hd
    | kill pid =>
      simp only [semSee, hd, Option.map_some]
      rw [Counter.withdraw_of_notMem (hkill _ pid rfl rfl)]
    | semcreate n =>
      -- the semaphore that is made was free
      simp only [Xinu.step] at hs
      split_ifs at hs with hg
      obtain ⟨r, hr, rfl⟩ := Option.map_eq_some_iff.mp hs
      obtain rfl := Option.some.inj hr
      have hcont : ∀ f : Int → Cont, assignAt ((Call.semcreate n).made
          (.ret (semcreate n s.k).2)) .user (Function.update f s.k.currpid
            (.ret (semcreate n s.k).2)) s.k.currpid = .ret (semcreate n s.k).2 := fun f =>
        Function.update_self ..
      simp only [semSee, hcont]
      split_ifs with herr
      · exact hd
      · rcases (semcreate_spec h.ids.next n).2 with ⟨h1, -⟩ | ⟨-, -, hfree, -⟩
        · exact absurd h1 herr
        · refine (Function.update_of_ne ?_ ..).trans hd
          rintro rfl
          rw [(h.counter hd).2.1] at hfree
          simp at hfree
    | _ => exact hd
  | _ => exact hd

/-- A process that is made was in no port routine. -/
theorem PortsInv.frames_made (h : PortsInv x asked L n₁ n₂) (hs : Xinu.step x.sys e = some s) :
    assignAt (e.made x.sys.k) [] x.frames = x.frames := by
  cases hm : e.made x.sys.k with
  | none => rfl
  | some pid =>
    refine Function.update_eq_self_iff.mpr ?_
    by_contra hne
    cases e with
    | call c =>
      obtain ⟨r, hc⟩ := call_step h.keeper.sys False.elim hs
      have hm' : c.made r.2 = some pid := by simpa [Event.made, hc.enter] using hm
      exact (h.alive pid (Ne.symm hne)).2 (hc.made pid hm')
    | _ => simp [Event.made] at hm

/-- Who executes its own code is in no `wait` of a port. -/
theorem onlyAt_of_user (hu : (x.frames pid).head?.all PortFrame.isUser = true) (p : Int) :
    OnlyAt x pid p := by
  have hno : ∀ g : PortFrame → Bool, (∀ f : PortFrame, f.isUser = true → g f = false) →
      pid ∉ x.inside g := by
    intro g hg hm
    have hany := (mem_inside.mp hm).2.1
    rcases hfs : x.frames pid with _ | ⟨f, fs⟩
    · simp [hfs] at hany
    · rw [hfs] at hany hu
      rw [List.head?_cons, Option.any_some, hg f hu] at hany
      simp at hany
  intro q _ seq
  refine ⟨hno _ fun f hf => ?_, hno _ fun f hf => ?_⟩
  · cases f with
    | dispose => rfl
    | _ => simp [PortFrame.isUser] at hf
  · cases f with
    | dispose => rfl
    | _ => simp [PortFrame.isUser] at hf

/-- A user's frame is no `wait`. -/
theorem user_not_wait {f : PortFrame} {fs : List PortFrame} {seq : Int} (hu : x.user)
    (hf : x.frames x.cur = f :: fs) (hat : f.isAt p seq = true) : False := by
  rw [PortSys.user, hf] at hu
  cases f <;> simp [PortFrame.isAt, PortFrame.sends, PortFrame.receives,
    PortFrame.isUser] at hat hu

/-- **The step rule when no port is concerned.** -/
theorem PortsInv.step_nowhere {asked' : Int → Int} {L' : Ledger} {F : List PortFrame}
    (h : PortsInv x asked L n₁ n₂) (he : Elsewhere x y asked asked' L L' F (-1))
    (hk : KeeperInv (y.sys, L'.σ)) (hrun : F ≠ [] → (y.sys.k.proctab x.cur).prstate ≠ .free)
    (hnext : 0 ≤ y.ports.ptnextid ∧ y.ports.ptnextid < NPORTS)
    (hports : y.ports.porttab (-1) = x.ports.porttab (-1)) (hown : L'.own = L.own)
    (hclears : ∀ pid, ∀ g ∈ y.frames pid, g ∈ x.frames pid)
    (hq : L'.q (-1) = L.q (-1)) (hstored : NodesAt y.ports y.live L'.fl L'.q)
    (hall : ∀ i < L'.size, i ∈ L'.fl ∨ ∃ p, i ∈ L'.q p)
    (hinner : ∀ f fs, F = f :: fs → ∀ g ∈ fs, g.isUser = true)
    (hwait : ∀ f fs, F = f :: fs → (∃ p seq, f.isAt p seq = true) →
      y.sys.cont x.cur = .ret OK ∨ y.sys.cont x.cur = .ret SYSERR)
    (honce : (∀ pid, (y.busy pid).Nodup) ∧
      ∀ pid pid', ∀ p ∈ y.busy pid, p ∈ y.busy pid' → pid = pid') :
    PortsInv y asked' L' n₁ n₂ := by
  have hunset : (y.ports.porttab (-1)).ptstate = .unset := by
    rw [hports]
    exact h.range (-1) (by decide)
  have hnone : ∀ s, L'.own s ≠ some (-1) := by
    intro s hs
    rw [hown] at hs
    obtain ⟨huse, -, -⟩ := h.owned s _ hs
    rw [PortInUse, ← hports, hunset] at huse
    simp at huse
  refine @PortsInv.step _ _ _ _ _ _ _ _ _ _ (-1) F h he hk hrun hnext (fun _ => hunset) hstored
    hall (fun _ => ?_) hinner hwait (fun _ _ => ⟨rfl, rfl⟩) (fun hs => ?_)
      (fun pid g hg hc => ?_) honce
    (fun s hs => absurd hs (hnone s)) (fun hl => ?_) fun s _ hs => absurd hs (hnone s)
  · rw [hq]
    refine h.empty _ ?_
    rw [PortInUse, ← hports, hunset]
    simp
  · rw [hunset] at hs
    simp at hs
  · have hlimbo := (h.clears pid g (hclears pid g hg)).limbo hc
    rw [← hports, hunset] at hlimbo
    simp at hlimbo
  · rw [hunset] at hl
    simp at hl

/-- **A step of the process's own code.** -/
theorem AtRest.base (h : AtRest x asked L) (hu : x.user) (hrange : InRange x.sys e)
    (hoff : ∀ c, e = .call c → KeepsOff x c) (hs : Xinu.step x.sys e = some s) :
    ∃ L', AtRest { x with sys := s, frames := assignAt (e.made x.sys.k) [] x.frames } asked L' ∧
      L'.size = L.size := by
  have hframes := PortsInv.frames_made h hs
  rw [hframes]
  -- the victim of a call is in no port routine
  have hvictim : ∀ c v, e = .call c → c.victim x.sys.k = some v → x.frames v = [] := by
    intro c v hc hv
    have hall := (hoff c hc).2
    rw [hv] at hall
    exact List.isEmpty_iff.mp hall
  have hkept : ∀ sem q d, L.own sem = some q → L.σ sem = some d →
      semSee x.sys e s L.σ sem = some d := by
    intro sem q d hown hd
    obtain ⟨huse, -, hsem⟩ := h.owned sem q hown
    refine semSee_keeps h.keeper hs hd (fun c hc => ?_) fun c v hc hv hm =>
      h.queued sem q d hown hd v hm (hvictim c v hc hv)
    have hq : q ∈ portIds := mem_portIds.mpr fun hb => by
      rw [PortInUse, h.range q hb] at huse
      simp at huse
    obtain ⟨h1, h2⟩ := (hoff c hc).1 q hq huse
    rcases hsem with rfl | rfl
    · exact h1
    · exact h2
  have hsome : ∀ sem q, L.own sem = some q → semSee x.sys e s L.σ sem = L.σ sem := by
    intro sem q hown
    obtain ⟨d, hd⟩ := Option.ne_none_iff_exists'.mp (h.owned sem q hown).2.1
    rw [hkept sem q d hown hd, hd]
  refine ⟨{ L with σ := semSee x.sys e s L.σ },
    PortsInv.step_nowhere (F := x.frames x.cur) h
    ⟨(Function.update_eq_self ..).symm, fun pid hp hf => ?_, fun pid hp hf hl => ?_,
      fun _ _ => rfl, fun _ _ => rfl, fun _ _ => rfl, fun _ _ _ => Iff.rfl,
      fun s q _ hown => hsome s q hown, onlyAt_of_user hu _,
      onlyAt_of_user (x := { x with sys := s }) hu _, fun _ hg => .inl hg⟩
    (h.keeper.step hrange hs).1 (fun hne => ?_) h.next rfl rfl (fun _ _ => id) rfl h.stored h.all
    (h.inner x.cur) ?_ h.once, rfl⟩
  · refine step_cont hs hp fun hm => hf ?_
    rw [hm] at hframes
    exact Function.update_eq_self_iff.mp hframes |>.symm
  · exact step_survives h.keeper.sys hs hl fun c hc hv => hf (hvictim c pid hc hv)
  · exact step_survives h.keeper.sys hs (h.alive _ hne).2 fun c hc hv =>
      hne (hvictim c _ hc hv)
  · rintro f fs hf ⟨q, seq, hat⟩
    exact (user_not_wait hu hf hat).elim

/-! ## 2. `ptinit` and `ptcreate`

`ptinit` links all nodes into the free list and makes all ports free.  `ptcreate` takes a free
port and makes two semaphores, one counting what was asked for and one counting nothing; when the
second cannot be made the code does not look, so that case is excluded by the condition.  A port
that is opened gets the next sequence number, and nobody may still have that number in a frame. -/

/-- **A kernel call that returns at once** inside a routine that cannot be switched out. -/
theorem KeeperInv.through {c : Call} {k' : Kernel} {v : Int} (h : KeeperInv (s, σ))
    (hidle : s.idle) (hdivert : s.divert s.k.currpid = false) (hnull : s.k.currpid ≠ NULLPROC)
    (hrange : InRange s (.call c)) (he : c.enter s.k = some (k', .ret v))
    (hmade : c.made (.ret v) = none) (hdiverts : c.diverts s.k = none)
    (hcur : k'.currpid = s.k.currpid) :
    KeeperInv ({ s with k := k' }, semSee s (.call c) ⟨k', Function.update s.cont s.k.currpid
      (.ret v), s.divert⟩ σ) := by
  have hidle' : s.cont s.k.currpid = .user := hidle
  have h1 : Xinu.step s (.call c) =
      some ⟨k', Function.update s.cont s.k.currpid (.ret v), s.divert⟩ := by
    simp only [Xinu.step]
    rw [if_pos ⟨hidle, hdivert, fun e => absurd e hnull⟩, he]
    simp only [Option.map_some, hmade, hdiverts, assignAt]
  have h2 : Xinu.step ⟨k', Function.update s.cont s.k.currpid (.ret v), s.divert⟩ .finish =
      some { s with k := k' } := by
    simp only [Xinu.step, hcur, Function.update_self, finishCall, Option.map_some,
      Function.update_idem]
    rw [← hidle', Function.update_eq_self]
  exact ((h.step hrange h1).1.step (e := .finish) trivial h2).1

/-- `getmem` touches the heap only. -/
theorem getmem_heap {k : Kernel} {n : Nat} {r : Kernel × Nat} (h : k.getmem n = some r) :
    ∃ hp, r.1 = k.setHeap hp := by
  obtain ⟨z, -, hz⟩ := Option.bind_eq_some_iff.mp h
  exact ⟨z.1, by rw [← Option.some.inj hz]⟩

theorem ptinitLoop_ptnextid (n curr : Nat) (P : Ports) :
    (ptinitLoop n curr P).ptnextid = P.ptnextid := by
  induction n generalizing curr P with
  | zero => rfl
  | succ n ih => exact ih _ _

/-- **`ptinit`** frees all ports and all nodes. -/
theorem AtRest.ptinit {maxmsgs : Int} {r : Kernel × Nat} (h : AtRest x asked L) (hmay : x.mayCall)
    (hunset : ∀ q, (x.ports.porttab q).ptstate = .unset)
    (hr : x.sys.k.getmem (maxmsgs * 8 % addrSpace).toNat = some r) :
    ∃ L', AtRest { x with sys := { x.sys with k := r.1 }, ports := Xinu.ptinit maxmsgs x.ports }
      asked L' ∧ maxmsgs ≤ L'.size := by
  obtain ⟨hu, hidle, hdivert, hnull⟩ := hmay
  obtain ⟨hp, hk⟩ := getmem_heap hr
  have henter : (Call.getmem (maxmsgs * 8 % addrSpace).toNat).enter x.sys.k =
      some (r.1, .ret r.2) := by simp [Call.enter, hr, returning]
  have hkeeper := h.keeper.through hidle hdivert hnull (show InRange x.sys (.call (.getmem _)) from
    trivial) henter rfl rfl (by rw [hk]; rfl)
  have hbad : ∀ q, isbadport q → (Xinu.ptinit maxmsgs x.ports).porttab q = x.ports.porttab q := by
    intro q hq
    rw [Xinu.ptinit, ptinitLoop_porttab]
    exact if_pos hq
  have hstate : ∀ q, ((Xinu.ptinit maxmsgs x.ports).porttab q).ptstate ≠ .alloc ∧
      ((Xinu.ptinit maxmsgs x.ports).porttab q).ptstate ≠ .limbo := by
    intro q
    by_cases hq : isbadport q
    · rw [hbad q hq, hunset]
      simp
    · rw [ptinit_porttab hq]
      simp
  have hno : ∀ pid, ∀ g ∈ x.frames pid, g.clears = none := by
    intro pid g hg
    cases hc : g.clears with
    | none => rfl
    | some q =>
      have hlimbo := (h.clears pid g hg).limbo hc
      rw [hunset] at hlimbo
      simp at hlimbo
  refine ⟨⟨L.σ, fun _ => none, List.range' 0 ((maxmsgs - 1).toNat + 1), fun _ => [],
    (maxmsgs - 1).toNat + 1⟩, ⟨hkeeper, fun pid hpid => ?_, ?_, fun q hq => ?_,
    ptinit_stored maxmsgs x.ports fun q hq => ?_, fun i hi => .inl (by simpa using hi),
    fun _ _ => rfl, h.inner, h.waits, fun q hq => absurd hq (hstate q).1, fun pid g hg =>
      clearOk_of_none (hno pid g hg),
    h.once, by simp, fun q hq => absurd hq (hstate q).2, by simp⟩, ?_⟩
  · obtain ⟨h1, h2⟩ := h.alive pid hpid
    refine ⟨h1, ?_⟩
    rw [show (({ x with sys := { x.sys with k := r.1 }, ports := Xinu.ptinit maxmsgs x.ports } :
      PortSys).sys.k.proctab pid) = r.1.proctab pid from rfl, hk]
    exact h2
  · have hnext : (Xinu.ptinit maxmsgs x.ports).ptnextid = 0 := ptinitLoop_ptnextid ..
    rw [hnext]
    decide
  · exact (congrArg Ptentry.ptstate (hbad q hq)).trans (hunset q)
  · rcases hq with hq | ⟨pid, st, w, hm⟩
    · exact (hstate q).1 hq
    · exact absurd (hno pid _ hm) (by simp [PortFrame.clears])
  · push_cast
    omega

/-- **`ptcreate` that finds no port**, or refuses the count. -/
theorem AtRest.notCreated {n : Int} (h : AtRest x asked L) (hu : x.user)
    (hn : 0 ≤ n ∧ n < NPORTS) (count : Int) :
    AtRest { x with ports := { x.ports with ptnextid := n } } (Function.update asked (-1) count)
      L := by
  have hasked : ∀ q, q ≠ -1 → Function.update asked (-1) count q = asked q := fun q hq =>
    Function.update_of_ne hq ..
  have hrest : PortsInv { x with ports := { x.ports with ptnextid := n } }
      (Function.update asked (-1) count) L _ _ := PortsInv.step_nowhere (F := x.frames x.cur) h
    ⟨(Function.update_eq_self ..).symm, fun _ _ _ => rfl, fun _ _ _ => id, fun _ _ => rfl,
      fun _ _ => rfl, hasked, fun _ _ _ => Iff.rfl, fun _ _ _ _ => rfl, onlyAt_of_user hu _,
      onlyAt_of_user hu _, fun _ hg => .inl hg⟩
    h.keeper (fun hne => (h.alive _ hne).2) hn rfl rfl (fun _ _ => id) rfl
    (h.stored.congr rfl rfl (fun _ => .inl rfl) fun _ hp => .inl ⟨hp, rfl, rfl, rfl⟩) h.all
    (h.inner x.cur) (fun f fs hf ⟨_, _, hat⟩ => (user_not_wait hu hf hat).elim) h.once
  refine PortsInv.of_eq hrest fun q hq => ?_
  have hne : q ≠ -1 := by
    rintro rfl
    have hunset := h.range (-1) (by decide)
    rw [hunset] at hq
    simp at hq
  rw [hasked q hne]
  exact ⟨rfl, rfl⟩

/-- `semcreate` runs in the same process, and changes none. -/
theorem semcreate_same (n : Int) (k : Kernel) :
    (semcreate n k).1.proctab = k.proctab ∧ (semcreate n k).1.currpid = k.currpid := by
  have hnew : (newsem k).1.proctab = k.proctab ∧ (newsem k).1.currpid = k.currpid := by
    rw [newsem, newsemLoop_eq]
    split
    · exact ⟨rfl, rfl⟩
    · exact ⟨rfl, rfl⟩
  unfold semcreate
  split_ifs
  · exact ⟨rfl, rfl⟩
  · generalize newsem k = r at hnew ⊢
    obtain ⟨k₁, sem⟩ := r
    dsimp only
    split_ifs
    · exact hnew
    · exact hnew

/-- The keeper after `semcreate`. -/
def seeCreated (n : Int) (k : Kernel) (σ : Store) : Store :=
  if (semcreate n k).2 = SYSERR then σ
  else Function.update σ (semcreate n k).2 (some (.create n.toNat))

/-- **`semcreate`** inside a routine that cannot be switched out. -/
theorem KeeperInv.semcreated {n : Int} (h : KeeperInv (s, σ)) (hidle : s.idle)
    (hdivert : s.divert s.k.currpid = false) (hnull : s.k.currpid ≠ NULLPROC)
    (hn : n ≤ maxCount) :
    KeeperInv ({ s with k := (semcreate n s.k).1 }, seeCreated n s.k σ) := by
  have hthrough := h.through (c := .semcreate n) hidle hdivert hnull hn rfl rfl rfl
    (semcreate_same n s.k).2
  rw [seeCreated]
  simpa only [semSee, Function.update_self] using hthrough

/-- **The two semaphores of a new port.** -/
structure TwoMade (k : Kernel) (σ : Store) (count s t : Int) : Prop where
  sender : seeCreated 0 (semcreate count k).1 (seeCreated count k σ) s = some (.create count.toNat)
  receiver : ¬ isbadsem t → seeCreated 0 (semcreate count k).1 (seeCreated count k σ) t =
    some (.create 0)
  others : ∀ sem, sem ≠ s → (sem ≠ t ∨ isbadsem t) →
    seeCreated 0 (semcreate count k).1 (seeCreated count k σ) sem = σ sem
  new : σ s = none ∧ σ t = none
  distinct : s ≠ t

theorem KeeperInv.twoMade {count : Int} (h : KeeperInv (s, σ)) (hc : 0 ≤ count)
    (hfree : freeSems s.k ≠ []) : TwoMade s.k σ count (semcreate count s.k).2
      (semcreate 0 (semcreate count s.k).1).2 := by
  have hnext := (semcreate_spec h.ids.next count).1
  have hnone : ∀ {sem : Int}, (s.k.semtab sem).sstate = .free → σ sem = none := fun hf =>
    h.kept.unused (.inr hf)
  rcases semcreate_free h.ids.next hc with ⟨hnil, -⟩ | ⟨a, ha, h2, htab⟩
  · exact absurd hnil hfree
  obtain ⟨hgood, hafree⟩ := mem_freeSems.mp (show a ∈ freeSems s.k by simp [ha])
  have hasys : a ≠ SYSERR := by
    rintro rfl
    exact hgood (by decide)
  have h1 : seeCreated count s.k σ = Function.update σ a (some (.create count.toNat)) := by
    rw [seeCreated, h2, if_neg hasys]
  rw [h2]
  rcases semcreate_free hnext (le_refl 0) with ⟨-, hr, -⟩ | ⟨b, hb, h3, -⟩
  · have hout : seeCreated 0 (semcreate count s.k).1 (seeCreated count s.k σ) =
        seeCreated count s.k σ := if_pos hr
    rw [hr]
    refine ⟨?_, fun hbad => absurd (by decide) hbad, fun sem hsem _ => ?_,
      ⟨hnone hafree, ?_⟩, hasys⟩
    · rw [hout, h1, Function.update_self]
    · rw [hout, h1, Function.update_of_ne hsem]
    · exact h.kept.inTable SYSERR (by decide)
  · obtain ⟨hbgood, hbfree⟩ := mem_freeSems.mp
      (show b ∈ freeSems (semcreate count s.k).1 by simp [hb])
    have hbsys : b ≠ SYSERR := by
      rintro rfl
      exact hbgood (by decide)
    have hab : a ≠ b := by
      rintro rfl
      rw [htab, setSem_same] at hbfree
      simp at hbfree
    rw [htab, setSem_of_ne _ _ hab.symm] at hbfree
    have hout : seeCreated 0 (semcreate count s.k).1 (seeCreated count s.k σ) =
        Function.update (seeCreated count s.k σ) b (some (.create 0)) := by
      rw [seeCreated, h3, if_neg hbsys]
      rfl
    rw [h3]
    refine ⟨?_, fun _ => ?_, fun sem hsem ht => ?_, ⟨hnone hafree, hnone hbfree⟩, hab⟩
    · rw [hout, Function.update_of_ne hab, h1, Function.update_self]
    · rw [hout, Function.update_self]
    · rw [hout, Function.update_of_ne (ht.resolve_right hbgood), h1, Function.update_of_ne hsem]

/-- No process is inside a routine with the sequence number that the port `p` gets next. -/
def NoStale (x : PortSys) (p : Int) : Prop :=
  ∀ pid ∈ procs, ∀ f ∈ x.frames pid, f.isAt p (int32 ((x.ports.porttab p).ptseq + 1)) = false

theorem PortsInv.noStale (h : PortsInv x asked L n₁ n₂) (hp : NoStale x p) (pid : Int) :
    ∀ f ∈ x.frames pid, f.isAt p (int32 ((x.ports.porttab p).ptseq + 1)) = false := fun f hf =>
  hp pid (mem_procs.mpr (h.alive pid (List.ne_nil_of_mem hf)).1) f hf

/-- **`ptcreate` that finds the port `p`**, and a semaphore for its senders. -/
theorem AtRest.created {count n : Int} (h : AtRest x asked L) (hmay : x.mayCall)
    (hp : ¬ isbadport p) (hfree : (x.ports.porttab p).ptstate = .free) (hn : 0 ≤ n ∧ n < NPORTS)
    (hc : 0 ≤ count ∧ count ≤ maxCount) (hsems : freeSems x.sys.k ≠ []) (hstale : NoStale x p) :
    ∃ L', AtRest { x with
        sys := { x.sys with k := (makePort count p n x.sys.k x.ports).1.1 }
        ports := (makePort count p n x.sys.k x.ports).1.2 }
      (Function.update asked p count) L' ∧ L'.size = L.size := by
  obtain ⟨hu, hidle, hdivert, hnull⟩ := hmay
  have htwo := h.keeper.twoMade hc.1 hsems
  have h1 := h.keeper.semcreated hidle hdivert hnull hc.2
  have hsame := semcreate_same count x.sys.k
  have h2 := h1.semcreated (n := 0)
    (show x.sys.cont (semcreate count x.sys.k).1.currpid = .user by rw [hsame.2]; exact hidle)
    (by dsimp only; rw [hsame.2]; exact hdivert) (by dsimp only; rw [hsame.2]; exact hnull)
    (by decide)
  have hsame' := semcreate_same 0 (semcreate count x.sys.k).1
  have hself := makePort_porttab count p n x.sys.k x.ports
  have hothers : ∀ p', p' ≠ p →
      (makePort count p n x.sys.k x.ports).1.2.porttab p' = x.ports.porttab p' :=
    fun p' hp' => makePort_porttab_of_ne hp'
  have hproc : (makePort count p n x.sys.k x.ports).1.1.proctab = x.sys.k.proctab :=
    hsame'.1.trans hsame.1
  have hnotin : ¬ PortInUse x.ports p := by simp [PortInUse, hfree]
  have hq : L.q p = [] := h.empty p hnotin
  -- the two semaphores belonged to no port
  have hnew : ∀ sem, L.σ sem = none → ∀ p', L.own sem ≠ some p' := fun sem hs p' ho =>
    (h.owned sem p' ho).2.1 hs
  have hempty : ∀ g : PortFrame → Bool, (∀ f, g f = true →
      f.isAt p (int32 ((x.ports.porttab p).ptseq + 1)) = true) → x.inside g = ∅ :=
    fun g hg => inside_eq_empty (h.noStale hstale) hg
  set s := (semcreate count x.sys.k).2 with hs
  set t := (semcreate 0 (semcreate count x.sys.k).1).2 with ht
  set σ' := seeCreated 0 (semcreate count x.sys.k).1 (seeCreated count x.sys.k L.σ) with hσ'
  set P := (makePort count p n x.sys.k x.ports).1.2 with hP
  let y : PortSys :=
    { x with sys := { x.sys with k := (makePort count p n x.sys.k x.ports).1.1 }, ports := P }
  let own' : Int → Option Int := fun sem =>
    if sem = s ∨ sem = t ∧ ¬ isbadsem t then some p else L.own sem
  have hown' : ∀ sem, own' sem = some p → sem = s ∨ sem = t ∧ ¬ isbadsem t := by
    intro sem ho
    by_contra hno
    rw [show own' sem = L.own sem from if_neg hno] at ho
    exact hnotin (h.owned sem p ho).1
  have hcreated : ∀ sem, own' sem = some p → ∃ m, σ' sem = some (.create m) := by
    intro sem ho
    rcases hown' sem ho with rfl | ⟨rfl, hgood⟩
    · exact ⟨_, htwo.sender⟩
    · exact ⟨_, htwo.receiver hgood⟩
  refine ⟨{ L with σ := σ', own := own' }, @PortsInv.step _ y _ _ _ _ _ _ _ _ p (x.frames x.cur) h
    ⟨(Function.update_eq_self ..).symm, fun _ _ _ => rfl, fun pid _ _ => ?_, hothers,
      fun _ _ => rfl, fun p' hp' => Function.update_of_ne hp' .., fun sem p' hp' => ?_,
      fun sem p' _ ho => ?_, onlyAt_of_user hu _, onlyAt_of_user (x := y) hu _,
      fun _ hg => .inl hg⟩
    h2 (fun hne => ?_) hn (fun hbad => absurd hbad hp) ?_ h.all (fun _ => hq) (h.inner x.cur)
    ?_ (fun p' hp' => ?_) (fun _ => ?_) (fun pid g hg hc => ?_) h.once (fun sem ho => ?_)
      (fun hl => ?_) fun sem c ho hc => ?_, rfl⟩
  · rw [hproc]
    exact id
  · -- who owns a semaphore of another port
    by_cases hsem : sem = s ∨ sem = t ∧ ¬ isbadsem t
    · have hnone : ¬ L.own sem = some p' := by
        rcases hsem with rfl | ⟨rfl, -⟩
        · exact hnew _ htwo.new.1 p'
        · exact hnew _ htwo.new.2 p'
      have he : own' sem = some p := if_pos hsem
      dsimp only
      rw [he]
      simpa [hnone] using hp'.symm
    · have he : own' sem = L.own sem := if_neg hsem
      dsimp only
      rw [he]
  · refine htwo.others sem ?_ (.inl ?_)
    · rintro rfl
      exact hnew _ htwo.new.1 p' ho
    · rintro rfl
      exact hnew _ htwo.new.2 p' ho
  · rw [hproc]
    exact (h.alive _ hne).2
  · refine h.stored.congr rfl rfl (fun _ => .inl rfl) fun p' hp' => ?_
    by_cases hpp : p' = p
    · rw [hpp, hself]
      exact .inr ⟨hq, rfl, rfl⟩
    · rw [hothers p' hpp]
      refine .inl ⟨hp'.imp_left fun hl => ?_, rfl, rfl, rfl⟩
      rwa [hothers p' hpp] at hl
  · rintro f fs hf ⟨_, _, hat⟩
    exact (user_not_wait hu hf hat).elim
  · rw [Function.update_of_ne hp']
    exact ⟨rfl, rfl⟩
  · have hseq : (P.porttab p).ptseq = int32 ((x.ports.porttab p).ptseq + 1) := by
      rw [hself, Ptentry.made]
    have hsends : y.inside (PortFrame.sends p (P.porttab p).ptseq) = ∅ := by
      rw [hseq]
      exact hempty _ fun f hf => by simp [PortFrame.isAt, hf]
    have hreceives : y.inside (PortFrame.receives p (P.porttab p).ptseq) = ∅ := by
      rw [hseq]
      exact hempty _ fun f hf => by simp [PortFrame.isAt, hf]
    dsimp only [y] at hsends hreceives ⊢
    rw [Function.update_self, hq]
    refine ⟨⟨hc.1, hc.2, ?_⟩, ⟨?_, fun hgood => ?_, ?_⟩, ?_, ?_⟩
    · dsimp only
      rw [hself, Ptentry.made]
    · dsimp only
      rw [hself, Ptentry.made]
      exact if_pos (.inl rfl)
    · dsimp only at hgood ⊢
      rw [hself, Ptentry.made] at hgood ⊢
      exact if_pos (.inr ⟨rfl, hgood⟩)
    · dsimp only
      rw [hself, Ptentry.made]
      exact htwo.distinct
    · dsimp only
      have hssem : (P.porttab p).ptssem = s := by rw [hself, Ptentry.made]
      rw [hsends, hssem]
      refine ⟨_, htwo.sender, ?_⟩
      have hserves := Counter.Serves.create (α := Int) count.toNat
      rw [Int.toNat_of_nonneg hc.1] at hserves
      simpa using hserves
    · dsimp only
      have hrsem : (P.porttab p).ptrsem = t := by rw [hself, Ptentry.made]
      rw [hreceives, hrsem]
      by_cases hgood : isbadsem t
      · exact .inr ⟨hgood, rfl⟩
      · exact .inl ⟨_, htwo.receiver hgood, Counter.Serves.create 0⟩
  · have hlimbo := (h.clears pid g hg).limbo hc
    rw [hfree] at hlimbo
    simp at hlimbo
  · obtain ⟨m, hm⟩ := hcreated sem ho
    have hstate : (P.porttab p).ptstate = .alloc := by rw [hself, Ptentry.made]
    refine ⟨.inl hstate, ?_, ?_⟩
    · dsimp only
      rw [hm]
      simp
    · dsimp only [y]
      rw [hself]
      exact (hown' sem ho).imp_right And.left
  · rw [hself] at hl
    simp [Ptentry.made] at hl
  · obtain ⟨m, hm⟩ := hcreated sem ho
    obtain rfl : Counter.create m = c := Option.some.inj (hm.symm.trans hc)
    simp [Counter.create]

/-! ## 3. Every step

The condition on a step has two parts: what the ports rely on in everybody else (`PortsApart`),
and that the numbers involved fit (`CountFits`).  Under both, every event keeps the invariant. -/

/-- **What the ports rely on**: nobody else touches their semaphores or ends a process in a port
routine, `ptinit` is called once, and a count is an `int32`. -/
def PortsApart (x : PortSys) : PortEvent → Prop
  | .base (.call c) => InRange x.sys (.call c) ∧ KeepsOff x c
  | .ptinit _ => ∀ q ∈ portIds, (x.ports.porttab q).ptstate = .unset
  | .ptcreate count => count ≤ maxCount
  | _ => True

/-- **The counts fit**: `ptcreate` finds a semaphore for the senders, the count of a port that is
reset fits its field, and no process is left from the time when the sequence number of a port was
what it becomes. -/
def CountFits (x : PortSys × (Int → Int)) : PortEvent → Prop
  | .ptcreate count => 0 ≤ count → ∀ p ∈ firstFree x.1.ports,
      freeSems x.1.sys.k ≠ [] ∧ NoStale x.1 p
  | .ptreset p => x.1.usable p → x.2 p < 65536 ∧ NoStale x.1 p
  | .ptdelete p => x.1.usable p → NoStale x.1 p
  | _ => True

/-- A step that meets both. -/
def PortRun (x : PortSys × (Int → Int)) (e : PortEvent) : Prop := PortsApart x.1 e ∧ CountFits x e

theorem AtRest.onPort {f : PortSys → Option PortSys} (h : AtRest x asked L)
    (hy : x.onPort p f = some y)
    (hf : x.mayCall → x.usable p → f x = some y →
      ∃ L', AtRest y asked L' ∧ L'.size = L.size) : ∃ L', AtRest y asked L' ∧ L'.size = L.size := by
  unfold PortSys.onPort at hy
  split_ifs at hy with hmay husable
  · exact hf hmay husable hy
  · obtain rfl := Option.some.inj hy
    exact ⟨L, PortsInv.reply h SYSERR, rfl⟩

/-- `ptsend` or `ptrecv` begins. -/
theorem AtRest.come {f : PortFrame} (h : AtRest x asked L) (hmay : x.mayCall)
    (husable : x.usable p) (hf : Comes x p f sem) (hy : x.call (.wait sem) f = some y) :
    ∃ L', AtRest y asked L' ∧ L'.size = L.size := by
  obtain ⟨L', h', hq, hsize⟩ := PortsInv.come h hmay husable hf hy
  refine ⟨L', ?_, hsize⟩
  rw [AtRest, hq]
  exact h'

theorem usable_alloc (h : x.usable p) : (x.ports.porttab p).ptstate = .alloc := by
  by_contra hne
  exact h (.inr hne)

/-- How many nodes there are after a step, if there were `n`. -/
def sizeSee (e : PortEvent) (n : Int) : Int :=
  match e with
  | .ptinit maxmsgs => maxmsgs
  | _ => n

/-- **The step lemma**, with the number of nodes. -/
theorem AtRest.step_sized {e : PortEvent} (h : AtRest x asked L) (hok : PortRun (x, asked) e)
    (hy : PortSys.step x e = some y) :
    ∃ L', AtRest y (askedSee x e y asked) L' ∧ ∀ n ≤ (L.size : Int), sizeSee e n ≤ L'.size := by
  obtain ⟨hapart, hfits⟩ := hok
  have hsame : (∀ n, sizeSee e n = n) →
      (∃ L', AtRest y (askedSee x e y asked) L' ∧ L'.size = L.size) →
      ∃ L', AtRest y (askedSee x e y asked) L' ∧ ∀ n ≤ (L.size : Int), sizeSee e n ≤ L'.size := by
    rintro he ⟨L', h', hsize⟩
    refine ⟨L', h', fun n hn => ?_⟩
    rw [he, hsize]
    exact hn
  cases e with
  | base e =>
    simp only [PortSys.step] at hy
    split_ifs at hy with hu
    obtain ⟨s, hs, rfl⟩ := Option.map_eq_some_iff.mp hy
    refine hsame (fun _ => rfl) (h.base hu ?_ ?_ hs)
    · cases e with
      | call c => exact hapart.1
      | _ => trivial
    · rintro c rfl
      exact hapart.2
  | ptinit maxmsgs =>
    simp only [PortSys.step] at hy
    split_ifs at hy with hmay
    obtain ⟨r, hr, hy⟩ := Option.bind_eq_some_iff.mp hy
    split_ifs at hy with herr
    obtain rfl := Option.some.inj hy
    have hunset : ∀ q, (x.ports.porttab q).ptstate = .unset := by
      intro q
      by_cases hq : isbadport q
      · exact h.range q hq
      · exact hapart q (mem_portIds.mpr hq)
    obtain ⟨L', h', hsize⟩ := h.ptinit hmay.1 hunset hr
    exact ⟨L', PortsInv.reply h' OK, fun _ _ => hsize⟩
  | ptcreate count =>
    simp only [PortSys.step] at hy
    split_ifs at hy with hmay
    obtain rfl := Option.some.inj hy
    suffices hsuff : ∃ L', AtRest { x with
        sys := { x.sys with k := (Xinu.ptcreate count x.sys.k x.ports).1.1 }
        ports := (Xinu.ptcreate count x.sys.k x.ports).1.2 }
        (Function.update asked (Xinu.ptcreate count x.sys.k x.ports).2 count) L' ∧
          L'.size = L.size by
      obtain ⟨L', h', hsize⟩ := hsuff
      refine hsame (fun _ => rfl) ⟨L', ?_, hsize⟩
      simp only [askedSee, PortSys.reply, Function.update_self]
      exact PortsInv.reply h' _
    by_cases hc : count < 0
    · rw [show Xinu.ptcreate count x.sys.k x.ports = ((x.sys.k, x.ports), SYSERR) from if_pos hc]
      exact ⟨L, h.notCreated hmay.1 h.next count, rfl⟩
    · rcases ptcreate_cases (k := x.sys.k) h.next (not_lt.mp hc) with
        ⟨-, n, hn, he⟩ | ⟨p, n, hp, hfree, hn, hfirst, he⟩
      · rw [he]
        exact ⟨L, h.notCreated hmay.1 hn count, rfl⟩
      · rw [he]
        obtain ⟨hsems, hstale⟩ := hfits (not_lt.mp hc) p hfirst
        exact h.created hmay hp hfree hn ⟨not_lt.mp hc, hapart⟩ hsems hstale
  | ptsend p msg =>
    simp only [PortSys.step] at hy
    exact hsame (fun _ => rfl) (h.onPort hy fun hmay husable => h.come hmay husable (.send msg))
  | ptrecv p =>
    simp only [PortSys.step] at hy
    exact hsame (fun _ => rfl) (h.onPort hy fun hmay husable => h.come hmay husable .recv)
  | ptreset p =>
    simp only [PortSys.step] at hy
    refine hsame (fun _ => rfl) (h.onPort hy fun hmay husable => ?_)
    obtain ⟨hlt, hstale⟩ := hfits husable
    exact h.ptclear hmay.2.1 hmay.1 (usable_alloc husable) (PortsInv.noStale h hstale)
      (.inl ⟨rfl, hlt⟩)
  | ptdelete p =>
    simp only [PortSys.step] at hy
    refine hsame (fun _ => rfl) (h.onPort hy fun hmay husable => ?_)
    exact h.ptclear hmay.2.1 hmay.1 (usable_alloc husable) (PortsInv.noStale h (hfits husable))
      (.inr rfl)
  | goOn =>
    simp only [PortSys.step] at hy
    split at hy
    · simp at hy
    · rename_i f fs hf
      exact hsame (fun _ => rfl) (h.goOn hf hy)

/-- **The step lemma.** -/
theorem AtRest.step {e : PortEvent} (h : AtRest x asked L) (hok : PortRun (x, asked) e)
    (hy : PortSys.step x e = some y) : ∃ L', AtRest y (askedSee x e y asked) L' := by
  obtain ⟨L', h', -⟩ := h.step_sized hok hy
  exact ⟨L', h'⟩

/-! ## 4. What a port admits

The count of the senders' semaphore, when it is positive, is the number of sends that pass without
blocking.  The invariant says what it is. -/

/-- The sends that the port `p` admits without blocking. -/
def room (x : PortSys) (p : Int) : Int := max (x.sys.k.semtab (x.ports.porttab p).ptssem).scount 0

/-- The senders that were let through and have not gone on. -/
def letThrough (x : PortSys) (p : Int) : Finset Int :=
  (x.inside (PortFrame.sends p (x.ports.porttab p).ptseq)).filter fun pid =>
    pid ∉ waitList x.sys.k (x.ports.porttab p).ptssem

/-- **The room of an open port.** -/
theorem AtRest.room_eq (h : AtRest x asked L) (hp : (x.ports.porttab p).ptstate = .alloc) :
    room x p = asked p - (L.q p).length - (letThrough x p).card := by
  obtain ⟨c, hc, hserves⟩ := (h.opened p hp).sender
  obtain ⟨-, -, hcount, hlist, hnd⟩ := h.keeper.counter hc
  have hroom := hserves.room hnd
  rw [room, letThrough, hcount, hlist]
  omega

/-- **A send is let through at once** if and only if there is room. -/
theorem AtRest.send_passes {msg : Nat} (h : AtRest x asked L) (husable : x.usable p)
    (hy : PortSys.step x (.ptsend p msg) = some y) :
    x.cur ∉ waitList y.sys.k (x.ports.porttab p).ptssem ↔ 0 < room x p := by
  simp only [PortSys.step, PortSys.onPort] at hy
  split_ifs at hy with hmay
  have hcall := PortCalled.of_call (c := .wait _) h.keeper rfl trivial hy
  obtain ⟨c, hc, -⟩ := (h.opened p (usable_alloc husable)).sender
  have hcount := (h.keeper.counter hc).2.2.1
  have hsee : semSee x.sys (.call (.wait (x.ports.porttab p).ptssem)) y.sys L.σ
      (x.ports.porttab p).ptssem = some (c.wait x.cur) := by
    simp only [semSee, Store.apply, Function.update_self, hc, Option.map_some]
  rw [(hcall.keeper.counter hsee).2.2.2.1, room, hcount]
  by_cases hpos : c.count ≤ 0
  · rw [Counter.wait_blocks hpos]
    refine iff_of_false (fun hno => hno (by simp)) (by omega)
  · rw [Counter.wait_passes (not_le.mp hpos)]
    refine iff_of_true (h.keeper.cur_notMem hc) (by omega)

/-! ## 5. When a port opens

A port opens in two ways, in `ptcreate` and at the end of a reset, and is then as good as new: no
messages, no senders let through, and room for what was asked for.  No other step opens a port. -/

theorem call_ports {c : Call} {f : PortFrame} (h : x.call c f = some y) : y.ports = x.ports := by
  obtain ⟨s, -, rfl⟩ := Option.map_eq_some_iff.mp h
  rfl

/-- No port is open that was not. -/
def OpensNone (P P' : Ports) : Prop :=
  ∀ p, (P'.porttab p).ptstate = .alloc → (P.porttab p).ptstate = .alloc

theorem OpensNone.of_state {P P' : Ports}
    (h : ∀ p, (P'.porttab p).ptstate = (P.porttab p).ptstate) : OpensNone P P' := fun p hp =>
  (h p).symm.trans hp

theorem OpensNone.of_eq {P P' : Ports} (h : P' = P) : OpensNone P P' := .of_state fun p => by rw [h]

theorem OpensNone.trans {P P' P'' : Ports} (h : OpensNone P P') (h' : OpensNone P' P'') :
    OpensNone P P'' := fun p hp => h p (h' p hp)

theorem opensNone_setPort {P : Ports} {f : Ptentry → Ptentry}
    (hf : (f (P.porttab p)).ptstate = .alloc → (P.porttab p).ptstate = .alloc) :
    OpensNone P (P.setPort p f) := by
  intro q hq
  by_cases hpq : q = p
  · subst hpq
    rw [setPort_same] at hq
    exact hf hq
  · rwa [setPort_of_ne _ _ hpq] at hq

variable {st : PtState}

theorem clearSend_opens (h : x.clearSend p st = some y) : OpensNone x.ports y.ports := by
  unfold PortSys.clearSend at h
  dsimp only at h
  split_ifs at h
  · have hqueue : OpensNone x.ports (x.ports.setPort p fun e =>
        { e with pthead := none, pttail := none }) := opensNone_setPort id
    exact hqueue.trans (.of_eq (call_ports h))
  · exact .of_eq (call_ports h)

theorem clearRecv_opens (h : x.clearRecv p st = some y) : OpensNone x.ports y.ports := by
  unfold PortSys.clearRecv at h
  dsimp only at h
  split_ifs at h
  · exact .of_eq (call_ports h)
  · exact .of_eq (call_ports h)

theorem ptclear_opens (h : x.ptclear p st = some y) : OpensNone x.ports y.ports := by
  have hlimbo : OpensNone x.ports (x.ports.setPort p fun e =>
      { e with ptstate := .limbo, ptseq := int32 (e.ptseq + 1) }) :=
    opensNone_setPort (by simp)
  unfold PortSys.ptclear at h
  dsimp only at h
  split at h
  · obtain rfl := Option.some.inj h
    exact hlimbo
  · exact hlimbo.trans (clearSend_opens h)

theorem disposed_opens {w : Nat} (h : x.disposed p st w = some y) : OpensNone x.ports y.ports := by
  unfold PortSys.disposed at h
  split at h
  · obtain rfl := Option.some.inj h
    exact .of_eq rfl
  · obtain ⟨P, hP, h⟩ := Option.bind_eq_some_iff.mp h
    obtain ⟨t, -, rfl⟩ := Option.map_eq_some_iff.mp hP
    refine OpensNone.trans ?_ (clearSend_opens h)
    exact .of_state fun _ => rfl

/-- One port was open. -/
theorem OpensNone.of_elsewhere {P P' : Ports} (hp : (P.porttab p).ptstate = .alloc)
    (h : ∀ q, q ≠ p → P'.porttab q = P.porttab q) : OpensNone P P' := by
  intro q hq
  by_cases hpq : q = p
  · rw [hpq]
    exact hp
  · rwa [h q hpq] at hq

theorem clearDone_porttab (x : PortSys) (p : Int) (st : PtState) :
    (x.clearDone p st).ports.porttab = (x.ports.setPort p fun e =>
      { e with ptstate := st }).porttab := by
  simp only [PortSys.clearDone, PortSys.reply]
  split_ifs
  · rfl
  · rfl

/-- **Only the end of a reset opens a port** in a routine that goes on. -/
theorem goOn_opens {f : PortFrame} {fs : List PortFrame} (hy : x.goOn f fs = some y) :
    OpensNone x.ports y.ports ∨
      ∃ p, f = .clearRecv p .alloc ∧ y = (x.returned fs).clearDone p .alloc := by
  by_cases hdispose : ∃ p st w, f = .dispose p st w
  · obtain ⟨p, st, w, rfl⟩ := hdispose
    simp only [PortSys.goOn] at hy
    split_ifs at hy
    exact .inl (disposed_opens (x := x.setFrames fs) hy)
  simp only [not_exists] at hdispose
  obtain ⟨v, -, hy⟩ := goOn_ret hdispose hy
  cases f with
  | send p seq msg =>
    simp only [PortSys.resume] at hy
    split_ifs at hy with hopen
    · obtain ⟨P, hP, hy⟩ := Option.bind_eq_some_iff.mp hy
      refine .inl (OpensNone.trans ?_ (.of_eq (call_ports hy)))
      exact .of_elsewhere (stillOpen_iff.mp hopen).2.1 fun q => enqueueMsg_elsewhere hP
    · obtain rfl := Option.some.inj hy
      exact .inl (.of_eq rfl)
  | recv p seq =>
    simp only [PortSys.resume] at hy
    split_ifs at hy with hopen
    · obtain ⟨r, hr, hy⟩ := Option.bind_eq_some_iff.mp hy
      refine .inl (OpensNone.trans ?_ (.of_eq (call_ports hy)))
      exact .of_elsewhere (stillOpen_iff.mp hopen).2.1 fun q => dequeueMsg_elsewhere hr
    · obtain rfl := Option.some.inj hy
      exact .inl (.of_eq rfl)
  | signal value =>
    obtain rfl := Option.some.inj hy
    exact .inl (.of_eq rfl)
  | dispose p st w => exact absurd rfl (hdispose p st w)
  | clearSend p st => exact .inl (clearRecv_opens (x := x.returned fs) hy)
  | clearRecv p st =>
    obtain rfl := Option.some.inj hy
    by_cases hst : st = .alloc
    · subst hst
      exact .inr ⟨p, rfl, rfl⟩
    · refine .inl fun q hq => ?_
      rw [clearDone_porttab] at hq
      exact opensNone_setPort (fun h => absurd h hst) q hq

/-- A port with no messages and no senders. -/
structure AsNew (x : PortSys) (p : Int) : Prop where
  queue : (x.ports.porttab p).pthead = none
  senders : x.inside (PortFrame.sends p (x.ports.porttab p).ptseq) = ∅

/-- **Such a port admits what was asked for.** -/
theorem AtRest.room_asNew (h : AtRest x asked L) (hp : (x.ports.porttab p).ptstate = .alloc)
    (hnew : AsNew x p) : room x p = asked p := by
  have hq : L.q p = [] := by
    have hchain := (h.stored.queue p (.inl hp)).1
    rw [hnew.queue] at hchain
    rcases hl : L.q p with _ | ⟨i, l⟩
    · rfl
    · rw [hl] at hchain
      exact absurd (chain_cons.mp hchain).1 (by simp)
  rw [h.room_eq hp, hq, letThrough, hnew.senders]
  simp

/-- The end of a reset. -/
theorem AtRest.reset_asNew {fs : List PortFrame} (h : AtRest x asked L)
    (hf : x.frames x.cur = .clearRecv p .alloc :: fs) :
    AsNew ((x.returned fs).clearDone p .alloc) p := by
  obtain ⟨hs, -, hclear⟩ :=
    h.clears x.cur (.clearRecv p .alloc) (by rw [hf]; exact List.mem_cons_self)
  obtain ⟨-, hemptied, -⟩ := hclear.resolve_right (by simp)
  have hself : ((x.returned fs).clearDone p .alloc).ports.porttab p =
      { x.ports.porttab p with ptstate := .alloc } := by
    rw [clearDone_porttab]
    exact setPort_same ..
  refine ⟨?_, ?_⟩
  · rw [hself]
    exact hemptied.queue.1
  · rw [hself]
    refine inside_eq_empty (fun pid g hg => h.fresh p hs pid g ?_) fun g hg => ?_
    · by_cases hcur : pid = x.cur
      · rw [hcur, hf]
        refine List.mem_cons_of_mem _ ?_
        simpa [PortSys.clearDone, PortSys.reply, hcur] using hg
      · simpa [PortSys.clearDone, PortSys.reply, PortSys.returned, PortSys.setFrames,
          Function.update_of_ne hcur] using hg
    · simp [PortFrame.isAt, hg]

/-- **A port that opens is as good as new.** -/
theorem AtRest.opened_asNew {e : PortEvent} (h : AtRest x asked L) (hok : PortRun (x, asked) e)
    (hy : PortSys.step x e = some y) (hx : (x.ports.porttab p).ptstate ≠ .alloc)
    (hp : (y.ports.porttab p).ptstate = .alloc) : AsNew y p := by
  have hno : OpensNone x.ports y.ports → AsNew y p := fun ho => absurd (ho p hp) hx
  have honPort : ∀ {q : Int} {f : PortSys → Option PortSys}, x.onPort q f = some y →
      (f x = some y → OpensNone x.ports y.ports) → AsNew y p := by
    intro q f hq hf
    unfold PortSys.onPort at hq
    split_ifs at hq
    · exact hno (hf hq)
    · obtain rfl := Option.some.inj hq
      exact hno (.of_eq rfl)
  cases e with
  | base e =>
    simp only [PortSys.step] at hy
    split_ifs at hy
    obtain ⟨s, -, rfl⟩ := Option.map_eq_some_iff.mp hy
    exact hno (.of_eq rfl)
  | ptinit maxmsgs =>
    simp only [PortSys.step] at hy
    split_ifs at hy
    obtain ⟨r, -, hy⟩ := Option.bind_eq_some_iff.mp hy
    split_ifs at hy
    obtain rfl := Option.some.inj hy
    refine hno fun q hq => ?_
    by_cases hbad : isbadport q
    · simp only [PortSys.reply, Xinu.ptinit, ptinitLoop_porttab] at hq
      rwa [if_pos hbad] at hq
    · simp [PortSys.reply, ptinit_porttab hbad] at hq
  | ptcreate count =>
    simp only [PortSys.step] at hy
    split_ifs at hy
    obtain rfl := Option.some.inj hy
    by_cases hc : count < 0
    · rw [show Xinu.ptcreate count x.sys.k x.ports = ((x.sys.k, x.ports), SYSERR) from if_pos hc]
        at hp
      exact absurd hp hx
    rcases ptcreate_cases (k := x.sys.k) h.next (not_lt.mp hc) with
      ⟨-, n, -, he⟩ | ⟨q, n, -, -, -, hfirst, he⟩
    · rw [he] at hp
      exact absurd hp hx
    · rw [he] at hp ⊢
      have hpq : p = q := by
        by_contra hne
        refine hx ((congrArg Ptentry.ptstate ?_).trans hp)
        exact (makePort_porttab_of_ne hne).symm
      subst hpq
      have hself := makePort_porttab count p n x.sys.k x.ports
      refine ⟨(congrArg Ptentry.pthead hself).trans rfl, ?_⟩
      refine inside_eq_empty (h.noStale (hok.2 (not_lt.mp hc) p hfirst).2) fun g hg => ?_
      have hseq : (((makePort count p n x.sys.k x.ports).1.2).porttab p).ptseq =
          int32 ((x.ports.porttab p).ptseq + 1) := (congrArg Ptentry.ptseq hself).trans rfl
      simp only [PortSys.reply, hseq] at hg
      simp [PortFrame.isAt, hg]
  | ptsend q msg =>
    simp only [PortSys.step] at hy
    exact honPort hy fun hc => .of_eq (call_ports hc)
  | ptrecv q =>
    simp only [PortSys.step] at hy
    exact honPort hy fun hc => .of_eq (call_ports hc)
  | ptreset q =>
    simp only [PortSys.step] at hy
    exact honPort hy ptclear_opens
  | ptdelete q =>
    simp only [PortSys.step] at hy
    exact honPort hy ptclear_opens
  | goOn =>
    simp only [PortSys.step] at hy
    split at hy
    · simp at hy
    · rename_i f fs hf
      rcases goOn_opens hy with ho | ⟨q, rfl, rfl⟩
      · exact hno ho
      · have hpq : p = q := by
          by_contra hne
          rw [clearDone_porttab, setPort_of_ne _ _ hne] at hp
          exact hx hp
        subst hpq
        exact h.reset_asNew hf

/-! ## 6. Runs

From a boot, with the ports not initialized yet, the step lemma gives the invariant of every
state.  The second run shows what `CountFits` excludes: a count is kept in a field of 16 bits and
read back by a reset. -/

theorem start_atRest {image : Image} {heap : Heap} {s₀ : Sys} (h : boot image heap = some s₀) :
    AtRest (PortSys.start s₀) (fun _ => 0) ⟨fun _ => none, fun _ => none, [], fun _ => [], 0⟩ where
  keeper := boot_keeper h
  alive := fun _ hne => absurd rfl hne
  next := ⟨Int.le_refl 0, (by decide : (0 : Int) < NPORTS)⟩
  range := fun _ _ => rfl
  stored := ⟨rfl, fun _ _ => ⟨rfl, rfl⟩, ⟨List.nodup_nil, fun _ => List.nodup_nil⟩,
    by simp, by simp⟩
  all := by simp
  empty := fun _ _ => rfl
  inner := by simp [PortSys.start]
  waits := by simp [PortSys.start]
  opened := by simp [PortSys.start, zeroPort]
  clears := by simp [PortSys.start]
  once := by simp [PortSys.start, PortSys.busy]
  owned := by simp
  fresh := by simp [PortSys.start]
  queued := by simp

/-- **The run lemma.** -/
theorem atRest_run {x : PortSys × (Int → Int)} (h : PortsReach PortRun x) :
    ∃ L, AtRest x.1 x.2 L := by
  obtain ⟨image, heap, s₀, hb, hr⟩ := h
  refine hr.invariant (I := fun x => ∃ L, AtRest x.1 x.2 L) ⟨_, start_atRest hb⟩ ?_
  rintro ⟨x, asked⟩ e u ⟨L, h⟩ hok hu
  obtain ⟨y, hy, rfl⟩ := Runs.watch_some.mp hu
  exact h.step hok hy

/-- **What a port admits.**  In every run in which the counts fit: the sends that an open port
admits without blocking are what was asked for, less the messages in its queue and the senders that
were let through and have not gone on; a send is let through at once if there is one left; and a
port that `ptcreate` or `ptreset` opens admits what was asked for. -/
theorem port_capacity {x : PortSys × (Int → Int)} (h : PortsReach PortRun x) (p : Int) :
    ((x.1.ports.porttab p).ptstate = .alloc → ∃ l, Queued x.1.ports p l ∧
        room x.1 p = x.2 p - l.length - (letThrough x.1 p).card) ∧
      (∀ msg y, x.1.usable p → PortSys.step x.1 (.ptsend p msg) = some y →
        (x.1.cur ∉ waitList y.sys.k (x.1.ports.porttab p).ptssem ↔ 0 < room x.1 p)) ∧
      ∀ e y, PortRun x e → Runs.watch PortSys.step askedSee x e = some y →
        (x.1.ports.porttab p).ptstate ≠ .alloc → (y.1.ports.porttab p).ptstate = .alloc →
        room y.1 p = y.2 p := by
  obtain ⟨L, hL⟩ := atRest_run h
  refine ⟨fun hp => ⟨L.q p, hL.stored.queue p (.inl hp), hL.room_eq hp⟩,
    fun msg y husable hy => hL.send_passes husable hy, fun e y hok hy hx hp => ?_⟩
  obtain ⟨z, hz, rfl⟩ := Runs.watch_some.mp hy
  obtain ⟨L', h'⟩ := hL.step hok hz
  exact h'.room_asNew hp (hL.opened_asNew hok hz hx hp)

instance (P : Ports) (p : Int) : Decidable (PortInUse P p) :=
  inferInstanceAs (Decidable (_ ∨ _))

instance (x : PortSys) (c : Call) : Decidable (KeepsOff x c) :=
  inferInstanceAs (Decidable (_ ∧ _))

instance (x : PortSys) (p : Int) : Decidable (NoStale x p) :=
  inferInstanceAs (Decidable (∀ pid ∈ procs, ∀ f ∈ x.frames pid, _ = _))

instance : DecidableRel PortsApart := fun x e =>
  match e with
  | .base (.call c) => inferInstanceAs (Decidable (InRange x.sys (.call c) ∧ KeepsOff x c))
  | .base .finish | .base .callback | .base .tick | .base (.store _ _) => isTrue trivial
  | .ptinit _ => inferInstanceAs (Decidable (∀ q ∈ portIds, (x.ports.porttab q).ptstate = .unset))
  | .ptcreate count => inferInstanceAs (Decidable (count ≤ maxCount))
  | .ptsend _ _ | .ptrecv _ | .ptreset _ | .ptdelete _ | .goOn => isTrue trivial

instance : DecidableRel CountFits := fun x e =>
  match e with
  | .ptcreate count => inferInstanceAs (Decidable (0 ≤ count → ∀ p ∈ firstFree x.1.ports,
      freeSems x.1.sys.k ≠ [] ∧ NoStale x.1 p))
  | .ptreset p => inferInstanceAs (Decidable (x.1.usable p → x.2 p < 65536 ∧ NoStale x.1 p))
  | .ptdelete p => inferInstanceAs (Decidable (x.1.usable p → NoStale x.1 p))
  | .base _ | .ptinit _ | .ptsend _ _ | .ptrecv _ | .goOn => isTrue trivial

instance : DecidableRel PortRun := fun _ _ => inferInstanceAs (Decidable (_ ∧ _))

/-- The first process makes a port for `count` messages, sends one and resets the port. -/
def sendAndReset (count : Int) : List PortEvent :=
  [.base (makeMain 20), .ptinit 10, .ptcreate count, .ptsend 0 7, .goOn, .goOn,
    .ptreset 0, .goOn, .goOn, .goOn]

theorem port_capacity_reset : ∃ x, PortsReach PortRun x ∧ room x.1 0 = 3 ∧
    ∃ l, Queued x.1.ports 0 l ∧ room x.1 0 = x.2 0 - l.length - (letThrough x.1 0).card := by
  have hrun : (portsFromBoot PortRun (sendAndReset 3)).map (fun x =>
      decide (room x.1 0 = 3 ∧ (x.1.ports.porttab 0).ptstate = .alloc)) = some true := by
    decide +kernel
  obtain ⟨x, hx, hp⟩ := Option.map_eq_some_iff.mp hrun
  obtain ⟨hroom, hopen⟩ := of_decide_eq_true hp
  have hreach := portsReach_portsFromBoot hx
  exact ⟨x, hreach, hroom, (port_capacity hreach 0).1 hopen⟩

/-- **A reset forgets a large count.** -/
theorem port_capacity_lost : ∃ x, PortsReach (fun x e => PortsApart x.1 e) x ∧
    (x.1.ports.porttab 0).ptstate = .alloc ∧ x.2 0 = 65536 ∧ Queued x.1.ports 0 [] ∧
    letThrough x.1 0 = ∅ ∧ room x.1 0 = 0 := by
  have hrun : (portsFromBoot (fun x e => PortsApart x.1 e) [.base (makeMain ⟨20, by decide⟩),
      .ptinit 10, .ptcreate 65536, .ptreset 0, .goOn, .goOn]).map (fun x =>
      decide ((x.1.ports.porttab 0).ptstate = .alloc ∧ x.2 0 = 65536 ∧
        (x.1.ports.porttab 0).pthead = none ∧ (x.1.ports.porttab 0).pttail = none ∧
        letThrough x.1 0 = ∅ ∧ room x.1 0 = 0)) = some true := by
    decide +kernel
  obtain ⟨x, hx, hp⟩ := Option.map_eq_some_iff.mp hrun
  obtain ⟨hopen, hasked, hhead, htail, hin, hroom⟩ := of_decide_eq_true hp
  exact ⟨x, portsReach_portsFromBoot hx, hopen, hasked, ⟨chain_nil.mpr hhead, htail⟩, hin, hroom⟩

end Xinu
