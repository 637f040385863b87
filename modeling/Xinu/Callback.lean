/-
# Messages to a process with a callback

For a receiver that registered a callback, `send` leaves the message in `prtmpbuf` and sets
`prtmpvalid`; the callback is to copy the message to the buffer the receiver named, and to clear
`prtmpvalid`.  `usercb` does neither: `(prptr->prmbufptr) = prptr->prtmpbuf` overwrites the
pointer, and `prptr->prtmpvalid == 0` is a comparison.  A receiver that was not asleep is not sent
to its callback at all, and `cbregister` does not look at `prtmpvalid`.

A bookkeeper beside the system (`Desk`) writes down what was accepted and what the named buffer
held each time a callback had run.  `Handed` says that the books balance.  They do as long as no
receiver with a message outstanding gets the processor back, and the first step that breaks this
breaks the books (`callback_messages`).

The step lemma is stated on operations on the message fields (`Mail`), of which a step has few.
The exact condition is about the step that comes first: as long as nobody with a message
outstanding gets the processor, no message has been lost and none has been handed over either, and
the books say so.
-/
import Xinu.Mail

namespace Xinu

open Runs ByteMemory

variable {strict : Prop} {k k' : Kernel} {s s' : Sys} {p q : Int}

/-! ## 1. The books

A book has the messages that were accepted since the process registered, and what its buffer held
whenever its callback had run.  It balances when the one is the other, followed by what is
outstanding. -/

/-- The process exists and has a callback. -/
def registered (k : Kernel) (p : Int) : Prop := ¬ isbadpid k p ∧ (k.proctab p).prcbvalid = 1

instance (k : Kernel) (p : Int) : Decidable (registered k p) := inferInstanceAs (Decidable (_ ∧ _))

/-- The message waiting for the callback, if there is one. -/
def outstanding (k : Kernel) (p : Int) : List Nat :=
  if (k.proctab p).prtmpvalid = 1 then [(k.proctab p).prtmpbuf] else []

/-- What is known of one process since it registered. -/
structure Book where
  /-- The messages `send` accepted for it, in order. -/
  accepted : List Nat
  /-- What the buffer held after each run of its callback, in order. -/
  copied : List Nat
  /-- The buffer it named. -/
  mbufptr : Nat
  /-- Nobody has sent to it yet. -/
  unsent : Bool

structure Desk where
  book : Int → Book
  /-- A first message was refused, or a callback left its message outstanding. -/
  broken : Bool

def Desk.empty : Desk := ⟨fun _ => ⟨[], [], 0, false⟩, false⟩

/-- `send` returned to somebody who sent to a registered process. -/
def Desk.sent (d : Desk) (pid : Int) (msg : Nat) (r : Option Int) : Desk :=
  if r = some OK then
    let b := { d.book pid with accepted := (d.book pid).accepted ++ [msg], unsent := false }
    ⟨Function.update d.book pid b, d.broken⟩
  else ⟨d.book, d.broken || (d.book pid).unsent⟩

/-- A process registered. -/
def Desk.opened (d : Desk) (pid : Int) (mbufptr : Nat) : Desk :=
  ⟨Function.update d.book pid ⟨[], [], mbufptr, true⟩, d.broken⟩

/-- The callback of a process has run, and left `v` in the buffer. -/
def Desk.ran (d : Desk) (pid : Int) (v : Nat) (prtmpvalid : Bool8) : Desk :=
  let b := { d.book pid with copied := (d.book pid).copied ++ [v] }
  ⟨Function.update d.book pid b, d.broken || decide (prtmpvalid ≠ 0)⟩

/-- The bookkeeper. -/
def Desk.see (s : Sys) (e : Event) (t : Sys) (d : Desk) : Desk :=
  match e with
  | .call (.cbregister fp mbufptr) =>
    if registers fp mbufptr s.k then d.opened s.k.currpid mbufptr else d
  | .call c =>
    match c.message s.k with
    | some (pid, msg) =>
      if registered s.k pid then d.sent pid msg ((send pid msg s.k).map Prod.snd) else d
    | none => d
  | .callback =>
    if registered s.k s.k.currpid then
      d.ran s.k.currpid (load t.k.heap.mem (d.book s.k.currpid).mbufptr)
        (t.k.proctab s.k.currpid).prtmpvalid
    else d
  | _ => d

/-- **The books balance.** -/
structure Handed (x : Sys × Desk) : Prop where
  exact : x.2.broken = false
  /-- Every accepted message was copied, once and in order, or is the one outstanding. -/
  copied : ∀ p, registered x.1.k p →
    (x.2.book p).accepted = (x.2.book p).copied ++ outstanding x.1.k p
  /-- A process that executes its own code, and is not on its way to its callback, has no message
  outstanding. -/
  called : registered x.1.k x.1.k.currpid → x.1.idle → x.1.divert x.1.k.currpid = false →
    outstanding x.1.k x.1.k.currpid = []

/-- Runs in which callbacks are `usercb` and no process ends. -/
def CallbackRun (x : Sys × Desk) : Event → Prop
  | .call (.cbregister fp _) => fp = x.1.k.image.usercb
  | .call (.kill _) => False
  | .call .userret => False
  | _ => True

instance : DecidableRel CallbackRun := fun x e => by
  unfold CallbackRun
  split <;> infer_instance

/-- No process with a callback runs it, registers with a message waiting, or goes back to its own
code past its callback with a message waiting. -/
def HandsOver (x : Sys × Desk) : Event → Prop
  | .callback => ¬ registered x.1.k x.1.k.currpid
  | .call (.cbregister fp mbufptr) =>
    registers fp mbufptr x.1.k → (x.1.k.proctab x.1.k.currpid).prtmpvalid ≠ 1
  | .finish => registered x.1.k x.1.k.currpid → x.1.divert x.1.k.currpid = false →
    x.1.cont x.1.k.currpid ≠ .clkhandler → (x.1.k.proctab x.1.k.currpid).prtmpvalid ≠ 1
  | _ => True

/-! ## 2. The invariant

What has to be known besides the books: of the processes with a callback only the running one is in
its own code, and one that is to run its callback has a message outstanding. -/

/-- What holds beside the books. -/
structure DeskInv (x : Sys × Desk) : Prop where
  sys : SysInv False x.1
  handed : Handed x
  unused : ∀ p, (x.1.k.proctab p).prstate = .free → (x.1.k.proctab p).prcbvalid ≠ 1
  /-- A registered process in its own code is the one that runs. -/
  running : ∀ p, (x.1.k.proctab p).prcbvalid = 1 → x.1.cont p = .user → p = x.1.k.currpid
  diverted : ∀ p, x.1.divert p = true → (x.1.k.proctab p).prtmpvalid = 1
  unsent : ∀ p, registered x.1.k p → (x.2.book p).unsent = true →
    (x.1.k.proctab p).prtmpvalid ≠ 1

theorem outstanding_nil_iff : outstanding k p = [] ↔ (k.proctab p).prtmpvalid ≠ 1 := by
  unfold outstanding
  split_ifs with h <;> simp [h]

/-- The callback fields of an entry. -/
structure SameCallback (e e' : Procent) : Prop where
  prcbvalid : e'.prcbvalid = e.prcbvalid
  prtmpvalid : e'.prtmpvalid = e.prtmpvalid
  prtmpbuf : e'.prtmpbuf = e.prtmpbuf

theorem SameCallback.of_mail {e e' : Procent} (h : e'.mail = e.mail) : SameCallback e e' :=
  ⟨congrArg Mail.prcbvalid h, congrArg Mail.prtmpvalid h, congrArg Mail.prtmpbuf h⟩

theorem SameCallback.outstanding (h : SameCallback (k.proctab p) (k'.proctab p)) :
    outstanding k' p = outstanding k p := by
  simp only [Xinu.outstanding, h.prtmpvalid, h.prtmpbuf]

/-- A process whose entry stays in use and keeps its callback fields. -/
theorem registered_congr (hc : (k'.proctab p).prcbvalid = (k.proctab p).prcbvalid)
    (hl : (k'.proctab p).prstate = .free ↔ (k.proctab p).prstate = .free) :
    registered k' p ↔ registered k p := by
  simp only [registered, isbadpid, hc, hl]

/-- **A step that keeps the callback fields and the books keeps the invariant.** -/
theorem DeskInv.frame {d : Desk} (h : DeskInv (s, d)) (hi : SysInv False s')
    (hcb : ∀ p, SameCallback (s.k.proctab p) (s'.k.proctab p))
    (hl : ∀ p, (s'.k.proctab p).prstate = .free ↔ (s.k.proctab p).prstate = .free)
    (hrun : ∀ p, (s.k.proctab p).prcbvalid = 1 → s'.cont p = .user → p = s'.k.currpid)
    (hdiv : ∀ p, s'.divert p = true → s.divert p = true)
    (hcall : registered s'.k s'.k.currpid → s'.idle → s'.divert s'.k.currpid = false →
      outstanding s'.k s'.k.currpid = []) : DeskInv (s', d) where
  sys := hi
  handed := ⟨h.handed.exact, fun p hp => by
    rw [(hcb p).outstanding]
    exact h.handed.copied p ((registered_congr (hcb p).prcbvalid (hl p)).mp hp), hcall⟩
  unused := fun p hf => by
    rw [(hcb p).prcbvalid]
    exact h.unused p ((hl p).mp hf)
  running := fun p hv hc => hrun p (by rw [← (hcb p).prcbvalid]; exact hv) hc
  diverted := fun p hd => by
    rw [(hcb p).prtmpvalid]
    exact h.diverted p (hdiv p hd)
  unsent := fun p hp hu => by
    rw [(hcb p).prtmpvalid]
    exact h.unsent p ((registered_congr (hcb p).prcbvalid (hl p)).mp hp) hu

/-! ## 3. The steps

Each kind of step, with the operations that it amounts to.  All but the callback itself leave the
callback fields of everybody else alone. -/

/-- Nobody with a callback is in its own code right after a call. -/
theorem CallStep.no_user {d : Desk} {c : Call} {r : Kernel × Cont} (hc : CallStep s c r s')
    (h : DeskInv (s, d)) (hmade : ∀ p, c.made r.2 = some p → (s'.k.proctab p).prcbvalid ≠ 1)
    (hold : ∀ p, p ≠ s.k.currpid → (s'.k.proctab p).prcbvalid = 1 →
      (s.k.proctab p).prcbvalid = 1) (p : Int) (hv : (s'.k.proctab p).prcbvalid = 1) :
    s'.cont p ≠ .user := by
  intro hu
  rcases hc.user p hu with hm | ⟨hne, hu'⟩
  · exact hmade p hm hv
  · exact hne (h.running p (hold p hne hv) hu')

/-- The callback fields stay, or the callback is gone. -/
structure KeepsCallback (e e' : Procent) : Prop where
  prtmpvalid : e'.prtmpvalid = e.prtmpvalid
  same : e'.prcbvalid = 1 → SameCallback e e'

theorem SameCallback.keeps {e e' : Procent} (h : SameCallback e e') : KeepsCallback e e' :=
  ⟨h.prtmpvalid, fun _ => h⟩

/-- **A call that keeps the callback fields of every process that was there.** -/
theorem DeskInv.keep {d : Desk} {c : Call} {r : Kernel × Cont} (h : DeskInv (s, d))
    (hi : SysInv False s') (hc : CallStep s c r s') (hvic : c.victim s.k = none)
    (hdiv : c.diverts s.k = none)
    (hcb : ∀ p, c.made r.2 ≠ some p → KeepsCallback (s.k.proctab p) (s'.k.proctab p))
    (hmade : ∀ p, c.made r.2 = some p → (s'.k.proctab p).prcbvalid ≠ 1) : DeskInv (s', d) := by
  have hstay : ∀ p, c.made r.2 ≠ some p → Stays s.k s'.k p := fun p hp =>
    (hc.stays p hp).resolve_right fun hx => by rw [hvic] at hx; simp at hx
  have hne : ∀ p, (s'.k.proctab p).prcbvalid = 1 → c.made r.2 ≠ some p := fun p hv hm =>
    hmade p hm hv
  have hsame : ∀ p, (s'.k.proctab p).prcbvalid = 1 →
      SameCallback (s.k.proctab p) (s'.k.proctab p) := fun p hv => (hcb p (hne p hv)).same hv
  have hreg : ∀ p, registered s'.k p → registered s.k p := fun p hp =>
    (registered_congr (hsame p hp.2).prcbvalid (hstay p (hne p hp.2)).life).mp hp
  have hnouser := hc.no_user h hmade fun p _ hv => (hsame p hv).prcbvalid ▸ hv
  refine ⟨hi, ⟨h.handed.exact, fun p hp => ?_, fun hr hidle => absurd hidle (hnouser _ hr.2)⟩,
    fun p hf hv => ?_, fun p hv hu => absurd hu (hnouser p hv), fun p hd => ?_, fun p hp hu => ?_⟩
  · rw [(hsame p hp.2).outstanding]
    exact h.handed.copied p (hreg p hp)
  · refine h.unused p ((hstay p (hne p hv)).life.mp hf) ?_
    rw [← (hsame p hv).prcbvalid]
    exact hv
  · obtain ⟨hm, hd⟩ := hc.divert p hd
    rw [(hcb p hm).prtmpvalid]
    exact h.diverted p (hd.resolve_left fun hx => by rw [hdiv] at hx; simp at hx)
  · rw [(hsame p hp.2).prtmpvalid]
    exact h.unsent p (hreg p hp) hu

/-- An accepted message. -/
theorem DeskInv.deliver {d d' : Desk} {c : Call} {r : Kernel × Cont} {pid : Int} {msg : Nat}
    (h : DeskInv (s, d)) (hi : SysInv False s') (hc : CallStep s c r s')
    (hvic : c.victim s.k = none) (hm : ∀ v, c.made v = none) (hto : c.sendsTo s.k = some pid)
    (ha : accepts pid s.k) (hmail : mail s'.k = (MailOp.deliver pid msg).run (mail s.k))
    (hbroken : d'.broken = d.broken) (hbook : ∀ p, p ≠ pid → d'.book p = d.book p)
    (hpid : registered s.k pid → d'.book pid =
      { d.book pid with accepted := (d.book pid).accepted ++ [msg], unsent := false }) :
    DeskInv (s', d') := by
  have hstay : ∀ p, Stays s.k s'.k p := fun p =>
    (hc.stays p (by simp [hm])).resolve_right fun hx => by rw [hvic] at hx; simp at hx
  have hself : (s'.k.proctab pid).mail = _ := mail_run_self hmail
  have hother : ∀ p, p ≠ pid → SameCallback (s.k.proctab p) (s'.k.proctab p) := fun p hp =>
    .of_mail (mail_run_of_ne hmail hp)
  have hvalid : ∀ p, (s'.k.proctab p).prcbvalid = (s.k.proctab p).prcbvalid := fun p => by
    by_cases hp : p = pid
    · subst hp; exact congrArg Mail.prcbvalid hself
    · exact (hother p hp).prcbvalid
  have htmp : (s'.k.proctab pid).prtmpvalid = 1 := congrArg Mail.prtmpvalid hself
  have hbuf : (s'.k.proctab pid).prtmpbuf = msg := congrArg Mail.prtmpbuf hself
  have hreg : ∀ p, registered s'.k p → registered s.k p := fun p =>
    (registered_congr (hvalid p) (hstay p).life).mp
  have hnouser := hc.no_user h (fun p hp => by simp [hm] at hp) fun p _ hv => hvalid p ▸ hv
  refine ⟨hi, ⟨hbroken.trans h.handed.exact, fun p hp => ?_,
    fun hr hidle => absurd hidle (hnouser _ hr.2)⟩, fun p hf => ?_,
    fun p hv hu => absurd hu (hnouser p hv), fun p hd => ?_, fun p hp hu => ?_⟩
  · have hcop := h.handed.copied p (hreg p hp)
    by_cases hpp : p = pid
    · subst hpp
      have hnil : outstanding s.k p = [] :=
        outstanding_nil_iff.mpr fun ht => ha.2 ⟨(hreg p hp).2, ht⟩
      simp only [hnil, List.append_nil] at hcop
      simp only [hpid (hreg p hp), hcop, outstanding, htmp, hbuf, if_true]
    · rw [(hother p hpp).outstanding, hbook p hpp]
      exact hcop
  · rw [hvalid]
    exact h.unused p ((hstay p).life.mp hf)
  · by_cases hpp : p = pid
    · rw [hpp]; exact htmp
    · rw [(hother p hpp).prtmpvalid]
      refine h.diverted p ((hc.divert p hd).2.resolve_left fun hx => hpp ?_)
      rw [Call.diverts, hto] at hx
      exact (Option.some.inj (Option.filter_eq_some_iff.mp hx).1).symm
  · by_cases hpp : p = pid
    · subst hpp
      simp [hpid (hreg p hp)] at hu
    · rw [(hother p hpp).prtmpvalid]
      rw [hbook p hpp] at hu
      exact h.unsent p (hreg p hp) hu

/-- `send`. -/
theorem DeskInv.send {d : Desk} {pid : Int} {msg : Nat} (h : DeskInv (s, d))
    (hi : SysInv False s') (hs : step s (.call (.send pid msg)) = some s') :
    DeskInv (s', Desk.see s (.call (.send pid msg)) s' d) := by
  obtain ⟨r, hc⟩ := call_step h.sys False.elim hs
  obtain ⟨x, hx, rfl⟩ := returning_some hc.enter
  have hsee : Desk.see s (.call (.send pid msg)) s' d =
      if registered s.k pid then d.sent pid msg (some x.2) else d := by
    simp only [Desk.see, Call.message, hx, Option.map_some]
  rw [hsee]
  rcases send_cases hx with ⟨hno, rfl⟩ | ⟨ha, hok, hmail⟩
  · -- refused: to a registered process only while a message is outstanding
    have hsame : (if registered s.k pid then d.sent pid msg (some SYSERR) else d) = d := by
      split_ifs with hr
      · have ht : (s.k.proctab pid).prtmpvalid = 1 := by
          by_contra ht
          exact hno ⟨hr.1, fun hv => ht hv.2⟩
        have hu : (d.book pid).unsent = false := by
          by_contra hu
          exact h.unsent pid hr (by simpa using hu) ht
        have hne : ¬ SYSERR = OK := by decide
        simp [Desk.sent, hu, hne]
      · rfl
    rw [hsame]
    refine h.keep hi hc rfl ?_ (fun p _ => ?_) fun p hp => by simp [Call.made] at hp
    · simp [Call.diverts, Call.sendsTo, Call.message, rewrites, hno]
    · rw [hc.kernel]
      exact SameCallback.keeps ⟨rfl, rfl, rfl⟩
  · rw [hok]
    have hmail' : mail s'.k = (MailOp.deliver pid msg).run (mail s.k) := by
      rw [hc.kernel]; exact hmail
    refine h.deliver hi hc rfl (fun _ => rfl) rfl ha hmail' ?_ (fun p hp => ?_) fun hr => ?_
    · split_ifs <;> rfl
    · split_ifs
      · exact Function.update_of_ne hp _ _
      · rfl
    · rw [if_pos hr]
      exact Function.update_self _ _ _

/-- `cbregister`. -/
theorem DeskInv.cbregister {d : Desk} {fp mbufptr : Nat} (h : DeskInv (s, d))
    (hi : SysInv False s') (hok : HandsOver (s, d) (.call (.cbregister fp mbufptr)))
    (hs : step s (.call (.cbregister fp mbufptr)) = some s') :
    DeskInv (s', Desk.see s (.call (.cbregister fp mbufptr)) s' d) := by
  obtain ⟨r, hc⟩ := call_step h.sys False.elim hs
  have hr := hc.enter
  have hm := hc.mail
  simp only [Call.enter, returning, Option.map_some, Option.some.injEq] at hr
  subst hr
  by_cases hreg : registers fp mbufptr s.k
  · have hret : (Xinu.cbregister fp mbufptr s.k).2 = OK := by
      simp [Xinu.cbregister, hreg.1, hreg.2.1, hreg.2.2]
    simp only [Call.mailOps, hret, if_true, runOps_cons, runOps_nil] at hm
    have hstay : ∀ p, Stays s.k s'.k p := fun p =>
      (hc.stays p (by simp [Call.made])).resolve_right (by simp [Call.victim])
    have hself : (s'.k.proctab s.k.currpid).mail = _ := mail_run_self hm
    have hother : ∀ p, p ≠ s.k.currpid → SameCallback (s.k.proctab p) (s'.k.proctab p) :=
      fun p hp => .of_mail (mail_run_of_ne hm hp)
    have htmp : (s'.k.proctab s.k.currpid).prtmpvalid ≠ 1 := by
      rw [show (s'.k.proctab s.k.currpid).prtmpvalid = (s.k.proctab s.k.currpid).prtmpvalid from
        congrArg Mail.prtmpvalid hself]
      exact hok hreg
    have hold : ∀ p, p ≠ s.k.currpid → registered s'.k p → registered s.k p := fun p hp =>
      (registered_congr (hother p hp).prcbvalid (hstay p).life).mp
    have hrun := h.sys.kernel.settled.running
    have hnouser := hc.no_user h (fun p hp => by simp [Call.made] at hp) fun p hp hv =>
      (hother p hp).prcbvalid ▸ hv
    have hsee : Desk.see s (.call (.cbregister fp mbufptr)) s' d =
        d.opened s.k.currpid mbufptr := if_pos hreg
    rw [hsee]
    refine ⟨hi, ⟨h.handed.exact, fun p hp => ?_, fun hr hidle => absurd hidle (hnouser _ hr.2)⟩,
      fun p hf => ?_, fun p hv hu => absurd hu (hnouser p hv), fun p hd => ?_, fun p hp hu => ?_⟩
    · by_cases hpc : p = s.k.currpid
      · rw [hpc, outstanding_nil_iff.mpr htmp]
        simp [Desk.opened]
      · rw [(hother p hpc).outstanding]
        simp only [Desk.opened, Function.update_of_ne hpc]
        exact h.handed.copied p (hold p hpc hp)
    · have hf' := (hstay p).life.mp hf
      have hpc : p ≠ s.k.currpid := by
        rintro rfl
        rw [hrun] at hf'
        simp at hf'
      rw [(hother p hpc).prcbvalid]
      exact h.unused p hf'
    · have hd' : s.divert p = true := (hc.divert p hd).2.resolve_left (by
        simp [Call.diverts, Call.sendsTo, Call.message])
      have hpc : p ≠ s.k.currpid := by
        rintro rfl
        rw [hc.free] at hd'
        simp at hd'
      rw [(hother p hpc).prtmpvalid]
      exact h.diverted p hd'
    · by_cases hpc : p = s.k.currpid
      · rw [hpc]; exact htmp
      · simp only [Desk.opened, Function.update_of_ne hpc] at hu
        rw [(hother p hpc).prtmpvalid]
        exact h.unsent p (hold p hpc hp) hu
  · -- refused
    have hsame : (Xinu.cbregister fp mbufptr s.k).1 = s.k := by
      unfold Xinu.cbregister
      split_ifs with h1 h2 h3
      · rfl
      · rfl
      · rfl
      · exact absurd ⟨h1, h2, h3⟩ hreg
    have hsee : Desk.see s (.call (.cbregister fp mbufptr)) s' d = d := if_neg hreg
    rw [hsee]
    refine h.keep hi hc rfl rfl (fun p _ => ?_) fun p hp => by simp [Call.made] at hp
    rw [hc.kernel, hsame]
    exact SameCallback.keeps ⟨rfl, rfl, rfl⟩

/-- Operations that keep the callback fields of every process, or end its callback. -/
def MailOp.keepsCallback : MailOp → Bool
  | .take _ | .unregister _ => true
  | _ => false

/-- Taking a message does not concern the callback. -/
theorem take_same (h : mail k' = (MailOp.take q).run (mail k)) (p : Int) :
    SameCallback (k.proctab p) (k'.proctab p) := by
  by_cases hp : p = q
  · subst hp
    have hself := mail_run_self h
    exact ⟨congrArg Mail.prcbvalid hself, congrArg Mail.prtmpvalid hself,
      congrArg Mail.prtmpbuf hself⟩
  · exact .of_mail (mail_run_of_ne h hp)

theorem keepsCallback_run {o : MailOp} (ho : o.keepsCallback = true)
    (h : mail k' = o.run (mail k)) (p : Int) : KeepsCallback (k.proctab p) (k'.proctab p) := by
  by_cases hp : p = o.pid
  · have hself := mail_run_self h
    rw [← hp] at hself
    cases o with
    | take q => exact (take_same h p).keeps
    | unregister q =>
      have hoff : (k'.proctab p).prcbvalid = 0 := congrArg Mail.prcbvalid hself
      exact ⟨congrArg Mail.prtmpvalid hself, fun hv => by
        rw [hoff] at hv
        exact absurd hv (by decide)⟩
    | _ => simp [MailOp.keepsCallback] at ho
  · exact (SameCallback.of_mail (mail_run_of_ne h hp)).keeps

theorem keepsCallback_runOps {os : List MailOp} (ho : ∀ o ∈ os, o.keepsCallback = true)
    (hlen : os.length ≤ 1) (h : mail k' = runOps os (mail k)) (p : Int) :
    KeepsCallback (k.proctab p) (k'.proctab p) := by
  match os, hlen with
  | [], _ => exact (SameCallback.of_mail (congrFun h p)).keeps
  | [o], _ => exact keepsCallback_run (ho o (by simp)) h p

/-- A call that makes a process, or none. -/
theorem DeskInv.make {d : Desk} {c : Call} {r : Kernel × Cont} (op : Int → MailOp)
    (h : DeskInv (s, d)) (hi : SysInv False s') (hc : CallStep s c r s')
    (hvic : c.victim s.k = none) (hdiv : c.diverts s.k = none) (hop : ∀ q, (op q).pid = q)
    (hoff : ∀ q b, b.prcbvalid ≠ 1 → ((op q).on b).prcbvalid ≠ 1)
    (hm : mail s'.k = runOps ((c.made r.2).toList.map op) (mail s.k)) : DeskInv (s', d) := by
  cases hmade : c.made r.2 with
  | none =>
    rw [hmade] at hm
    exact h.keep hi hc hvic hdiv (fun p _ => (SameCallback.of_mail (congrFun hm p)).keeps)
      fun p hp => by rw [hmade] at hp; simp at hp
  | some q =>
    rw [hmade] at hm
    have hm' : mail s'.k = (op q).run (mail s.k) := hm
    refine h.keep hi hc hvic hdiv (fun p hp => ?_) fun p hp => ?_
    · have hpq : p ≠ (op q).pid := by
        rw [hop]
        rintro rfl
        exact hp hmade
      exact (SameCallback.of_mail (mail_run_of_ne hm' hpq)).keeps
    · have hqp : q = p := by
        rw [hmade] at hp
        exact Option.some.inj hp
      have hself := mail_run_self hm'
      rw [hop, hqp] at hself
      have hv : (s'.k.proctab p).prcbvalid = ((op p).on (s.k.proctab p).mail).prcbvalid :=
        congrArg Mail.prcbvalid hself
      rw [hv]
      exact hoff p _ (h.unused p (hc.made p hp))

/-- **A call.** -/
theorem DeskInv.call {d : Desk} {c : Call} (h : DeskInv (s, d)) (hi : SysInv False s')
    (hdom : CallbackRun (s, d) (.call c)) (hok : HandsOver (s, d) (.call c))
    (hs : step s (.call c) = some s') : DeskInv (s', Desk.see s (.call c) s' d) := by
  obtain ⟨r, hc⟩ := call_step h.sys False.elim hs
  have hm := hc.mail
  have other : (∀ o ∈ c.mailOps s.k r.2, o.keepsCallback = true) →
      (c.mailOps s.k r.2).length ≤ 1 → c.victim s.k = none → c.diverts s.k = none →
      c.made r.2 = none → DeskInv (s', d) := fun ho hlen hvic hdiv hmade =>
    h.keep hi hc hvic hdiv (fun p _ => keepsCallback_runOps ho hlen hm p)
      fun p hp => by rw [hmade] at hp; simp at hp
  cases c with
  | send pid msg => exact h.send hi hs
  | cbregister fp b => exact h.cbregister hi hok hs
  | kill pid => exact hdom.elim
  | userret => exact hdom.elim
  | cbunregister =>
    refine other (fun o ho => ?_) ?_ rfl rfl (by cases r.2 <;> rfl)
    · simp only [Call.mailOps] at ho
      split_ifs at ho <;> simp at ho
      rw [ho]; rfl
    · simp only [Call.mailOps]
      split_ifs <;> simp
  | recvclr =>
    refine other (fun o ho => ?_) ?_ rfl rfl (by cases r.2 <;> rfl)
    · simp only [Call.mailOps] at ho
      split_ifs at ho <;> simp at ho
      rw [ho]; rfl
    · simp only [Call.mailOps]
      split_ifs <;> simp
  | create f n p nm as =>
    exact h.make .fresh hi hc rfl rfl (fun _ => rfl) (fun _ _ _ => by simp [MailOp.on]) hm
  | rcreate f n p nm as => exact h.make .renew hi hc rfl rfl (fun _ => rfl) (fun _ _ hb => hb) hm
  | _ => exact other (by simp [Call.mailOps, Call.message, sendOps])
          (by simp [Call.mailOps, Call.message, sendOps]) rfl rfl (by cases r.2 <;> rfl)

/-- Only the rest of `clkhandler` can switch processes; what else is left of a call brings the
current process back to its own code. -/
theorem finish_user {c : Cont} {r : Kernel × Cont} (hnk : ∀ x, c ≠ .kill x)
    (hf : finishCall k c = some r) : c = .clkhandler ∧ r.2 = .iret ∨
      c ≠ .clkhandler ∧ r.2 = .user ∧ r.1.currpid = k.currpid := by
  cases c with
  | user => simp [finishCall] at hf
  | clkhandler =>
    rw [finishCall] at hf
    obtain ⟨k₁, -, rfl⟩ := Option.map_eq_some_iff.mp hf
    exact Or.inl ⟨rfl, rfl⟩
  | kill pid => exact absurd rfl (hnk pid)
  | recvtime =>
    rw [← Option.some.inj hf]
    exact Or.inr ⟨by simp, rfl, (recvtimeTail_bland k).same.currpid⟩
  | _ =>
    obtain rfl := Option.some.inj hf
    exact Or.inr ⟨by simp, rfl, rfl⟩

/-- The rest of a call does not concern callbacks. -/
theorem finish_same (h : Settled strict k) {c : Cont} {r : Kernel × Cont}
    (hf : finishCall k c = some r) (p : Int) : SameCallback (k.proctab p) (r.1.proctab p) := by
  have hm := finish_mail h hf
  simp only [Cont.mailOps] at hm
  split at hm
  · exact take_same hm p
  · split_ifs at hm
    · exact take_same hm p
    · exact .of_mail (congrFun hm p)
  · exact .of_mail (congrFun hm p)

/-- **Going on with a call.** -/
theorem DeskInv.finish {d : Desk} (h : DeskInv (s, d)) (hi : SysInv False s')
    (hok : HandsOver (s, d) .finish) (hs : step s .finish = some s') : DeskInv (s', d) := by
  obtain ⟨r, hr, rfl⟩ := Option.map_eq_some_iff.mp hs
  have hrun := h.sys.kernel.settled.running
  have hnk := h.sys.alive
  obtain ⟨-, hst, -⟩ := finish_spec h.sys.kernel hnk hr
  have hcb := finish_same h.sys.kernel.settled hr
  have hcur : r.2 = .user → r.1.currpid = s.k.currpid ∧ s.cont s.k.currpid ≠ .clkhandler := by
    intro hu
    rcases finish_user hnk hr with ⟨-, h1⟩ | ⟨h1, -, h2⟩
    · rw [hu] at h1
      simp at h1
    · exact ⟨h2, h1⟩
  refine h.frame hi hcb (fun p => (hst p).life) (fun p hv hu => ?_) (fun p hd => hd)
    fun hreg hidle hd => ?_
  · by_cases hpc : p = s.k.currpid
    · subst hpc
      simp only [Function.update_self] at hu
      exact (hcur hu).1.symm
    · simp only [Function.update_of_ne hpc] at hu
      exact absurd (h.running p hv hu) hpc
  · have hreg' := (registered_congr (hcb _).prcbvalid (hst _).life).mp hreg
    have hc : r.1.currpid = s.k.currpid := by
      by_contra hne
      have hu : s.cont r.1.currpid = .user := by
        have : Function.update s.cont s.k.currpid r.2 r.1.currpid = .user := hidle
        rwa [Function.update_of_ne hne] at this
      exact hne (h.running _ hreg'.2 hu)
    have hu : r.2 = .user := by
      have : Function.update s.cont s.k.currpid r.2 r.1.currpid = .user := hidle
      rwa [hc, Function.update_self] at this
    refine ((hcb _).outstanding).trans (outstanding_nil_iff.mpr ?_)
    simp only [hc] at hreg' hd ⊢
    exact hok hreg' hd (hcur hu).2

/-- `usercb` touches no field that decides what happens next. -/
theorem usercb_same (k : Kernel) (p : Int) : SameCallback (k.proctab p) ((usercb k).proctab p) := by
  have hm := usercb_mail k
  split_ifs at hm
  · have hm' : mail (usercb k) = (MailOp.copy k.currpid).run (mail k) := hm
    by_cases hp : p = k.currpid
    · subst hp
      have hself := mail_run_self hm'
      exact ⟨congrArg Mail.prcbvalid hself, congrArg Mail.prtmpvalid hself,
        congrArg Mail.prtmpbuf hself⟩
    · exact .of_mail (mail_run_of_ne hm' hp)
  · exact .of_mail (congrFun hm p)

/-- What a callback step does to the kernel. -/
theorem callback_step (hs : step s .callback = some s') :
    s.idle ∧ s.divert s.k.currpid = true ∧ Bland s.k s'.k ∧ s'.cont = s.cont ∧
      s'.divert = Function.update s.divert s.k.currpid false ∧
      (∀ p, SameCallback (s.k.proctab p) (s'.k.proctab p)) := by
  simp only [step] at hs
  split_ifs at hs with hg hc
  · obtain rfl := Option.some.inj hs
    exact ⟨hg.1, hg.2, usercb_bland s.k, rfl, rfl, usercb_same s.k⟩
  · obtain rfl := Option.some.inj hs
    exact ⟨hg.1, hg.2, Bland.refl s.k, rfl, rfl, fun _ => ⟨rfl, rfl, rfl⟩⟩

/-- **Running a callback that is not a registered one.** -/
theorem DeskInv.callback {d : Desk} (h : DeskInv (s, d)) (hi : SysInv False s')
    (hok : HandsOver (s, d) .callback) (hs : step s .callback = some s') : DeskInv (s', d) := by
  obtain ⟨-, -, hb, hcont, hdiv, hcb⟩ := callback_step hs
  have hc : s'.k.currpid = s.k.currpid := hb.same.currpid
  refine h.frame hi hcb hb.life (fun p hv hu => ?_) (fun p hd => ?_) fun hreg => ?_
  · rw [hc]
    exact h.running p hv (by rw [← hcont]; exact hu)
  · rw [hdiv] at hd
    by_cases hp : p = s.k.currpid
    · rw [hp, Function.update_self] at hd
      simp at hd
    · rwa [Function.update_of_ne hp] at hd
  · rw [hc] at hreg
    exact absurd ((registered_congr (hcb _).prcbvalid (hb.life _)).mp hreg) hok

/-- **A clock interrupt.** -/
theorem DeskInv.tick {d : Desk} (h : DeskInv (s, d)) (hi : SysInv False s')
    (hs : step s .tick = some s') : DeskInv (s', d) := by
  simp only [step] at hs
  split_ifs at hs with hg
  obtain ⟨k₁, hk, rfl⟩ := Option.map_eq_some_iff.mp hs
  have hq := (clkhandler_keeps h.sys.kernel.settled hk).quiet
  have hcb : ∀ p, SameCallback (s.k.proctab p) (k₁.proctab p) := fun p =>
    .of_mail (congrFun hq.mail p)
  have hnouser : ∀ p, (s.k.proctab p).prcbvalid = 1 →
      Function.update s.cont s.k.currpid .clkhandler p ≠ .user := by
    intro p hv hu
    by_cases hp : p = s.k.currpid
    · rw [hp, Function.update_self] at hu
      simp at hu
    · rw [Function.update_of_ne hp] at hu
      exact hp (h.running p hv hu)
  refine h.frame hi hcb (fun p => (hq.stays p).life) (fun p hv hu => absurd hu (hnouser p hv))
    (fun p hd => hd) fun hreg hidle => absurd hidle (hnouser _ ?_)
  rw [← (hcb _).prcbvalid]
  exact hreg.2

/-- **The step lemma.** -/
theorem DeskInv.step {d : Desk} {e : Event} (h : DeskInv (s, d)) (hdom : CallbackRun (s, d) e)
    (hok : HandsOver (s, d) e) (hs : Xinu.step s e = some s') :
    DeskInv (s', Desk.see s e s' d) := by
  have hi := step_inv h.sys False.elim hs
  cases e with
  | call c => exact h.call hi hdom hok hs
  | finish => exact h.finish hi hok hs
  | callback =>
    have hsee : Desk.see s .callback s' d = d := if_neg hok
    rw [hsee]
    exact h.callback hi hok hs
  | tick => exact h.tick hi hs
  | store a v =>
    simp only [Xinu.step] at hs
    split_ifs at hs with hg
    obtain rfl := Option.some.inj hs
    exact h.frame hi (fun p => ⟨rfl, rfl, rfl⟩) (fun p => Iff.rfl) h.running (fun p hd => hd)
      h.handed.called

/-- The books before the first process runs. -/
theorem boot_desk {image : Image} {heap : Heap} (h : boot image heap = some s) :
    DeskInv (s, .empty) := by
  obtain ⟨base, hb⟩ := boot_spec h
  have hv : ∀ p, (s.k.proctab p).prcbvalid = 0 := fun p => by
    rw [hb.proctab]
    by_cases hp : p = NULLPROC
    · subst hp; rw [Function.update_self]; rfl
    · rw [Function.update_of_ne hp]; rfl
  have hno : ∀ p, ¬ (s.k.proctab p).prcbvalid = 1 := fun p hp => by
    rw [hv] at hp
    exact absurd hp (by decide)
  refine ⟨boot_inv h, ⟨rfl, fun p hp => absurd hp.2 (hno p), fun hr => absurd hr.2 (hno _)⟩,
    fun p _ => hno p, fun p hp => absurd hp (hno p), fun p hp => ?_,
    fun p hp => absurd hp.2 (hno p)⟩
  rw [hb.divert] at hp
  simp at hp

/-! ## 4. When messages are handed over

The books balance in every run of handing steps, and the first other step unbalances them.
`usercb` is a given here: a callback of the user's own that copied the message would be another
matter. -/

/-- Runs in which no receiver with a message outstanding gets the processor back. -/
def HandingRun (x : Sys × Desk) (e : Event) : Prop := CallbackRun x e ∧ HandsOver x e

theorem Watched.desk {x : Sys × Desk} (h : Watched Desk.see .empty HandingRun x) : DeskInv x := by
  obtain ⟨image, heap, s₀, hb, hr⟩ := h
  refine hr.invariant (boot_desk hb) fun y e z hy hok hs => ?_
  obtain ⟨t, ht, rfl⟩ := Runs.watch_some.mp hs
  exact hy.step hok.1 hok.2 ht

/-- **The first step that does not hand over breaks the books.** -/
theorem DeskInv.breaks {d : Desk} {e : Event} (h : DeskInv (s, d)) (hok : ¬ HandsOver (s, d) e)
    (hs : Xinu.step s e = some s') : ¬ Handed (s', Desk.see s e s' d) := by
  intro hh
  have hrun := h.sys.kernel.settled.running
  cases e with
  | callback =>
    have hreg : registered s.k s.k.currpid := not_not.mp hok
    obtain ⟨-, hd, -, -, -, hcb⟩ := callback_step hs
    have ht : (s'.k.proctab s.k.currpid).prtmpvalid = 1 :=
      (hcb _).prtmpvalid.trans (h.diverted _ hd)
    have hx := hh.exact
    simp [Desk.see, hreg, Desk.ran, ht] at hx
  | finish =>
    simp only [HandsOver, not_forall, not_not] at hok
    obtain ⟨hreg, hd, hc, ht⟩ := hok
    obtain ⟨r, hr, rfl⟩ := Option.map_eq_some_iff.mp hs
    have hnk := h.sys.alive
    obtain ⟨hu, hcur⟩ : r.2 = .user ∧ r.1.currpid = s.k.currpid := by
      rcases finish_user hnk hr with ⟨h1, -⟩ | ⟨-, h2⟩
      · exact absurd h1 hc
      · exact h2
    obtain ⟨-, hst, -⟩ := finish_spec h.sys.kernel hnk hr
    have hcb := finish_same h.sys.kernel.settled hr s.k.currpid
    have hcalled := hh.called
    simp only [Sys.idle, hcur, Function.update_self] at hcalled
    have hnil := hcalled ((registered_congr hcb.prcbvalid (hst _).life).mpr hreg) hu hd
    rw [hcb.outstanding] at hnil
    exact outstanding_nil_iff.mp hnil ht
  | call c =>
    cases c with
    | cbregister fp mbufptr =>
      simp only [HandsOver, not_forall, not_not] at hok
      obtain ⟨hreg, ht⟩ := hok
      obtain ⟨r, hc⟩ := call_step h.sys False.elim hs
      have hr := hc.enter
      have hm := hc.mail
      simp only [Call.enter, returning, Option.map_some, Option.some.injEq] at hr
      subst hr
      have hret : (Xinu.cbregister fp mbufptr s.k).2 = OK := by
        simp [Xinu.cbregister, hreg.1, hreg.2.1, hreg.2.2]
      simp only [Call.mailOps, hret, if_true, runOps_cons, runOps_nil] at hm
      have hself : (s'.k.proctab s.k.currpid).mail = _ := mail_run_self hm
      have hst : Stays s.k s'.k s.k.currpid :=
        (hc.stays _ (by simp [Call.made])).resolve_right (by simp [Call.victim])
      have hgood : ¬ isbadpid s'.k s.k.currpid := by
        have := running_good h.sys.kernel.settled
        simpa only [isbadpid, hst.life] using this
      have hcop := hh.copied s.k.currpid ⟨hgood, congrArg Mail.prcbvalid hself⟩
      have hsee : Desk.see s (.call (.cbregister fp mbufptr)) s' d =
          d.opened s.k.currpid mbufptr := if_pos hreg
      simp only [hsee, Desk.opened, Function.update_self, List.nil_append] at hcop
      refine outstanding_nil_iff.mp hcop.symm ?_
      rw [show (s'.k.proctab s.k.currpid).prtmpvalid = (s.k.proctab s.k.currpid).prtmpvalid from
        congrArg Mail.prtmpvalid hself]
      exact ht
    | _ => exact hok trivial
  | tick => exact hok trivial
  | store a v => exact hok trivial

/-- **Where callback messages are handed over.**  A send made while a message is outstanding is
refused and changes nothing.  The books balance in every run in which no receiver with a message
outstanding gets the processor back, and the step that lets one do so is the one that breaks
them. -/
theorem callback_messages (k : Kernel) (pid : Int) (msg : Nat) :
    ((k.proctab pid).prcbvalid = 1 → (k.proctab pid).prtmpvalid = 1 →
      send pid msg k = some (k, SYSERR)) ∧
    ∀ x, Watched Desk.see .empty HandingRun x → Handed x ∧
      ∀ e y, CallbackRun x e → watch step Desk.see x e = some y → (Handed y ↔ HandsOver x e) := by
  refine ⟨fun hv ht => by simp [send, hv, ht], fun x hx => ?_⟩
  have h := hx.desk
  refine ⟨h.handed, fun e y hdom hy => ?_⟩
  obtain ⟨t, ht, rfl⟩ := Runs.watch_some.mp hy
  refine ⟨fun hh => ?_, fun hok => (h.step hdom hok ht).handed⟩
  by_contra hok
  exact h.breaks hok ht hh

/-- The frames of a process that called `sleepms` from its top-level function, on a stack with
the base `base`. -/
def pushFrames (base : Nat) : List Event :=
  [.store (base - 8) base, .store (base - 16) (base - 8), .store (base - 24) (base - 16)]

/-- The second process registers `usercb` and goes to sleep; the first sends it a message; the
clock wakes it up and it runs its callback. -/
def callbackRound : List Event :=
  [makeMain 20, makeProcess 30, .finish, .call (.resume 2),
    .call (.cbregister 0x106043 0x150000), .finish] ++ pushFrames 0x23fe6c ++
  [.call (.sleepms 1), .finish, .call (.send 2 7), .finish, .tick, .finish, .callback]

/-- **After its callback has run the message is still outstanding**, and the buffer still holds
what it held. -/
theorem message_not_handed : ∃ x, Watched Desk.see .empty CallbackRun x ∧ ¬ Handed x := by
  have h : (watchFromBoot Desk.see .empty CallbackRun callbackRound).map (fun x => x.2.broken) =
      some true := by decide +kernel
  obtain ⟨x, hx, hb⟩ := Option.map_eq_some_iff.mp h
  refine ⟨x, watched_watchFromBoot hx, fun hh => ?_⟩
  rw [hh.exact] at hb
  simp at hb

end Xinu
