/-
# What a registration guarantees

A registration names a callback function, which should lie in the text segment, and a buffer,
which should not.  `cbregister` compares with both ends of the segment and gets each wrong at one
of them: `fp > &etext` lets the first address behind the text pass as a function, and
`mbufptr > &text` lets the first address of the text pass as a buffer.  And `usercb`, which is to
fill the buffer, overwrites the pointer to it.

The registrations stay as they should be in every run that does neither, and the first step that
does one of these spoils them (`registrations_kept`).
-/
import Xinu.Callback

namespace Xinu

open Runs ByteMemory

variable {strict : Prop} {k k' : Kernel} {s s' : Sys} {p q : Int} {g : Int → Nat}

/-! ## 1. Registrations

The buffer that a process has named is remembered beside the system: in the process table the
pointer may be overwritten. -/

/-- The address lies in the text segment. -/
def Image.inText (image : Image) (a : Nat) : Prop := image.text ≤ a ∧ a < image.etext

instance (image : Image) (a : Nat) : Decidable (image.inText a) :=
  inferInstanceAs (Decidable (_ ∧ _))

/-- Remembers the buffer each process named when it last registered. -/
def namedBuffer (s : Sys) (e : Event) (_ : Sys) (g : Int → Nat) : Int → Nat :=
  match e with
  | .call (.cbregister fp mbufptr) =>
    if registers fp mbufptr s.k then Function.update g s.k.currpid mbufptr else g
  | _ => g

/-- A registration in order: the function is in the text, and the buffer is the one named and not
in the text. -/
structure InOrder (image : Image) (named : Nat) (b : Mail) : Prop where
  prcbptr : image.inText b.prcbptr
  prmbufptr : b.prmbufptr = named
  outside : ¬ image.inText b.prmbufptr

/-- **Every valid registration is in order.** -/
def Registrations (x : Sys × (Int → Nat)) : Prop :=
  ∀ p, (x.1.k.proctab p).prcbvalid = 1 → InOrder x.1.k.image (x.2 p) (x.1.k.proctab p).mail

/-- A step that registers with neither end of the text segment, and does not run `usercb` for a
registered process with a message that is not the address of its buffer. -/
def KeepsRegistration (x : Sys × (Int → Nat)) : Event → Prop
  | .call (.cbregister fp mbufptr) =>
    registers fp mbufptr x.1.k → fp ≠ x.1.k.image.etext ∧ mbufptr ≠ x.1.k.image.text
  | .callback =>
    let p := x.1.k.proctab x.1.k.currpid
    p.prcbptr = x.1.k.image.usercb → p.prcbvalid = 1 → p.prtmpvalid = 1 → p.prtmpbuf = p.prmbufptr
  | _ => True

/-! ## 2. The segments do not move

Whether a registration is in order depends on the text segment, which no function of the kernel
writes. -/

theorem makeProc_image {fill : Int → Kernel → Kernel} {f n : Nat} {prio : Pri16}
    {nm : Nat → UInt8} {as : List Nat} {pid : Int} {r : Kernel × Int}
    (hfill : ∀ k, (fill pid k).image = k.image) (h : makeProc fill f n prio nm as pid k = some r) :
    r.1.image = k.image := by
  have hg : ∀ k₁ a, k.getstk n = some (k₁, a) → k₁.image = k.image := by
    intro k₁ a hg
    obtain ⟨x, -, hx⟩ := Option.bind_eq_some_iff.mp hg
    obtain ⟨rfl, -⟩ := Prod.mk.inj (Option.some.inj hx)
    rfl
  rcases makeProc_cases h with rfl | ⟨k₁, hs, rfl⟩ | ⟨h0, k₁, saddr, hs, -, rfl⟩
  · rfl
  · exact hg k₁ _ hs
  · rw [← hg k₁ _ hs]
    exact hfill ({ k₁ with prcount := k₁.prcount + 1 }.setProc pid
      (initProc saddr n prio nm k₁.currpid))

theorem send_image {pid : Int} {msg : Nat} {r : Kernel × Int} (h : send pid msg k = some r) :
    r.1.image = k.image := by
  unfold send at h
  split_ifs at h with h1 h2
  · rw [← Option.some.inj h]
  · rw [← Option.some.inj h]
  · simp only at h
    split_ifs at h with h3
    · obtain ⟨x, -, hx⟩ := Option.bind_eq_some_iff.mp h
      rw [← Option.some.inj hx]
      rfl
    · rw [← Option.some.inj h]
      rfl

theorem kill_image (h : KernelInv strict k) {pid : Int} {r : Kernel × Cont}
    (hk : kill pid k = some r) : r.1.image = k.image := by
  rcases kill_cases hk with ⟨-, rfl⟩ | ⟨hgood, hnull, k₁, v₁, k₂, v₂, hs, hf, hk⟩
  · rfl
  · obtain ⟨-, hkilled, -⟩ := kill_prefix h hgood hnull hs hf hk
    obtain ⟨y, -, hy⟩ := Option.bind_eq_some_iff.mp hf
    obtain ⟨rfl, -⟩ := Prod.mk.inj (Option.some.inj hy)
    have hsend : k₁.image = k.image := send_image hs
    exact hkilled.image.trans hsend

theorem create_image {f n : Nat} {prio : Pri16} {nm : Nat → UInt8} {as : List Nat}
    {r : Kernel × Int} (h : create f n prio nm as k = some r) : r.1.image = k.image := by
  unfold create at h
  split_ifs at h with h1
  · rw [← Option.some.inj h]
  · simp only at h
    generalize newpid k.proctab k.createNextpid = pn at h
    exact (makeProc_image (fun _ => rfl) h :)

theorem rcreate_image {f n : Nat} {prio : Pri16} {nm : Nat → UInt8} {as : List Nat}
    {r : Kernel × Int} (h : rcreate f n prio nm as k = some r) : r.1.image = k.image := by
  unfold rcreate at h
  split_ifs at h with h1
  · rw [← Option.some.inj h]
  · simp only at h
    generalize newpid k.proctab k.rcreateNextpid = pn at h
    obtain ⟨y, hy, h⟩ := Option.bind_eq_some_iff.mp h
    have hm : y.1.image = k.image := (makeProc_image (fun _ => rfl) hy :)
    split_ifs at h with h2
    · rw [← Option.some.inj h]
      exact hm
    · obtain ⟨z, hz, h⟩ := Option.bind_eq_some_iff.mp h
      rw [← Option.some.inj h]
      exact (ready_only hz).image.trans hm

theorem enter_image {c : Call} (h : KernelInv strict k)
    (hnull : k.currpid = NULLPROC → c.byNull = true) {r : Kernel × Cont}
    (he : c.enter k = some r) : r.1.image = k.image := by
  cases c with
  | create f n p nm as =>
    obtain ⟨x, hx, rfl⟩ := returning_some he
    exact create_image hx
  | rcreate f n p nm as =>
    obtain ⟨x, hx, rfl⟩ := returning_some he
    exact rcreate_image hx
  | kill pid => exact kill_image h he
  | userret => exact kill_image h he
  | recvclr => rw [← Option.some.inj he]; dsimp only [recvclr]; split_ifs <;> rfl
  | send pid msg =>
    obtain ⟨x, hx, rfl⟩ := returning_some he
    exact send_image hx
  | chprio pid newprio => rw [← Option.some.inj he]; dsimp only [chprio]; split_ifs <;> rfl
  | cbregister fp b => rw [← Option.some.inj he]; dsimp only [cbregister]; split_ifs <;> rfl
  | cbunregister => rw [← Option.some.inj he]; dsimp only [cbunregister]; split_ifs <;> rfl
  | getmem | freemem | getstk | freestk =>
    obtain ⟨h, hh⟩ := enter_heap rfl he
    rw [hh]
    rfl
  | _ => exact (enter_keeps h.settled rfl hnull he).quiet.image

theorem finish_image (h : Settled strict k) {c : Cont} {r : Kernel × Cont}
    (hf : finishCall k c = some r) : r.1.image = k.image := by
  cases c with
  | user => simp [finishCall] at hf
  | recvtime => rw [← Option.some.inj hf]; dsimp only [recvtimeTail]; split_ifs <;> rfl
  | kill pid =>
    obtain rfl := Option.some.inj hf
    exact ((unsleep_only pid k).trans (setState_only _ pid .free)).image
  | clkhandler =>
    rw [finishCall] at hf
    obtain ⟨k₁, h1, rfl⟩ := Option.map_eq_some_iff.mp hf
    exact (clkhandlerTail_keeps h h1).quiet.image
  | _ => obtain rfl := Option.some.inj hf; rfl

/-- **No step moves the text segment.** -/
theorem step_image {e : Event} (h : SysInv strict s) (hs : step s e = some s') :
    s'.k.image = s.k.image := by
  cases e with
  | call c =>
    simp only [step] at hs
    split_ifs at hs with hg
    obtain ⟨r, hr, rfl⟩ := Option.map_eq_some_iff.mp hs
    exact enter_image h.kernel hg.2.2 hr
  | finish =>
    obtain ⟨r, hr, rfl⟩ := Option.map_eq_some_iff.mp hs
    exact finish_image h.kernel.settled hr
  | callback =>
    simp only [step] at hs
    split_ifs at hs with hg hb
    · rw [← Option.some.inj hs]
      dsimp only [usercb]
      split_ifs <;> rfl
    · rw [← Option.some.inj hs]
  | tick =>
    simp only [step] at hs
    split_ifs at hs with hg
    obtain ⟨k₁, h1, rfl⟩ := Option.map_eq_some_iff.mp hs
    exact (clkhandler_keeps h.kernel.settled h1).quiet.image
  | store a v =>
    simp only [step] at hs
    split_ifs at hs with hg
    rw [← Option.some.inj hs]
    rfl

/-! ## 3. Which operations matter

Steps are lists of operations on the message fields.  All but two kinds of operation leave every
registration in order. -/

/-- Every valid registration is in order, said of the message fields. -/
def InOrderAll (image : Image) (g : Int → Nat) (f : Int → Mail) : Prop :=
  ∀ p, (f p).prcbvalid = 1 → InOrder image (g p) (f p)

/-- The operations that write neither the function nor the buffer of a valid registration. -/
def MailOp.harmless : MailOp → Bool
  | .register .. | .copy _ => false
  | _ => true

theorem MailOp.harmless_keeps {o : MailOp} (ho : o.harmless = true) {image : Image} {n : Nat}
    {b : Mail} (h : b.prcbvalid = 1 → InOrder image n b) :
    (o.on b).prcbvalid = 1 → InOrder image n (o.on b) := by
  intro hv
  cases o with
  | register pid fp mbufptr => simp [MailOp.harmless] at ho
  | copy pid => simp [MailOp.harmless] at ho
  | deliver pid msg => exact ⟨(h hv).prcbptr, (h hv).prmbufptr, (h hv).outside⟩
  | take pid => exact ⟨(h hv).prcbptr, (h hv).prmbufptr, (h hv).outside⟩
  | renew pid => exact ⟨(h hv).prcbptr, (h hv).prmbufptr, (h hv).outside⟩
  | unregister pid => exact absurd hv (by simp [MailOp.on])
  | fresh pid => exact absurd hv (by simp [MailOp.on])

theorem runOps_inOrder {image : Image} {os : List MailOp} {f : Int → Mail}
    (h : InOrderAll image g f) (hos : ∀ o ∈ os, o.harmless = true) :
    InOrderAll image g (runOps os f) :=
  runOps_all (P := fun p b => b.prcbvalid = 1 → InOrder image (g p) b) h
    fun o ho _ hb => o.harmless_keeps (hos o ho) hb

/-! ## 4. The steps

A step is harmless, or it is a call of `cbregister`, or it runs a callback; the exact condition is
found for each. -/

structure RegistrationInv (x : Sys × (Int → Nat)) : Prop where
  sys : SysInv False x.1
  ok : Registrations x

theorem harmless_sendOps (m : Option (Int × Nat)) (k : Kernel) :
    ∀ o ∈ sendOps m k, o.harmless = true := by
  intro o ho
  unfold sendOps at ho
  split at ho
  · simp at ho
  · split_ifs at ho
    · obtain rfl := List.mem_singleton.mp ho
      rfl
    · simp at ho

/-- Only `cbregister` and `usercb` do harm. -/
theorem harmless_step {e : Event} (hreg : ∀ fp mbufptr, e ≠ .call (.cbregister fp mbufptr))
    (hcb : e ≠ .callback) : ∀ o ∈ e.mailOps s, o.harmless = true := by
  intro o ho
  cases e with
  | callback => exact absurd rfl hcb
  | tick => simp [Event.mailOps] at ho
  | store a v => simp [Event.mailOps] at ho
  | finish =>
    simp only [Event.mailOps] at ho
    generalize s.cont s.k.currpid = c at ho
    cases c with
    | receive =>
      obtain rfl := List.mem_singleton.mp ho
      rfl
    | recvtime =>
      simp only [Cont.mailOps] at ho
      split_ifs at ho
      · obtain rfl := List.mem_singleton.mp ho
        rfl
      · simp at ho
    | _ => simp [Cont.mailOps] at ho
  | call c =>
    simp only [Event.mailOps] at ho
    cases hr : c.enter s.k with
    | none => simp [hr] at ho
    | some r =>
      simp only [hr, Option.map_some, Option.getD_some] at ho
      cases c with
      | create f n p nm as =>
        obtain ⟨x, -, rfl⟩ := List.mem_map.mp ho
        rfl
      | rcreate f n p nm as =>
        obtain ⟨x, -, rfl⟩ := List.mem_map.mp ho
        rfl
      | recvclr =>
        simp only [Call.mailOps] at ho
        split_ifs at ho
        · obtain rfl := List.mem_singleton.mp ho
          rfl
        · simp at ho
      | cbregister fp mbufptr => exact absurd rfl (hreg fp mbufptr)
      | cbunregister =>
        simp only [Call.mailOps] at ho
        split_ifs at ho
        · obtain rfl := List.mem_singleton.mp ho
          rfl
        · simp at ho
      | _ =>
        simp only [Call.mailOps] at ho
        exact harmless_sendOps _ s.k o ho

/-- What `cbregister` amounts to. -/
theorem cbregister_ops (fp mbufptr : Nat) :
    (Event.call (.cbregister fp mbufptr)).mailOps s =
      if registers fp mbufptr s.k then [.register s.k.currpid fp mbufptr] else [] := by
  have hne : ¬ SYSERR = OK := by decide
  by_cases h1 : (s.k.proctab s.k.currpid).prcbvalid = 1
  · simp [Event.mailOps, Call.enter, returning, Call.mailOps, cbregister, registers, h1, hne]
  by_cases h2 : fp < s.k.image.text ∨ fp > s.k.image.etext
  · simp [Event.mailOps, Call.enter, returning, Call.mailOps, cbregister, registers, h1, h2, hne]
  by_cases h3 : mbufptr > s.k.image.text ∧ mbufptr < s.k.image.etext
  · simp [Event.mailOps, Call.enter, returning, Call.mailOps, cbregister, registers, h1,
      h2, h3, hne]
  · simp [Event.mailOps, Call.enter, returning, Call.mailOps, cbregister, registers, h1, h2, h3]

/-- One entry written, the others in order. -/
theorem inOrderAll_update {image : Image} {f : Int → Mail} (h : InOrderAll image g f) (p : Int)
    (n : Nat) (b : Mail) : InOrderAll image (Function.update g p n) (Function.update f p b) ↔
      (b.prcbvalid = 1 → InOrder image n b) := by
  constructor
  · intro hall hb
    have hp := hall p
    simp only [Function.update_self] at hp
    exact hp hb
  · intro hb q hq
    by_cases hqp : q = p
    · subst hqp
      simp only [Function.update_self] at hq ⊢
      exact hb hq
    · simp only [Function.update_of_ne hqp] at hq ⊢
      exact h q hq

/-- Between the bounds `cbregister` checks, only the two ends are wrong. -/
theorem inOrder_register {fp mbufptr : Nat} {b : Mail} (h : registers fp mbufptr k) :
    InOrder k.image mbufptr { b with prcbptr := fp, prmbufptr := mbufptr, prcbvalid := 1 } ↔
      fp ≠ k.image.etext ∧ mbufptr ≠ k.image.text := by
  obtain ⟨-, h1, h2⟩ := h
  constructor
  · intro ho
    have hfp : k.image.text ≤ fp ∧ fp < k.image.etext := ho.prcbptr
    have hout : ¬ (k.image.text ≤ mbufptr ∧ mbufptr < k.image.etext) := ho.outside
    omega
  · intro hne
    refine ⟨?_, rfl, ?_⟩
    · show k.image.text ≤ fp ∧ fp < k.image.etext
      omega
    · show ¬ (k.image.text ≤ mbufptr ∧ mbufptr < k.image.etext)
      omega

/-- **One step**: the registrations are in order after it if and only if it keeps them so. -/
theorem RegistrationInv.step_iff {g : Int → Nat} {e : Event} (h : RegistrationInv (s, g))
    (hs : step s e = some s') :
    Registrations (s', namedBuffer s e s' g) ↔ KeepsRegistration (s, g) e := by
  have himage := step_image h.sys hs
  have hmail := step_mail h.sys hs
  have hold : InOrderAll s.k.image g (mail s.k) := h.ok
  have hreg : ∀ g' : Int → Nat,
      Registrations (s', g') ↔ InOrderAll s.k.image g' (runOps (e.mailOps s) (mail s.k)) := by
    intro g'
    rw [← hmail, ← himage]
    exact Iff.rfl
  rw [hreg]
  cases e with
  | call c =>
    cases c with
    | cbregister fp mbufptr =>
      rw [cbregister_ops]
      by_cases hr : registers fp mbufptr s.k
      · rw [if_pos hr, runOps_cons, runOps_nil]
        simp only [namedBuffer, KeepsRegistration, hr, if_true, true_implies]
        rw [← inOrder_register (b := (s.k.proctab s.k.currpid).mail) hr]
        refine (inOrderAll_update hold s.k.currpid mbufptr _).trans ?_
        exact ⟨fun hb => hb rfl, fun ho _ => ho⟩
      · rw [if_neg hr, runOps_nil]
        simp only [namedBuffer, if_neg hr]
        exact ⟨fun _ hr' => absurd hr' hr, fun _ => hold⟩
    | _ =>
      exact ⟨fun _ => trivial, fun _ => runOps_inOrder hold (harmless_step (by simp) (by simp))⟩
  | callback =>
    simp only [Event.mailOps, namedBuffer, KeepsRegistration]
    by_cases hc : (s.k.proctab s.k.currpid).prcbptr = s.k.image.usercb ∧
        (s.k.proctab s.k.currpid).prtmpvalid = 1
    · obtain ⟨hptr, hvalid⟩ := hc
      rw [if_pos ⟨hptr, hvalid⟩, runOps_cons, runOps_nil]
      simp only [hptr, hvalid, true_implies]
      have hg : g = Function.update g s.k.currpid (g s.k.currpid) :=
        (Function.update_eq_self _ _).symm
      conv_lhs => rw [hg]
      refine (inOrderAll_update hold s.k.currpid _ _).trans ?_
      refine forall_congr' fun hv => ?_
      have ho := hold s.k.currpid hv
      constructor
      · intro hnew
        exact hnew.prmbufptr.trans ho.prmbufptr.symm
      · intro heq
        have hcopy : (MailOp.copy s.k.currpid).on (mail s.k (MailOp.copy s.k.currpid).pid) =
            mail s.k s.k.currpid := by
          simp only [MailOp.on, MailOp.pid, mail, Procent.mail, heq]
        rw [hcopy]
        exact ho
    · rw [if_neg hc, runOps_nil]
      exact ⟨fun _ h1 _ h2 => absurd ⟨h1, h2⟩ hc, fun _ => hold⟩
  | _ => exact ⟨fun _ => trivial, fun _ => runOps_inOrder hold (harmless_step (by simp) (by simp))⟩

theorem boot_registrations {image : Image} {heap : Heap} (h : boot image heap = some s) :
    RegistrationInv (s, fun _ => 0) := by
  obtain ⟨base, hb⟩ := boot_spec h
  refine ⟨boot_inv h, fun p hp => ?_⟩
  rw [hb.proctab] at hp
  by_cases hpn : p = NULLPROC
  · subst hpn
    rw [Function.update_self] at hp
    have hzero : (nullEntry base).prcbvalid = 0 := rfl
    rw [hzero] at hp
    exact absurd hp (by decide)
  · rw [Function.update_of_ne hpn] at hp
    exact absurd hp (by decide)

instance (x : Sys × (Int → Nat)) (e : Event) : Decidable (KeepsRegistration x e) := by
  cases e with
  | call c =>
    cases c with
    | cbregister fp mbufptr =>
      exact inferInstanceAs (Decidable (registers fp mbufptr x.1.k →
        fp ≠ x.1.k.image.etext ∧ mbufptr ≠ x.1.k.image.text))
    | _ => exact instDecidableTrue
  | callback =>
    exact inferInstanceAs (Decidable ((x.1.k.proctab x.1.k.currpid).prcbptr = x.1.k.image.usercb →
      (x.1.k.proctab x.1.k.currpid).prcbvalid = 1 → (x.1.k.proctab x.1.k.currpid).prtmpvalid = 1 →
      (x.1.k.proctab x.1.k.currpid).prtmpbuf = (x.1.k.proctab x.1.k.currpid).prmbufptr))
  | _ => exact instDecidableTrue

theorem Watched.registrations {x : Sys × (Int → Nat)}
    (h : Watched namedBuffer (fun _ => 0) KeepsRegistration x) : RegistrationInv x := by
  obtain ⟨image, heap, s₀, hb, hr⟩ := h
  refine hr.invariant (boot_registrations hb) fun y e z hy hok hs => ?_
  obtain ⟨t, ht, rfl⟩ := watch_some.mp hs
  exact ⟨step_inv hy.sys False.elim ht, (hy.step_iff ht).mpr hok⟩

/-- **Where registrations stay in order.**  A second registration is refused, and a refused one
changes nothing.  In every run that keeps them so all valid registrations are in order, and the
first step that does not is the one that spoils them. -/
theorem registrations_kept (k : Kernel) (fp mbufptr : Nat) :
    ((k.proctab k.currpid).prcbvalid = 1 → (cbregister fp mbufptr k).2 = SYSERR) ∧
    ((cbregister fp mbufptr k).2 = SYSERR → (cbregister fp mbufptr k).1 = k) ∧
    ∀ x, Watched namedBuffer (fun _ => 0) KeepsRegistration x → Registrations x ∧
      ∀ e y, watch step namedBuffer x e = some y → (Registrations y ↔ KeepsRegistration x e) := by
  refine ⟨fun hv => ?_, fun hr => ?_, fun x hx => ⟨hx.registrations.ok, fun e y hy => ?_⟩⟩
  · simp [cbregister, hv]
  · unfold cbregister at hr ⊢
    split_ifs with h1 h2 h3
    · rfl
    · rfl
    · rfl
    · rw [if_neg h1, if_neg h2, if_neg h3] at hr
      have hok : OK = SYSERR := hr
      exact absurd hok (by decide)
  · obtain ⟨t, ht, rfl⟩ := watch_some.mp hy
    exact hx.registrations.step_iff ht

/-- The first process registers the end of the text segment. -/
def registerEtext : List Event := [makeMain 20, .call (.cbregister 0x11c271 0x150000)]

/-- It names the start of the text segment as its buffer. -/
def registerText : List Event := [makeMain 20, .call (.cbregister 0x106043 0x100000)]

/-- The first process registers and goes to sleep, the second sends it a message, and its callback
runs. -/
def overwriteBuffer : List Event :=
  [makeMain 20, makeProcess 10, .finish, .call (.resume 2), .finish,
    .call (.cbregister 0x106043 0x150000), .finish] ++ pushFrames 0x23fffc ++
  [.call (.sleepms 1), .call (.send 1 7), .finish, .tick, .finish, .callback]

/-- **Three ways to spoil a registration.** -/
theorem registrations_spoilt :
    (∃ x, Watched namedBuffer (fun _ => 0) always x ∧ (x.1.k.proctab 1).prcbvalid = 1 ∧
      ¬ x.1.k.image.inText (x.1.k.proctab 1).prcbptr) ∧
    (∃ x, Watched namedBuffer (fun _ => 0) always x ∧ (x.1.k.proctab 1).prcbvalid = 1 ∧
      x.1.k.image.inText (x.1.k.proctab 1).prmbufptr) ∧
    ∃ x, Watched namedBuffer (fun _ => 0) always x ∧ (x.1.k.proctab 1).prcbvalid = 1 ∧
      (x.1.k.proctab 1).prmbufptr ≠ x.2 1 := by
  have h1 : (watchFromBoot namedBuffer (fun _ => 0) always registerEtext).map (fun x =>
      decide ((x.1.k.proctab 1).prcbvalid = 1 ∧
        ¬ x.1.k.image.inText (x.1.k.proctab 1).prcbptr)) = some true := by decide +kernel
  have h2 : (watchFromBoot namedBuffer (fun _ => 0) always registerText).map (fun x =>
      decide ((x.1.k.proctab 1).prcbvalid = 1 ∧
        x.1.k.image.inText (x.1.k.proctab 1).prmbufptr)) = some true := by decide +kernel
  have h3 : (watchFromBoot namedBuffer (fun _ => 0) always overwriteBuffer).map (fun x =>
      decide ((x.1.k.proctab 1).prcbvalid = 1 ∧
        (x.1.k.proctab 1).prmbufptr ≠ x.2 1)) = some true := by decide +kernel
  obtain ⟨x, hx, hp⟩ := Option.map_eq_some_iff.mp h1
  obtain ⟨y, hy, hq⟩ := Option.map_eq_some_iff.mp h2
  obtain ⟨z, hz, hr⟩ := Option.map_eq_some_iff.mp h3
  exact ⟨⟨x, watched_watchFromBoot hx, of_decide_eq_true hp⟩,
    ⟨y, watched_watchFromBoot hy, of_decide_eq_true hq⟩,
    ⟨z, watched_watchFromBoot hz, of_decide_eq_true hr⟩⟩

end Xinu
