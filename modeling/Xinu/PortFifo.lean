/-
# Ports deliver in order: `ptsend.c`, `ptrecv.c`, `ptclear.c`

An observer notes what each port has accepted since it was last opened, and what it has delivered:
a message is accepted when `ptsend` has passed its second test and will return `OK`, and delivered
when `ptrecv` has taken it off the queue and will return it.  In every run in which the semaphores
of the ports are theirs alone, what was accepted is what was delivered and, behind it, what is on
the queue (`port_fifo`).

The semaphores count for the queues, so a receiver that was let through finds a message
(`port_accounting`), and a sender finds a node if the ports in use were not asked to hold more
messages than `ptinit` made nodes for (`port_nodes_suffice`).

`PortCapacity` has the counts; here are the messages themselves.  The queue of a port is a list of
nodes, `ptsend` puts one at its end and `ptrecv` takes the first, so one step keeps the equation
"accepted = delivered, then queued" for every port (`AtRest.passes`).  A port that is cleared
loses its messages between two steps that keep the equation, so it has to be known who clears
which port (section 4), and that a port with messages is not open at that time.
-/
import Xinu.PortCapacity

namespace Xinu

open Chains Counting

variable {x y : PortSys} {asked : Int → Int} {L : Ledger} {e : PortEvent} {f : PortFrame}
  {fs : List PortFrame} {p q pid : Int} {st : PtState} {P P' : Ports} {l l' : List Nat}

/-! ## 1. What is seen of the ports

The observer looks at the frame of the current process when it goes on: behind the `wait` of
`ptsend` the message will be accepted, behind that of `ptrecv` the first message will be
delivered, if the port is still the one the process came to.  Opening a port starts its log anew. -/

/-- The port that accepts a message in this step, and the message. -/
def accepted (x : PortSys) (e : PortEvent) (y : PortSys) : Option (Int × Int) :=
  match e, x.frames x.cur, (y.frames x.cur).head? with
  | .goOn, .send p _ msg :: _, some (.signal _) => some (p, msg)
  | _, _, _ => none

/-- The port that delivers a message in this step, and the message. -/
def delivered (x : PortSys) (e : PortEvent) (y : PortSys) : Option (Int × Int) :=
  match e, x.frames x.cur, (y.frames x.cur).head? with
  | .goOn, .recv p _ :: _, some (.signal value) => some (p, value)
  | _, _, _ => none

/-- The message, if it is one of the port `p`. -/
def atPort (p : Int) : Option (Int × Int) → List Int
  | some (q, v) => if q = p then [v] else []
  | none => []

@[simp] theorem atPort_none (p : Int) : atPort p none = [] := rfl

@[simp] theorem atPort_self (p v : Int) : atPort p (some (p, v)) = [v] := if_pos rfl

theorem atPort_of_ne {v : Int} (h : p ≠ q) : atPort p (some (q, v)) = [] := if_neg h.symm

/-- Only `ptsend` accepts a message, when it goes on. -/
theorem accepted_eq_some {m : Int × Int} : accepted x e y = some m ↔
    ∃ seq msg fs v, e = .goOn ∧ x.frames x.cur = .send m.1 seq msg :: fs ∧
      (y.frames x.cur).head? = some (.signal v) ∧ m.2 = (msg : Int) := by
  unfold accepted
  split
  · rename_i p seq msg fs v hf hy
    rw [hf, hy, Option.some.injEq]
    constructor
    · rintro rfl
      exact ⟨_, _, _, _, rfl, rfl, rfl, rfl⟩
    · rintro ⟨_, _, _, _, -, hf', -, hm⟩
      simp only [List.cons.injEq, PortFrame.send.injEq] at hf'
      exact Prod.ext hf'.1.1 (by rw [hm, hf'.1.2.2])
  · rename_i hno
    refine iff_of_false (by simp) ?_
    rintro ⟨_, _, _, _, rfl, hf, hy, -⟩
    exact hno _ _ _ _ _ rfl hf hy

/-- Only `ptrecv` delivers a message, when it goes on. -/
theorem delivered_eq_some {m : Int × Int} : delivered x e y = some m ↔
    ∃ seq fs, e = .goOn ∧ x.frames x.cur = .recv m.1 seq :: fs ∧
      (y.frames x.cur).head? = some (.signal m.2) := by
  unfold delivered
  split
  · rename_i p seq fs v hf hy
    rw [hf, hy, Option.some.injEq]
    constructor
    · rintro rfl
      exact ⟨_, _, rfl, rfl, rfl⟩
    · rintro ⟨_, _, -, hf', hy'⟩
      simp only [List.cons.injEq, PortFrame.recv.injEq] at hf'
      simp only [Option.some.injEq, PortFrame.signal.injEq] at hy'
      exact Prod.ext hf'.1.1 hy'
  · rename_i hno
    refine iff_of_false (by simp) ?_
    rintro ⟨_, _, rfl, hf, hy⟩
    exact hno _ _ _ _ rfl hf hy

/-- What every port has accepted and delivered since it was opened, and how many nodes `ptinit` was
asked to make. -/
structure PortLog where
  sent : Int → List Int
  got : Int → List Int
  size : Int

/-- The port `p` is opened in this step. -/
def PortSys.opens (x y : PortSys) (p : Int) : Prop :=
  (x.ports.porttab p).ptstate ≠ .alloc ∧ (y.ports.porttab p).ptstate = .alloc

instance (x y : PortSys) (p : Int) : Decidable (x.opens y p) :=
  inferInstanceAs (Decidable (_ ∧ _))

/-- What the observer notes. -/
def portLogSee (x : PortSys) (e : PortEvent) (y : PortSys) (log : PortLog) : PortLog where
  sent := fun p => if x.opens y p then [] else log.sent p ++ atPort p (accepted x e y)
  got := fun p => if x.opens y p then [] else log.got p ++ atPort p (delivered x e y)
  size := match e with
    | .ptinit maxmsgs => maxmsgs
    | _ => log.size

/-- The counts that were asked for, and the log, beside the state. -/
abbrev LoggedPorts := (PortSys × (Int → Int)) × PortLog

/-- The watched system. -/
def logStep : LoggedPorts → PortEvent → Option LoggedPorts :=
  Runs.watch (Runs.watch PortSys.step askedSee) fun x e y => portLogSee x.1 e y.1

/-- The condition on the steps. -/
def LogRun (x : LoggedPorts) (e : PortEvent) : Prop := PortRun x.1 e

/-- Nothing was sent yet. -/
def LoggedPorts.start (s : Sys) : LoggedPorts :=
  ((PortSys.start s, fun _ => 0), ⟨fun _ => [], fun _ => [], 0⟩)

/-- The states of the runs from a boot in which every step meets it. -/
def LogReach (x : LoggedPorts) : Prop :=
  ∃ image heap s₀, boot image heap = some s₀ ∧
    Runs.Reaches logStep LogRun (LoggedPorts.start s₀) x

/-! ## 2. Messages on a queue

Links and messages are in different arrays, so an assignment to the one leaves the other alone.
The nodes of a queue are determined by the links (`Queued.unique`), and their messages can be
listed. -/

/-- The messages in the nodes `l`. -/
def messages (P : Ports) (l : List Nat) : List Int := l.map fun i => ((P.nodes i).ptmsg : Int)

theorem messages_append (P : Ports) (l l' : List Nat) :
    messages P (l ++ l') = messages P l ++ messages P l' := List.map_append

/-- The queue of a port is one list. -/
theorem Queued.unique (h : Queued P p l) (h' : Queued P p l') : l = l' :=
  List.map_injective_iff.mpr (Option.some_injective _)
    (h.1.unique h'.1 (by simp) (by simp))

/-- The queue of a port, and its nodes, are as before. -/
structure SameQueue (P P' : Ports) (p : Int) : Prop where
  nodes : P'.nodes = P.nodes
  head : (P'.porttab p).pthead = (P.porttab p).pthead
  tail : (P'.porttab p).pttail = (P.porttab p).pttail

theorem SameQueue.refl (P : Ports) (p : Int) : SameQueue P P p := ⟨rfl, rfl, rfl⟩

theorem SameQueue.of_eq (h : P' = P) : SameQueue P P' p := h ▸ .refl P p

theorem SameQueue.trans {P'' : Ports} (h : SameQueue P P' p) (h' : SameQueue P' P'' p) :
    SameQueue P P'' p :=
  ⟨h'.nodes.trans h.nodes, h'.head.trans h.head, h'.tail.trans h.tail⟩

theorem sameQueue_setPort (g : Ptentry → Ptentry) (hp : p ≠ q) : SameQueue P (P.setPort q g) p where
  nodes := rfl
  head := by rw [setPort_of_ne _ _ hp]
  tail := by rw [setPort_of_ne _ _ hp]

/-- Other fields of one port are set. -/
theorem sameQueue_keep {g : Ptentry → Ptentry}
    (hh : (g (P.porttab q)).pthead = (P.porttab q).pthead)
    (ht : (g (P.porttab q)).pttail = (P.porttab q).pttail) : SameQueue P (P.setPort q g) p := by
  by_cases hp : p = q
  · subst hp
    refine ⟨rfl, ?_, ?_⟩
    · rw [setPort_same, hh]
    · rw [setPort_same, ht]
  · exact sameQueue_setPort g hp

theorem SameQueue.queued (h : SameQueue P P' p) (hl : Queued P p l) : Queued P' p l := by
  rw [Queued, h.head, h.tail]
  exact ⟨hl.1.congr fun i _ => by rw [h.nodes], hl.2⟩

theorem SameQueue.messages (h : SameQueue P P' p) (l : List Nat) :
    messages P' l = messages P l := by rw [Xinu.messages, Xinu.messages, h.nodes]

theorem messages_congr (h : ∀ i ∈ l, (P'.nodes i).ptmsg = (P.nodes i).ptmsg) :
    messages P' l = messages P l := List.map_congr_left fun i hi => by rw [h i hi]

@[simp] theorem setNext_ptmsg (P : Ports) (i j : Nat) (v : Option Nat) :
    ((P.setNext i v).nodes j).ptmsg = (P.nodes j).ptmsg := by
  by_cases hj : j = i
  · simp [Ports.setNext, hj]
  · rw [setNext_other _ _ hj]

/-- **`ptsend` writes its message** into the node that it takes. -/
theorem enqueueMsg_ptmsg {msg i : Nat} (h : P.enqueueMsg p msg = some P') (hi : P.ptfree = some i)
    (j : Nat) : (P'.nodes j).ptmsg = if j = i then msg else (P.nodes j).ptmsg := by
  rw [Ports.enqueueMsg, hi, Option.map_some] at h
  have hnode : ∀ j, (Function.update P.nodes i ⟨msg, none⟩ j).ptmsg =
      if j = i then msg else (P.nodes j).ptmsg := by
    intro j
    by_cases hj : j = i
    · rw [hj, Function.update_self, if_pos rfl]
    · rw [Function.update_of_ne hj, if_neg hj]
  dsimp only at h
  split at h
  · rw [← Option.some.inj h, setPort_nodes]
    exact hnode j
  · rw [← Option.some.inj h, setPort_nodes, setNext_ptmsg]
    exact hnode j

/-- `ptrecv` writes no message. -/
theorem dequeueMsg_ptmsg {r : Ports × Nat} (h : P.dequeueMsg p = some r) (j : Nat) :
    (r.1.nodes j).ptmsg = (P.nodes j).ptmsg := by
  obtain ⟨i, -, rfl⟩ := Option.map_eq_some_iff.mp h
  dsimp only
  rw [setNext_ptmsg]
  split_ifs
  · rfl
  · rfl

/-! ## 3. What a step does to a queue

Every event is taken in turn.  Most leave all queues as they are; the two that do not, `ptsend`
and `ptrecv` going on, concern one port, and the port is not being cleared. -/

theorem accepted_none (h : ∀ q seq msg fs v, e = .goOn → x.frames x.cur = .send q seq msg :: fs →
    (y.frames x.cur).head? ≠ some (.signal v)) : accepted x e y = none := by
  refine Option.eq_none_iff_forall_not_mem.mpr fun m hm => ?_
  obtain ⟨seq, msg, fs, v, he, hf, hy, -⟩ := accepted_eq_some.mp hm
  exact h _ _ _ _ _ he hf hy

theorem delivered_none (h : ∀ q seq fs v, e = .goOn → x.frames x.cur = .recv q seq :: fs →
    (y.frames x.cur).head? ≠ some (.signal v)) : delivered x e y = none := by
  refine Option.eq_none_iff_forall_not_mem.mpr fun m hm => ?_
  obtain ⟨seq, fs, he, hf, hy⟩ := delivered_eq_some.mp hm
  exact h _ _ _ _ he hf hy

/-- Who is back in its own code is in no `signal`. -/
theorem head_not_signal (hinner : ∀ g ∈ fs, g.isUser = true) (v : Int) :
    fs.head? ≠ some (.signal v) := by
  intro h
  have hg := hinner _ (List.mem_of_head? h)
  simp [PortFrame.isUser] at hg

/-- The current process comes into the frame `f`. -/
def Enters (x y : PortSys) (f : PortFrame) : Prop :=
  y.frames = Function.update x.frames x.cur (f :: x.frames x.cur)

theorem Enters.cur (h : Enters x y f) : y.frames x.cur = f :: x.frames x.cur := by
  rw [h, Function.update_self]

theorem call_enters {c : Call} (h : x.call c f = some y) : Enters x y f := by
  obtain ⟨s, -, rfl⟩ := Option.map_eq_some_iff.mp h
  rfl

theorem clearSend_sameQueue (h : x.clearSend q st = some y) (hp : p ≠ q) :
    SameQueue x.ports y.ports p := by
  simp only [PortSys.clearSend] at h
  split_ifs at h
  · have hports : y.ports = x.ports.setPort q fun e =>
        { e with pthead := none, pttail := none } := call_ports h
    exact (sameQueue_setPort _ hp).trans (.of_eq hports)
  · exact .of_eq (call_ports h)

theorem clearSend_enters (h : x.clearSend q st = some y) : Enters x y (.clearSend q st) := by
  simp only [PortSys.clearSend] at h
  split_ifs at h
  · have henters := call_enters h
    exact henters
  · exact call_enters h

theorem clearRecv_ports (h : x.clearRecv q st = some y) : y.ports = x.ports := by
  simp only [PortSys.clearRecv] at h
  split_ifs at h
  · exact call_ports h
  · exact call_ports h

theorem clearRecv_enters (h : x.clearRecv q st = some y) : Enters x y (.clearRecv q st) := by
  simp only [PortSys.clearRecv] at h
  split_ifs at h
  · exact call_enters h
  · exact call_enters h

/-- **A port that begins to be cleared** keeps its queue while there are messages. -/
theorem ptclear_sameQueue (h : x.ptclear q st = some y) :
    SameQueue x.ports y.ports p ∨ p = q ∧ Enters x y (.clearSend q st) := by
  have hlimbo : SameQueue x.ports (x.ports.setPort q fun e =>
      { e with ptstate := .limbo, ptseq := int32 (e.ptseq + 1) }) p := sameQueue_keep rfl rfl
  simp only [PortSys.ptclear] at h
  split at h
  · obtain rfl := Option.some.inj h
    exact .inl hlimbo
  · by_cases hp : p = q
    · have henters := clearSend_enters h
      exact .inr ⟨hp, henters⟩
    · have hkept := clearSend_sameQueue h hp
      exact .inl (hlimbo.trans hkept)

/-- **A port whose messages are disposed of** keeps its queue until the last. -/
theorem AtRest.disposed_keeps {w : Nat} (h : AtRest x asked L) (hl : x.live p) (hq : x.live q)
    (hy : (x.setFrames fs).disposed q st w = some y) :
    Queued y.ports p (L.q p) ∧ messages y.ports (L.q p) = messages x.ports (L.q p) ∨
      p = q ∧ Enters (x.setFrames fs) y (.clearSend q st) := by
  simp only [PortSys.disposed] at hy
  split at hy
  · obtain rfl := Option.some.inj hy
    exact .inl ⟨h.stored.queue p hl, rfl⟩
  · obtain ⟨P, hP, hy⟩ := Option.bind_eq_some_iff.mp hy
    by_cases hp : p = q
    · have henters := clearSend_enters hy
      exact .inr ⟨hp, henters⟩
    · have hstored := (NodesAt.freeQueue h.stored hq hP).1
      have hqueue := hstored.queue p ⟨hl, hp⟩
      rw [Function.update_of_ne hp] at hqueue
      have hkept := clearSend_sameQueue hy hp
      obtain ⟨t, -, rfl⟩ := Option.map_eq_some_iff.mp hP
      refine .inl ⟨hkept.queued hqueue, (hkept.messages _).trans ?_⟩
      exact messages_congr fun i _ => setNext_ptmsg ..

/-- **What a step does to a queue.**  The process is about to release the senders of the port, or
what goes in comes behind what is there, and what goes out was in front. -/
structure Passes (x : PortSys) (e : PortEvent) (y : PortSys) (L : Ledger) (p : Int) (l : List Nat) :
    Prop where
  queue : Queued y.ports p l
  order : messages x.ports (L.q p) ++ atPort p (accepted x e y) =
    atPort p (delivered x e y) ++ messages y.ports l
  limbo : (y.ports.porttab p).ptstate ≠ .alloc → l.length ≤ (L.q p).length

/-- Nothing goes in or out. -/
theorem Passes.keep (hq : Queued y.ports p (L.q p))
    (hm : messages y.ports (L.q p) = messages x.ports (L.q p))
    (ha : atPort p (accepted x e y) = []) (hd : atPort p (delivered x e y) = []) :
    Passes x e y L p (L.q p) where
  queue := hq
  order := by rw [ha, hd, hm, List.append_nil, List.nil_append]
  limbo _ := le_refl _

theorem Passes.untouched (hq : Queued x.ports p (L.q p)) (h : SameQueue x.ports y.ports p)
    (ha : atPort p (accepted x e y) = []) (hd : atPort p (delivered x e y) = []) :
    Passes x e y L p (L.q p) := .keep (h.queued hq) (h.messages _) ha hd

/-- `ptsend` goes on. -/
theorem AtRest.send_order {seq v : Int} {msg : Nat} (h : AtRest x asked L) (hl : x.live p)
    (hf : x.frames x.cur = .send q seq msg :: fs) (hinner : ∀ g ∈ fs, g.isUser = true)
    (hy : (x.returned fs).resume v (.send q seq msg) = some y) :
    ∃ l, Passes x .goOn y L p l := by
  have hqueue := h.stored.queue p hl
  have hdel : delivered x .goOn y = none := delivered_none fun _ _ _ _ _ hf' => by simp [hf] at hf'
  by_cases hopen : (x.returned fs).stillOpen q seq v
  · obtain ⟨P, hP, hcall⟩ := Option.bind_eq_some_iff.mp ((if_pos hopen).symm.trans hy)
    have hback : (x.returned fs).frames x.cur = fs := returned_frames
    have hframes : y.frames x.cur = .signal OK :: fs :=
      (call_enters hcall).cur.trans (congrArg _ hback)
    have hports : y.ports = P := call_ports hcall
    have hacc : accepted x .goOn y = some (q, (msg : Int)) :=
      accepted_eq_some.mpr ⟨_, _, _, _, rfl, hf, by rw [hframes]; rfl, rfl⟩
    have hstate := (stillOpen_iff.mp hopen).2.1
    obtain ⟨i, fl', hfl, hstored, hkeys⟩ := NodesAt.enqueue h.stored (.inl hstate) hP
    have hfree : x.ports.ptfree = some i := by
      have hchain := h.stored.free
      rw [hfl] at hchain
      exact (chain_cons.mp hchain).1
    have hmsg := enqueueMsg_ptmsg hP hfree
    have hold : messages y.ports (L.q p) = messages x.ports (L.q p) := by
      rw [hports]
      refine messages_congr fun j hj => (hmsg j).trans (if_neg ?_)
      rintro rfl
      exact h.stored.apart p j hj (by rw [hfl]; exact List.mem_cons_self)
    have hnew := hstored.queue p hl
    rw [← hports] at hnew
    by_cases hp : p = q
    · subst hp
      rw [Function.update_self] at hnew
      refine ⟨_, hnew, ?_, fun hne => absurd ?_ hne⟩
      · have hone : messages y.ports [i] = [(msg : Int)] := by
          rw [hports, messages, List.map_singleton, hmsg, if_pos rfl]
        rw [hacc, hdel, messages_append, hold, hone, atPort_self, atPort_none, List.nil_append]
      · rw [hports, hkeys.state]
        exact hstate
    · rw [Function.update_of_ne hp] at hnew
      refine ⟨_, Passes.keep hnew hold ?_ ?_⟩
      · rw [hacc, atPort_of_ne hp]
      · rw [hdel, atPort_none]
  · obtain rfl := Option.some.inj ((if_neg hopen).symm.trans hy)
    refine ⟨_, Passes.untouched hqueue (.refl _ _) ?_ (by rw [hdel, atPort_none])⟩
    have hframes : ((x.returned fs).reply SYSERR).frames x.cur = fs := returned_frames
    have hacc : accepted x .goOn ((x.returned fs).reply SYSERR) = none :=
      accepted_none fun _ _ _ _ v _ _ => by
        rw [hframes]
        exact head_not_signal hinner v
    rw [hacc, atPort_none]

/-- `ptrecv` goes on. -/
theorem AtRest.recv_order {seq v : Int} (h : AtRest x asked L) (hl : x.live p)
    (hf : x.frames x.cur = .recv q seq :: fs) (hinner : ∀ g ∈ fs, g.isUser = true)
    (hy : (x.returned fs).resume v (.recv q seq) = some y) : ∃ l, Passes x .goOn y L p l := by
  have hqueue := h.stored.queue p hl
  have hacc : accepted x .goOn y = none := accepted_none fun _ _ _ _ _ _ hf' => by simp [hf] at hf'
  by_cases hopen : (x.returned fs).stillOpen q seq v
  · obtain ⟨r, hr, hcall⟩ := Option.bind_eq_some_iff.mp ((if_pos hopen).symm.trans hy)
    have hback : (x.returned fs).frames x.cur = fs := returned_frames
    have hframes : y.frames x.cur = .signal r.2 :: fs :=
      (call_enters hcall).cur.trans (congrArg _ hback)
    have hports : y.ports = r.1 := call_ports hcall
    have hdel : delivered x .goOn y = some (q, (r.2 : Int)) :=
      delivered_eq_some.mpr ⟨_, _, rfl, hf, by rw [hframes]; rfl⟩
    have hstate := (stillOpen_iff.mp hopen).2.1
    obtain ⟨i, l, hl', hmsg, hstored, hkeys⟩ := NodesAt.dequeue h.stored (.inl hstate) hr
    have hold : ∀ l, messages y.ports l = messages x.ports l := by
      intro l
      rw [hports]
      exact messages_congr fun j _ => dequeueMsg_ptmsg hr j
    have hnew := hstored.queue p hl
    rw [← hports] at hnew
    by_cases hp : p = q
    · subst hp
      rw [Function.update_self] at hnew
      refine ⟨_, hnew, ?_, fun _ => ?_⟩
      · have hone : messages x.ports (i :: l) = (r.2 : Int) :: messages x.ports l := by
          rw [hmsg]
          rfl
        rw [hacc, hdel, hold, hl', hone, atPort_self, atPort_none, List.append_nil]
        rfl
      · rw [hl', List.length_cons]
        exact Nat.le_succ _
    · rw [Function.update_of_ne hp] at hnew
      refine ⟨_, Passes.keep hnew (hold _) ?_ ?_⟩
      · rw [hacc, atPort_none]
      · rw [hdel, atPort_of_ne hp]
  · obtain rfl := Option.some.inj ((if_neg hopen).symm.trans hy)
    refine ⟨_, Passes.untouched hqueue (.refl _ _) (by rw [hacc, atPort_none]) ?_⟩
    have hframes : ((x.returned fs).reply SYSERR).frames x.cur = fs := returned_frames
    have hdel : delivered x .goOn ((x.returned fs).reply SYSERR) = none :=
      delivered_none fun _ _ _ v _ _ => by
        rw [hframes]
        exact head_not_signal hinner v
    rw [hdel, atPort_none]

/-- A port whose queue is intact is in use. -/
theorem PortsInv.inUse_of_live {n₁ n₂ : Int → Int} (h : PortsInv x asked L n₁ n₂) (hl : x.live p) :
    PortInUse x.ports p := by
  rcases hl with hl | ⟨pid, st, w, hm⟩
  · exact .inl hl
  · exact .inr ((h.clears pid _ hm).limbo rfl)

/-- The ways a call with a port id goes. -/
theorem onPort_cases {g : PortSys → Option PortSys} (h : x.onPort q g = some y) :
    x.usable q ∧ g x = some y ∨ y = x.reply SYSERR := by
  unfold PortSys.onPort at h
  split_ifs at h with hmay husable
  · exact .inl ⟨husable, h⟩
  · exact .inr (Option.some.inj h).symm

/-- **What a step does to the queue of a port**, while its messages are there. -/
theorem AtRest.passes (h : AtRest x asked L) (hok : PortRun (x, asked) e)
    (hy : PortSys.step x e = some y) (hl : x.live p) :
    (∃ st, (y.frames x.cur).head? = some (.clearSend p st)) ∨ ∃ l, Passes x e y L p l := by
  have hqueue := h.stored.queue p hl
  have hquiet : e ≠ .goOn → SameQueue x.ports y.ports p → ∃ l, Passes x e y L p l := by
    intro he hu
    refine ⟨_, Passes.untouched hqueue hu ?_ ?_⟩
    · rw [accepted_none fun _ _ _ _ _ h' => absurd h' he, atPort_none]
    · rw [delivered_none fun _ _ _ _ h' => absurd h' he, atPort_none]
  have hclear : ∀ q st, e ≠ .goOn → (x.onPort q fun x => x.ptclear q st) = some y →
      (∃ st, (y.frames x.cur).head? = some (.clearSend p st)) ∨ ∃ l, Passes x e y L p l := by
    intro q st he hy
    rcases onPort_cases hy with ⟨-, hy⟩ | rfl
    · rcases @ptclear_sameQueue _ _ p _ _ hy with hu | ⟨rfl, henters⟩
      · exact .inr (hquiet he hu)
      · exact .inl ⟨st, by rw [henters.cur]; rfl⟩
    · exact .inr (hquiet he (.refl _ _))
  cases e with
  | base e =>
    simp only [PortSys.step] at hy
    split_ifs at hy
    obtain ⟨s, -, rfl⟩ := Option.map_eq_some_iff.mp hy
    exact .inr (hquiet (by simp) (.refl _ _))
  | ptinit maxmsgs =>
    -- no port is live
    have hunset : ∀ q, (x.ports.porttab q).ptstate = .unset := by
      intro q
      by_cases hq : isbadport q
      · exact h.range q hq
      · exact hok.1 q (mem_portIds.mpr hq)
    have huse := PortsInv.inUse_of_live h hl
    simp [PortInUse, hunset] at huse
  | ptcreate count =>
    simp only [PortSys.step] at hy
    split_ifs at hy
    obtain rfl := Option.some.inj hy
    refine .inr (hquiet (by simp) ?_)
    by_cases hc : count < 0
    · exact .of_eq (congrArg (fun r => r.1.2) (if_pos hc :
        Xinu.ptcreate count x.sys.k x.ports = ((x.sys.k, x.ports), SYSERR)))
    rcases ptcreate_cases (k := x.sys.k) h.next (not_lt.mp hc) with
      ⟨-, n, -, he⟩ | ⟨q, n, -, hfree, -, -, he⟩
    · show SameQueue x.ports (Xinu.ptcreate count x.sys.k x.ports).1.2 p
      rw [he]
      exact ⟨rfl, rfl, rfl⟩
    · have hp : p ≠ q := by
        rintro rfl
        have huse := PortsInv.inUse_of_live h hl
        simp [PortInUse, hfree] at huse
      show SameQueue x.ports (Xinu.ptcreate count x.sys.k x.ports).1.2 p
      rw [he]
      refine ⟨rfl, ?_, ?_⟩
      · rw [makePort_porttab_of_ne hp]
      · rw [makePort_porttab_of_ne hp]
  | ptsend q msg =>
    simp only [PortSys.step] at hy
    rcases onPort_cases hy with ⟨-, hy⟩ | rfl
    · exact .inr (hquiet (by simp) (.of_eq (call_ports hy)))
    · exact .inr (hquiet (by simp) (.refl _ _))
  | ptrecv q =>
    simp only [PortSys.step] at hy
    rcases onPort_cases hy with ⟨-, hy⟩ | rfl
    · exact .inr (hquiet (by simp) (.of_eq (call_ports hy)))
    · exact .inr (hquiet (by simp) (.refl _ _))
  | ptreset q => exact hclear q _ (by simp) hy
  | ptdelete q => exact hclear q _ (by simp) hy
  | goOn =>
    simp only [PortSys.step] at hy
    split at hy
    · simp at hy
    rename_i f fs hf
    have hinner := h.inner x.cur f fs hf
    have hkeep : (∀ q seq msg, f ≠ .send q seq msg) → (∀ q seq, f ≠ .recv q seq) →
        Queued y.ports p (L.q p) → messages y.ports (L.q p) = messages x.ports (L.q p) →
        ∃ l, Passes x .goOn y L p l := by
      intro hs hr hq hm
      refine ⟨_, Passes.keep hq hm ?_ ?_⟩
      · rw [accepted_none fun _ _ _ _ _ _ hf' => absurd (List.cons.inj (hf.symm.trans hf')).1
          (hs _ _ _), atPort_none]
      · rw [delivered_none fun _ _ _ _ _ hf' => absurd (List.cons.inj (hf.symm.trans hf')).1
          (hr _ _), atPort_none]
    have hsame : (∀ q seq msg, f ≠ .send q seq msg) → (∀ q seq, f ≠ .recv q seq) →
        SameQueue x.ports y.ports p → ∃ l, Passes x .goOn y L p l := fun hs hr hu =>
      hkeep hs hr (hu.queued hqueue) (hu.messages _)
    by_cases hdispose : ∃ p st w, f = .dispose p st w
    · obtain ⟨q, st, w, rfl⟩ := hdispose
      simp only [PortSys.goOn] at hy
      split_ifs at hy
      have hlive : x.live q := .inr ⟨x.cur, st, w, by rw [hf]; exact List.mem_cons_self⟩
      rcases h.disposed_keeps hl hlive hy with ⟨hq, hm⟩ | ⟨rfl, henters⟩
      · exact .inr (hkeep (by simp) (by simp) hq hm)
      · have hframes := henters.cur
        exact .inl ⟨_, (congrArg List.head? hframes).trans rfl⟩
    simp only [not_exists] at hdispose
    obtain ⟨v, -, hy⟩ := goOn_ret hdispose hy
    cases f with
    | send q seq msg => exact .inr (h.send_order hl hf hinner hy)
    | recv q seq => exact .inr (h.recv_order hl hf hinner hy)
    | signal value =>
      obtain rfl := Option.some.inj hy
      exact .inr (hsame (by simp) (by simp) (.refl _ _))
    | dispose q st w => exact absurd rfl (hdispose q st w)
    | clearSend q st =>
      have hports : y.ports = (x.returned fs).ports := clearRecv_ports hy
      exact .inr (hsame (by simp) (by simp) (.of_eq hports))
    | clearRecv q st =>
      obtain rfl := Option.some.inj hy
      refine .inr (hsame (by simp) (by simp) ?_)
      have hkeep : SameQueue x.ports (x.ports.setPort q fun e => { e with ptstate := st }) p :=
        sameQueue_keep rfl rfl
      refine hkeep.trans ⟨?_, ?_, ?_⟩
      · simp only [PortSys.clearDone, PortSys.reply]
        split_ifs
        · rfl
        · rfl
      · rw [clearDone_porttab]
        rfl
      · rw [clearDone_porttab]
        rfl

/-! ## 4. Who clears a port

A port in limbo has one process that clears it, and that process disposes of the messages before
it touches the senders' semaphore.  So while a port in limbo has messages nobody passes a `wait`
of it. -/

/-- A port in limbo is being cleared. -/
def Attended (x : PortSys) : Prop := ∀ p, (x.ports.porttab p).ptstate = .limbo →
  ∃ pid, p ∈ x.busy pid

/-- **What a step does to the ports in limbo.**  They stay attended, were in use before, and their
messages are disposed of only if they were there. -/
structure Attends (x y : PortSys) : Prop where
  attended : Attended y
  before : ∀ p, (y.ports.porttab p).ptstate = .limbo → PortInUse x.ports p
  live : ∀ p pid st w, .dispose p st w ∈ y.frames pid → x.live p

/-- The step rule. -/
theorem Attended.step (h : Attended x)
    (hs : ∀ p, (y.ports.porttab p).ptstate = .limbo →
      (x.ports.porttab p).ptstate = .limbo ∨
        (x.ports.porttab p).ptstate = .alloc ∧ p ∈ y.busy x.cur)
    (hb : ∀ pid p, p ∈ x.busy pid → (y.ports.porttab p).ptstate = .limbo → p ∈ y.busy pid)
    (hl : ∀ p pid st w, .dispose p st w ∈ y.frames pid → x.live p) : Attends x y := by
  refine ⟨fun p hp => ?_, fun p hp => (hs p hp).symm.imp_left And.left, hl⟩
  rcases hs p hp with hx | ⟨-, hx⟩
  · obtain ⟨pid, hpid⟩ := h p hx
    exact ⟨pid, hb pid p hpid hp⟩
  · exact ⟨_, hx⟩

/-- The frames of one process change. -/
theorem live_of_update {F : List PortFrame} (hF : y.frames = Function.update x.frames x.cur F)
    (h : ∀ p st w, .dispose p st w ∈ F → x.live p) {p pid : Int} {st : PtState} {w : Nat}
    (hm : .dispose p st w ∈ y.frames pid) : x.live p := by
  rw [hF] at hm
  by_cases hpid : pid = x.cur
  · rw [hpid, Function.update_self] at hm
    exact h p st w hm
  · rw [Function.update_of_ne hpid] at hm
    exact .inr ⟨pid, st, w, hm⟩

theorem live_of_enters (h : Enters x y f) (hf : ∀ p st w, f = .dispose p st w → x.live p)
    {p pid : Int} {st : PtState} {w : Nat} (hm : .dispose p st w ∈ y.frames pid) : x.live p :=
  live_of_update h (fun p st w hm => (List.mem_cons.mp hm).elim (fun e => hf p st w e.symm)
    fun hm => .inr ⟨_, st, w, hm⟩) hm

theorem mem_busy_enters (h : Enters x y f) (hp : p ∈ x.busy pid) : p ∈ y.busy pid := by
  obtain ⟨g, hg, hc⟩ := mem_busy.mp hp
  refine mem_busy.mpr ⟨g, ?_, hc⟩
  rw [h]
  by_cases hpid : pid = x.cur
  · subst hpid
    rw [Function.update_self]
    exact List.mem_cons_of_mem _ hg
  · rwa [Function.update_of_ne hpid]

/-- The states of the ports are as before. -/
def SamePortStates (P P' : Ports) : Prop := ∀ p, (P'.porttab p).ptstate = (P.porttab p).ptstate

theorem SamePortStates.of_eq (h : P' = P) : SamePortStates P P' := fun p => by rw [h]

theorem clearSend_states (h : x.clearSend q st = some y) : SamePortStates x.ports y.ports := by
  simp only [PortSys.clearSend] at h
  intro p
  split_ifs at h
  · rw [call_ports h]
    by_cases hp : p = q
    · subst hp
      rw [setPort_same]
    · rw [setPort_of_ne _ _ hp]
  · rw [call_ports h]

/-- Only the port that is cleared comes into limbo, and the process is in its frame. -/
theorem ptclear_attended (h : x.ptclear q st = some y) : (∃ f, Enters x y f ∧ f.clears = some q) ∧
    ∀ p, p ≠ q → (y.ports.porttab p).ptstate = (x.ports.porttab p).ptstate := by
  have hothers : ∀ p, p ≠ q → ((x.ports.setPort q fun e =>
      { e with ptstate := .limbo, ptseq := int32 (e.ptseq + 1) }).porttab p).ptstate =
        (x.ports.porttab p).ptstate := fun p hp => by rw [setPort_of_ne _ _ hp]
  simp only [PortSys.ptclear] at h
  split at h
  · obtain rfl := Option.some.inj h
    exact ⟨⟨_, rfl, rfl⟩, hothers⟩
  · have henters := clearSend_enters h
    exact ⟨⟨_, henters, rfl⟩, fun p hp => (clearSend_states h p).trans (hothers p hp)⟩

/-- The current process has left a frame and comes into another. -/
theorem enters_over {g : PortFrame} (h : Enters (x.setFrames fs) y g) :
    y.frames = Function.update x.frames x.cur (g :: fs) := by
  have hcur : (x.setFrames fs).frames x.cur = fs := Function.update_self ..
  have hframes : y.frames = Function.update (Function.update x.frames x.cur fs) x.cur
      (g :: (x.setFrames fs).frames x.cur) := h
  rw [hframes, hcur, Function.update_idem]

/-- The frames `F` clear what the frame `f` with `fs` around it does, and dispose of no messages
but those that it does. -/
structure ClearsAs (f : PortFrame) (fs F : List PortFrame) : Prop where
  clears : ∀ p ∈ (f :: fs).filterMap PortFrame.clears, p ∈ F.filterMap PortFrame.clears
  disposes : ∀ p st w, .dispose p st w ∈ F → ∃ w, .dispose p st w ∈ f :: fs

theorem clearsAs_rest (hf : f.clears = none) : ClearsAs f fs fs := by
  refine ⟨fun p hp => ?_, fun p st w hm => ⟨w, List.mem_cons_of_mem _ hm⟩⟩
  rwa [List.filterMap_cons_none hf] at hp

theorem clearsAs_cons {g : PortFrame} (hf : f.clears = none ∨ g.clears = f.clears)
    (hg : ∀ p st w, g = .dispose p st w → ∃ w, f = .dispose p st w) : ClearsAs f fs (g :: fs) := by
  refine ⟨fun p hp => ?_, fun p st w hm => ?_⟩
  swap
  · rcases List.mem_cons.mp hm with e | hm
    · obtain ⟨w', hw'⟩ := hg p st w e.symm
      exact ⟨w', by rw [hw']; exact List.mem_cons_self⟩
    · exact ⟨w, List.mem_cons_of_mem _ hm⟩
  rw [List.filterMap_cons] at hp ⊢
  rcases hf with hf | hf
  · rw [hf] at hp
    cases g.clears with
    | none => exact hp
    | some q => exact List.mem_cons_of_mem _ hp
  · rwa [hf]

/-- **A routine that goes on** clears what it has cleared, until it is done. -/
theorem AtRest.goOn_attended (h : AtRest x asked L) (hf : x.frames x.cur = f :: fs)
    (hy : x.goOn f fs = some y) :
    (SamePortStates x.ports y.ports ∧
        ∃ F, y.frames = Function.update x.frames x.cur F ∧ ClearsAs f fs F) ∨
      ∃ q st, f = .clearRecv q st ∧ y = (x.returned fs).clearDone q st := by
  by_cases hdispose : ∃ p st w, f = .dispose p st w
  · obtain ⟨q, st, w, rfl⟩ := hdispose
    simp only [PortSys.goOn, PortSys.disposed] at hy
    split_ifs at hy
    split at hy
    · rename_i w' _
      obtain rfl := Option.some.inj hy
      refine .inl ⟨fun _ => rfl, _, enters_over (g := .dispose q st w') ?_,
        clearsAs_cons (.inr rfl) fun p st' w'' e => ⟨w, ?_⟩⟩
      · rfl
      · obtain ⟨rfl, rfl, -⟩ := PortFrame.dispose.inj e
        rfl
    · obtain ⟨P, hP, hy⟩ := Option.bind_eq_some_iff.mp hy
      have henters := clearSend_enters hy
      obtain ⟨t, -, rfl⟩ := Option.map_eq_some_iff.mp hP
      refine .inl ⟨fun p => (clearSend_states hy p).trans rfl, _,
        enters_over (g := .clearSend q st) ?_, clearsAs_cons (.inr rfl) (by simp)⟩
      exact henters
  simp only [not_exists] at hdispose
  obtain ⟨v, -, hy⟩ := goOn_ret hdispose hy
  cases f with
  | send q seq msg =>
    simp only [PortSys.resume] at hy
    split_ifs at hy with hopen
    · obtain ⟨P, hP, hcall⟩ := Option.bind_eq_some_iff.mp hy
      obtain ⟨i, fl', -, -, hkeys⟩ :=
        NodesAt.enqueue h.stored (.inl (stillOpen_iff.mp hopen).2.1) hP
      have hports := call_ports hcall
      have henters := call_enters hcall
      refine .inl ⟨fun p => ?_, _, enters_over (g := .signal OK) ?_,
        clearsAs_cons (.inl rfl) (by simp)⟩
      · rw [hports]
        exact hkeys.state p
      · exact henters
    · obtain rfl := Option.some.inj hy
      exact .inl ⟨fun _ => rfl, fs, rfl, clearsAs_rest rfl⟩
  | recv q seq =>
    simp only [PortSys.resume] at hy
    split_ifs at hy with hopen
    · obtain ⟨r, hr, hcall⟩ := Option.bind_eq_some_iff.mp hy
      obtain ⟨i, l, -, -, -, hkeys⟩ :=
        NodesAt.dequeue h.stored (.inl (stillOpen_iff.mp hopen).2.1) hr
      have hports := call_ports hcall
      have henters := call_enters hcall
      refine .inl ⟨fun p => ?_, _, enters_over (g := .signal r.2) ?_,
        clearsAs_cons (.inl rfl) (by simp)⟩
      · rw [hports]
        exact hkeys.state p
      · exact henters
    · obtain rfl := Option.some.inj hy
      exact .inl ⟨fun _ => rfl, fs, rfl, clearsAs_rest rfl⟩
  | signal value =>
    obtain rfl := Option.some.inj hy
    exact .inl ⟨fun _ => rfl, fs, rfl, clearsAs_rest rfl⟩
  | dispose q st w => exact absurd rfl (hdispose q st w)
  | clearSend q st =>
    have hports : y.ports = (x.returned fs).ports := clearRecv_ports hy
    have henters := clearRecv_enters hy
    refine .inl ⟨.of_eq hports, _, enters_over (g := .clearRecv q st) ?_,
      clearsAs_cons (.inr rfl) (by simp)⟩
    exact henters
  | clearRecv q st =>
    obtain rfl := Option.some.inj hy
    exact .inr ⟨q, st, rfl, rfl⟩

/-- **A port in limbo stays attended.** -/
theorem AtRest.attends (h : AtRest x asked L) (ha : Attended x) (hy : PortSys.step x e = some y) :
    Attends x y := by
  have hframes : (∀ p, (y.ports.porttab p).ptstate = .limbo →
      (x.ports.porttab p).ptstate = .limbo) → y.frames = x.frames → Attends x y := fun hs hf =>
    ha.step (fun p hp => .inl (hs p hp)) (fun pid p hp _ => by rwa [PortSys.busy, hf])
      fun p pid st w hm => .inr ⟨pid, st, w, by rwa [← hf]⟩
  have henters : ∀ f, SamePortStates x.ports y.ports → Enters x y f → f.clears = none →
      Attends x y := by
    intro f hs hf hc
    refine ha.step (fun p hp => .inl ((hs p).symm.trans hp))
      (fun pid p hp _ => mem_busy_enters hf hp) fun p pid st w => live_of_enters hf ?_
    rintro p st w rfl
    simp [PortFrame.clears] at hc
  have hclear : ∀ q st, (x.onPort q fun x => x.ptclear q st) = some y → Attends x y := by
    intro q st hy
    rcases onPort_cases hy with ⟨husable, hy⟩ | rfl
    · have halloc := usable_alloc husable
      obtain ⟨⟨f, hf, hq⟩, hs⟩ := ptclear_attended hy
      refine ha.step (fun p hp => ?_) (fun pid p hp _ => mem_busy_enters hf hp)
        fun p pid st w => live_of_enters hf ?_
      · by_cases hpq : p = q
        · subst hpq
          refine .inr ⟨halloc, mem_busy.mpr ⟨f, ?_, hq⟩⟩
          rw [hf.cur]
          exact List.mem_cons_self
        · exact .inl ((hs p hpq).symm.trans hp)
      · rintro p st w rfl
        obtain rfl : p = q := Option.some.inj hq
        exact .inl halloc
    · exact hframes (fun _ => id) rfl
  cases e with
  | base e =>
    simp only [PortSys.step] at hy
    split_ifs at hy
    obtain ⟨s, hs, rfl⟩ := Option.map_eq_some_iff.mp hy
    exact hframes (fun _ => id) (PortsInv.frames_made h hs)
  | ptinit maxmsgs =>
    simp only [PortSys.step] at hy
    split_ifs at hy
    obtain ⟨r, -, hy⟩ := Option.bind_eq_some_iff.mp hy
    split_ifs at hy
    obtain rfl := Option.some.inj hy
    refine hframes (fun p hp => ?_) rfl
    by_cases hbad : isbadport p
    · simp only [PortSys.reply, Xinu.ptinit, ptinitLoop_porttab] at hp
      rwa [if_pos hbad] at hp
    · simp [PortSys.reply, ptinit_porttab hbad] at hp
  | ptcreate count =>
    simp only [PortSys.step] at hy
    split_ifs at hy
    obtain rfl := Option.some.inj hy
    refine hframes (fun p hp => ?_) rfl
    change ((Xinu.ptcreate count x.sys.k x.ports).1.2.porttab p).ptstate = .limbo at hp
    by_cases hc : count < 0
    · rwa [show Xinu.ptcreate count x.sys.k x.ports = ((x.sys.k, x.ports), SYSERR) from
        if_pos hc] at hp
    rcases ptcreate_cases (k := x.sys.k) h.next (not_lt.mp hc) with
      ⟨-, n, -, he⟩ | ⟨q, n, -, -, -, -, he⟩
    · rwa [he] at hp
    · rw [he] at hp
      by_cases hpq : p = q
      · subst hpq
        rw [makePort_porttab] at hp
        simp [Ptentry.made] at hp
      · rwa [makePort_porttab_of_ne hpq] at hp
  | ptsend q msg =>
    simp only [PortSys.step] at hy
    rcases onPort_cases hy with ⟨-, hy⟩ | rfl
    · exact henters _ (.of_eq (call_ports hy)) (call_enters hy) rfl
    · exact hframes (fun _ => id) rfl
  | ptrecv q =>
    simp only [PortSys.step] at hy
    rcases onPort_cases hy with ⟨-, hy⟩ | rfl
    · exact henters _ (.of_eq (call_ports hy)) (call_enters hy) rfl
    · exact hframes (fun _ => id) rfl
  | ptreset q => exact hclear q _ hy
  | ptdelete q => exact hclear q _ hy
  | goOn =>
    simp only [PortSys.step] at hy
    split at hy
    · simp at hy
    rename_i f fs hf
    rcases h.goOn_attended hf hy with ⟨hs, F, hF, hsub⟩ | ⟨q, st, rfl, rfl⟩
    · refine ha.step (fun p hp => .inl ((hs p).symm.trans hp)) (fun pid p hp _ => ?_)
        fun p pid st w => live_of_update hF fun p st w hm => ?_
      · rw [busy_of_frames hF]
        split_ifs with hpid
        · rw [hpid, PortSys.busy, hf] at hp
          exact hsub.clears p hp
        · exact hp
      · obtain ⟨w', hw'⟩ := hsub.disposes p st w hm
        exact .inr ⟨x.cur, st, w', by rwa [hf]⟩
    · -- the port that was cleared is open or free
      have hst : st ≠ .limbo := by
        obtain ⟨-, -, hclear⟩ :=
          h.clears x.cur (.clearRecv q st) (by rw [hf]; exact List.mem_cons_self)
        rcases hclear with ⟨rfl, -⟩ | rfl
        · simp
        · simp
      have hstate : ∀ p, (((x.returned fs).clearDone q st).ports.porttab p).ptstate = .limbo →
          p ≠ q ∧ (x.ports.porttab p).ptstate = .limbo := by
        intro p hp
        rw [clearDone_porttab] at hp
        by_cases hpq : p = q
        · subst hpq
          rw [setPort_same] at hp
          exact absurd hp hst
        · rw [setPort_of_ne _ _ hpq] at hp
          exact ⟨hpq, hp⟩
      have hF : ((x.returned fs).clearDone q st).frames = Function.update x.frames x.cur fs := rfl
      have hclears : (PortFrame.clearRecv q st).clears = some q := rfl
      refine ha.step (fun p hp => .inl (hstate p hp).2) (fun pid p hp hlimbo => ?_)
        fun p pid st w => live_of_update hF fun p st w hm =>
          .inr ⟨x.cur, st, w, by rw [hf]; exact List.mem_cons_of_mem _ hm⟩
      rw [busy_of_frames hF]
      split_ifs with hpid
      · rw [hpid, PortSys.busy, hf, List.filterMap_cons_some hclears] at hp
        exact (List.mem_cons.mp hp).resolve_left (hstate p hlimbo).1
      · exact hp

/-! ## 5. Runs

The log is right when every open port is in order and holds no more than was asked for.  Both are
kept by the step rules of section 3 together with the counts of `PortCapacity`. -/

/-- **What holds of the log** beside the invariant of the ports. -/
structure Logged (x : LoggedPorts) (L : Ledger) : Prop where
  rest : AtRest x.1.1 x.1.2 L
  attended : Attended x.1.1
  order : ∀ p, (x.1.1.ports.porttab p).ptstate = .alloc →
    x.2.sent p = x.2.got p ++ messages x.1.1.ports (L.q p)
  few : ∀ p, PortInUse x.1.1.ports p → ((L.q p).length : Int) ≤ x.1.2 p
  size : x.2.size ≤ L.size

/-- A port whose senders are being released has no messages. -/
theorem AtRest.queue_clearing (h : AtRest x asked L) (hf : f ∈ x.frames pid)
    (hc : f.clears = some p) (hno : ∀ st w, f ≠ .dispose p st w) : L.q p = [] := by
  have hok := h.clears pid f hf
  cases f with
  | clearSend p' st =>
    obtain rfl : p' = p := Option.some.inj hc
    exact hok.2.1
  | clearRecv p' st =>
    obtain rfl : p' = p := Option.some.inj hc
    exact hok.2.1
  | dispose p' st w =>
    obtain rfl : p' = p := Option.some.inj hc
    exact absurd rfl (hno st w)
  | _ => simp [PortFrame.clears] at hc

theorem queue_nil (h : Queued P p l) (hp : (P.porttab p).pthead = none) : l = [] := by
  cases l with
  | nil => rfl
  | cons i l =>
    have hhead := (chain_cons.mp h.1).1
    rw [hp] at hhead
    simp at hhead

/-- The messages of an open port are in order after a step. -/
theorem Logged.order_step {x : LoggedPorts} {L' : Ledger} (h : Logged x L) (hok : LogRun x e)
    (hy : PortSys.step x.1.1 e = some y) (h' : AtRest y (askedSee x.1.1 e y x.1.2) L')
    (hp : (y.ports.porttab p).ptstate = .alloc) :
    (portLogSee x.1.1 e y x.2).sent p =
      (portLogSee x.1.1 e y x.2).got p ++ messages y.ports (L'.q p) := by
  have hqueue := h'.stored.queue p (.inl hp)
  simp only [portLogSee]
  by_cases hx : (x.1.1.ports.porttab p).ptstate = .alloc
  · rw [if_neg fun ho => ho.1 hx, if_neg fun ho => ho.1 hx]
    rcases h.rest.passes hok hy (.inl hx) with ⟨st, hhead⟩ | ⟨l, hl⟩
    · -- a port whose senders are being released is in limbo
      have hm := List.mem_of_head? hhead
      have hlimbo := (h'.clears _ _ hm).limbo rfl
      rw [hp] at hlimbo
      simp at hlimbo
    · rw [h.order p hx, hqueue.unique hl.queue, List.append_assoc, hl.order, List.append_assoc]
  · have hnew := h.rest.opened_asNew hok hy hx hp
    rw [if_pos ⟨hx, hp⟩, if_pos ⟨hx, hp⟩, queue_nil hqueue hnew.queue]
    rfl

/-- What was asked for a port that comes into limbo is as before. -/
theorem asked_limbo (h : AtRest x asked L) (hy : PortSys.step x e = some y)
    (hp : (y.ports.porttab p).ptstate = .limbo) : askedSee x e y asked p = asked p := by
  cases e with
  | ptcreate count =>
    simp only [PortSys.step] at hy
    split_ifs at hy
    obtain rfl := Option.some.inj hy
    refine Function.update_of_ne ?_ ..
    -- the port that is returned is open, and the error code is no port
    simp only [PortSys.reply, Function.update_self]
    rintro rfl
    change ((Xinu.ptcreate count x.sys.k x.ports).1.2.porttab
      (Xinu.ptcreate count x.sys.k x.ports).2).ptstate = .limbo at hp
    have herr : (x.ports.porttab SYSERR).ptstate ≠ .limbo := by
      rw [h.range SYSERR (by decide)]
      simp
    by_cases hc : count < 0
    · rw [show Xinu.ptcreate count x.sys.k x.ports = ((x.sys.k, x.ports), SYSERR) from
        if_pos hc] at hp
      exact herr hp
    rcases ptcreate_cases (k := x.sys.k) h.next (not_lt.mp hc) with
      ⟨-, n, -, he⟩ | ⟨q, n, -, -, -, -, he⟩
    · rw [he] at hp
      exact herr hp
    · rw [he, show (makePort count q n x.sys.k x.ports).2 = q from rfl, makePort_porttab] at hp
      simp [Ptentry.made] at hp
  | _ => rfl

/-- A port in use holds no more than was asked for after a step. -/
theorem Logged.few_step {x : LoggedPorts} {L' : Ledger} (h : Logged x L) (hok : LogRun x e)
    (hy : PortSys.step x.1.1 e = some y) (h' : AtRest y (askedSee x.1.1 e y x.1.2) L')
    (ha : Attends x.1.1 y) (hp : PortInUse y.ports p) :
    ((L'.q p).length : Int) ≤ askedSee x.1.1 e y x.1.2 p := by
  rcases hp with hp | hp
  · have hroom := (h'.opened p hp).room_nonneg h'.keeper
    omega
  have huse := ha.before p hp
  rw [asked_limbo h.rest hy hp]
  have hfew := h.few p huse
  obtain ⟨pid, hbusy⟩ := ha.attended p hp
  obtain ⟨f, hf, hc⟩ := mem_busy.mp hbusy
  by_cases hdispose : ∃ st w, f = .dispose p st w
  · obtain ⟨st, w, rfl⟩ := hdispose
    rcases h.rest.passes hok hy (ha.live p pid st w hf) with ⟨st', hhead⟩ | ⟨l, hl⟩
    · rw [h'.queue_clearing (List.mem_of_head? hhead) rfl (by simp)]
      simp only [List.length_nil]
      omega
    · have hqueue := h'.stored.queue p (.inr ⟨pid, st, w, hf⟩)
      rw [← hl.queue.unique hqueue]
      have hle := hl.limbo (by rw [hp]; simp)
      omega
  · simp only [not_exists] at hdispose
    rw [h'.queue_clearing hf hc hdispose]
    simp only [List.length_nil]
    omega

/-- **The step lemma.** -/
theorem Logged.step {x z : LoggedPorts} (h : Logged x L) (hok : LogRun x e)
    (hz : logStep x e = some z) : ∃ L', Logged z L' := by
  obtain ⟨w, hw, rfl⟩ := Runs.watch_some.mp hz
  obtain ⟨y, hy, rfl⟩ := Runs.watch_some.mp hw
  obtain ⟨L', h', hsize⟩ := h.rest.step_sized hok hy
  have ha := h.rest.attends h.attended hy
  exact ⟨L', h', ha.attended, fun p hp => h.order_step hok hy h' hp,
    fun p hp => h.few_step hok hy h' ha hp, hsize _ h.size⟩

/-- **The run lemma.** -/
theorem logged_run {x : LoggedPorts} (h : LogReach x) : ∃ L, Logged x L := by
  obtain ⟨image, heap, s₀, hb, hr⟩ := h
  refine hr.invariant (I := fun x => ∃ L, Logged x L)
    ⟨⟨fun _ => none, fun _ => none, [], fun _ => [], 0⟩, ?_⟩ ?_
  swap
  · rintro x e z ⟨L, hL⟩ hok hz
    exact hL.step hok hz
  refine ⟨start_atRest hb, fun p hp => ?_, fun p hp => ?_, fun p hp => ?_, le_refl _⟩
  · simp [LoggedPorts.start, PortSys.start, zeroPort] at hp
  · simp [LoggedPorts.start, PortSys.start, zeroPort] at hp
  · simp [LoggedPorts.start, PortSys.start, zeroPort, PortInUse] at hp

/-! ## 6. What holds in every run

Four consequences for the users of ports: order, who has which node, what the receivers' semaphore
counts, and when a sender finds a node. -/

variable {x : LoggedPorts} {seq v : Int} {msg : Nat}

instance : DecidableRel LogRun := fun x e => inferInstanceAs (Decidable (PortRun x.1 e))

/-- Execute a list of events after a boot of the concrete machine. -/
def logFromBoot (es : List PortEvent) : Option LoggedPorts :=
  (boot xinuImage bootHeap).bind fun s => Runs.exec logStep LogRun (LoggedPorts.start s) es

theorem logReach_logFromBoot {es : List PortEvent} (h : logFromBoot es = some x) : LogReach x := by
  obtain ⟨s₀, hb, hr⟩ := Option.bind_eq_some_iff.mp h
  exact ⟨xinuImage, bootHeap, s₀, hb, Runs.reaches_of_exec hr⟩

/-- The first process makes a port for `count` messages, sends 7 and 8, and receives. -/
def sendAndReceive (count : Int) : List PortEvent :=
  [.base (makeMain 20), .ptinit 10, .ptcreate count, .ptsend 0 7, .goOn, .goOn, .ptsend 0 8, .goOn,
    .goOn, .ptrecv 0, .goOn, .goOn]

/-- **A port is a queue.**  In every run in which the counts fit, what an open port has accepted
since it was opened is what it has delivered and, behind it and in the same order, the messages on
its queue, which are no more than were asked for. -/
theorem port_fifo (h : LogReach x) (hp : (x.1.1.ports.porttab p).ptstate = .alloc) :
    ∃ l, Queued x.1.1.ports p l ∧ x.2.sent p = x.2.got p ++ messages x.1.1.ports l ∧
      (l.length : Int) ≤ x.1.2 p := by
  obtain ⟨L, hL⟩ := logged_run h
  exact ⟨L.q p, hL.rest.stored.queue p (.inl hp), hL.order p hp, hL.few p (.inl hp)⟩

theorem port_fifo_two : ∃ x, LogReach x ∧ x.2.sent 0 = [7, 8] ∧ x.2.got 0 = [7] ∧
    ∃ l, Queued x.1.1.ports 0 l ∧ x.2.sent 0 = x.2.got 0 ++ messages x.1.1.ports l ∧
      (l.length : Int) ≤ x.1.2 0 := by
  have hrun : (logFromBoot (sendAndReceive 3)).map (fun x => decide (x.2.sent 0 = [7, 8] ∧
      x.2.got 0 = [7] ∧ (x.1.1.ports.porttab 0).ptstate = .alloc)) = some true := by
    decide +kernel
  obtain ⟨x, hx, hp⟩ := Option.map_eq_some_iff.mp hrun
  obtain ⟨hsent, hgot, hopen⟩ := of_decide_eq_true hp
  have hreach := logReach_logFromBoot hx
  exact ⟨x, hreach, hsent, hgot, port_fifo hreach hopen⟩

/-- **Every message node is in one place.**  It is on the free list, or on the queue of one port
that is open or whose messages are being disposed of. -/
theorem port_nodes_kept (h : LogReach x) : ∃ fl q, NodesAt x.1.1.ports x.1.1.live fl q ∧
    (∀ p, ¬ x.1.1.live p → q p = []) ∧
    ∀ i : Nat, (i : Int) < x.2.size → i ∈ fl ∨ ∃ p, i ∈ q p := by
  obtain ⟨L, hL⟩ := logged_run h
  refine ⟨L.fl, L.q, hL.rest.stored, fun p hp => ?_, fun i hi => hL.rest.all i ?_⟩
  · by_cases huse : PortInUse x.1.1.ports p
    · have hlimbo := huse.resolve_left fun ho => hp (.inl ho)
      obtain ⟨pid, hbusy⟩ := hL.attended p hlimbo
      obtain ⟨f, hf, hc⟩ := mem_busy.mp hbusy
      refine hL.rest.queue_clearing hf hc fun st w hd => hp (.inr ⟨pid, st, w, ?_⟩)
      rwa [← hd]
    · exact hL.rest.empty p huse
  · have hsize := hL.size
    omega

theorem port_nodes_kept_two : ∃ x, LogReach x ∧ x.2.size = 10 ∧
    ∃ fl q, NodesAt x.1.1.ports x.1.1.live fl q ∧ (∀ p, ¬ x.1.1.live p → q p = []) ∧
      ∀ i : Nat, (i : Int) < x.2.size → i ∈ fl ∨ ∃ p, i ∈ q p := by
  have hrun : (logFromBoot (sendAndReceive 3)).map (fun x => decide (x.2.size = 10)) =
      some true := by
    decide +kernel
  obtain ⟨x, hx, hp⟩ := Option.map_eq_some_iff.mp hrun
  have hreach := logReach_logFromBoot hx
  exact ⟨x, hreach, of_decide_eq_true hp, port_nodes_kept hreach⟩

/-- The receivers that were let through and have not gone on. -/
def receiversThrough (x : PortSys) (p : Int) : Finset Int :=
  (x.inside (PortFrame.receives p (x.ports.porttab p).ptseq)).filter fun pid =>
    pid ∉ waitList x.sys.k (x.ports.porttab p).ptrsem

/-- A receiver that finds its port open was granted a message. -/
theorem AtRest.recv_finds {x : PortSys} (h : AtRest x asked L)
    (hf : x.frames x.cur = .recv p seq :: fs) (hcont : x.sys.cont x.cur = .ret v)
    (hopen : x.stillOpen p seq v) : L.q p ≠ [] := by
  obtain ⟨hv, hstate, hseq⟩ := stillOpen_iff.mp hopen
  obtain rfl := h.ret_ok (p := p) seq hf (by simp [PortFrame.isAt, PortFrame.receives]) hcont hv
  have hmem : x.cur ∈ x.inside (PortFrame.receives p (x.ports.porttab p).ptseq) :=
    mem_inside.mpr ⟨h.keeper.cur, by simp [hf, hseq, PortFrame.receives], hcont⟩
  rcases (h.opened p hstate).receiver with ⟨c, hc, hserves⟩ | ⟨-, hempty⟩
  · -- the process is one of those that are inside and wait no more
    have hroom := hserves.room (h.keeper.counter hc).2.2.2.2
    have hpos : 0 < ((x.inside (PortFrame.receives p (x.ports.porttab p).ptseq)).filter
        (· ∉ c.waiting)).card :=
      Finset.card_pos.mpr ⟨x.cur, Finset.mem_filter.mpr ⟨hmem, h.keeper.cur_notMem hc⟩⟩
    intro hnil
    rw [hnil] at hroom
    simp only [List.length_nil] at hroom
    omega
  · rw [hempty] at hmem
    exact absurd hmem (Finset.notMem_empty _)

/-- **The receivers' semaphore counts the messages.**  What it leaves and the receivers that were
let through are the messages on the queue, so a receiver that finds its port open finds a
message. -/
theorem port_receivers (h : LogReach x) (p : Int) :
    ((x.1.1.ports.porttab p).ptstate = .alloc → ¬ isbadsem (x.1.1.ports.porttab p).ptrsem →
      ∃ l, Queued x.1.1.ports p l ∧
        max (x.1.1.sys.k.semtab (x.1.1.ports.porttab p).ptrsem).scount 0 +
          (receiversThrough x.1.1 p).card = l.length) ∧
    (∀ seq v fs, x.1.1.frames x.1.1.cur = .recv p seq :: fs → x.1.1.sys.cont x.1.1.cur = .ret v →
      x.1.1.stillOpen p seq v → ∃ r, x.1.1.ports.dequeueMsg p = some r) := by
  obtain ⟨L, hL⟩ := logged_run h
  refine ⟨fun hp hgood => ⟨L.q p, hL.rest.stored.queue p (.inl hp), ?_⟩,
    fun seq v fs hf hcont hopen => ?_⟩
  · rcases (hL.rest.opened p hp).receiver with ⟨c, hc, hserves⟩ | ⟨hbad, -⟩
    · obtain ⟨-, -, hcount, hlist, hnd⟩ := hL.rest.keeper.counter hc
      rw [receiversThrough, hcount, hlist]
      exact hserves.room hnd
    · exact absurd hbad hgood
  · have hne := hL.rest.recv_finds hf hcont hopen
    have hqueue := hL.rest.stored.queue p (.inl (stillOpen_iff.mp hopen).2.1)
    cases hq : L.q p with
    | nil => exact absurd hq hne
    | cons i l =>
      rw [hq] at hqueue
      exact ⟨_, by rw [Ports.dequeueMsg, (chain_cons.mp hqueue.1).1, Option.map_some]⟩

theorem port_receivers_two : ∃ x, LogReach x ∧
    (∃ l, Queued x.1.1.ports 0 l ∧
      max (x.1.1.sys.k.semtab (x.1.1.ports.porttab 0).ptrsem).scount 0 +
        (receiversThrough x.1.1 0).card = l.length) ∧
    ∃ r, x.1.1.ports.dequeueMsg 0 = some r := by
  have hrun : (logFromBoot ((sendAndReceive 3).take 10)).map (fun x =>
      decide ((x.1.1.ports.porttab 0).ptstate = .alloc ∧
        ¬ isbadsem (x.1.1.ports.porttab 0).ptrsem ∧
        x.1.1.frames x.1.1.cur = [.recv 0 1] ∧ x.1.1.sys.cont x.1.1.cur = .ret OK ∧
        x.1.1.stillOpen 0 1 OK)) = some true := by
    decide +kernel
  obtain ⟨x, hx, hp⟩ := Option.map_eq_some_iff.mp hrun
  obtain ⟨hopen, hgood, hf, hcont, hstill⟩ := of_decide_eq_true hp
  have hreach := logReach_logFromBoot hx
  exact ⟨x, hreach, (port_receivers hreach 0).1 hopen hgood,
    (port_receivers hreach 0).2 1 OK [] hf hcont hstill⟩

/-- **`ptsend` does not run out of nodes** if the ports in use were asked to hold no more messages
than there are nodes: a sender that finds its port open finds a node. -/
theorem port_nodes_suffice (h : LogReach x)
    (hf : x.1.1.frames x.1.1.cur = .send p seq msg :: fs)
    (hcont : x.1.1.sys.cont x.1.1.cur = .ret v)
    (hopen : x.1.1.stillOpen p seq v)
    (hasked : ∑ q ∈ portIds.filter (PortInUse x.1.1.ports), x.1.2 q ≤ x.2.size) :
    ∃ P, x.1.1.ports.enqueueMsg p msg = some P := by
  obtain ⟨L, hL⟩ := logged_run h
  obtain ⟨hv, hstate, hseq⟩ := stillOpen_iff.mp hopen
  obtain rfl := hL.rest.ret_ok (p := p) seq hf (by simp [PortFrame.isAt, PortFrame.sends]) hcont hv
  have hin : present x.1.1 x.1.1.cur
      (PortFrame.sends p (x.1.1.ports.porttab p).ptseq) = 1 :=
    present_of_mem (mem_inside.mpr
      ⟨hL.rest.keeper.cur, by simp [hf, hseq, PortFrame.sends], hcont⟩)
  -- the sender was granted a place that no message has yet
  have hkeeper := hL.rest.keeper.returned hcont fs
  have hroom := ((PortsInv.pop hL.rest hf hkeeper).opened p hstate).room_nonneg hkeeper
  simp only [hin] at hroom
  have hmem : p ∈ portIds.filter (PortInUse x.1.1.ports) :=
    Finset.mem_filter.mpr ⟨mem_portIds.mpr fun hbad => by
      rw [hL.rest.range p hbad] at hstate
      simp at hstate, .inl hstate⟩
  have hlt : ∑ q ∈ portIds.filter (PortInUse x.1.1.ports), ((L.q q).length : Int) <
      ∑ q ∈ portIds.filter (PortInUse x.1.1.ports), x.1.2 q :=
    Finset.sum_lt_sum (fun q hq => hL.few q (Finset.mem_filter.mp hq).2) ⟨p, hmem, by omega⟩
  have hsize := hL.size
  have hcard : ∀ hnil : L.fl = [], L.size ≤
      ∑ q ∈ portIds.filter (PortInUse x.1.1.ports), (L.q q).length := by
    intro hnil
    have hsub : Finset.range L.size ⊆
        (portIds.filter (PortInUse x.1.1.ports)).biUnion fun q => (L.q q).toFinset := by
      intro i hi
      rcases hL.rest.all i (Finset.mem_range.mp hi) with hm | ⟨q, hm⟩
      · rw [hnil] at hm
        simp at hm
      · have huse : PortInUse x.1.1.ports q := by
          by_contra hno
          rw [hL.rest.empty q hno] at hm
          simp at hm
        refine Finset.mem_biUnion.mpr ⟨q, Finset.mem_filter.mpr ⟨mem_portIds.mpr fun hbad => ?_,
          huse⟩, List.mem_toFinset.mpr hm⟩
        rw [PortInUse, hL.rest.range q hbad] at huse
        simp at huse
    calc L.size = (Finset.range L.size).card := (Finset.card_range _).symm
      _ ≤ _ := Finset.card_le_card hsub
      _ ≤ ∑ q ∈ portIds.filter (PortInUse x.1.1.ports), (L.q q).toFinset.card :=
        Finset.card_biUnion_le
      _ ≤ _ := Finset.sum_le_sum fun q _ => List.toFinset_card_le _
  have hfree := hL.rest.stored.free
  cases hfl : L.fl with
  | nil =>
    have hle := hcard hfl
    have hcast : ((∑ q ∈ portIds.filter (PortInUse x.1.1.ports), (L.q q).length : Nat) : Int) =
      ∑ q ∈ portIds.filter (PortInUse x.1.1.ports), ((L.q q).length : Int) := Nat.cast_sum ..
    omega
  | cons i fl =>
    rw [hfl] at hfree
    exact ⟨_, by rw [Ports.enqueueMsg, (chain_cons.mp hfree).1, Option.map_some]⟩

theorem port_nodes_suffice_first : ∃ x, LogReach x ∧ x.1.1.stillOpen 0 1 OK ∧
    ∃ P, x.1.1.ports.enqueueMsg 0 7 = some P := by
  have hrun : (logFromBoot ((sendAndReceive 3).take 4)).map (fun x =>
      decide (x.1.1.frames x.1.1.cur = [.send 0 1 7] ∧ x.1.1.sys.cont x.1.1.cur = .ret OK ∧
        x.1.1.stillOpen 0 1 OK ∧
        ∑ q ∈ portIds.filter (PortInUse x.1.1.ports), x.1.2 q ≤ x.2.size)) = some true := by
    decide +kernel
  obtain ⟨x, hx, hp⟩ := Option.map_eq_some_iff.mp hrun
  obtain ⟨hf, hcont, hstill, hasked⟩ := of_decide_eq_true hp
  have hreach := logReach_logFromBoot hx
  exact ⟨x, hreach, hstill, port_nodes_suffice hreach hf hcont hstill hasked⟩

end Xinu
