/-
# The files of a command: `shell.c`

The shell opens the file that the input comes from, then the file that the output goes to, and then
makes the process of the command, which gets both as its descriptors and closes them when it is
killed.  Each of the three steps can fail, and then the shell prints a message and goes back to its
prompt.

It does so with `continue`, and lets go of nothing.  The file for the input stays open when that for
the output cannot be opened, both stay open when there is no process, and when the arguments cannot
be copied the process stays as well, in `PR_SUSP`.

`runCommand_releases_iff` says when the shell gives back what it took: it must not have taken
anything.
-/
import Xinu.ShellArgs

namespace Xinu

variable {k k₁ k₂ : Kernel} {pid : Int}

/-! ## 1. `shell.c` -/

def SHELL_CREATMSG : String := "Cannot create process\n"
def SHELL_INERRMSG : String := "Cannot open file %s for input\n"
def SHELL_OUTERRMSG : String := "Cannot open file %s for output\n"
def SHELL_BGERRMSG : String := "Cannot redirect I/O or background a builtin\n"

/-- A call of the device switch, with the descriptor that it is about.  A name is an index in
`tokbuf`. -/
inductive DevCall
  | open (name : Int) (mode : String) (descrp : Int)
  | truncate (descrp : Int)
  | close (descrp : Int)
  deriving DecidableEq

/-- What becomes of a command: the shell prints a message, for which it may have an index in
`tokbuf`, and goes back to its prompt; or the command runs. -/
inductive Ending
  | prompt (fmt : String) (arg : Option Int)
  | builtin (cmd : Cmdent)
  | process (child : Int)
  deriving DecidableEq

def Ending.isPrompt : Ending → Bool
  | .prompt _ _ => true
  | _ => false

variable (opens : Int → String → Int) (dev : Int) (tmparg : Nat)

/-- Whether the file of a redirection, if there is one, can be opened. -/
def canOpen (mode : String) (name : Option Int) : Bool :=
  name.all fun name => opens name mode ≠ SYSERR

/-- The descriptor of a redirection, or else the device of the shell. -/
def redirect (mode : String) (name : Option Int) : Int :=
  name.elim dev fun name => opens name mode

/-- The call that opens the file of a redirection. -/
def openCall (mode : String) (name : Option Int) : List DevCall :=
  name.toList.map fun name => .open name mode (opens name mode)

/-- `proctab[child].prdesc[0] = stdinput; proctab[child].prdesc[1] = stdoutput;` -/
def setDescriptors (stdinput stdoutput : Int) (p : Procent) : Procent :=
  { p with prdesc := Function.update (Function.update p.prdesc 0 stdinput) 1 stdoutput }

/-- Open files and redirect I/O if specified, and spawn child thread for non-built-in commands. -/
def execute (e : Cmdent) (s : Lex) (cmd : Command) (k : Kernel) :
    Option (Kernel × List DevCall × Ending) :=
  let stdinput := redirect opens dev "ro" cmd.inname
  let stdoutput := redirect opens dev "w" cmd.outname
  let calls := openCall opens "ro" cmd.inname
  if canOpen opens "ro" cmd.inname = false then
    some (k, calls, .prompt SHELL_INERRMSG cmd.inname)
  else
    let calls := calls ++ openCall opens "w" cmd.outname
    if canOpen opens "w" cmd.outname = false then
      some (k, calls, .prompt SHELL_OUTERRMSG cmd.outname)
    else do
      let calls := calls ++ cmd.outname.toList.map fun _ => .truncate stdoutput
      let (k, child) ← spawn e s cmd tmparg k
      if child = SYSERR then return (k, calls, .prompt SHELL_CREATMSG none)
      return (k.setProc child (setDescriptors stdinput stdoutput), calls, .process child)

/-- What `shell` does with a line that it accepts, up to the call of the command. -/
def runCommand (tab : List Cmdent) (s : Lex) (cmd : Command) (k : Kernel) :
    Option (Kernel × List DevCall × Ending) :=
  match lookupCommand tab s.tokbuf with
  | none => some (k, [], .prompt "command %s not found\n" (some 0))
  | some e =>
    if e.cbuiltin then
      if cmd.inname ≠ none ∨ cmd.outname ≠ none ∨ cmd.backgnd then
        some (k, [], .prompt SHELL_BGERRMSG none)
      else
        some (k, [], .builtin e)
    else
      execute opens dev tmparg e s cmd k

/-! ## 2. What is left -/

/-- The effect of a call on the descriptors that are open. -/
def DevCall.apply (ds : List Int) : DevCall → List Int
  | .open _ _ descrp => if descrp = SYSERR then ds else descrp :: ds
  | .truncate _ => ds
  | .close descrp => ds.erase descrp

/-- The descriptors that the calls leave open. -/
def leftOpen (calls : List DevCall) : List Int := calls.foldl DevCall.apply []

/-- The same processes are in the process table, in the same states. -/
def SameStates (k k' : Kernel) : Prop :=
  ∀ pid, (k'.proctab pid).prstate = (k.proctab pid).prstate

/-- Nothing is left of what was done for the command. -/
def Released (k : Kernel) (r : Kernel × List DevCall × Ending) : Prop :=
  leftOpen r.2.1 = [] ∧ SameStates k r.1

/-- The outcomes of `create` and of `addargs`. -/
def SpawnOutcome (e : Cmdent) (s : Lex) (cmd : Command) (k : Kernel) (child copied : Int) : Prop :=
  ∃ k₁, create e.cfunc SHELL_CMDSTK SHELL_CMDPRIO (fun i => e.cname.getD i NULLCH)
      [cmd.ntok.toNat, tmparg] k = some (k₁, child) ∧
    (child ≠ SYSERR →
      ∃ k₂, addargs child cmd.ntok s.tok cmd.tlen s.tokbuf tmparg k₁ = some (k₂, copied))

/-- **A step fails only while the shell has taken nothing.** -/
structure NothingTaken (cmd : Command) (child copied : Int) : Prop where
  output : canOpen opens "ro" cmd.inname = true → canOpen opens "w" cmd.outname = false →
    cmd.inname = none
  process : canOpen opens "ro" cmd.inname = true → canOpen opens "w" cmd.outname = true →
    child = SYSERR → cmd.inname = none ∧ cmd.outname = none
  arguments : canOpen opens "ro" cmd.inname = true → canOpen opens "w" cmd.outname = true →
    child ≠ SYSERR → copied ≠ SYSERR

/-! ## 3. The process table -/

theorem SameStates.refl (k : Kernel) : SameStates k k := fun _ => rfl

theorem SameStates.setProc (k : Kernel) (pid : Int) {f : Procent → Procent}
    (hf : ∀ p, (f p).prstate = p.prstate) : SameStates k (k.setProc pid f) := by
  intro x
  by_cases hx : x = pid
  · rw [hx, setProc_same]
    exact hf _
  · rw [setProc_of_ne _ _ hx]

/-- The slot of a new process was free. -/
structure NewState (pid : Int) (k k' : Kernel) : Prop where
  before : (k.proctab pid).prstate = .free
  after : (k'.proctab pid).prstate = .susp

theorem NewState.not_same (h : NewState pid k k₁) : ¬ SameStates k k₁ := by
  intro hs
  have heq := hs pid
  rw [h.before, h.after] at heq
  exact nomatch heq

theorem newpidLoop_free (tab : Int → Procent) (fuel : Nat) (n : Int) :
    (newpidLoop tab fuel n).1 = SYSERR ∨
      (tab (newpidLoop tab fuel n).1).prstate = .free := by
  induction fuel generalizing n with
  | zero => exact Or.inl rfl
  | succ fuel ih =>
    rw [newpidLoop]
    by_cases hfree : (tab (n.tmod NPROC)).prstate = .free
    · rw [if_pos hfree]
      exact Or.inr hfree
    · rw [if_neg hfree]
      exact ih _

theorem setupProc_susp (f n : Nat) (prio : Pri16) (nm : Nat → UInt8) (as : List Nat) (pid : Int)
    (saddr : Nat) (k : Kernel) :
    ((setupProc createFill f n prio nm as pid saddr k).proctab pid).prstate = .susp := by
  simp only [setupProc, createFill, setProc_same, setHeap_proctab]
  rfl

/-- **`create` makes a suspended process of a free slot, or leaves the table alone.** -/
theorem create_states {f n : Nat} {prio : Pri16} {nm : Nat → UInt8} {as : List Nat}
    (h : create f n prio nm as k = some (k₁, pid)) :
    if pid = SYSERR then SameStates k k₁ else NewState pid k k₁ := by
  unfold create at h
  split_ifs at h with h1
  · obtain ⟨rfl, rfl⟩ := Prod.mk.inj (Option.some.inj h)
    rw [if_pos rfl]
    exact .refl _
  have hfree := newpidLoop_free k.proctab NPROC.toNat k.createNextpid
  have hnew : newpid k.proctab k.createNextpid =
    newpidLoop k.proctab NPROC.toNat k.createNextpid := rfl
  rw [← hnew] at hfree
  generalize newpid k.proctab k.createNextpid = r at h hfree
  obtain ⟨q, next⟩ := r
  rcases makeProc_cases h with he | ⟨k₂, hg, he⟩ | ⟨hq, k₂, saddr, -, -, he⟩
  · obtain ⟨rfl, rfl⟩ := Prod.mk.inj he
    rw [if_pos rfl]
    exact fun _ => rfl
  · obtain ⟨x, -, hx⟩ := Option.bind_eq_some_iff.mp hg
    obtain ⟨rfl, -⟩ := Prod.mk.inj (Option.some.inj hx)
    obtain ⟨rfl, rfl⟩ := Prod.mk.inj he
    rw [if_pos rfl]
    exact fun _ => rfl
  · obtain ⟨rfl, rfl⟩ := Prod.mk.inj he
    rw [if_neg hq]
    exact ⟨hfree.resolve_left hq, setupProc_susp _ _ _ _ _ _ _ _⟩

theorem addargs_proctab {ntok tlen r : Int} {tok : Nat → Int} {tokbuf : Nat → UInt8}
    (h : addargs pid ntok tok tlen tokbuf tmparg k = some (k₁, r)) : k₁.proctab = k.proctab := by
  unfold addargs at h
  split_ifs at h
  · obtain ⟨rfl, -⟩ := Prod.mk.inj (Option.some.inj h)
    rfl
  · obtain ⟨found, -, h⟩ := Option.bind_eq_some_iff.mp h
    cases found with
    | some search =>
      obtain ⟨rfl, -⟩ := Prod.mk.inj (Option.some.inj h)
      rfl
    | none =>
      obtain ⟨rfl, -⟩ := Prod.mk.inj (Option.some.inj h)
      rfl

variable {opens dev tmparg} {e : Cmdent} {s : Lex} {cmd : Command} {child copied : Int}

/-- **The ways `spawn` returns**: no process; a process without its arguments; a process. -/
theorem spawn_cases (h : SpawnOutcome tmparg e s cmd k child copied) :
    (child = SYSERR ∧ ∃ k', spawn e s cmd tmparg k = some (k', SYSERR) ∧ SameStates k k') ∨
    (child ≠ SYSERR ∧ copied = SYSERR ∧
      ∃ k', spawn e s cmd tmparg k = some (k', SYSERR) ∧ NewState child k k') ∨
    (child ≠ SYSERR ∧ copied ≠ SYSERR ∧ ∃ k', spawn e s cmd tmparg k = some (k', child)) := by
  obtain ⟨k₁, hc, ha⟩ := h
  have hstates := create_states hc
  unfold spawn
  rw [hc, Option.bind_eq_bind, Option.bind_some]
  dsimp only
  by_cases hchild : child = SYSERR
  · rw [if_pos hchild] at hstates ⊢
    exact Or.inl ⟨hchild, k₁, rfl, hstates⟩
  rw [if_neg hchild] at hstates ⊢
  obtain ⟨k₂, hk₂⟩ := ha hchild
  rw [hk₂, Option.bind_some]
  dsimp only
  by_cases hcopied : copied = SYSERR
  · rw [if_pos hcopied]
    refine Or.inr (Or.inl ⟨hchild, hcopied, k₂, rfl, hstates.before, ?_⟩)
    rw [addargs_proctab _ hk₂]
    exact hstates.after
  · rw [if_neg hcopied]
    exact Or.inr (Or.inr ⟨hchild, hcopied, k₂, rfl⟩)

/-! ## 4. The descriptors -/

/-- Opening leaves nothing open if it fails, or if there is nothing to open. -/
theorem leftOpen_openCall (mode : String) (name : Option Int) :
    leftOpen (openCall opens mode name) = [] ↔
      canOpen opens mode name = true → name = none := by
  cases name with
  | none => exact iff_of_true rfl fun _ => rfl
  | some name =>
    have hcan : canOpen opens mode (some name) = true ↔ opens name mode ≠ SYSERR := by
      simp [canOpen]
    rw [hcan]
    by_cases herr : opens name mode = SYSERR
    · exact iff_of_true (if_pos herr) fun h => absurd herr h
    · refine iff_of_false ?_ fun h => Option.some_ne_none _ (h herr)
      rw [leftOpen, openCall, Option.toList_some, List.map_singleton, List.foldl_cons,
        List.foldl_nil, DevCall.apply, if_neg herr]
      exact List.cons_ne_nil _ _

theorem foldl_truncate (ds : List Int) (d : Int) (name : Option Int) :
    (name.toList.map fun _ => DevCall.truncate d).foldl DevCall.apply ds = ds := by
  cases name with
  | none => rfl
  | some name => rfl

/-- The calls never take a descriptor away, so two redirections leave nothing open only if neither
does. -/
theorem leftOpen_two (mode mode' : String) (name name' : Option Int) :
    leftOpen (openCall opens mode name ++ openCall opens mode' name') = [] ↔
      leftOpen (openCall opens mode name) = [] ∧ leftOpen (openCall opens mode' name') = [] := by
  unfold leftOpen
  rw [List.foldl_append]
  cases name' with
  | none => exact (and_iff_left rfl).symm
  | some name' =>
    by_cases herr : opens name' mode' = SYSERR
    · simp [openCall, DevCall.apply, herr]
    · simp [openCall, DevCall.apply, herr]

/-! ## 5. What is given back -/

/-- **When the shell gives back what it took**, for a command that is not built in. -/
theorem execute_releases (h : SpawnOutcome tmparg e s cmd k child copied) :
    ∃ r, execute opens dev tmparg e s cmd k = some r ∧
      ((r.2.2.isPrompt = true → Released k r) ↔ NothingTaken opens cmd child copied) := by
  unfold execute
  dsimp only
  by_cases hin : canOpen opens "ro" cmd.inname = false
  · -- the input cannot be opened
    rw [if_pos hin]
    refine ⟨_, rfl, iff_of_true (fun _ => ⟨?_, .refl k⟩) ?_⟩
    · exact (leftOpen_openCall _ _).mpr fun h => Bool.noConfusion (hin.symm.trans h)
    · exact ⟨fun h => Bool.noConfusion (hin.symm.trans h),
        fun h => Bool.noConfusion (hin.symm.trans h), fun h => Bool.noConfusion (hin.symm.trans h)⟩
  rw [if_neg hin]
  rw [Bool.not_eq_false] at hin
  by_cases hout : canOpen opens "w" cmd.outname = false
  · -- the output cannot be opened
    rw [if_pos hout]
    refine ⟨_, rfl, ⟨fun hrel => ⟨fun _ _ => ?_, fun _ h => ?_, fun _ h => ?_⟩,
      fun hn _ => ⟨?_, .refl k⟩⟩⟩
    · exact (leftOpen_openCall _ _).mp ((leftOpen_two _ _ _ _).mp (hrel rfl).1).1 hin
    · exact Bool.noConfusion (hout.symm.trans h)
    · exact Bool.noConfusion (hout.symm.trans h)
    · refine (leftOpen_two _ _ _ _).mpr ⟨?_, ?_⟩
      · exact (leftOpen_openCall _ _).mpr fun _ => hn.output hin hout
      · exact (leftOpen_openCall _ _).mpr fun h => Bool.noConfusion (hout.symm.trans h)
  rw [if_neg hout]
  rw [Bool.not_eq_false] at hout
  -- the truncation leaves the descriptors alone
  have hleft : leftOpen ((openCall opens "ro" cmd.inname ++ openCall opens "w" cmd.outname) ++
      cmd.outname.toList.map fun _ => .truncate (redirect opens dev "w" cmd.outname)) = [] ↔
      cmd.inname = none ∧ cmd.outname = none := by
    rw [leftOpen, List.foldl_append, foldl_truncate, ← leftOpen, leftOpen_two, leftOpen_openCall,
      leftOpen_openCall, hin, hout]
    exact and_congr ⟨fun h => h rfl, fun h _ => h⟩ ⟨fun h => h rfl, fun h _ => h⟩
  rcases spawn_cases h with ⟨hc, k', hs, hsame⟩ | ⟨hc, hcopy, k', hs, hnew⟩ | ⟨hc, hcopy, k', hs⟩
  · -- there is no process
    rw [hs, Option.bind_eq_bind, Option.bind_some]
    dsimp only
    rw [if_pos rfl]
    refine ⟨_, rfl, ⟨fun hrel => ⟨fun _ h => ?_, fun _ _ _ => hleft.mp (hrel rfl).1,
      fun _ _ h => absurd hc h⟩, fun hn _ => ⟨hleft.mpr (hn.process hin hout hc), hsame⟩⟩⟩
    exact Bool.noConfusion (hout.symm.trans h)
  · -- the process has no arguments
    rw [hs, Option.bind_eq_bind, Option.bind_some]
    dsimp only
    rw [if_pos rfl]
    exact ⟨_, rfl, iff_of_false (fun hrel => hnew.not_same (hrel rfl).2)
      fun hn => hn.arguments hin hout hc hcopy⟩
  · -- the command runs
    rw [hs, Option.bind_eq_bind, Option.bind_some]
    dsimp only
    rw [if_neg hc]
    refine ⟨_, rfl, iff_of_true (fun h => Bool.noConfusion h) ⟨fun _ h => ?_,
      fun _ _ h => absurd h hc, fun _ _ _ => hcopy⟩⟩
    exact Bool.noConfusion (hout.symm.trans h)

/-- **When the shell gives back what it took.**  Whatever the opens, `create` and `addargs` come to,
a line that the shell accepts ends with a message, with a built-in command, or with a process.
After a message no file is open and no process is left exactly if nothing was taken before the step
that failed. -/
theorem runCommand_releases_iff (opens : Int → String → Int) (dev : Int) (tmparg : Nat)
    (tab : List Cmdent) (s : Lex) (cmd : Command) (k : Kernel) (child copied : Int)
    (h : ∀ e, lookupCommand tab s.tokbuf = some e → e.cbuiltin = false →
      SpawnOutcome tmparg e s cmd k child copied) :
    ∃ r, runCommand opens dev tmparg tab s cmd k = some r ∧
      ((r.2.2.isPrompt = true → Released k r) ↔
        ∀ e, lookupCommand tab s.tokbuf = some e → e.cbuiltin = false →
          NothingTaken opens cmd child copied) := by
  unfold runCommand
  cases he : lookupCommand tab s.tokbuf with
  | none => exact ⟨_, rfl, iff_of_true (fun _ => ⟨rfl, .refl k⟩) fun _ h => nomatch h⟩
  | some e =>
    dsimp only
    by_cases hb : e.cbuiltin = true
    · rw [if_pos hb]
      have hnone : ∀ e', some e = some e' → e'.cbuiltin = false →
          NothingTaken opens cmd child copied := by
        intro e' heq hb'
        rw [← Option.some.inj heq, hb] at hb'
        exact Bool.noConfusion hb'
      by_cases hredir : cmd.inname ≠ none ∨ cmd.outname ≠ none ∨ cmd.backgnd
      · rw [if_pos hredir]
        exact ⟨_, rfl, iff_of_true (fun _ => ⟨rfl, .refl k⟩) hnone⟩
      · rw [if_neg hredir]
        exact ⟨_, rfl, iff_of_true (fun _ => ⟨rfl, .refl k⟩) hnone⟩
    · rw [if_neg hb]
      rw [Bool.not_eq_true] at hb
      obtain ⟨r, hr, hiff⟩ := @execute_releases _ opens dev _ _ _ _ _ _ (h e he hb)
      refine ⟨r, hr, hiff.trans ⟨fun hn _ _ _ => hn, fun hn => hn e rfl hb⟩⟩

/-- `cat <a >b` and the end of the line, and what the shell makes of it. -/
def catLine : List UInt8 := [99, 97, 116, 32, 60, 97, 32, 62, 98, 10]
def catCommand : Command := ⟨1, 4, some 6, some 10, false⟩
def catEntry : Cmdent := ⟨cstring "cat", false, 0x100040⟩

/-- Both files can be opened, `LFILE0` and `LFILE1`. -/
def twoFiles : Int → String → Int := fun _ mode => if mode = "ro" then 18 else 19

/-- Only the file for the input can be opened. -/
def oneFile : Int → String → Int := fun _ mode => if mode = "ro" then 18 else SYSERR

/-- How the shell reads the line. -/
theorem catLine_read : ∃ x, lexan catLine (fun _ => 0) 0 (fun _ => 0) (fun _ => 0) = some x ∧
    parse x.1 x.2 = some (.lookup catCommand) ∧
    lookupCommand (cmdtab fun _ => 0x100040) x.1.tokbuf = some catEntry := by
  have hsome : (lexan catLine (fun _ => 0) 0 (fun _ => 0) (fun _ => 0)).isSome = true := by decide
  have hall : ∀ x ∈ lexan catLine (fun _ => 0) 0 (fun _ => 0) (fun _ => 0),
      parse x.1 x.2 = some (.lookup catCommand) ∧
      lookupCommand (cmdtab fun _ => 0x100040) x.1.tokbuf = some catEntry := by
    decide
  obtain ⟨x, hx⟩ := Option.isSome_iff_exists.mp hsome
  exact ⟨x, hx, hall x hx⟩

theorem runCommand_releases_iff_cat : ∃ s r, lexan catLine (fun _ => 0) 0 (fun _ => 0)
      (fun _ => 0) = some (s, r) ∧ parse s r = some (.lookup catCommand) ∧
    ∃ child copied r, runCommand twoFiles CONSOLE 0x130000 (cmdtab fun _ => 0x100040) s catCommand
        (bss xinuImage bootHeap) = some r ∧
      ((r.2.2.isPrompt = true → Released (bss xinuImage bootHeap) r) ↔
        ∀ e, lookupCommand (cmdtab fun _ => 0x100040) s.tokbuf = some e → e.cbuiltin = false →
          NothingTaken twoFiles catCommand child copied) := by
  have hmade : (create catEntry.cfunc SHELL_CMDSTK SHELL_CMDPRIO
      (fun i => catEntry.cname.getD i NULLCH) [catCommand.ntok.toNat, 0x130000]
      (bss xinuImage bootHeap)).isSome = true := by decide +kernel
  have hcopied : ∀ x ∈ lexan catLine (fun _ => 0) 0 (fun _ => 0) (fun _ => 0),
      ∀ y ∈ create catEntry.cfunc SHELL_CMDSTK SHELL_CMDPRIO
        (fun i => catEntry.cname.getD i NULLCH) [catCommand.ntok.toNat, 0x130000]
        (bss xinuImage bootHeap),
      (addargs y.2 catCommand.ntok x.1.tok catCommand.tlen x.1.tokbuf 0x130000 y.1).isSome =
        true := by decide +kernel
  obtain ⟨⟨s, r⟩, hlex, hparse, he⟩ := catLine_read
  obtain ⟨⟨k₁, child⟩, hc⟩ := Option.isSome_iff_exists.mp hmade
  obtain ⟨⟨k₂, copied⟩, ha⟩ := Option.isSome_iff_exists.mp (hcopied _ hlex _ hc)
  refine ⟨s, r, hlex, hparse, child, copied, runCommand_releases_iff _ _ _ _ _ _ _ _ _ ?_⟩
  intro e he' _
  obtain rfl : catEntry = e := Option.some.inj (he.symm.trans he')
  exact ⟨k₁, hc, fun _ => ⟨k₂, ha⟩⟩

/-- **The input stays open** when the output cannot be opened. -/
theorem runCommand_leaks : ∃ s r, lexan catLine (fun _ => 0) 0 (fun _ => 0) (fun _ => 0) =
      some (s, r) ∧ parse s r = some (.lookup catCommand) ∧
    ∃ k' calls, runCommand oneFile CONSOLE 0x130000 (cmdtab fun _ => 0x100040) s catCommand
        (bss xinuImage bootHeap) = some (k', calls, .prompt SHELL_OUTERRMSG (some 10)) ∧
      leftOpen calls = [18] := by
  obtain ⟨⟨s, r⟩, hlex, hparse, he⟩ := catLine_read
  refine ⟨s, r, hlex, hparse, bss xinuImage bootHeap, [.open 6 "ro" 18, .open 10 "w" SYSERR],
    ?_, by decide⟩
  unfold runCommand
  rw [he]
  rfl

end Xinu
