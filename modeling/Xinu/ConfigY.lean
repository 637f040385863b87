/-
# The configuration compiler (`config.y`, `config.l`)

`config` reads the types of devices, each with one or more `on` variants, and then the devices.  The
actions of the grammar enter them in two tables, `dtypes` and `devs`.

A type has one entry, however many variants it is declared with: `addton` writes the name of the
variant over the one before, and `addattr` adds the attributes of all variants to the same entry.
So devices can name any variant, with its attributes, if and only if each variant has the name
of its type's last one and makes the same entry as all of them together (`config_right_iff`).  The
minor numbers and the counts of the devices are always right (`Entered`).

The parser is a state machine on tokens, since the grammar needs one token of lookahead at most
and has no nesting.  It accepts the texts of parse trees (section 5), and on such a text the
tables can be computed from the tree: the types first (section 7), and then the devices over them
(section 8).
-/
import Mathlib.Data.List.GetD
import Mathlib.Tactic

namespace Xinu.Config

/-! ## 1. The tables

An entry for a type and one for a device have the same fields.  Those a declaration does not set
hold `ioerr`, or zero where they are numbers. -/

abbrev MAXNAME : Nat := 16
abbrev NDEVS : Nat := 250
abbrev NTYPES : Nat := 250

/-- A string. -/
abbrev Name := List Char

/-- The tokens that start an attribute. -/
inductive AttrToken
  | CSR | IRQ | INTR | INIT | OPEN | CLOSE | READ | WRITE | SEEK | CONTROL | GETC | PUTC
  deriving DecidableEq

/-- `struct dev_ent`: an entry for a device or a device type. -/
structure DevEnt where
  name : Name
  tname : Name
  ison : Name
  csr : BitVec 32
  irq : BitVec 32
  intr : Name
  init : Name
  «open» : Name
  close : Name
  read : Name
  write : Name
  control : Name
  seek : Name
  getc : Name
  putc : Name
  minor : Nat
  deriving DecidableEq

/-- After `bzero`. -/
def DevEnt.zero : DevEnt := ⟨[], [], [], 0, 0, [], [], [], [], [], [], [], [], [], [], 0⟩

/-- The global variables of the parser. -/
structure Tables where
  dtypes : List DevEnt
  devs : List DevEnt
  saveattrid : Name
  brkcount : Nat

def Tables.start : Tables := ⟨[], [], [], 0⟩

/-- The messages of `config` before it exits, without the numbers of the lines. -/
inductive ConfigError
  | syntaxError
  | stringTooLong (s : Name)
  | attributeTooLong (s : Name)
  | tooManyTypes
  | typeTooLong (s : Name)
  | duplicateType (s : Name)
  | illegalType (s : Name)
  | tooManyDevices
  | deviceTooLong (s : Name)
  | duplicateDevice (s : Name)
  | illegalDevice
  | internalError
  deriving DecidableEq

/-! ## 2. The actions

The functions that the grammar calls, each on the tables.  Where the compiler prints a message and
exits, the result is an error. -/

/-- What `newtype` puts into an entry. -/
def ioerrEntry (name : Name) : DevEnt :=
  let ioerr := ['i', 'o', 'e', 'r', 'r']
  { DevEnt.zero with
    tname := name, intr := ioerr, init := ioerr, «open» := ioerr, close := ioerr, read := ioerr,
    write := ioerr, control := ioerr, seek := ioerr, getc := ioerr, putc := ioerr }

def newtype (name : Name) (s : Tables) : Except ConfigError Tables :=
  if s.dtypes.length ≥ NTYPES then .error .tooManyTypes
  else if name.length ≥ MAXNAME then .error (.typeTooLong name)
  else if s.dtypes.any fun e => name = e.tname then .error (.duplicateType name)
  else .ok { s with dtypes := s.dtypes ++ [ioerrEntry name] }

/-- The entry that was made last. -/
def modifyLast (l : List DevEnt) (f : DevEnt → DevEnt) : List DevEnt := l.modify (l.length - 1) f

def addton (tonid : Name) (s : Tables) : Except ConfigError Tables :=
  if tonid.length ≥ MAXNAME then .error (.stringTooLong tonid)
  else .ok { s with dtypes := modifyLast s.dtypes fun e => { e with ison := tonid } }

def getattrid (str : Name) (s : Tables) : Except ConfigError Tables :=
  if str.length ≥ MAXNAME then .error (.attributeTooLong str)
  else .ok { s with saveattrid := str }

/-- The digits of a number in C. -/
def config_atoi (p : List Char) : BitVec 32 :=
  let digit (c : Char) : Nat :=
    if '0' ≤ c ∧ c ≤ '9' then c.toNat - '0'.toNat
    else if 'A' ≤ c ∧ c ≤ 'Z' then c.toNat - 'A'.toNat + 10
    else c.toNat - 'a'.toNat + 10
  let value (base : Nat) (p : List Char) : BitVec 32 :=
    p.foldl (fun rv c => rv * BitVec.ofNat 32 base + BitVec.ofNat 32 (digit c)) 0
  match p with
  | '0' :: 'x' :: p => value 16 p
  | '0' :: 'X' :: p => value 16 p
  | '0' :: p => value 8 p
  | p => value 10 p

/-- The `switch` of `addattr`. -/
def DevEnt.set (tok : AttrToken) (val : BitVec 32) (saveattrid : Name) (s : DevEnt) : DevEnt :=
  match tok with
  | .CSR => { s with csr := val }
  | .IRQ => { s with irq := val }
  | .INTR => { s with intr := saveattrid }
  | .READ => { s with read := saveattrid }
  | .WRITE => { s with write := saveattrid }
  | .GETC => { s with getc := saveattrid }
  | .PUTC => { s with putc := saveattrid }
  | .OPEN => { s with «open» := saveattrid }
  | .CLOSE => { s with close := saveattrid }
  | .INIT => { s with init := saveattrid }
  | .SEEK => { s with seek := saveattrid }
  | .CONTROL => { s with control := saveattrid }

def addattr (tok : AttrToken) (val : BitVec 32) (s : Tables) : Tables :=
  if s.brkcount = 0 then
    { s with dtypes := modifyLast s.dtypes (DevEnt.set tok val s.saveattrid) }
  else { s with devs := modifyLast s.devs (DevEnt.set tok val s.saveattrid) }

def newdev (name : Name) (s : Tables) : Except ConfigError Tables :=
  if s.devs.length ≥ NDEVS then .error .tooManyDevices
  else if name.length ≥ MAXNAME then .error (.deviceTooLong name)
  else if s.devs.any fun e => name = e.name then .error (.duplicateDevice name)
  else .ok { s with devs := s.devs ++ [{ DevEnt.zero with name := name }] }

def devisid (tname : Name) (s : Tables) : Except ConfigError Tables :=
  if tname.length ≥ MAXNAME then .error (.stringTooLong tname)
  else if s.dtypes.any fun e => tname = e.tname then
    .ok { s with devs := modifyLast s.devs fun e => { e with tname := tname } }
  else .error (.illegalType tname)

def devonid (onname : Name) (s : Tables) : Except ConfigError Tables :=
  if onname.length ≥ MAXNAME then .error (.stringTooLong onname)
  else if s.devs.length = 0 then .error .internalError
  else
    let devs := modifyLast s.devs fun e => { e with ison := onname }
    let dptr := devs.getLastD DevEnt.zero
    match s.dtypes.findIdx? fun tptr => dptr.tname = tptr.tname ∧ dptr.ison = tptr.ison with
    | none => .error .illegalDevice
    | some i =>
      let tptr := s.dtypes.getD i DevEnt.zero
      .ok { s with
        devs := modifyLast devs fun e => { tptr with name := e.name }
        dtypes := s.dtypes.modify i fun e => { e with minor := e.minor + 1 } }

/-! ## 3. The grammar

What the parser reads next depends on where in the grammar it is, and an action is executed as
soon as its part of the text is complete.  An attribute is a keyword, and a value behind it. -/

/-- The tokens, with their text.  The second `%%` ends the input. -/
inductive Token
  | DEFBRK
  | COLON
  | IS
  | ON
  | INTEGER (yytext : List Char)
  | IDENT (yytext : Name)
  | ATTR (tok : AttrToken)
  | CHAR (c : Char)
  deriving DecidableEq

/-- The attributes whose value is a number. -/
def AttrToken.isNumber : AttrToken → Bool
  | CSR | IRQ => true
  | _ => false

/-- Where in the grammar the parser is: what it reads next. -/
inductive Expecting
  | devtype
  | colon
  | theader
  | tonid
  | attr (inDevice : Bool)
  | value (inDevice : Bool) (tok : AttrToken)
  | device
  | devis
  | devisid
  | devon
  | devonid

/-- The next token, and the action that it completes. -/
def step : Expecting → Token → Tables → Except ConfigError (Expecting × Tables)
  | .devtype, .IDENT yytext, s | .attr false, .IDENT yytext, s =>
    (newtype yytext s).map (.colon, ·)
  | .devtype, .DEFBRK, s | .attr false, .DEFBRK, s =>
    .ok (.device, { s with brkcount := s.brkcount + 1 })
  | .colon, .COLON, s => .ok (.theader, s)
  | .theader, .ON, s | .attr false, .ON, s => .ok (.tonid, s)
  | .tonid, .IDENT yytext, s => (addton yytext s).map (.attr false, ·)
  | .attr inDevice, .ATTR tok, s => .ok (.value inDevice tok, s)
  | .value inDevice tok, .INTEGER yytext, s =>
    if tok.isNumber then .ok (.attr inDevice, addattr tok (config_atoi yytext) s)
    else .error .syntaxError
  | .value inDevice tok, .IDENT yytext, s =>
    if tok.isNumber then .error .syntaxError
    else (getattrid yytext s).map fun s => (.attr inDevice, addattr tok 0 s)
  | .device, .IDENT yytext, s | .attr true, .IDENT yytext, s => (newdev yytext s).map (.devis, ·)
  | .devis, .IS, s => .ok (.devisid, s)
  | .devisid, .IDENT yytext, s => (Config.devisid yytext s).map (.devon, ·)
  | .devon, .ON, s => .ok (.devonid, s)
  | .devonid, .IDENT yytext, s => (Config.devonid yytext s).map (.attr true, ·)
  | _, _, _ => .error .syntaxError

def steps : List Token → Expecting × Tables → Except ConfigError (Expecting × Tables)
  | [], c => .ok c
  | tok :: ts, c => (step c.1 tok c.2).bind (steps ts)

/-- The input may end after a device, or where the first one is expected. -/
def Expecting.isEnd : Expecting → Bool
  | device | attr true => true
  | _ => false

/-- The tables after the whole input. -/
def yyparse (ts : List Token) : Except ConfigError Tables :=
  (steps ts (.devtype, Tables.start)).bind fun c =>
    if c.1.isEnd then .ok c.2 else .error .syntaxError

/-- The lines `#define N...` of `conf.h`. -/
def typeCounts (s : Tables) : List (Name × Nat) :=
  (s.dtypes.filter fun e => e.minor > 0).map fun e => (e.tname, e.minor)

/-! ## 4. What is declared

The parse tree, its text, and what a reader of the configuration would expect in the tables: one
row for each device, with the attributes of the variant that it names and its own over them. -/

/-- An attribute and its value. -/
structure Attr where
  tok : AttrToken
  text : List Char

structure Variant where
  on : Name
  attrs : List Attr

/-- A type has a variant. -/
structure TypeDecl where
  name : Name
  first : Variant
  more : List Variant

structure DeviceDecl where
  name : Name
  tname : Name
  on : Name
  attrs : List Attr

/-- The parse tree of a configuration. -/
structure Configuration where
  types : List TypeDecl
  devices : List DeviceDecl

def TypeDecl.variants (t : TypeDecl) : List Variant := t.first :: t.more

def Attr.tokens (a : Attr) : List Token :=
  [.ATTR a.tok, if a.tok.isNumber then .INTEGER a.text else .IDENT a.text]

def Variant.tokens (v : Variant) : List Token :=
  .ON :: .IDENT v.on :: v.attrs.flatMap Attr.tokens

def TypeDecl.tokens (t : TypeDecl) : List Token :=
  .IDENT t.name :: .COLON :: t.variants.flatMap Variant.tokens

def DeviceDecl.tokens (d : DeviceDecl) : List Token :=
  .IDENT d.name :: .IS :: .IDENT d.tname :: .ON :: .IDENT d.on :: d.attrs.flatMap Attr.tokens

/-- Its text. -/
def Configuration.tokens (g : Configuration) : List Token :=
  g.types.flatMap TypeDecl.tokens ++ .DEFBRK :: g.devices.flatMap DeviceDecl.tokens

/-- An entry with an attribute. -/
def Attr.apply (e : DevEnt) (a : Attr) : DevEnt := e.set a.tok (config_atoi a.text) a.text

/-- **What a variant declares**: its attributes, and `ioerr` for the others. -/
def TypeDecl.entry (t : TypeDecl) (v : Variant) : DevEnt :=
  v.attrs.foldl Attr.apply (ioerrEntry t.name)

/-- The device that a declaration describes: the attributes of the variant, and over them its
own. -/
def DeviceDecl.entry (d : DeviceDecl) (t : TypeDecl) (v : Variant) (minor : Nat) : DevEnt :=
  { d.attrs.foldl Attr.apply (t.entry v) with name := d.name, ison := d.on, minor := minor }

/-- The number of devices of a type. -/
def count (devices : List DeviceDecl) (t : TypeDecl) : Nat :=
  (devices.filter fun d => d.tname = t.name).length

/-- **What is wanted** of the tables for a configuration. -/
structure ConfigRight (g : Configuration) (s : Tables) : Prop where
  /-- The devices of a type have the minor numbers from 0, in the order of declaration. -/
  minors : ∀ t ∈ g.types, (s.devs.filter fun e => e.tname = t.name).map DevEnt.minor =
    List.range (count g.devices t)
  /-- Their number is the one that `conf.h` has. -/
  counts : typeCounts s = (g.types.filter fun t => count g.devices t > 0).map fun t =>
    (t.name, count g.devices t)
  /-- A device has the attributes of the variant that it names, and its own. -/
  devices : List.Forall₂ (fun d e => ∃ t ∈ g.types, ∃ v ∈ t.variants, t.name = d.tname ∧
    v.on = d.on ∧ e = d.entry t v e.minor) g.devices s.devs
  /-- One more device can name any variant of any type, and has its attributes. -/
  anyVariant : ∀ t ∈ g.types, ∀ v ∈ t.variants, ∀ (devices : List DeviceDecl) (s' : Tables),
    yyparse (Configuration.tokens ⟨g.types, devices⟩) = .ok s' → devices.length < NDEVS →
    ∀ name : Name, name.length < MAXNAME → (∀ d ∈ devices, d.name ≠ name) →
      let d : DeviceDecl := ⟨name, t.name, v.on, []⟩
      ∃ s'', yyparse (Configuration.tokens ⟨g.types, devices ++ [d]⟩) = .ok s'' ∧
        s''.devs = s'.devs ++ [d.entry t v (count devices t)]

/-! ## 5. The parser reads the grammar

`Rest` describes what may follow a beginning that has been read.  The parser keeps the invariant
that the tokens read and a possible rest are the text of a configuration. -/

variable {ts ts' : List Token} {c c' : Expecting × Tables} {s s' : Tables} {q q' : Expecting}

theorem steps_append : steps (ts ++ ts') c = .ok c' ↔
    ∃ c'', steps ts c = .ok c'' ∧ steps ts' c'' = .ok c' := by
  induction ts generalizing c with
  | nil => simp [steps]
  | cons tok ts ih =>
    simp only [List.cons_append, steps]
    cases h : step c.1 tok c.2 with
    | error e => simp [Except.bind]
    | ok c1 => simpa only [Except.bind] using ih

/-- **What may follow**: the rest of a configuration whose beginning has been read. -/
inductive Rest : Expecting → List Token → Prop
  | config (g : Configuration) : Rest .devtype g.tokens
  | colon {r : List Token} : Rest .theader r → Rest .colon (.COLON :: r)
  | theader {r : List Token} : Rest .tonid r → Rest .theader (.ON :: r)
  | tonid {r : List Token} (on : Name) : Rest (.attr false) r → Rest .tonid (.IDENT on :: r)
  | typeAttrs (as : List Attr) (vs : List Variant) (g : Configuration) :
      Rest (.attr false) (as.flatMap Attr.tokens ++ (vs.flatMap Variant.tokens ++ g.tokens))
  | value {b : Bool} {tok : AttrToken} {r : List Token} (text : List Char) : Rest (.attr b) r →
      Rest (.value b tok) ((if tok.isNumber then .INTEGER text else .IDENT text) :: r)
  | devices (ds : List DeviceDecl) : Rest .device (ds.flatMap DeviceDecl.tokens)
  | devis {r : List Token} : Rest .devisid r → Rest .devis (.IS :: r)
  | devisid {r : List Token} (tname : Name) : Rest .devon r → Rest .devisid (.IDENT tname :: r)
  | devon {r : List Token} : Rest .devonid r → Rest .devon (.ON :: r)
  | devonid {r : List Token} (on : Name) : Rest (.attr true) r → Rest .devonid (.IDENT on :: r)
  | deviceAttrs (as : List Attr) (ds : List DeviceDecl) :
      Rest (.attr true) (as.flatMap Attr.tokens ++ ds.flatMap DeviceDecl.tokens)

/-- After the name of a type and `:`, the rest of its declaration. -/
theorem Rest.newType (h : Rest .colon ts) (name : Name) :
    ∃ g : Configuration, .IDENT name :: ts = g.tokens := by
  cases h with | colon h => ?_
  cases h with | theader h => ?_
  cases h with | tonid on h => ?_
  cases h with | typeAttrs as vs g => ?_
  refine ⟨⟨⟨name, ⟨on, as⟩, vs⟩ :: g.types, g.devices⟩, ?_⟩
  simp [Configuration.tokens, TypeDecl.tokens, TypeDecl.variants, Variant.tokens]

/-- After `on`, a variant and the rest of the type. -/
theorem Rest.newVariant (h : Rest .tonid ts) : Rest (.attr false) (.ON :: ts) := by
  cases h with | tonid on h => ?_
  cases h with | typeAttrs as vs g => ?_
  have := typeAttrs [] (⟨on, as⟩ :: vs) g
  simpa [Variant.tokens] using this

theorem Rest.newDevice (h : Rest .devis ts) (name : Name) :
    ∃ ds : List DeviceDecl, .IDENT name :: ts = ds.flatMap DeviceDecl.tokens := by
  cases h with | devis h => ?_
  cases h with | devisid tname h => ?_
  cases h with | devon h => ?_
  cases h with | devonid on h => ?_
  cases h with | deviceAttrs as ds => ?_
  refine ⟨⟨name, tname, on, as⟩ :: ds, ?_⟩
  simp [DeviceDecl.tokens]

/-- One more attribute. -/
theorem Rest.newAttr {b : Bool} {tok : AttrToken} (h : Rest (.value b tok) ts) :
    Rest (.attr b) (.ATTR tok :: ts) := by
  cases h with | value text h => ?_
  cases h with
  | typeAttrs as vs g => exact typeAttrs (⟨tok, text⟩ :: as) vs g
  | deviceAttrs as ds => exact deviceAttrs (⟨tok, text⟩ :: as) ds

/-- Where the parser is after an action. -/
theorem next_eq {q₁ : Expecting} {f : Tables → Tables} {r : Except ConfigError Tables}
    (h : r.map (fun s => (q₁, f s)) = .ok (q', s')) : q₁ = q' := by
  cases r with
  | error e => cases h
  | ok s₁ => exact (Prod.mk.inj (Except.ok.inj h)).1

/-- **A token and a rest** are a rest. -/
theorem rest_step {tok : Token} (h : step q tok s = .ok (q', s')) (hts : Rest q' ts) :
    Rest q (tok :: ts) := by
  revert h hts
  fun_cases step q tok s <;> intro h hts
  case case1 name =>
    obtain rfl := next_eq h
    obtain ⟨g, hg⟩ := hts.newType name
    exact hg ▸ .config g
  case case2 name =>
    obtain rfl := next_eq h
    obtain ⟨g, hg⟩ := hts.newType name
    exact hg ▸ .typeAttrs [] [] g
  case case3 =>
    obtain ⟨rfl, -⟩ := Prod.mk.inj (Except.ok.inj h)
    cases hts with | devices ds => exact .config ⟨[], ds⟩
  case case4 =>
    obtain ⟨rfl, -⟩ := Prod.mk.inj (Except.ok.inj h)
    cases hts with | devices ds => exact .typeAttrs [] [] ⟨[], ds⟩
  case case5 =>
    obtain ⟨rfl, -⟩ := Prod.mk.inj (Except.ok.inj h)
    exact .colon hts
  case case6 =>
    obtain ⟨rfl, -⟩ := Prod.mk.inj (Except.ok.inj h)
    exact .theader hts
  case case7 =>
    obtain ⟨rfl, -⟩ := Prod.mk.inj (Except.ok.inj h)
    exact hts.newVariant
  case case8 name =>
    obtain rfl := next_eq h
    exact .tonid name hts
  case case9 =>
    obtain ⟨rfl, -⟩ := Prod.mk.inj (Except.ok.inj h)
    exact hts.newAttr
  case case10 inDevice tok text hnumber =>
    obtain ⟨rfl, -⟩ := Prod.mk.inj (Except.ok.inj h)
    have := @Rest.value inDevice tok ts text hts
    rwa [if_pos hnumber] at this
  case case13 inDevice tok text hnumber =>
    obtain rfl := next_eq h
    have := @Rest.value inDevice tok ts text hts
    rwa [if_neg hnumber] at this
  case case14 name =>
    obtain rfl := next_eq h
    obtain ⟨ds, hds⟩ := hts.newDevice name
    exact hds ▸ .devices ds
  case case15 name =>
    obtain rfl := next_eq h
    obtain ⟨ds, hds⟩ := hts.newDevice name
    exact hds ▸ .deviceAttrs [] ds
  case case16 =>
    obtain ⟨rfl, -⟩ := Prod.mk.inj (Except.ok.inj h)
    exact .devis hts
  case case17 name =>
    obtain rfl := next_eq h
    exact .devisid name hts
  case case18 =>
    obtain ⟨rfl, -⟩ := Prod.mk.inj (Except.ok.inj h)
    exact .devon hts
  case case19 name =>
    obtain rfl := next_eq h
    exact .devonid name hts
  all_goals cases h

theorem yyparse_ok_iff : yyparse ts = .ok s ↔
    ∃ q, q.isEnd = true ∧ steps ts (.devtype, Tables.start) = .ok (q, s) := by
  rw [yyparse]
  cases hsteps : steps ts (.devtype, Tables.start) with
  | error e => exact iff_of_false nofun nofun
  | ok c =>
    obtain ⟨q, s₁⟩ := c
    by_cases hend : q.isEnd = true
    · simp only [Except.bind, hend, if_true]
      constructor
      · intro h
        obtain rfl := Except.ok.inj h
        exact ⟨q, hend, rfl⟩
      · rintro ⟨q', -, h⟩
        obtain ⟨-, rfl⟩ := Prod.mk.inj (Except.ok.inj h)
        rfl
    · simp only [Except.bind, hend]
      refine iff_of_false nofun ?_
      rintro ⟨q', hend', h⟩
      obtain ⟨rfl, -⟩ := Prod.mk.inj (Except.ok.inj h)
      exact hend hend'

/-- At the end nothing more has to follow. -/
theorem rest_steps (h : steps ts c = .ok c') (hend : c'.1.isEnd = true) : Rest c.1 ts := by
  induction ts generalizing c with
  | nil =>
    obtain ⟨q, s⟩ := c
    obtain rfl := Except.ok.inj h
    revert hend
    fun_cases Expecting.isEnd q <;> intro hend
    · exact .devices []
    · exact .deviceAttrs [] []
    · cases hend
  | cons tok ts ih =>
    rw [steps] at h
    cases hstep : step c.1 tok c.2 with
    | error e =>
      rw [hstep] at h
      cases h
    | ok c₁ =>
      rw [hstep] at h
      exact rest_step hstep (ih h)

/-- **What is accepted is a configuration**. -/
theorem yyparse_tree (h : yyparse ts = .ok s) : ∃ g : Configuration, g.tokens = ts := by
  obtain ⟨q, hend, hsteps⟩ := yyparse_ok_iff.mp h
  cases rest_steps hsteps hend with | config g => exact ⟨g, rfl⟩

/-! ## 6. The entries

Setting an attribute leaves the name and the variant of an entry alone, so the order of the two
does not matter, and what several variants leave in one entry is all of their attributes. -/

variable {e : DevEnt} {l : List DevEnt}

theorem modifyLast_concat (f : DevEnt → DevEnt) : modifyLast (l ++ [e]) f = l ++ [f e] := by
  rw [modifyLast, List.length_append, List.length_singleton, Nat.add_sub_cancel]
  exact List.modifyTailIdx_add _ 0 l [e]

theorem modifyLast_modifyLast (f f' : DevEnt → DevEnt) :
    modifyLast (modifyLast l f) f' = modifyLast l fun e => f' (f e) := by
  simp only [modifyLast, List.length_modify, List.modify_modify_eq]
  rfl

theorem modifyLast_id : modifyLast l (fun e => e) = l := List.modify_id ..

/-- An entry under another name, of a variant and with a minor number. -/
def DevEnt.labelled (e : DevEnt) (name ison : Name) (minor : Nat) : DevEnt :=
  { e with name := name, ison := ison, minor := minor }

/-- Attributes do not concern these. -/
theorem DevEnt.labelled_set (tok : AttrToken) (val : BitVec 32) (sv name ison : Name)
    (minor : Nat) :
    (e.labelled name ison minor).set tok val sv = (e.set tok val sv).labelled name ison minor := by
  cases tok <;> rfl

theorem labelled_foldl (as : List Attr) (name ison : Name) (minor : Nat) :
    as.foldl Attr.apply (e.labelled name ison minor) =
      (as.foldl Attr.apply e).labelled name ison minor := by
  induction as generalizing e with
  | nil => rfl
  | cons a as ih =>
    rw [List.foldl_cons, List.foldl_cons, Attr.apply, DevEnt.labelled_set, ih]
    rfl

theorem labelled_self (as : List Attr) :
    (as.foldl Attr.apply e).labelled e.name e.ison e.minor = as.foldl Attr.apply e :=
  (labelled_foldl as e.name e.ison e.minor).symm

theorem foldl_tname (as : List Attr) : (as.foldl Attr.apply e).tname = e.tname := by
  induction as generalizing e with
  | nil => rfl
  | cons a as ih =>
    rw [List.foldl_cons, ih, Attr.apply]
    cases a.tok <;> rfl

/-- The name of the last variant. -/
def TypeDecl.lastOn (t : TypeDecl) : Name := (t.variants.map Variant.on).getLastD []

/-- The attributes of all variants together. -/
def TypeDecl.merged (t : TypeDecl) : DevEnt :=
  (t.variants.flatMap Variant.attrs).foldl Attr.apply (ioerrEntry t.name)

/-- **The entry of a type**: it is named after the last variant. -/
def TypeDecl.row (t : TypeDecl) (minor : Nat) : DevEnt := t.merged.labelled [] t.lastOn minor

/-- What a variant does to the entry of its type. -/
def Variant.apply (e : DevEnt) (v : Variant) : DevEnt :=
  v.attrs.foldl Attr.apply { e with ison := v.on }

theorem foldl_variants (vs : List Variant) :
    vs.foldl Variant.apply e = ((vs.flatMap Variant.attrs).foldl Attr.apply e).labelled e.name
      ((vs.map Variant.on).getLastD e.ison) e.minor := by
  induction vs generalizing e with
  | nil => rfl
  | cons v vs ih =>
    have hname : { e with ison := v.on } = e.labelled e.name v.on e.minor := rfl
    rw [List.foldl_cons, ih, Variant.apply, hname, labelled_foldl, labelled_foldl]
    simp only [List.flatMap_cons, List.foldl_append, List.map_cons, List.getLastD_cons]
    rfl

theorem TypeDecl.row_eq (t : TypeDecl) :
    t.variants.foldl Variant.apply (ioerrEntry t.name) = t.row 0 := foldl_variants _

@[simp] theorem TypeDecl.row_tname (t : TypeDecl) (minor : Nat) : (t.row minor).tname = t.name :=
  foldl_tname _

/-! ## 7. The types

Each declaration of a type makes one entry, and every variant of it writes into that entry. -/

/-- The entry that attributes are added to. -/
def Tables.edit (f : DevEnt → DevEnt) (s : Tables) : Tables :=
  if s.brkcount = 0 then { s with dtypes := modifyLast s.dtypes f }
  else { s with devs := modifyLast s.devs f }

theorem Tables.edit_edit (f f' : DevEnt → DevEnt) (sv : Name) :
    Tables.edit f' { s.edit f with saveattrid := sv } =
      { s.edit (fun e => f' (f e)) with saveattrid := sv } := by
  by_cases h : s.brkcount = 0
  · simp only [edit, if_pos h, modifyLast_modifyLast]
  · simp only [edit, if_neg h, modifyLast_modifyLast]

/-- An attribute: its token, its value, the action. -/
theorem steps_attr {a : Attr} {b : Bool} (h : steps a.tokens (.attr b, s) = .ok c) :
    ∃ sv, c = (.attr b, { s.edit (fun e => Attr.apply e a) with saveattrid := sv }) := by
  by_cases hnumber : a.tok.isNumber = true
  · have hset : (fun e => Attr.apply e a) =
        DevEnt.set a.tok (config_atoi a.text) s.saveattrid := by
      funext e
      rw [Attr.apply]
      revert hnumber
      cases a.tok <;> intro hnumber <;> first | rfl | cases hnumber
    simp only [Attr.tokens, hnumber, if_true, steps, step, Except.bind] at h
    obtain rfl := Except.ok.inj h
    refine ⟨s.saveattrid, ?_⟩
    rw [hset, addattr, Tables.edit]
    split_ifs <;> rfl
  · have hset : (fun e => Attr.apply e a) = DevEnt.set a.tok 0 a.text := by
      funext e
      rw [Attr.apply]
      revert hnumber
      cases a.tok <;> intro hnumber <;> first | rfl | exact absurd rfl hnumber
    simp only [Attr.tokens, hnumber, Bool.false_eq_true, if_false, steps, step, Except.bind] at h
    rw [getattrid] at h
    by_cases hlong : a.text.length ≥ MAXNAME
    · rw [if_pos hlong] at h
      cases h
    · rw [if_neg hlong] at h
      obtain rfl := Except.ok.inj h
      refine ⟨a.text, ?_⟩
      rw [hset]
      simp only [addattr, Tables.edit]
      split_ifs <;> rfl

/-- **The attributes** are added to the current entry. -/
theorem steps_attrs {as : List Attr} {b : Bool}
    (h : steps (as.flatMap Attr.tokens) (.attr b, s) = .ok c) :
    ∃ sv, c = (.attr b, { s.edit (fun e => as.foldl Attr.apply e) with saveattrid := sv }) := by
  induction as generalizing s with
  | nil =>
    refine ⟨s.saveattrid, (Except.ok.inj h).symm.trans ?_⟩
    simp only [Tables.edit, List.foldl_nil, modifyLast_id, ite_self]
  | cons a as ih =>
    obtain ⟨c₁, h₁, h₂⟩ := steps_append.mp h
    obtain ⟨sv₁, rfl⟩ := steps_attr h₁
    obtain ⟨sv, rfl⟩ := ih h₂
    refine ⟨sv, ?_⟩
    rw [Tables.edit_edit]
    rfl

/-- The parser is between two types. -/
def Expecting.isType : Expecting → Bool
  | devtype | attr false => true
  | _ => false

/-- **The variants of a type** change its entry. -/
theorem steps_variants {vs : List Variant} (hs : s.brkcount = 0)
    (h : steps (vs.flatMap Variant.tokens) (.attr false, s) = .ok c) :
    (∀ v ∈ vs, v.on.length < MAXNAME) ∧
      ∃ sv, c = (.attr false, { s with
        dtypes := modifyLast s.dtypes fun e => vs.foldl Variant.apply e, saveattrid := sv }) := by
  induction vs generalizing s with
  | nil =>
    refine ⟨nofun, s.saveattrid, (Except.ok.inj h).symm.trans ?_⟩
    simp only [List.foldl_nil, modifyLast_id]
  | cons v vs ih =>
    obtain ⟨c₁, h₁, h₂⟩ := steps_append.mp h
    simp only [Variant.tokens, steps, step, Except.bind] at h₁
    rw [addton] at h₁
    by_cases hlong : v.on.length ≥ MAXNAME
    · rw [if_pos hlong] at h₁
      cases h₁
    rw [if_neg hlong] at h₁
    obtain ⟨sv₁, rfl⟩ := steps_attrs h₁
    simp only [Tables.edit, hs, if_true, modifyLast_modifyLast] at h₂
    obtain ⟨hlengths, sv, rfl⟩ := ih rfl h₂
    refine ⟨List.forall_mem_cons.mpr ⟨not_le.mp hlong, hlengths⟩, sv, ?_⟩
    simp only [modifyLast_modifyLast]
    rw [hs]
    rfl

/-- What is known after the types: `newtype` and `addton` did not exit. -/
structure TypesRead (types : List TypeDecl) (s : Tables) : Prop where
  dtypes : s.dtypes = types.map fun t => t.row 0
  devs : s.devs = []
  brkcount : s.brkcount = 0
  nodup : (types.map TypeDecl.name).Nodup
  lengths : ∀ t ∈ types, t.name.length < MAXNAME ∧ ∀ v ∈ t.variants, v.on.length < MAXNAME

variable {types : List TypeDecl} {t : TypeDecl}

/-- **One more type**. -/
theorem steps_type (hs : TypesRead types s) (hq : q.isType = true)
    (h : steps t.tokens (q, s) = .ok (q', s')) :
    q'.isType = true ∧ TypesRead (types ++ [t]) s' := by
  have hident : step q (.IDENT t.name) s = (newtype t.name s).map (.colon, ·) := by
    revert hq
    fun_cases Expecting.isType q <;> intro hq
    · rfl
    · rfl
    · cases hq
  simp only [TypeDecl.tokens, steps, hident] at h
  rw [newtype] at h
  split_ifs at h with hmany hlong hdup
  · cases h
  · cases h
  · cases h
  -- the first variant is read as the others are
  have hfirst : ∀ s : Tables, steps (t.variants.flatMap Variant.tokens) (.theader, s) =
      steps (t.variants.flatMap Variant.tokens) (.attr false, s) := fun s => rfl
  simp only [Except.map, Except.bind, step, hfirst] at h
  obtain ⟨hons, sv, heq⟩ := steps_variants (by exact hs.brkcount) h
  obtain ⟨rfl, rfl⟩ := Prod.mk.inj heq
  refine ⟨rfl, ⟨?_, hs.devs, hs.brkcount, ?_, ?_⟩⟩
  · simp only [modifyLast_concat, TypeDecl.row_eq, hs.dtypes, List.map_append, List.map_cons,
      List.map_nil]
  · have hnew : t.name ∉ types.map TypeDecl.name := by
      intro hmem
      obtain ⟨t', ht', hname⟩ := List.mem_map.mp hmem
      refine hdup (List.any_eq_true.mpr ⟨t'.row 0, ?_, ?_⟩)
      · rw [hs.dtypes]
        exact List.mem_map_of_mem ht'
      · rw [TypeDecl.row_tname, hname, decide_eq_true_eq]
    rw [List.map_append, List.map_singleton, ← List.concat_eq_append]
    exact hs.nodup.concat hnew
  · intro t' ht'
    rcases List.mem_append.mp ht' with ht' | ht'
    · exact hs.lengths t' ht'
    · obtain rfl := List.mem_singleton.mp ht'
      exact ⟨not_le.mp hlong, hons⟩

/-- **All types**. -/
theorem steps_types {more : List TypeDecl} (hs : TypesRead types s) (hq : q.isType = true)
    (h : steps (more.flatMap TypeDecl.tokens) (q, s) = .ok (q', s')) :
    q'.isType = true ∧ TypesRead (types ++ more) s' := by
  induction more generalizing types q s with
  | nil =>
    obtain ⟨rfl, rfl⟩ := Prod.mk.inj (Except.ok.inj h)
    rw [List.append_nil]
    exact ⟨hq, hs⟩
  | cons t more ih =>
    obtain ⟨⟨q₁, s₁⟩, h₁, h₂⟩ := steps_append.mp h
    obtain ⟨hq₁, hs₁⟩ := steps_type hs hq h₁
    have := ih hs₁ hq₁ h₂
    rwa [List.append_assoc, List.singleton_append] at this

/-! ## 8. The devices

A device looks its type and variant up among the entries, starts from the attributes it finds
there, and takes the count of its type as its minor number. -/

variable {devices : List DeviceDecl} {d : DeviceDecl}

/-- **What has been entered** for types and devices. -/
structure Entered (types : List TypeDecl) (devices : List DeviceDecl) (s : Tables) : Prop where
  dtypes : s.dtypes = types.map fun t => t.row (count devices t)
  devs : List.Forall₂ (fun d e => ∃ t ∈ types, t.name = d.tname ∧ t.lastOn = d.on ∧
    e = (d.attrs.foldl Attr.apply t.merged).labelled d.name d.on e.minor) devices s.devs
  minors : ∀ t ∈ types, (s.devs.filter fun e => e.tname = t.name).map DevEnt.minor =
    List.range (count devices t)
  brkcount : s.brkcount ≠ 0
  nodup : (types.map TypeDecl.name).Nodup
  lengths : ∀ t ∈ types, t.name.length < MAXNAME ∧ ∀ v ∈ t.variants, v.on.length < MAXNAME

theorem count_append (devices : List DeviceDecl) (d : DeviceDecl) (t : TypeDecl) :
    count (devices ++ [d]) t = count devices t + if d.tname = t.name then 1 else 0 := by
  rw [count, List.filter_append, List.length_append]
  by_cases h : d.tname = t.name <;> simp [count, h]

/-- The last variant is one of them. -/
theorem TypeDecl.lastOn_mem (t : TypeDecl) : ∃ v ∈ t.variants, v.on = t.lastOn := by
  have hne : t.variants.map Variant.on ≠ [] := nofun
  have hlast : t.lastOn = (t.variants.map Variant.on).getLast hne := by
    rw [lastOn, List.getLastD_eq_getLast?, List.getLast?_eq_some_getLast hne, Option.getD_some]
  obtain ⟨v, hv, hon⟩ := List.mem_map.mp (hlast ▸ List.getLast_mem hne)
  exact ⟨v, hv, hon⟩

/-- The tables after the name, the type and the variant of a device. -/
def Tables.withDevice (s : Tables) (types : List TypeDecl) (devices : List DeviceDecl)
    (d : DeviceDecl) (t : TypeDecl) : Tables :=
  { s with
    dtypes := types.map fun t => t.row (count (devices ++ [d]) t)
    devs := s.devs ++ [t.merged.labelled d.name d.on (count devices t)] }

/-- One more device of the `i`-th type. -/
theorem modify_rows (hnodup : (types.map TypeDecl.name).Nodup) {i : Nat} (hi : i < types.length)
    (hname : types[i].name = d.tname) :
    (types.map fun t => t.row (count devices t)).modify i
        (fun e => { e with minor := e.minor + 1 }) =
      types.map fun t => t.row (count (devices ++ [d]) t) := by
  refine List.ext_getElem (by simp) fun j hj _ => ?_
  have hj' : j < types.length := by simpa using hj
  rw [List.getElem_modify]
  simp only [List.getElem_map, count_append]
  by_cases hij : i = j
  · subst hij
    rw [if_pos rfl, if_pos hname.symm]
    rfl
  · have hne : d.tname ≠ types[j].name := by
      intro heq
      refine hij ((@List.Nodup.getElem_inj_iff _ _ hnodup i (by simpa using hi) j
        (by simpa using hj')).mp ?_)
      rw [List.getElem_map, List.getElem_map, hname, heq]
    rw [if_neg hij, if_neg hne]
    rfl

/-- The type that `devonid` looks for. -/
def TypeDecl.names (t : TypeDecl) (d : DeviceDecl) : Bool := d.tname = t.name ∧ d.on = t.lastOn

theorem devonid_eq (hs : Entered types devices s) {dptr : DevEnt} (hname : dptr.name = d.name)
    (htname : dptr.tname = d.tname) (hlength : d.on.length < MAXNAME) :
    devonid d.on { s with devs := s.devs ++ [dptr] } =
      match types.findIdx? (·.names d) with
      | none => .error .illegalDevice
      | some i => .ok { s with
          devs := s.devs ++ [{ s.dtypes.getD i DevEnt.zero with name := d.name }]
          dtypes := s.dtypes.modify i fun e => { e with minor := e.minor + 1 } } := by
  have hfind : (s.dtypes.findIdx? fun tptr => d.tname = tptr.tname ∧ d.on = tptr.ison) =
      types.findIdx? (·.names d) := by
    rw [hs.dtypes, List.findIdx?_map]
    refine congrArg (types.findIdx? ·) (funext fun t => ?_)
    simp only [Function.comp, TypeDecl.names, TypeDecl.row_tname]
    rfl
  have hnonempty : ¬ (s.devs ++ [dptr]).length = 0 := by simp
  rw [devonid, if_neg (not_le.mpr hlength), if_neg hnonempty]
  simp only [modifyLast_concat, List.getLastD_concat, htname, hname, hfind]

/-- **`devonid` finds the type** if the device names the last variant. -/
theorem devonid_ok_iff (hs : Entered types devices s) {dptr : DevEnt} (hname : dptr.name = d.name)
    (htname : dptr.tname = d.tname) :
    devonid d.on { s with devs := s.devs ++ [dptr] } = .ok s' ↔
      ∃ t ∈ types, t.name = d.tname ∧ t.lastOn = d.on ∧
        s' = s.withDevice types devices d t := by
  by_cases hlong : d.on.length ≥ MAXNAME
  · -- no variant has so long a name
    rw [devonid, if_pos hlong]
    refine iff_of_false nofun ?_
    rintro ⟨t, ht, -, hon, -⟩
    obtain ⟨v, hv, hlast⟩ := t.lastOn_mem
    have := (hs.lengths t ht).2 v hv
    rw [hlast, hon] at this
    omega
  rw [devonid_eq hs hname htname (not_le.mp hlong)]
  cases hfind : types.findIdx? (·.names d) with
  | none =>
    refine iff_of_false nofun ?_
    rintro ⟨t, ht, htn, hon, -⟩
    have hno := List.findIdx?_eq_none_iff.mp hfind t ht
    simp [TypeDecl.names, htn, hon] at hno
  | some i =>
    obtain ⟨hi, hnames, -⟩ := List.findIdx?_eq_some_iff_getElem.mp hfind
    simp only [TypeDecl.names, decide_eq_true_eq] at hnames
    have hrow : s.dtypes.getD i DevEnt.zero = types[i].row (count devices types[i]) := by
      rw [hs.dtypes, List.getD_eq_getElem _ _ (by simpa using hi), List.getElem_map]
    have htables : ({ s with
        devs := s.devs ++ [{ s.dtypes.getD i DevEnt.zero with name := d.name }]
        dtypes := s.dtypes.modify i fun e => { e with minor := e.minor + 1 } } : Tables) =
        s.withDevice types devices d types[i] := by
      rw [Tables.withDevice, ← modify_rows hs.nodup hi hnames.1.symm, ← hs.dtypes, hrow,
        hnames.2]
      rfl
    simp only [htables]
    constructor
    · intro h
      exact ⟨types[i], List.getElem_mem hi, hnames.1.symm, hnames.2.symm, (Except.ok.inj h).symm⟩
    · rintro ⟨t, ht, htn, -, rfl⟩
      -- two types of one name are the same
      obtain rfl : types[i] = t := List.inj_on_of_nodup_map hs.nodup (List.getElem_mem hi) ht
        (hnames.1.symm.trans htn.symm)
      rfl

/-- The declaration without its attributes. -/
def DeviceDecl.header (d : DeviceDecl) : List Token :=
  [.IDENT d.name, .IS, .IDENT d.tname, .ON, .IDENT d.on]

/-- The names of the devices are those of their declarations. -/
theorem Entered.names (hs : Entered types devices s) :
    s.devs.map DevEnt.name = devices.map DeviceDecl.name := by
  have hdevs := hs.devs
  generalize s.devs = devs at hdevs
  clear hs
  induction hdevs with
  | nil => rfl
  | cons h _ ih =>
    obtain ⟨t, -, -, -, he⟩ := h
    rw [List.map_cons, List.map_cons, ih, he]
    rfl

/-- **The beginning of a device**: when it is accepted, and with what tables. -/
theorem steps_header_iff (hs : Entered types devices s) (hq : q.isEnd = true) :
    steps d.header (q, s) = .ok c ↔
      devices.length < NDEVS ∧ d.name.length < MAXNAME ∧ (∀ d' ∈ devices, d'.name ≠ d.name) ∧
        ∃ t ∈ types, t.name = d.tname ∧ t.lastOn = d.on ∧
          c = (.attr true, s.withDevice types devices d t) := by
  have hident : step q (.IDENT d.name) s = (newdev d.name s).map (.devis, ·) := by
    revert hq
    fun_cases Expecting.isEnd q <;> intro hq
    · rfl
    · rfl
    · cases hq
  have hlength : s.devs.length = devices.length := hs.devs.length_eq.symm
  have hunique : (s.devs.any fun e => d.name = e.name) = true ↔
      ∃ d' ∈ devices, d'.name = d.name := by
    rw [← List.mem_map, ← hs.names, List.mem_map, List.any_eq_true]
    simp only [decide_eq_true_eq]
    exact exists_congr fun e => and_congr_right fun _ => eq_comm
  simp only [DeviceDecl.header, steps, hident]
  rw [newdev, hlength]
  by_cases hmany : devices.length ≥ NDEVS
  · rw [if_pos hmany]
    exact iff_of_false nofun fun h => absurd h.1 (not_lt.mpr hmany)
  by_cases hlong : d.name.length ≥ MAXNAME
  · rw [if_neg hmany, if_pos hlong]
    exact iff_of_false nofun fun h => absurd h.2.1 (not_lt.mpr hlong)
  by_cases hdup : (s.devs.any fun e => d.name = e.name) = true
  · rw [if_neg hmany, if_neg hlong, if_pos hdup]
    obtain ⟨d', hd', heq⟩ := hunique.mp hdup
    exact iff_of_false nofun fun h => h.2.2.1 d' hd' heq
  rw [if_neg hmany, if_neg hlong, if_neg hdup]
  have hfresh : ∀ d' ∈ devices, d'.name ≠ d.name :=
    fun d' hd' heq => hdup (hunique.mpr ⟨d', hd', heq⟩)
  simp only [not_le.mp hmany, not_le.mp hlong, true_and, and_iff_right hfresh]
  simp only [Except.map, Except.bind, step]
  rw [devisid]
  by_cases htlong : d.tname.length ≥ MAXNAME
  · rw [if_pos htlong]
    refine iff_of_false nofun ?_
    rintro ⟨t, ht, htn, -⟩
    exact absurd (htn ▸ (hs.lengths t ht).1) (not_lt.mpr htlong)
  by_cases hany : (s.dtypes.any fun e => d.tname = e.tname) = true
  swap
  · rw [if_neg htlong, if_neg hany]
    refine iff_of_false nofun ?_
    rintro ⟨t, ht, htn, -⟩
    refine hany (List.any_eq_true.mpr ⟨_, hs.dtypes ▸ List.mem_map_of_mem ht, ?_⟩)
    rw [TypeDecl.row_tname, htn, decide_eq_true_eq]
  rw [if_neg htlong, if_pos hany]
  simp only [modifyLast_concat]
  have hdevon := fun s' => @devonid_ok_iff s s' types devices d hs
    { DevEnt.zero with name := d.name, tname := d.tname } rfl rfl
  constructor
  · intro h
    cases hres : devonid d.on { s with
        devs := s.devs ++ [{ DevEnt.zero with name := d.name, tname := d.tname }] } with
    | error e =>
      rw [hres] at h
      cases h
    | ok s₁ =>
      rw [hres] at h
      obtain rfl := Except.ok.inj h
      obtain ⟨t, ht, htn, hon, rfl⟩ := (hdevon s₁).mp hres
      exact ⟨t, ht, htn, hon, rfl⟩
  · rintro ⟨t, ht, htn, hon, rfl⟩
    rw [(hdevon _).mpr ⟨t, ht, htn, hon, rfl⟩]

/-- **One more device** has been entered. -/
theorem steps_device (hs : Entered types devices s) (hq : q.isEnd = true)
    (h : steps d.tokens (q, s) = .ok (q', s')) :
    q'.isEnd = true ∧ Entered types (devices ++ [d]) s' := by
  obtain ⟨c, hheader, hattrs⟩ :=
    (@steps_append d.header (d.attrs.flatMap Attr.tokens) (q, s) (q', s')).mp h
  obtain ⟨-, -, -, t, ht, htn, hon, rfl⟩ := (steps_header_iff hs hq).mp hheader
  obtain ⟨sv, heq⟩ := steps_attrs hattrs
  obtain ⟨rfl, rfl⟩ := Prod.mk.inj heq
  have hbrk : (s.withDevice types devices d t).brkcount ≠ 0 := hs.brkcount
  simp only [Tables.edit, if_neg hbrk]
  simp only [Tables.withDevice, modifyLast_concat, labelled_foldl]
  refine ⟨rfl, ⟨rfl, ?_, ?_, hs.brkcount, hs.nodup, hs.lengths⟩⟩
  · exact List.rel_append hs.devs (.cons ⟨t, ht, htn, hon, rfl⟩ .nil)
  · intro t' ht'
    have htname : ((d.attrs.foldl Attr.apply t.merged).labelled d.name d.on
        (count devices t)).tname = d.tname := by
      rw [← htn, ← t.row_tname 0]
      exact foldl_tname _
    rw [List.filter_append, List.map_append, hs.minors t' ht', count_append]
    by_cases heq : d.tname = t'.name
    · obtain rfl : t = t' := List.inj_on_of_nodup_map hs.nodup ht ht' (htn.trans heq)
      rw [List.filter_singleton, htname]
      simp only [heq, decide_true, if_true, List.range_succ]
      rfl
    · rw [List.filter_singleton, htname]
      simp [heq]

theorem steps_devices {more : List DeviceDecl} (hs : Entered types devices s)
    (hq : q.isEnd = true)
    (h : steps (more.flatMap DeviceDecl.tokens) (q, s) = .ok (q', s')) :
    q'.isEnd = true ∧ Entered types (devices ++ more) s' := by
  induction more generalizing devices q s with
  | nil =>
    obtain ⟨rfl, rfl⟩ := Prod.mk.inj (Except.ok.inj h)
    rw [List.append_nil]
    exact ⟨hq, hs⟩
  | cons d more ih =>
    obtain ⟨⟨q₁, s₁⟩, h₁, h₂⟩ := steps_append.mp h
    obtain ⟨hq₁, hs₁⟩ := steps_device hs hq h₁
    have := ih hs₁ hq₁ h₂
    rwa [List.append_assoc, List.singleton_append] at this

/-- **The types of an accepted text** without its devices. -/
theorem yyparse_types {g : Configuration} (h : yyparse g.tokens = .ok s) :
    ∃ s₁, Entered g.types [] s₁ ∧ yyparse (Configuration.tokens ⟨g.types, []⟩) = .ok s₁ ∧
      ∃ q, q.isEnd = true ∧
        steps (g.devices.flatMap DeviceDecl.tokens) (.device, s₁) = .ok (q, s) := by
  obtain ⟨q, hend, hsteps⟩ := yyparse_ok_iff.mp h
  obtain ⟨⟨q₁, s₁⟩, h₁, h₂⟩ := steps_append.mp hsteps
  have hstart : TypesRead [] Tables.start := ⟨rfl, rfl, rfl, List.nodup_nil, nofun⟩
  obtain ⟨hq₁, hs₁⟩ := steps_types hstart rfl h₁
  have hbreak : step q₁ .DEFBRK s₁ = .ok (.device, { s₁ with brkcount := s₁.brkcount + 1 }) := by
    revert hq₁
    fun_cases Expecting.isType q₁ <;> intro hq₁
    · rfl
    · rfl
    · cases hq₁
  rw [steps, hbreak] at h₂
  refine ⟨{ s₁ with brkcount := s₁.brkcount + 1 },
    ⟨hs₁.dtypes, ?_, ?_, Nat.succ_ne_zero _, hs₁.nodup, hs₁.lengths⟩, ?_, q, hend, h₂⟩
  · simp only [hs₁.devs]
    exact .nil
  · intro t ht
    simp only [hs₁.devs]
    rfl
  · refine yyparse_ok_iff.mpr ⟨.device, rfl, steps_append.mpr ⟨_, h₁, ?_⟩⟩
    rw [steps, hbreak]
    rfl

theorem yyparse_entered {g : Configuration} (h : yyparse g.tokens = .ok s) :
    Entered g.types g.devices s := by
  obtain ⟨s₁, hs₁, -, q, -, hdevices⟩ := yyparse_types h
  exact (steps_devices hs₁ rfl hdevices).2

/-! ## 9. Which configurations are entered as they are declared

A type with one variant is entered as it is declared.  With several, a device can name the last
one only, and gets the attributes of all. -/

theorem typeCounts_eq (hs : Entered types devices s) :
    typeCounts s = (types.filter fun t => count devices t > 0).map fun t =>
      (t.name, count devices t) := by
  rw [typeCounts, hs.dtypes, List.filter_map, List.map_map]
  refine congrArg₂ List.map (funext fun t => ?_) rfl
  simp only [Function.comp, TypeDecl.row_tname]
  rfl

/-- The entry that a device is wanted to have, in terms of the one of its variant. -/
theorem DeviceDecl.entry_eq (d : DeviceDecl) (t : TypeDecl) (v : Variant) (minor : Nat) :
    d.entry t v minor = (d.attrs.foldl Attr.apply (t.entry v)).labelled d.name d.on minor := rfl

/-- **The exact condition on a type**: each variant is named as the last one, and has the attributes
of all of them together. -/
def TypeDecl.OneVariant (t : TypeDecl) : Prop :=
  ∀ v ∈ t.variants, v.on = t.lastOn ∧ t.entry v = t.merged

/-- A device without attributes of its own is accepted if it names the last variant. -/
theorem yyparse_device_iff (h : yyparse (Configuration.tokens ⟨types, devices⟩) = .ok s)
    (hroom : devices.length < NDEVS) (hname : d.name.length < MAXNAME)
    (hfresh : ∀ d' ∈ devices, d'.name ≠ d.name) (hattrs : d.attrs = []) :
    yyparse (Configuration.tokens ⟨types, devices ++ [d]⟩) = .ok s' ↔
      ∃ t ∈ types, t.name = d.tname ∧ t.lastOn = d.on ∧ s' = s.withDevice types devices d t := by
  have hs : Entered types devices s := yyparse_entered h
  obtain ⟨q, hend, hsteps⟩ := yyparse_ok_iff.mp h
  have htokens : Configuration.tokens ⟨types, devices ++ [d]⟩ =
      Configuration.tokens ⟨types, devices⟩ ++ d.header := by
    simp [Configuration.tokens, DeviceDecl.tokens, DeviceDecl.header, hattrs]
  rw [yyparse_ok_iff, htokens]
  constructor
  · rintro ⟨q', -, h'⟩
    obtain ⟨c, h₁, h₂⟩ := steps_append.mp h'
    rw [hsteps] at h₁
    obtain rfl := Except.ok.inj h₁
    obtain ⟨-, -, -, t, ht, htn, hon, heq⟩ := (steps_header_iff hs hend).mp h₂
    exact ⟨t, ht, htn, hon, (Prod.mk.inj heq).2⟩
  · rintro ⟨t, ht, htn, hon, rfl⟩
    exact ⟨.attr true, rfl, steps_append.mpr ⟨(q, s), hsteps,
      (steps_header_iff hs hend).mpr ⟨hroom, hname, hfresh, t, ht, htn, hon, rfl⟩⟩⟩

/-- Two variants of a type have the same attributes if two devices do. -/
theorem TypeDecl.merged_of_labelled {t : TypeDecl} {v : Variant} {name on : Name} {minor : Nat}
    (h : t.merged.labelled name on minor = (t.entry v).labelled name on minor) :
    t.entry v = t.merged := by
  have hmerged : t.merged.labelled [] [] 0 = t.merged := labelled_self _
  have hentry : (t.entry v).labelled [] [] 0 = t.entry v := labelled_self _
  rw [← hmerged, ← hentry]
  exact (congrArg (DevEnt.labelled · [] [] 0) h).symm

/-- **The exact condition**: an accepted text is the text of a configuration, and the tables are
right for it if and only if each of its types is in effect declared with one variant. -/
theorem config_right_iff (ts : List Token) (s : Tables) (h : yyparse ts = .ok s) :
    (∃ g : Configuration, g.tokens = ts) ∧ ∀ g : Configuration, g.tokens = ts →
      (ConfigRight g s ↔ ∀ t ∈ g.types, t.OneVariant) := by
  refine ⟨yyparse_tree h, ?_⟩
  rintro g rfl
  have hs := yyparse_entered h
  constructor
  · intro hright t ht v hv
    obtain ⟨s₁, hs₁, hnone, -⟩ := yyparse_types h
    -- a text with one device, which names the variant
    obtain ⟨s', hparse, hdevs⟩ :=
      hright.anyVariant t ht v hv [] s₁ hnone (by decide) ['X'] (by decide) nofun
    have hname : (DeviceDecl.mk ['X'] t.name v.on []).name.length < MAXNAME :=
      show 1 < 16 by decide
    obtain ⟨t', ht', htn, hon, rfl⟩ :=
      (yyparse_device_iff hnone (by decide) hname nofun rfl).mp hparse
    obtain rfl : t' = t := List.inj_on_of_nodup_map hs.nodup ht' ht htn
    have hentry : t'.merged.labelled ['X'] v.on (count [] t') =
        (t'.entry v).labelled ['X'] v.on (count [] t') :=
      List.singleton_inj.mp (List.append_cancel_left hdevs)
    exact ⟨hon.symm, TypeDecl.merged_of_labelled hentry⟩
  · intro hone
    refine ⟨hs.minors, typeCounts_eq hs, hs.devs.imp ?_, ?_⟩
    · rintro d e ⟨t, ht, htn, hon, he⟩
      obtain ⟨v, hv, hlast⟩ := t.lastOn_mem
      refine ⟨t, ht, v, hv, htn, hlast.trans hon, ?_⟩
      rw [d.entry_eq, (hone t ht v hv).2]
      exact he
    · intro t ht v hv devices s' hparse hroom name hname hfresh
      obtain ⟨hon, hentry⟩ := hone t ht v hv
      refine ⟨_, (yyparse_device_iff hparse hroom hname hfresh rfl).mpr
        ⟨t, ht, rfl, hon.symm, rfl⟩, ?_⟩
      rw [DeviceDecl.entry_eq, hentry]
      rfl

/-- A type `tty` on `uart`, and a device. -/
def consoleConfiguration : Configuration :=
  ⟨[⟨['t', 't', 'y'], ⟨['u', 'a', 'r', 't'], [⟨.INIT, ['t', 't', 'y', 'i', 'n', 'i', 't']⟩]⟩, []⟩],
    [⟨['C', 'O', 'N', 'S', 'O', 'L', 'E'], ['t', 't', 'y'], ['u', 'a', 'r', 't'], []⟩]⟩

theorem config_right_iff_console : ∃ s, yyparse consoleConfiguration.tokens = .ok s ∧
    ((∃ g : Configuration, g.tokens = consoleConfiguration.tokens) ∧
      ∀ g : Configuration, g.tokens = consoleConfiguration.tokens →
        (ConfigRight g s ↔ ∀ t ∈ g.types, t.OneVariant)) :=
  ⟨_, rfl, config_right_iff consoleConfiguration.tokens _ rfl⟩

/-- A type `tty` with two variants, and a device that names the second. -/
def usbConfiguration : Configuration :=
  ⟨[⟨['t', 't', 'y'], ⟨['u', 'a', 'r', 't'], [⟨.INIT, ['t', 't', 'y', 'i', 'n', 'i', 't']⟩]⟩,
      [⟨['u', 's', 'b'], []⟩]⟩],
    [⟨['C', 'O', 'N', 'S', 'O', 'L', 'E'], ['t', 't', 'y'], ['u', 's', 'b'], []⟩]⟩

/-- It is accepted, and the device has the `init` routine of the first.  A device that names the
first is not accepted. -/
theorem usb_has_uart_init :
    (∃ s, yyparse usbConfiguration.tokens = .ok s ∧
      s.devs.map DevEnt.init = [['t', 't', 'y', 'i', 'n', 'i', 't']] ∧
      ¬ ConfigRight usbConfiguration s) ∧
    yyparse (Configuration.tokens ⟨usbConfiguration.types,
      [⟨['C', 'O', 'N', 'S', 'O', 'L', 'E'], ['t', 't', 'y'], ['u', 'a', 'r', 't'], []⟩]⟩) =
        .error .illegalDevice := by
  refine ⟨⟨_, rfl, rfl, fun hright => ?_⟩, rfl⟩
  cases hright.devices with
  | cons h _ =>
    obtain ⟨t, ht, v, hv, -, hon, he⟩ := h
    obtain rfl := List.mem_singleton.mp ht
    rcases List.mem_pair.mp hv with rfl | rfl
    · exact absurd hon (by decide)
    · exact absurd (congrArg DevEnt.init he) (by decide)

end Xinu.Config
