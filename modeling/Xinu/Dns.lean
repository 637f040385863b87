/-
# The DNS response: `dns.c`

`dns_geta` walks over the questions and the answers of a response, and `dns_getrname` over the
labels and pointers of a name.  Counts, lengths and offsets are what the response says, and nothing
is checked against its size.

The response is the list of its bytes; an access to a byte that it does not have is `none`, and so
is a store outside `rname`.  A loop that has run out of fuel is `none` too, so a result says that
the code returns and has touched nothing else.

`dns_geta` has a result for the responses that are well formed (`WellFormed`), and for no other
(`parses_iff`).  A name may point to itself, or be the root.
-/
import Xinu.NetPacket
import Xinu.Doprnt

namespace Xinu.Dns

open Net

/-! ## 1. The code

The walk along labels and pointers may go round for ever, so it has a fuel, and the one over the
labels of a question has it too.  The other loops count down what the header says. -/

/-- `offsetof(struct dnspkt, qucount)`. -/
abbrev qucount : Nat := 4

/-- `offsetof(struct dnspkt, ancount)`. -/
abbrev ancount : Nat := 6

/-- `offsetof(struct dnspkt, data)`. -/
abbrev data : Nat := 12

/-- `sizeof(struct dnspkt)`. -/
abbrev dnspktsize : Nat := 512

/-- `sizeof(rname)`. -/
abbrev rnamesize : Nat := 1024

/-- `DNS_QT_A` of `dns.h`. -/
abbrev DNS_QT_A : Nat := 1

/-- The fields of `NetData` that are read here. -/
structure NetData where
  ipmask : Nat
  ipprefix : Nat
deriving DecidableEq, Repr

/-- `*dst++ = c`, where `rname` is what has been written up to `dst`. -/
def put (rname : List UInt8) (c : UInt8) : Option (List UInt8) :=
  if rname.length < rnamesize then some (rname ++ [c]) else none

/-- The `for` loop of `dns_getrname`. -/
def copyLabel (rpkt : Packet) : Nat → Nat → List UInt8 → Option (Nat × List UInt8)
  | 0, son, rname => some (son, rname)
  | llen + 1, son, rname => do
    let c ← rpkt[son]?
    let rname ← put rname c
    copyLabel rpkt llen (son + 1) rname

/-- The `while` loop of `dns_getrname`, from where it picks up a length: `son` and `rname` at the
end. -/
def getLabels (rpkt : Packet) : Nat → Nat → List UInt8 → Option (Nat × List UInt8)
  | 0, _, _ => none
  | fuel + 1, son, rname => do
    let llen ← load8 rpkt son
    if llen = 0 then
      -- `dst--` of an empty name leaves `rname`
      if rname = [] then none else some (son + 1, rname.dropLast ++ [0])
    else if llen ≤ 63 then do
      let (son, rname) ← copyLabel rpkt llen (son + 1) rname
      let rname ← put rname (ch '.')
      getLabels rpkt fuel son rname
    else do
      let tmpoff ← load16 rpkt son
      let offset := htons tmpoff % 0x4000
      -- the recursive call; its length is not used
      let (_, rname) ← getLabels rpkt fuel offset rname
      some (son + 2, rname)

/-- `dns_getrname`, with `rname` up to `dst`: the length in the packet, and `rname`. -/
def dns_getrname (fuel : Nat) (rpkt : Packet) (son : Nat) (dst : List UInt8) :
    Option (Nat × List UInt8) := do
  let sson := son
  let (son, rname) ← getLabels rpkt fuel son dst
  some (son - sson, rname)

/-- One question: the `while` loop, and what follows it. -/
def skipQuestion (rpkt : Packet) : Nat → Nat → Option Nat
  | 0, _ => none
  | fuel + 1, dptr => do
    let llen ← load8 rpkt dptr
    if llen = 0 then some (dptr + 1 + (2 + 2))
    else if llen > 63 then some (dptr + 2 + (2 + 2))
    else skipQuestion rpkt fuel (dptr + (llen + 1))

def skipQuestions (fuel : Nat) (rpkt : Packet) : Nat → Nat → Option Nat
  | 0, dptr => some dptr
  | n + 1, dptr => do
    let dptr ← skipQuestion rpkt fuel dptr
    skipQuestions fuel rpkt n dptr

/-- The IP address after an answer with the name `rname` and the type at `dptr`. -/
def pickAddress (net : NetData) (dname : CString) (rpkt : Packet) (rname : List UInt8)
    (dptr ipaddr : Nat) : Option Nat := do
  let tmptype ← load16 rpkt dptr
  -- `strncmp(dname, rname, strlen(dname)) == 0`
  if dname.chars <+: rname ∧ htons tmptype = DNS_QT_A then do
    let tmpip ← load32 rpkt (dptr + 10)
    some (if ipaddr = 0 ∨ net.ipmask &&& htonl tmpip = net.ipprefix then tmpip else ipaddr)
  else some ipaddr

/-- The loop over the answers. -/
def readAnswers (fuel : Nat) (net : NetData) (dname : CString) (rpkt : Packet) :
    Nat → Nat → Nat → Option Nat
  | 0, _, ipaddr => some ipaddr
  | n + 1, dptr, ipaddr => do
    let (namlen, rname) ← dns_getrname fuel rpkt dptr []
    let dptr := dptr + namlen
    let ipaddr ← pickAddress net dname rpkt rname dptr ipaddr
    let dptr := dptr + 8
    let tmplen ← load16 rpkt dptr
    readAnswers fuel net dname rpkt n (dptr + (htons tmplen + 2)) ipaddr

def dns_geta (fuel : Nat) (net : NetData) (dname : CString) (rpkt : Packet) : Option Nat := do
  let tmp16 ← load16 rpkt qucount
  let dptr ← skipQuestions fuel rpkt (htons tmp16) data
  let tmp16 ← load16 rpkt ancount
  let ipaddr ← readAnswers fuel net dname rpkt (htons tmp16) dptr 0
  some (if ipaddr ≠ 0 then ipaddr else sysErrPtr)

/-! ## 2. Well-formed responses

What the code reads, as relations between offsets: from where to where a name, a question or an
answer goes. -/

/-- A name that starts at an offset: labels, and then the root or a pointer to the rest.  Its text
has a dot after each label; `next` is where the bytes after it stand. -/
inductive NameAt (rpkt : Packet) : Nat → List UInt8 → Nat → Prop
  | root {off : Nat} (hlen : load8 rpkt off = some 0) : NameAt rpkt off [] (off + 1)
  | label {off llen next : Nat} {text : List UInt8} (hlen : load8 rpkt off = some llen)
      (pos : llen ≠ 0) (le : llen ≤ 63) (rest : NameAt rpkt (off + 1 + llen) text next) :
      NameAt rpkt off ((rpkt.drop (off + 1)).take llen ++ ch '.' :: text) next
  | pointer {off llen target next : Nat} {text : List UInt8} (hlen : load8 rpkt off = some llen)
      (gt : 63 < llen) (htarget : net16 rpkt off = some target)
      (rest : NameAt rpkt (target % 0x4000) text next) : NameAt rpkt off text (off + 2)

/-- A question, of which the code reads the lengths of the labels only. -/
inductive QuestionAt (rpkt : Packet) : Nat → Nat → Prop
  | root {off : Nat} (hlen : load8 rpkt off = some 0) : QuestionAt rpkt off (off + 5)
  | label {off llen next : Nat} (hlen : load8 rpkt off = some llen) (pos : llen ≠ 0)
      (le : llen ≤ 63) (rest : QuestionAt rpkt (off + 1 + llen) next) : QuestionAt rpkt off next
  | pointer {off llen : Nat} (hlen : load8 rpkt off = some llen) (gt : 63 < llen) :
      QuestionAt rpkt off (off + 6)

/-- So many questions, one after the other. -/
def QuestionsAt (rpkt : Packet) : Nat → Nat → Nat → Prop
  | 0, off, next => next = off
  | n + 1, off, next => ∃ mid, QuestionAt rpkt off mid ∧ QuestionsAt rpkt n mid next

/-- The text of a name that `rname` has room for, with a null character for the last dot. -/
def Fits (text : List UInt8) : Prop := text ≠ [] ∧ text.length ≤ rnamesize

/-- So many answers, one after the other: a name that fits, the type and the length of the data in
the response, and an address there where the code takes one. -/
def AnswersAt (dname : CString) (rpkt : Packet) : Nat → Nat → Prop
  | 0, _ => True
  | n + 1, off => ∃ text next type rdlen, NameAt rpkt off text next ∧ Fits text ∧
      net16 rpkt next = some type ∧ net16 rpkt (next + 8) = some rdlen ∧
      (dname.chars <+: text.dropLast ++ [0] ∧ type = DNS_QT_A → next + 14 ≤ rpkt.length) ∧
      AnswersAt dname rpkt n (next + 10 + rdlen)

/-- The header with the two counts, and as many questions and answers. -/
def WellFormed (dname : CString) (rpkt : Packet) : Prop :=
  ∃ qcount acount dptr, net16 rpkt qucount = some qcount ∧ net16 rpkt ancount = some acount ∧
    QuestionsAt rpkt qcount data dptr ∧ AnswersAt dname rpkt acount dptr

/-! ## 3. Loads

Loads of one, two and four bytes, which succeed inside of the response. -/

section Loads

variable {p : Packet} {i n : Nat}

theorem load16_net16 (p : Packet) (i : Nat) : (load16 p i).map htons = net16 p i := by
  cases hb : p[i]? with
  | none => simp [load16, net16, hb]
  | some b =>
    cases hc : p[i + 1]? with
    | none => simp [load16, net16, hb, hc]
    | some c =>
      have := b.toNat_lt
      have := c.toNat_lt
      simp only [load16, net16, htons, hb, hc, Option.bind_eq_bind, Option.bind_some,
        Option.map_some, Option.some.injEq]
      omega

/-- A `uint16` of the packet, after `ntohs`. -/
theorem load16_eq_some : (∃ x, load16 p i = some x ∧ htons x = n) ↔ net16 p i = some n := by
  rw [← load16_net16, Option.map_eq_some_iff]

theorem load8_lt (h : load8 p i = some n) : i < p.length := by
  simp only [load8, Option.bind_eq_bind, Option.bind_eq_some_iff] at h
  obtain ⟨b, hb, -⟩ := h
  exact (List.getElem?_eq_some_iff.mp hb).1

theorem load32_isSome : (load32 p i).isSome ↔ i + 4 ≤ p.length := by
  constructor
  · intro h
    obtain ⟨x, hx⟩ := Option.isSome_iff_exists.mp h
    simp only [load32, load16, Option.bind_eq_bind, Option.bind_eq_some_iff] at hx
    obtain ⟨_, -, _, ⟨_, -, _, hc, -⟩, -⟩ := hx
    exact (List.getElem?_eq_some_iff.mp hc).1
  · intro h
    rw [load32, load16_eq (by omega : i + 1 < p.length),
      load16_eq (by omega : i + 2 + 1 < p.length)]
    rfl

end Loads

/-! ## 4. Names

In both directions: what is returned was read from a name, and a name that is there is read. -/

section Names

variable {rpkt : Packet} {son llen off next : Nat} {rname text : List UInt8}

/-- Copying a label stays in the response and in `rname` exactly if the label does. -/
theorem copyLabel_eq_some {r : Nat × List UInt8} (hs : son ≤ rpkt.length)
    (hr : rname.length ≤ rnamesize) :
    copyLabel rpkt llen son rname = some r ↔ son + llen ≤ rpkt.length ∧
      rname.length + llen ≤ rnamesize ∧ r = (son + llen, rname ++ (rpkt.drop son).take llen) := by
  induction llen generalizing son rname with
  | zero => simp [copyLabel, hs, hr, eq_comm]
  | succ llen ih =>
    rw [copyLabel]
    by_cases hin : son < rpkt.length
    · by_cases hroom : rname.length < rnamesize
      · have hlen : (rname ++ [rpkt[son]]).length = rname.length + 1 := by simp
        have htake : (rpkt.drop son).take (llen + 1) =
            rpkt[son] :: (rpkt.drop (son + 1)).take llen := by
          rw [List.drop_eq_getElem_cons hin, List.take_succ_cons]
        have hput : put rname rpkt[son] = some (rname ++ [rpkt[son]]) := if_pos hroom
        simp only [List.getElem?_eq_getElem hin, hput, Option.bind_eq_bind, Option.bind_some]
        rw [ih hin (hlen ▸ hroom), hlen, htake, List.append_assoc, List.singleton_append,
          Nat.add_right_comm son 1 llen, Nat.add_right_comm rname.length 1 llen]
        rfl
      · simp only [List.getElem?_eq_getElem hin, put, if_neg hroom, Option.bind_eq_bind,
          Option.bind_some, Option.bind_none, reduceCtorEq, false_iff]
        omega
    · simp only [List.getElem?_eq_none (Nat.le_of_not_lt hin), Option.bind_eq_bind,
        Option.bind_none, reduceCtorEq, false_iff]
      omega

theorem put_eq_some {c : UInt8} {r : List UInt8} :
    put rname c = some r ↔ rname.length < rnamesize ∧ r = rname ++ [c] := by
  rw [put, Option.ite_none_right_eq_some, Option.some.injEq, eq_comm (a := r)]

/-- The loop at a length octet. -/
theorem getLabels_succ (fuel : Nat) (rname : List UInt8) (hlen : load8 rpkt son = some llen) :
    getLabels rpkt (fuel + 1) son rname =
      if llen = 0 then if rname = [] then none else some (son + 1, rname.dropLast ++ [0])
      else if llen ≤ 63 then
        (copyLabel rpkt llen (son + 1) rname).bind fun r =>
          (put r.2 (ch '.')).bind (getLabels rpkt fuel r.1)
      else ((load16 rpkt son).bind fun tmpoff =>
        getLabels rpkt fuel (htons tmpoff % 0x4000) rname).map fun r => (son + 2, r.2) := by
  rw [getLabels, hlen]
  simp only [Option.bind_eq_bind, Option.bind_some]
  split_ifs
  · rfl
  · rfl
  · rfl
  · rw [Option.map_eq_bind, Option.bind_assoc]
    rfl

/-- What `dns_getrname` returns it has read from a name, with room for its text. -/
theorem getLabels_sound {fuel : Nat} {r : Nat × List UInt8} (hr : rname.length ≤ rnamesize)
    (h : getLabels rpkt fuel son rname = some r) :
    ∃ text, NameAt rpkt son text r.1 ∧ Fits (rname ++ text) ∧
      r.2 = (rname ++ text).dropLast ++ [0] := by
  induction fuel generalizing son rname r with
  | zero => exact absurd h (by simp [getLabels])
  | succ fuel ih =>
    obtain ⟨llen, hlen⟩ : ∃ llen, load8 rpkt son = some llen := by
      rw [getLabels, Option.bind_eq_bind, Option.bind_eq_some_iff] at h
      exact h.imp fun _ h => h.1
    rw [getLabels_succ fuel rname hlen] at h
    split_ifs at h with h0 hne h63
    · obtain rfl := Option.some.inj h
      refine ⟨[], NameAt.root (h0 ▸ hlen), ?_, ?_⟩
      · rw [List.append_nil]
        exact ⟨hne, hr⟩
      · rw [List.append_nil]
    · obtain ⟨⟨son', rname'⟩, hcopy, hput⟩ := Option.bind_eq_some_iff.mp h
      obtain ⟨rname'', hdot, hrest⟩ := Option.bind_eq_some_iff.mp hput
      obtain ⟨hin, hroom, hpair⟩ := (copyLabel_eq_some (load8_lt hlen) hr).mp hcopy
      obtain ⟨rfl, rfl⟩ := Prod.mk.inj hpair
      obtain ⟨hlt, rfl⟩ := put_eq_some.mp hdot
      have hroom' : (rname ++ (rpkt.drop (son + 1)).take llen ++ [ch '.']).length ≤ rnamesize := by
        rw [List.length_append]
        exact hlt
      obtain ⟨text, hname, hfits, htext⟩ := ih hroom' hrest
      refine ⟨_, NameAt.label hlen h0 h63 hname, ?_, ?_⟩
      · simpa using hfits
      · simpa using htext
    · obtain ⟨r', hrec, rfl⟩ := Option.map_eq_some_iff.mp h
      obtain ⟨tmpoff, hoff, hrec⟩ := Option.bind_eq_some_iff.mp hrec
      obtain ⟨text, hname, hfits, htext⟩ := ih hr hrec
      exact ⟨text, NameAt.pointer hlen (by omega) (load16_eq_some.mp ⟨tmpoff, hoff, rfl⟩) hname,
        hfits, htext⟩

/-- A name whose text fits is read, with enough fuel. -/
theorem getLabels_complete (rname : List UInt8) (h : NameAt rpkt off text next)
    (hfits : Fits (rname ++ text)) :
    ∃ n, ∀ fuel, n ≤ fuel →
      getLabels rpkt fuel off rname = some (next, (rname ++ text).dropLast ++ [0]) := by
  induction h generalizing rname with
  | @root off hlen =>
    refine ⟨1, fun fuel hfuel => ?_⟩
    obtain ⟨fuel, rfl⟩ := Nat.exists_eq_add_of_le' hfuel
    rw [List.append_nil] at hfits ⊢
    rw [getLabels_succ fuel rname hlen, if_pos rfl, if_neg hfits.1]
  | @label off llen next text hlen pos le rest ih =>
    have hassoc : rname ++ ((rpkt.drop (off + 1)).take llen ++ ch '.' :: text) =
        rname ++ (rpkt.drop (off + 1)).take llen ++ [ch '.'] ++ text := by simp
    rw [hassoc] at hfits ⊢
    obtain ⟨n, hn⟩ := ih _ hfits
    refine ⟨n + 1, fun fuel hfuel => ?_⟩
    obtain ⟨fuel, rfl⟩ : ∃ k, fuel = k + 1 := ⟨fuel - 1, by omega⟩
    -- the length octet behind the label is in the response, so the label is
    have hin : off + 1 + llen < rpkt.length := by
      cases rest <;> exact load8_lt ‹_›
    have hlabel : ((rpkt.drop (off + 1)).take llen).length = llen := by
      rw [List.length_take, List.length_drop]
      omega
    have hsize := hfits.2
    simp only [List.length_append, List.length_singleton, hlabel] at hsize
    have hcopy : copyLabel rpkt llen (off + 1) rname = some _ :=
      (copyLabel_eq_some (load8_lt hlen) (by omega)).mpr ⟨hin.le, by omega, rfl⟩
    rw [getLabels_succ fuel rname hlen, if_neg pos, if_pos le, hcopy, Option.bind_some,
      put_eq_some.mpr ⟨by simp only [List.length_append, hlabel]; omega, rfl⟩, Option.bind_some]
    exact hn fuel (by omega)
  | @pointer off llen target next text hlen gt htarget rest ih =>
    obtain ⟨n, hn⟩ := ih _ hfits
    obtain ⟨tmpoff, hoff, rfl⟩ := load16_eq_some.mpr htarget
    refine ⟨n + 1, fun fuel hfuel => ?_⟩
    obtain ⟨fuel, rfl⟩ : ∃ k, fuel = k + 1 := ⟨fuel - 1, by omega⟩
    rw [getLabels_succ fuel rname hlen, if_neg (by omega), if_neg (by omega), hoff,
      Option.bind_some, hn fuel (by omega)]
    rfl

end Names

/-! ## 5. Questions and answers

The same for the two outer loops, by induction on the counts. -/

section Sections

variable {rpkt : Packet} {off next n : Nat} {net : NetData} {dname : CString}

theorem skipQuestion_sound {fuel : Nat} (h : skipQuestion rpkt fuel off = some next) :
    QuestionAt rpkt off next := by
  induction fuel generalizing off with
  | zero => exact absurd h (by simp [skipQuestion])
  | succ fuel ih =>
    rw [skipQuestion, Option.bind_eq_bind] at h
    obtain ⟨llen, hlen, h⟩ := Option.bind_eq_some_iff.mp h
    split_ifs at h with h0 h63
    · obtain rfl := Option.some.inj h
      exact .root (h0 ▸ hlen)
    · obtain rfl := Option.some.inj h
      exact .pointer hlen h63
    · refine .label hlen h0 (by omega) ?_
      rw [Nat.add_assoc, Nat.add_comm 1 llen]
      exact ih h

theorem skipQuestion_complete (h : QuestionAt rpkt off next) :
    ∃ n, ∀ fuel, n ≤ fuel → skipQuestion rpkt fuel off = some next := by
  induction h with
  | @root off hlen =>
    refine ⟨1, fun fuel hfuel => ?_⟩
    obtain ⟨fuel, rfl⟩ := Nat.exists_eq_add_of_le' hfuel
    rw [skipQuestion, hlen]
    rfl
  | @label off llen next hlen pos le rest ih =>
    obtain ⟨n, hn⟩ := ih
    refine ⟨n + 1, fun fuel hfuel => ?_⟩
    obtain ⟨fuel, rfl⟩ : ∃ k, fuel = k + 1 := ⟨fuel - 1, by omega⟩
    rw [skipQuestion, hlen, Option.bind_eq_bind, Option.bind_some, if_neg pos, if_neg (by omega),
      Nat.add_comm llen 1, ← Nat.add_assoc]
    exact hn fuel (by omega)
  | @pointer off llen hlen gt =>
    refine ⟨1, fun fuel hfuel => ?_⟩
    obtain ⟨fuel, rfl⟩ := Nat.exists_eq_add_of_le' hfuel
    rw [skipQuestion, hlen, Option.bind_eq_bind, Option.bind_some, if_neg (by omega), if_pos gt]

theorem skipQuestions_sound {fuel : Nat} (h : skipQuestions fuel rpkt n off = some next) :
    QuestionsAt rpkt n off next := by
  induction n generalizing off with
  | zero => exact (Option.some.inj h).symm
  | succ n ih =>
    obtain ⟨mid, hmid, h⟩ := Option.bind_eq_some_iff.mp h
    exact ⟨mid, skipQuestion_sound hmid, ih h⟩

theorem skipQuestions_complete (h : QuestionsAt rpkt n off next) :
    ∃ m, ∀ fuel, m ≤ fuel → skipQuestions fuel rpkt n off = some next := by
  induction n generalizing off with
  | zero => exact ⟨0, fun _ _ => congrArg some (Eq.symm h)⟩
  | succ n ih =>
    obtain ⟨mid, hmid, hrest⟩ := h
    obtain ⟨k, hk⟩ := skipQuestion_complete hmid
    obtain ⟨m, hm⟩ := ih hrest
    refine ⟨max k m, fun fuel hfuel => ?_⟩
    rw [skipQuestions, hk fuel (by omega), Option.bind_eq_bind, Option.bind_some]
    exact hm fuel (by omega)

/-- The type is read, and the four bytes of an address if the code takes one. -/
theorem pickAddress_isSome {rname : List UInt8} {dptr ipaddr : Nat} :
    (pickAddress net dname rpkt rname dptr ipaddr).isSome ↔ ∃ type, net16 rpkt dptr = some type ∧
      (dname.chars <+: rname ∧ type = DNS_QT_A → dptr + 14 ≤ rpkt.length) := by
  simp only [pickAddress, ← load16_net16]
  cases load16 rpkt dptr with
  | none => simp
  | some tmptype =>
    simp only [Option.bind_eq_bind, Option.bind_some, Option.map_some, Option.some.injEq,
      exists_eq_left']
    split_ifs with hmatch
    · rw [← load32_isSome (i := dptr + 10), imp_iff_right hmatch]
      cases load32 rpkt (dptr + 10) <;> simp
    · simp [hmatch]

/-- `dns_getrname` at the start of an answer. -/
theorem getrname_eq (fuel : Nat) (rname : List UInt8) :
    dns_getrname fuel rpkt off rname =
      (getLabels rpkt fuel off rname).map fun r => (r.1 - off, r.2) := by
  rw [dns_getrname, Option.map_eq_bind]
  rfl

theorem NameAt.lt_next {text : List UInt8} (h : NameAt rpkt off text next) : off < next := by
  induction h with
  | root => omega
  | label _ _ _ _ ih => omega
  | pointer => omega

theorem readAnswers_sound {fuel ipaddr r : Nat}
    (h : readAnswers fuel net dname rpkt n off ipaddr = some r) : AnswersAt dname rpkt n off := by
  induction n generalizing off ipaddr with
  | zero => trivial
  | succ n ih =>
    rw [readAnswers, getrname_eq] at h
    obtain ⟨⟨namlen, rname⟩, hname, h⟩ := Option.bind_eq_some_iff.mp h
    obtain ⟨⟨next, rname⟩, hlabels, hpair⟩ := Option.map_eq_some_iff.mp hname
    obtain ⟨rfl, rfl⟩ := Prod.mk.inj hpair
    obtain ⟨text, hat, hfits, htext⟩ := getLabels_sound (by simp) hlabels
    rw [List.nil_append] at hfits htext
    have hnext : off + (next - off) = next := by
      have := hat.lt_next
      omega
    simp only [hnext] at h
    obtain ⟨ipaddr', hpick, h⟩ := Option.bind_eq_some_iff.mp h
    obtain ⟨tmplen, hload, h⟩ := Option.bind_eq_some_iff.mp h
    obtain ⟨type, htype, haddr⟩ :=
      pickAddress_isSome.mp (Option.isSome_iff_exists.mpr ⟨_, hpick⟩)
    refine ⟨text, next, type, htons tmplen, hat, hfits, htype,
      load16_eq_some.mp ⟨tmplen, hload, rfl⟩, ?_, ?_⟩
    · rw [← htext]
      exact haddr
    · have hoff : next + 8 + (htons tmplen + 2) = next + 10 + htons tmplen := by omega
      exact hoff ▸ ih h

theorem readAnswers_complete (net : NetData) (h : AnswersAt dname rpkt n off) :
    ∃ m, ∀ fuel, m ≤ fuel → ∀ ipaddr,
      (readAnswers fuel net dname rpkt n off ipaddr).isSome := by
  induction n generalizing off with
  | zero => exact ⟨0, fun _ _ _ => rfl⟩
  | succ n ih =>
    obtain ⟨text, next, type, rdlen, hat, hfits, htype, hrdlen, haddr, hrest⟩ := h
    obtain ⟨k, hk⟩ := getLabels_complete [] hat hfits
    obtain ⟨m, hm⟩ := ih hrest
    obtain ⟨tmplen, hload, rfl⟩ := load16_eq_some.mpr hrdlen
    refine ⟨max k m, fun fuel hfuel ipaddr => ?_⟩
    have hsome : (pickAddress net dname rpkt (text.dropLast ++ [0]) next ipaddr).isSome :=
      pickAddress_isSome.mpr ⟨type, htype, haddr⟩
    obtain ⟨ipaddr', hpick⟩ := Option.isSome_iff_exists.mp hsome
    have hnext : off + (next - off) = next := by
      have := hat.lt_next
      omega
    have hoff : next + 8 + (htons tmplen + 2) = next + 10 + htons tmplen := by omega
    rw [readAnswers, getrname_eq, hk fuel (by omega)]
    simp only [Option.map_some, Option.bind_eq_bind, Option.bind_some, List.nil_append, hnext,
      hpick, hload, hoff]
    exact hm fuel (by omega) ipaddr'

end Sections

/-! ## 6. Which responses are parsed

Soundness and completeness, put together. -/

/-- With enough fuel, the code returns, has read bytes of the response only, and has written to
bytes of `rname` only. -/
def Parses (net : NetData) (dname : CString) (rpkt : Packet) : Prop :=
  ∃ fuel, (dns_geta fuel net dname rpkt).isSome

/-- **A response is parsed in its bounds exactly if it is well formed.** -/
theorem parses_iff (net : NetData) (dname : CString) (rpkt : Packet) :
    Parses net dname rpkt ↔ WellFormed dname rpkt := by
  constructor
  · rintro ⟨fuel, h⟩
    obtain ⟨ip, h⟩ := Option.isSome_iff_exists.mp h
    obtain ⟨q, hq, h⟩ := Option.bind_eq_some_iff.mp h
    obtain ⟨dptr, hskip, h⟩ := Option.bind_eq_some_iff.mp h
    obtain ⟨a, ha, h⟩ := Option.bind_eq_some_iff.mp h
    obtain ⟨ipaddr, hread, -⟩ := Option.bind_eq_some_iff.mp h
    exact ⟨htons q, htons a, dptr, load16_eq_some.mp ⟨q, hq, rfl⟩, load16_eq_some.mp ⟨a, ha, rfl⟩,
      skipQuestions_sound hskip, readAnswers_sound hread⟩
  · rintro ⟨qcount, acount, dptr, hq, ha, hskip, hread⟩
    obtain ⟨q, hloadq, rfl⟩ := load16_eq_some.mpr hq
    obtain ⟨a, hloada, rfl⟩ := load16_eq_some.mpr ha
    obtain ⟨k, hk⟩ := skipQuestions_complete hskip
    obtain ⟨m, hm⟩ := readAnswers_complete net hread
    refine ⟨max k m, ?_⟩
    obtain ⟨ipaddr, hip⟩ := Option.isSome_iff_exists.mp (hm (max k m) (le_max_right _ _) 0)
    rw [dns_geta, hloadq, Option.bind_eq_bind, Option.bind_some, hk _ (le_max_left _ _),
      Option.bind_some, hloada, Option.bind_some, hip]
    rfl

/-- One question for `a`, and an answer whose name points to it. -/
example : dns_geta 5 ⟨0, 0⟩ ⟨[ch 'a'], by decide⟩
    [0, 1, 0x81, 0x80, 0, 1, 0, 1, 0, 0, 0, 0, 1, 97, 0, 0, 1, 0, 1,
      0xc0, 0x0c, 0, 1, 0, 1, 0, 0, 0, 0, 0, 4, 10, 0, 0, 7] = some 0x0700000a := by decide

/-! ## 7. A name that points to itself

No fuel is enough for it, and nothing in the code excludes it. -/

/-- `dns_getrname` does not return from a pointer to the pointer itself. -/
theorem getLabels_cycle {rpkt : Packet} {off llen target : Nat} (fuel : Nat) (rname : List UInt8)
    (hlen : load8 rpkt off = some llen) (gt : 63 < llen) (htarget : net16 rpkt off = some target)
    (hoff : target % 0x4000 = off) : getLabels rpkt fuel off rname = none := by
  obtain ⟨tmpoff, hload, rfl⟩ := load16_eq_some.mpr htarget
  induction fuel with
  | zero => rfl
  | succ fuel ih =>
    rw [getLabels_succ fuel rname hlen, if_neg (by omega), if_neg (by omega), hload,
      Option.bind_some, hoff, ih]
    rfl

/-- One answer, with a pointer to offset 12 at offset 12 for a name. -/
def selfPointer : Packet := [0, 1, 0x81, 0x80, 0, 0, 0, 1, 0, 0, 0, 0, 0xc0, 0x0c]

/-- Not every response that fits in a `struct dnspkt` is parsed. -/
theorem self_pointer_not_parsed : ¬ ∀ (net : NetData) (dname : CString) (rpkt : Packet),
    rpkt.length ≤ dnspktsize → Parses net dname rpkt := by
  intro h
  obtain ⟨fuel, hsome⟩ := h ⟨0, 0⟩ ⟨[ch 'a'], by decide⟩ selfPointer (by decide)
  have hname : dns_getrname fuel selfPointer 12 [] = none := by
    have hlen : load8 selfPointer 12 = some 0xc0 := rfl
    have htarget : net16 selfPointer 12 = some 0xc00c := rfl
    rw [getrname_eq, getLabels_cycle fuel [] hlen (by decide) htarget (by decide)]
    rfl
  have hq : load16 selfPointer qucount = some 0 := rfl
  have ha : load16 selfPointer ancount = some 0x100 := rfl
  rw [dns_geta, hq, ha, Option.bind_eq_bind, Option.bind_some] at hsome
  simp [skipQuestions, readAnswers, htons, hname] at hsome

end Xinu.Dns
