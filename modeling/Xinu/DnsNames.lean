/-
# Names in DNS messages: `dns_bldq`

`dns_bldq` writes a name as its labels, each behind its length.  It keeps the place of the length of
the current label and counts it up with every character, and a dot starts the next label.
`dns_getrname` copies the labels with a dot behind each, and makes a null character of the last dot;
at a pointer it calls itself for the rest.

`dns_roundtrip`: what `dns_bldq` writes for a name is read as that name, wherever it stands in a
message, and so is a front part of it with a pointer to the rest.
-/
import Xinu.Dns

namespace Xinu.Dns

open Net

/-! ## 1. The code

Two pointers go through the buffer, one for the next character and one for the length that is
being counted. -/

/-- `DNSDATASIZ` of `dns.h`. -/
abbrev DNSDATASIZ : Nat := 500

/-- `DNS_QC_IN` of `dns.h`. -/
abbrev DNS_QC_IN : Nat := 1

/-- The loop of `dns_bldq` over the characters of `dname` that are left.  The pointers `data` and
`llptr` are offsets in the buffer; an error is the return of `SYSERR`. -/
def addChars : List UInt8 → Packet → Nat → Nat → Nat → Option (Except Packet (Packet × Nat × Nat))
  | [], buf, data, _, qlen => some (.ok (buf, data, qlen))
  | c :: dname, buf, data, llptr, qlen =>
    if qlen ≥ DNSDATASIZ then some (.error buf)
    else if c ≠ ch '.' then do
      let buf ← store8 buf data c.toNat
      let llen ← load8 buf llptr
      let buf ← store8 buf llptr (llen + 1)
      addChars dname buf (data + 1) llptr (qlen + 1)
    else do
      let buf ← store8 buf data 0
      addChars dname buf (data + 1) data (qlen + 1)

/-- `dns_bldq(dname, data)`: the buffer, and the length of the query.  The buffer is the memory from
`data` on. -/
def dns_bldq (dname : CString) (buf : Packet) : Option (Packet × Nat) := do
  let buf ← store8 buf 0 0
  match ← addChars dname.chars buf 1 0 1 with
  | .error buf => some (buf, sysErrPtr)
  | .ok (buf, data, qlen) =>
    let buf ← store8 buf data 0
    let buf ← store16 buf (data + 1) (htons DNS_QT_A)
    let buf ← store16 buf (data + 3) (htons DNS_QC_IN)
    some (buf, dnspktsize - DNSDATASIZ + (qlen + 5))

/-! ## 2. Labels

A name as a list of labels, its text, and the octets that stand for it in a message. -/

/-- A label of a name. -/
structure IsLabel (l : List UInt8) : Prop where
  ne : l ≠ []
  le : l.length ≤ 63
  dotless : ch '.' ∉ l
  nonnull : 0 ∉ l

/-- The text of a name: its labels, separated by dots. -/
def nameText (ls : List (List UInt8)) : List UInt8 := [ch '.'].intercalate ls

/-- The labels with a dot behind each. -/
def dotted (ls : List (List UInt8)) : List UInt8 := ls.flatMap fun l => l ++ [ch '.']

/-- The labels as they stand in a message. -/
def wire (ls : List (List UInt8)) : List UInt8 := ls.flatMap fun l => UInt8.ofNat l.length :: l

/-- A pointer to an offset. -/
def pointerTo (target : Nat) : List UInt8 :=
  [UInt8.ofNat (0xc0 + target / 256), UInt8.ofNat (target % 256)]

variable {ls : List (List UInt8)} {l : List UInt8}

theorem nameText_cons_cons (l l' : List UInt8) (ls : List (List UInt8)) :
    nameText (l :: l' :: ls) = l ++ ch '.' :: nameText (l' :: ls) := by
  simp [nameText, List.intercalate]

theorem nameText_singleton (l : List UInt8) : nameText [l] = l := by
  simp [nameText, List.intercalate]

theorem nameText_dot (h : ls ≠ []) : nameText ls ++ [ch '.'] = dotted ls := by
  induction ls with
  | nil => exact absurd rfl h
  | cons l ls ih =>
    cases ls with
    | nil => rw [nameText_singleton, dotted, List.flatMap_singleton]
    | cons l' ls =>
      rw [nameText_cons_cons, List.append_assoc, List.cons_append, ih (List.cons_ne_nil _ _)]
      simp [dotted]

theorem wire_length (ls : List (List UInt8)) : (wire ls).length = (dotted ls).length := by
  induction ls with
  | nil => rfl
  | cons l ls ih =>
    simp only [wire, dotted, List.flatMap_cons, List.length_append, List.length_cons,
      List.length_nil] at ih ⊢
    omega

theorem nameText_length (h : ls ≠ []) : (wire ls).length = (nameText ls).length + 1 := by
  rw [wire_length, ← nameText_dot h, List.length_append, List.length_singleton]

/-- Only the labels and the dots are in the text. -/
theorem zero_not_mem_nameText (h : ∀ l ∈ ls, IsLabel l) : (0 : UInt8) ∉ nameText ls := by
  cases ls with
  | nil => exact List.not_mem_nil
  | cons l ls =>
    intro hm
    have hd : (0 : UInt8) ∈ dotted (l :: ls) := by
      rw [← nameText_dot (List.cons_ne_nil _ _)]
      exact List.mem_append_left _ hm
    obtain ⟨l', hl', hm'⟩ := List.mem_flatMap.mp hd
    rcases List.mem_append.mp hm' with h0 | h0
    · exact (h l' hl').nonnull h0
    · exact absurd (List.mem_singleton.mp h0) (by decide)

/-- A name as `dns_bldq` gets it. -/
def nameString (ls : List (List UInt8)) (h : ∀ l ∈ ls, IsLabel l) : CString :=
  ⟨nameText ls, zero_not_mem_nameText h⟩

/-! ## 3. What is written

By induction on the characters of a label, and then on the labels. -/

theorem store8_append (A : Packet) (b : UInt8) (B : Packet) (x : Nat) :
    store8 (A ++ b :: B) A.length x = some (A ++ UInt8.ofNat x :: B) := by
  rw [store8, if_pos (by simp), List.set_append_right _ _ le_rfl, Nat.sub_self, List.set_cons_zero]

theorem load8_append (A : Packet) (b : UInt8) (B : Packet) :
    load8 (A ++ b :: B) A.length = some b.toNat := by
  rw [load8, List.getElem?_append_right le_rfl, Nat.sub_self]
  rfl

/-- **The characters of a label** go behind its length, which counts them. -/
theorem addChars_label (rest A : List UInt8) {l cur B : List UInt8} {qlen : Nat}
    (hdot : ch '.' ∉ l) (hB : l.length ≤ B.length) (hq : qlen + l.length ≤ DNSDATASIZ) :
    addChars (l ++ rest) (A ++ UInt8.ofNat cur.length :: (cur ++ B)) (A.length + 1 + cur.length)
        A.length qlen =
      addChars rest (A ++ UInt8.ofNat (cur ++ l).length :: ((cur ++ l) ++ B.drop l.length))
        (A.length + 1 + (cur ++ l).length) A.length (qlen + l.length) := by
  induction l generalizing cur B qlen with
  | nil => simp
  | cons c l ih =>
    rw [List.mem_cons, not_or] at hdot
    rw [List.length_cons] at hB hq
    obtain ⟨b, B, rfl⟩ := List.exists_cons_of_length_pos (show 0 < B.length by omega)
    rw [List.length_cons] at hB
    have hstore : store8 (A ++ UInt8.ofNat cur.length :: (cur ++ b :: B))
        (A.length + 1 + cur.length) c.toNat =
        some (A ++ UInt8.ofNat cur.length :: ((cur ++ [c]) ++ B)) := by
      have h := store8_append (A ++ UInt8.ofNat cur.length :: cur) b B c.toNat
      simp only [List.length_append, List.length_cons, List.append_assoc, List.cons_append,
        UInt8.ofNat_toNat] at h
      rw [Nat.add_right_comm, Nat.add_assoc, h]
      simp
    have hlen : UInt8.ofNat ((UInt8.ofNat cur.length).toNat + 1) =
        UInt8.ofNat (cur ++ [c]).length := by
      rw [List.length_append, List.length_singleton]
      apply UInt8.toNat_inj.mp
      simp [UInt8.toNat_ofNat']
    rw [List.cons_append, addChars, if_neg (by omega), if_pos (Ne.symm hdot.1), hstore]
    simp only [Option.bind_eq_bind, Option.bind_some, load8_append, store8_append]
    have hpos : A.length + 1 + cur.length + 1 = A.length + 1 + (cur ++ [c]).length := by
      rw [List.length_append, List.length_singleton, Nat.add_assoc]
    rw [hlen, hpos, ih hdot.2 (by omega) (by omega)]
    congr 1
    · simp
    · simp
    · rw [List.length_cons]
      omega

/-- **The loop writes the labels.** -/
theorem addChars_name {B : List UInt8} (A : List UInt8) {qlen : Nat} (hne : ls ≠ [])
    (hl : ∀ l ∈ ls, IsLabel l) (hB : (nameText ls).length ≤ B.length)
    (hq : qlen + (nameText ls).length ≤ DNSDATASIZ) :
    addChars (nameText ls) (A ++ 0 :: B) (A.length + 1) A.length qlen =
      some (.ok (A ++ (wire ls ++ B.drop (nameText ls).length), A.length + (wire ls).length,
        qlen + (nameText ls).length)) := by
  induction ls generalizing A B qlen with
  | nil => exact absurd rfl hne
  | cons l ls ih =>
    have hlabel := hl l (List.mem_cons_self ..)
    cases ls with
    | nil =>
      rw [nameText_singleton] at hB hq ⊢
      have h := @addChars_label [] A l [] B qlen hlabel.dotless hB hq
      simp only [List.append_nil, List.length_nil, List.nil_append, Nat.add_zero] at h
      change addChars l (A ++ UInt8.ofNat 0 :: B) _ _ _ = _
      rw [h, addChars]
      simp [wire]
      omega
    | cons l' ls =>
      rw [nameText_cons_cons, List.length_append, List.length_cons] at hB hq
      have h := @addChars_label (ch '.' :: nameText (l' :: ls)) A l [] B qlen hlabel.dotless
        (by omega) (by omega)
      simp only [List.length_nil, List.nil_append, Nat.add_zero] at h
      rw [nameText_cons_cons]
      change addChars _ (A ++ UInt8.ofNat 0 :: B) _ _ _ = _
      rw [h, addChars, if_neg (by omega), if_neg (not_not.mpr rfl)]
      obtain ⟨b, B', hB'⟩ := List.exists_cons_of_length_pos
        (show 0 < (B.drop l.length).length by rw [List.length_drop]; omega)
      have hlenB : B'.length + 1 = B.length - l.length := by
        rw [← List.length_drop, hB', List.length_cons]
      have hstore : store8 (A ++ UInt8.ofNat l.length :: (l ++ b :: B'))
          (A.length + 1 + l.length) 0 =
          some ((A ++ UInt8.ofNat l.length :: l) ++ 0 :: B') := by
        have hs := store8_append (A ++ UInt8.ofNat l.length :: l) b B' 0
        simp only [List.length_append, List.length_cons, List.append_assoc,
          List.cons_append] at hs ⊢
        rw [Nat.add_right_comm, Nat.add_assoc, hs]
        rfl
      have hA : A.length + 1 + l.length = (A ++ UInt8.ofNat l.length :: l).length := by
        rw [List.length_append, List.length_cons]
        omega
      rw [hB', hstore, Option.bind_eq_bind, Option.bind_some, hA,
        ih _ (List.cons_ne_nil _ _) (fun x hx => hl x (List.mem_cons_of_mem _ hx)) (by omega)
          (by omega)]
      have hdrop : B.drop (l ++ ch '.' :: nameText (l' :: ls)).length =
          B'.drop (nameText (l' :: ls)).length := by
        rw [List.length_append, ← List.drop_drop, hB', List.length_cons, List.drop_succ_cons]
      rw [hdrop]
      simp [wire]
      omega

/-- **The name field of a query**: the labels and a length of zero. -/
theorem dns_bldq_field (buf : Packet) (hne : ls ≠ []) (hl : ∀ l ∈ ls, IsLabel l)
    (hfit : (nameText ls).length < DNSDATASIZ) (hbuf : (nameText ls).length + 6 ≤ buf.length) :
    ∃ q, dns_bldq (nameString ls hl) buf =
        some (q, dnspktsize - DNSDATASIZ + ((nameText ls).length + 6)) ∧
      q.take ((wire ls).length + 1) = wire ls ++ [0] := by
  have hwire := nameText_length hne
  obtain ⟨b, B, rfl⟩ := List.exists_cons_of_length_pos (show 0 < buf.length by omega)
  rw [List.length_cons] at hbuf
  have hloop := @addChars_name ls B [] 1 hne hl (by omega) (by omega)
  simp only [List.nil_append, List.length_nil, Nat.zero_add] at hloop
  obtain ⟨b', B', hB'⟩ := List.exists_cons_of_length_pos
    (show 0 < (B.drop (nameText ls).length).length by rw [List.length_drop]; omega)
  have hlenB : B'.length + 1 = B.length - (nameText ls).length := by
    rw [← List.length_drop, hB', List.length_cons]
  rw [hB'] at hloop
  obtain ⟨q₁, hq₁, ht₁⟩ := @store16_some (wire ls ++ 0 :: B') ((wire ls).length + 1)
    (htons DNS_QT_A) (by rw [List.length_append, List.length_cons]; omega)
  obtain ⟨q, hq, ht⟩ := @store16_some q₁ ((wire ls).length + 3) (htons DNS_QC_IN)
    (by rw [ht₁.length, List.length_append, List.length_cons]; omega)
  refine ⟨q, ?_, ?_⟩
  · unfold dns_bldq nameString
    have hzero : store8 (b :: B) 0 0 = some (0 :: B) := rfl
    have hend := store8_append (wire ls) b' B' 0
    change store8 _ _ _ = some (wire ls ++ 0 :: B') at hend
    simp only [hzero, Option.bind_eq_bind, Option.bind_some, hloop, hend, hq₁, hq]
    congr 3
    omega
  · rw [ht.take (by omega), ht₁.take le_rfl, List.take_length_add_append]
    rfl

/-! ## 4. What is read

The octets are a name in the sense of `NameAt`, and that such a name is read is known already. -/

variable {rpkt : Packet} {next : Nat} {text : List UInt8}

/-- **Labels in a message are the front of a name**, whose rest follows them. -/
theorem nameAt_labels (hl : ∀ l ∈ ls, IsLabel l) (pre post : List UInt8)
    (h : NameAt (pre ++ (wire ls ++ post)) (pre.length + (wire ls).length) text next) :
    NameAt (pre ++ (wire ls ++ post)) pre.length (dotted ls ++ text) next := by
  induction ls generalizing pre with
  | nil => exact h
  | cons l ls ih =>
    have hlabel := hl l (List.mem_cons_self ..)
    have hpos := List.length_pos_of_ne_nil hlabel.ne
    have hle := hlabel.le
    have hsplit : pre ++ (wire (l :: ls) ++ post) =
        pre ++ UInt8.ofNat l.length :: (l ++ (wire ls ++ post)) := by
      simp [wire]
    have hmove : pre ++ (wire (l :: ls) ++ post) =
        (pre ++ UInt8.ofNat l.length :: l) ++ (wire ls ++ post) := by
      simp [wire]
    have hlen : (pre ++ UInt8.ofNat l.length :: l).length = pre.length + 1 + l.length := by
      rw [List.length_append, List.length_cons]
      omega
    have hnext : pre.length + (wire (l :: ls)).length =
        pre.length + 1 + l.length + (wire ls).length := by
      simp only [wire, List.flatMap_cons, List.length_append, List.length_cons]
      omega
    have hoctet : (UInt8.ofNat l.length).toNat = l.length := by
      rw [UInt8.toNat_ofNat']
      omega
    rw [hnext, hmove, ← hlen] at h
    have hrest := ih (fun x hx => hl x (List.mem_cons_of_mem _ hx)) _ h
    rw [hlen, ← hmove] at hrest
    have hload : load8 (pre ++ (wire (l :: ls) ++ post)) pre.length = some l.length := by
      rw [hsplit, load8_append, hoctet]
    have hone := NameAt.label hload (by omega) hle hrest
    have htake : ((pre ++ (wire (l :: ls) ++ post)).drop (pre.length + 1)).take l.length = l := by
      rw [hsplit, ← List.drop_drop, List.drop_left, List.drop_succ_cons, List.drop_zero,
        List.take_left]
    rw [htake] at hone
    have htext : dotted (l :: ls) ++ text = l ++ ch '.' :: (dotted ls ++ text) := by
      simp [dotted]
    rw [htext]
    exact hone

/-- The name that ends with a length of zero. -/
theorem nameAt_root (pre post : List UInt8) : NameAt (pre ++ 0 :: post) pre.length []
    (pre.length + 1) := .root (load8_append pre 0 post)

/-- The name that is a pointer. -/
theorem nameAt_pointer {target : Nat} (pre post : List UInt8) (ht : target < 0x4000)
    (h : NameAt (pre ++ (pointerTo target ++ post)) target text next) :
    NameAt (pre ++ (pointerTo target ++ post)) pre.length text (pre.length + 2) := by
  have hhigh : (UInt8.ofNat (0xc0 + target / 256)).toNat = 0xc0 + target / 256 := by
    rw [UInt8.toNat_ofNat']
    omega
  have hlow : (UInt8.ofNat (target % 256)).toNat = target % 256 := by
    rw [UInt8.toNat_ofNat']
    omega
  have hnet : net16 (pre ++ (pointerTo target ++ post)) pre.length = some (0xc000 + target) := by
    rw [net16, pointerTo, List.getElem?_append_right le_rfl,
      List.getElem?_append_right (Nat.le_succ _), Nat.sub_self,
      Nat.succ_sub (Nat.le_refl _), Nat.sub_self]
    simp only [List.cons_append, List.getElem?_cons_zero, List.getElem?_cons_succ,
      Option.bind_eq_bind, Option.bind_some, hhigh, hlow]
    congr 1
    omega
  have hlen : load8 (pre ++ (pointerTo target ++ post)) pre.length =
      some (0xc0 + target / 256) := by
    rw [← hhigh]
    exact load8_append pre _ _
  have hmod : (0xc000 + target) % 0x4000 = target := by omega
  have hrest : NameAt (pre ++ (pointerTo target ++ post)) ((0xc000 + target) % 0x4000)
      text next := by
    rw [hmod]
    exact h
  exact .pointer hlen (by omega) hnet hrest

/-- **`dns_getrname` reads a name that is there.** -/
theorem getrname_name {off : Nat} (hne : ls ≠ []) (hfit : (nameText ls).length < DNSDATASIZ)
    (h : NameAt rpkt off (dotted ls) next) : ∃ n, ∀ fuel, n ≤ fuel →
      dns_getrname fuel rpkt off [] = some (next - off, nameText ls ++ [0]) := by
  have hdot := nameText_dot hne
  have hlen := congrArg List.length hdot
  rw [List.length_append, List.length_singleton] at hlen
  have hsize : rnamesize = 1024 := rfl
  have hdata : DNSDATASIZ = 500 := rfl
  have hfits : Fits ([] ++ dotted ls) := by
    rw [List.nil_append]
    refine ⟨?_, by omega⟩
    rw [← hdot]
    exact List.append_ne_nil_of_right_ne_nil _ (List.cons_ne_nil _ _)
  obtain ⟨n, hn⟩ := getLabels_complete [] h hfits
  refine ⟨n, fun fuel hfuel => ?_⟩
  rw [getrname_eq, hn fuel hfuel, Option.map_some, List.nil_append, ← hdot, List.dropLast_concat]

/-- **The round trip of a name.**  What `dns_bldq` writes for it is read as the name, wherever it
stands in a message, and takes as many bytes as were written; and so are the bytes of its first
labels with a pointer behind them to an encoding of the others. -/
theorem dns_roundtrip (ls : List (List UInt8)) (hne : ls ≠ []) (hl : ∀ l ∈ ls, IsLabel l)
    (buf : Packet) (hfit : (nameText ls).length < DNSDATASIZ)
    (hbuf : (nameText ls).length + 6 ≤ buf.length) :
    ∃ q qlen, dns_bldq (nameString ls hl) buf = some (q, qlen) ∧
      (∀ pre post : List UInt8, ∃ n, ∀ fuel, n ≤ fuel →
        dns_getrname fuel (pre ++ (q.take ((nameText ls).length + 2) ++ post)) pre.length [] =
          some ((nameText ls).length + 2, nameText ls ++ [0])) ∧
      (∀ (front tail : List (List UInt8)) (pre post : List UInt8) (target next : Nat),
        ls = front ++ tail → target < 0x4000 →
        NameAt (pre ++ (q.take (wire front).length ++ (pointerTo target ++ post))) target
          (dotted tail) next →
        ∃ n, ∀ fuel, n ≤ fuel →
          dns_getrname fuel (pre ++ (q.take (wire front).length ++ (pointerTo target ++ post)))
              pre.length [] =
            some ((wire front).length + 2, nameText ls ++ [0])) := by
  obtain ⟨q, hq, hfield⟩ := dns_bldq_field buf hne hl hfit hbuf
  have hwire := nameText_length hne
  refine ⟨q, _, hq, fun pre post => ?_, fun front tail pre post target next hsplit ht h => ?_⟩
  · rw [show (nameText ls).length + 2 = (wire ls).length + 1 by omega, hfield]
    have hroot := nameAt_root (pre ++ wire ls) post
    rw [List.length_append, List.append_assoc] at hroot
    have hname := nameAt_labels hl pre (0 :: post) hroot
    rw [List.append_nil] at hname
    rw [List.append_assoc, List.singleton_append]
    obtain ⟨n, hn⟩ := getrname_name hne hfit hname
    refine ⟨n, fun fuel hfuel => ?_⟩
    rw [hn fuel hfuel, Nat.add_assoc, Nat.add_sub_cancel_left]
  · have hfront : q.take (wire front).length = wire front := by
      have hw : wire ls = wire front ++ wire tail := by rw [hsplit, wire, List.flatMap_append]; rfl
      have hle : (wire front).length ≤ (wire ls).length + 1 := by
        rw [hw, List.length_append]
        omega
      rw [← Nat.min_eq_left hle, ← List.take_take, hfield, hw, List.append_assoc, List.take_left]
    rw [hfront] at h ⊢
    rw [← List.append_assoc] at h
    have hptr := nameAt_pointer (pre ++ wire front) post ht h
    rw [List.length_append, List.append_assoc] at hptr
    have hname := nameAt_labels (fun l hm => hl l (hsplit ▸ List.mem_append_left _ hm)) pre _ hptr
    rw [show dotted front ++ dotted tail = dotted ls by
      rw [hsplit, dotted, dotted, dotted, List.flatMap_append]] at hname
    obtain ⟨n, hn⟩ := getrname_name hne hfit hname
    refine ⟨n, fun fuel hfuel => ?_⟩
    rw [hn fuel hfuel, Nat.add_assoc, Nat.add_sub_cancel_left]

/-- The name `a.bc`. -/
def abcLabels : List (List UInt8) := [[ch 'a'], [ch 'b', ch 'c']]

theorem abcLabels_valid : ∀ l ∈ abcLabels, IsLabel l := by
  intro l hl
  rcases List.mem_cons.mp hl with rfl | hl
  · exact ⟨by decide, by decide, by decide, by decide⟩
  · obtain rfl := List.mem_singleton.mp hl
    exact ⟨by decide, by decide, by decide, by decide⟩

theorem dns_roundtrip_abc : ∃ q qlen,
    dns_bldq (nameString abcLabels abcLabels_valid) (List.replicate 12 0) = some (q, qlen) ∧
      (∀ pre post : List UInt8, ∃ n, ∀ fuel, n ≤ fuel →
        dns_getrname fuel (pre ++ (q.take ((nameText abcLabels).length + 2) ++ post))
          pre.length [] =
          some ((nameText abcLabels).length + 2, nameText abcLabels ++ [0])) ∧
      (∀ (front tail : List (List UInt8)) (pre post : List UInt8) (target next : Nat),
        abcLabels = front ++ tail → target < 0x4000 →
        NameAt (pre ++ (q.take (wire front).length ++ (pointerTo target ++ post))) target
          (dotted tail) next →
        ∃ n, ∀ fuel, n ≤ fuel →
          dns_getrname fuel (pre ++ (q.take (wire front).length ++ (pointerTo target ++ post)))
              pre.length [] =
            some ((wire front).length + 2, nameText abcLabels ++ [0])) :=
  dns_roundtrip abcLabels (by decide) abcLabels_valid (List.replicate 12 0) (by decide) (by decide)

/-- `bc` at offset 12, and after it `a` with a pointer to it. -/
example : dns_getrname 5 (List.replicate 12 0 ++ [2, 98, 99, 0, 1, 97, 0xc0, 12]) 16 [] =
    some (4, [97, 46, 98, 99, 0]) := by decide

end Xinu.Dns
