/-
# Which address is taken: `dns_geta`

Of the answers with an address the caller wants one whose name is the name that was asked for, on
the local network if there is such a one, and the first otherwise.  `dns_geta` compares as many
characters as the name has that was asked for, so it takes the answers whose name begins with it;
and it takes the address 0.0.0.0 for none.

Which answer decides is then a matter of their order alone: the last one on the local network, and
the first if there is none, where 0.0.0.0 does not count (`Decides`).  `dns_geta_best_iff` goes
through the cases.  The answer that decides is one that is wanted, so it has the name that was asked
for; or nobody decides and nobody has that name; or two answers happen to have one address, or an
address is 255.255.255.255, which is `SYSERR`.
-/
import Xinu.DnsQuery

namespace Xinu.Dns

open Net

/-! ## 1. The answers of a response

A response as its data: the answers with their names written out, wherever in the message the
parts of a name are. -/

/-- An answer: its name without the last dot, its type, and the four bytes of an address. -/
structure Answer where
  name : List UInt8
  type : Nat
  addr : Nat
deriving DecidableEq

/-- The answers of a response, one after the other.  The longest name has 255 octets, and an address
has four. -/
def AnswersAre (rpkt : Packet) : Nat → Nat → List Answer → Prop
  | 0, _, rs => rs = []
  | n + 1, off, rs => ∃ text next rdlen a rs', rs = a :: rs' ∧ NameAt rpkt off text next ∧
      text.length < 255 ∧ a.name = text.dropLast ∧ net16 rpkt next = some a.type ∧
      net16 rpkt (next + 8) = some rdlen ∧ next + 10 + rdlen ≤ rpkt.length ∧
      (a.type = DNS_QT_A → rdlen = 4 ∧ load32 rpkt (next + 10) = some a.addr) ∧
      AnswersAre rpkt n (next + 10 + rdlen) rs'

/-- **A response with the answers `rs`**: the header with the two counts, and as many questions and
answers. -/
def ResponseWith (rpkt : Packet) (rs : List Answer) : Prop :=
  ∃ qcount acount dptr, net16 rpkt qucount = some qcount ∧ net16 rpkt ancount = some acount ∧
    QuestionsAt rpkt qcount data dptr ∧ AnswersAre rpkt acount dptr rs

/-! ## 2. The address that is wanted, and the one that is taken

Both are said of the list of the answers.  The loop of `dns_geta` is a fold over the list, and the
answer that it settles on is found by its place in the list (`foldl_pick`). -/

variable {net : NetData} {dname : CString} {rs : List Answer} {a : Answer} {ip : Nat}

/-- The address is on the local network. -/
def NetData.isLocal (net : NetData) (ip : Nat) : Prop := net.ipmask &&& htonl ip = net.ipprefix

instance (net : NetData) (ip : Nat) : Decidable (net.isLocal ip) :=
  inferInstanceAs (Decidable (_ = _))

/-- The answers about the name `dname` that have an address. -/
def answersFor (dname : CString) (rs : List Answer) : List Answer :=
  rs.filter fun a => a.name = dname.chars ∧ a.type = DNS_QT_A

/-- The addresses of the name `dname`. -/
def addressesOf (dname : CString) (rs : List Answer) : List Nat :=
  (answersFor dname rs).map Answer.addr

/-- **The result that is wanted**: an address on the local network if the name has one, its first
address otherwise, and `SYSERR` if it has none. -/
def IsBest (net : NetData) (dname : CString) (rs : List Answer) (r : Nat) : Prop :=
  if ∃ ip ∈ addressesOf dname rs, net.isLocal ip then r ∈ addressesOf dname rs ∧ net.isLocal r
  else r = (addressesOf dname rs).head?.getD sysErrPtr

/-- An answer that is wanted: it is about the name that was asked for, and on the local network; or
no answer about that name is, and it is the first of them. -/
def Wanted (net : NetData) (dname : CString) (rs : List Answer) (a : Answer) : Prop :=
  a ∈ answersFor dname rs ∧ (net.isLocal a.addr ∨
    (∀ b ∈ answersFor dname rs, ¬ net.isLocal b.addr) ∧ (answersFor dname rs).head? = some a)

/-- The answers that `dns_geta` takes for those of `dname`. -/
def takenFor (dname : CString) (rs : List Answer) : List Answer :=
  rs.filter fun a => dname.chars <+: a.name ∧ a.type = DNS_QT_A

/-- **The answer that decides**: it has an address other than 0.0.0.0 and no answer on the local
network comes after it; and it is itself on the local network, or after every answer before it that
counts there comes one that is, still before it. -/
def Decides (net : NetData) (taken : List Answer) (a : Answer) : Prop :=
  ∃ before after, taken = before ++ a :: after ∧ a.addr ≠ 0 ∧ (∀ b ∈ after, ¬ net.isLocal b.addr) ∧
    (net.isLocal a.addr ∨ ∀ l b r, before = l ++ b :: r → b.addr ≠ 0 → ∃ c ∈ r, net.isLocal c.addr)

/-- The answers from the last one on the local network on, and all if none is. -/
def fromLastLocal (net : NetData) : List Answer → List Answer
  | [] => []
  | a :: rs => if ∃ b ∈ rs, net.isLocal b.addr then fromLastLocal net rs else a :: rs

/-- The search for the answer that decides. -/
def deciding (net : NetData) (dname : CString) (rs : List Answer) : Option Answer :=
  (fromLastLocal net (takenFor dname rs)).find? fun a => a.addr ≠ 0

/-- What `pickAddress` does with an answer that is taken. -/
def pickFrom (net : NetData) (ip : Nat) (a : Answer) : Nat :=
  if ip = 0 ∨ net.isLocal a.addr then a.addr else ip

theorem foldl_pick_nonlocal (h : ∀ a ∈ rs, ¬ net.isLocal a.addr) (ip : Nat) :
    rs.foldl (pickFrom net) ip =
      if ip = 0 then ((rs.find? fun a => a.addr ≠ 0).map Answer.addr).getD 0 else ip := by
  induction rs generalizing ip with
  | nil => split_ifs with h0 <;> simp [h0]
  | cons a rs ih =>
    have hrest := ih (fun b hb => h b (List.mem_cons_of_mem _ hb))
    have ha := h a List.mem_cons_self
    rw [List.foldl_cons, hrest]
    by_cases h0 : ip = 0
    · have hpick : pickFrom net ip a = a.addr := if_pos (.inl h0)
      rw [hpick, if_pos h0]
      by_cases hz : a.addr = 0
      · rw [if_pos hz, List.find?_cons_of_neg (by simp [hz])]
      · rw [if_neg hz, List.find?_cons_of_pos (by simp [hz])]
        rfl
    · have hpick : pickFrom net ip a = ip := if_neg (by simp [h0, ha])
      rw [hpick, if_neg h0, if_neg h0]

theorem foldl_pick_local (h : ∃ a ∈ rs, net.isLocal a.addr) (ip : Nat) :
    rs.foldl (pickFrom net) ip =
      (((fromLastLocal net rs).find? fun a => a.addr ≠ 0).map Answer.addr).getD 0 := by
  induction rs generalizing ip with
  | nil => simp at h
  | cons a rs ih =>
    rw [List.foldl_cons, fromLastLocal]
    by_cases hrest : ∃ b ∈ rs, net.isLocal b.addr
    · rw [if_pos hrest]
      exact ih hrest _
    · -- the last one on the local network is the first of these
      have ha : net.isLocal a.addr := by
        obtain ⟨b, hb, hl⟩ := h
        rcases List.mem_cons.mp hb with rfl | hb
        · exact hl
        · exact absurd ⟨b, hb, hl⟩ hrest
      have hpick : pickFrom net ip a = a.addr := if_pos (.inr ha)
      rw [if_neg hrest, hpick, foldl_pick_nonlocal (fun b hb hl => hrest ⟨b, hb, hl⟩)]
      by_cases hz : a.addr = 0
      · rw [if_pos hz, List.find?_cons_of_neg (by simp [hz])]
      · rw [if_neg hz, List.find?_cons_of_pos (by simp [hz])]
        rfl

theorem fromLastLocal_nonlocal (h : ∀ a ∈ rs, ¬ net.isLocal a.addr) :
    fromLastLocal net rs = rs := by
  cases rs with
  | nil => rfl
  | cons a rs =>
    rw [fromLastLocal, if_neg]
    rintro ⟨b, hb, hl⟩
    exact h b (List.mem_cons_of_mem _ hb) hl

/-- After an answer on the local network only the later ones matter. -/
theorem decides_cons_local (h : ∃ b ∈ rs, net.isLocal b.addr) {d : Answer} :
    Decides net (a :: rs) d ↔ Decides net rs d := by
  constructor
  · rintro ⟨before, after, hsplit, hne, hafter, hpick⟩
    cases before with
    | nil =>
      -- the answer on the local network comes later
      obtain ⟨-, rfl⟩ := List.cons.inj hsplit
      obtain ⟨b, hb, hl⟩ := h
      exact absurd hl (hafter b hb)
    | cons c before =>
      obtain ⟨rfl, rfl⟩ := List.cons.inj hsplit
      refine ⟨before, after, rfl, hne, hafter, hpick.imp_right fun hall l b r hb => ?_⟩
      exact hall (a :: l) b r (by rw [hb]; rfl)
  · rintro ⟨before, after, rfl, hne, hafter, hpick⟩
    refine ⟨a :: before, after, rfl, hne, hafter, ?_⟩
    by_cases hd : net.isLocal d.addr
    · exact .inl hd
    refine .inr fun l b r hb hb0 => ?_
    cases l with
    | nil =>
      obtain ⟨-, rfl⟩ := List.cons.inj hb
      obtain ⟨c, hc, hl⟩ := h
      rcases List.mem_append.mp hc with hc | hc
      · exact ⟨c, hc, hl⟩
      rcases List.mem_cons.mp hc with rfl | hc
      · exact absurd hl hd
      · exact absurd hl (hafter c hc)
    | cons c l =>
      obtain ⟨-, rfl⟩ := List.cons.inj hb
      exact (hpick.resolve_left hd) l b r rfl hb0

/-- If none of the later ones is on the local network, the first that counts decides. -/
theorem decides_cons_nonlocal (h : ∀ b ∈ rs, ¬ net.isLocal b.addr) {d : Answer} :
    Decides net (a :: rs) d ↔ ((a :: rs).find? fun a => a.addr ≠ 0) = some d := by
  have hlater : ∀ {l r : List Answer} {c : Answer}, a :: rs = l ++ c :: r →
      (∀ b ∈ r, ¬ net.isLocal b.addr) ∧ (l ≠ [] → ¬ net.isLocal c.addr) := by
    intro l r c hsplit
    cases l with
    | nil =>
      obtain ⟨-, rfl⟩ := List.cons.inj hsplit
      exact ⟨h, fun hne => absurd rfl hne⟩
    | cons e l =>
      obtain ⟨-, rfl⟩ := List.cons.inj hsplit
      exact ⟨fun b hb => h b (by simp [hb]), fun _ => h c (by simp)⟩
  rw [List.find?_eq_some_iff_append]
  constructor
  · rintro ⟨before, after, hsplit, hne, -, hpick⟩
    refine ⟨by simpa using hne, before, after, hsplit, fun b hb => ?_⟩
    by_contra hb0
    obtain ⟨l, r, rfl⟩ := List.append_of_mem hb
    have hd := (hlater hsplit).2 (List.ne_nil_of_mem hb)
    obtain ⟨c, hc, hl⟩ := hpick.resolve_left hd l b r rfl (by simpa using hb0)
    rw [List.append_assoc] at hsplit
    exact (hlater hsplit).1 c (List.mem_append_left _ hc) hl
  · rintro ⟨hne, before, after, hsplit, hzero⟩
    refine ⟨before, after, hsplit, by simpa using hne, (hlater hsplit).1, .inr ?_⟩
    intro l b r hb hb0
    exact absurd (hzero b (by simp [hb])) (by simpa using hb0)

/-- **The search finds the answer that decides.** -/
theorem decides_iff {d : Answer} :
    Decides net rs d ↔ ((fromLastLocal net rs).find? fun a => a.addr ≠ 0) = some d := by
  induction rs with
  | nil => simp [Decides, fromLastLocal]
  | cons a rs ih =>
    rw [fromLastLocal]
    by_cases hrest : ∃ b ∈ rs, net.isLocal b.addr
    · rw [if_pos hrest, decides_cons_local hrest, ih]
    · rw [if_neg hrest]
      exact decides_cons_nonlocal fun b hb hl => hrest ⟨b, hb, hl⟩

/-- **The loop settles on the answer that decides.** -/
theorem foldl_pick (rs : List Answer) : rs.foldl (pickFrom net) 0 =
    (((fromLastLocal net rs).find? fun a => a.addr ≠ 0).map Answer.addr).getD 0 := by
  by_cases h : ∃ a ∈ rs, net.isLocal a.addr
  · exact foldl_pick_local h 0
  · have hno : ∀ a ∈ rs, ¬ net.isLocal a.addr := fun a ha hl => h ⟨a, ha, hl⟩
    rw [foldl_pick_nonlocal hno, if_pos rfl, fromLastLocal_nonlocal hno]

/-! ## 3. The loop over the answers

What the code reads of each answer is the name and the four bytes, and nothing else of the message
matters. -/

variable {rpkt : Packet} {off next next' n : Nat} {text text' rname : List UInt8}

/-- There is one name at a place. -/
theorem NameAt.unique (h : NameAt rpkt off text next) (h' : NameAt rpkt off text' next') :
    text = text' ∧ next = next' := by
  induction h generalizing text' next' with
  | root hlen =>
    cases h' with
    | root => exact ⟨rfl, rfl⟩
    | label hlen' pos =>
      obtain rfl := Option.some.inj (hlen.symm.trans hlen')
      exact absurd rfl pos
    | pointer hlen' gt =>
      obtain rfl := Option.some.inj (hlen.symm.trans hlen')
      omega
  | label hlen pos le rest ih =>
    cases h' with
    | root hlen' =>
      obtain rfl := Option.some.inj (hlen.symm.trans hlen')
      exact absurd rfl pos
    | label hlen' _ _ rest' =>
      obtain rfl := Option.some.inj (hlen.symm.trans hlen')
      obtain ⟨rfl, rfl⟩ := ih rest'
      exact ⟨rfl, rfl⟩
    | pointer hlen' gt =>
      obtain rfl := Option.some.inj (hlen.symm.trans hlen')
      omega
  | pointer hlen gt htarget rest ih =>
    cases h' with
    | root hlen' =>
      obtain rfl := Option.some.inj (hlen.symm.trans hlen')
      omega
    | label hlen' _ le =>
      obtain rfl := Option.some.inj (hlen.symm.trans hlen')
      omega
    | pointer hlen' _ htarget' rest' =>
      obtain rfl := Option.some.inj (htarget.symm.trans htarget')
      obtain ⟨rfl, rfl⟩ := ih rest'
      exact ⟨rfl, rfl⟩

/-- A name that is not the root has more than a dot. -/
theorem NameAt.text_eq_nil (h : NameAt rpkt off text next) (htext : text.dropLast = []) :
    text = [] := by
  induction h with
  | root => rfl
  | @label off llen next text hlen pos le rest ih =>
    have hin : off + 1 + llen < rpkt.length := by
      cases rest <;> exact load8_lt ‹_›
    have hlength := congrArg List.length htext
    simp only [List.length_dropLast, List.length_append, List.length_take, List.length_drop,
      List.length_cons, List.length_nil] at hlength
    omega
  | pointer _ _ _ _ ih => exact ih htext

/-- What is taken of an answer. -/
theorem pickAddress_answer {rdlen : Nat} (htext : a.name = text.dropLast)
    (htype : net16 rpkt next = some a.type)
    (haddr : a.type = DNS_QT_A → rdlen = 4 ∧ load32 rpkt (next + 10) = some a.addr) (ip : Nat) :
    pickAddress net dname rpkt (text.dropLast ++ [0]) next ip =
      some (if dname.chars <+: a.name ∧ a.type = DNS_QT_A then pickFrom net ip a else ip) := by
  obtain ⟨tmptype, hload, hswap⟩ := load16_eq_some.mpr htype
  have hprefix : dname.chars <+: text.dropLast ++ [0] ↔ dname.chars <+: a.name := by
    rw [htext, List.prefix_concat_iff]
    refine or_iff_right fun h => dname.nonnull ?_
    rw [h]
    simp
  simp only [pickAddress, hload, Option.bind_eq_bind, Option.bind_some, hswap, hprefix]
  split_ifs with hmatch
  · rw [(haddr hmatch.2).2, Option.bind_some]
    rfl
  · rfl

/-- **The answers are picked from one by one**, if none is about the root. -/
theorem readAnswers_eq (net : NetData) (dname : CString) (h : AnswersAre rpkt n off rs)
    (hroot : ∀ a ∈ rs, a.name ≠ []) : ∃ m, ∀ fuel, m ≤ fuel → ∀ ip,
      readAnswers fuel net dname rpkt n off ip =
        some ((takenFor dname rs).foldl (pickFrom net) ip) := by
  induction n generalizing off rs with
  | zero =>
    obtain rfl : rs = [] := h
    exact ⟨0, fun _ _ _ => rfl⟩
  | succ n ih =>
    obtain ⟨text, next, rdlen, a, rs, rfl, hname, hlen, htext, htype, hrdlen, -, haddr, hrest⟩ := h
    have hne : text ≠ [] := by
      rintro rfl
      exact hroot a List.mem_cons_self htext
    have hfits : Fits ([] ++ text) := ⟨hne, by rw [List.nil_append, rnamesize]; omega⟩
    obtain ⟨k, hk⟩ := getLabels_complete [] hname hfits
    obtain ⟨m, hm⟩ := ih hrest fun b hb => hroot b (List.mem_cons_of_mem _ hb)
    obtain ⟨tmplen, hload, rfl⟩ := load16_eq_some.mpr hrdlen
    refine ⟨max k m, fun fuel hfuel ip => ?_⟩
    have hnext : off + (next - off) = next := by
      have := hname.lt_next
      omega
    have hoff : next + 8 + (htons tmplen + 2) = next + 10 + htons tmplen := by omega
    rw [readAnswers, getrname_eq, hk fuel (by omega)]
    simp only [Option.map_some, Option.bind_eq_bind, Option.bind_some, List.nil_append, hnext,
      pickAddress_answer htext htype haddr ip, hload, hoff]
    rw [hm fuel (by omega), takenFor, takenFor, List.filter_cons]
    split_ifs with h1 h2 h2
    · rfl
    · exact absurd (by simpa using h1) h2
    · exact absurd (by simpa using h2) h1
    · rfl

/-- The name of the root is written in front of `rname`, and the walk ends there. -/
theorem readAnswers_root {fuel : Nat} (h : AnswersAre rpkt n off rs)
    (hroot : ∃ a ∈ rs, a.name = []) (ip : Nat) :
    readAnswers fuel net dname rpkt n off ip = none := by
  induction n generalizing off rs ip with
  | zero =>
    obtain rfl : rs = [] := h
    simp at hroot
  | succ n ih =>
    obtain ⟨text, next, rdlen, a, rs, rfl, hname, hlen, htext, htype, hrdlen, -, haddr, hrest⟩ := h
    obtain ⟨tmplen, hload, rfl⟩ := load16_eq_some.mpr hrdlen
    rw [readAnswers, getrname_eq]
    cases hget : getLabels rpkt fuel off [] with
    | none => rfl
    | some r =>
      obtain ⟨text', hname', hfits, hr⟩ := getLabels_sound (by simp) hget
      obtain ⟨rfl, hnext'⟩ := hname.unique hname'
      rw [List.nil_append] at hfits hr
      have hnext : off + (r.1 - off) = next := by
        have := hname.lt_next
        omega
      have ha : a.name ≠ [] := by
        rw [htext]
        exact fun h => hfits.1 (hname.text_eq_nil h)
      have hoff : next + 8 + (htons tmplen + 2) = next + 10 + htons tmplen := by omega
      simp only [Option.map_some, Option.bind_eq_bind, Option.bind_some, hnext, hr,
        pickAddress_answer htext htype haddr ip, hload, hoff]
      refine ih hrest ?_ _
      obtain ⟨b, hb, hnil⟩ := hroot
      rcases List.mem_cons.mp hb with rfl | hb
      · exact absurd hnil ha
      · exact ⟨b, hb, hnil⟩

/-! ## 4. When the result is the one that is wanted

The two lists of section 2 are compared: the answers about the name, and those that are taken for
them.  Each case of `DecidedRightly` says of some answers which name and which address they have. -/

/-- With enough fuel, `dns_geta` returns `r`, and has not left its bounds. -/
def Returns (net : NetData) (dname : CString) (rpkt : Packet) (r : Nat) : Prop :=
  ∃ m, ∀ fuel, m ≤ fuel → dns_geta fuel net dname rpkt = some r

/-- The address of the answer that decides. -/
theorem returns_deciding (h : ResponseWith rpkt rs) (hroot : ∀ a ∈ rs, a.name ≠ []) :
    Returns net dname rpkt (((deciding net dname rs).map Answer.addr).getD sysErrPtr) := by
  obtain ⟨qcount, acount, dptr, hq, ha, hskip, hread⟩ := h
  obtain ⟨q, hloadq, rfl⟩ := load16_eq_some.mpr hq
  obtain ⟨a, hloada, rfl⟩ := load16_eq_some.mpr ha
  obtain ⟨k, hk⟩ := skipQuestions_complete hskip
  obtain ⟨m, hm⟩ := readAnswers_eq net dname hread hroot
  refine ⟨max k m, fun fuel hfuel => ?_⟩
  rw [dns_geta, hloadq, Option.bind_eq_bind, Option.bind_some, hk fuel (by omega),
    Option.bind_some, hloada, Option.bind_some, hm fuel (by omega), Option.bind_some, foldl_pick]
  rw [← deciding]
  cases hd : deciding net dname rs with
  | none => rfl
  | some b =>
    have hb : b.addr ≠ 0 := by simpa using List.find?_some hd
    simp only [Option.map_some, Option.getD_some, if_pos hb]

/-- A response with an answer about the root is not parsed in its bounds. -/
theorem not_returns_root {r : Nat} (h : ResponseWith rpkt rs) (hroot : ∃ a ∈ rs, a.name = []) :
    ¬ Returns net dname rpkt r := by
  rintro ⟨m, hm⟩
  obtain ⟨qcount, acount, dptr, hq, ha, hskip, hread⟩ := h
  obtain ⟨q, hloadq, rfl⟩ := load16_eq_some.mpr hq
  obtain ⟨a, hloada, rfl⟩ := load16_eq_some.mpr ha
  obtain ⟨k, hk⟩ := skipQuestions_complete hskip
  have hfuel := hm (max m k) (le_max_left _ _)
  rw [dns_geta, hloadq, Option.bind_eq_bind, Option.bind_some, hk _ (le_max_right _ _),
    Option.bind_some, hloada, Option.bind_some, readAnswers_root hread hroot] at hfuel
  simp at hfuel

theorem Returns.unique {r r' : Nat} (h : Returns net dname rpkt r)
    (h' : Returns net dname rpkt r') : r = r' := by
  obtain ⟨m, hm⟩ := h
  obtain ⟨m', hm'⟩ := h'
  exact Option.some.inj ((hm _ (le_max_left m m')).symm.trans (hm' _ (le_max_right m m')))

/-- The result that is wanted is the address of an answer that is wanted, and `SYSERR` if no answer
is about the name. -/
theorem isBest_iff {r : Nat} : IsBest net dname rs r ↔
    (∃ a, Wanted net dname rs a ∧ a.addr = r) ∨ answersFor dname rs = [] ∧ r = sysErrPtr := by
  rw [IsBest, addressesOf]
  by_cases hl : ∃ ip ∈ (answersFor dname rs).map Answer.addr, net.isLocal ip
  · rw [if_pos hl]
    obtain ⟨ip, hip, hlocal⟩ := hl
    obtain ⟨b, hb, rfl⟩ := List.mem_map.mp hip
    constructor
    · rintro ⟨hr, hrl⟩
      obtain ⟨a, ha, rfl⟩ := List.mem_map.mp hr
      exact .inl ⟨a, ⟨ha, .inl hrl⟩, rfl⟩
    · rintro (⟨a, ⟨ha, hcase⟩, rfl⟩ | ⟨hnil, -⟩)
      · rcases hcase with hal | ⟨hno, -⟩
        · exact ⟨List.mem_map_of_mem ha, hal⟩
        · exact absurd hlocal (hno b hb)
      · rw [hnil] at hb
        exact absurd hb List.not_mem_nil
  · have hno : ∀ b ∈ answersFor dname rs, ¬ net.isLocal b.addr :=
      fun b hb hlocal => hl ⟨_, List.mem_map_of_mem hb, hlocal⟩
    rw [if_neg hl, List.head?_map]
    cases hhead : (answersFor dname rs).head? with
    | none =>
      have hnil : answersFor dname rs = [] := List.head?_eq_none_iff.mp hhead
      simp [Wanted, hnil]
    | some a =>
      have ha : a ∈ answersFor dname rs := List.mem_of_head? hhead
      rw [Option.map_some, Option.getD_some]
      constructor
      · rintro rfl
        exact .inl ⟨a, ⟨ha, .inr ⟨hno, hhead⟩⟩, rfl⟩
      · rintro (⟨b, ⟨hb, hcase⟩, rfl⟩ | ⟨hnil, -⟩)
        · rcases hcase with hbl | ⟨-, hb'⟩
          · exact absurd hbl (hno b hb)
          · rw [hhead] at hb'
            rw [Option.some.inj hb']
        · rw [hnil] at ha
          exact absurd ha List.not_mem_nil

/-- **The answers of a response are such that the right one decides.** -/
inductive DecidedRightly (net : NetData) (dname : CString) (rs : List Answer) : Prop
  /-- The answer that decides is one that is wanted. -/
  | wanted (a : Answer) (decides : Decides net (takenFor dname rs) a) (want : Wanted net dname rs a)
  /-- No answer decides, and none is about the name. -/
  | nobody (undecided : ∀ a, ¬ Decides net (takenFor dname rs) a)
      (unknown : answersFor dname rs = [])
  /-- Another answer decides, which happens to have the address of one that is wanted. -/
  | sameAddress (a b : Answer) (decides : Decides net (takenFor dname rs) a)
      (want : Wanted net dname rs b) (same : a.addr = b.addr)
  /-- None is about the name, and the one that decides has the address 255.255.255.255. -/
  | decidesSysErr (a : Answer) (decides : Decides net (takenFor dname rs) a)
      (unknown : answersFor dname rs = []) (addr : a.addr = sysErrPtr)
  /-- None decides, and one that is wanted has the address 255.255.255.255. -/
  | wantedSysErr (undecided : ∀ a, ¬ Decides net (takenFor dname rs) a) (b : Answer)
      (want : Wanted net dname rs b) (addr : b.addr = sysErrPtr)

/-- An answer decides, and these are the cases. -/
theorem decidedRightly_some (hd : deciding net dname rs = some a) :
    IsBest net dname rs a.addr ↔ DecidedRightly net dname rs := by
  have hdec : Decides net (takenFor dname rs) a := decides_iff.mpr hd
  have hone : ∀ {b}, Decides net (takenFor dname rs) b → b = a := fun hb =>
    Option.some.inj ((decides_iff.mp hb).symm.trans hd)
  rw [isBest_iff]
  constructor
  · rintro (⟨b, hb, haddr⟩ | ⟨hnil, haddr⟩)
    · exact .sameAddress a b hdec hb haddr.symm
    · exact .decidesSysErr a hdec hnil haddr
  · intro hright
    cases hright with
    | wanted b decides want => exact .inl ⟨b, want, by rw [hone decides]⟩
    | nobody undecided => exact absurd hdec (undecided a)
    | sameAddress c b decides want same => exact .inl ⟨b, want, by rw [← same, hone decides]⟩
    | decidesSysErr b decides unknown addr =>
      exact .inr ⟨unknown, by rw [← hone decides, addr]⟩
    | wantedSysErr undecided => exact absurd hdec (undecided a)

/-- No answer decides. -/
theorem decidedRightly_none (hd : deciding net dname rs = none) :
    IsBest net dname rs sysErrPtr ↔ DecidedRightly net dname rs := by
  have hno : ∀ a, ¬ Decides net (takenFor dname rs) a := fun a ha => by
    have hsome : deciding net dname rs = some a := decides_iff.mp ha
    rw [hd] at hsome
    cases hsome
  rw [isBest_iff]
  constructor
  · rintro (⟨b, hb, haddr⟩ | ⟨hnil, -⟩)
    · exact .wantedSysErr hno b hb haddr
    · exact .nobody hno hnil
  · intro hright
    cases hright with
    | wanted a decides => exact absurd decides (hno a)
    | nobody _ unknown => exact .inr ⟨unknown, rfl⟩
    | sameAddress a _ decides => exact absurd decides (hno a)
    | decidesSysErr a decides => exact absurd decides (hno a)
    | wantedSysErr _ b want addr => exact .inl ⟨b, want, addr⟩

/-- **When `dns_geta` returns the address that is wanted**: no answer is about the root, and the
answers are in one of the cases of `DecidedRightly`. -/
theorem dns_geta_best_iff (net : NetData) (dname : CString) {rpkt : Packet} {rs : List Answer}
    (h : ResponseWith rpkt rs) : (∃ r, Returns net dname rpkt r ∧ IsBest net dname rs r) ↔
      (∀ a ∈ rs, a.name ≠ []) ∧ DecidedRightly net dname rs := by
  have hiff : IsBest net dname rs (((deciding net dname rs).map Answer.addr).getD sysErrPtr) ↔
      DecidedRightly net dname rs := by
    cases hd : deciding net dname rs with
    | none => exact decidedRightly_none hd
    | some a => exact decidedRightly_some hd
  rw [← hiff]
  constructor
  · rintro ⟨r, hr, hbest⟩
    have hroot : ∀ a ∈ rs, a.name ≠ [] := by
      intro a ha hnil
      exact not_returns_root h ⟨a, ha, hnil⟩ hr
    exact ⟨hroot, hr.unique (returns_deciding h hroot) ▸ hbest⟩
  · rintro ⟨hroot, hbest⟩
    exact ⟨_, returns_deciding h hroot, hbest⟩

theorem fromLastLocal_mem (h : a ∈ fromLastLocal net rs) : a ∈ rs := by
  induction rs with
  | nil => exact h
  | cons b rs ih =>
    rw [fromLastLocal] at h
    split_ifs at h
    · exact List.mem_cons_of_mem _ (ih h)
    · exact h

theorem fromLastLocal_head (h : ∃ b ∈ rs, net.isLocal b.addr) :
    ∃ a l, fromLastLocal net rs = a :: l ∧ net.isLocal a.addr := by
  induction rs with
  | nil => simp at h
  | cons b rs ih =>
    rw [fromLastLocal]
    split_ifs with hrest
    · exact ih hrest
    · obtain ⟨a, ha, hl⟩ := h
      rcases List.mem_cons.mp ha with rfl | ha
      · exact ⟨a, rs, rfl, hl⟩
      · exact absurd ⟨a, ha, hl⟩ hrest

/-- **The ordinary case**: every answer that is taken has the name that was asked for, and none has
the address 0.0.0.0. -/
theorem decidedRightly_of_exact (h : ∀ a ∈ takenFor dname rs, a.name = dname.chars ∧ a.addr ≠ 0) :
    DecidedRightly net dname rs := by
  have hsame : answersFor dname rs = takenFor dname rs := by
    refine List.filter_congr fun a ha => ?_
    simp only [decide_eq_decide]
    refine ⟨fun he => ⟨he.1 ▸ List.prefix_rfl, he.2⟩, fun he => ⟨?_, he.2⟩⟩
    exact (h a (List.mem_filter.mpr ⟨ha, by simpa using he⟩)).1
  have hfind : ∀ l : List Answer, (∀ a ∈ l, a.addr ≠ 0) →
      (l.find? fun a => a.addr ≠ 0) = l.head? := by
    rintro (_ | ⟨a, l⟩) hl
    · rfl
    · exact List.find?_cons_of_pos (by simpa using hl a List.mem_cons_self)
  have hdec : deciding net dname rs = (fromLastLocal net (takenFor dname rs)).head? :=
    hfind _ fun a ha => (h a (fromLastLocal_mem ha)).2
  by_cases hl : ∃ b ∈ takenFor dname rs, net.isLocal b.addr
  · obtain ⟨a, l, ha, hla⟩ := fromLastLocal_head hl
    rw [ha, List.head?_cons] at hdec
    refine .wanted a (decides_iff.mpr hdec) ⟨?_, .inl hla⟩
    rw [hsame]
    exact fromLastLocal_mem (ha ▸ List.mem_cons_self)
  · have hno : ∀ a ∈ takenFor dname rs, ¬ net.isLocal a.addr := fun a ha hla => hl ⟨a, ha, hla⟩
    rw [fromLastLocal_nonlocal hno] at hdec
    cases hhead : (takenFor dname rs).head? with
    | none =>
      have hnil := List.head?_eq_none_iff.mp hhead
      refine .nobody (fun a ha => ?_) (hsame.trans hnil)
      have hsome : deciding net dname rs = some a := decides_iff.mp ha
      rw [hdec, hhead] at hsome
      cases hsome
    | some a =>
      rw [hhead] at hdec
      refine .wanted a (decides_iff.mpr hdec) ⟨?_, .inr ⟨?_, ?_⟩⟩
      · rw [hsame]
        exact List.mem_of_head? hhead
      · rwa [hsame]
      · rwa [hsame]

/-! ## 5. A longer name

A response that names another host only, whose name begins with the one that was asked for. -/

/-- One question for `a`, and one answer, about `ab`. -/
def longerName : Packet := [0, 1, 0x81, 0x80, 0, 1, 0, 1, 0, 0, 0, 0, 1, 97, 0, 0, 1, 0, 1,
  2, 97, 98, 0, 0, 1, 0, 1, 0, 0, 0, 0, 0, 4, 10, 0, 0, 7]

/-- Its answer. -/
def abAnswer : Answer := ⟨[ch 'a', ch 'b'], DNS_QT_A, 0x0700000a⟩

theorem longerName_response : ResponseWith longerName [abAnswer] := by
  have hname : NameAt longerName 19 [ch 'a', ch 'b', ch '.'] 23 :=
    @NameAt.label longerName 19 2 _ _ rfl (by decide) (by decide) (@NameAt.root longerName 22 rfl)
  exact ⟨1, 1, 19, rfl, rfl,
    ⟨19, @QuestionAt.label longerName _ 1 _ rfl (by decide) (by decide)
      (@QuestionAt.root longerName 14 rfl), rfl⟩,
    _, 23, 4, abAnswer, [], rfl, hname, by decide, rfl, rfl, rfl, by decide,
    fun _ => ⟨rfl, rfl⟩, rfl⟩

/-- The network 10.0.0.0/8. -/
def tenNet : NetData := ⟨0xff000000, 0x0a000000⟩

theorem dns_geta_best_iff_ab : ∃ r, Returns tenNet ⟨[ch 'a', ch 'b'], by decide⟩ longerName r ∧
    IsBest tenNet ⟨[ch 'a', ch 'b'], by decide⟩ [abAnswer] r :=
  (dns_geta_best_iff tenNet ⟨[ch 'a', ch 'b'], by decide⟩ longerName_response).mpr
    ⟨by decide, decidedRightly_of_exact (by decide)⟩

/-- **The address of `ab` is returned for `a`.** -/
theorem dns_geta_longer : ResponseWith longerName [abAnswer] ∧
    Returns tenNet ⟨[ch 'a'], by decide⟩ longerName abAnswer.addr ∧
    addressesOf ⟨[ch 'a'], by decide⟩ [abAnswer] = [] ∧
    ¬ IsBest tenNet ⟨[ch 'a'], by decide⟩ [abAnswer] abAnswer.addr := by
  have hret := @returns_deciding tenNet ⟨[ch 'a'], by decide⟩ _ _ longerName_response (by decide)
  have hnone : addressesOf ⟨[ch 'a'], by decide⟩ [abAnswer] = [] := by decide
  refine ⟨longerName_response, hret, hnone, ?_⟩
  rw [IsBest, hnone]
  decide

end Xinu.Dns
