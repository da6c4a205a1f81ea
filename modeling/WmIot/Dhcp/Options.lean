import Mathlib

/-!
# The options of a DHCP message

`_ParseDhcpOptions` on the buffer that `DHCPS_RecvCb` has copied the received bytes to: it is cleared before,
and what lies behind it is not known. The parser is followed with the offsets that it reads, from the start of
the message.
-/

namespace WmIot.Dhcp
set_option autoImplicit false

abbrev Byte := BitVec 8

/-- `sizeof(DHCP_MSG)` -/
def msgSize : Nat := 548

/-- The offset of the options in a message. -/
def optionsOffset : Nat := 240

def optionPad : Byte := 0
def optionReqIpAddr : Byte := 50
def optionMsgType : Byte := 53
def optionServerId : Byte := 54
def optionEnd : Byte := 255

/-- What the parser writes through its pointers, and what it returns. -/
structure Parsed where
  ret : Byte
  msgType : Byte
  reqIpAddr : List Byte
  serverId : List Byte
deriving DecidableEq, Repr

/-- The values before the call. -/
def Parsed.unset : Parsed := ⟨0, 0xFF, List.replicate 4 0, List.replicate 4 0⟩

/-- `MEMCPY` of the four bytes of an address. -/
def copyAddr (mem : Nat → Byte) (p : Nat) : List Byte := [mem p, mem (p + 1), mem (p + 2), mem (p + 3)]

/-- The value of the option at `p`, with the offsets that are read for it. -/
def readValue (mem : Nat → Byte) (p : Nat) (out : Parsed) : List Nat × Parsed :=
  if mem p = optionMsgType then ([p + 2], { out with msgType := mem (p + 2), ret := out.ret ||| 1 })
  else if mem p = optionReqIpAddr then
    ([p + 2, p + 3, p + 4, p + 5], { out with reqIpAddr := copyAddr mem (p + 2), ret := out.ret ||| 2 })
  else if mem p = optionServerId then
    ([p + 2, p + 3, p + 4, p + 5], { out with serverId := copyAddr mem (p + 2), ret := out.ret ||| 4 })
  else ([], out)

/-- The loop of `_ParseDhcpOptions`. -/
def parseLoop (mem : Nat → Byte) (p : Nat) (out : Parsed) : List Nat × Parsed :=
  if mem p = optionEnd ∨ msgSize ≤ p then ([p], out)
  else if mem p = optionPad then
    (p :: (parseLoop mem (p + 1) out).1, (parseLoop mem (p + 1) out).2)
  else
    let len := (mem (p + 1)).toNat
    let value := readValue mem p out
    let next := parseLoop mem (p + 2 + len) value.2
    (p :: (p + 1) :: (value.1 ++ next.1), next.2)
termination_by msgSize - p
decreasing_by all_goals omega

/-- `_ParseDhcpOptions` -/
def parseDhcpOptions (mem : Nat → Byte) (out : Parsed) : List Nat × Parsed := parseLoop mem optionsOffset out

/-- The memory from the start of the message on. -/
def buffer (msg : List Byte) (beyond : Nat → Byte) (i : Nat) : Byte :=
  if i < msgSize then msg.getD i 0 else beyond i

/-! ## The options of a message -/

inductive DhcpOption where
  | pad
  | option (tag : Byte) (value : List Byte)

namespace DhcpOption

def encode : DhcpOption → List Byte
  | pad => [optionPad]
  | option tag value => tag :: BitVec.ofNat 8 value.length :: value

/-- The length of the value of an option that is read. -/
def copied (tag : Byte) : Nat :=
  if tag = optionMsgType then 1 else if tag = optionReqIpAddr ∨ tag = optionServerId then 4 else 0

/-- A tag, a length that its byte can hold, and the right length for the options that are read. -/
def WellFormed : DhcpOption → Prop
  | pad => True
  | option tag value => tag ≠ optionPad ∧ tag ≠ optionEnd ∧ value.length < 256 ∧
      (copied tag ≠ 0 → value.length = copied tag)

/-- The value of a tag. -/
def valueOf (tag : Byte) : DhcpOption → Option (List Byte)
  | pad => none
  | option tag' value => if tag' = tag then some value else none

/-- The last value of a tag. -/
def lastValue (tag : Byte) (options : List DhcpOption) : Option (List Byte) :=
  (options.filterMap (valueOf tag)).getLast?

/-- What the options say, on top of what has been set before. -/
def report (out : Parsed) (options : List DhcpOption) : Parsed where
  ret := ((out.ret ||| if (lastValue optionMsgType options).isSome then 1 else 0) |||
    if (lastValue optionReqIpAddr options).isSome then 2 else 0) |||
    if (lastValue optionServerId options).isSome then 4 else 0
  msgType := ((lastValue optionMsgType options).map (·.headD 0)).getD out.msgType
  reqIpAddr := (lastValue optionReqIpAddr options).getD out.reqIpAddr
  serverId := (lastValue optionServerId options).getD out.serverId

end DhcpOption

open DhcpOption

/-- Whatever lies behind the buffer, the parser reads the received bytes only (those of them that the buffer
takes), and of well-formed options it reports the last one of each kind. -/
def ParsedSafely (msg : List Byte) : Prop :=
  ∀ beyond, (∀ r ∈ (parseDhcpOptions (buffer msg beyond) .unset).1, r < msg.length ∧ r < msgSize) ∧
    ∀ options rest, (∀ o ∈ options, o.WellFormed) →
      (msg.take msgSize).drop optionsOffset = (options.map encode).flatten ++ optionEnd :: rest →
        (parseDhcpOptions (buffer msg beyond) .unset).2 = report .unset options

/-- Pads and options up to an end: the values lie inside, with four bytes behind the length byte of an address
and one behind that of a message type. -/
inductive Delimited : List Byte → Prop where
  | stop (rest : List Byte) : Delimited (optionEnd :: rest)
  | pad {rest : List Byte} : Delimited rest → Delimited (optionPad :: rest)
  | option {tag len : Byte} {value rest : List Byte} : tag ≠ optionPad → tag ≠ optionEnd → value.length = len.toNat →
      copied tag ≤ (value ++ rest).length → Delimited rest → Delimited (tag :: len :: (value ++ rest))

/-! ## What is read -/

section Reads
variable {mem : Nat → Byte} {body : List Byte} {p : Nat} {out : Parsed}

theorem readValue_reads {n : Nat} (hp : p + 2 ≤ n) :
    (∀ r ∈ (readValue mem p out).1, r < n) ↔ p + 2 + copied (mem p) ≤ n := by
  unfold readValue copied
  by_cases htype : mem p = optionMsgType
  · rw [if_pos htype, if_pos htype]
    simp only [List.mem_singleton, forall_eq]
    omega
  · rw [if_neg htype, if_neg htype]
    by_cases hreq : mem p = optionReqIpAddr
    · rw [if_pos hreq, if_pos (.inl hreq)]
      simp only [List.mem_cons, List.not_mem_nil, or_false, forall_eq_or_imp, forall_eq]
      omega
    · rw [if_neg hreq]
      by_cases hid : mem p = optionServerId
      · rw [if_pos hid, if_pos (.inr hid)]
        simp only [List.mem_cons, List.not_mem_nil, or_false, forall_eq_or_imp, forall_eq]
        omega
      · rw [if_neg hid, if_neg (fun h => h.elim hreq hid)]
        simpa using hp

theorem Delimited.ne_nil {bytes : List Byte} (h : Delimited bytes) : bytes ≠ [] := by
  cases h <;> exact List.cons_ne_nil _ _

theorem pad_of_delimited {rest : List Byte} (h : Delimited (optionPad :: rest)) : Delimited rest := by
  generalize hbytes : optionPad :: rest = bytes at h
  cases h with
  | stop => exact absurd (List.cons.inj hbytes).1 (by decide)
  | pad h => exact (List.cons.inj hbytes).2 ▸ h
  | option hpad => exact absurd (List.cons.inj hbytes).1.symm hpad

theorem option_of_delimited {tag : Byte} {bytes : List Byte} (h : Delimited (tag :: bytes)) (hpad : tag ≠ optionPad)
    (hend : tag ≠ optionEnd) : ∃ len value rest, bytes = len :: (value ++ rest) ∧ value.length = len.toNat ∧
      copied tag ≤ (value ++ rest).length ∧ Delimited rest := by
  cases h with
  | stop => exact absurd rfl hend
  | pad => exact absurd rfl hpad
  | option _ _ hlen hcopied hrest => exact ⟨_, _, _, rfl, hlen, hcopied, hrest⟩

/-- From any place on, the reads stay inside exactly where the bytes up to an end do. -/
theorem parseLoop_reads (hlen : body.length ≤ msgSize) (hmem : ∀ i (hi : i < body.length), mem i = body[i]) :
    (∀ r ∈ (parseLoop mem p out).1, r < body.length) ↔ Delimited (body.drop p) := by
  have hcons : ∀ {q : Nat}, q < body.length → body.drop q = mem q :: body.drop (q + 1) := fun hq => by
    rw [hmem _ hq, List.drop_eq_getElem_cons hq]
  have hlt : ∀ {q : Nat}, Delimited (body.drop q) → q < body.length := fun h => by
    by_contra hle
    exact h.ne_nil (List.drop_eq_nil_of_le (by omega))
  fun_induction parseLoop mem p out with
  | case1 p out hstop =>
    simp only [List.mem_singleton, forall_eq]
    constructor
    · intro hp
      rw [hcons hp, hstop.resolve_right (by omega)]
      exact .stop _
    · exact hlt
  | case2 p out hgo hpad ih =>
    simp only [List.mem_cons, forall_eq_or_imp, ih]
    constructor
    · rintro ⟨hp, hrest⟩
      rw [hcons hp, hpad]
      exact .pad hrest
    · intro h
      have hp := hlt h
      rw [hcons hp, hpad] at h
      exact ⟨hp, pad_of_delimited h⟩
  | case3 p out hgo hpad len value next ih =>
    have hend : mem p ≠ optionEnd := fun h => hgo (.inl h)
    have hnext : (∀ r ∈ next.1, r < body.length) ↔ Delimited (body.drop (p + 2 + len)) := ih
    rw [List.forall_mem_cons, List.forall_mem_cons, List.forall_mem_append, hnext]
    constructor
    · rintro ⟨hp, hp', hvalue, hrest⟩
      have hq := hlt hrest
      rw [readValue_reads (by omega)] at hvalue
      have hcut : (body.drop (p + 2)).take len ++ body.drop (p + 2 + len) = body.drop (p + 2) := by
        have hdrop : body.drop (p + 2 + len) = (body.drop (p + 2)).drop len := List.drop_drop.symm
        rw [hdrop, List.take_append_drop]
      have hsplit : body.drop p = mem p :: mem (p + 1) :: ((body.drop (p + 2)).take len ++ body.drop (p + 2 + len)) := by
        rw [hcons hp, hcons hp', hcut]
      rw [hsplit]
      refine .option hpad hend ?_ ?_ hrest
      · rw [List.length_take, List.length_drop]
        omega
      · rw [hcut, List.length_drop]
        omega
    · intro h
      have hp := hlt h
      rw [hcons hp] at h
      obtain ⟨tagLen, val, rest, hbytes, hval, hcopied, hrest⟩ := option_of_delimited h hpad hend
      have hp' : p + 1 < body.length := by
        by_contra hle
        rw [List.drop_eq_nil_of_le (by omega)] at hbytes
        nomatch hbytes
      have htail := hbytes
      rw [hcons hp'] at htail
      obtain ⟨htag, htail⟩ := List.cons.inj htail
      have hlen' : val.length = len := by
        rw [hval, ← htag]
      have hrest' : body.drop (p + 2 + len) = rest := by
        have hdrop : body.drop (p + 2 + len) = (body.drop (p + 1 + 1)).drop len := List.drop_drop.symm
        rw [hdrop, htail, List.drop_left' hlen']
      have htotal := congrArg List.length htail
      rw [List.length_drop] at htotal
      refine ⟨hp, hp', ?_, by rw [hrest']; exact hrest⟩
      rw [readValue_reads (by omega)]
      omega

end Reads

/-! ## What is reported -/

section Report
variable {mem : Nat → Byte} {body : List Byte} {out : Parsed} {tag : Byte} {value : List Byte}
  {options : List DhcpOption}

theorem lastValue_pad : lastValue tag (.pad :: options) = lastValue tag options := rfl

theorem lastValue_same : lastValue tag (.option tag value :: options) = some ((lastValue tag options).getD value) := by
  have hvalue : valueOf tag (.option tag value) = some value := if_pos rfl
  rw [lastValue, List.filterMap_cons, hvalue, List.getLast?_cons]
  rfl

theorem lastValue_other {tag' : Byte} (h : tag' ≠ tag) :
    lastValue tag (.option tag' value :: options) = lastValue tag options := by
  have hvalue : valueOf tag (.option tag' value) = none := if_neg h
  rw [lastValue, List.filterMap_cons, hvalue]
  rfl

/-- What one option writes. -/
def applied (out : Parsed) (tag : Byte) (value : List Byte) : Parsed :=
  if tag = optionMsgType then { out with msgType := value.headD 0, ret := out.ret ||| 1 }
  else if tag = optionReqIpAddr then { out with reqIpAddr := value, ret := out.ret ||| 2 }
  else if tag = optionServerId then { out with serverId := value, ret := out.ret ||| 4 }
  else out

theorem or_again (x m : Byte) (c : Bool) : (x ||| m) ||| (if c then m else 0) = x ||| m := by
  cases c with
  | false => exact BitVec.or_zero
  | true => exact (BitVec.or_assoc x m m).trans (congrArg (x ||| ·) BitVec.or_self)

theorem or_swap (x m n : Byte) : (x ||| m) ||| n = (x ||| n) ||| m := by
  rw [BitVec.or_assoc, BitVec.or_comm m, BitVec.or_assoc]

theorem or_last (x m a b : Byte) (c : Bool) :
    ((x ||| a) ||| b) ||| m = (((x ||| m) ||| a) ||| b) ||| if c then m else 0 := by
  rw [or_swap x m, or_swap (x ||| a) m, or_again]

/-- The first option writes, the others report on top of that. -/
theorem report_option : report out (.option tag value :: options) = report (applied out tag value) options := by
  by_cases htype : tag = optionMsgType
  · subst htype
    have hreq : lastValue optionReqIpAddr (.option optionMsgType value :: options) = lastValue optionReqIpAddr options :=
      lastValue_other (by decide)
    have hid : lastValue optionServerId (.option optionMsgType value :: options) = lastValue optionServerId options :=
      lastValue_other (by decide)
    simp only [report, applied, lastValue_same, hreq, hid, if_true, Option.isSome_some, or_again, Option.map_some,
      Option.getD_some, Option.getD_map]
  · by_cases hreq : tag = optionReqIpAddr
    · subst hreq
      have hty : lastValue optionMsgType (.option optionReqIpAddr value :: options) = lastValue optionMsgType options :=
        lastValue_other (by decide)
      have hid : lastValue optionServerId (.option optionReqIpAddr value :: options) = lastValue optionServerId options :=
        lastValue_other (by decide)
      simp only [report, applied, lastValue_same, hty, hid, if_neg htype, if_true, Option.isSome_some,
        Option.getD_some, or_swap out.ret 2, or_again]
    · by_cases hid : tag = optionServerId
      · subst hid
        have hty : lastValue optionMsgType (.option optionServerId value :: options) = lastValue optionMsgType options :=
          lastValue_other (by decide)
        have hrq : lastValue optionReqIpAddr (.option optionServerId value :: options) =
            lastValue optionReqIpAddr options := lastValue_other (by decide)
        simp only [report, applied, lastValue_same, hty, hrq, if_neg htype, if_neg hreq, if_true, Option.isSome_some,
          Option.getD_some]
        exact congrArg (Parsed.mk · _ _ _) (or_last _ _ _ _ _)
      · simp only [report, applied, if_neg htype, if_neg hreq, if_neg hid, lastValue_other htype, lastValue_other hreq,
          lastValue_other hid]

/-- The parser writes what a well-formed option says. -/
theorem readValue_applied {p : Nat} (hmem : ∀ k (hk : k < value.length), mem (p + 2 + k) = value[k])
    (htag : mem p = tag) (hlen : copied tag ≠ 0 → value.length = copied tag) :
    (readValue mem p out).2 = applied out tag value := by
  have hfour : copied tag = 4 → copyAddr mem (p + 2) = value := by
    intro hcopied
    obtain ⟨a, b, c, d, rfl⟩ := List.length_eq_four.mp ((hlen (by omega)).trans hcopied)
    have h₀ : mem (p + 2) = a := hmem 0 (by simp)
    have h₁ : mem (p + 2 + 1) = b := hmem 1 (by simp)
    have h₂ : mem (p + 2 + 2) = c := hmem 2 (by simp)
    have h₃ : mem (p + 2 + 3) = d := hmem 3 (by simp)
    rw [copyAddr, h₀, h₁, h₂, h₃]
  unfold readValue applied
  rw [htag]
  by_cases htype : tag = optionMsgType
  · have hcopied : copied tag = 1 := if_pos htype
    obtain ⟨a, rfl⟩ := List.length_eq_one_iff.mp ((hlen (by omega)).trans hcopied)
    have hfirst : mem (p + 2) = a := hmem 0 (by simp)
    rw [if_pos htype, if_pos htype, hfirst]
    rfl
  · rw [if_neg htype, if_neg htype]
    by_cases hreq : tag = optionReqIpAddr
    · rw [if_pos hreq, if_pos hreq, hfour ((if_neg htype).trans (if_pos (.inl hreq)))]
    · rw [if_neg hreq, if_neg hreq]
      by_cases hid : tag = optionServerId
      · rw [if_pos hid, if_pos hid, hfour ((if_neg htype).trans (if_pos (.inr hid)))]
      · rw [if_neg hid, if_neg hid]

theorem parseLoop_report (hlen : body.length ≤ msgSize) (hmem : ∀ i (hi : i < body.length), mem i = body[i])
    {rest : List Byte} : ∀ {p out}, (∀ o ∈ options, o.WellFormed) →
      body.drop p = (options.map encode).flatten ++ optionEnd :: rest → (parseLoop mem p out).2 = report out options := by
  have hget : ∀ {q : Nat} {b : Byte} {bytes : List Byte}, body.drop q = b :: bytes →
      q < body.length ∧ mem q = b ∧ body.drop (q + 1) = bytes := by
    intro q b bytes h
    have hq : q < body.length := by
      by_contra hle
      rw [List.drop_eq_nil_of_le (by omega)] at h
      nomatch h
    rw [List.drop_eq_getElem_cons hq] at h
    exact ⟨hq, (hmem q hq).trans (List.cons.inj h).1, (List.cons.inj h).2⟩
  induction options with
  | nil =>
    intro p out _ h
    obtain ⟨-, hend, -⟩ := hget h
    rw [parseLoop, if_pos (.inl hend)]
    have hzero : ∀ x : Byte, x ||| 0 = x := fun _ => BitVec.or_zero
    have hret : ((out.ret ||| 0) ||| 0) ||| 0 = out.ret := by
      rw [hzero, hzero, hzero]
    exact (congrArg (Parsed.mk · out.msgType out.reqIpAddr out.serverId) hret).symm
  | cons o options ih =>
    intro p out hall h
    have hrest := fun o ho => hall o (List.mem_cons_of_mem _ ho)
    cases o with
    | pad =>
      obtain ⟨hp, hpad, htail⟩ := hget h
      rw [parseLoop, if_neg, if_pos hpad]
      · exact ih hrest htail
      · rw [hpad]
        rintro (hend | hle)
        · exact absurd hend (by decide)
        · omega
    | option tag value =>
      obtain ⟨hpad, hend, hshort, hcopied⟩ := hall _ List.mem_cons_self
      obtain ⟨hp, htag, htail⟩ := hget h
      obtain ⟨hp', hlength, htail⟩ := hget htail
      have htail : body.drop (p + 1 + 1) = value ++ ((options.map encode).flatten ++ optionEnd :: rest) :=
        htail.trans (List.append_assoc _ _ _)
      have hvalue : (mem (p + 1)).toNat = value.length := by
        rw [hlength, BitVec.toNat_ofNat]
        exact Nat.mod_eq_of_lt hshort
      rw [parseLoop, if_neg, if_neg (htag ▸ hpad), report_option]
      · have hdrop : body.drop (p + 2 + value.length) = (options.map encode).flatten ++ optionEnd :: rest := by
          have hsplit : body.drop (p + 2 + value.length) = (body.drop (p + 1 + 1)).drop value.length :=
            List.drop_drop.symm
          rw [hsplit, htail, List.drop_left]
        have hbytes : ∀ k (hk : k < value.length), mem (p + 2 + k) = value[k] := by
          intro k hk
          have hk' : body[p + 2 + k]? = some value[k] := by
            have h := congrArg (·[k]?) htail
            simp only [List.getElem?_drop] at h
            rw [h, List.getElem?_append_left hk, List.getElem?_eq_getElem hk]
          obtain ⟨hlt, hget⟩ := List.getElem?_eq_some_iff.mp hk'
          rw [hmem _ hlt, hget]
        dsimp only
        rw [hvalue, readValue_applied hbytes htag hcopied]
        exact ih hrest hdrop
      · rw [htag]
        rintro (h | hle)
        · exact hend h
        · omega

end Report

/-! ## Main result -/

theorem buffer_eq {msg : List Byte} (beyond : Nat → Byte) {i : Nat} (hi : i < (msg.take msgSize).length) :
    buffer msg beyond i = (msg.take msgSize)[i] := by
  rw [List.length_take] at hi
  rw [buffer, if_pos (by omega), List.getElem_take, List.getD_eq_getElem?_getD, List.getElem?_eq_getElem (by omega),
    Option.getD_some]

theorem reads_iff (msg : List Byte) (beyond : Nat → Byte) :
    (∀ r ∈ (parseDhcpOptions (buffer msg beyond) .unset).1, r < msg.length ∧ r < msgSize) ↔
      Delimited ((msg.take msgSize).drop optionsOffset) := by
  have hlen : (msg.take msgSize).length ≤ msgSize := by
    rw [List.length_take]
    omega
  have hreads := @parseLoop_reads (buffer msg beyond) (msg.take msgSize) optionsOffset .unset hlen fun i hi =>
    buffer_eq beyond hi
  rw [← hreads]
  apply forall₂_congr
  intro r _
  rw [List.length_take]
  omega

/-- The parser is safe exactly on the messages whose options are delimited. -/
theorem parsedSafely_iff (msg : List Byte) : ParsedSafely msg ↔ Delimited ((msg.take msgSize).drop optionsOffset) := by
  constructor
  · intro h
    exact (reads_iff msg fun _ => 0).mp (h fun _ => 0).1
  · intro h beyond
    refine ⟨(reads_iff msg beyond).mpr h, fun options rest hall hbytes => ?_⟩
    have hlen : (msg.take msgSize).length ≤ msgSize := by
      rw [List.length_take]
      omega
    exact parseLoop_report hlen (fun i hi => buffer_eq beyond hi) hall hbytes

theorem delimited_pads {rest : List Byte} (n : Nat) (h : Delimited (List.replicate n optionPad ++ rest)) :
    Delimited rest := by
  induction n with
  | zero => exact h
  | succ n ih => exact ih (pad_of_delimited h)

theorem delimited_drop {tag len : Byte} {bytes : List Byte} (h : Delimited (tag :: len :: bytes))
    (hpad : tag ≠ optionPad) (hend : tag ≠ optionEnd) : Delimited (bytes.drop len.toNat) := by
  obtain ⟨len', value, rest, hbytes, hlen, -, hrest⟩ := option_of_delimited h hpad hend
  obtain ⟨rfl, rfl⟩ := List.cons.inj hbytes
  rwa [List.drop_left' hlen]

/-- The fixed part of a request. -/
def requestHeader : List Byte := [1, 1, 6, 0] ++ List.replicate 232 0 ++ [0x63, 0x82, 0x53, 0x63]

/-- A DISCOVER without an end, and one whose last option has its length byte at the end of the buffer. -/
theorem not_parsedSafely_discover : ¬ ParsedSafely (requestHeader ++ [optionMsgType, 1, 1]) ∧
    ¬ ParsedSafely (requestHeader ++ [optionMsgType, 1, 1] ++ List.replicate 303 optionPad ++ [12, 255]) := by
  constructor
  · intro h
    have hdelimited := (reads_iff _ fun _ => 0).mp (h fun _ => 0).1
    have hoptions : ((requestHeader ++ [optionMsgType, 1, 1]).take msgSize).drop optionsOffset = [optionMsgType, 1, 1] := by
      decide +kernel
    rw [hoptions] at hdelimited
    exact (delimited_drop hdelimited (by decide) (by decide)).ne_nil rfl
  · intro h
    have hdelimited := (reads_iff _ fun _ => 0).mp (h fun _ => 0).1
    have hoptions : ((requestHeader ++ [optionMsgType, 1, 1] ++ List.replicate 303 optionPad ++ [12, 255]).take
        msgSize).drop optionsOffset = optionMsgType :: 1 :: 1 :: (List.replicate 303 optionPad ++ [12, 255]) := by
      decide +kernel
    rw [hoptions] at hdelimited
    have hpads := delimited_drop hdelimited (by decide) (by decide)
    exact (delimited_drop (delimited_pads 303 hpads) (by decide) (by decide)).ne_nil rfl

end WmIot.Dhcp
