import WmIot.Dns.Server

/-!
# Reading a query

The handler trusts the packet to have a header, a name with a NUL, type and class. The comparison of
the name goes by the length bytes, and a zero inside of a label does not stop it.
-/

namespace WmIot.Dns.Server
open CString
set_option autoImplicit false

/-- The bytes are those of the memory from `p` on. -/
def AgreesWith (mem : Int → Byte) (p : Int) (bytes : List Byte) : Prop :=
  ∀ (i : Nat) (b : Byte), bytes[i]? = some b → mem (p + i) = b

/-- A length byte and not a compressed name -/
def Plain (n : Byte) : Prop := n &&& 0xc0#8 ≠ 0xc0#8

/-- Labels that agree with the memory, the last of them cut off by the end of the bytes. -/
inductive CutOff (mem : Int → Byte) : Int → List Byte → Prop where
  | within {p : Int} {n : Byte} {part : List Byte} : Plain n → part.length < n.toNat →
      AgreesWith mem p part → CutOff mem p (n :: part)
  | behind {p : Int} {n : Byte} {label : List Byte} : Plain n → label.length = n.toNat →
      AgreesWith mem p label → CutOff mem p (n :: label)
  | next {p : Int} {n b : Byte} {label rest : List Byte} : Plain n → label.length = n.toNat →
      AgreesWith mem p label → b ≠ 0#8 → CutOff mem (p + n.toNat + 1) (b :: rest) →
      CutOff mem p (n :: (label ++ b :: rest))

/-- The question of a packet: a name up to its NUL, then type and class. -/
structure HasQuestion (payload name typeClass : List Byte) : Prop where
  split : ∃ rest, payload.drop 12 = name ++ 0#8 :: (typeClass ++ rest)
  nonzero : 0#8 ∉ name
  length : typeClass.length = 4

/-- A reply has the id and the question of the query; it is an error without a record or has one record
of type A with the server's address. -/
def GoodReply (s : Server) (payload reply : List Byte) : Prop :=
  ∃ name typeClass, HasQuestion payload name typeClass ∧
    (reply = payload.take 2 ++ [0x80, 3, 0, 1, 0, 0, 0, 0, 0, 0] ++ (name ++ 0#8 :: typeClass) ∨
      reply = payload.take 2 ++ [0x80, 0, 0, 1, 0, 1, 0, 0, 0, 0] ++ (name ++ 0#8 :: typeClass) ++
        ([0xC0, 0x0C, 0, 1, 0, 1, 0, 0, 0x0E, 0x10, 0, 4] ++ s.hostIp))

/-- Whatever the interfaces and the allocations, the handler reads inside of the packet and its reply is
good. -/
def HandledSafely (s : Server) (payload : List Byte) : Prop :=
  ∀ netif m, ∃ o, recvCb s netif m payload = some o ∧
    ∀ reply, o = .replied reply → GoodReply s payload reply

/-- The packet has what the handler reads of it. -/
def Contained (s : Server) (payload : List Byte) : Prop :=
  ∃ flag1, payload[2]? = some flag1 ∧
    ((flag1 &&& dnsFlag1Response ≠ 0#8 ∨ flag1 &&& 0x78#8 ≠ dnsFlag1OpcodeStandard) ∨
      ∃ name typeClass, HasQuestion payload name typeClass ∧
        ((typeClass.drop 2 ≠ dnsRrclassIn ∧ typeClass.take 2 ≠ dnsRrtypeA) ∨
          name = [] ∨ nameSize + 1 < name.length ∨ ¬ CutOff s.mem 0 (payload.drop 12)))

section Compare
variable {mem : Int → Byte} {p : Int}

theorem agreesWith_cons {b : Byte} {bytes : List Byte} :
    AgreesWith mem p (b :: bytes) ↔ mem p = b ∧ AgreesWith mem (p + 1) bytes := by
  constructor
  · intro h
    refine ⟨?_, fun i b' hb' => ?_⟩
    · have hzero := h 0 b rfl
      rwa [Int.natCast_zero, Int.add_zero] at hzero
    · have hsucc := h (i + 1) b' hb'
      rwa [Int.natCast_succ, Int.add_comm (i : Int) 1, ← Int.add_assoc] at hsucc
  · rintro ⟨hhead, htail⟩ i b' hb'
    cases i with
    | zero =>
      cases hb'
      rwa [Int.natCast_zero, Int.add_zero]
    | succ i =>
      rw [Int.natCast_succ, Int.add_comm (i : Int) 1, ← Int.add_assoc]
      exact htail i b' hb'

theorem agreesWith_nil : AgreesWith mem p [] := fun _ _ h => nomatch h

theorem compareLabel_none_iff : ∀ {n : Nat} {p : Int} {query : List Byte},
    compareLabel (fun i => some (mem i)) n p query = none ↔
      query.length < n ∧ AgreesWith mem p query := by
  intro n
  induction n with
  | zero => exact fun {p query} => ⟨nofun, fun h => absurd h.1 (Nat.not_lt_zero _)⟩
  | succ n ih =>
    intro p query
    cases query with
    | nil => exact ⟨fun _ => ⟨Nat.succ_pos n, agreesWith_nil⟩, fun _ => rfl⟩
    | cons b query =>
      rw [compareLabel, Option.bind_some, agreesWith_cons, List.length_cons, Nat.succ_lt_succ_iff]
      by_cases hne : mem p ≠ b
      · rw [if_pos hne]
        exact ⟨nofun, fun h => absurd h.2.1 hne⟩
      · rw [if_neg hne, ih]
        simp [not_not.mp hne]

theorem compareLabel_some_iff {rest : List Byte} : ∀ {n : Nat} {p : Int} {query : List Byte},
    compareLabel (fun i => some (mem i)) n p query = some (some rest) ↔
      ∃ label, query = label ++ rest ∧ label.length = n ∧ AgreesWith mem p label := by
  intro n
  induction n with
  | zero =>
    intro p query
    rw [compareLabel, Option.some.injEq, Option.some.injEq]
    constructor
    · rintro rfl
      exact ⟨[], rfl, rfl, agreesWith_nil⟩
    · rintro ⟨label, rfl, hlen, -⟩
      rw [List.eq_nil_of_length_eq_zero hlen, List.nil_append]
  | succ n ih =>
    intro p query
    cases query with
    | nil =>
      refine ⟨nofun, ?_⟩
      rintro ⟨label, happend, hlen, -⟩
      rw [(List.append_eq_nil_iff.mp happend.symm).1] at hlen
      cases hlen
    | cons b query =>
      rw [compareLabel, Option.bind_some]
      constructor
      · intro h
        by_cases hne : mem p ≠ b
        · rw [if_pos hne] at h
          cases h
        · rw [if_neg hne] at h
          obtain ⟨label, rfl, hlen, hagree⟩ := ih.mp h
          exact ⟨b :: label, rfl, congrArg Nat.succ hlen, agreesWith_cons.mpr ⟨not_not.mp hne, hagree⟩⟩
      · rintro ⟨label, happend, hlen, hagree⟩
        cases label with
        | nil => cases hlen
        | cons b' label =>
          rw [List.cons_append, List.cons.injEq] at happend
          obtain ⟨rfl, rfl⟩ := happend
          obtain ⟨hhead, htail⟩ := agreesWith_cons.mp hagree
          rw [if_neg (not_not.mpr hhead)]
          exact ih.mpr ⟨label, rfl, Nat.succ_inj.mp hlen, htail⟩

/-- The comparison leaves the packet where the labels agree with the memory up to its end. -/
theorem compareLabels_none_iff : ∀ {fuel : Nat} {p : Int} {n : Byte} {query : List Byte},
    query.length < fuel →
    (compareLabels (fun i => some (mem i)) fuel p (n :: query) = none ↔ CutOff mem p (n :: query)) := by
  intro fuel
  induction fuel with
  | zero => exact fun h => absurd h (Nat.not_lt_zero _)
  | succ fuel ih =>
    intro p n query hfuel
    rw [compareLabels]
    by_cases hplain : n &&& 0xc0#8 = 0xc0#8
    · rw [if_pos hplain]
      refine ⟨nofun, fun h => ?_⟩
      cases h with
      | within hn => exact absurd hplain hn
      | behind hn => exact absurd hplain hn
      | next hn => exact absurd hplain hn
    · rw [if_neg hplain]
      rcases hlabel : compareLabel (fun i => some (mem i)) n.toNat p query with _ | _ | rest
      · obtain ⟨hlt, hagree⟩ := compareLabel_none_iff.mp hlabel
        exact ⟨fun _ => .within hplain hlt hagree, fun _ => rfl⟩
      · -- a difference; none of the ways to be cut off leads here
        refine ⟨nofun, fun h => ?_⟩
        cases h with
        | within _ hlt hagree =>
          rw [compareLabel_none_iff.mpr ⟨hlt, hagree⟩] at hlabel
          cases hlabel
        | behind _ hlen hagree =>
          rw [compareLabel_some_iff.mpr ⟨query, (List.append_nil query).symm, hlen, hagree⟩] at hlabel
          cases hlabel
        | next _ hlen hagree =>
          rw [compareLabel_some_iff.mpr ⟨_, rfl, hlen, hagree⟩] at hlabel
          cases hlabel
      · obtain ⟨label, rfl, hlen, hagree⟩ := compareLabel_some_iff.mp hlabel
        cases rest with
        | nil =>
          rw [List.append_nil]
          exact ⟨fun _ => .behind hplain hlen hagree, fun _ => rfl⟩
        | cons b rest =>
          rw [List.length_append, List.length_cons] at hfuel
          have hrest : compareLabels (fun i => some (mem i)) fuel (p + n.toNat + 1) (b :: rest) = none ↔
              CutOff mem (p + n.toNat + 1) (b :: rest) := ih (by omega)
          dsimp only
          have hcut : CutOff mem p (n :: (label ++ b :: rest)) ↔
              b ≠ 0#8 ∧ CutOff mem (p + n.toNat + 1) (b :: rest) := by
            constructor
            · intro h
              generalize hq : label ++ b :: rest = query at h
              cases h with
              | within _ hlt =>
                rw [← hq, List.length_append] at hlt
                omega
              | behind _ hlen' =>
                rw [← hq, List.length_append, List.length_cons] at hlen'
                omega
              | next _ hlen' _ hb hnext =>
                obtain ⟨-, hrest'⟩ := List.append_inj hq (hlen.trans hlen'.symm)
                cases hrest'
                exact ⟨hb, hnext⟩
            · exact fun h => .next hplain hlen hagree h.1 h.2
          rw [hcut]
          by_cases hb : b ≠ 0#8
          · rw [if_pos hb, hrest]
            exact ⟨fun h => ⟨hb, h⟩, fun h => h.2⟩
          · rw [if_neg hb]
            exact ⟨nofun, fun h => absurd h.1 hb⟩

end Compare

section Handler
variable {s : Server} {payload name typeClass : List Byte}

theorem HasQuestion.strlen (h : HasQuestion payload name typeClass) :
    strlen (payload.drop 12) = some name.length := by
  obtain ⟨rest, hsplit⟩ := h.split
  rw [hsplit]
  exact strlen_append h.nonzero _

theorem HasQuestion.take (h : HasQuestion payload name typeClass) :
    (payload.drop 12).take name.length = name := by
  obtain ⟨rest, hsplit⟩ := h.split
  rw [hsplit]
  exact List.take_left

theorem HasQuestion.query (h : HasQuestion payload name typeClass) :
    ((payload.drop 12).drop (name.length + 1)).take 4 = typeClass := by
  obtain ⟨rest, hsplit⟩ := h.split
  rw [hsplit, ← List.drop_drop, List.drop_left, List.drop_one, List.tail_cons, ← h.length]
  exact List.take_left

theorem hasQuestion_of_strlen {len : Nat} (hlen : strlen (payload.drop 12) = some len)
    (hfour : ¬ (((payload.drop 12).drop (len + 1)).take 4).length < 4) :
    ∃ name typeClass, HasQuestion payload name typeClass := by
  obtain ⟨name, rest, hsplit, hnonzero, rfl⟩ := strlen_eq_some_iff.mp hlen
  rw [hsplit, ← List.drop_drop, List.drop_left, List.drop_one, List.tail_cons] at hfour
  refine ⟨name, rest.take 4, ⟨rest.drop 4, ?_⟩, hnonzero, ?_⟩
  · rw [List.take_append_drop]
    exact hsplit
  · rw [List.length_take] at hfour ⊢
    omega

theorem dnsCompareName_none_iff (hsize : payload.length < 2 ^ 16)
    (h : HasQuestion payload name typeClass) :
    dnsCompareName (fun i => some (s.mem i)) (payload.drop 12) = none ↔
      ¬ (name = [] ∨ nameSize + 1 < name.length) ∧ CutOff s.mem 0 (payload.drop 12) := by
  have hlong : 32 < (name.length + 2 ^ 32 - 1) % 2 ^ 32 ↔ name = [] ∨ nameSize + 1 < name.length := by
    obtain ⟨rest, hsplit⟩ := h.split
    have hlen : name.length < 2 ^ 16 := by
      have htotal := congrArg List.length hsplit
      rw [List.length_append, List.length_drop] at htotal
      omega
    rw [← List.length_eq_zero_iff, nameSize]
    omega
  rw [dnsCompareName, h.strlen, Option.bind_some]
  by_cases hskip : name = [] ∨ nameSize + 1 < name.length
  · rw [if_pos (hlong.mpr hskip)]
    exact ⟨nofun, fun hnot => absurd hskip hnot.1⟩
  · rw [if_neg fun hlt => hskip (hlong.mp hlt)]
    cases hname : payload.drop 12 with
    | nil =>
      have hnone := h.strlen
      rw [hname] at hnone
      cases hnone
    | cons n query =>
      rw [compareLabels_none_iff (by rw [List.length_cons]; exact Nat.lt_succ_self _)]
      exact ⟨fun hcut => ⟨hskip, hcut⟩, fun hcut => hcut.2⟩

/-- The handler behind its reads. -/
theorem recvCb_question {flag1 : Byte} {netif : Bool} {m : Memory} (hmsg : m.msg = true)
    (hflag : payload[2]? = some flag1)
    (hquery : ¬ (flag1 &&& dnsFlag1Response ≠ 0#8 ∨ flag1 &&& 0x78#8 ≠ dnsFlag1OpcodeStandard))
    (h : HasQuestion payload name typeClass) :
    recvCb s netif m payload =
      if typeClass.drop 2 ≠ dnsRrclassIn ∧ typeClass.take 2 ≠ dnsRrtypeA then some .dropped
      else
        (dnsCompareName (fun i => some (s.mem i)) (payload.drop 12)).bind fun r =>
        if r ≠ 0 ∧ ¬ s.froceLocal then
          if netif then some .proxied
          else some (m.send (dnsNameErrGen typeClass name (payload.take 2)))
        else some (m.send (dnsAnswerGen s typeClass name (payload.take 2))) := by
  unfold recvCb
  rw [if_neg (not_not.mpr hmsg), hflag, Option.bind_some, if_neg hquery]
  dsimp only
  rw [h.strlen, Option.bind_some, h.query, if_neg (by rw [h.length]; omega), h.take]

theorem send_good {m : Memory} {reply : List Byte} (h : GoodReply s payload reply) :
    ∀ r, m.send reply = .replied r → GoodReply s payload r := by
  intro r hr
  unfold Memory.send at hr
  split at hr
  · cases hr
    exact h
  · cases hr

end Handler

section Example

/-- A server of the name "wm.cn" and the address 192.168.1.1 -/
def wmServer : Server :=
  { mem := fun i => (lit "wm.cn" ++ List.replicate 27 0 ++ [192, 168, 1, 1]).getD i.toNat 0
    froceLocal := false }

/-- A standard query, with its question -/
def query (question : List Byte) : List Byte := [0x12, 0x34, 1, 0, 0, 1, 0, 0, 0, 0, 0, 0] ++ question

/-- A server that stops on a packet does not handle it safely. -/
theorem not_handledSafely_of_none {s : Server} {payload : List Byte}
    (h : recvCb s false ⟨true, true, true⟩ payload = none) : ¬ HandledSafely s payload := by
  intro hsafe
  obtain ⟨o, ho, -⟩ := hsafe false ⟨true, true, true⟩
  rw [h] at ho
  cases ho

end Example

end WmIot.Dns.Server
