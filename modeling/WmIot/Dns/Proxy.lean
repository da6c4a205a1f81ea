import WmIot.Lib.Transition

/-!
# The DNS proxy

All clients share the record of one client, one socket to the upstream servers and one index of the
server in use. What has been asked, sent, answered and delivered is kept beside the state as history.
-/

namespace WmIot.Dns
open Transition
set_option autoImplicit false

/-- `DNS_MAX_SERVERS` -/
abbrev dnsMaxServers : Nat := 2

/-- The address 0 is the any address, an upstream slot that is not configured. -/
abbrev IpAddr := BitVec 32

/-- `dns_client_info_t` -/
structure ClientInfo where
  addr : IpAddr
  port : UInt16
deriving DecidableEq, Repr

structure Query where
  client : ClientInfo
  transactionId : UInt16
deriving DecidableEq, Repr

/-- What a timer of `dnss_proxy_timeout` was registered with. -/
inductive TimerArg where
  | null
  | curDnsIdx
deriving DecidableEq, Repr

/-- A pending timer and the query it was set for. -/
structure Timer where
  arg : TimerArg
  query : Nat
deriving DecidableEq, Repr

/-- A call of `_DNSS_Proxy`, the upstream slots then, and the server the query was sent to. -/
structure Call where
  query : Query
  servers : Nat → IpAddr
  sentTo : Option IpAddr

/-- A timeout and whether a response had come for its query. -/
structure Fired where
  query : Nat
  answered : Bool
deriving DecidableEq, Repr

structure Delivery where
  client : ClientInfo
  transactionId : UInt16
deriving DecidableEq, Repr

structure Proxy where
  curDnsIdx : Nat
  clientInfo : ClientInfo
  /-- whether `dns_pcbs` is made and bound -/
  dnsPcbs : Bool
  servers : Nat → IpAddr
  /-- in the order of their expiry; all run for ten seconds -/
  timers : List Timer
  calls : List Call
  answered : List Nat
  delivered : List Delivery
  fired : List Fired

def noClient : ClientInfo := ⟨0, 0⟩

def Init (s : Proxy) : Prop :=
  s.curDnsIdx = 0 ∧ s.clientInfo = noClient ∧ s.dnsPcbs = false ∧ s.timers = [] ∧ s.calls = [] ∧
    s.answered = [] ∧ s.delivered = [] ∧ s.fired = []

def dnsGetserver (servers : Nat → IpAddr) (numdns : Nat) : IpAddr :=
  if numdns < dnsMaxServers then servers numdns else 0

/-- `for (; cur_dns_idx < DNS_MAX_SERVERS; cur_dns_idx++)`, with `dst`, `none` where it is `NULL`. -/
def scanServers (servers : Nat → IpAddr) : Nat → Nat → Option IpAddr → Nat × Option IpAddr
  | 0, idx, dst => (idx, dst)
  | fuel + 1, idx, dst =>
    if idx < dnsMaxServers then
      if dnsGetserver servers idx ≠ 0 then (idx, some (dnsGetserver servers idx))
      else scanServers servers fuel (idx + 1) (some (dnsGetserver servers idx))
    else (idx, dst)

/-- `_DNSS_Proxy`; `pcb`, `pbuf` and `timer` are whether the memory for each can be had. -/
def dnssProxy (s : Proxy) (q : Query) (pcb pbuf timer : Bool) : Proxy :=
  if ¬ s.dnsPcbs ∧ ¬ pcb then { s with calls := s.calls ++ [⟨q, s.servers, none⟩] }
  else
    let (idx, dst) := scanServers s.servers dnsMaxServers s.curDnsIdx none
    let s' := { s with dnsPcbs := true, clientInfo := q.client, curDnsIdx := idx }
    if dst.getD 0 = 0 ∨ ¬ pbuf then { s' with calls := s.calls ++ [⟨q, s.servers, none⟩] }
    else
      { s' with
        calls := s.calls ++ [⟨q, s.servers, dst⟩]
        timers := if timer then s.timers ++ [⟨.curDnsIdx, s.calls.length⟩] else s.timers }

def sysUntimeout (timers : List Timer) (arg : TimerArg) : List Timer :=
  timers.eraseP fun t => t.arg = arg

/-- `dns_proxy_recv` for a response to query `n` with id `transactionId` -/
def dnsProxyRecv (s : Proxy) (n : Nat) (transactionId : UInt16) (pbuf : Bool) : Proxy :=
  { s with
    timers := sysUntimeout s.timers .null
    answered := s.answered ++ [n]
    delivered :=
      if pbuf then s.delivered ++ [⟨s.clientInfo, transactionId⟩] else s.delivered }

def dnssProxyTimeout (s : Proxy) (t : Timer) (rest : List Timer) : Proxy :=
  { s with
    timers := rest
    curDnsIdx := (s.curDnsIdx + 1) % dnsMaxServers
    fired := s.fired ++ [⟨t.query, t.query ∈ s.answered⟩] }

def dnsSetserver (servers : Nat → IpAddr) (numdns : Nat) (a : IpAddr) : Nat → IpAddr :=
  if numdns < dnsMaxServers then Function.update servers numdns a else servers

inductive Event where
  | query (q : Query) (pcb pbuf timer : Bool)
  | response (n : Nat) (pbuf : Bool)
  | timeout
  | setserver (numdns : Nat) (a : IpAddr)
deriving DecidableEq, Repr

/-- A response comes to a query that was sent upstream, any number of times. -/
def step (s : Proxy) : Event → Option Proxy
  | .query q pcb pbuf timer => some (dnssProxy s q pcb pbuf timer)
  | .response n pbuf =>
    match s.calls[n]? with
    | some c =>
      if c.sentTo.isSome then some (dnsProxyRecv s n c.query.transactionId pbuf) else none
    | none => none
  | .timeout =>
    match s.timers with
    | t :: rest => some (dnssProxyTimeout s t rest)
    | [] => none
  | .setserver numdns a => some { s with servers := dnsSetserver s.servers numdns a }

section Scan
variable {servers : Nat → IpAddr}

/-- With a configured slot from the index on the scan stops at one. -/
theorem scanServers_found : ∀ {fuel idx : Nat} {dst : Option IpAddr},
    dnsMaxServers ≤ idx + fuel → (∃ i, idx ≤ i ∧ i < dnsMaxServers ∧ servers i ≠ 0) →
    ∃ i, i < dnsMaxServers ∧ servers i ≠ 0 ∧
      scanServers servers fuel idx dst = (i, some (servers i)) := by
  intro fuel
  induction fuel with
  | zero =>
    rintro idx dst hfuel ⟨i, hle, hlt, -⟩
    omega
  | succ fuel ih =>
    rintro idx dst hfuel ⟨i, hle, hlt, hi⟩
    have hidx : idx < dnsMaxServers := by omega
    rw [scanServers, if_pos hidx, dnsGetserver, if_pos hidx]
    by_cases hzero : servers idx = 0
    · rw [if_neg (by simp [hzero])]
      have hne : idx ≠ i := fun heq => hi (heq ▸ hzero)
      exact ih (by omega) ⟨i, by omega, hlt, hi⟩
    · rw [if_pos hzero]
      exact ⟨idx, hidx, hzero, rfl⟩

end Scan

section Step
variable {s s' : Proxy} {q : Query} {pcb pbuf timer : Bool}

/-- A call logs itself, and once there is a socket its client is the client of the record. -/
theorem dnssProxy_calls (s : Proxy) (q : Query) (pcb pbuf timer : Bool) :
    ∃ sentTo, (dnssProxy s q pcb pbuf timer).calls = s.calls ++ [⟨q, s.servers, sentTo⟩] ∧
      (dnssProxy s q pcb pbuf timer).delivered = s.delivered ∧
      (dnssProxy s q pcb pbuf timer).answered = s.answered ∧
      (dnssProxy s q pcb pbuf timer).fired = s.fired ∧
      (((dnssProxy s q pcb pbuf timer).dnsPcbs = true ∧
          (dnssProxy s q pcb pbuf timer).clientInfo = q.client) ∨
        ((dnssProxy s q pcb pbuf timer).dnsPcbs = false ∧ s.dnsPcbs = false ∧ sentTo = none)) := by
  unfold dnssProxy
  by_cases hpcb : ¬ s.dnsPcbs ∧ ¬ pcb
  · rw [if_pos hpcb]
    have hnone : s.dnsPcbs = false := by simpa using hpcb.1
    exact ⟨none, rfl, rfl, rfl, rfl, Or.inr ⟨hnone, hnone, rfl⟩⟩
  · rw [if_neg hpcb]
    rcases scanServers s.servers dnsMaxServers s.curDnsIdx none with ⟨idx, dst⟩
    dsimp only
    by_cases hlost : dst.getD 0 = 0 ∨ ¬ pbuf
    · rw [if_pos hlost]
      exact ⟨none, rfl, rfl, rfl, rfl, Or.inl ⟨rfl, rfl⟩⟩
    · rw [if_neg hlost]
      exact ⟨dst, rfl, rfl, rfl, rfl, Or.inl ⟨rfl, rfl⟩⟩

/-- What a response step is. -/
theorem step_response {n : Nat} (h : step s (.response n pbuf) = some s') :
    ∃ c, s.calls[n]? = some c ∧ c.sentTo.isSome = true ∧
      s' = dnsProxyRecv s n c.query.transactionId pbuf := by
  unfold step at h
  dsimp only at h
  rcases hc : s.calls[n]? with _ | c
  · rw [hc] at h
    cases h
  · rw [hc] at h
    dsimp only at h
    by_cases hsent : c.sentTo.isSome = true
    · rw [if_pos hsent] at h
      cases h
      exact ⟨c, rfl, hsent, rfl⟩
    · rw [if_neg hsent] at h
      cases h

theorem step_timeout (h : step s .timeout = some s') :
    ∃ t rest, s.timers = t :: rest ∧ s' = dnssProxyTimeout s t rest := by
  unfold step at h
  dsimp only at h
  rcases ht : s.timers with _ | ⟨t, rest⟩
  · rw [ht] at h
    cases h
  · rw [ht] at h
    cases h
    exact ⟨t, rest, rfl, rfl⟩

end Step

/-! ## Delivery -/

/-- The client has asked with this id. -/
def Asked (s : Proxy) (client : ClientInfo) (transactionId : UInt16) : Prop :=
  ∃ c ∈ s.calls, c.query.client = client ∧ c.query.transactionId = transactionId

/-- Every forwarded response goes to a client that asked for it. -/
def DeliversToAsker (s : Proxy) : Prop :=
  ∀ d ∈ s.delivered, Asked s d.client d.transactionId

/-- A response comes when the client that asked last has asked with its id. -/
def lastAsked (s : Proxy) : Event → Prop
  | .response n _ => ∀ c ∈ s.calls[n]?, ∀ last ∈ s.calls.getLast?,
      ∃ d ∈ s.calls, d.query.client = last.query.client ∧
        d.query.transactionId = c.query.transactionId
  | _ => True

instance (s : Proxy) : ∀ e, Decidable (lastAsked s e)
  | .response n _ => inferInstanceAs (Decidable (∀ c ∈ s.calls[n]?, ∀ last ∈ s.calls.getLast?,
      ∃ d ∈ s.calls, d.query.client = last.query.client ∧
        d.query.transactionId = c.query.transactionId))
  | .query _ _ _ _ => .isTrue trivial
  | .timeout => .isTrue trivial
  | .setserver _ _ => .isTrue trivial

/-- What a run keeps: the record is of the last client once there is a socket. -/
structure DeliveryInv (s : Proxy) : Prop where
  record : s.dnsPcbs = true → ∀ last ∈ s.calls.getLast?, s.clientInfo = last.query.client
  bound : ∀ c ∈ s.calls, c.sentTo.isSome = true → s.dnsPcbs = true
  delivers : DeliversToAsker s

theorem DeliveryInv.query {s : Proxy} (hinv : DeliveryInv s) (q : Query) (pcb pbuf timer : Bool) :
    DeliveryInv (dnssProxy s q pcb pbuf timer) := by
  obtain ⟨sentTo, hcalls, hdelivered, -, -, hpcb⟩ := dnssProxy_calls s q pcb pbuf timer
  refine ⟨fun hbound last hlast => ?_, fun c hc hsent => ?_, fun d hd => ?_⟩
  · rw [hcalls, List.getLast?_append] at hlast
    rcases hpcb with ⟨-, hclient⟩ | ⟨hno, -, -⟩
    · cases hlast
      exact hclient
    · rw [hno] at hbound
      cases hbound
  · rw [hcalls] at hc
    rcases hpcb with ⟨hyes, -⟩ | ⟨-, hno, hnone⟩
    · exact hyes
    · rcases List.mem_append.mp hc with hc | hc
      · have hbefore := hinv.bound c hc hsent
        rw [hno] at hbefore
        cases hbefore
      · rw [List.mem_singleton.mp hc, hnone] at hsent
        cases hsent
  · rw [hdelivered] at hd
    obtain ⟨c, hc, hasked⟩ := hinv.delivers d hd
    exact ⟨c, by rw [hcalls]; exact List.mem_append_left _ hc, hasked⟩

theorem DeliveryInv.response {s s' : Proxy} (hinv : DeliveryInv s) {n : Nat} {pbuf : Bool}
    (hok : lastAsked s (.response n pbuf)) (hs : step s (.response n pbuf) = some s') :
    DeliveryInv s' := by
  obtain ⟨c, hc, hsent, rfl⟩ := step_response hs
  refine ⟨hinv.record, hinv.bound, fun d hd => ?_⟩
  have hmem := List.mem_of_getElem? hc
  have hpcb := hinv.bound c hmem hsent
  obtain ⟨last, hlast⟩ : ∃ last, s.calls.getLast? = some last := by
    rcases hlast : s.calls.getLast? with _ | last
    · rw [List.getLast?_eq_none_iff.mp hlast] at hmem
      cases hmem
    · exact ⟨last, rfl⟩
  have hold : ∀ d ∈ s.delivered, Asked s d.client d.transactionId := hinv.delivers
  cases pbuf with
  | false => exact hold d hd
  | true =>
    rcases List.mem_append.mp hd with hd | hd
    · exact hold d hd
    · rw [List.mem_singleton.mp hd]
      obtain ⟨e, he, hclient, hid⟩ := hok c hc last hlast
      exact ⟨e, he, by rw [hclient, hinv.record hpcb last hlast], hid⟩

theorem DeliveryInv.step {s s' : Proxy} {e : Event} (hinv : DeliveryInv s) (hok : lastAsked s e)
    (hs : step s e = some s') : DeliveryInv s' := by
  cases e with
  | query q pcb pbuf timer =>
    cases hs
    exact hinv.query q pcb pbuf timer
  | response n pbuf => exact hinv.response hok hs
  | timeout =>
    obtain ⟨t, rest, -, rfl⟩ := step_timeout hs
    exact ⟨hinv.record, hinv.bound, hinv.delivers⟩
  | setserver numdns a =>
    cases hs
    exact ⟨hinv.record, hinv.bound, hinv.delivers⟩

section Example

/-- The proxy before its first query, with one upstream server. -/
def freshProxy : Proxy :=
  ⟨0, noClient, false, fun i => if i = 0 then 0x08080808 else 0, [], [], [], [], []⟩

theorem freshProxy_init : Init freshProxy := ⟨rfl, rfl, rfl, rfl, rfl, rfl, rfl, rfl⟩

def clientA : ClientInfo := ⟨0xC0A80102, 5000⟩
def clientB : ClientInfo := ⟨0xC0A80103, 5001⟩

end Example

/-! ## Upstream servers -/

def Configured (servers : Nat → IpAddr) (i : Nat) : Prop := i < dnsMaxServers ∧ servers i ≠ 0

/-- Every query goes to a configured server if there is one, the index is one of a slot, and only a
query without an answer moves it on. -/
structure NeverStuck (s : Proxy) : Prop where
  index : s.curDnsIdx < dnsMaxServers
  sent : ∀ c ∈ s.calls, (∃ i, Configured c.servers i) →
    ∃ i, Configured c.servers i ∧ c.sentTo = some (c.servers i)
  fired : ∀ f ∈ s.fired, f.answered = false

/-- A query comes while a slot from the index on is configured and there is memory for it, and no
response comes while the timer of its query runs. -/
def inTime (s : Proxy) : Event → Prop
  | .query _ pcb pbuf _ => (∃ i, s.curDnsIdx ≤ i ∧ Configured s.servers i) ∧
      (s.dnsPcbs = true ∨ pcb = true) ∧ pbuf = true
  | .response n _ => ∀ t ∈ s.timers, t.query ≠ n
  | _ => True

instance (s : Proxy) : ∀ e, Decidable (inTime s e)
  | .query _ pcb pbuf _ =>
    decidable_of_iff ((∃ i, i < dnsMaxServers ∧ s.curDnsIdx ≤ i ∧ s.servers i ≠ 0) ∧
        (s.dnsPcbs = true ∨ pcb = true) ∧ pbuf = true)
      (and_congr_left fun _ => ⟨fun ⟨i, hi, hle, hzero⟩ => ⟨i, hle, hi, hzero⟩,
        fun ⟨i, hle, hi, hzero⟩ => ⟨i, hi, hle, hzero⟩⟩)
  | .response n _ => inferInstanceAs (Decidable (∀ t ∈ s.timers, t.query ≠ n))
  | .timeout => .isTrue trivial
  | .setserver _ _ => .isTrue trivial

structure ServersInv (s : Proxy) : Prop where
  never : NeverStuck s
  timers : ∀ t ∈ s.timers, t.query < s.calls.length ∧ t.query ∉ s.answered
  answered : ∀ n ∈ s.answered, n < s.calls.length

/-- A call with a configured slot from the index on sends the query. -/
theorem dnssProxy_sends {s : Proxy} {q : Query} {pcb pbuf timer : Bool}
    (hok : inTime s (.query q pcb pbuf timer)) :
    ∃ i, Configured s.servers i ∧ dnssProxy s q pcb pbuf timer = { s with
      dnsPcbs := true
      clientInfo := q.client
      curDnsIdx := i
      calls := s.calls ++ [⟨q, s.servers, some (s.servers i)⟩]
      timers := if timer then s.timers ++ [⟨.curDnsIdx, s.calls.length⟩] else s.timers } := by
  obtain ⟨⟨j, hle, hj⟩, hpcb, hpbuf⟩ := hok
  obtain ⟨i, hi, hzero, hscan⟩ : ∃ i, i < dnsMaxServers ∧ s.servers i ≠ 0 ∧
      scanServers s.servers dnsMaxServers s.curDnsIdx none = (i, some (s.servers i)) :=
    scanServers_found (Nat.le_add_left dnsMaxServers s.curDnsIdx) ⟨j, hle, hj⟩
  refine ⟨i, ⟨hi, hzero⟩, ?_⟩
  have hmade : ¬ (¬ s.dnsPcbs = true ∧ ¬ pcb = true) := fun ⟨hno, hno'⟩ => by
    rcases hpcb with h | h
    · exact hno h
    · exact hno' h
  have hsend : ¬ (s.servers i = 0 ∨ ¬ pbuf = true) := fun h => h.elim hzero fun hno => hno hpbuf
  unfold dnssProxy
  rw [if_neg hmade, hscan]
  dsimp only
  rw [Option.getD_some, if_neg hsend]

theorem ServersInv.query {s : Proxy} (hinv : ServersInv s) {q : Query} {pcb pbuf timer : Bool}
    (hok : inTime s (.query q pcb pbuf timer)) : ServersInv (dnssProxy s q pcb pbuf timer) := by
  obtain ⟨i, hi, hs⟩ := dnssProxy_sends hok
  rw [hs]
  have hlen : ∀ c : Call, (s.calls ++ [c]).length = s.calls.length + 1 := fun _ =>
    List.length_append
  refine ⟨⟨hi.1, fun c hc hsome => ?_, hinv.never.fired⟩, fun t ht => ?_, fun n hn => ?_⟩
  · rcases List.mem_append.mp hc with hc | hc
    · exact hinv.never.sent c hc hsome
    · rw [List.mem_singleton.mp hc]
      exact ⟨i, hi, rfl⟩
  · have hold : ∀ t ∈ s.timers, t.query < s.calls.length + 1 ∧ t.query ∉ s.answered := fun t ht =>
      ⟨Nat.lt_succ_of_lt (hinv.timers t ht).1, (hinv.timers t ht).2⟩
    dsimp only
    rw [hlen]
    cases timer with
    | false => exact hold t ht
    | true =>
      rcases List.mem_append.mp ht with ht | ht
      · exact hold t ht
      · rw [List.mem_singleton.mp ht]
        exact ⟨Nat.lt_succ_self _, fun hmem => Nat.lt_irrefl _ (hinv.answered _ hmem)⟩
  · dsimp only
    rw [hlen]
    exact Nat.lt_succ_of_lt (hinv.answered n hn)

theorem ServersInv.step {s s' : Proxy} {e : Event} (hinv : ServersInv s) (hok : inTime s e)
    (hs : step s e = some s') : ServersInv s' := by
  cases e with
  | query q pcb pbuf timer =>
    cases hs
    exact hinv.query hok
  | response n pbuf =>
    obtain ⟨c, hc, -, rfl⟩ := step_response hs
    refine ⟨⟨hinv.never.index, hinv.never.sent, hinv.never.fired⟩, fun t ht => ?_, fun k hk => ?_⟩
    · have ht' := List.mem_of_mem_eraseP ht
      refine ⟨(hinv.timers t ht').1, fun hmem => ?_⟩
      rcases List.mem_append.mp hmem with hmem | hmem
      · exact (hinv.timers t ht').2 hmem
      · exact hok t ht' (List.mem_singleton.mp hmem)
    · rcases List.mem_append.mp hk with hk | hk
      · exact hinv.answered k hk
      · rw [List.mem_singleton.mp hk]
        exact (List.getElem?_eq_some_iff.mp hc).1
  | timeout =>
    obtain ⟨t, rest, ht, rfl⟩ := step_timeout hs
    refine ⟨⟨Nat.mod_lt _ (by decide), hinv.never.sent, fun f hf => ?_⟩, fun u hu => ?_, hinv.answered⟩
    · rcases List.mem_append.mp hf with hf | hf
      · exact hinv.never.fired f hf
      · rw [List.mem_singleton.mp hf]
        have hnot := (hinv.timers t (by rw [ht]; exact List.mem_cons_self)).2
        exact decide_eq_false hnot
    · exact hinv.timers u (by rw [ht]; exact List.mem_cons_of_mem t hu)
  | setserver numdns a =>
    cases hs
    exact ⟨⟨hinv.never.index, hinv.never.sent, hinv.never.fired⟩, hinv.timers, hinv.answered⟩

/-- The proxy does not get stuck while a slot from the index on is configured and no response comes in
time. -/
theorem proxy_never_stuck {s : Proxy} (h : Reached Init step inTime s) : NeverStuck s := by
  have hinv : ServersInv s := by
    refine h.invariant (fun s hs => ?_) fun s e s' hinv hok hs => hinv.step hok hs
    obtain ⟨hidx, -, -, htimers, hcalls, hanswered, -, hfired⟩ := hs
    refine ⟨⟨by rw [hidx]; decide, fun c hc => ?_, fun f hf => ?_⟩, fun t ht => ?_, fun n hn => ?_⟩
    · rw [hcalls] at hc
      cases hc
    · rw [hfired] at hf
      cases hf
    · rw [htimers] at ht
      cases ht
    · rw [hanswered] at hn
      cases hn
  exact hinv.never

section Example

/-- A query goes unanswered and the next one goes to the server in the other slot. -/
theorem proxy_never_stuck_unanswered :
    ∃ s, exec step freshProxy [.query ⟨clientA, 1⟩ true true true, .timeout, .setserver 1 0x01010101,
        .query ⟨clientA, 2⟩ true true true] = some s ∧
      s.calls.map Call.sentTo = [some 0x08080808, some 0x01010101] ∧ NeverStuck s := by
  generalize hes : [Event.query ⟨clientA, 1⟩ true true true, .timeout, .setserver 1 0x01010101,
    .query ⟨clientA, 2⟩ true true true] = es
  have hrun : (exec step freshProxy es).map (fun s => s.calls.map Call.sentTo) =
      some [some 0x08080808, some 0x01010101] := by
    rw [← hes]
    decide +kernel
  have halong : Along step inTime freshProxy es := by
    rw [← hes]
    decide +kernel
  obtain ⟨s, hs, hsent⟩ := Option.map_eq_some_iff.mp hrun
  exact ⟨s, hs, hsent, proxy_never_stuck ((Reached.start freshProxy_init).of_exec halong hs)⟩

/-- The timer of an answered query is not cancelled and moves the index off the only configured slot;
the next query ends behind the last slot and is not sent. -/
theorem answered_query_moves_on :
    ∃ s, Reached Init step anyStep s ∧ s.fired = [⟨0, true⟩] ∧ s.curDnsIdx = dnsMaxServers ∧
      (∀ c ∈ s.calls, Configured c.servers 0) ∧
      s.calls.map Call.sentTo = [some 0x08080808, none] ∧ ¬ NeverStuck s := by
  generalize hes : [Event.query ⟨clientA, 1⟩ true true true, .response 0 true, .timeout,
    .query ⟨clientA, 2⟩ true true true] = es
  have hrun : (exec step freshProxy es).map (fun s => (s.fired, s.curDnsIdx,
      s.calls.map Call.sentTo, s.calls.map fun c => c.servers 0)) =
      some ([⟨0, true⟩], dnsMaxServers, [some 0x08080808, none], [0x08080808, 0x08080808]) := by
    rw [← hes]
    decide +kernel
  obtain ⟨s, hs, hfinal⟩ := Option.map_eq_some_iff.mp hrun
  rw [Prod.mk.injEq, Prod.mk.injEq, Prod.mk.injEq] at hfinal
  obtain ⟨hfired, hidx, hsent, hservers⟩ := hfinal
  refine ⟨s, (Reached.start freshProxy_init).of_exec (along_anyStep _ _) hs, hfired, hidx,
    fun c hc => ⟨by decide, ?_⟩, hsent, fun hnever => ?_⟩
  · have hslot : c.servers 0 ∈ s.calls.map fun c => c.servers 0 :=
      List.mem_map_of_mem (f := fun c => c.servers 0) hc
    rw [hservers] at hslot
    rcases List.mem_pair.mp hslot with hslot | hslot
    · rw [hslot]
      decide
    · rw [hslot]
      decide
  · have hlt := hnever.index
    rw [hidx] at hlt
    exact Nat.lt_irrefl _ hlt

end Example

end WmIot.Dns
