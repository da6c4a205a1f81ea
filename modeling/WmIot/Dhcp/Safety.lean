import WmIot.Lib.Transition
import WmIot.Dhcp.Table

/-!
# One address, one client

In every state of every run of messages and ticks a client has one entry that is not idle, and an
address of the pool is bound by one entry. The all-zero hardware address and the address 0.0.0.0
are the server's own marks, for entries without a client and for entries out of the range of the
pool; those entries are kept in the state `bind`.
-/

namespace WmIot.Dhcp
open Transition
set_option autoImplicit false

/-- What happens to a server after its start. -/
inductive Event where
  | recv (hwaddr : Option Mac) (pbuf : Bool) (m : Msg)
  | tick

def step (s : Server) : Event → Option Server
  | .recv hwaddr pbuf m => some (recvCb s hwaddr pbuf m).1
  | .tick => some (tickHandle s)

/-- A client has one entry that is not idle. -/
def OneEach (t : Table) : Prop :=
  ∀ i j, (t i).state ≠ .idle → (t j).state ≠ .idle → (t i).macAddr = (t j).macAddr →
    (t i).macAddr ≠ zeroMac → i = j

/-- The same for the clients of some hardware addresses. -/
def OneEachOf (P : Mac → Prop) (t : Table) : Prop :=
  ∀ i j, (t i).state ≠ .idle → (t j).state ≠ .idle → (t i).macAddr = (t j).macAddr →
    P (t i).macAddr → i = j

theorem oneEach_iff {t : Table} : OneEach t ↔ OneEachOf (· ≠ zeroMac) t := Iff.rfl

/-- No two entries of the pool have one address. -/
def DistinctPool (t : Table) : Prop :=
  ∀ i j, (t i).ipAddr = (t j).ipAddr → (t i).ipAddr ≠ 0 → i = j

/-- An acknowledgement the server would send now is for no address that another client has bound. -/
def AcksOwn (s : Server) : Prop :=
  ∀ hwaddr pbuf m s' r, recvCb s hwaddr pbuf m = (s', some r) → r.msgType = msgAck →
    r.yiaddr ≠ 0 → ∀ k, (s.clients k).state = .bind → (s.clients k).ipAddr = r.yiaddr →
      (s.clients k).macAddr = r.chaddr

structure Safe (s : Server) : Prop where
  oneEach : OneEach s.clients
  oneHolder : ∀ i j, (s.clients i).state = .bind → (s.clients j).state = .bind →
    (s.clients i).ipAddr = (s.clients j).ipAddr → (s.clients i).ipAddr ≠ 0 → i = j
  acksOwn : AcksOwn s

section Recv
variable {t t' : Table} {macAddr : Mac} {my ret : Option (Fin clientNum)} {P : Mac → Prop}

theorem Looked.kept (h : Looked t t' macAddr my ret) {k : Fin clientNum} (hk : ret ≠ some k)
    (hstate : (t' k).state ≠ .idle) : t' k = t k := by
  rcases h.others k hk with heq | ⟨-, -, hidle⟩
  · exact heq
  · exact absurd hidle hstate

/-- The named entry is the only one of its client. -/
theorem Looked.alone {reqIpAddr : Addr}
    (h : Looked t t' macAddr (scan t macAddr reqIpAddr).myClient ret) (hone : OneEachOf P t)
    (hmac : P macAddr) {j k : Fin clientNum} (hj : ret = some j) (hkj : k ≠ j)
    (hstate : (t' k).state ≠ .idle) : (t' k).macAddr ≠ macAddr := by
  have hne : ret ≠ some k := by
    rw [hj]
    exact fun heq => hkj (Option.some.inj heq).symm
  have hkept := h.kept hne hstate
  rw [hkept] at hstate ⊢
  intro heq
  cases hmy : (scan t macAddr reqIpAddr).myClient with
  | none =>
    rcases myClient_none hmy k with hidle | hother
    · exact hstate hidle
    · exact hother heq
  | some i =>
    obtain ⟨hi, him⟩ := myClient_some hmy
    have hik : i = k := hone i k hi hstate (him.trans heq.symm) (by rw [him]; exact hmac)
    have hidle := h.left j i hj hmy (by rw [hik]; exact hkj)
    rw [hik, hkept] at hidle
    exact hstate hidle

theorem Looked.oneEach (h : Looked t t' macAddr my none) (hone : OneEachOf P t) : OneEachOf P t' := by
  intro i j hi hj heq hmac
  have hki : t' i = t i := h.kept (by simp) hi
  have hkj : t' j = t j := h.kept (by simp) hj
  rw [hki] at hi heq hmac
  rw [hkj] at hj heq
  exact hone i j hi hj heq hmac

theorem Handled.kept {j k : Fin clientNum} (h : Handled t t' j) (hkj : k ≠ j)
    (hstate : (t' k).state ≠ .idle) : t' k = t k := by
  rcases h.others k hkj with heq | ⟨hidle, heq⟩
  · exact heq
  · rw [heq] at hstate
    exact absurd hidle hstate

theorem Handled.macAddr_self {j : Fin clientNum} (h : Handled t t' j) :
    (t' j).macAddr = (t j).macAddr := by
  obtain ⟨timeout, lease, state, heq⟩ := h.self
  rw [heq]

theorem Handled.ipAddr_eq {j : Fin clientNum} (h : Handled t t' j) (k : Fin clientNum) :
    (t' k).ipAddr = (t k).ipAddr := by
  by_cases hkj : k = j
  · obtain ⟨timeout, lease, state, heq⟩ := h.self
    rw [hkj, heq]
  · rcases h.others k hkj with heq | ⟨-, heq⟩
    · rw [heq]
    · rw [heq]
      rfl

/-- The entry named by the lookup is offered or bound. -/
theorem Handled.oneEach {t'' : Table} {reqIpAddr : Addr} {j : Fin clientNum}
    (hhandled : Handled t' t'' j)
    (h : Looked t t' macAddr (scan t macAddr reqIpAddr).myClient (some j)) (hone : OneEachOf P t) :
    OneEachOf P t'' := by
  have hne : ∀ k, k ≠ j → (some j : Option (Fin clientNum)) ≠ some k := fun k hk heq =>
    hk (Option.some.inj heq).symm
  have hmine : (t'' j).macAddr = macAddr := hhandled.macAddr_self.trans (h.mine j rfl)
  intro k l hk hl heq hmac
  by_cases hkj : k = j
  · by_cases hlj : l = j
    · rw [hkj, hlj]
    · rw [hkj, hmine] at heq hmac
      have hkept := hhandled.kept hlj hl
      rw [hkept] at heq hl
      exact absurd heq.symm (h.alone hone hmac rfl hlj hl)
  · have hkept := hhandled.kept hkj hk
    by_cases hlj : l = j
    · rw [hlj, hmine] at heq
      rw [heq] at hmac
      rw [hkept] at heq hk
      exact absurd heq (h.alone hone hmac rfl hkj hk)
    · have hkept' := hhandled.kept hlj hl
      rw [hkept] at hk heq hmac
      rw [hkept'] at hl heq
      have hk' := h.kept (hne k hkj) hk
      have hl' := h.kept (hne l hlj) hl
      rw [hk'] at hk heq hmac
      rw [hl'] at hl heq
      exact hone k l hk hl heq hmac

end Recv

section Steps
variable {s s' : Server} {P : Mac → Prop}

theorem recvCb_ipAddr {hwaddr : Option Mac} {pbuf : Bool} {m : Msg} {r : Option Reply}
    (h : recvCb s hwaddr pbuf m = (s', r)) (k : Fin clientNum) :
    (s'.clients k).ipAddr = (s.clients k).ipAddr := by
  rcases recvCb_cases h with ⟨hs', -⟩ | ⟨msgType, -, t, ret, hlook, hcase⟩
  · rw [hs']
  · have hlooked := clientTableLookup_looked s m.chaddr msgType m.reqIpAddr m.serverId
    rw [hlook] at hlooked
    rcases hcase with ⟨-, hs', -⟩ | ⟨j, -, hcase⟩
    · rw [hs']
      exact hlooked.ipAddr k
    · rcases hcase with ⟨hs', -⟩ | ⟨hs', -⟩
      · rw [hs']
        exact ((offerClient_handled t j).ipAddr_eq k).trans (hlooked.ipAddr k)
      · rw [hs']
        exact ((bindClient_handled t j).ipAddr_eq k).trans (hlooked.ipAddr k)

/-- A message keeps that a client has one entry. -/
theorem recvCb_oneEach {hwaddr : Option Mac} {pbuf : Bool} {m : Msg} {r : Option Reply}
    (h : recvCb s hwaddr pbuf m = (s', r)) (hone : OneEachOf P s.clients) : OneEachOf P s'.clients := by
  rcases recvCb_cases h with ⟨hs', -⟩ | ⟨msgType, -, t, ret, hlook, hcase⟩
  · rw [hs']
    exact hone
  · have hlooked := clientTableLookup_looked s m.chaddr msgType m.reqIpAddr m.serverId
    rw [hlook] at hlooked
    rcases hcase with ⟨hret, hs', -⟩ | ⟨j, hret, hcase⟩
    · subst hret
      rw [hs']
      exact hlooked.oneEach hone
    · subst hret
      rcases hcase with ⟨hs', -⟩ | ⟨hs', -⟩
      · rw [hs']
        exact (offerClient_handled t j).oneEach hlooked hone
      · rw [hs']
        exact (bindClient_handled t j).oneEach hlooked hone

theorem tick_kept (c : Client) : c.tick.ipAddr = c.ipAddr ∧
    (c.tick.state ≠ .idle → c.state ≠ .idle ∧ c.tick.macAddr = c.macAddr) := by
  unfold Client.tick
  cases hstate : c.state with
  | idle => exact ⟨rfl, fun h => absurd hstate h⟩
  | select => exact ⟨rfl, fun _ => ⟨by simp, rfl⟩⟩
  | request =>
    dsimp only
    by_cases hzero : c.timeout = 0
    · rw [if_pos hzero]
      exact ⟨rfl, fun _ => ⟨by simp, rfl⟩⟩
    · rw [if_neg hzero]
      by_cases hlast : c.timeout - 1 = 0
      · rw [if_pos hlast]
        exact ⟨rfl, fun h => absurd rfl h⟩
      · rw [if_neg hlast]
        exact ⟨rfl, fun _ => ⟨by simp, rfl⟩⟩
  | bind =>
    dsimp only
    by_cases hzero : c.lease = 0
    · rw [if_pos hzero]
      exact ⟨rfl, fun _ => ⟨by simp, rfl⟩⟩
    · rw [if_neg hzero]
      by_cases hlast : c.lease - 1 = 0
      · rw [if_pos hlast]
        exact ⟨rfl, fun h => absurd rfl h⟩
      · rw [if_neg hlast]
        exact ⟨rfl, fun _ => ⟨by simp, rfl⟩⟩

theorem tickHandle_ipAddr (s : Server) (k : Fin clientNum) :
    ((tickHandle s).clients k).ipAddr = (s.clients k).ipAddr := by
  unfold tickHandle
  split
  · exact (tick_kept (s.clients k)).1
  · rfl

theorem tickHandle_oneEach (hone : OneEachOf P s.clients) : OneEachOf P (tickHandle s).clients := by
  unfold tickHandle
  by_cases henable : s.enable = true
  · rw [if_pos henable]
    intro i j hi hj heq hmac
    dsimp only at hi hj heq hmac
    obtain ⟨hi', himac⟩ := (tick_kept (s.clients i)).2 hi
    obtain ⟨hj', hjmac⟩ := (tick_kept (s.clients j)).2 hj
    rw [himac] at heq hmac
    rw [hjmac] at heq
    exact hone i j hi' hj' heq hmac
  · rw [if_neg henable]
    exact hone

/-- A message leaves the entries that other clients have in use. -/
theorem recvCb_frame {hwaddr : Option Mac} {pbuf : Bool} {m : Msg} {r : Option Reply}
    {k : Fin clientNum} (h : recvCb s hwaddr pbuf m = (s', r)) (hstate : (s.clients k).state ≠ .idle)
    (hmac : (s.clients k).macAddr ≠ m.chaddr) : s'.clients k = s.clients k := by
  rcases recvCb_cases h with ⟨hs', -⟩ | ⟨msgType, -, t, ret, hlook, hcase⟩
  · rw [hs']
  · have hlooked := clientTableLookup_looked s m.chaddr msgType m.reqIpAddr m.serverId
    rw [hlook] at hlooked
    have hne : ret ≠ some k := fun hret => by
      rcases hlooked.returned k hret with hidle | hmy
      · exact hstate hidle
      · exact hmac (myClient_some hmy).2
    have hkept : t k = s.clients k := by
      rcases hlooked.others k hne with heq | ⟨-, hown, -⟩
      · exact heq
      · exact absurd hown hmac
    have hhandled : ∀ {j : Fin clientNum} {t' : Table}, ret = some j → Handled t t' j →
        t' k = s.clients k := fun {j t'} hret hhandled => by
      rcases hhandled.others k (fun hkj => hne (hkj ▸ hret)) with heq | ⟨hidle, -⟩
      · exact heq.trans hkept
      · rw [hkept] at hidle
        exact absurd hidle hstate
    rcases hcase with ⟨-, hs', -⟩ | ⟨j, hret, hcase⟩
    · rw [hs']
      exact hkept
    · rcases hcase with ⟨hs', -⟩ | ⟨hs', -⟩
      · rw [hs']
        exact hhandled hret (offerClient_handled t j)
      · rw [hs']
        exact hhandled hret (bindClient_handled t j)

/-- What an offer or an acknowledgement grants is the address of an entry that was idle or the
sender's own. -/
theorem recvCb_granted {hwaddr : Option Mac} {pbuf : Bool} {m : Msg} {r : Reply}
    (h : recvCb s hwaddr pbuf m = (s', some r)) (hr : r.msgType = msgOffer ∨ r.msgType = msgAck) :
    ∃ j, r.yiaddr = (s.clients j).ipAddr ∧ r.chaddr = m.chaddr ∧
      ((s.clients j).state = .idle ∨ (s.clients j).macAddr = m.chaddr) := by
  rcases recvCb_cases h with ⟨-, hnone⟩ | ⟨msgType, -, t, ret, hlook, hcase⟩
  · cases hnone
  · have hlooked := clientTableLookup_looked s m.chaddr msgType m.reqIpAddr m.serverId
    rw [hlook] at hlooked
    rcases hcase with ⟨-, -, hnak⟩ | ⟨j, hret, hcase⟩
    · rcases hnak with hnak | hnak
      · cases hnak
      · cases hnak
        rcases hr with hr | hr
        · exact absurd hr (show msgNak ≠ msgOffer by decide)
        · exact absurd hr (show msgNak ≠ msgAck by decide)
    · have hgrant : r.yiaddr = (t j).ipAddr ∧ r.chaddr = (t j).macAddr := by
        rcases hcase with ⟨-, hoffer⟩ | ⟨-, hack⟩
        · rcases hoffer with hoffer | hoffer
          · cases hoffer
          · cases hoffer
            exact ⟨rfl, rfl⟩
        · rcases hack with hack | hack
          · cases hack
          · cases hack
            exact ⟨rfl, rfl⟩
      refine ⟨j, hgrant.1.trans (hlooked.ipAddr j), hgrant.2.trans (hlooked.mine j hret), ?_⟩
      rcases hlooked.returned j hret with hidle | hmy
      · exact Or.inl hidle
      · exact Or.inr (myClient_some hmy).2

/-- An acknowledged entry is the sender's own, or was idle. -/
theorem acksOwn_of_distinct (hpool : DistinctPool s.clients) : AcksOwn s := by
  intro hwaddr pbuf m s' r h hack hzero k hbind hip
  obtain ⟨j, hyiaddr, hchaddr, hown⟩ := recvCb_granted h (Or.inr hack)
  rw [hyiaddr] at hzero hip
  have hkj : k = j := hpool k j hip (by rw [hip]; exact hzero)
  subst hkj
  rw [hchaddr]
  rcases hown with hidle | hmac
  · rw [hbind] at hidle
    cases hidle
  · exact hmac

end Steps

section Start
variable {fuel : Nat} {netif : Netif} {opt : Options} {mem pcb : Bool} {s : Server}

theorem initClients_length {usedIp netMask endHost : Addr} : ∀ (num : Nat) {start : Addr}
    {l : List Client}, initClients usedIp netMask endHost fuel num start = some l → l.length = num := by
  intro num
  induction num with
  | zero =>
    intro start l h
    cases h
    rfl
  | succ num ih =>
    intro start l h
    obtain ⟨host, -, h⟩ := Option.bind_eq_some_iff.mp h
    by_cases hend : endHost ≠ 0 ∧ endHost < host
    · rw [if_pos hend] at h
      obtain ⟨l', hl', rfl⟩ := Option.map_eq_some_iff.mp h
      rw [List.length_cons, ih hl']
    · rw [if_neg hend] at h
      obtain ⟨l', hl', rfl⟩ := Option.map_eq_some_iff.mp h
      rw [List.length_cons, ih hl']

/-- No entry has a client at the start. -/
theorem initClients_macAddr {usedIp netMask endHost : Addr} : ∀ (num : Nat) {start : Addr}
    {l : List Client}, initClients usedIp netMask endHost fuel num start = some l →
    ∀ c ∈ l, c.macAddr = zeroMac := by
  intro num
  induction num with
  | zero =>
    intro start l h
    cases h
    exact fun c hc => nomatch hc
  | succ num ih =>
    intro start l h
    obtain ⟨host, -, h⟩ := Option.bind_eq_some_iff.mp h
    by_cases hend : endHost ≠ 0 ∧ endHost < host
    · rw [if_pos hend] at h
      obtain ⟨l', hl', rfl⟩ := Option.map_eq_some_iff.mp h
      intro c hc
      rcases List.mem_cons.mp hc with rfl | hc
      · rfl
      · exact ih hl' c hc
    · rw [if_neg hend] at h
      obtain ⟨l', hl', rfl⟩ := Option.map_eq_some_iff.mp h
      intro c hc
      rcases List.mem_cons.mp hc with rfl | hc
      · rfl
      · exact ih hl' c hc

/-- A started server has the table of the pool loop, with a lease for the last entry. -/
theorem dhcpsStart_clients (h : dhcpsStart fuel netif opt mem pcb = some (.ok s)) :
    ~~~netif.netmask ≠ 0 ∧ s.enable = true ∧ s.serverIpAddr = netif.ipAddr ∧
      s.subnetMask = netif.netmask ∧ ∃ l,
      initClients netif.ipAddr netif.netmask (opt.endIp &&& ~~~netif.netmask) fuel clientNum
        (startIpAddr netif opt &&& ~~~netif.netmask) = some l ∧
      s.clients = leaseLast s.leaseTime (toTable l) := by
  unfold dhcpsStart at h
  by_cases hup : ¬ netif.up = true
  · rw [if_pos hup] at h
    cases h
  · rw [if_neg hup] at h
    by_cases hmem : ¬ mem = true
    · rw [if_pos hmem] at h
      cases h
    · rw [if_neg hmem] at h
      by_cases hmask : ~~~netif.netmask = 0
      · rw [if_pos hmask] at h
        cases h
      · rw [if_neg hmask] at h
        obtain ⟨l, hl, h⟩ := Option.map_eq_some_iff.mp h
        by_cases hpcb : ¬ pcb = true
        · rw [if_pos hpcb] at h
          cases h
        · rw [if_neg hpcb] at h
          cases h
          exact ⟨hmask, rfl, rfl, rfl, l, hl, rfl⟩

theorem leaseLast_apply (leaseTime : Nat) (t : Table) (i : Fin clientNum) :
    ∃ lease, leaseLast leaseTime t i = { t i with lease := lease } := by
  unfold leaseLast
  by_cases hi : i = Fin.last 7
  · rw [hi, setClient_self]
    exact ⟨leaseTime, rfl⟩
  · rw [setClient_of_ne hi]
    exact ⟨(t i).lease, rfl⟩

theorem toTable_mem {l : List Client} (hlen : l.length = clientNum) (i : Fin clientNum) :
    toTable l i ∈ l := by
  have hi : i.val < l.length := by
    rw [hlen]
    exact i.isLt
  rw [toTable, List.getD_eq_getElem?_getD, List.getElem?_eq_getElem hi]
  exact List.getElem_mem hi

theorem dhcpsStart_oneEach (h : dhcpsStart fuel netif opt mem pcb = some (.ok s)) :
    OneEach s.clients := by
  obtain ⟨-, -, -, -, l, hl, hclients⟩ := dhcpsStart_clients h
  intro i j _ _ _ hmac
  obtain ⟨lease, hi⟩ := leaseLast_apply s.leaseTime (toTable l) i
  rw [hclients, hi] at hmac
  exact absurd (initClients_macAddr _ hl _ (toTable_mem (initClients_length _ hl) i)) hmac

end Start

section Runs
variable {fuel : Nat} {netif : Netif} {opt : Options} {mem pcb : Bool} {s₀ s : Server}

theorem DistinctPool.of_ipAddr {t t' : Table} (h : DistinctPool t)
    (hip : ∀ k, (t' k).ipAddr = (t k).ipAddr) : DistinctPool t' := by
  intro i j heq hzero
  rw [hip i, hip j] at heq
  rw [hip i] at hzero
  exact h i j heq hzero

/-- What a run keeps of the table. -/
structure TableInv (s : Server) : Prop where
  oneEach : OneEach s.clients
  distinct : DistinctPool s.clients

theorem TableInv.step {s' : Server} {e : Event} (hinv : TableInv s) (hs : step s e = some s') :
    TableInv s' := by
  cases e with
  | recv hwaddr pbuf m =>
    cases hs
    exact ⟨oneEach_iff.mpr (recvCb_oneEach rfl (oneEach_iff.mp hinv.oneEach)), hinv.distinct.of_ipAddr (recvCb_ipAddr rfl)⟩
  | tick =>
    cases hs
    exact ⟨oneEach_iff.mpr (tickHandle_oneEach (oneEach_iff.mp hinv.oneEach)), hinv.distinct.of_ipAddr (tickHandle_ipAddr s)⟩

theorem TableInv.safe (hinv : TableInv s) : Safe s :=
  ⟨hinv.oneEach, fun i j _ _ heq hzero => hinv.distinct i j heq hzero,
    acksOwn_of_distinct hinv.distinct⟩

/-- After a start whose pool has each address once, no run gives one address to two clients. -/
theorem no_address_shared (hstart : dhcpsStart fuel netif opt mem pcb = some (.ok s₀))
    (hpool : DistinctPool s₀.clients) (h : Reached (fun s => s = s₀) step anyStep s) : Safe s := by
  have hinv : TableInv s := by
    refine h.invariant (fun s hs => ?_) fun s e s' hinv _ hs => hinv.step hs
    subst hs
    exact ⟨dhcpsStart_oneEach hstart, hpool⟩
  exact hinv.safe

end Runs

section Example

def started : Option (Except StartError Server) → Option Server
  | some (.ok s) => some s
  | _ => none

theorem started_eq {r : Option (Except StartError Server)} {s : Server} (h : started r = some s) :
    r = some (.ok s) := by
  unfold started at h
  split at h
  · cases h
    rfl
  · cases h

/-- The client with the locally administered address `n`. -/
def mac (n : UInt8) : Mac := #v[2, 0, 0, 0, 0, n]

/-- A message to the access point of address `mac 0`. -/
def message (msgType : UInt8) (chaddr : Mac) (reqIpAddr serverId : Addr) : Event :=
  .recv (some (mac 0)) true
    { len := 300, op := opRequest, hType := hwTypeEthernet, magic := magicNumber, chaddr := chaddr,
      xid := 1, flags := 0, msgType := some msgType, reqIpAddr := reqIpAddr, serverId := serverId }

/-- 192.168.1.1/24 -/
def netif24 : Netif := ⟨true, 0xC0A80101, 0xFFFFFF00⟩

/-- 192.168.1.1/29 -/
def netif29 : Netif := ⟨true, 0xC0A80101, 0xFFFFFFF8⟩

/-- 192.168.1.2 to 192.168.1.4 -/
def threeAddresses : Options := { noOptions with startIp := 0xC0A80102, endIp := 0xC0A80104 }

/-- Two clients ask for 192.168.1.2, the second names no address when it selects its offer. -/
def twoClients : List Event :=
  [message msgDiscover (mac 1) 0 0, message msgRequest (mac 1) 0xC0A80102 0xC0A80101,
    message msgDiscover (mac 2) 0xC0A80102 0, message msgRequest (mac 2) 0 0xC0A80101]

/-- The addresses of a subnet of 256 are distinct, and the second client gets another one. -/
theorem no_address_shared_twoClients :
    ∃ s₀ s, dhcpsStart 9 netif24 noOptions true true = some (.ok s₀) ∧
      exec step s₀ twoClients = some s ∧ (s.clients 0).state = .bind ∧ (s.clients 1).state = .bind ∧
      Safe s := by
  have hstarted : (started (dhcpsStart 9 netif24 noOptions true true)).isSome := by decide +kernel
  obtain ⟨s₀, hs₀⟩ := Option.isSome_iff_exists.mp hstarted
  have hsome : ((started (dhcpsStart 9 netif24 noOptions true true)).bind
      (exec step · twoClients)).isSome := by decide +kernel
  have hfinal : ((started (dhcpsStart 9 netif24 noOptions true true)).bind
      (exec step · twoClients)).map (fun s => ((s.clients 0).state, (s.clients 1).state)) =
      some (.bind, .bind) := by decide +kernel
  have hdistinct : (started (dhcpsStart 9 netif24 noOptions true true)).map
      (fun s => decide (∀ i j, (s.clients i).ipAddr = (s.clients j).ipAddr → i = j)) =
      some true := by decide +kernel
  rw [hs₀] at hsome hfinal hdistinct
  rw [Option.bind_some] at hsome hfinal
  obtain ⟨s, hs⟩ := Option.isSome_iff_exists.mp hsome
  rw [hs, Option.map_some, Option.some.injEq, Prod.mk.injEq] at hfinal
  rw [Option.map_some, Option.some.injEq, decide_eq_true_iff] at hdistinct
  exact ⟨s₀, s, started_eq hs₀, hs, hfinal.1, hfinal.2,
    no_address_shared (started_eq hs₀) (fun i j heq _ => hdistinct i j heq)
      (Reached.of_exec (.start rfl) (along_anyStep _ _) hs)⟩

/-- Entries out of the range are in the state `bind` with one address, and a subnet of eight repeats
an address, which two clients then have. -/
theorem addresses_shared :
    (∃ s₀ i j, dhcpsStart 9 netif24 threeAddresses true true = some (.ok s₀) ∧ i ≠ j ∧
      (s₀.clients i).state = .bind ∧ (s₀.clients j).state = .bind ∧
      (s₀.clients i).macAddr = (s₀.clients j).macAddr ∧
      (s₀.clients i).ipAddr = (s₀.clients j).ipAddr) ∧
    ∃ s₀ s i j, dhcpsStart 9 netif29 noOptions true true = some (.ok s₀) ∧
      Reached (fun s => s = s₀) step anyStep s ∧
      (s.clients i).state = .bind ∧ (s.clients j).state = .bind ∧
      (s.clients i).macAddr = mac 1 ∧ (s.clients j).macAddr = mac 2 ∧
      (s.clients i).ipAddr = 0xC0A80102 ∧ (s.clients j).ipAddr = 0xC0A80102 := by
  constructor
  · have hstarted : (started (dhcpsStart 9 netif24 threeAddresses true true)).isSome := by
      decide +kernel
    obtain ⟨s₀, hs₀⟩ := Option.isSome_iff_exists.mp hstarted
    have hsame : (started (dhcpsStart 9 netif24 threeAddresses true true)).map
        (fun s => (s.clients 3, s.clients 4)) = some (outOfRange, outOfRange) := by decide +kernel
    rw [hs₀, Option.map_some, Option.some.injEq, Prod.mk.injEq] at hsame
    obtain ⟨hthree, hfour⟩ := hsame
    refine ⟨s₀, 3, 4, started_eq hs₀, by decide, ?_⟩
    rw [hthree, hfour]
    exact ⟨rfl, rfl, rfl, rfl⟩
  · have hstarted : (started (dhcpsStart 9 netif29 noOptions true true)).isSome := by decide +kernel
    obtain ⟨s₀, hs₀⟩ := Option.isSome_iff_exists.mp hstarted
    have hsome : ((started (dhcpsStart 9 netif29 noOptions true true)).bind
        (exec step · twoClients)).isSome := by decide +kernel
    have hfinal : ((started (dhcpsStart 9 netif29 noOptions true true)).bind
        (exec step · twoClients)).map (fun s => (s.clients 5, s.clients 0)) =
        some (⟨.bind, 0, 0xC0A80102, mac 1, defaultLeaseTime⟩,
          ⟨.bind, defaultTimeout, 0xC0A80102, mac 2, defaultLeaseTime⟩) := by decide +kernel
    rw [hs₀, Option.bind_some] at hsome hfinal
    obtain ⟨s, hs⟩ := Option.isSome_iff_exists.mp hsome
    rw [hs, Option.map_some, Option.some.injEq, Prod.mk.injEq] at hfinal
    obtain ⟨hfive, hzero⟩ := hfinal
    refine ⟨s₀, s, 5, 0, started_eq hs₀, Reached.of_exec (.start rfl) (along_anyStep _ _) hs, ?_⟩
    rw [hfive, hzero]
    exact ⟨rfl, rfl, rfl, rfl, rfl, rfl⟩

end Example

end WmIot.Dhcp
