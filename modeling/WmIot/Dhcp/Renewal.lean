import WmIot.Dhcp.Pool

/-!
# Renewal

A client that renews names its address in `ciaddr`, which the code does not read; the requested
address is then 0, like the address of the entries out of the range of the pool.
-/

namespace WmIot.Dhcp
open Transition
set_option autoImplicit false

/-- An entry out of the range is in the state `bind` too, but has no address. -/
structure Holds (s : Server) (k : Fin clientNum) : Prop where
  bound : (s.clients k).state = .bind
  address : (s.clients k).ipAddr ≠ 0

/-- The client of entry `k` asks for its lease again, without a requested address and of no other
server. -/
structure Renewal (s : Server) (k : Fin clientNum) (hwaddr : Option Mac) (m : Msg) : Prop where
  passed : passes hwaddr m = true
  request : m.msgType = some msgRequest
  chaddr : m.chaddr = (s.clients k).macAddr
  reqIpAddr : m.reqIpAddr = 0
  forMe : forMe s.serverIpAddr m.serverId

/-- A renewal is acknowledged for the address of the entry, and only the lease of the entry changes. -/
def Renews (s : Server) (k : Fin clientNum) : Prop :=
  ∀ hwaddr pbuf m, Renewal s k hwaddr m → ∃ s' reply,
    recvCb s hwaddr pbuf m = (s', if pbuf then some reply else none) ∧
    reply.msgType = msgAck ∧ reply.yiaddr = (s.clients k).ipAddr ∧
    reply.chaddr = (s.clients k).macAddr ∧
    s'.clients k = { s.clients k with lease := defaultLeaseTime }

/-- The entries without an address are the last ones. -/
def AddressesFirst (t : Table) : Prop := ∀ i j, i ≤ j → (t i).ipAddr = 0 → (t j).ipAddr = 0

section Scan
variable {t : Table} {p : Client → Bool} {i j : Fin clientNum}

theorem lastClient_max (h : lastClient t p = some i) (hj : p (t j) = true) : j ≤ i := by
  obtain ⟨-, as, bs, heq, has⟩ := List.find?_eq_some_iff_append.mp h
  have hpair : ((List.finRange clientNum).reverse).Pairwise (fun a b => b < a) :=
    List.pairwise_reverse.mpr (List.pairwise_lt_finRange clientNum)
  have hmem : j ∈ (List.finRange clientNum).reverse := List.mem_reverse.mpr (List.mem_finRange j)
  rw [heq] at hpair hmem
  rcases List.mem_append.mp hmem with hmem | hmem
  · have hnot := has j hmem
    rw [hj] at hnot
    cases hnot
  · rcases List.mem_cons.mp hmem with rfl | hmem
    · exact Fin.le_refl _
    · exact Fin.le_of_lt (List.rel_of_pairwise_cons (List.pairwise_append.mp hpair).2.1 hmem)

variable {macAddr : Mac} {reqIpAddr : Addr}

theorem myClient_max (h : (scan t macAddr reqIpAddr).myClient = some i)
    (hstate : (t j).state ≠ .idle) (hmac : (t j).macAddr = macAddr) : j ≤ i := by
  unfold scan at h
  dsimp only at h
  exact lastClient_max h (decide_eq_true ⟨hstate, hmac⟩)

theorem reqClient_ipAddr (h : (scan t macAddr reqIpAddr).reqClient = some i) :
    (t i).ipAddr = reqIpAddr := (firstIdle (p := fun c => c.ipAddr = reqIpAddr) h).2

theorem reqClient_none (h : (scan t macAddr reqIpAddr).reqClient = none)
    (hstate : (t i).state = .idle) : (t i).ipAddr ≠ reqIpAddr := by
  unfold scan at h
  dsimp only at h
  intro hip
  exact of_decide_eq_false (firstClient_none h i) ⟨hstate, hip⟩

theorem ipUnavailable_iff : (scan t macAddr reqIpAddr).ipUnavailable = true ↔
    ∃ i, (t i).state ≠ .idle ∧ (t i).macAddr ≠ macAddr ∧ (t i).ipAddr = reqIpAddr := by
  constructor
  · intro h
    obtain ⟨i, hi⟩ := Option.isSome_iff_exists.mp h
    exact ⟨i, of_decide_eq_true (firstClient_some hi)⟩
  · rintro ⟨i, hi⟩
    by_contra hnot
    have hnone := firstClient_none (Option.not_isSome_iff_eq_none.mp hnot) i
    exact of_decide_eq_false hnone hi

end Scan

section Lookup
variable {s : Server} {k : Fin clientNum} {serverId : Addr}

/-- In a table without entries out of the range the client's own entry is found. -/
theorem lookup_renewal (hone : OneEachOf (fun _ => True) s.clients)
    (haddr : ∀ j, (s.clients j).ipAddr ≠ 0) (hstate : (s.clients k).state ≠ .idle)
    (hme : forMe s.serverIpAddr serverId) :
    clientTableLookup s (s.clients k).macAddr msgRequest 0 serverId = (s.clients, some k) := by
  have hmy : (scan s.clients (s.clients k).macAddr 0).myClient = some k := by
    cases hmy : (scan s.clients (s.clients k).macAddr 0).myClient with
    | none =>
      rcases myClient_none hmy k with hidle | hother
      · exact absurd hidle hstate
      · exact absurd rfl hother
    | some i =>
      obtain ⟨hi, hmac⟩ := myClient_some hmy
      rw [hone i k hi hstate hmac trivial]
  have hreq : (scan s.clients (s.clients k).macAddr 0).reqClient = none := by
    cases hreq : (scan s.clients (s.clients k).macAddr 0).reqClient with
    | none => rfl
    | some i => exact absurd (reqClient_ipAddr hreq) (haddr i)
  have hfree : ¬ (scan s.clients (s.clients k).macAddr 0).ipUnavailable = true := by
    intro hbusy
    obtain ⟨i, -, -, hzero⟩ := ipUnavailable_iff.mp hbusy
    exact haddr i hzero
  unfold clientTableLookup
  dsimp only
  rw [if_neg (show msgRequest ≠ msgDiscover by decide), if_pos rfl, lookupRequest, hmy]
  dsimp only
  rw [if_neg hfree, hreq]
  dsimp only
  rw [if_pos hme]
  exact congrArg (·, some k) (Function.update_eq_self k s.clients)

/-- With an entry without an address the lookup names no entry that has one. -/
theorem lookup_unnamed {macAddr : Mac} {t : Table} {ret : Option (Fin clientNum)}
    {j : Fin clientNum} (hfirst : AddressesFirst s.clients) (hj : (s.clients j).ipAddr = 0)
    (h : clientTableLookup s macAddr msgRequest 0 serverId = (t, ret)) :
    ∀ i, ret = some i → (s.clients i).ipAddr = 0 := by
  have hfound : ∀ i, (lookupRequest s.clients (scan s.clients macAddr 0) s.serverIpAddr
      serverId).2 = some i → (s.clients i).ipAddr = 0 := by
    intro i hi
    rw [lookupRequest_ret] at hi
    by_cases hrefused : (scan s.clients macAddr 0).ipUnavailable = true ∨
        ¬ forMe s.serverIpAddr serverId
    · rw [if_pos hrefused] at hi
      cases hi
    · rw [if_neg hrefused] at hi
      rcases Option.or_eq_some_iff.mp hi with hreq | ⟨hreq, hmy⟩
      · exact reqClient_ipAddr hreq
      · -- the entry without an address is the client's, and the last one found is behind it
        have hstate : (s.clients j).state ≠ .idle := fun hidle => reqClient_none hreq hidle hj
        have hmac : (s.clients j).macAddr = macAddr := by
          by_contra hne
          exact hrefused (Or.inl (ipUnavailable_iff.mpr ⟨j, hstate, hne, hj⟩))
        exact hfirst j i (myClient_max hmy hstate hmac) hj
  intro i hi
  refine hfound i ?_
  unfold clientTableLookup at h
  dsimp only at h
  rw [if_neg (show msgRequest ≠ msgDiscover by decide), if_pos rfl] at h
  cases hret : (lookupRequest s.clients (scan s.clients macAddr 0) s.serverIpAddr serverId).2 with
  | none =>
    rw [hret] at h
    rw [← (Prod.mk.inj h).2] at hi
    cases hi
  | some l =>
    rw [hret] at h
    rw [← (Prod.mk.inj h).2] at hi
    exact hi

end Lookup

section Recv
variable {s : Server} {k : Fin clientNum}

theorem exists_other (macAddr : Mac) : ∃ other : Mac, other ≠ macAddr := by
  by_cases hzero : macAddr = zeroMac
  · exact ⟨Vector.replicate 6 1, by rw [hzero]; decide⟩
  · exact ⟨zeroMac, Ne.symm hzero⟩

theorem renews_of_addresses (hone : OneEachOf (fun _ => True) s.clients)
    (haddr : ∀ j, (s.clients j).ipAddr ≠ 0) (hbound : (s.clients k).state = .bind) :
    Renews s k := by
  intro hwaddr pbuf m hm
  have hstate : (s.clients k).state ≠ .idle := by
    rw [hbound]
    simp
  have hlook := lookup_renewal hone haddr hstate hm.forMe
  refine ⟨{ s with clients := bindClient s.clients k }, ackGen s (s.clients k) m.xid m.flags,
    ?_, rfl, rfl, rfl, ?_⟩
  · unfold recvCb
    rw [if_pos hm.passed, hm.request]
    dsimp only
    rw [if_neg (show msgRequest ≠ msgInform by decide), hm.chaddr, hm.reqIpAddr, hlook]
    dsimp only
    unfold clientSMEHandle
    rw [hbound]
  · exact (bindClient_self s.clients k).trans (by rw [← hbound])

theorem not_renews {j : Fin clientNum} (hfirst : AddressesFirst s.clients)
    (hj : (s.clients j).ipAddr = 0) (haddr : (s.clients k).ipAddr ≠ 0) : ¬ Renews s k := by
  intro hrenews
  obtain ⟨other, hother⟩ := exists_other (s.clients k).macAddr
  obtain ⟨s', reply, hrecv, hack, hyiaddr, -⟩ := hrenews (some other) true
    { len := 300, op := opRequest, hType := hwTypeEthernet, magic := magicNumber,
      chaddr := (s.clients k).macAddr, xid := 0, flags := 0, msgType := some msgRequest,
      reqIpAddr := 0, serverId := 0 }
    ⟨by simpa [passes] using hother, rfl, rfl, rfl, Or.inl rfl⟩
  rcases recvCb_cases hrecv with ⟨-, hnone⟩ | ⟨msgType, hmsg, t, ret, hlook, hcase⟩
  · cases hnone
  · cases hmsg
    have hunnamed := lookup_unnamed hfirst hj hlook
    rcases hcase with ⟨-, -, hnone | hnak⟩ | ⟨i, hret, hcase⟩
    · cases hnone
    · cases hnak
      exact absurd hack (show msgNak ≠ msgAck by decide)
    · have hlooked := clientTableLookup_looked s (s.clients k).macAddr msgRequest 0 0
      rw [hlook] at hlooked
      have hzero : (t i).ipAddr = 0 := (hlooked.ipAddr i).trans (hunnamed i hret)
      have hreply : reply.yiaddr = (t i).ipAddr := by
        rcases hcase with ⟨-, hnone | hoffer⟩ | ⟨-, hnone | hack⟩
        · cases hnone
        · cases hoffer
          rfl
        · cases hnone
        · cases hack
          rfl
      exact haddr (hyiaddr.symm.trans (hreply.trans hzero))

end Recv

section Start
variable {fuel : Nat} {netif : Netif} {opt : Options} {mem pcb : Bool} {s : Server}
  {usedIp netMask endHost : Addr}

theorem nextHost_self {host next : Addr} (hvalid : checkHostIdIsValid usedIp netMask host = true)
    (h : nextHost usedIp netMask fuel host = some next) : next = host := by
  cases fuel with
  | zero => cases h
  | succ fuel =>
    rw [nextHost, if_pos hvalid, Option.some.injEq] at h
    exact h.symm

/-- From a host id behind the end on, every entry is out of the range. -/
theorem initClients_behind {host : Addr} (hvalid : checkHostIdIsValid usedIp netMask host = true)
    (hend : endHost ≠ 0 ∧ endHost < host) : ∀ {num : Nat} {l : List Client},
    initClients usedIp netMask endHost fuel num host = some l → ∀ c ∈ l, c = outOfRange := by
  intro num
  induction num with
  | zero =>
    intro l h
    cases h
    exact fun c hc => nomatch hc
  | succ num ih =>
    intro l h
    obtain ⟨next, hnext, h⟩ := Option.bind_eq_some_iff.mp h
    rw [nextHost_self hvalid hnext, if_pos hend] at h
    obtain ⟨l', hl', rfl⟩ := Option.map_eq_some_iff.mp h
    intro c hc
    rcases List.mem_cons.mp hc with rfl | hc
    · rfl
    · exact ih hl' c hc

theorem initClients_addresses : ∀ {num : Nat} {start : Addr} {l : List Client},
    start ≤ ~~~netMask → initClients usedIp netMask endHost fuel num start = some l →
    l.Pairwise fun c d => c.ipAddr = 0 → d.ipAddr = 0 := by
  intro num
  induction num with
  | zero =>
    intro start l _ h
    cases h
    exact List.Pairwise.nil
  | succ num ih =>
    intro start l hle h
    obtain ⟨host, hhost, h⟩ := Option.bind_eq_some_iff.mp h
    obtain ⟨hvalid, hhle⟩ := nextHost_valid hle hhost
    by_cases hend : endHost ≠ 0 ∧ endHost < host
    · rw [if_pos hend] at h
      obtain ⟨l', hl', rfl⟩ := Option.map_eq_some_iff.mp h
      refine List.Pairwise.cons (fun d hd _ => ?_) (ih hhle hl')
      rw [initClients_behind hvalid hend hl' d hd]
      rfl
    · rw [if_neg hend] at h
      obtain ⟨l', hl', rfl⟩ := Option.map_eq_some_iff.mp h
      refine List.Pairwise.cons (fun d _ hzero => ?_) (ih (valid_succ hvalid hhle).2 hl')
      exact absurd (BitVec.or_eq_zero_iff.mp hzero).2 (valid_iff.mp hvalid).2.2

theorem dhcpsStart_addressesFirst (h : dhcpsStart fuel netif opt mem pcb = some (.ok s)) :
    AddressesFirst s.clients := by
  obtain ⟨-, -, -, -, l, hl, hclients⟩ := dhcpsStart_clients h
  have hlen := initClients_length _ hl
  have hpair := List.pairwise_iff_getElem.mp (initClients_addresses (and_le_right _ _) hl)
  intro i j hij hzero
  obtain ⟨lease, hi⟩ := leaseLast_apply s.leaseTime (toTable l) i
  obtain ⟨lease', hj⟩ := leaseLast_apply s.leaseTime (toTable l) j
  rw [hclients, hi] at hzero
  rw [hclients, hj]
  dsimp only at hzero ⊢
  by_cases heq : i = j
  · rw [← heq]
    exact hzero
  · have hlt : i.val < j.val := Nat.lt_of_le_of_ne hij fun hval => heq (Fin.ext hval)
    have hil : i.val < l.length := by omega
    have hjl : j.val < l.length := by omega
    have hij' := hpair i.val j.val hil hjl hlt
    unfold toTable at hzero ⊢
    rw [List.getD_eq_getElem?_getD, List.getElem?_eq_getElem hil] at hzero
    rw [List.getD_eq_getElem?_getD, List.getElem?_eq_getElem hjl]
    exact hij' hzero

/-- In a pool without entries out of the range every entry is free at the start. -/
theorem dhcpsStart_idle (h : dhcpsStart fuel netif opt mem pcb = some (.ok s)) {k : Fin clientNum}
    (haddr : (s.clients k).ipAddr ≠ 0) : (s.clients k).state = .idle := by
  obtain ⟨-, -, -, -, l, hl, hclients⟩ := dhcpsStart_clients h
  obtain ⟨lease, hk⟩ := leaseLast_apply s.leaseTime (toTable l) k
  rw [hclients, hk] at haddr ⊢
  dsimp only at haddr ⊢
  have hmem := toTable_mem (initClients_length _ hl) k
  rcases initClients_placed (and_le_right _ _) hl _ hmem with hout | ⟨host, -, -, -, -, heq⟩
  · rw [hout] at haddr
    exact absurd rfl haddr
  · rw [heq]
    rfl

end Start

section Runs
variable {fuel : Nat} {netif : Netif} {opt : Options} {mem pcb : Bool} {s₀ s : Server}

/-- What a run from `s₀` keeps. -/
structure RenewalInv (s₀ s : Server) : Prop where
  ipAddr : ∀ k, (s.clients k).ipAddr = (s₀.clients k).ipAddr
  oneEach : (∀ k, (s₀.clients k).ipAddr ≠ 0) → OneEachOf (fun _ => True) s.clients

theorem RenewalInv.step {s' : Server} {e : Event} (hinv : RenewalInv s₀ s)
    (hs : step s e = some s') : RenewalInv s₀ s' := by
  cases e with
  | recv hwaddr pbuf m =>
    cases hs
    exact ⟨fun k => (recvCb_ipAddr rfl k).trans (hinv.ipAddr k),
      fun haddr => recvCb_oneEach rfl (hinv.oneEach haddr)⟩
  | tick =>
    cases hs
    exact ⟨fun k => (tickHandle_ipAddr s k).trans (hinv.ipAddr k),
      fun haddr => tickHandle_oneEach (hinv.oneEach haddr)⟩

/-- In every state of every run a client that has an address can renew its lease if and only if the
start left no entry out of the range. -/
theorem renews_iff (hstart : dhcpsStart fuel netif opt mem pcb = some (.ok s₀))
    (h : Reached (fun s => s = s₀) step anyStep s) {k : Fin clientNum} (hk : Holds s k) :
    Renews s k ↔ ∀ j, (s₀.clients j).ipAddr ≠ 0 := by
  have hinv : RenewalInv s₀ s := by
    refine h.invariant (fun s hs => ?_) fun s e s' hinv _ hs => hinv.step hs
    subst hs
    refine ⟨fun _ => rfl, fun haddr i j hi => ?_⟩
    exact absurd (dhcpsStart_idle hstart (haddr i)) hi
  constructor
  · intro hrenews j hzero
    have hfirst : AddressesFirst s.clients := fun i i' hle hi => by
      rw [hinv.ipAddr] at hi ⊢
      exact dhcpsStart_addressesFirst hstart i i' hle hi
    exact not_renews hfirst ((hinv.ipAddr j).trans hzero) hk.address hrenews
  · intro haddr
    refine renews_of_addresses (hinv.oneEach haddr) (fun j => ?_) hk.bound
    rw [hinv.ipAddr]
    exact haddr j

end Runs

section Example

/-- Client 1 is offered 192.168.1.2 and takes it. -/
def oneClient : List Event :=
  [message msgDiscover (mac 1) 0 0, message msgRequest (mac 1) 0xC0A80102 0xC0A80101]

/-- In a subnet of 256 the client has its address and renews it. -/
theorem renews_iff_oneClient :
    ∃ s₀ s, dhcpsStart 9 netif24 noOptions true true = some (.ok s₀) ∧
      exec step s₀ oneClient = some s ∧ Holds s 0 ∧ Renews s 0 := by
  have hstarted : (started (dhcpsStart 9 netif24 noOptions true true)).isSome := by decide +kernel
  obtain ⟨s₀, hs₀⟩ := Option.isSome_iff_exists.mp hstarted
  have haddr : (started (dhcpsStart 9 netif24 noOptions true true)).map
      (fun s => decide (∀ j, (s.clients j).ipAddr ≠ 0)) = some true := by decide +kernel
  have hfinal : ((started (dhcpsStart 9 netif24 noOptions true true)).bind
      (exec step · oneClient)).map (fun s => ((s.clients 0).state, (s.clients 0).ipAddr)) =
      some (.bind, 0xC0A80102) := by decide +kernel
  rw [hs₀] at haddr hfinal
  rw [Option.map_some, Option.some.injEq, decide_eq_true_iff] at haddr
  obtain ⟨s, hs, hfinal⟩ := Option.map_eq_some_iff.mp hfinal
  rw [Option.bind_some] at hs
  rw [Prod.mk.injEq] at hfinal
  have hholds : Holds s 0 := ⟨hfinal.1, by rw [hfinal.2]; decide⟩
  exact ⟨s₀, s, started_eq hs₀, hs, hholds, (renews_iff (started_eq hs₀)
    (Reached.of_exec (.start rfl) (along_anyStep _ _) hs) hholds).mpr haddr⟩

/-- The last five entries of a pool of three are out of the range, and the renewal is refused. -/
theorem not_renews_threeAddresses :
    ∃ s₀ s k, dhcpsStart 9 netif24 threeAddresses true true = some (.ok s₀) ∧
      Reached (fun s => s = s₀) step anyStep s ∧ Holds s k ∧ ¬ Renews s k ∧
      ∃ m s' reply, Renewal s k (some (mac 0)) m ∧
        recvCb s (some (mac 0)) true m = (s', some reply) ∧ reply.msgType = msgNak ∧
        (s'.clients k).state = .idle := by
  have hstarted : (started (dhcpsStart 9 netif24 threeAddresses true true)).isSome := by
    decide +kernel
  obtain ⟨s₀, hs₀⟩ := Option.isSome_iff_exists.mp hstarted
  have hfinal : ((started (dhcpsStart 9 netif24 threeAddresses true true)).bind
      (exec step · oneClient)).map (fun s => s.clients 0) =
      some ⟨.bind, defaultTimeout, 0xC0A80102, mac 1, defaultLeaseTime⟩ := by decide +kernel
  let m : Msg :=
    { len := 300, op := opRequest, hType := hwTypeEthernet, magic := magicNumber, chaddr := mac 1,
      xid := 1, flags := 0, msgType := some msgRequest, reqIpAddr := 0, serverId := 0 }
  have hreply : ((started (dhcpsStart 9 netif24 threeAddresses true true)).bind
      (exec step · oneClient)).map (fun s =>
        ((recvCb s (some (mac 0)) true m).2.map Reply.msgType,
          ((recvCb s (some (mac 0)) true m).1.clients 0).state)) =
      some (some msgNak, .idle) := by decide +kernel
  rw [hs₀, Option.bind_some] at hfinal hreply
  obtain ⟨s, hs, hclient⟩ := Option.map_eq_some_iff.mp hfinal
  rw [hs, Option.map_some, Option.some.injEq, Prod.mk.injEq] at hreply
  obtain ⟨hnak, hidle⟩ := hreply
  obtain ⟨reply, hsome, hnak⟩ := Option.map_eq_some_iff.mp hnak
  have hholds : Holds s 0 := by
    refine ⟨?_, ?_⟩
    · rw [hclient]
    · rw [hclient]
      decide
  have hm : Renewal s 0 (some (mac 0)) m := ⟨by decide, rfl, by rw [hclient], rfl, Or.inl rfl⟩
  refine ⟨s₀, s, 0, started_eq hs₀, Reached.of_exec (.start rfl) (along_anyStep _ _) hs, hholds,
    fun hrenews => ?_, m, (recvCb s (some (mac 0)) true m).1, reply, hm, Prod.ext rfl hsome, hnak,
    hidle⟩
  obtain ⟨s', ack, hrecv, hack, -⟩ := hrenews _ true _ hm
  rw [hrecv] at hsome
  cases hsome
  exact absurd (hack.symm.trans hnak) (show msgAck ≠ msgNak by decide)

end Example

end WmIot.Dhcp
