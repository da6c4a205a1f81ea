import WmIot.Dhcp.Safety

/-!
# Addresses of the pool

The pool loop of `DHCPS_Start` gives an entry an address of the subnet or leaves it out of the range.
An entry out of the range is never handed out as long as it stays bound: until its lease, which only
the last entry has, runs out, or a client without a hardware address takes it.
-/

namespace WmIot.Dhcp
open Transition
set_option autoImplicit false

/-- An address the server may hand out. -/
structure PoolAddr (netif : Netif) (opt : Options) (a : Addr) : Prop where
  inSubnet : a &&& netif.netmask = netif.ipAddr &&& netif.netmask
  notAny : a ≠ 0
  notNetwork : a ≠ netif.ipAddr &&& netif.netmask
  notBroadcast : a ≠ (netif.ipAddr &&& netif.netmask) ||| ~~~netif.netmask
  notServer : a ≠ netif.ipAddr
  fromStart : opt.startIp ≠ 0 → opt.startIp &&& ~~~netif.netmask ≤ a &&& ~~~netif.netmask
  toEnd : opt.endIp ≠ 0 → a &&& ~~~netif.netmask ≤ opt.endIp &&& ~~~netif.netmask

/-- The host bits of the netmask are the low ones. -/
def Contiguous (netMask : Addr) : Prop := ∃ k, (~~~netMask).toNat = 2 ^ k - 1

/-- The valid host ids of the subnet from `start` on. -/
def hostsFrom (usedIp netMask : Addr) (start : Nat) : List Nat :=
  (List.range' start ((~~~netMask).toNat - start)).filter fun h =>
    checkHostIdIsValid usedIp netMask (BitVec.ofNat 32 h)

/-- From `start` on there are ids for `num` entries, or an id behind the end. -/
def Room (usedIp netMask endHost : Addr) (num start : Nat) : Prop :=
  num ≤ (hostsFrom usedIp netMask start).length ∨
    endHost ≠ 0 ∧ ∃ h ∈ hostsFrom usedIp netMask start, endHost.toNat < h

/-- The loop of `DHCPS_Start` does not go on below a configured start, and an end that is configured
has a host id. -/
structure RangeKept (netif : Netif) (opt : Options) : Prop where
  contiguous : Contiguous netif.netmask
  endHost : opt.endIp ≠ 0 → opt.endIp &&& ~~~netif.netmask ≠ 0
  room : opt.startIp = 0 ∨
    Room netif.ipAddr netif.netmask (opt.endIp &&& ~~~netif.netmask) clientNum
      (opt.startIp &&& ~~~netif.netmask).toNat ∨
    opt.endIp ≠ 0 ∧ ∀ h, checkHostIdIsValid netif.ipAddr netif.netmask h = true →
      opt.endIp &&& ~~~netif.netmask < h

section Host
variable {usedIp netMask host : Addr}

theorem contiguous_and (h : Contiguous netMask) (hle : host ≤ ~~~netMask) :
    host &&& ~~~netMask = host := by
  obtain ⟨k, hk⟩ := h
  have hpos := Nat.two_pow_pos k
  rw [BitVec.le_def, hk] at hle
  apply BitVec.eq_of_toNat_eq
  rw [BitVec.toNat_and, hk, Nat.and_two_pow_sub_one_eq_mod, Nat.mod_eq_of_lt (by omega)]

theorem and_le_right (a b : Addr) : a &&& b ≤ b := by
  rw [BitVec.le_def, BitVec.toNat_and]
  exact Nat.and_le_right

theorem toNat_succ {a b : Addr} (h : a.toNat < b.toNat) : (a + 1).toNat = a.toNat + 1 := by
  have hb := b.isLt
  rw [BitVec.toNat_add]
  exact Nat.mod_eq_of_lt (show a.toNat + 1 < 2 ^ 32 by omega)

theorem address_and_mask (h : host &&& ~~~netMask = host) :
    (usedIp &&& netMask ||| host) &&& netMask = usedIp &&& netMask := by
  rw [← h]
  ext i
  simp only [BitVec.getElem_and, BitVec.getElem_or, BitVec.getElem_not]
  cases usedIp[i] <;> cases netMask[i] <;> cases host[i] <;> rfl

theorem address_and_host (h : host &&& ~~~netMask = host) :
    (usedIp &&& netMask ||| host) &&& ~~~netMask = host := by
  rw [← h]
  ext i
  simp only [BitVec.getElem_and, BitVec.getElem_or, BitVec.getElem_not]
  cases usedIp[i] <;> cases netMask[i] <;> cases host[i] <;> rfl

theorem valid_iff : checkHostIdIsValid usedIp netMask host = true ↔
    usedIp &&& ~~~netMask ≠ host ∧ host ≠ ~~~netMask ∧ host ≠ 0 := by
  unfold checkHostIdIsValid
  rw [decide_eq_true_iff]

/-- A valid host id makes an address of the pool. -/
theorem poolAddr_of_valid {netif : Netif} {opt : Options}
    (hvalid : checkHostIdIsValid netif.ipAddr netif.netmask host = true)
    (hhost : host &&& ~~~netif.netmask = host)
    (hstart : opt.startIp ≠ 0 → opt.startIp &&& ~~~netif.netmask ≤ host)
    (hend : opt.endIp ≠ 0 → host ≤ opt.endIp &&& ~~~netif.netmask) :
    PoolAddr netif opt (netif.ipAddr &&& netif.netmask ||| host) := by
  obtain ⟨hserver, hbroadcast, hzero⟩ := valid_iff.mp hvalid
  have hpart : (netif.ipAddr &&& netif.netmask ||| host) &&& ~~~netif.netmask = host :=
    address_and_host hhost
  refine ⟨address_and_mask hhost, fun heq => ?_, fun heq => ?_, fun heq => ?_, fun heq => ?_,
    fun h => ?_, fun h => ?_⟩
  · rw [heq] at hpart
    exact hzero (by simpa using hpart.symm)
  · rw [heq] at hpart
    exact hzero (by simpa [BitVec.and_assoc] using hpart.symm)
  · rw [heq, address_and_host (BitVec.and_self ..)] at hpart
    exact hbroadcast hpart.symm
  · rw [heq] at hpart
    exact hserver hpart
  · rw [hpart]
    exact hstart h
  · rw [hpart]
    exact hend h

end Host

section Loop
variable {usedIp netMask endHost : Addr} {fuel : Nat}

/-- What each turn of the search keeps holds of the host id it finds. -/
theorem nextHost_kept (Inv : Addr → Prop) (hturn : ∀ a, Inv a →
    ¬ checkHostIdIsValid usedIp netMask a = true → Inv ((a + 1) &&& ~~~netMask)) {host : Addr} :
    ∀ {fuel : Nat} {start : Addr}, Inv start → nextHost usedIp netMask fuel start = some host →
    checkHostIdIsValid usedIp netMask host = true ∧ Inv host := by
  intro fuel
  induction fuel with
  | zero =>
    intro start _ h
    cases h
  | succ fuel ih =>
    intro start hinv h
    rw [nextHost] at h
    by_cases hvalid : checkHostIdIsValid usedIp netMask start = true
    · rw [if_pos hvalid, Option.some.injEq] at h
      rw [← h]
      exact ⟨hvalid, hinv⟩
    · rw [if_neg hvalid] at h
      exact ih (hturn start hinv hvalid) h

theorem nextHost_valid {host : Addr} {fuel : Nat} {start : Addr} (hle : start ≤ ~~~netMask)
    (h : nextHost usedIp netMask fuel start = some host) :
    checkHostIdIsValid usedIp netMask host = true ∧ host ≤ ~~~netMask :=
  nextHost_kept (· ≤ ~~~netMask) (fun _ _ _ => and_le_right _ _) hle h

/-- A valid host id is not the last of the subnet. -/
theorem valid_succ {host : Addr} (hvalid : checkHostIdIsValid usedIp netMask host = true)
    (hle : host ≤ ~~~netMask) : (host + 1).toNat = host.toNat + 1 ∧ host + 1 ≤ ~~~netMask := by
  have hne : host.toNat ≠ (~~~netMask).toNat := fun heq =>
    (valid_iff.mp hvalid).2.1 (BitVec.eq_of_toNat_eq heq)
  rw [BitVec.le_def] at hle ⊢
  have hsucc := toNat_succ (a := host) (b := ~~~netMask) (by omega)
  exact ⟨hsucc, by omega⟩

/-- An entry of the table holds an address of the pool or is out of the range. -/
def Placed (usedIp netMask endHost : Addr) (inRange : Addr → Prop) (c : Client) : Prop :=
  c = outOfRange ∨ ∃ host, checkHostIdIsValid usedIp netMask host = true ∧ host ≤ ~~~netMask ∧
    ¬ (endHost ≠ 0 ∧ endHost < host) ∧ inRange host ∧
    c = { emptyClient with ipAddr := usedIp &&& netMask ||| host }

/-- An entry has a host id that the loop can come to, or such an id is behind the end. -/
theorem initClients_kept (Inv : Addr → Prop)
    (hturn : ∀ a, Inv a → ¬ checkHostIdIsValid usedIp netMask a = true →
      Inv ((a + 1) &&& ~~~netMask))
    (hsucc : ∀ a, Inv a → checkHostIdIsValid usedIp netMask a = true → Inv (a + 1)) :
    ∀ {num : Nat} {start : Addr} {l : List Client}, Inv start →
    initClients usedIp netMask endHost fuel num start = some l → ∀ c ∈ l,
    ∃ host, checkHostIdIsValid usedIp netMask host = true ∧ Inv host ∧
      ((c = outOfRange ∧ endHost ≠ 0 ∧ endHost < host) ∨
        (¬ (endHost ≠ 0 ∧ endHost < host) ∧
          c = { emptyClient with ipAddr := usedIp &&& netMask ||| host })) := by
  intro num
  induction num with
  | zero =>
    intro start l _ h
    cases h
    exact fun c hc => nomatch hc
  | succ num ih =>
    intro start l hinv h
    obtain ⟨host, hhost, h⟩ := Option.bind_eq_some_iff.mp h
    obtain ⟨hvalid, hhinv⟩ := nextHost_kept Inv hturn hinv hhost
    by_cases hend : endHost ≠ 0 ∧ endHost < host
    · rw [if_pos hend] at h
      obtain ⟨l', hl', rfl⟩ := Option.map_eq_some_iff.mp h
      intro c hc
      rcases List.mem_cons.mp hc with rfl | hc
      · exact ⟨host, hvalid, hhinv, Or.inl ⟨rfl, hend⟩⟩
      · exact ih hhinv hl' c hc
    · rw [if_neg hend] at h
      obtain ⟨l', hl', rfl⟩ := Option.map_eq_some_iff.mp h
      intro c hc
      rcases List.mem_cons.mp hc with rfl | hc
      · exact ⟨host, hvalid, hhinv, Or.inr ⟨hend, rfl⟩⟩
      · exact ih (hsucc host hhinv hvalid) hl' c hc

theorem initClients_placed {num : Nat} {start : Addr} {l : List Client} (hle : start ≤ ~~~netMask)
    (h : initClients usedIp netMask endHost fuel num start = some l) :
    ∀ c ∈ l, Placed usedIp netMask endHost (fun _ => True) c := by
  intro c hc
  obtain ⟨host, hvalid, hhle, hcase⟩ := initClients_kept (· ≤ ~~~netMask)
    (fun _ _ _ => and_le_right _ _) (fun _ hle hvalid => (valid_succ hvalid hle).2) hle h c hc
  rcases hcase with ⟨hout, -⟩ | ⟨hend, heq⟩
  · exact Or.inl hout
  · exact Or.inr ⟨host, hvalid, hhle, hend, trivial, heq⟩

theorem hostsFrom_lt {start : Nat} (h : start < (~~~netMask).toNat) :
    hostsFrom usedIp netMask start =
      if checkHostIdIsValid usedIp netMask (BitVec.ofNat 32 start) then
        start :: hostsFrom usedIp netMask (start + 1)
      else hostsFrom usedIp netMask (start + 1) := by
  obtain ⟨n, hn⟩ : ∃ n, (~~~netMask).toNat - start = n + 1 := ⟨_, (Nat.succ_pred (by omega)).symm⟩
  have hn' : (~~~netMask).toNat - (start + 1) = n := by omega
  rw [hostsFrom, hostsFrom, hn, hn', List.range'_succ, List.filter_cons]

theorem hostsFrom_ge {start : Nat} (h : (~~~netMask).toNat ≤ start) :
    hostsFrom usedIp netMask start = [] := by
  rw [hostsFrom, Nat.sub_eq_zero_of_le h]
  rfl

/-- While there are valid ids ahead the search does not wrap. -/
theorem nextHost_hostsFrom (hmask : Contiguous netMask) {host : Addr} {h : Nat} {rest : List Nat} :
    ∀ {fuel : Nat} {start : Addr}, hostsFrom usedIp netMask start.toNat = h :: rest →
      nextHost usedIp netMask fuel start = some host →
      host.toNat = h ∧ start ≤ host ∧ hostsFrom usedIp netMask (h + 1) = rest := by
  intro fuel
  induction fuel with
  | zero =>
    intro start _ hnext
    cases hnext
  | succ fuel ih =>
    intro start hhosts hnext
    have hlt : start.toNat < (~~~netMask).toNat := by
      by_contra hge
      rw [hostsFrom_ge (by omega)] at hhosts
      cases hhosts
    rw [nextHost] at hnext
    rw [hostsFrom_lt hlt, BitVec.ofNat_toNat, BitVec.setWidth_eq] at hhosts
    by_cases hvalid : checkHostIdIsValid usedIp netMask start = true
    · rw [if_pos hvalid] at hhosts hnext
      cases hhosts
      cases hnext
      exact ⟨rfl, BitVec.le_refl _, rfl⟩
    · rw [if_neg hvalid] at hhosts hnext
      have hsucc := toNat_succ hlt
      rw [contiguous_and hmask (by rw [BitVec.le_def]; omega)] at hnext
      rw [← hsucc] at hhosts
      obtain ⟨hhost, hle, hrest⟩ := ih hhosts hnext
      exact ⟨hhost, by rw [BitVec.le_def] at hle ⊢; omega, hrest⟩

/-- With room for all entries the loop stays at or above its start. -/
theorem initClients_room (hmask : Contiguous netMask) : ∀ {num : Nat} {start : Addr}
    {l : List Client}, start ≤ ~~~netMask → Room usedIp netMask endHost num start.toNat →
    initClients usedIp netMask endHost fuel num start = some l →
    ∀ c ∈ l, Placed usedIp netMask endHost (start ≤ ·) c := by
  intro num
  induction num with
  | zero =>
    intro start l _ _ h
    cases h
    exact fun c hc => nomatch hc
  | succ num ih =>
    intro start l hle hroom h
    obtain ⟨host, hhost, h⟩ := Option.bind_eq_some_iff.mp h
    obtain ⟨hvalid, hhle⟩ := nextHost_valid hle hhost
    rcases hhosts : hostsFrom usedIp netMask start.toNat with _ | ⟨head, rest⟩
    · rw [Room, hhosts] at hroom
      rcases hroom with hlen | ⟨-, _, hmem, -⟩
      · cases hlen
      · cases hmem
    · obtain ⟨hhead, hstart, hrest⟩ := nextHost_hostsFrom hmask hhosts hhost
      rw [Room, hhosts] at hroom
      by_cases hend : endHost ≠ 0 ∧ endHost < host
      · rw [if_pos hend] at h
        obtain ⟨l', hl', rfl⟩ := Option.map_eq_some_iff.mp h
        have hself : hostsFrom usedIp netMask host.toNat = head :: rest := by
          have hne : host.toNat ≠ (~~~netMask).toNat := fun heq =>
            (valid_iff.mp hvalid).2.1 (BitVec.eq_of_toNat_eq heq)
          rw [BitVec.le_def] at hhle
          rw [hostsFrom_lt (by omega), BitVec.ofNat_toNat, BitVec.setWidth_eq, if_pos hvalid, hhead,
            hrest]
        have hroom' : Room usedIp netMask endHost num host.toNat := by
          refine Or.inr ⟨hend.1, head, ?_, ?_⟩
          · rw [hself]
            exact List.mem_cons_self
          · rw [← hhead]
            exact hend.2
        intro c hc
        rcases List.mem_cons.mp hc with rfl | hc
        · exact Or.inl rfl
        · rcases ih hhle hroom' hl' c hc with hout | ⟨host', hv, hl, he, hfrom, heq⟩
          · exact Or.inl hout
          · exact Or.inr ⟨host', hv, hl, he, BitVec.le_trans hstart hfrom, heq⟩
      · rw [if_neg hend] at h
        obtain ⟨l', hl', rfl⟩ := Option.map_eq_some_iff.mp h
        obtain ⟨hsucc, hsle⟩ := valid_succ hvalid hhle
        have hnext : hostsFrom usedIp netMask (host + 1).toNat = rest := by
          rw [hsucc, hhead, hrest]
        have hroom' : Room usedIp netMask endHost num (host + 1).toNat := by
          rw [Room, hnext]
          rcases hroom with hlen | ⟨hzero, k, hk, hlt⟩
          · exact Or.inl (Nat.le_of_succ_le_succ hlen)
          · rcases List.mem_cons.mp hk with rfl | hk
            · rw [← hhead] at hlt
              exact absurd ⟨hzero, hlt⟩ hend
            · exact Or.inr ⟨hzero, k, hk, hlt⟩
        intro c hc
        rcases List.mem_cons.mp hc with rfl | hc
        · exact Or.inr ⟨host, hvalid, hhle, hend, hstart, rfl⟩
        · rcases ih hsle hroom' hl' c hc with hout | ⟨host', hv, hl, he, hfrom, heq⟩
          · exact Or.inl hout
          · have hup : start ≤ host' := by
              rw [BitVec.le_def] at hstart hfrom ⊢
              omega
            exact Or.inr ⟨host', hv, hl, he, hup, heq⟩

end Loop

/-- An entry out of the range: bound, without a client and an address. -/
structure Placeholder (c : Client) : Prop where
  bound : c.state = .bind
  ipAddr : c.ipAddr = 0
  macAddr : c.macAddr = zeroMac

instance (c : Client) : Decidable (Placeholder c) :=
  decidable_of_iff (c.state = .bind ∧ c.ipAddr = 0 ∧ c.macAddr = zeroMac)
    ⟨fun h => ⟨h.1, h.2.1, h.2.2⟩, fun h => ⟨h.bound, h.ipAddr, h.macAddr⟩⟩

def PoolTable (netif : Netif) (opt : Options) (t : Table) : Prop :=
  ∀ k, PoolAddr netif opt (t k).ipAddr ∨ Placeholder (t k)

section Start
variable {fuel : Nat} {netif : Netif} {opt : Options} {mem pcb : Bool} {s : Server}

theorem Placed.entry (hkept : RangeKept netif opt) {inRange : Addr → Prop} {c : Client}
    (h : Placed netif.ipAddr netif.netmask (opt.endIp &&& ~~~netif.netmask) inRange c)
    (hstart : opt.startIp ≠ 0 → ∀ host, inRange host → opt.startIp &&& ~~~netif.netmask ≤ host) :
    PoolAddr netif opt c.ipAddr ∨ Placeholder c := by
  rcases h with hout | ⟨host, hvalid, hle, hend, hrange, hc⟩
  · rw [hout]
    exact Or.inr ⟨rfl, rfl, rfl⟩
  · rw [hc]
    refine Or.inl (poolAddr_of_valid hvalid (contiguous_and hkept.contiguous hle)
      (fun h => hstart h host hrange) fun h => ?_)
    have hbelow : ¬ opt.endIp &&& ~~~netif.netmask < host := fun hlt => hend ⟨hkept.endHost h, hlt⟩
    rw [BitVec.lt_def] at hbelow
    rw [BitVec.le_def]
    omega

theorem initClients_entries (hkept : RangeKept netif opt) {l : List Client}
    (h : initClients netif.ipAddr netif.netmask (opt.endIp &&& ~~~netif.netmask) fuel clientNum
      (startIpAddr netif opt &&& ~~~netif.netmask) = some l) :
    ∀ c ∈ l, PoolAddr netif opt c.ipAddr ∨ Placeholder c := by
  intro c hc
  have hle := and_le_right (startIpAddr netif opt) (~~~netif.netmask)
  rcases hkept.room with hnone | hroom | ⟨hend, habove⟩
  · exact (initClients_placed hle h c hc).entry hkept fun hsome => absurd hnone hsome
  · by_cases hsome : opt.startIp = 0
    · exact (initClients_placed hle h c hc).entry hkept fun hne => absurd hsome hne
    · have hstart : startIpAddr netif opt = opt.startIp := if_pos hsome
      rw [hstart] at h hle
      exact (initClients_room hkept.contiguous hle hroom h c hc).entry hkept fun _ _ hfrom => hfrom
  · rcases initClients_placed hle h c hc with hout | ⟨host, hvalid, -, hnot, -, -⟩
    · rw [hout]
      exact Or.inr ⟨rfl, rfl, rfl⟩
    · exact absurd ⟨hkept.endHost hend, habove host hvalid⟩ hnot

theorem dhcpsStart_pool (hkept : RangeKept netif opt)
    (h : dhcpsStart fuel netif opt mem pcb = some (.ok s)) : PoolTable netif opt s.clients := by
  obtain ⟨-, -, -, -, l, hl, hclients⟩ := dhcpsStart_clients h
  intro k
  obtain ⟨lease, hk⟩ := leaseLast_apply s.leaseTime (toTable l) k
  rw [hclients, hk]
  rcases initClients_entries hkept hl _ (toTable_mem (initClients_length _ hl) k) with
    hpool | hplace
  · exact Or.inl hpool
  · exact Or.inr ⟨hplace.bound, hplace.ipAddr, hplace.macAddr⟩

end Start

/-- A server and the messages it has sent. -/
structure Session where
  server : Server
  sent : List Reply

def Session.step (x : Session) : Event → Option Session
  | .recv hwaddr pbuf m =>
    let (s, r) := recvCb x.server hwaddr pbuf m
    some ⟨s, x.sent ++ r.toList⟩
  | .tick => some { x with server := tickHandle x.server }

/-- A message without a hardware address that leaves an entry with that mark alone. -/
def Harmless (s : Server) (m : Msg) : Prop :=
  m.msgType ≠ some msgDiscover ∧ m.msgType ≠ some msgRelease ∧ m.msgType ≠ some msgDecline ∧
    (m.msgType = some msgRequest → ¬ forMe s.serverIpAddr m.serverId ∧
      (scan s.clients m.chaddr m.reqIpAddr).reqClient = none ∧
      (scan s.clients m.chaddr m.reqIpAddr).ipUnavailable = false)

instance (s : Server) (m : Msg) : Decidable (Harmless s m) :=
  inferInstanceAs (Decidable (_ ∧ _ ∧ _ ∧ (_ → ¬ _ ∧ _ ∧ _)))

/-- No lease of an entry out of the range runs out, and no client without a hardware address takes
such an entry. -/
def offPlaceholders (x : Session) : Event → Prop
  | .recv hwaddr _ m => passes hwaddr m = true → m.chaddr = zeroMac →
      (∃ k, Placeholder (x.server.clients k)) → Harmless x.server m
  | .tick => x.server.enable = true →
      ∀ k, Placeholder (x.server.clients k) → (x.server.clients k).lease ≠ 1

instance (x : Session) : ∀ e, Decidable (offPlaceholders x e)
  | .recv hwaddr _ m => inferInstanceAs (Decidable (passes hwaddr m = true → m.chaddr = zeroMac →
      (∃ k, Placeholder (x.server.clients k)) → Harmless x.server m))
  | .tick => inferInstanceAs (Decidable (x.server.enable = true →
      ∀ k, Placeholder (x.server.clients k) → (x.server.clients k).lease ≠ 1))

section Recv
variable {s s' : Server} {hwaddr : Option Mac} {pbuf : Bool} {m : Msg} {r : Option Reply}

/-- The lookup for a harmless message changes and names no entry. -/
theorem Harmless.lookup (h : Harmless s m) {msgType : UInt8} (hmsg : m.msgType = some msgType) :
    clientTableLookup s m.chaddr msgType m.reqIpAddr m.serverId = (s.clients, none) := by
  obtain ⟨hdiscover, hrelease, hdecline, hrequest⟩ := h
  rw [hmsg, ne_eq, Option.some.injEq] at hdiscover hrelease hdecline
  rw [hmsg, Option.some.injEq] at hrequest
  unfold clientTableLookup
  dsimp only
  rw [if_neg hdiscover, if_neg hrelease, if_neg hdecline]
  by_cases hreq : msgType = msgRequest
  · obtain ⟨hme, hnone, hfree⟩ := hrequest hreq
    rw [if_pos hreq, lookupRequest]
    cases (scan s.clients m.chaddr m.reqIpAddr).myClient with
    | none =>
      dsimp only
      rw [hfree, if_neg Bool.false_ne_true, if_neg hme]
    | some my =>
      dsimp only
      rw [hfree, hnone, if_neg Bool.false_ne_true]
      dsimp only
      rw [if_neg hme]
  · rw [if_neg hreq]

theorem Harmless.recvCb (hharmless : Harmless s m) (h : recvCb s hwaddr pbuf m = (s', r)) :
    s'.clients = s.clients ∧ (r = none ∨ r = some (nakGen s m.chaddr m.xid)) := by
  rcases recvCb_cases h with ⟨hs', hr⟩ | ⟨msgType, hmsg, t, ret, hlook, hcase⟩
  · rw [hs']
    exact ⟨rfl, Or.inl hr⟩
  · rw [hharmless.lookup hmsg, Prod.mk.injEq] at hlook
    obtain ⟨ht, hret⟩ := hlook
    rcases hcase with ⟨-, hs', hr⟩ | ⟨j, hj, -⟩
    · rw [hs']
      exact ⟨ht.symm, hr⟩
    · rw [hj] at hret
      cases hret

theorem recvCb_dropped (h : ¬ passes hwaddr m = true) : recvCb s hwaddr pbuf m = (s, none) :=
  if_neg h

variable {netif : Netif} {opt : Options} {sent : List Reply}

/-- What the server grants is an address of the pool, and the table stays one of pool addresses and
entries out of the range. -/
theorem recvCb_pool (hpool : PoolTable netif opt s.clients)
    (hok : offPlaceholders ⟨s, sent⟩ (.recv hwaddr pbuf m))
    (h : recvCb s hwaddr pbuf m = (s', r)) :
    PoolTable netif opt s'.clients ∧
      ∀ reply ∈ r, reply.msgType = msgOffer ∨ reply.msgType = msgAck →
        PoolAddr netif opt reply.yiaddr := by
  by_cases hpass : passes hwaddr m = true
  · by_cases hsome : m.chaddr = zeroMac ∧ ∃ k, Placeholder (s.clients k)
    · obtain ⟨htable, hr⟩ := (hok hpass hsome.1 hsome.2).recvCb h
      rw [htable]
      refine ⟨hpool, fun reply hreply hgrant => ?_⟩
      rcases hr with hr | hr
      · rw [hr] at hreply
        cases hreply
      · rw [hr] at hreply
        cases hreply
        rcases hgrant with hgrant | hgrant
        · exact absurd hgrant (show msgNak ≠ msgOffer by decide)
        · exact absurd hgrant (show msgNak ≠ msgAck by decide)
    · -- entries out of the range belong to another client than the sender
      have hother : ∀ k, Placeholder (s.clients k) → (s.clients k).macAddr ≠ m.chaddr :=
        fun k hplace heq => hsome ⟨heq ▸ hplace.macAddr, k, hplace⟩
      refine ⟨fun k => ?_, fun reply hreply hgrant => ?_⟩
      · rcases hpool k with haddr | hplace
        · rw [recvCb_ipAddr h k]
          exact Or.inl haddr
        · have hstate : (s.clients k).state ≠ .idle := by
            rw [hplace.bound]
            simp
          rw [recvCb_frame h hstate (hother k hplace)]
          exact Or.inr hplace
      · rw [Option.mem_def] at hreply
        rw [hreply] at h
        obtain ⟨j, hyiaddr, -, hown⟩ := recvCb_granted h hgrant
        rw [hyiaddr]
        rcases hpool j with haddr | hplace
        · exact haddr
        · rcases hown with hidle | hmac
          · rw [hplace.bound] at hidle
            cases hidle
          · exact absurd hmac (hother j hplace)
  · rw [recvCb_dropped hpass] at h
    cases h
    exact ⟨hpool, fun reply hreply => by cases hreply⟩

theorem Placeholder.tick {c : Client} (h : Placeholder c) (hlease : c.lease ≠ 1) :
    Placeholder c.tick := by
  unfold Client.tick
  rw [h.bound]
  dsimp only
  by_cases hzero : c.lease = 0
  · rw [if_pos hzero]
    exact h
  · rw [if_neg hzero, if_neg (by omega)]
    exact ⟨rfl, h.ipAddr, h.macAddr⟩

theorem tickHandle_pool (hpool : PoolTable netif opt s.clients)
    (hok : offPlaceholders ⟨s, sent⟩ .tick) : PoolTable netif opt (tickHandle s).clients := by
  intro k
  rcases hpool k with haddr | hplace
  · rw [tickHandle_ipAddr]
    exact Or.inl haddr
  · unfold tickHandle
    by_cases henable : s.enable = true
    · rw [if_pos henable]
      exact Or.inr (hplace.tick (hok henable k hplace))
    · rw [if_neg henable]
      exact Or.inr hplace

end Recv

section Runs
variable {fuel : Nat} {netif : Netif} {opt : Options} {mem pcb : Bool} {s₀ : Server} {x : Session}

structure SessionInv (netif : Netif) (opt : Options) (x : Session) : Prop where
  table : PoolTable netif opt x.server.clients
  granted : ∀ r ∈ x.sent, r.msgType = msgOffer ∨ r.msgType = msgAck → PoolAddr netif opt r.yiaddr

theorem SessionInv.step {x' : Session} {e : Event} (hinv : SessionInv netif opt x)
    (hok : offPlaceholders x e) (h : x.step e = some x') : SessionInv netif opt x' := by
  cases e with
  | recv hwaddr pbuf m =>
    cases h
    obtain ⟨htable, hgranted⟩ := recvCb_pool hinv.table hok rfl
    refine ⟨htable, fun r hr hgrant => ?_⟩
    rcases List.mem_append.mp hr with hr | hr
    · exact hinv.granted r hr hgrant
    · exact hgranted r (Option.mem_toList.mp hr) hgrant
  | tick =>
    cases h
    exact ⟨tickHandle_pool hinv.table hok, hinv.granted⟩

/-- Every address the server offers or acknowledges is one of the pool. -/
theorem granted_in_pool (hstart : dhcpsStart fuel netif opt mem pcb = some (.ok s₀))
    (hkept : RangeKept netif opt)
    (h : Reached (fun x => x = ⟨s₀, []⟩) Session.step offPlaceholders x) :
    ∀ r ∈ x.sent, r.msgType = msgOffer ∨ r.msgType = msgAck → PoolAddr netif opt r.yiaddr := by
  have hinv : SessionInv netif opt x := by
    refine h.invariant (fun x hx => ?_) fun x e x' hinv hok hs => hinv.step hok hs
    subst hx
    exact ⟨dhcpsStart_pool hkept hstart, fun r hr => by cases hr⟩
  exact hinv.granted

end Runs

section Example

theorem threeAddresses_kept : RangeKept netif24 threeAddresses := by
  refine ⟨⟨8, by decide⟩, fun _ => by decide, Or.inr (Or.inl (Or.inr ⟨by decide, 5, ?_, by decide⟩))⟩
  decide +kernel

/-- Two clients and a second of a pool of three: both are offered an address of it. -/
theorem granted_in_pool_twoClients :
    ∃ s₀ x, dhcpsStart 9 netif24 threeAddresses true true = some (.ok s₀) ∧
      exec Session.step ⟨s₀, []⟩ (twoClients ++ [.tick]) = some x ∧
      x.sent.map Reply.msgType = [msgOffer, msgAck, msgOffer, msgNak] ∧
      ∀ r ∈ x.sent, r.msgType = msgOffer ∨ r.msgType = msgAck →
        PoolAddr netif24 threeAddresses r.yiaddr := by
  have hstarted : (started (dhcpsStart 9 netif24 threeAddresses true true)).isSome := by
    decide +kernel
  obtain ⟨s₀, hs₀⟩ := Option.isSome_iff_exists.mp hstarted
  have hsent : ((started (dhcpsStart 9 netif24 threeAddresses true true)).bind
      fun s => exec Session.step ⟨s, []⟩ (twoClients ++ [.tick])).map
      (fun x => x.sent.map Reply.msgType) = some [msgOffer, msgAck, msgOffer, msgNak] := by
    decide +kernel
  have halong : (started (dhcpsStart 9 netif24 threeAddresses true true)).map (fun s =>
      decide (Along Session.step offPlaceholders ⟨s, []⟩ (twoClients ++ [.tick]))) = some true := by
    decide +kernel
  rw [hs₀, Option.bind_some] at hsent
  rw [hs₀, Option.map_some, Option.some.injEq, decide_eq_true_iff] at halong
  obtain ⟨x, hx, hsent⟩ := Option.map_eq_some_iff.mp hsent
  exact ⟨s₀, x, started_eq hs₀, hx, hsent, granted_in_pool (started_eq hs₀) threeAddresses_kept
    (Reached.of_exec (.start rfl) halong hx)⟩

/-- The lease of the last entry, out of the range, runs out after a second and the entry is offered.
With the last host ids of the subnet as the range the pool goes on at its first. -/
theorem granted_out_of_pool :
    (∃ s₀ x, dhcpsStart 9 netif24 { threeAddresses with leaseTime := 1 } true true =
        some (.ok s₀) ∧
      Reached (fun x => x = ⟨s₀, []⟩) Session.step anyStep x ∧
      ∃ r ∈ x.sent, r.msgType = msgOffer ∧ r.yiaddr = 0) ∧
    ∃ s₀ x, dhcpsStart 9 netif24 { noOptions with startIp := 0xC0A801FA, endIp := 0xC0A801FE }
        true true = some (.ok s₀) ∧
      Reached (fun x => x = ⟨s₀, []⟩) Session.step anyStep x ∧
      ∃ r ∈ x.sent, r.msgType = msgOffer ∧ r.yiaddr = 0xC0A80102 := by
  constructor
  · have hstarted : (started (dhcpsStart 9 netif24 { threeAddresses with leaseTime := 1 }
        true true)).isSome := by decide +kernel
    obtain ⟨s₀, hs₀⟩ := Option.isSome_iff_exists.mp hstarted
    have hsent : ((started (dhcpsStart 9 netif24 { threeAddresses with leaseTime := 1 }
        true true)).bind fun s => exec Session.step ⟨s, []⟩ [.tick, message msgDiscover (mac 1) 0 0]).map
        (fun x => x.sent.map fun r => (r.msgType, r.yiaddr)) = some [(msgOffer, 0)] := by
      decide +kernel
    rw [hs₀, Option.bind_some] at hsent
    obtain ⟨x, hx, hsent⟩ := Option.map_eq_some_iff.mp hsent
    obtain ⟨r, hr, hreply⟩ := List.mem_map.mp (hsent ▸ List.mem_singleton_self _)
    rw [Prod.mk.injEq] at hreply
    exact ⟨s₀, x, started_eq hs₀, Reached.of_exec (.start rfl) (along_anyStep _ _) hx, r, hr, hreply⟩
  · have hstarted : (started (dhcpsStart 9 netif24 { noOptions with
        startIp := 0xC0A801FA, endIp := 0xC0A801FE } true true)).isSome := by decide +kernel
    obtain ⟨s₀, hs₀⟩ := Option.isSome_iff_exists.mp hstarted
    have hsent : ((started (dhcpsStart 9 netif24 { noOptions with
        startIp := 0xC0A801FA, endIp := 0xC0A801FE } true true)).bind fun s =>
          exec Session.step ⟨s, []⟩ [message msgDiscover (mac 1) 0xC0A80102 0]).map
        (fun x => x.sent.map fun r => (r.msgType, r.yiaddr)) = some [(msgOffer, 0xC0A80102)] := by
      decide +kernel
    rw [hs₀, Option.bind_some] at hsent
    obtain ⟨x, hx, hsent⟩ := Option.map_eq_some_iff.mp hsent
    obtain ⟨r, hr, hreply⟩ := List.mem_map.mp (hsent ▸ List.mem_singleton_self _)
    rw [Prod.mk.injEq] at hreply
    exact ⟨s₀, x, started_eq hs₀, Reached.of_exec (.start rfl) (along_anyStep _ _) hx, r, hr, hreply⟩

end Example

end WmIot.Dhcp
