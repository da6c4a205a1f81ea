import WmIot.Dhcp.Renewal

/-!
# The size of the pool

Under a netmask the pool loop of `DHCPS_Start` goes through the host ids that agree with its start
above the lowest bit of the netmask; for a netmask of leading ones these are the ids of the subnet. It
comes round to them again, unless the last of them can be handed out: behind it the loop goes on with
ids that are not masked.
-/

namespace WmIot.Dhcp
set_option autoImplicit false

/-- An address of the server's subnet that is not the subnet's, the broadcast's or the server's. -/
structure HostAddr (netif : Netif) (a : Addr) : Prop where
  inSubnet : a &&& netif.netmask = netif.ipAddr &&& netif.netmask
  notNetwork : a ≠ netif.ipAddr &&& netif.netmask
  notBroadcast : a ≠ (netif.ipAddr &&& netif.netmask) ||| ~~~netif.netmask
  notServer : a ≠ netif.ipAddr

/-- After the start the entries in the range, which are idle, have addresses for hosts, each its
own. -/
structure PoolBuilt (netif : Netif) (s : Server) : Prop where
  host : ∀ i, (s.clients i).state = .idle → HostAddr netif (s.clients i).ipAddr
  distinct : ∀ i j, (s.clients i).state = .idle → (s.clients j).state = .idle →
    (s.clients i).ipAddr = (s.clients j).ipAddr → i = j

/-- `DHCPS_Start` returns, with such a pool. -/
def Built (netif : Netif) (opt : Options) : Prop :=
  ∃ fuel s, dhcpsStart fuel netif opt true true = some (.ok s) ∧ PoolBuilt netif s

/-- The number of host bits below the lowest bit of the netmask. -/
def hostBits (netMask : Addr) : Nat := netMask.ctz.toNat

/-- The valid ones of `num` host ids from `first` on. -/
def validIds (usedIp netMask : Addr) (first num : Nat) : List Nat :=
  (List.range' first num).filter fun h =>
    checkHostIdIsValid usedIp netMask (BitVec.ofNat 32 h)

/-- The first of the ids that agree with `start` above the low host bits. -/
def firstId (netMask start : Addr) : Nat :=
  start.toNat / 2 ^ hostBits netMask * 2 ^ hostBits netMask

def lastId (netMask start : Addr) : Nat := firstId netMask start + 2 ^ hostBits netMask - 1

/-- The number of valid ids from `start` to the last one. -/
def ahead (usedIp netMask start : Addr) : Nat :=
  (validIds usedIp netMask start.toNat (lastId netMask start + 1 - start.toNat)).length

/-- There are ids for all entries, or an id behind the end. -/
def Suffices (usedIp netMask endHost start : Addr) : Prop :=
  if checkHostIdIsValid usedIp netMask (BitVec.ofNat 32 (lastId netMask start)) then
    clientNum ≤ ahead usedIp netMask start ∨
    (endHost ≠ 0 ∧ endHost.toNat ≤ lastId netMask start) ∨
    -- with the bit of the netmask, which the server has, the ids behind the last one are the first
    (usedIp.getLsbD (hostBits netMask) = true ∧
      clientNum - ahead usedIp netMask start ≤ start.toNat - firstId netMask start ∧
      ∀ j < clientNum - ahead usedIp netMask start,
        checkHostIdIsValid usedIp netMask (BitVec.ofNat 32 (firstId netMask start + j)) = true)
  else
    clientNum ≤ (validIds usedIp netMask (firstId netMask start) (2 ^ hostBits netMask)).length ∨
    (endHost ≠ 0 ∧ ∃ h ∈ validIds usedIp netMask (firstId netMask start) (2 ^ hostBits netMask),
      endHost.toNat < h)

section Bits
variable {netMask : Addr} {x : Nat}

theorem getLsbD_hostBits (hbits : hostBits netMask < 32) : netMask.getLsbD (hostBits netMask) = true := by
  refine BitVec.getLsbD_true_ctz_of_ne_zero fun hzero => ?_
  rw [hzero] at hbits
  exact absurd hbits (by decide +kernel)

theorem hostBits_le (netMask : Addr) : hostBits netMask ≤ 32 := by
  by_cases hzero : netMask = 0
  · rw [hzero]
    decide +kernel
  · have hlt := BitVec.ctz_lt_iff_ne_zero.mpr hzero
    rw [BitVec.lt_def] at hlt
    exact Nat.le_of_lt hlt

theorem host_low (netMask : Addr) :
    (~~~netMask).toNat % 2 ^ hostBits netMask = 2 ^ hostBits netMask - 1 := by
  apply Nat.eq_of_testBit_eq
  intro i
  rw [Nat.testBit_mod_two_pow, Nat.testBit_two_pow_sub_one, ← BitVec.getLsbD]
  by_cases hi : i < hostBits netMask
  · have hfalse : netMask.getLsbD i = false := BitVec.getLsbD_false_of_lt_ctz hi
    have hle := hostBits_le netMask
    have hlt : i < 32 := by omega
    rw [BitVec.getLsbD_not, hfalse]
    simp [hi, hlt]
  · simp [hi]

theorem host_even (netMask : Addr) : (~~~netMask).toNat / 2 ^ hostBits netMask % 2 = 0 := by
  have hbit : (~~~netMask).toNat.testBit (hostBits netMask) = false := by
    rw [← BitVec.getLsbD, BitVec.getLsbD_not]
    by_cases hlt : hostBits netMask < 32
    · rw [getLsbD_hostBits hlt]
      simp
    · simp [hlt]
  rw [Nat.testBit_eq_decide_div_mod_eq, decide_eq_false_iff_not] at hbit
  omega

/-- The mask of the host bits leaves the low ones alone. -/
theorem and_hosts (netMask : Addr) (x : Nat) :
    x &&& (~~~netMask).toNat =
      2 ^ hostBits netMask * (x / 2 ^ hostBits netMask &&& (~~~netMask).toNat / 2 ^ hostBits netMask) +
        x % 2 ^ hostBits netMask := by
  have hsplit := Nat.div_add_mod (x &&& (~~~netMask).toNat) (2 ^ hostBits netMask)
  rw [Nat.and_div_two_pow, Nat.and_mod_two_pow, host_low, Nat.and_two_pow_sub_one_eq_mod,
    Nat.mod_mod] at hsplit
  exact hsplit.symm

theorem and_div_eq (h : x &&& (~~~netMask).toNat = x) :
    x / 2 ^ hostBits netMask &&& (~~~netMask).toNat / 2 ^ hostBits netMask = x / 2 ^ hostBits netMask := by
  rw [← Nat.and_div_two_pow, h]

theorem and_of_div_eq {y : Nat} (h : x &&& (~~~netMask).toNat = x)
    (hdiv : y / 2 ^ hostBits netMask = x / 2 ^ hostBits netMask) : y &&& (~~~netMask).toNat = y := by
  rw [and_hosts, hdiv, and_div_eq h, ← hdiv]
  exact Nat.div_add_mod _ _

/-- Behind the last id the bit of the netmask is masked away. -/
theorem and_behind (h : x &&& (~~~netMask).toNat = x) {y : Nat}
    (hdiv : y / 2 ^ hostBits netMask = x / 2 ^ hostBits netMask + 1) :
    y &&& (~~~netMask).toNat = y - 2 ^ hostBits netMask := by
  have heven := host_even netMask
  have hx := and_div_eq h
  have hy := Nat.div_add_mod y (2 ^ hostBits netMask)
  rw [and_hosts, hdiv]
  rw [hdiv] at hy
  generalize (~~~netMask).toNat / 2 ^ hostBits netMask = hosts at hx heven ⊢
  generalize x / 2 ^ hostBits netMask = q at hx hy ⊢
  have hq : q % 2 = 0 := by
    have hmod := congrArg (· % 2 ^ 1) hx
    rw [Nat.and_mod_two_pow, Nat.pow_one, heven, Nat.and_zero] at hmod
    exact hmod.symm
  have hsucc : q + 1 &&& hosts = q := by
    have hdiv2 : (q + 1 &&& hosts) / 2 = q / 2 := by
      have h1 := Nat.and_div_two_pow (a := q + 1) (b := hosts) (n := 1)
      have h2 := Nat.and_div_two_pow (a := q) (b := hosts) (n := 1)
      rw [hx] at h2
      rw [Nat.pow_one] at h1 h2
      have hhalf : (q + 1) / 2 = q / 2 := by omega
      rw [h1, h2, hhalf]
    have hmod2 : (q + 1 &&& hosts) % 2 = 0 := by
      have h1 := Nat.and_mod_two_pow (a := q + 1) (b := hosts) (n := 1)
      rw [Nat.pow_one, heven, Nat.and_zero] at h1
      exact h1
    omega
  rw [hsucc]
  rw [Nat.mul_add, Nat.mul_one] at hy
  omega

end Bits

section Walk
variable {usedIp netMask endHost : Addr} {fuel : Nat} {f : Nat → Addr}

abbrev Behind (endHost host : Addr) : Prop := endHost ≠ 0 ∧ endHost < host

def entry (usedIp netMask host : Addr) : Client :=
  { emptyClient with ipAddr := usedIp &&& netMask ||| host }

/-- For `turns` turns from `t` on the loop goes through the ids of `f`. -/
def Walk (usedIp netMask : Addr) (f : Nat → Addr) (t turns : Nat) : Prop :=
  ∀ i, t ≤ i → i < t + turns → f (i + 1) =
    if checkHostIdIsValid usedIp netMask (f i) then f i + 1 else (f i + 1) &&& ~~~netMask

def visited (usedIp netMask : Addr) (f : Nat → Addr) (t turns : Nat) : List Addr :=
  ((List.range' t turns).map f).filter fun h => checkHostIdIsValid usedIp netMask h

/-- The entries for the host ids, up to the first that is behind the end. -/
def fill (usedIp netMask endHost : Addr) : Nat → List Addr → List Client
  | 0, _ => []
  | _ + 1, [] => []
  | num + 1, h :: hosts =>
    if Behind endHost h then List.replicate (num + 1) outOfRange
    else entry usedIp netMask h :: fill usedIp netMask endHost num hosts

theorem visited_succ {t turns : Nat} : visited usedIp netMask f t (turns + 1) =
    if checkHostIdIsValid usedIp netMask (f t) then f t :: visited usedIp netMask f (t + 1) turns
    else visited usedIp netMask f (t + 1) turns := by
  rw [visited, List.range'_succ, List.map_cons, List.filter_cons]
  rfl

theorem mem_visited {t turns : Nat} {h : Addr} : h ∈ visited usedIp netMask f t turns ↔
    (∃ i, t ≤ i ∧ i < t + turns ∧ f i = h) ∧ checkHostIdIsValid usedIp netMask h = true := by
  rw [visited, List.mem_filter, List.mem_map]
  simp only [List.mem_range'_1, and_assoc]

/-- The search stops at the first valid id it goes through. -/
theorem nextHost_visited {h : Addr} {rest : List Addr} : ∀ {turns fuel t : Nat},
    Walk usedIp netMask f t turns → turns ≤ fuel → visited usedIp netMask f t turns = h :: rest →
    nextHost usedIp netMask fuel (f t) = some h ∧ checkHostIdIsValid usedIp netMask h = true ∧
      ∃ t' turns', f t' = h + 1 ∧ turns' ≤ turns ∧ Walk usedIp netMask f t' turns' ∧
        visited usedIp netMask f t' turns' = rest := by
  intro turns
  induction turns with
  | zero =>
    intro fuel t _ _ h
    cases h
  | succ turns ih =>
    intro fuel t hwalk hfuel hvisited
    obtain ⟨fuel, rfl⟩ : ∃ n, fuel = n + 1 := ⟨fuel - 1, by omega⟩
    have hstep := hwalk t (Nat.le_refl t) (by omega)
    have hrest : Walk usedIp netMask f (t + 1) turns := fun i hi hlt => hwalk i (by omega) (by omega)
    rw [visited_succ] at hvisited
    rw [nextHost]
    by_cases hvalid : checkHostIdIsValid usedIp netMask (f t) = true
    · rw [if_pos hvalid] at hvisited hstep ⊢
      cases hvisited
      exact ⟨rfl, hvalid, t + 1, turns, hstep, by omega, hrest, rfl⟩
    · rw [if_neg hvalid] at hvisited hstep ⊢
      rw [← hstep]
      obtain ⟨hnext, hh, t', turns', hsucc, hle, hwalk', heq⟩ :=
        ih hrest (Nat.le_of_succ_le_succ hfuel) hvisited
      exact ⟨hnext, hh, t', turns', hsucc, by omega, hwalk', heq⟩

theorem initClients_stays {h : Addr} (hvalid : checkHostIdIsValid usedIp netMask h = true)
    (hend : Behind endHost h) (hfuel : 0 < fuel) : ∀ num : Nat,
    initClients usedIp netMask endHost fuel num h = some (List.replicate num outOfRange) := by
  obtain ⟨fuel, rfl⟩ : ∃ n, fuel = n + 1 := ⟨fuel - 1, by omega⟩
  intro num
  induction num with
  | zero => rfl
  | succ num ih =>
    rw [initClients, nextHost, if_pos hvalid, Option.bind_some, if_pos hend, ih]
    rfl

/-- The loop ends where it goes through enough valid ids, or one behind the end. -/
theorem initClients_visited : ∀ {num turns t : Nat}, Walk usedIp netMask f t turns → turns ≤ fuel →
    (num ≤ (visited usedIp netMask f t turns).length ∨
      ∃ h ∈ visited usedIp netMask f t turns, Behind endHost h) →
    initClients usedIp netMask endHost fuel num (f t) =
      some (fill usedIp netMask endHost num (visited usedIp netMask f t turns)) := by
  intro num
  induction num with
  | zero => exact fun _ _ _ => rfl
  | succ num ih =>
    intro turns t hwalk hfuel hroom
    rcases hvisited : visited usedIp netMask f t turns with _ | ⟨h, rest⟩
    · rw [hvisited] at hroom
      rcases hroom with hlen | ⟨_, hmem, -⟩
      · cases hlen
      · cases hmem
    · obtain ⟨hnext, hvalid, t', turns', hsucc, hle, hwalk', hrest⟩ :=
        nextHost_visited hwalk hfuel hvisited
      have hpos : 0 < fuel := by
        cases fuel with
        | zero => cases hnext
        | succ fuel => exact Nat.succ_pos fuel
      rw [initClients, hnext, Option.bind_some, fill]
      by_cases hend : Behind endHost h
      · rw [if_pos hend, if_pos hend, initClients_stays hvalid hend hpos]
        rfl
      · rw [if_neg hend, if_neg hend, ← hsucc, ih hwalk' (Nat.le_trans hle hfuel) ?_, hrest]
        · rfl
        · rw [hvisited] at hroom
          rw [hrest]
          rcases hroom with hlen | ⟨h', hmem, hend'⟩
          · exact Or.inl (Nat.le_of_succ_le_succ hlen)
          · rcases List.mem_cons.mp hmem with rfl | hmem
            · exact absurd hend' hend
            · exact Or.inr ⟨h', hmem, hend'⟩

theorem nextHost_mono {host : Addr} : ∀ {fuel fuel' : Nat} {start : Addr}, fuel ≤ fuel' →
    nextHost usedIp netMask fuel start = some host → nextHost usedIp netMask fuel' start = some host := by
  intro fuel
  induction fuel with
  | zero =>
    intro fuel' start _ h
    cases h
  | succ fuel ih =>
    intro fuel' start hle h
    obtain ⟨fuel', rfl⟩ : ∃ n, fuel' = n + 1 := ⟨fuel' - 1, by omega⟩
    rw [nextHost] at h ⊢
    by_cases hvalid : checkHostIdIsValid usedIp netMask start = true
    · rw [if_pos hvalid] at h ⊢
      exact h
    · rw [if_neg hvalid] at h ⊢
      exact ih (by omega) h

theorem initClients_mono {fuel' : Nat} (hle : fuel ≤ fuel') : ∀ {num : Nat} {start : Addr}
    {l : List Client}, initClients usedIp netMask endHost fuel num start = some l →
    initClients usedIp netMask endHost fuel' num start = some l := by
  intro num
  induction num with
  | zero => exact fun h => h
  | succ num ih =>
    intro start l h
    rw [initClients] at h ⊢
    obtain ⟨host, hhost, h⟩ := Option.bind_eq_some_iff.mp h
    rw [nextHost_mono hle hhost, Option.bind_some]
    by_cases hend : endHost ≠ 0 ∧ endHost < host
    · rw [if_pos hend] at h ⊢
      obtain ⟨l', hl', rfl⟩ := Option.map_eq_some_iff.mp h
      rw [ih hl', Option.map_some]
    · rw [if_neg hend] at h ⊢
      obtain ⟨l', hl', rfl⟩ := Option.map_eq_some_iff.mp h
      rw [ih hl', Option.map_some]

/-- Fewer entries are a front part of the table. -/
theorem initClients_take {more : Nat} : ∀ {num : Nat} {start : Addr} {l : List Client},
    initClients usedIp netMask endHost fuel (num + more) start = some l →
    initClients usedIp netMask endHost fuel num start = some (l.take num) := by
  intro num
  induction num with
  | zero => exact fun _ => rfl
  | succ num ih =>
    intro start l h
    rw [Nat.succ_add, initClients] at h
    rw [initClients]
    obtain ⟨host, hhost, h⟩ := Option.bind_eq_some_iff.mp h
    rw [hhost, Option.bind_some]
    by_cases hend : endHost ≠ 0 ∧ endHost < host
    · rw [if_pos hend] at h ⊢
      obtain ⟨l', hl', rfl⟩ := Option.map_eq_some_iff.mp h
      rw [ih hl', Option.map_some, List.take_succ_cons]
    · rw [if_neg hend] at h ⊢
      obtain ⟨l', hl', rfl⟩ := Option.map_eq_some_iff.mp h
      rw [ih hl', Option.map_some, List.take_succ_cons]

theorem fill_inRange : ∀ {num : Nat} {hosts : List Addr}, (∀ h ∈ hosts, ¬ Behind endHost h) →
    fill usedIp netMask endHost num hosts = (hosts.take num).map (entry usedIp netMask) := by
  intro num
  induction num with
  | zero => exact fun _ => rfl
  | succ num ih =>
    intro hosts hin
    cases hosts with
    | nil => rfl
    | cons h hosts =>
      rw [fill, if_neg (hin h List.mem_cons_self), List.take_succ_cons, List.map_cons,
        ih fun h' hmem => hin h' (List.mem_cons_of_mem h hmem)]

end Walk

section Hosts
variable {netif : Netif} {endHost host : Addr}

theorem hostAddr_iff (h : host &&& ~~~netif.netmask = host) :
    HostAddr netif (netif.ipAddr &&& netif.netmask ||| host) ↔
      checkHostIdIsValid netif.ipAddr netif.netmask host = true := by
  constructor
  · intro haddr
    refine valid_iff.mpr ⟨fun heq => haddr.notServer ?_, fun heq => haddr.notBroadcast ?_,
      fun heq => haddr.notNetwork ?_⟩
    · rw [← heq]
      ext i
      simp only [BitVec.getElem_and, BitVec.getElem_or, BitVec.getElem_not]
      cases netif.ipAddr[i] <;> cases netif.netmask[i] <;> rfl
    · rw [heq]
    · rw [heq]
      exact BitVec.or_zero
  · intro hvalid
    have hpool : PoolAddr netif noOptions (netif.ipAddr &&& netif.netmask ||| host) :=
      poolAddr_of_valid hvalid h (fun hne => absurd rfl hne) fun hne => absurd rfl hne
    exact ⟨hpool.inSubnet, hpool.notNetwork, hpool.notBroadcast, hpool.notServer⟩

theorem address_inj {usedIp netMask other : Addr} (hhost : host &&& ~~~netMask = host)
    (hother : other &&& ~~~netMask = other)
    (h : usedIp &&& netMask ||| host = usedIp &&& netMask ||| other) : host = other := by
  have hself : (usedIp &&& netMask ||| host) &&& ~~~netMask = host := address_and_host hhost
  rw [← hself, h, address_and_host hother]

/-- Where the server has the lowest bit of the netmask, the bit makes no difference to an address. -/
theorem address_bit {usedIp netMask : Addr} (hlt : hostBits netMask < 32)
    (hbit : usedIp.getLsbD (hostBits netMask) = true) :
    usedIp &&& netMask ||| (host ||| BitVec.twoPow 32 (hostBits netMask)) =
      usedIp &&& netMask ||| host := by
  have hmask := getLsbD_hostBits hlt
  apply BitVec.eq_of_getLsbD_eq
  intro i hi
  rw [BitVec.getLsbD_or, BitVec.getLsbD_or, BitVec.getLsbD_or, BitVec.getLsbD_and,
    BitVec.getLsbD_twoPow]
  by_cases heq : hostBits netMask = i
  · rw [heq] at hbit hmask
    rw [hbit, hmask]
    simp
  · simp [heq]

/-- Otherwise the address is in another subnet. -/
theorem hostAddr_bit (hlt : hostBits netif.netmask < 32)
    (h : HostAddr netif (netif.ipAddr &&& netif.netmask |||
      (host ||| BitVec.twoPow 32 (hostBits netif.netmask)))) :
    netif.ipAddr.getLsbD (hostBits netif.netmask) = true := by
  have hmask := getLsbD_hostBits hlt
  have hbits := congrArg (·.getLsbD (hostBits netif.netmask)) h.inSubnet
  simp only [BitVec.getLsbD_and, BitVec.getLsbD_or, BitVec.getLsbD_twoPow, hmask, hlt] at hbits
  simpa using hbits

/-- What the list of entries is to be. -/
structure Good (netif : Netif) (l : List Client) : Prop where
  host : ∀ c ∈ l, c.state = .idle → HostAddr netif c.ipAddr
  distinct : l.Pairwise fun c d => c.state = .idle → d.state = .idle → c.ipAddr ≠ d.ipAddr

theorem Good.take {l : List Client} (h : Good netif l) (num : Nat) : Good netif (l.take num) :=
  ⟨fun c hc => h.host c (List.mem_of_mem_take hc), h.distinct.sublist (List.take_sublist num l)⟩

theorem good_entries {hosts : List Addr}
    (h : Good netif (hosts.map (entry netif.ipAddr netif.netmask))) :
    (∀ a ∈ hosts, HostAddr netif (netif.ipAddr &&& netif.netmask ||| a)) ∧
      hosts.Pairwise fun a b =>
        netif.ipAddr &&& netif.netmask ||| a ≠ netif.ipAddr &&& netif.netmask ||| b := by
  constructor
  · intro a ha
    exact h.host _ (List.mem_map_of_mem ha) rfl
  · refine (List.pairwise_map.mp h.distinct).imp fun hab => ?_
    exact hab rfl rfl

theorem mem_fill {c : Client} {usedIp netMask : Addr} (hidle : c.state = .idle) :
    ∀ {num : Nat} {hosts : List Addr}, c ∈ fill usedIp netMask endHost num hosts →
    ∃ h ∈ hosts, ¬ Behind endHost h ∧ c = entry usedIp netMask h := by
  intro num
  induction num with
  | zero => exact fun hc => nomatch hc
  | succ num ih =>
    intro hosts hc
    cases hosts with
    | nil => cases hc
    | cons h hosts =>
      rw [fill] at hc
      by_cases hend : Behind endHost h
      · rw [if_pos hend] at hc
        rw [List.eq_of_mem_replicate hc] at hidle
        cases hidle
      · rw [if_neg hend] at hc
        rcases List.mem_cons.mp hc with rfl | hc
        · exact ⟨h, List.mem_cons_self, hend, rfl⟩
        · obtain ⟨h', hmem, hin, heq⟩ := ih hc
          exact ⟨h', List.mem_cons_of_mem h hmem, hin, heq⟩

theorem fill_good {hosts : List Addr}
    (hhost : ∀ a ∈ hosts, ¬ Behind endHost a →
      HostAddr netif (netif.ipAddr &&& netif.netmask ||| a))
    (hdistinct : hosts.Pairwise fun a b => ¬ Behind endHost a → ¬ Behind endHost b →
      netif.ipAddr &&& netif.netmask ||| a ≠ netif.ipAddr &&& netif.netmask ||| b) (num : Nat) :
    Good netif (fill netif.ipAddr netif.netmask endHost num hosts) := by
  constructor
  · intro c hc hidle
    obtain ⟨a, ha, hin, rfl⟩ := mem_fill hidle hc
    exact hhost a ha hin
  · clear hhost
    induction num generalizing hosts with
    | zero => exact List.Pairwise.nil
    | succ num ih =>
      cases hosts with
      | nil => exact List.Pairwise.nil
      | cons a hosts =>
        obtain ⟨ha, hrest⟩ := List.pairwise_cons.mp hdistinct
        rw [fill]
        by_cases hend : Behind endHost a
        · rw [if_pos hend]
          refine List.pairwise_replicate.mpr (Or.inr fun hidle => ?_)
          cases hidle
        · rw [if_neg hend]
          refine List.Pairwise.cons (fun d hd _ hidle => ?_) (ih hrest)
          obtain ⟨b, hb, hin, rfl⟩ := mem_fill hidle hd
          exact ha b hb hend hin

end Hosts

section Start
variable {fuel : Nat} {netif : Netif} {opt : Options} {s : Server}

theorem poolBuilt_iff_good {l : List Client} {leaseTime : Nat} (hlen : l.length = clientNum)
    (hclients : s.clients = leaseLast leaseTime (toTable l)) : PoolBuilt netif s ↔ Good netif l := by
  have hentry : ∀ (i : Fin clientNum) (hi : i.val < l.length),
      (s.clients i).state = (l.get ⟨i.val, hi⟩).state ∧
        (s.clients i).ipAddr = (l.get ⟨i.val, hi⟩).ipAddr := by
    intro i hi
    obtain ⟨lease, heq⟩ := leaseLast_apply leaseTime (toTable l) i
    rw [hclients, heq]
    unfold toTable
    rw [List.getD_eq_getElem?_getD, List.getElem?_eq_getElem hi]
    exact ⟨rfl, rfl⟩
  have hlt : ∀ i : Fin clientNum, i.val < l.length := fun i => by
    rw [hlen]
    exact i.isLt
  constructor
  · intro h
    constructor
    · intro c hc hidle
      obtain ⟨⟨n, hn⟩, rfl⟩ := List.get_of_mem hc
      obtain ⟨hstate, hip⟩ := hentry ⟨n, hlen ▸ hn⟩ hn
      rw [← hip]
      exact h.host _ (hstate.trans hidle)
    · rw [List.pairwise_iff_getElem]
      intro i j hi hj hij hidle hidle' heq
      obtain ⟨hstate, hip⟩ := hentry ⟨i, hlen ▸ hi⟩ hi
      obtain ⟨hstate', hip'⟩ := hentry ⟨j, hlen ▸ hj⟩ hj
      have hsame := h.distinct _ _ (hstate.trans hidle) (hstate'.trans hidle')
        (hip.trans (heq.trans hip'.symm))
      rw [Fin.mk.injEq] at hsame
      omega
  · intro h
    have hpair := List.pairwise_iff_getElem.mp h.distinct
    constructor
    · intro i hidle
      obtain ⟨hstate, hip⟩ := hentry i (hlt i)
      rw [hip]
      exact h.host _ (List.get_mem l _) (hstate.symm.trans hidle)
    · intro i j hidle hidle' heq
      obtain ⟨hstate, hip⟩ := hentry i (hlt i)
      obtain ⟨hstate', hip'⟩ := hentry j (hlt j)
      rw [hstate] at hidle
      rw [hstate'] at hidle'
      rw [hip, hip'] at heq
      by_contra hne
      rcases Nat.lt_or_gt_of_ne (fun hval => hne (Fin.ext hval)) with hij | hji
      · exact hpair _ _ (hlt i) (hlt j) hij hidle hidle' heq
      · exact hpair _ _ (hlt j) (hlt i) hji hidle' hidle heq.symm

/-- The pool is what the loop builds. -/
theorem built_iff_good (hup : netif.up = true) : Built netif opt ↔
    ~~~netif.netmask ≠ 0 ∧ ∃ fuel l, initClients netif.ipAddr netif.netmask
      (opt.endIp &&& ~~~netif.netmask) fuel clientNum (startIpAddr netif opt &&& ~~~netif.netmask) =
        some l ∧ Good netif l := by
  constructor
  · rintro ⟨fuel, s, hstart, hbuilt⟩
    obtain ⟨hmask, -, -, -, l, hl, hclients⟩ := dhcpsStart_clients hstart
    exact ⟨hmask, fuel, l, hl, (poolBuilt_iff_good (initClients_length _ hl) hclients).mp hbuilt⟩
  · rintro ⟨hmask, fuel, l, hl, hgood⟩
    have hstart : ∃ s, dhcpsStart fuel netif opt true true = some (.ok s) := by
      unfold dhcpsStart
      dsimp only
      rw [if_neg (by simpa using hup), if_neg (by simp), if_neg hmask, hl, Option.map_some,
        if_neg (by simp)]
      exact ⟨_, rfl⟩
    obtain ⟨s, hstart⟩ := hstart
    obtain ⟨-, -, -, -, l', hl', hclients⟩ := dhcpsStart_clients hstart
    rw [hl] at hl'
    cases hl'
    exact ⟨fuel, s, hstart, (poolBuilt_iff_good (initClients_length _ hl) hclients).mpr hgood⟩

end Start

section Block
variable {usedIp netMask start : Addr} {x : Nat}

theorem firstId_le (netMask start : Addr) :
    firstId netMask start ≤ start.toNat ∧ start.toNat ≤ lastId netMask start := by
  have hpos := Nat.two_pow_pos (hostBits netMask)
  have hdiv := Nat.div_add_mod' start.toNat (2 ^ hostBits netMask)
  have hmod := Nat.mod_lt start.toNat hpos
  unfold lastId firstId
  omega

theorem block_div (hlow : firstId netMask start ≤ x) (hhigh : x ≤ lastId netMask start) :
    x / 2 ^ hostBits netMask = start.toNat / 2 ^ hostBits netMask := by
  have hpos := Nat.two_pow_pos (hostBits netMask)
  unfold lastId at hhigh
  unfold firstId at hlow hhigh
  refine Nat.div_eq_of_lt_le hlow ?_
  rw [Nat.succ_mul]
  omega

theorem behind_div (hlow : lastId netMask start < x)
    (hhigh : x ≤ lastId netMask start + 2 ^ hostBits netMask) :
    x / 2 ^ hostBits netMask = start.toNat / 2 ^ hostBits netMask + 1 := by
  have hpos := Nat.two_pow_pos (hostBits netMask)
  unfold lastId firstId at hlow hhigh
  refine Nat.div_eq_of_lt_le ?_ ?_
  · rw [Nat.add_mul, Nat.one_mul]
    omega
  · rw [Nat.add_mul, Nat.add_mul, Nat.one_mul]
    omega

theorem toNat_and_hosts (h : start &&& ~~~netMask = start) :
    start.toNat &&& (~~~netMask).toNat = start.toNat := by
  rw [← BitVec.toNat_and, h]

theorem block_and (hstart : start &&& ~~~netMask = start) (hlow : firstId netMask start ≤ x)
    (hhigh : x ≤ lastId netMask start) : x &&& (~~~netMask).toNat = x :=
  and_of_div_eq (toNat_and_hosts hstart) (block_div hlow hhigh)

theorem toNat_id (h : x &&& (~~~netMask).toNat = x) : (BitVec.ofNat 32 x).toNat = x := by
  have hle : x ≤ (~~~netMask).toNat := h ▸ Nat.and_le_right
  exact Nat.mod_eq_of_lt (Nat.lt_of_le_of_lt hle (~~~netMask).isLt)

theorem id_and (h : x &&& (~~~netMask).toNat = x) :
    BitVec.ofNat 32 x &&& ~~~netMask = BitVec.ofNat 32 x := by
  apply BitVec.eq_of_toNat_eq
  rw [BitVec.toNat_and, toNat_id h, h]

/-- One turn of the search. -/
theorem toNat_turn (a : Addr) :
    ((a + 1) &&& ~~~netMask).toNat = (a.toNat + 1) &&& (~~~netMask).toNat := by
  have hlt := (~~~netMask).isLt
  have hmod := Nat.and_mod_two_pow (a := a.toNat + 1) (b := (~~~netMask).toNat) (n := 32)
  rw [Nat.mod_eq_of_lt hlt, Nat.mod_eq_of_lt (Nat.lt_of_le_of_lt Nat.and_le_right hlt)] at hmod
  rw [BitVec.toNat_and, BitVec.toNat_add]
  exact hmod.symm

theorem turn_inside {a : Addr} (hstart : start &&& ~~~netMask = start)
    (hlow : firstId netMask start ≤ a.toNat) (hhigh : a.toNat < lastId netMask start) :
    ((a + 1) &&& ~~~netMask).toNat = a.toNat + 1 := by
  rw [toNat_turn]
  exact block_and hstart (by omega) hhigh

theorem turn_last {a : Addr} (hstart : start &&& ~~~netMask = start)
    (hlast : a.toNat = lastId netMask start) :
    ((a + 1) &&& ~~~netMask).toNat = firstId netMask start := by
  have hpos := Nat.two_pow_pos (hostBits netMask)
  have hdiv : (a.toNat + 1) / 2 ^ hostBits netMask = start.toNat / 2 ^ hostBits netMask + 1 :=
    behind_div (by omega) (by omega)
  rw [toNat_turn, and_behind (toNat_and_hosts hstart) hdiv, hlast]
  unfold lastId
  omega

/-- The ids behind a last one that is valid are those of the block with one bit more. -/
theorem hostBits_lt_of_valid (hstart : start &&& ~~~netMask = start)
    (hvalid : checkHostIdIsValid usedIp netMask (BitVec.ofNat 32 (lastId netMask start)) = true) :
    hostBits netMask < 32 := by
  by_contra hnot
  have hbits : hostBits netMask = 32 := by
    have hle := hostBits_le netMask
    omega
  have hlow := host_low netMask
  have hzero : firstId netMask start = 0 := by
    rw [firstId, hbits, Nat.div_eq_of_lt start.isLt, Nat.zero_mul]
  rw [hbits, Nat.mod_eq_of_lt (~~~netMask).isLt] at hlow
  refine (valid_iff.mp hvalid).2.1 (BitVec.eq_of_toNat_eq ?_)
  have hle := (firstId_le netMask start)
  rw [toNat_id (block_and hstart (by omega) (Nat.le_refl _)), hlow, lastId, hzero, hbits, Nat.zero_add]

theorem behind_eq (hstart : start &&& ~~~netMask = start) (hbits : hostBits netMask < 32)
    (hlow : firstId netMask start ≤ x) (hhigh : x ≤ lastId netMask start) :
    BitVec.ofNat 32 (x + 2 ^ hostBits netMask) =
      BitVec.ofNat 32 x ||| BitVec.twoPow 32 (hostBits netMask) := by
  have hmask := getLsbD_hostBits hbits
  have hand := id_and (block_and hstart hlow hhigh)
  have hdisjoint : BitVec.ofNat 32 x &&& BitVec.twoPow 32 (hostBits netMask) = 0 := by
    rw [← hand]
    apply BitVec.eq_of_getLsbD_eq
    intro i hi
    rw [BitVec.getLsbD_and, BitVec.getLsbD_and, BitVec.getLsbD_not, BitVec.getLsbD_twoPow]
    by_cases heq : hostBits netMask = i
    · rw [← heq, hmask]
      simp
    · simp [heq]
  rw [← BitVec.add_eq_or_of_and_eq_zero _ _ hdisjoint, BitVec.ofNat_add]
  congr 1
  apply BitVec.eq_of_toNat_eq
  rw [BitVec.toNat_ofNat, BitVec.toNat_twoPow]

theorem behind_valid (hstart : start &&& ~~~netMask = start) (hbits : hostBits netMask < 32)
    (hlow : firstId netMask start ≤ x) (hhigh : x ≤ lastId netMask start) :
    checkHostIdIsValid usedIp netMask (BitVec.ofNat 32 (x + 2 ^ hostBits netMask)) = true := by
  have hmask := getLsbD_hostBits hbits
  have hbit : (BitVec.ofNat 32 (x + 2 ^ hostBits netMask)).getLsbD (hostBits netMask) = true := by
    rw [behind_eq hstart hbits hlow hhigh, BitVec.getLsbD_or, BitVec.getLsbD_twoPow]
    simp [hbits]
  refine valid_iff.mpr ⟨fun heq => ?_, fun heq => ?_, fun heq => ?_⟩
  · rw [← heq, BitVec.getLsbD_and, BitVec.getLsbD_not, hmask] at hbit
    simp at hbit
  · rw [heq, BitVec.getLsbD_not, hmask] at hbit
    simp at hbit
  · rw [heq] at hbit
    simp at hbit

end Block

section Wraps
variable {netif : Netif} {start endHost : Addr}

theorem mem_validIds {usedIp netMask : Addr} {first num h : Nat} :
    h ∈ validIds usedIp netMask first num ↔ (first ≤ h ∧ h < first + num) ∧
      checkHostIdIsValid usedIp netMask (BitVec.ofNat 32 h) = true := by
  rw [validIds, List.mem_filter, List.mem_range'_1]

theorem visited_ofNat {usedIp netMask : Addr} {first num : Nat} :
    visited usedIp netMask (BitVec.ofNat 32) first num =
      (validIds usedIp netMask first num).map (BitVec.ofNat 32) := by
  rw [visited, List.filter_map]
  rfl

/-- The ids from `start` on, and those before it when the loop has come round. -/
def wrapped (netMask start : Addr) (t : Nat) : Addr :=
  BitVec.ofNat 32 (firstId netMask start + t % 2 ^ hostBits netMask)

theorem range_wrapped_perm {size lo : Nat} (first : Nat) (h : lo < size) :
    ((List.range' lo size).map fun t => first + t % size).Perm (List.range' first size) := by
  have hlow : (List.range' lo (size - lo)).map (fun t => first + t % size) =
      List.range' (first + lo) (size - lo) := by
    rw [← List.map_add_range']
    refine List.map_congr_left fun t ht => ?_
    rw [List.mem_range'_1] at ht
    rw [Nat.mod_eq_of_lt (by omega)]
  have hhigh : (List.range' size lo).map (fun t => first + t % size) = List.range' first lo := by
    have hshift : List.range' size lo = (List.range' 0 lo).map (size + ·) := by
      rw [List.map_add_range', Nat.add_zero]
    rw [hshift, List.map_map, ← Nat.add_zero first, ← List.map_add_range', Nat.add_zero]
    refine List.map_congr_left fun t ht => ?_
    rw [List.mem_range'_1] at ht
    rw [Function.comp_apply, Nat.add_mod_left, Nat.mod_eq_of_lt (by omega)]
  have hsplit : List.range' lo size = List.range' lo (size - lo) ++ List.range' size lo := by
    have happend := List.range'_append_1 (s := lo) (m := size - lo) (n := lo)
    rw [Nat.add_sub_cancel' (Nat.le_of_lt h), Nat.sub_add_cancel (Nat.le_of_lt h)] at happend
    exact happend.symm
  have hwhole : List.range' first size = List.range' first lo ++ List.range' (first + lo) (size - lo) := by
    have happend := List.range'_append_1 (s := first) (m := lo) (n := size - lo)
    rw [Nat.add_sub_cancel' (Nat.le_of_lt h)] at happend
    exact happend.symm
  rw [hsplit, List.map_append, hlow, hhigh, hwhole]
  exact List.perm_append_comm

theorem wrapped_perm (usedIp netMask start : Addr) :
    (visited usedIp netMask (wrapped netMask start) (start.toNat - firstId netMask start)
      (2 ^ hostBits netMask)).Perm
    ((validIds usedIp netMask (firstId netMask start) (2 ^ hostBits netMask)).map
      (BitVec.ofNat 32)) := by
  have hlo : start.toNat - firstId netMask start < 2 ^ hostBits netMask := by
    have hpos := Nat.two_pow_pos (hostBits netMask)
    have hfirst := firstId_le netMask start
    unfold lastId at hfirst
    omega
  have hperm := ((range_wrapped_perm (firstId netMask start) hlo).map (BitVec.ofNat 32)).filter
    (fun h => checkHostIdIsValid usedIp netMask h)
  rw [List.map_map] at hperm
  rw [← visited_ofNat]
  exact hperm

theorem wrapped_walk {usedIp netMask : Addr} (hstart : start &&& ~~~netMask = start)
    (hlast : ¬ checkHostIdIsValid usedIp netMask (BitVec.ofNat 32 (lastId netMask start)) = true)
    (t turns : Nat) : Walk usedIp netMask (wrapped netMask start) t turns := by
  intro i _ _
  have hpos := Nat.two_pow_pos (hostBits netMask)
  have hmod := Nat.mod_lt i hpos
  have hnext := Nat.add_mod i 1 (2 ^ hostBits netMask)
  have hand : (firstId netMask start + i % 2 ^ hostBits netMask) &&& (~~~netMask).toNat =
      firstId netMask start + i % 2 ^ hostBits netMask :=
    block_and hstart (by omega) (by unfold lastId; omega)
  have hi := toNat_id hand
  by_cases hin : i % 2 ^ hostBits netMask + 1 < 2 ^ hostBits netMask
  · -- inside of the block the mask changes nothing
    have hsucc : (i + 1) % 2 ^ hostBits netMask = i % 2 ^ hostBits netMask + 1 := by
      rw [← Nat.mod_add_mod]
      exact Nat.mod_eq_of_lt hin
    have hplain : wrapped netMask start (i + 1) = wrapped netMask start i + 1 := by
      unfold wrapped
      rw [hsucc, ← Nat.add_assoc, BitVec.ofNat_add]
      rfl
    have hmasked : (wrapped netMask start i + 1) &&& ~~~netMask = wrapped netMask start i + 1 := by
      rw [← hplain]
      exact id_and (block_and hstart (by omega) (by unfold lastId; omega))
    rw [hmasked, hplain, ite_self]
  · have hlastId : firstId netMask start + i % 2 ^ hostBits netMask = lastId netMask start := by
      unfold lastId
      omega
    have hzero : (i + 1) % 2 ^ hostBits netMask = 0 := by
      rw [← Nat.mod_add_mod, show i % 2 ^ hostBits netMask + 1 = 2 ^ hostBits netMask by omega,
        Nat.mod_self]
    have hself : wrapped netMask start i = BitVec.ofNat 32 (lastId netMask start) := by
      rw [wrapped, hlastId]
    rw [hself, if_neg hlast]
    apply BitVec.eq_of_toNat_eq
    rw [hlastId] at hi
    rw [turn_last hstart hi, wrapped, hzero, Nat.add_zero]
    exact toNat_id (block_and hstart (Nat.le_refl _)
      (Nat.le_trans (firstId_le netMask start).1 (firstId_le netMask start).2))

theorem behind_ofNat {x : Nat} (hx : (BitVec.ofNat 32 x).toNat = x) :
    Behind endHost (BitVec.ofNat 32 x) ↔ endHost ≠ 0 ∧ endHost.toNat < x := by
  rw [Behind, BitVec.lt_def, hx]

/-- Different valid ids make a good table. -/
theorem good_of_nodup {hosts : List Addr} (hnodup : hosts.Nodup)
    (hhosts : ∀ a ∈ hosts, ¬ Behind endHost a → a &&& ~~~netif.netmask = a ∧
      checkHostIdIsValid netif.ipAddr netif.netmask a = true) (num : Nat) :
    Good netif (fill netif.ipAddr netif.netmask endHost num hosts) := by
  refine fill_good (fun a ha hin => ?_) (List.Pairwise.imp_of_mem ?_ hnodup) num
  · obtain ⟨hand, hvalid⟩ := hhosts a ha hin
    exact (hostAddr_iff hand).mpr hvalid
  · intro a b ha hb hne hina hinb heq
    exact hne (address_inj (hhosts a ha hina).1 (hhosts b hb hinb).1 heq)

/-- The ids of the block, one of which the loop is at. -/
def InBlock (netMask start a : Addr) : Prop :=
  firstId netMask start ≤ a.toNat ∧ a.toNat ≤ lastId netMask start

theorem InBlock.turn {netMask a : Addr} (hstart : start &&& ~~~netMask = start)
    (h : InBlock netMask start a) : InBlock netMask start ((a + 1) &&& ~~~netMask) := by
  have hfirst := firstId_le netMask start
  obtain ⟨hlow, hhigh⟩ := h
  rw [InBlock]
  by_cases hin : a.toNat < lastId netMask start
  · rw [turn_inside hstart hlow hin]
    omega
  · rw [turn_last hstart (by omega)]
    omega

theorem InBlock.succ {usedIp netMask a : Addr} (hstart : start &&& ~~~netMask = start)
    (hlast : ¬ checkHostIdIsValid usedIp netMask (BitVec.ofNat 32 (lastId netMask start)) = true)
    (h : InBlock netMask start a) (hvalid : checkHostIdIsValid usedIp netMask a = true) :
    InBlock netMask start (a + 1) := by
  have hfirst := firstId_le netMask start
  obtain ⟨hlow, hhigh⟩ := h
  have hne : a.toNat ≠ lastId netMask start := fun heq => hlast (by
    rw [← heq, BitVec.ofNat_toNat, BitVec.setWidth_eq]
    exact hvalid)
  have hle : lastId netMask start ≤ (~~~netMask).toNat :=
    block_and hstart (by omega) (Nat.le_refl _) ▸ Nat.and_le_right
  rw [InBlock, toNat_succ (b := ~~~netMask) (by omega)]
  omega

/-- The loop stays in the block, so each entry has an id of it. -/
theorem wraps_entries {usedIp netMask : Addr} {fuel num : Nat} {l : List Client}
    (hstart : start &&& ~~~netMask = start)
    (hlast : ¬ checkHostIdIsValid usedIp netMask (BitVec.ofNat 32 (lastId netMask start)) = true)
    (hbehind : ¬ (endHost ≠ 0 ∧ ∃ h ∈ validIds usedIp netMask (firstId netMask start)
      (2 ^ hostBits netMask), endHost.toNat < h))
    (hl : initClients usedIp netMask endHost fuel num start = some l) :
    ∀ c ∈ l, ∃ h ∈ validIds usedIp netMask (firstId netMask start) (2 ^ hostBits netMask),
      c = entry usedIp netMask (BitVec.ofNat 32 h) := by
  have hpos := Nat.two_pow_pos (hostBits netMask)
  intro c hc
  obtain ⟨host, hvalid, ⟨hlow, hhigh⟩, hcase⟩ := initClients_kept (InBlock netMask start)
    (fun _ h _ => h.turn hstart) (fun _ h hvalid => h.succ hstart hlast hvalid)
    (firstId_le netMask start) hl c hc
  have hmem : host.toNat ∈ validIds usedIp netMask (firstId netMask start)
      (2 ^ hostBits netMask) := by
    refine mem_validIds.mpr ⟨⟨hlow, ?_⟩, ?_⟩
    · unfold lastId at hhigh
      omega
    · rw [BitVec.ofNat_toNat, BitVec.setWidth_eq]
      exact hvalid
  rcases hcase with ⟨-, hend⟩ | ⟨-, heq⟩
  · exact absurd ⟨hend.1, _, hmem, hend.2⟩ hbehind
  · refine ⟨host.toNat, hmem, ?_⟩
    rw [BitVec.ofNat_toNat, BitVec.setWidth_eq]
    exact heq

/-- Where the ids come round, a loop that ends has visited enough of them. -/
theorem good_wraps_iff (hstart : start &&& ~~~netif.netmask = start)
    (hlast : ¬ checkHostIdIsValid netif.ipAddr netif.netmask
      (BitVec.ofNat 32 (lastId netif.netmask start)) = true) :
    (∃ fuel l, initClients netif.ipAddr netif.netmask endHost fuel clientNum start = some l ∧
      Good netif l) ↔
    clientNum ≤ (validIds netif.ipAddr netif.netmask (firstId netif.netmask start)
        (2 ^ hostBits netif.netmask)).length ∨
      (endHost ≠ 0 ∧ ∃ h ∈ validIds netif.ipAddr netif.netmask (firstId netif.netmask start)
        (2 ^ hostBits netif.netmask), endHost.toNat < h) := by
  have hfirst := firstId_le netif.netmask start
  have hpos := Nat.two_pow_pos (hostBits netif.netmask)
  have hsize : lastId netif.netmask start + 1 =
      firstId netif.netmask start + 2 ^ hostBits netif.netmask := by
    unfold lastId
    omega
  have hand : ∀ h ∈ validIds netif.ipAddr netif.netmask (firstId netif.netmask start)
      (2 ^ hostBits netif.netmask), h &&& (~~~netif.netmask).toNat = h := fun h hh => by
    have hrange := (mem_validIds.mp hh).1
    exact block_and hstart hrange.1 (by omega)
  constructor
  · rintro ⟨fuel, l, hl, hgood⟩
    by_cases hbehind : endHost ≠ 0 ∧ ∃ h ∈ validIds netif.ipAddr netif.netmask
        (firstId netif.netmask start) (2 ^ hostBits netif.netmask), endHost.toNat < h
    · exact Or.inr hbehind
    · refine Or.inl ?_
      have hentries := wraps_entries hstart hlast hbehind hl
      have hnodup : (l.map Client.ipAddr).Nodup := by
        refine List.pairwise_map.mpr (List.Pairwise.imp_of_mem ?_ hgood.distinct)
        intro c d hc hd hdistinct
        have hidle : ∀ c ∈ l, c.state = .idle := fun c hc => by
          obtain ⟨h, -, heq⟩ := hentries c hc
          rw [heq]
          rfl
        exact hdistinct (hidle c hc) (hidle d hd)
      have hsub : l.map Client.ipAddr ⊆ (validIds netif.ipAddr netif.netmask
          (firstId netif.netmask start) (2 ^ hostBits netif.netmask)).map fun h =>
            netif.ipAddr &&& netif.netmask ||| BitVec.ofNat 32 h := by
        intro a ha
        obtain ⟨c, hc, rfl⟩ := List.mem_map.mp ha
        obtain ⟨h, hh, rfl⟩ := hentries c hc
        exact List.mem_map_of_mem hh
      have hlen := (List.subperm_of_subset hnodup hsub).length_le
      rw [List.length_map, List.length_map, initClients_length _ hl] at hlen
      exact hlen
  · intro hroom
    have hperm := wrapped_perm netif.ipAddr netif.netmask start
    have hwalk := wrapped_walk hstart hlast (start.toNat - firstId netif.netmask start)
      (2 ^ hostBits netif.netmask)
    have hself : wrapped netif.netmask start (start.toNat - firstId netif.netmask start) = start := by
      unfold wrapped
      rw [Nat.mod_eq_of_lt (by omega), Nat.add_sub_cancel' hfirst.1, BitVec.ofNat_toNat,
        BitVec.setWidth_eq]
    have henough : clientNum ≤ (visited netif.ipAddr netif.netmask (wrapped netif.netmask start)
        (start.toNat - firstId netif.netmask start) (2 ^ hostBits netif.netmask)).length ∨
        ∃ h ∈ visited netif.ipAddr netif.netmask (wrapped netif.netmask start)
          (start.toNat - firstId netif.netmask start) (2 ^ hostBits netif.netmask),
          Behind endHost h := by
      rcases hroom with hlen | ⟨hend, h, hh, hlt⟩
      · rw [hperm.length_eq, List.length_map]
        exact Or.inl hlen
      · refine Or.inr ⟨BitVec.ofNat 32 h, hperm.mem_iff.mpr (List.mem_map_of_mem hh), ?_⟩
        exact (behind_ofNat (toNat_id (hand h hh))).mpr ⟨hend, hlt⟩
    have hl := initClients_visited hwalk (Nat.le_refl _) henough
    rw [hself] at hl
    refine ⟨_, _, hl, good_of_nodup ?_ ?_ clientNum⟩
    · refine hperm.nodup_iff.mpr (List.Nodup.map_on (fun h hh h' hh' heq => ?_) ?_)
      · rw [← toNat_id (hand h hh), heq, toNat_id (hand h' hh')]
      · exact List.Nodup.filter _ List.nodup_range'
    · intro a ha _
      obtain ⟨h, hh, rfl⟩ := List.mem_map.mp (hperm.mem_iff.mp ha)
      exact ⟨id_and (hand h hh), (mem_validIds.mp hh).2⟩

end Wraps

section Leaves
variable {netif : Netif} {start endHost : Addr}

theorem validIds_add (usedIp netMask : Addr) (first num more : Nat) :
    validIds usedIp netMask first (num + more) =
      validIds usedIp netMask first num ++ validIds usedIp netMask (first + num) more := by
  unfold validIds
  rw [← List.filter_append, List.range'_append_1]

/-- The ids behind the last one are all valid. -/
theorem validIds_behind {usedIp netMask : Addr} (hstart : start &&& ~~~netMask = start)
    (hbits : hostBits netMask < 32) {num : Nat} (hnum : num ≤ 2 ^ hostBits netMask) :
    validIds usedIp netMask (lastId netMask start + 1) num =
      List.range' (lastId netMask start + 1) num := by
  refine List.filter_eq_self.mpr fun x hx => ?_
  rw [List.mem_range'_1] at hx
  have hpos := Nat.two_pow_pos (hostBits netMask)
  have hsplit : x = x - 2 ^ hostBits netMask + 2 ^ hostBits netMask := by
    unfold lastId at hx
    omega
  rw [hsplit]
  refine behind_valid hstart hbits ?_ ?_
  · unfold lastId at hx
    omega
  · unfold lastId at hx ⊢
    omega

/-- With a last id that is valid the loop counts on. -/
theorem leaves_walk {usedIp netMask : Addr} (hstart : start &&& ~~~netMask = start)
    (hlast : checkHostIdIsValid usedIp netMask (BitVec.ofNat 32 (lastId netMask start)) = true)
    {turns : Nat} (hturns : turns ≤ lastId netMask start + 1 - start.toNat + 2 ^ hostBits netMask) :
    Walk usedIp netMask (BitVec.ofNat 32) start.toNat turns := by
  intro i hlow hhigh
  have hfirst := firstId_le netMask start
  have hpos := Nat.two_pow_pos (hostBits netMask)
  have hplain : BitVec.ofNat 32 (i + 1) = BitVec.ofNat 32 i + 1 := BitVec.ofNat_add i 1
  by_cases hvalid : checkHostIdIsValid usedIp netMask (BitVec.ofNat 32 i) = true
  · rw [if_pos hvalid]
    exact hplain
  · rw [if_neg hvalid, ← hplain]
    -- only an id in front of the last one can be invalid
    have hin : i < lastId netMask start := by
      by_contra hge
      by_cases heq : i = lastId netMask start
      · rw [heq] at hvalid
        exact hvalid hlast
      · refine hvalid ?_
        have hmem : i ∈ validIds usedIp netMask (lastId netMask start + 1) (2 ^ hostBits netMask) := by
          rw [validIds_behind hstart (hostBits_lt_of_valid hstart hlast) (Nat.le_refl _),
            List.mem_range'_1]
          omega
        exact (mem_validIds.mp hmem).2
    exact (id_and (block_and hstart (by omega) hin)).symm

/-- The ids of the loop behind the last one are for addresses like those of the block. -/
theorem address_behind (hstart : start &&& ~~~netif.netmask = start)
    (hbits : hostBits netif.netmask < 32)
    (hbit : netif.ipAddr.getLsbD (hostBits netif.netmask) = true) {j : Nat}
    (hj : j < 2 ^ hostBits netif.netmask) :
    netif.ipAddr &&& netif.netmask ||| BitVec.ofNat 32 (lastId netif.netmask start + 1 + j) =
      netif.ipAddr &&& netif.netmask ||| BitVec.ofNat 32 (firstId netif.netmask start + j) := by
  have hpos := Nat.two_pow_pos (hostBits netif.netmask)
  have hsplit : lastId netif.netmask start + 1 + j =
      firstId netif.netmask start + j + 2 ^ hostBits netif.netmask := by
    unfold lastId
    omega
  rw [hsplit, behind_eq hstart hbits (by omega) (by unfold lastId; omega)]
  exact address_bit hbits hbit

/-- An end of the subnet is not among the ids behind the last one. -/
theorem not_behind (hstart : start &&& ~~~netif.netmask = start)
    (hendHost : endHost &&& ~~~netif.netmask = endHost)
    (hend : ¬ (endHost ≠ 0 ∧ endHost.toNat ≤ lastId netif.netmask start)) {x : Nat}
    (hx : x ≤ lastId netif.netmask start + 2 ^ hostBits netif.netmask)
    (hbehind : Behind endHost (BitVec.ofNat 32 x)) : False := by
  obtain ⟨hne, hlt⟩ := hbehind
  have hpos := Nat.two_pow_pos (hostBits netif.netmask)
  have hle : (BitVec.ofNat 32 x).toNat ≤ x := Nat.mod_le x _
  rw [BitVec.lt_def] at hlt
  have hlow : lastId netif.netmask start < endHost.toNat := by
    by_contra hnot
    exact hend ⟨hne, by omega⟩
  have hmasked := and_behind (toNat_and_hosts hstart) (behind_div hlow (by omega))
  rw [toNat_and_hosts hendHost] at hmasked
  unfold lastId at hlow
  omega

/-- The entries of a good table for the first ids behind the last one. -/
theorem good_front {fuel : Nat} {l : List Client} (hstart : start &&& ~~~netif.netmask = start)
    (hendHost : endHost &&& ~~~netif.netmask = endHost)
    (hlast : checkHostIdIsValid netif.ipAddr netif.netmask
      (BitVec.ofNat 32 (lastId netif.netmask start)) = true)
    (hend : ¬ (endHost ≠ 0 ∧ endHost.toNat ≤ lastId netif.netmask start))
    (hl : initClients netif.ipAddr netif.netmask endHost fuel clientNum start = some l)
    (hgood : Good netif l) {j : Nat} (hj : j < 2 ^ hostBits netif.netmask)
    (hlt : ahead netif.ipAddr netif.netmask start + j < clientNum) :
    Good netif (((validIds netif.ipAddr netif.netmask start.toNat
        (lastId netif.netmask start + 1 - start.toNat) ++
      List.range' (lastId netif.netmask start + 1) (j + 1)).map (BitVec.ofNat 32)).map
        (entry netif.ipAddr netif.netmask)) := by
  have hfirst := firstId_le netif.netmask start
  have hids : validIds netif.ipAddr netif.netmask start.toNat
      (lastId netif.netmask start + 1 - start.toNat + (j + 1)) =
      validIds netif.ipAddr netif.netmask start.toNat
        (lastId netif.netmask start + 1 - start.toNat) ++
      List.range' (lastId netif.netmask start + 1) (j + 1) := by
    rw [validIds_add, Nat.add_sub_cancel' (by omega),
      validIds_behind hstart (hostBits_lt_of_valid hstart hlast) hj]
  have hlength : (validIds netif.ipAddr netif.netmask start.toNat
      (lastId netif.netmask start + 1 - start.toNat + (j + 1))).length =
      ahead netif.ipAddr netif.netmask start + (j + 1) := by
    rw [hids, List.length_append, List.length_range', ahead]
  rw [← hids]
  generalize hturns : lastId netif.netmask start + 1 - start.toNat + (j + 1) = turns at hlength ⊢
  obtain ⟨more, hmore⟩ := Nat.le.dest hlt
  have hnum : clientNum = ahead netif.ipAddr netif.netmask start + (j + 1) + more := by omega
  rw [hnum] at hl
  have hfront := initClients_mono (Nat.le_add_right fuel turns) (initClients_take hl)
  generalize hhosts : (validIds netif.ipAddr netif.netmask start.toNat turns).map (BitVec.ofNat 32) =
    hosts
  have hlen : hosts.length = ahead netif.ipAddr netif.netmask start + (j + 1) := by
    rw [← hhosts, List.length_map, hlength]
  have hin : ∀ h ∈ hosts, ¬ Behind endHost h := by
    intro h hh hbehind
    rw [← hhosts] at hh
    obtain ⟨x, hx, rfl⟩ := List.mem_map.mp hh
    have hrange := (mem_validIds.mp hx).1
    exact not_behind hstart hendHost hend (by omega) hbehind
  have hwalk : Walk netif.ipAddr netif.netmask (BitVec.ofNat 32) start.toNat turns :=
    leaves_walk hstart hlast (by omega)
  have henough : ahead netif.ipAddr netif.netmask start + (j + 1) ≤
      (visited netif.ipAddr netif.netmask (BitVec.ofNat 32) start.toNat turns).length ∨
      ∃ h ∈ visited netif.ipAddr netif.netmask (BitVec.ofNat 32) start.toNat turns,
        Behind endHost h := by
    rw [visited_ofNat, hhosts, hlen]
    exact Or.inl (Nat.le_refl _)
  have hvisited := initClients_visited hwalk (Nat.le_add_left turns fuel) henough
  rw [BitVec.ofNat_toNat, BitVec.setWidth_eq, visited_ofNat, hhosts, fill_inRange hin, ← hlen,
    List.take_length] at hvisited
  rw [← hlen, hvisited, Option.some.injEq] at hfront
  rw [hfront]
  exact hgood.take _

theorem block_valid (hstart : start &&& ~~~netif.netmask = start) {x : Nat}
    (hlow : firstId netif.netmask start ≤ x) (hhigh : x ≤ lastId netif.netmask start) :
    HostAddr netif (netif.ipAddr &&& netif.netmask ||| BitVec.ofNat 32 x) ↔
      checkHostIdIsValid netif.ipAddr netif.netmask (BitVec.ofNat 32 x) = true :=
  hostAddr_iff (id_and (block_and hstart hlow hhigh))

theorem block_inj (hstart : start &&& ~~~netif.netmask = start) {x y : Nat}
    (hx : firstId netif.netmask start ≤ x ∧ x ≤ lastId netif.netmask start)
    (hy : firstId netif.netmask start ≤ y ∧ y ≤ lastId netif.netmask start)
    (h : netif.ipAddr &&& netif.netmask ||| BitVec.ofNat 32 x =
      netif.ipAddr &&& netif.netmask ||| BitVec.ofNat 32 y) : x = y := by
  have handx := block_and hstart hx.1 hx.2
  have handy := block_and hstart hy.1 hy.2
  rw [← toNat_id handx, address_inj (id_and handx) (id_and handy) h, toNat_id handy]

theorem toNat_last (hstart : start &&& ~~~netif.netmask = start)
    (hlast : checkHostIdIsValid netif.ipAddr netif.netmask
      (BitVec.ofNat 32 (lastId netif.netmask start)) = true) {x : Nat}
    (hx : x ≤ lastId netif.netmask start + 1) : (BitVec.ofNat 32 x).toNat = x := by
  have hfirst := firstId_le netif.netmask start
  have hand := block_and hstart (by omega) (Nat.le_refl (lastId netif.netmask start))
  have hle : lastId netif.netmask start ≤ (~~~netif.netmask).toNat := hand ▸ Nat.and_le_right
  have hne : lastId netif.netmask start ≠ (~~~netif.netmask).toNat := fun heq =>
    (valid_iff.mp hlast).2.1 (by rw [heq, BitVec.ofNat_toNat, BitVec.setWidth_eq])
  have hlt := (~~~netif.netmask).isLt
  exact Nat.mod_eq_of_lt (by omega)

/-- The loop ends with ids that agree with its start. -/
theorem good_of_block (hstart : start &&& ~~~netif.netmask = start)
    (hlast : checkHostIdIsValid netif.ipAddr netif.netmask
      (BitVec.ofNat 32 (lastId netif.netmask start)) = true) (turns : Nat)
    (hturns : turns ≤ lastId netif.netmask start + 1 - start.toNat + 1)
    (henough : clientNum ≤ (validIds netif.ipAddr netif.netmask start.toNat turns).length ∨
      ∃ h ∈ validIds netif.ipAddr netif.netmask start.toNat turns,
        Behind endHost (BitVec.ofNat 32 h))
    (hin : ∀ x ∈ validIds netif.ipAddr netif.netmask start.toNat turns,
      ¬ Behind endHost (BitVec.ofNat 32 x) → x ≤ lastId netif.netmask start) :
    ∃ fuel l, initClients netif.ipAddr netif.netmask endHost fuel clientNum start = some l ∧
      Good netif l := by
  have hfirst := firstId_le netif.netmask start
  have hpos := Nat.two_pow_pos (hostBits netif.netmask)
  have hwalk : Walk netif.ipAddr netif.netmask (BitVec.ofNat 32) start.toNat turns :=
    leaves_walk hstart hlast (by omega)
  have hvisited : clientNum ≤
      (visited netif.ipAddr netif.netmask (BitVec.ofNat 32) start.toNat turns).length ∨
      ∃ h ∈ visited netif.ipAddr netif.netmask (BitVec.ofNat 32) start.toNat turns,
        Behind endHost h := by
    rw [visited_ofNat, List.length_map]
    exact henough.imp_right fun ⟨h, hh, hend⟩ => ⟨_, List.mem_map_of_mem hh, hend⟩
  have hl := initClients_visited hwalk (Nat.le_refl turns) hvisited
  rw [BitVec.ofNat_toNat, BitVec.setWidth_eq, visited_ofNat] at hl
  refine ⟨turns, _, hl, good_of_nodup (List.Nodup.map_on (fun x hx y hy heq => ?_) ?_) ?_ clientNum⟩
  · have hrangex := (mem_validIds.mp hx).1
    have hrangey := (mem_validIds.mp hy).1
    rw [← toNat_last hstart hlast (x := x) (by omega), heq,
      toNat_last hstart hlast (x := y) (by omega)]
  · exact List.Nodup.filter _ List.nodup_range'
  · intro a ha hend
    obtain ⟨x, hx, rfl⟩ := List.mem_map.mp ha
    obtain ⟨hrange, hvalid⟩ := mem_validIds.mp hx
    exact ⟨id_and (block_and hstart (by omega) (hin x hx hend)), hvalid⟩

/-- The loop goes on behind the last id, with addresses that it has not given yet. -/
theorem good_again (hstart : start &&& ~~~netif.netmask = start)
    (hlast : checkHostIdIsValid netif.ipAddr netif.netmask
      (BitVec.ofNat 32 (lastId netif.netmask start)) = true)
    (hbit : netif.ipAddr.getLsbD (hostBits netif.netmask) = true)
    (hlo : clientNum - ahead netif.ipAddr netif.netmask start ≤
      start.toNat - firstId netif.netmask start)
    (hagain : ∀ j < clientNum - ahead netif.ipAddr netif.netmask start,
      checkHostIdIsValid netif.ipAddr netif.netmask
        (BitVec.ofNat 32 (firstId netif.netmask start + j)) = true) :
    ∃ fuel l, initClients netif.ipAddr netif.netmask endHost fuel clientNum start = some l ∧
      Good netif l := by
  have hfirst := firstId_le netif.netmask start
  have hpos := Nat.two_pow_pos (hostBits netif.netmask)
  have hbits := hostBits_lt_of_valid hstart hlast
  have hsize : lastId netif.netmask start + 1 =
      firstId netif.netmask start + 2 ^ hostBits netif.netmask := by
    unfold lastId
    omega
  generalize hnum : clientNum - ahead netif.ipAddr netif.netmask start = num at hlo hagain
  have hids : validIds netif.ipAddr netif.netmask start.toNat
      (lastId netif.netmask start + 1 - start.toNat + num) =
      validIds netif.ipAddr netif.netmask start.toNat
        (lastId netif.netmask start + 1 - start.toNat) ++
      List.range' (lastId netif.netmask start + 1) num := by
    rw [validIds_add, Nat.add_sub_cancel' (by omega), validIds_behind hstart hbits (by omega)]
  have hwalk : Walk netif.ipAddr netif.netmask (BitVec.ofNat 32) start.toNat
      (lastId netif.netmask start + 1 - start.toNat + num) := leaves_walk hstart hlast (by omega)
  have henough : clientNum ≤ (visited netif.ipAddr netif.netmask (BitVec.ofNat 32) start.toNat
      (lastId netif.netmask start + 1 - start.toNat + num)).length ∨
      ∃ h ∈ visited netif.ipAddr netif.netmask (BitVec.ofNat 32) start.toNat
        (lastId netif.netmask start + 1 - start.toNat + num), Behind endHost h := by
    rw [visited_ofNat, List.length_map, hids, List.length_append, List.length_range', ← ahead]
    omega
  have hl := initClients_visited hwalk (Nat.le_refl _) henough
  rw [BitVec.ofNat_toNat, BitVec.setWidth_eq, visited_ofNat, hids] at hl
  have hfront : ∀ x ∈ validIds netif.ipAddr netif.netmask start.toNat
      (lastId netif.netmask start + 1 - start.toNat),
      start.toNat ≤ x ∧ x ≤ lastId netif.netmask start ∧
        checkHostIdIsValid netif.ipAddr netif.netmask (BitVec.ofNat 32 x) = true := by
    intro x hx
    obtain ⟨hrange, hvalid⟩ := mem_validIds.mp hx
    exact ⟨hrange.1, by omega, hvalid⟩
  have hbehind : ∀ y ∈ List.range' (lastId netif.netmask start + 1) num,
      ∃ j, j < num ∧ y = lastId netif.netmask start + 1 + j ∧
        netif.ipAddr &&& netif.netmask ||| BitVec.ofNat 32 y =
          netif.ipAddr &&& netif.netmask ||| BitVec.ofNat 32 (firstId netif.netmask start + j) := by
    intro y hy
    rw [List.mem_range'_1] at hy
    obtain ⟨j, rfl⟩ := Nat.le.dest hy.1
    exact ⟨j, by omega, rfl, address_behind hstart hbits hbit (by omega)⟩
  refine ⟨_, _, hl, fill_good (fun a ha _ => ?_) ?_ clientNum⟩
  · obtain ⟨x, hx, rfl⟩ := List.mem_map.mp ha
    rcases List.mem_append.mp hx with hx | hx
    · obtain ⟨hlow, hhigh, hvalid⟩ := hfront x hx
      exact (block_valid hstart (by omega) hhigh).mpr hvalid
    · obtain ⟨j, hj, -, heq⟩ := hbehind x hx
      rw [heq]
      exact (block_valid hstart (by omega) (by omega)).mpr (hagain j hj)
  · rw [List.pairwise_map]
    refine List.pairwise_append.mpr ⟨?_, ?_, fun x hx y hy _ _ heq => ?_⟩
    · refine List.Pairwise.imp_of_mem (fun {x y} hx hy hne _ _ heq => hne ?_)
        (List.Nodup.filter _ List.nodup_range')
      obtain ⟨hlow, hhigh, -⟩ := hfront x hx
      obtain ⟨hlow', hhigh', -⟩ := hfront y hy
      exact block_inj hstart ⟨by omega, hhigh⟩ ⟨by omega, hhigh'⟩ heq
    · refine List.Pairwise.imp_of_mem (fun {x y} hx hy hne _ _ heq => hne ?_) List.nodup_range'
      obtain ⟨i, hi, rfl, heqx⟩ := hbehind x hx
      obtain ⟨j, hj, rfl, heqy⟩ := hbehind y hy
      rw [heqx, heqy] at heq
      have hij := block_inj hstart (by omega) (by omega) heq
      omega
    · obtain ⟨hlow, hhigh, -⟩ := hfront x hx
      obtain ⟨j, hj, rfl, heqy⟩ := hbehind y hy
      rw [heqy] at heq
      have hxj := block_inj hstart ⟨by omega, hhigh⟩ (by omega) heq
      omega

/-- Where the loop leaves the ids that agree with its start, it must have found enough of them, or go
on with the same addresses. -/
theorem good_leaves_iff (hstart : start &&& ~~~netif.netmask = start)
    (hendHost : endHost &&& ~~~netif.netmask = endHost)
    (hlast : checkHostIdIsValid netif.ipAddr netif.netmask
      (BitVec.ofNat 32 (lastId netif.netmask start)) = true) :
    (∃ fuel l, initClients netif.ipAddr netif.netmask endHost fuel clientNum start = some l ∧
      Good netif l) ↔
    clientNum ≤ ahead netif.ipAddr netif.netmask start ∨
    (endHost ≠ 0 ∧ endHost.toNat ≤ lastId netif.netmask start) ∨
    (netif.ipAddr.getLsbD (hostBits netif.netmask) = true ∧
      clientNum - ahead netif.ipAddr netif.netmask start ≤
        start.toNat - firstId netif.netmask start ∧
      ∀ j < clientNum - ahead netif.ipAddr netif.netmask start,
        checkHostIdIsValid netif.ipAddr netif.netmask
          (BitVec.ofNat 32 (firstId netif.netmask start + j)) = true) := by
  have hfirst := firstId_le netif.netmask start
  have hpos := Nat.two_pow_pos (hostBits netif.netmask)
  have hbits := hostBits_lt_of_valid hstart hlast
  have hsize : lastId netif.netmask start + 1 =
      firstId netif.netmask start + 2 ^ hostBits netif.netmask := by
    unfold lastId
    omega
  constructor
  · rintro ⟨fuel, l, hl, hgood⟩
    by_cases hahead : clientNum ≤ ahead netif.ipAddr netif.netmask start
    · exact Or.inl hahead
    by_cases hend : endHost ≠ 0 ∧ endHost.toNat ≤ lastId netif.netmask start
    · exact Or.inr (Or.inl hend)
    refine Or.inr (Or.inr ?_)
    have hfront := fun j hj hlt => good_entries
      (good_front (j := j) hstart hendHost hlast hend hl hgood hj hlt)
    have hbehind : ∀ j, j < 2 ^ hostBits netif.netmask →
        ahead netif.ipAddr netif.netmask start + j < clientNum →
        HostAddr netif (netif.ipAddr &&& netif.netmask |||
          BitVec.ofNat 32 (lastId netif.netmask start + 1 + j)) := by
      intro j hj hlt
      refine (hfront j hj hlt).1 _ (List.mem_map_of_mem (List.mem_append_right _ ?_))
      rw [List.mem_range'_1]
      omega
    have hbit : netif.ipAddr.getLsbD (hostBits netif.netmask) = true := by
      have hzero := hbehind 0 hpos (by omega)
      rw [Nat.add_zero, hsize, behind_eq hstart hbits (Nat.le_refl _) (by omega)] at hzero
      exact hostAddr_bit hbits hzero
    have hagain : ∀ j, j < 2 ^ hostBits netif.netmask →
        ahead netif.ipAddr netif.netmask start + j < clientNum →
        checkHostIdIsValid netif.ipAddr netif.netmask
          (BitVec.ofNat 32 (firstId netif.netmask start + j)) = true := by
      intro j hj hlt
      have haddr := hbehind j hj hlt
      rw [address_behind hstart hbits hbit hj] at haddr
      exact (block_valid hstart (by omega) (by omega)).mp haddr
    have honce : ¬ ahead netif.ipAddr netif.netmask start +
        (start.toNat - firstId netif.netmask start) < clientNum := by
      -- else the start itself would come again
      intro hlt
      have hlo : start.toNat - firstId netif.netmask start < 2 ^ hostBits netif.netmask := by omega
      have hvalid := hagain _ hlo hlt
      have hsame := address_behind hstart hbits hbit hlo
      rw [Nat.add_sub_cancel' hfirst.1] at hvalid hsame
      have hpair := (hfront _ hlo hlt).2
      rw [List.pairwise_map] at hpair
      refine (List.pairwise_append.mp hpair).2.2 _ ?_ _ ?_ hsame.symm
      · exact mem_validIds.mpr ⟨⟨Nat.le_refl _, by omega⟩, hvalid⟩
      · rw [List.mem_range'_1]
        omega
    exact ⟨hbit, by omega, fun j hj => hagain j (by omega) (by omega)⟩
  · rintro (hahead | hend | ⟨hbit, hlo, hagain⟩)
    · refine good_of_block hstart hlast (lastId netif.netmask start + 1 - start.toNat) (by omega)
        (Or.inl hahead) fun x hx _ => ?_
      have hrange := (mem_validIds.mp hx).1
      omega
    · refine good_of_block hstart hlast (lastId netif.netmask start + 1 - start.toNat + 1) (by omega)
        (Or.inr ⟨lastId netif.netmask start + 1, ?_, ?_⟩) fun x hx hin => ?_
      · rw [validIds_add, Nat.add_sub_cancel' (by omega), validIds_behind hstart hbits hpos]
        exact List.mem_append_right _ (List.mem_range'_1.mpr (by omega))
      · exact (behind_ofNat (toNat_last hstart hlast (Nat.le_refl _))).mpr ⟨hend.1, by omega⟩
      · have hrange := (mem_validIds.mp hx).1
        by_contra hx
        have hbehind : Behind endHost (BitVec.ofNat 32 x) :=
          (behind_ofNat (toNat_last hstart hlast (by omega))).mpr ⟨hend.1, by omega⟩
        exact hin hbehind
    · exact good_again hstart hlast hbit hlo hagain

end Leaves

section Built
variable {netif : Netif} {opt : Options}

/-- `DHCPS_Start` builds its pool if and only if there is a host part and it has ids enough, or the
pool ends before the loop comes to an id again. -/
theorem built_iff (hup : netif.up = true) : Built netif opt ↔ ~~~netif.netmask ≠ 0 ∧
    Suffices netif.ipAddr netif.netmask (opt.endIp &&& ~~~netif.netmask)
      (startIpAddr netif opt &&& ~~~netif.netmask) := by
  have hmasked : ∀ a : Addr, a &&& ~~~netif.netmask &&& ~~~netif.netmask = a &&& ~~~netif.netmask :=
    fun a => by rw [BitVec.and_assoc, BitVec.and_self]
  rw [built_iff_good hup, Suffices]
  refine and_congr_right fun _ => ?_
  by_cases hlast : checkHostIdIsValid netif.ipAddr netif.netmask (BitVec.ofNat 32
      (lastId netif.netmask (startIpAddr netif opt &&& ~~~netif.netmask))) = true
  · rw [if_pos hlast]
    exact good_leaves_iff (hmasked _) (hmasked _) hlast
  · rw [if_neg hlast]
    exact good_wraps_iff (hmasked _) hlast

/-- Three addresses of a subnet of 256; the other entries are out of the range. -/
theorem built_iff_threeAddresses : Built netif24 threeAddresses := by
  refine (built_iff (by decide)).mpr ⟨by decide, ?_⟩
  have hbits : hostBits netif24.netmask = 8 := by decide +kernel
  have hfirst : firstId netif24.netmask
      (startIpAddr netif24 threeAddresses &&& ~~~netif24.netmask) = 0 := by
    unfold firstId
    rw [hbits]
    decide +kernel
  have hlast : lastId netif24.netmask
      (startIpAddr netif24 threeAddresses &&& ~~~netif24.netmask) = 255 := by
    have hsize : lastId netif24.netmask (startIpAddr netif24 threeAddresses &&& ~~~netif24.netmask) =
        0 + 2 ^ 8 - 1 := by rw [lastId, hfirst, hbits]
    exact hsize.trans (by decide)
  unfold Suffices
  rw [hlast, if_neg (by decide +kernel), hfirst, hbits]
  refine Or.inr ⟨by decide +kernel, 5, mem_validIds.mpr ⟨by omega, ?_⟩, ?_⟩
  · decide +kernel
  · decide +kernel

/-- A subnet of eight has five addresses for eight entries, a subnet of two has none, which the loop
looks for without an end, and for a subnet of one the start divides by zero. -/
theorem not_built_small : ¬ Built netif29 noOptions ∧
    (∀ fuel, dhcpsStart fuel ⟨true, 0xC0A80101, 0xFFFFFFFE⟩ noOptions true true = none) ∧
    ∀ fuel, dhcpsStart fuel ⟨true, 0xC0A80101, 0xFFFFFFFF⟩ noOptions true true = none := by
  refine ⟨fun hbuilt => ?_, fun fuel => ?_, fun fuel => rfl⟩
  · obtain ⟨-, fuel, l, hl, hgood⟩ := (built_iff_good (by decide)).mp hbuilt
    have hnine : (initClients netif29.ipAddr netif29.netmask (noOptions.endIp &&& ~~~netif29.netmask) 9
        clientNum (startIpAddr netif29 noOptions &&& ~~~netif29.netmask)).map (fun l =>
          decide (l.Pairwise fun c d => c.state = .idle → d.state = .idle → c.ipAddr ≠ d.ipAddr)) =
        some false := by decide +kernel
    obtain ⟨l', hl', hnot⟩ := Option.map_eq_some_iff.mp hnine
    have hsame := (initClients_mono (Nat.le_add_right fuel 9) hl).symm.trans
      (initClients_mono (Nat.le_add_left 9 fuel) hl')
    rw [Option.some.injEq] at hsame
    rw [← hsame] at hnot
    exact of_decide_eq_false hnot hgood.distinct
  · have hnone : initClients 0xC0A80101 0xFFFFFFFE 0 fuel clientNum 1 = none := by
      rw [Option.eq_none_iff_forall_ne_some]
      intro l hl
      obtain ⟨host, hhost, -⟩ := Option.bind_eq_some_iff.mp hl
      obtain ⟨hvalid, hle⟩ := nextHost_valid (by decide) hhost
      obtain ⟨-, hbroadcast, hzero⟩ := valid_iff.mp hvalid
      have hone : ~~~(0xFFFFFFFE : Addr) = 1 := by decide
      rw [hone] at hle hbroadcast
      rw [BitVec.le_def] at hle
      have htwo : host.toNat = 0 ∨ host.toNat = 1 := by
        have hval : (1 : Addr).toNat = 1 := rfl
        omega
      rcases htwo with h | h
      · exact hzero (BitVec.eq_of_toNat_eq h)
      · exact hbroadcast (BitVec.eq_of_toNat_eq h)
    unfold dhcpsStart
    dsimp only
    rw [if_neg (by simp), if_neg (by simp), if_neg (by decide)]
    have hstart : startIpAddr ⟨true, 0xC0A80101, 0xFFFFFFFE⟩ noOptions &&&
        ~~~(0xFFFFFFFE : Addr) = 1 := by decide +kernel
    have hend : noOptions.endIp &&& ~~~(0xFFFFFFFE : Addr) = 0 := by decide
    rw [hstart, hend, hnone]
    rfl

end Built

end WmIot.Dhcp
