import Mathlib

/-!
# The address of the soft AP

`wm_nm_set_netif_ip_info` of `wm_nm_api.c` for the AP interface, which makes the options of the DHCP server from
the address. Addresses are stored in network byte order; the search for the start of the pool is in host byte
order.
-/

namespace WmIot.Nm.SoftAp
set_option autoImplicit false

abbrev Addr := BitVec 32

/-- `ntohl` and `htonl` of a little-endian machine -/
def ntohl (x : Addr) : Addr :=
  x.extractLsb' 0 8 ++ x.extractLsb' 8 8 ++ x.extractLsb' 16 8 ++ x.extractLsb' 24 8

/-- The loop of `wm_nm_subnet_bits`, `n` bits from bit `i` on. -/
def subnetBitsLoop (mask : Addr) : Nat → Nat → Nat → Nat
  | 0, _, count => count
  | n + 1, i, count =>
    if mask.getLsbD i then subnetBitsLoop mask n (i + 1) (count + 1)
    else if count ≠ 0 then 0
    else subnetBitsLoop mask n (i + 1) count

/-- `wm_nm_subnet_bits` -/
def subnetBits (mask : Addr) : Nat := subnetBitsLoop (ntohl mask) 32 0 0

/-- `wm_nm_valid_subnet_mask` -/
def validSubnetMask (mask : Addr) : Bool := 0 < subnetBits mask && subnetBits mask ≤ 32

/-- `wm_nm_validate_ip4` -/
def validateIp4 (ip gateway mask : Addr) : Bool :=
  if ip = 0 then gateway = 0 && mask = 0
  else if validSubnetMask mask = false then false
  else if (ip &&& mask) ||| ~~~mask = ip then false
  else if (gateway &&& mask) ||| ~~~mask = gateway then false
  else if ip &&& ~~~mask = 0 || gateway &&& ~~~mask = 0 then false
  else ip &&& mask = gateway &&& mask

/-- `wm_ip_addr_t`; `none` is an address that is not of IPv4. -/
abbrev IpAddr := Option Addr

/-- `wm_netif_ip_info_t` -/
structure IpInfo where
  ip : IpAddr
  netmask : IpAddr
  gw : IpAddr

/-- `wm_nm_dhcps_option_t`, whose addresses are of IPv4 -/
structure DhcpsOption where
  serverIp : Addr
  startIp : Addr
  ipMask : Addr
  gateway : Addr
  dns1 : Addr
  dns2 : Addr
  leaseTime : BitVec 32
  deriving DecidableEq, Repr

inductive Err where
  | success
  | failed
  | invalidParam
  | noSupport
  | noMem
  deriving DecidableEq, Repr

/-- How the message queue takes a message: the copy is allocated, and the queue has room. -/
structure Queue where
  mem : Bool
  room : Bool

/-- `wm_nm_core_send_msg` -/
def coreSendMsg (queue : Queue) : Err :=
  if queue.mem = false then .noMem else if queue.room = false then .failed else .success

/-- The search for the first address of the pool, at most `fuel` turns from `startIp` on. `some none` is an empty
pool. -/
def searchStart (serverIp ipMask gwIp : Addr) : Nat → Addr → Option (Option Addr)
  | 0, _ => none
  | fuel + 1, startIp =>
    if startIp &&& ~~~ipMask = 0 then some none
    else if startIp &&& ~~~ipMask = serverIp &&& ~~~ipMask then searchStart serverIp ipMask gwIp fuel (startIp + 1)
    else if startIp &&& ~~~ipMask = gwIp &&& ~~~ipMask then searchStart serverIp ipMask gwIp fuel (startIp + 1)
    else some (some startIp)

/-- `CONFIG_NM_DHCPS_LEASE_TIME` -/
def leaseTime : BitVec 32 := 86400

/-- `wm_nm_set_netif_ip_info` of the AP interface: the result and `nm->dhcps_option`. `known` is that the interface
is found. -/
def setNetifIpInfo (fuel : Nat) (queue : Queue) (known : Bool) (ipInfo : Option IpInfo) (opt : DhcpsOption) :
    Option (Err × DhcpsOption) :=
  match known, ipInfo with
  | true, some ⟨some ip, some netmask, some gw⟩ =>
    if validateIp4 ip gw netmask = false then some (.invalidParam, opt)
    else
      let opt := { opt with serverIp := ip, ipMask := netmask, gateway := gw, dns1 := gw, dns2 := 0, leaseTime }
      let serverIp := ntohl opt.serverIp
      let ipMask := ntohl opt.ipMask
      match searchStart serverIp ipMask (ntohl opt.gateway) fuel 1 with
      | none => none
      | some none => some (.failed, opt)
      | some (some startIp) =>
        some (coreSendMsg queue, { opt with startIp := ntohl (startIp ||| (serverIp &&& ipMask)) })
  | true, some _ => some (.noSupport, opt)
  | _, _ => some (.invalidParam, opt)

/-- The start of the pool is an address of the server's subnet that a station can have. -/
structure Usable (opt : DhcpsOption) : Prop where
  inSubnet : ntohl opt.startIp &&& ntohl opt.ipMask = ntohl opt.serverIp &&& ntohl opt.ipMask
  notNetwork : ntohl opt.startIp ≠ ntohl opt.serverIp &&& ntohl opt.ipMask
  notBroadcast : ntohl opt.startIp ≠ (ntohl opt.serverIp &&& ntohl opt.ipMask) ||| ~~~ntohl opt.ipMask
  notServer : opt.startIp ≠ opt.serverIp
  notGateway : opt.startIp ≠ opt.gateway

/-- The call ends; after a success the pool is usable, and an error leaves the options as they were. -/
def SetsRange (queue : Queue) (known : Bool) (ipInfo : Option IpInfo) (opt : DhcpsOption) : Prop :=
  ∃ err opt', (∀ fuel, 3 ≤ fuel → setNetifIpInfo fuel queue known ipInfo opt = some (err, opt')) ∧
    (err = .success → Usable opt') ∧ (err ≠ .success → opt' = opt)

/-! ### The byte order -/

theorem getLsbD_ntohl (x : Addr) {i : Nat} (h : i < 32) :
    (ntohl x).getLsbD i = x.getLsbD (8 * (3 - i / 8) + i % 8) := by
  simp only [ntohl, BitVec.getLsbD_append, BitVec.getLsbD_extractLsb']
  interval_cases i <;> rfl

theorem ntohl_ntohl (x : Addr) : ntohl (ntohl x) = x := by
  refine BitVec.eq_of_getLsbD_eq fun i hi => ?_
  rw [getLsbD_ntohl _ hi, getLsbD_ntohl _ (by omega)]
  congr 1
  omega

theorem ntohl_and (x y : Addr) : ntohl (x &&& y) = ntohl x &&& ntohl y := by
  refine BitVec.eq_of_getLsbD_eq fun i hi => ?_
  simp only [BitVec.getLsbD_and, getLsbD_ntohl _ hi]

theorem ntohl_or (x y : Addr) : ntohl (x ||| y) = ntohl x ||| ntohl y := by
  refine BitVec.eq_of_getLsbD_eq fun i hi => ?_
  simp only [BitVec.getLsbD_or, getLsbD_ntohl _ hi]

theorem ntohl_not (x : Addr) : ntohl (~~~x) = ~~~ntohl x := by
  refine BitVec.eq_of_getLsbD_eq fun i hi => ?_
  have hk : 8 * (3 - i / 8) + i % 8 < 32 := by omega
  simp only [BitVec.getLsbD_not, getLsbD_ntohl _ hi, hi, hk, decide_true, Bool.true_and]

theorem ntohl_injective {x y : Addr} : ntohl x = ntohl y ↔ x = y := by
  constructor
  · intro h
    rw [← ntohl_ntohl x, h, ntohl_ntohl]
  · rintro rfl
    rfl

/-! ### The netmask -/

theorem subnetBitsLoop_ones {mask : Addr} {n i count : Nat} (hcount : count ≠ 0)
    (h : subnetBitsLoop mask n i count ≠ 0) {k : Nat} (hlo : i ≤ k) (hhi : k < i + n) : mask.getLsbD k = true := by
  induction n generalizing i count with
  | zero => omega
  | succ n ih =>
    rw [subnetBitsLoop] at h
    split at h
    next hi =>
      rcases Nat.eq_or_lt_of_le hlo with rfl | hlo
      · exact hi
      · exact ih (Nat.succ_ne_zero count) h hlo (by omega)
    next => exact absurd rfl h

/-- Bits are counted when they are zeros with ones behind them. -/
theorem subnetBitsLoop_split {mask : Addr} {n i : Nat} (h : subnetBitsLoop mask n i 0 ≠ 0) :
    ∃ z, i ≤ z ∧ z < i + n ∧ ∀ k, i ≤ k → k < i + n → mask.getLsbD k = decide (z ≤ k) := by
  induction n generalizing i with
  | zero => exact absurd rfl h
  | succ n ih =>
    rw [subnetBitsLoop] at h
    split at h
    next hi =>
      refine ⟨i, Nat.le_refl i, by omega, fun k hlo hhi => ?_⟩
      rw [decide_eq_true hlo]
      rcases Nat.eq_or_lt_of_le hlo with rfl | hlt
      · exact hi
      · exact subnetBitsLoop_ones (Nat.succ_ne_zero 0) h hlt (by omega)
    next hi =>
      rw [if_neg (not_not.mpr rfl)] at h
      obtain ⟨z, hlo, hhi, hz⟩ := ih h
      refine ⟨z, by omega, by omega, fun k hk hkn => ?_⟩
      rcases Nat.eq_or_lt_of_le hk with rfl | hlt
      · rw [decide_eq_false (by omega)]
        exact Bool.not_eq_true _ ▸ hi
      · exact hz k hlt (by omega)

/-- The host bits of a valid netmask are the low ones. -/
theorem hostBits_of_valid {mask : Addr} (h : validSubnetMask mask = true) :
    ∃ z, z < 32 ∧ ∀ k < 32, (~~~ntohl mask).getLsbD k = decide (k < z) := by
  rw [validSubnetMask, Bool.and_eq_true, decide_eq_true_eq] at h
  obtain ⟨z, -, hz, hbits⟩ := subnetBitsLoop_split (Nat.ne_of_gt h.1)
  refine ⟨z, by omega, fun k hk => ?_⟩
  rw [BitVec.getLsbD_not, hbits k (Nat.zero_le k) (by omega), decide_eq_true hk, Bool.true_and, ← decide_not,
    decide_eq_decide]
  omega

/-! ### Network and host part -/

section
variable {s m g k : Addr}

theorem net_or_host (s m : Addr) : (s &&& m) ||| (s &&& ~~~m) = s := by
  refine BitVec.eq_of_getLsbD_eq fun i hi => ?_
  simp only [BitVec.getLsbD_or, BitVec.getLsbD_and, BitVec.getLsbD_not, hi, decide_true, Bool.true_and]
  cases s.getLsbD i <;> cases m.getLsbD i <;> rfl

theorem net_and_host (s m : Addr) : s &&& m &&& ~~~m = 0 := by
  rw [BitVec.and_assoc, BitVec.and_not_self]
  exact BitVec.and_zero

/-- The parts of an address that is put together. -/
theorem parts_of_or (hk : k &&& ~~~m = k) (s : Addr) :
    (k ||| (s &&& m)) &&& m = s &&& m ∧ (k ||| (s &&& m)) &&& ~~~m = k := by
  have hbit : ∀ i < 32, k.getLsbD i = true → m.getLsbD i = false := by
    intro i hi hki
    rw [← hk, BitVec.getLsbD_and, BitVec.getLsbD_not, Bool.and_eq_true, Bool.and_eq_true] at hki
    exact (Bool.not_eq_true' _).mp hki.2.2
  constructor
  · refine BitVec.eq_of_getLsbD_eq fun i hi => ?_
    have := hbit i hi
    simp only [BitVec.getLsbD_or, BitVec.getLsbD_and]
    cases hki : k.getLsbD i
    · cases s.getLsbD i <;> cases m.getLsbD i <;> rfl
    · rw [this hki, Bool.and_false, Bool.and_false]
  · refine BitVec.eq_of_getLsbD_eq fun i hi => ?_
    have := hbit i hi
    simp only [BitVec.getLsbD_or, BitVec.getLsbD_and, BitVec.getLsbD_not, hi, decide_true, Bool.true_and]
    cases hki : k.getLsbD i
    · cases s.getLsbD i <;> cases m.getLsbD i <;> rfl
    · rw [this hki]
      rfl

theorem eq_of_parts (hnet : s &&& m = g &&& m) (hhost : s &&& ~~~m = g &&& ~~~m) : s = g := by
  rw [← net_or_host s m, hnet, hhost, net_or_host]

/-- The least host part other than 0 and two more. -/
def firstFree (a b : Addr) : Addr := if 1 ≠ a ∧ 1 ≠ b then 1 else if 2 ≠ a ∧ 2 ≠ b then 2 else 3

theorem firstFree_cases (a b : Addr) : firstFree a b = 1 ∨ firstFree a b = 2 ∨ firstFree a b = 3 := by
  rw [firstFree]
  split
  · exact Or.inl rfl
  · split
    · exact Or.inr (Or.inl rfl)
    · exact Or.inr (Or.inr rfl)

theorem firstFree_ne (a b : Addr) : firstFree a b ≠ a ∧ firstFree a b ≠ b := by
  rw [firstFree]
  split
  next h => exact h
  next h₁ =>
    split
    next h => exact h
    next h₂ =>
      rw [not_and_or, not_not, not_not] at h₁ h₂
      rcases h₁ with rfl | rfl
      · obtain rfl := h₂.resolve_left (by decide)
        decide
      · obtain rfl := h₂.resolve_right (by decide)
        decide

/-- With three host bits patterns to try, the search ends. -/
theorem searchStart_eq (hlow : (3 : Addr) &&& ~~~m = 3) {fuel : Nat} (hfuel : 3 ≤ fuel) :
    searchStart s m g fuel 1 = some (some (firstFree (s &&& ~~~m) (g &&& ~~~m))) := by
  have hone : (1 : Addr) &&& ~~~m = 1 := by
    rw [show (1 : Addr) = 1 &&& 3 by decide, BitVec.and_assoc, hlow]
  have htwo : (2 : Addr) &&& ~~~m = 2 := by
    rw [show (2 : Addr) = 2 &&& 3 by decide, BitVec.and_assoc, hlow]
  obtain ⟨n, rfl⟩ := Nat.exists_eq_add_of_le' hfuel
  have hnext : ∀ k : Addr, k &&& ~~~m = k → k ≠ 0 → ∀ fuel, searchStart s m g (fuel + 1) k =
      if k ≠ s &&& ~~~m ∧ k ≠ g &&& ~~~m then some (some k) else searchStart s m g fuel (k + 1) := by
    intro k hk hzero fuel
    rw [searchStart, hk, if_neg hzero]
    by_cases hs : k = s &&& ~~~m
    · rw [if_pos hs, if_neg fun h => h.1 hs]
    · rw [if_neg hs]
      by_cases hg : k = g &&& ~~~m
      · rw [if_pos hg, if_neg fun h => h.2 hg]
      · rw [if_neg hg, if_pos ⟨hs, hg⟩]
  have hfree := firstFree_ne (s &&& ~~~m) (g &&& ~~~m)
  rw [firstFree] at hfree ⊢
  rw [hnext 1 hone (by decide)]
  split
  · rfl
  next h₁ =>
    rw [if_neg h₁] at hfree
    rw [show (1 : Addr) + 1 = 2 by decide, hnext 2 htwo (by decide)]
    split
    · rfl
    next h₂ =>
      rw [if_neg h₂] at hfree
      rw [show (2 : Addr) + 1 = 3 by decide, hnext 3 hlow (by decide), if_pos hfree]

/-! ### The pool -/

/-- The options for an address. -/
def optionFor (ip netmask gw : Addr) : DhcpsOption where
  serverIp := ip
  startIp := ntohl (firstFree (ntohl ip &&& ~~~ntohl netmask) (ntohl gw &&& ~~~ntohl netmask) |||
    (ntohl ip &&& ntohl netmask))
  ipMask := netmask
  gateway := gw
  dns1 := gw
  dns2 := 0
  leaseTime := leaseTime

/-- What an accepted address and gateway are: two low host bits, both in one subnet, and with just these bits each
one of the two hosts. -/
structure Accepted (ip gw netmask : Addr) : Prop where
  low : (3 : Addr) &&& ~~~ntohl netmask = 3
  net : ntohl ip &&& ntohl netmask = ntohl gw &&& ntohl netmask
  host : ~~~ntohl netmask = 3 →
    (ntohl ip &&& 3 = 1 ∨ ntohl ip &&& 3 = 2) ∧ (ntohl gw &&& 3 = 1 ∨ ntohl gw &&& 3 = 2)

theorem and_three (a : Addr) : a &&& 3 = 0 ∨ a &&& 3 = 1 ∨ a &&& 3 = 2 ∨ a &&& 3 = 3 := by
  have hle : (a &&& 3).toNat ≤ 3 := by
    rw [BitVec.toNat_and]
    exact Nat.and_le_right
  obtain h | h | h | h : (a &&& 3).toNat = 0 ∨ (a &&& 3).toNat = 1 ∨ (a &&& 3).toNat = 2 ∨
      (a &&& 3).toNat = 3 := by omega
  · exact Or.inl (BitVec.eq_of_toNat_eq h)
  · exact Or.inr (Or.inl (BitVec.eq_of_toNat_eq h))
  · exact Or.inr (Or.inr (Or.inl (BitVec.eq_of_toNat_eq h)))
  · exact Or.inr (Or.inr (Or.inr (BitVec.eq_of_toNat_eq h)))

/-- With at most one host bit an address is the network's or the broadcast address. -/
theorem host_of_few_bits {z : Nat} (hbits : ∀ i < 32, (~~~m).getLsbD i = decide (i < z)) (hz : z ≤ 1) (s : Addr) :
    s &&& ~~~m = 0 ∨ s &&& ~~~m = ~~~m := by
  cases hs : s.getLsbD 0 with
  | false =>
    refine Or.inl (BitVec.eq_of_getLsbD_eq fun i hi => ?_)
    rw [BitVec.getLsbD_and, hbits i hi, show (0 : Addr) = 0#32 from rfl, BitVec.getLsbD_zero]
    by_cases hiz : i < z
    · rw [show i = 0 by omega, hs, Bool.false_and]
    · rw [decide_eq_false hiz, Bool.and_false]
  | true =>
    refine Or.inr (BitVec.eq_of_getLsbD_eq fun i hi => ?_)
    rw [BitVec.getLsbD_and, hbits i hi]
    by_cases hiz : i < z
    · rw [show i = 0 by omega, hs, Bool.true_and]
    · rw [decide_eq_false hiz, Bool.and_false]

theorem low_of_bits {z : Nat} (hbits : ∀ i < 32, (~~~m).getLsbD i = decide (i < z)) (hz : 2 ≤ z) :
    (3 : Addr) &&& ~~~m = 3 := by
  refine BitVec.eq_of_getLsbD_eq fun i hi => ?_
  rw [BitVec.getLsbD_and, hbits i hi]
  by_cases hlow : i < 2
  · rw [decide_eq_true (by omega), Bool.and_true]
  · have hzero : (3 : Addr).getLsbD i = false := by
      interval_cases i <;> rfl
    rw [hzero, Bool.false_and]

theorem accepted_of_validate {ip gw netmask : Addr} (h : validateIp4 ip gw netmask = true) :
    Accepted ip gw netmask := by
  rw [validateIp4] at h
  split at h
  next hip =>
    obtain ⟨rfl, rfl⟩ : gw = 0 ∧ netmask = 0 := by simpa using h
    subst hip
    exact ⟨by decide, rfl, fun hthree => absurd hthree (by decide)⟩
  next hip =>
    split at h
    · cases h
    next hvalid =>
    split at h
    · cases h
    next hipAll =>
    split at h
    · cases h
    next hgwAll =>
    split at h
    · cases h
    next hzero =>
    obtain ⟨hipZero, hgwZero⟩ : ip &&& ~~~netmask ≠ 0 ∧ gw &&& ~~~netmask ≠ 0 := by simpa using hzero
    have hnet : ip &&& netmask = gw &&& netmask := of_decide_eq_true h
    have hbroadcast : ∀ a : Addr, (a &&& netmask) ||| ~~~netmask ≠ a →
        ntohl a &&& ~~~ntohl netmask ≠ ~~~ntohl netmask := by
      intro a ha hall
      refine ha (ntohl_injective.mp ?_)
      rw [ntohl_or, ntohl_and, ntohl_not]
      exact (congrArg (_ ||| ·) hall.symm).trans (net_or_host _ _)
    have hnetwork : ∀ a : Addr, a &&& ~~~netmask ≠ 0 → ntohl a &&& ~~~ntohl netmask ≠ 0 := by
      intro a ha hzero
      refine ha (ntohl_injective.mp ?_)
      rw [ntohl_and, ntohl_not, hzero]
      decide
    obtain ⟨z, -, hbits⟩ := hostBits_of_valid ((Bool.not_eq_false _).mp hvalid)
    have htwo : 2 ≤ z := by
      by_contra hfew
      rcases host_of_few_bits hbits (by omega) (ntohl ip) with hhost | hhost
      · exact hnetwork ip hipZero hhost
      · exact hbroadcast ip hipAll hhost
    refine ⟨low_of_bits hbits htwo, ?_, fun hthree => ?_⟩
    · rw [← ntohl_and, hnet, ntohl_and]
    · have hone : ∀ a : Addr, (a &&& netmask) ||| ~~~netmask ≠ a → a &&& ~~~netmask ≠ 0 →
          ntohl a &&& 3 = 1 ∨ ntohl a &&& 3 = 2 := by
        intro a hall hzero
        have h3 := hbroadcast a hall
        have h0 := hnetwork a hzero
        rw [hthree] at h3 h0
        rcases and_three (ntohl a) with h | h | h | h
        · exact absurd h h0
        · exact Or.inl h
        · exact Or.inr h
        · exact absurd h h3
      exact ⟨hone ip hipAll hipZero, hone gw hgwAll hgwZero⟩

/-- The last host of the smallest subnet is its broadcast address. -/
theorem firstFree_eq_host_iff {ip gw netmask : Addr} (h : Accepted ip gw netmask) :
    firstFree (ntohl ip &&& ~~~ntohl netmask) (ntohl gw &&& ~~~ntohl netmask) = ~~~ntohl netmask ↔
      netmask = ntohl 0xFFFFFFFC#32 ∧ ip ≠ gw := by
  have hmask : ~~~ntohl netmask = 3 ↔ netmask = ntohl 0xFFFFFFFC#32 := by
    constructor
    · intro hthree
      have hnet : ntohl netmask = ~~~(~~~ntohl netmask) := BitVec.not_not.symm
      rw [hthree] at hnet
      rw [← ntohl_ntohl netmask, hnet]
      rfl
    · rintro rfl
      rw [ntohl_ntohl]
      rfl
  rw [← hmask]
  constructor
  · intro hlast
    have hthree : ~~~ntohl netmask = 3 := by
      have hlow := h.low
      rcases firstFree_cases (ntohl ip &&& ~~~ntohl netmask) (ntohl gw &&& ~~~ntohl netmask) with hf | hf | hf
      · rw [← hlast, hf] at hlow
        exact absurd hlow (by decide)
      · rw [← hlast, hf] at hlow
        exact absurd hlow (by decide)
      · rw [← hlast, hf]
    refine ⟨hthree, ?_⟩
    rintro rfl
    rw [hthree] at hlast
    rcases (h.host hthree).1 with hip | hip
    · rw [hip] at hlast
      exact absurd hlast (by decide)
    · rw [hip] at hlast
      exact absurd hlast (by decide)
  · rintro ⟨hthree, hne⟩
    have hparts : ntohl ip &&& ~~~ntohl netmask ≠ ntohl gw &&& ~~~ntohl netmask :=
      fun heq => hne (ntohl_injective.mp (eq_of_parts h.net heq))
    obtain ⟨hip, hgw⟩ := h.host hthree
    rw [hthree] at hparts ⊢
    rcases hip with hip | hip
    · rw [hip] at hparts ⊢
      rw [hgw.resolve_left fun h => hparts h.symm]
      rfl
    · rw [hip] at hparts ⊢
      rw [hgw.resolve_right fun h => hparts h.symm]
      rfl

/-- The pool that is made of an accepted address starts with an address of a host, or with the broadcast address. -/
theorem optionFor_usable_iff {ip gw netmask : Addr} (h : Accepted ip gw netmask) :
    Usable (optionFor ip netmask gw) ↔ ¬ (netmask = ntohl 0xFFFFFFFC#32 ∧ ip ≠ gw) := by
  have hfree := firstFree_ne (ntohl ip &&& ~~~ntohl netmask) (ntohl gw &&& ~~~ntohl netmask)
  have hcases := firstFree_cases (ntohl ip &&& ~~~ntohl netmask) (ntohl gw &&& ~~~ntohl netmask)
  have hstart : ntohl (optionFor ip netmask gw).startIp =
      firstFree (ntohl ip &&& ~~~ntohl netmask) (ntohl gw &&& ~~~ntohl netmask) ||| (ntohl ip &&& ntohl netmask) :=
    ntohl_ntohl _
  rw [← firstFree_eq_host_iff h]
  generalize firstFree (ntohl ip &&& ~~~ntohl netmask) (ntohl gw &&& ~~~ntohl netmask) = k at *
  have hlow : k &&& ~~~ntohl netmask = k := by
    rcases hcases with rfl | rfl | rfl
    · rw [show (1 : Addr) = 1 &&& 3 by decide, BitVec.and_assoc, h.low]
    · rw [show (2 : Addr) = 2 &&& 3 by decide, BitVec.and_assoc, h.low]
    · exact h.low
  have hzero : k ≠ 0 := by
    rcases hcases with rfl | rfl | rfl <;> decide
  obtain ⟨hnet, hhost⟩ := parts_of_or hlow (ntohl ip)
  constructor
  · rintro ⟨-, -, hbroadcast, -, -⟩ hlast
    refine hbroadcast ?_
    rw [hstart, hlast, BitVec.or_comm]
    rfl
  · intro hlast
    refine ⟨?_, fun heq => hzero ?_, fun heq => hlast ?_, fun heq => hfree.1 ?_, fun heq => hfree.2 ?_⟩
    · rw [hstart]
      exact hnet
    · rw [hstart] at heq
      rw [← hhost, heq]
      exact net_and_host _ _
    · rw [hstart] at heq
      have hall := (parts_of_or (BitVec.and_self : ~~~ntohl netmask &&& ~~~ntohl netmask = _) (ntohl ip)).2
      rw [← hhost, heq, BitVec.or_comm]
      exact hall
    · rw [← ntohl_injective, hstart] at heq
      rw [← hhost, heq]
      rfl
    · rw [← ntohl_injective, hstart] at heq
      rw [← hhost, heq]
      rfl

end

/-! ### The call -/

/-- The subnet of a request that is taken has hosts to spare, and a message that is not sent finds the options as
the request makes them. -/
def Fine (queue : Queue) (known : Bool) (ipInfo : Option IpInfo) (opt : DhcpsOption) : Prop :=
  ∀ ip netmask gw, known = true → ipInfo = some ⟨some ip, some netmask, some gw⟩ →
    validateIp4 ip gw netmask = true →
      (coreSendMsg queue = .success → ¬ (netmask = ntohl 0xFFFFFFFC#32 ∧ ip ≠ gw)) ∧
      (coreSendMsg queue ≠ .success → opt = optionFor ip netmask gw)

section
variable {queue : Queue} {known : Bool} {ipInfo : Option IpInfo} {opt : DhcpsOption} {fuel : Nat}

/-- The options are written before the message is sent. -/
theorem setNetifIpInfo_of_valid {ip netmask gw : Addr} (h : validateIp4 ip gw netmask = true) (hfuel : 3 ≤ fuel) :
    setNetifIpInfo fuel queue true (some ⟨some ip, some netmask, some gw⟩) opt =
      some (coreSendMsg queue, optionFor ip netmask gw) := by
  simp only [setNetifIpInfo]
  rw [if_neg (Bool.not_eq_false _ ▸ h), searchStart_eq (accepted_of_validate h).low hfuel]
  rfl

/-- A request that is not taken is refused before anything is written. -/
theorem setNetifIpInfo_refused
    (h : ∀ ip netmask gw, known = true → ipInfo = some ⟨some ip, some netmask, some gw⟩ →
      validateIp4 ip gw netmask = false) :
    ∃ err, err ≠ .success ∧ ∀ fuel, setNetifIpInfo fuel queue known ipInfo opt = some (err, opt) := by
  match known, ipInfo, h with
  | true, some ⟨some ip, some netmask, some gw⟩, h =>
    refine ⟨.invalidParam, by decide, fun fuel => ?_⟩
    simp only [setNetifIpInfo]
    rw [if_pos (h ip netmask gw rfl rfl)]
  | true, some ⟨some _, some _, none⟩, _ => exact ⟨.noSupport, by decide, fun _ => rfl⟩
  | true, some ⟨some _, none, _⟩, _ => exact ⟨.noSupport, by decide, fun _ => rfl⟩
  | true, some ⟨none, _, _⟩, _ => exact ⟨.noSupport, by decide, fun _ => rfl⟩
  | true, none, _ => exact ⟨.invalidParam, by decide, fun _ => rfl⟩
  | false, _, _ => exact ⟨.invalidParam, by decide, fun _ => rfl⟩

theorem setsRange_of_valid {ip netmask gw : Addr} (h : validateIp4 ip gw netmask = true) :
    SetsRange queue true (some ⟨some ip, some netmask, some gw⟩) opt ↔
      (coreSendMsg queue = .success → Usable (optionFor ip netmask gw)) ∧
      (coreSendMsg queue ≠ .success → optionFor ip netmask gw = opt) := by
  constructor
  · rintro ⟨err, opt', hcall, husable, hsame⟩
    have heq := hcall 3 (Nat.le_refl 3)
    rw [setNetifIpInfo_of_valid h (Nat.le_refl 3)] at heq
    obtain ⟨rfl, rfl⟩ := Prod.mk.inj (Option.some.inj heq)
    exact ⟨husable, hsame⟩
  · rintro ⟨husable, hsame⟩
    exact ⟨_, _, fun fuel hfuel => setNetifIpInfo_of_valid h hfuel, husable, hsame⟩

theorem setsRange_iff : SetsRange queue known ipInfo opt ↔ Fine queue known ipInfo opt := by
  by_cases htaken : ∃ ip netmask gw, known = true ∧ ipInfo = some ⟨some ip, some netmask, some gw⟩ ∧
      validateIp4 ip gw netmask = true
  · obtain ⟨ip, netmask, gw, rfl, rfl, hvalid⟩ := htaken
    rw [setsRange_of_valid hvalid, optionFor_usable_iff (accepted_of_validate hvalid)]
    constructor
    · rintro ⟨hsent, hlost⟩ ip' netmask' gw' - heq -
      injection heq with heq
      injection heq with hip hmask hgw
      obtain rfl := Option.some.inj hip
      obtain rfl := Option.some.inj hmask
      obtain rfl := Option.some.inj hgw
      exact ⟨hsent, fun h => (hlost h).symm⟩
    · intro hfine
      obtain ⟨hsent, hlost⟩ := hfine ip netmask gw rfl rfl hvalid
      exact ⟨hsent, fun h => (hlost h).symm⟩
  · have hrefused : ∀ ip netmask gw, known = true → ipInfo = some ⟨some ip, some netmask, some gw⟩ →
        validateIp4 ip gw netmask = false := by
      intro ip netmask gw hknown hinfo
      exact (Bool.not_eq_true _).mp fun hvalid => htaken ⟨ip, netmask, gw, hknown, hinfo, hvalid⟩
    constructor
    · intro _ ip netmask gw hknown hinfo hvalid
      exact absurd ⟨ip, netmask, gw, hknown, hinfo, hvalid⟩ htaken
    · intro _
      have hcall : ∃ err, err ≠ .success ∧
          ∀ fuel, setNetifIpInfo fuel queue known ipInfo opt = some (err, opt) := setNetifIpInfo_refused hrefused
      obtain ⟨err, herr, hcall⟩ := hcall
      exact ⟨err, opt, fun fuel _ => hcall fuel, fun h => absurd h herr, fun _ => rfl⟩

end

/-- 192.168.1.1 with the gateway 192.168.1.2 in a subnet of two hosts: the pool starts at 192.168.1.3, the broadcast
address. -/
theorem not_setsRange_two_hosts :
    ¬ SetsRange ⟨true, true⟩ true (some ⟨some 0x0101A8C0#32, some 0xFCFFFFFF#32, some 0x0201A8C0#32⟩)
      ⟨0, 0, 0, 0, 0, 0, 0⟩ := by
  rintro ⟨err, opt', hcall, husable, -⟩
  have heq := hcall 3 (Nat.le_refl 3)
  have hrun : setNetifIpInfo 3 ⟨true, true⟩ true
      (some ⟨some 0x0101A8C0#32, some 0xFCFFFFFF#32, some 0x0201A8C0#32⟩) ⟨0, 0, 0, 0, 0, 0, 0⟩ =
      some (.success, optionFor 0x0101A8C0#32 0xFCFFFFFF#32 0x0201A8C0#32) := by decide +kernel
  obtain ⟨rfl, rfl⟩ := Prod.mk.inj (Option.some.inj (hrun.symm.trans heq))
  exact (husable rfl).notBroadcast (by decide +kernel)

end WmIot.Nm.SoftAp
