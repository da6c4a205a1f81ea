import WmIot.Dhcp.Safety

/-!
# The time of a lease

An address acknowledged stays with its client, and is granted to no other, until as many ticks have passed as the
acknowledgement names, whatever the other clients send. The last of these ticks ends the lease.
-/

namespace WmIot.Dhcp
open Transition
set_option autoImplicit false

def Event.seconds : Event → Nat
  | .recv _ _ _ => 0
  | .tick => 1

/-- The ticks of a run. -/
def seconds (es : List Event) : Nat := (es.map Event.seconds).sum

/-- The event is not a message of the client. -/
def Event.NotFrom (macAddr : Mac) : Event → Prop
  | .recv _ _ m => m.chaddr ≠ macAddr
  | .tick => True

/-- The entry is bound to the client for so many ticks. -/
structure Leased (s : Server) (k : Fin clientNum) (ipAddr : Addr) (macAddr : Mac) (left : Nat) : Prop where
  enable : s.enable = true
  state : (s.clients k).state = .bind
  ipAddr : (s.clients k).ipAddr = ipAddr
  macAddr : (s.clients k).macAddr = macAddr
  lease : (s.clients k).lease = left

section Steps
variable {s s' : Server} {hwaddr : Option Mac} {pbuf : Bool} {m : Msg} {k : Fin clientNum} {ipAddr : Addr}
  {macAddr : Mac} {left : Nat}

theorem recvCb_enable {r : Option Reply} (h : recvCb s hwaddr pbuf m = (s', r)) : s'.enable = s.enable := by
  rcases recvCb_cases h with ⟨rfl, -⟩ | ⟨_, -, t, ret, -, hcase⟩
  · rfl
  · rcases hcase with ⟨-, rfl, -⟩ | ⟨j, -, ⟨rfl, -⟩ | ⟨rfl, -⟩⟩ <;> rfl

theorem tickHandle_enable (s : Server) : (tickHandle s).enable = s.enable := by
  unfold tickHandle
  split <;> rfl

/-- An acknowledgement binds the entry of its address, for the time that it names. -/
theorem leased_of_ack {r : Reply} (henable : s.enable = true) (h : recvCb s hwaddr pbuf m = (s', some r))
    (hack : r.msgType = msgAck) :
    ∃ k g, Leased s' k r.yiaddr m.chaddr g.leaseTime ∧ r.grant = some g ∧ g.leaseTime = defaultLeaseTime := by
  rcases recvCb_cases h with ⟨-, hnone⟩ | ⟨msgType, -, t, ret, hlook, hcase⟩
  · cases hnone
  · have hlooked := clientTableLookup_looked s m.chaddr msgType m.reqIpAddr m.serverId
    rw [hlook] at hlooked
    rcases hcase with ⟨-, -, hnak⟩ | ⟨j, hret, ⟨-, hoffer⟩ | ⟨rfl, hreply⟩⟩
    · rcases hnak with hnak | hnak
      · cases hnak
      · cases hnak
        exact absurd hack (show msgNak ≠ msgAck by decide)
    · rcases hoffer with hoffer | hoffer
      · cases hoffer
      · cases hoffer
        exact absurd hack (show msgOffer ≠ msgAck by decide)
    · rcases hreply with hreply | hreply
      · cases hreply
      · cases hreply
        have hself := bindClient_self t j
        refine ⟨j, _, ⟨henable, ?_, ?_, ?_, ?_⟩, rfl, rfl⟩
        · exact (congrArg Client.state hself).trans rfl
        · exact (congrArg Client.ipAddr hself).trans rfl
        · exact (congrArg Client.macAddr hself).trans (hlooked.mine j hret)
        · exact (congrArg Client.lease hself).trans rfl

/-- A message of another client, and a tick that is not the last one. -/
theorem Leased.step {e : Event} (h : Leased s k ipAddr macAddr left) (hother : e.NotFrom macAddr)
    (hleft : e.seconds < left) (hs : step s e = some s') : Leased s' k ipAddr macAddr (left - e.seconds) := by
  cases e with
  | recv hwaddr pbuf m =>
    cases hs
    have hkept : (recvCb s hwaddr pbuf m).1.clients k = s.clients k :=
      recvCb_frame rfl (by rw [h.state]; decide) (by rw [h.macAddr]; exact Ne.symm hother)
    refine ⟨(recvCb_enable rfl).trans h.enable, ?_, ?_, ?_, ?_⟩
    · rw [hkept, h.state]
    · rw [hkept, h.ipAddr]
    · rw [hkept, h.macAddr]
    · rw [hkept, h.lease]
      rfl
  | tick =>
    cases hs
    have hlease := h.lease
    have hmore : 1 < left := hleft
    have htick : (tickHandle s).clients k = { s.clients k with lease := left - 1 } := by
      unfold tickHandle Client.tick
      rw [if_pos h.enable]
      dsimp only
      rw [h.state]
      dsimp only
      rw [if_neg (by omega), if_neg (by omega), hlease]
    refine ⟨(tickHandle_enable s).trans h.enable, ?_, ?_, ?_, ?_⟩
    · rw [htick, h.state]
    · rw [htick, h.ipAddr]
    · rw [htick, h.macAddr]
    · rw [htick]
      rfl

/-- The last tick. -/
theorem Leased.expires (h : Leased s k ipAddr macAddr 1) : ((tickHandle s).clients k).state = .idle := by
  have hlease := h.lease
  unfold tickHandle Client.tick
  rw [if_pos h.enable]
  dsimp only
  rw [h.state]
  dsimp only
  rw [if_neg (by omega), if_pos (by omega)]
  rfl

theorem Leased.run {es : List Event} : ∀ {s : Server} {left : Nat}, Leased s k ipAddr macAddr left →
    (∀ e ∈ es, e.NotFrom macAddr) → seconds es < left → exec Dhcp.step s es = some s' →
    Leased s' k ipAddr macAddr (left - seconds es) := by
  induction es with
  | nil =>
    intro s left h _ _ hrun
    cases hrun
    exact h
  | cons e es ih =>
    intro s left h hother hleft hrun
    have hsum : seconds (e :: es) = e.seconds + seconds es := rfl
    rw [hsum] at hleft ⊢
    obtain ⟨t, ht, hrun⟩ := Option.bind_eq_some_iff.mp hrun
    have hstep := h.step (hother e List.mem_cons_self) (by omega) ht
    rw [Nat.sub_add_eq]
    exact ih hstep (fun e' he' => hother e' (List.mem_cons_of_mem e he')) (by omega) hrun

/-- Nobody else is granted an address that is bound. -/
theorem Leased.exclusive (h : Leased s k ipAddr macAddr left) (hpool : DistinctPool s.clients) (hzero : ipAddr ≠ 0)
    {r : Reply} (hrecv : recvCb s hwaddr pbuf m = (s', some r)) (hgrant : r.msgType = msgOffer ∨ r.msgType = msgAck)
    (hip : r.yiaddr = ipAddr) : m.chaddr = macAddr := by
  obtain ⟨j, hyiaddr, -, hown⟩ := recvCb_granted hrecv hgrant
  have hsame : (s.clients k).ipAddr = (s.clients j).ipAddr := by rw [h.ipAddr, ← hyiaddr, hip]
  obtain rfl : k = j := hpool k j hsame (by rw [h.ipAddr]; exact hzero)
  rcases hown with hidle | hmac
  · rw [h.state] at hidle
    cases hidle
  · rw [← hmac, h.macAddr]

end Steps

section Runs
variable {fuel : Nat} {netif : Netif} {opt : Options} {mem pcb : Bool} {s₀ s s' s'' : Server}

theorem dhcpsStart_enable (h : dhcpsStart fuel netif opt mem pcb = some (.ok s)) : s.enable = true := by
  unfold dhcpsStart at h
  split at h
  · cases h
  · split at h
    · cases h
    · split at h
      · cases h
      · obtain ⟨l, -, hl⟩ := Option.map_eq_some_iff.mp h
        split at hl
        · cases hl
        · cases hl
          rfl

/-- The address of an acknowledgement is the client's alone while fewer ticks pass than its lease time, and free
again with the last one. -/
theorem acked_address_held (hstart : dhcpsStart fuel netif opt mem pcb = some (.ok s₀))
    (hpool : DistinctPool s₀.clients) (hreach : Reached (fun s => s = s₀) step anyStep s) {hwaddr : Option Mac}
    {pbuf : Bool} {m : Msg} {r : Reply} (hrecv : recvCb s hwaddr pbuf m = (s', some r)) (hack : r.msgType = msgAck)
    (hzero : r.yiaddr ≠ 0) {es : List Event} (hother : ∀ e ∈ es, e.NotFrom m.chaddr)
    (hrun : exec step s' es = some s'') :
    ∃ g, r.grant = some g ∧ (seconds es < g.leaseTime → ∃ k,
      Leased s'' k r.yiaddr m.chaddr (g.leaseTime - seconds es) ∧
      (∀ hwaddr' pbuf' m' t r', recvCb s'' hwaddr' pbuf' m' = (t, some r') →
        r'.msgType = msgOffer ∨ r'.msgType = msgAck → r'.yiaddr = r.yiaddr → m'.chaddr = m.chaddr) ∧
      (seconds es + 1 = g.leaseTime → ((tickHandle s'').clients k).state = .idle)) := by
  have hkeep : ∀ s e t, (TableInv s ∧ s.enable = true) → step s e = some t → TableInv t ∧ t.enable = true := by
    intro s e t hinv hs
    refine ⟨hinv.1.step hs, ?_⟩
    cases e with
    | recv hwaddr pbuf m =>
      cases hs
      exact (recvCb_enable rfl).trans hinv.2
    | tick =>
      cases hs
      exact (tickHandle_enable s).trans hinv.2
  have hinv : TableInv s ∧ s.enable = true := by
    refine hreach.invariant (fun s hs => ?_) fun s e t hinv _ hs => hkeep s e t hinv hs
    subst hs
    exact ⟨⟨dhcpsStart_oneEach hstart, hpool⟩, dhcpsStart_enable hstart⟩
  have hnext : step s (.recv hwaddr pbuf m) = some s' := by
    rw [step, hrecv]
  have hreach' : Reached (fun t => t = s') step anyStep s'' :=
    .of_exec (.start rfl) (along_anyStep _ _) hrun
  have hinv'' : TableInv s'' ∧ s''.enable = true := by
    refine hreach'.invariant (fun t ht => ?_) fun s e t hinv _ hs => hkeep s e t hinv hs
    subst ht
    exact hkeep s _ _ hinv hnext
  obtain ⟨k, g, hleased, hgrant, -⟩ := leased_of_ack hinv.2 hrecv hack
  refine ⟨g, hgrant, fun htime => ⟨k, ?_, ?_, fun hlast => ?_⟩⟩
  · exact hleased.run hother htime hrun
  · intro hwaddr' pbuf' m' t r' hrecv' hgranted hip
    exact (hleased.run hother htime hrun).exclusive hinv''.1.distinct hzero hrecv' hgranted hip
  · have hone := hleased.run hother htime hrun
    rw [show g.leaseTime - seconds es = 1 by omega] at hone
    exact hone.expires

end Runs

section Example

/-- Client 2 asks for the address of client 1 while that is away. -/
def otherClient : List Event := [.tick, message msgDiscover (mac 2) 0xC0A80102 0, .tick]

theorem acked_address_held_otherClient :
    ∃ s₀ s s' s'' r, dhcpsStart 9 netif24 noOptions true true = some (.ok s₀) ∧
      exec step s₀ [message msgDiscover (mac 1) 0 0] = some s ∧
      recvCb s (some (mac 0)) true
        { len := 300, op := opRequest, hType := hwTypeEthernet, magic := magicNumber, chaddr := mac 1, xid := 1,
          flags := 0, msgType := some msgRequest, reqIpAddr := 0xC0A80102, serverId := 0xC0A80101 } = (s', some r) ∧
      r.yiaddr = 0xC0A80102 ∧ exec step s' otherClient = some s'' ∧
      ∃ g, r.grant = some g ∧ (seconds otherClient < g.leaseTime → ∃ k,
        Leased s'' k r.yiaddr (mac 1) (g.leaseTime - seconds otherClient) ∧
        (∀ hwaddr' pbuf' m' t r', recvCb s'' hwaddr' pbuf' m' = (t, some r') →
          r'.msgType = msgOffer ∨ r'.msgType = msgAck → r'.yiaddr = r.yiaddr → m'.chaddr = mac 1) ∧
        (seconds otherClient + 1 = g.leaseTime → ((tickHandle s'').clients k).state = .idle)) := by
  have hstarted : (started (dhcpsStart 9 netif24 noOptions true true)).isSome := by decide +kernel
  obtain ⟨s₀, hs₀⟩ := Option.isSome_iff_exists.mp hstarted
  have hdistinct : (started (dhcpsStart 9 netif24 noOptions true true)).map
      (fun s => decide (∀ i j, (s.clients i).ipAddr = (s.clients j).ipAddr → i = j)) = some true := by decide +kernel
  have hreply : ((started (dhcpsStart 9 netif24 noOptions true true)).bind
      (exec step · [message msgDiscover (mac 1) 0 0])).map (fun s => (recvCb s (some (mac 0)) true
        { len := 300, op := opRequest, hType := hwTypeEthernet, magic := magicNumber, chaddr := mac 1, xid := 1,
          flags := 0, msgType := some msgRequest, reqIpAddr := 0xC0A80102, serverId := 0xC0A80101 }).2.map
        fun r => (r.msgType, r.yiaddr)) = some (some (msgAck, 0xC0A80102)) := by decide +kernel
  rw [hs₀] at hdistinct hreply
  rw [Option.map_some, Option.some.injEq, decide_eq_true_iff] at hdistinct
  obtain ⟨s, hs, hreply⟩ := Option.map_eq_some_iff.mp hreply
  rw [Option.bind_some] at hs
  obtain ⟨r, hr, hfields⟩ := Option.map_eq_some_iff.mp hreply
  rw [Prod.mk.injEq] at hfields
  have hrecv : recvCb s (some (mac 0)) true
      { len := 300, op := opRequest, hType := hwTypeEthernet, magic := magicNumber, chaddr := mac 1, xid := 1,
        flags := 0, msgType := some msgRequest, reqIpAddr := 0xC0A80102, serverId := 0xC0A80101 } =
      ((recvCb s (some (mac 0)) true
        { len := 300, op := opRequest, hType := hwTypeEthernet, magic := magicNumber, chaddr := mac 1, xid := 1,
          flags := 0, msgType := some msgRequest, reqIpAddr := 0xC0A80102, serverId := 0xC0A80101 }).1, some r) :=
    Prod.ext rfl hr
  refine ⟨s₀, s, _, _, r, started_eq hs₀, hs, hrecv, hfields.2, rfl, ?_⟩
  refine acked_address_held (started_eq hs₀) (fun i j heq _ => hdistinct i j heq)
    (Reached.of_exec (.start rfl) (along_anyStep _ _) hs) hrecv hfields.1 (by rw [hfields.2]; decide) ?_ rfl
  intro e he
  simp only [otherClient, List.mem_cons, List.not_mem_nil, or_false] at he
  rcases he with rfl | rfl | rfl
  · trivial
  · exact fun habs => absurd habs (by decide)
  · trivial

end Example

end WmIot.Dhcp
