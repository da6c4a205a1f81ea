import WmIot.Dhcp.Server

/-!
# What a message does to the client table

The lookup frees at most the sender's entry and names an entry that was idle or the sender's; the
state machine then changes the named entry, and forgets the sender in idle ones.
-/

namespace WmIot.Dhcp
set_option autoImplicit false

section Scan
variable {t : Table} {p : Client → Bool} {i : Fin clientNum}

theorem firstClient_some (h : firstClient t p = some i) : p (t i) = true :=
  List.find?_some (p := fun i => p (t i)) h

theorem firstClient_none (h : firstClient t p = none) (i : Fin clientNum) : p (t i) = false := by
  have hall := List.find?_eq_none.mp h i (List.mem_finRange i)
  simpa using hall

theorem lastClient_some (h : lastClient t p = some i) : p (t i) = true :=
  List.find?_some (p := fun i => p (t i)) h

theorem lastClient_none (h : lastClient t p = none) (i : Fin clientNum) : p (t i) = false := by
  have hall := List.find?_eq_none.mp h i (List.mem_reverse.mpr (List.mem_finRange i))
  simpa using hall

variable {macAddr : Mac} {reqIpAddr : Addr}

theorem myClient_some (h : (scan t macAddr reqIpAddr).myClient = some i) :
    (t i).state ≠ .idle ∧ (t i).macAddr = macAddr := by
  unfold scan at h
  dsimp only at h
  have hi := lastClient_some h
  simpa using hi

theorem myClient_none (h : (scan t macAddr reqIpAddr).myClient = none) (i : Fin clientNum) :
    (t i).state = .idle ∨ (t i).macAddr ≠ macAddr := by
  unfold scan at h
  dsimp only at h
  have hi := lastClient_none h i
  simp only [ne_eq, decide_eq_false_iff_not, not_and] at hi
  by_cases hstate : (t i).state = .idle
  · exact Or.inl hstate
  · exact Or.inr (hi hstate)

theorem firstIdle {p : Client → Prop} [DecidablePred p]
    (h : firstClient t (fun c => c.state = .idle ∧ p c) = some i) : (t i).state = .idle ∧ p (t i) := by
  have hi := firstClient_some h
  simpa using hi

theorem reqClient_idle (h : (scan t macAddr reqIpAddr).reqClient = some i) :
    (t i).state = .idle := (firstIdle (p := fun c => c.ipAddr = reqIpAddr) h).1

/-- What the scan offers to a new client is idle. -/
theorem candidate_idle (h : ((scan t macAddr reqIpAddr).reqClient.or
    ((scan t macAddr reqIpAddr).myHistoryClient.or ((scan t macAddr reqIpAddr).freeClient.or
      (scan t macAddr reqIpAddr).historyClient))) = some i) : (t i).state = .idle := by
  rcases Option.or_eq_some_iff.mp h with h | ⟨-, h⟩
  · exact reqClient_idle h
  · rcases Option.or_eq_some_iff.mp h with h | ⟨-, h⟩
    · exact (firstIdle (p := fun c => c.macAddr = macAddr) h).1
    · rcases Option.or_eq_some_iff.mp h with h | ⟨-, h⟩
      · exact (firstIdle (p := fun c => c.macAddr = zeroMac) h).1
      · exact (firstIdle (p := fun c => c.macAddr ≠ zeroMac) h).1

end Scan

section SetClient
variable {t : Table} {i k : Fin clientNum} {c : Client}

theorem setClient_self : setClient t i c i = c := Function.update_self ..

theorem setClient_of_ne (h : k ≠ i) : setClient t i c k = t k := Function.update_of_ne h ..

theorem giveUp_state (c : Client) : c.giveUp.state = .idle := rfl

theorem giveUp_ipAddr (c : Client) : c.giveUp.ipAddr = c.ipAddr := by
  unfold Client.giveUp Client.toIdle Client.clearMac
  split <;> rfl

end SetClient

/-- The entry `k` is as before, or it was the sender's and is given up. -/
def FreedOr (t t' : Table) (macAddr : Mac) (k : Fin clientNum) : Prop :=
  t' k = t k ∨ ((t k).state ≠ .idle ∧ (t k).macAddr = macAddr ∧ (t' k).state = .idle)

/-- What the branches of the lookup for a message type have in common. -/
structure Found (t t' : Table) (macAddr : Mac) (my ret : Option (Fin clientNum)) : Prop where
  ipAddr : ∀ k, (t' k).ipAddr = (t k).ipAddr
  others : ∀ k, FreedOr t t' macAddr k
  returned : ∀ j, ret = some j → (t j).state = .idle ∨ my = some j
  left : ∀ j i, ret = some j → my = some i → i ≠ j → (t' i).state = .idle

section Branches
variable {t : Table} {macAddr : Mac} {reqIpAddr : Addr}

theorem Found.unchanged {my ret : Option (Fin clientNum)}
    (hret : ∀ j, ret = some j → (t j).state = .idle ∨ my = some j)
    (hleft : ∀ j i, ret = some j → my = some i → i = j) : Found t t macAddr my ret :=
  ⟨fun _ => rfl, fun _ => Or.inl rfl, hret, fun j i hj hi hne => absurd (hleft j i hj hi) hne⟩

/-- The sender's entry becomes idle. -/
theorem Found.freed {my : Fin clientNum} {c : Client} {ret : Option (Fin clientNum)}
    (hmy : (t my).state ≠ .idle ∧ (t my).macAddr = macAddr) (hstate : c.state = .idle)
    (hip : c.ipAddr = (t my).ipAddr)
    (hret : ∀ j, ret = some j → (t j).state = .idle ∨ some my = some j) :
    Found t (setClient t my c) macAddr (some my) ret := by
  refine ⟨fun k => ?_, fun k => ?_, hret, fun j i _ hi _ => ?_⟩
  · by_cases hk : k = my
    · rw [hk, setClient_self]
      exact hip
    · rw [setClient_of_ne hk]
  · by_cases hk : k = my
    · refine Or.inr ?_
      rw [hk, setClient_self]
      exact ⟨hmy.1, hmy.2, hstate⟩
    · exact Or.inl (setClient_of_ne hk)
  · cases hi
    rw [setClient_self]
    exact hstate

theorem lookupDiscover_found :
    Found t (lookupDiscover t (scan t macAddr reqIpAddr)).1 macAddr
      (scan t macAddr reqIpAddr).myClient (lookupDiscover t (scan t macAddr reqIpAddr)).2 := by
  unfold lookupDiscover
  cases hmy : (scan t macAddr reqIpAddr).myClient with
  | none =>
    dsimp only
    exact Found.unchanged (fun j hj => Or.inl (candidate_idle hj)) fun j i _ hi => by cases hi
  | some my =>
    dsimp only
    have hmine := myClient_some hmy
    cases hreq : (scan t macAddr reqIpAddr).reqClient with
    | none =>
      dsimp only
      exact Found.freed hmine rfl rfl fun j hj => Or.inr hj
    | some req =>
      dsimp only
      rw [show setClient (setClient t my (t my).toIdle) my
        (setClient t my (t my).toIdle my).giveUp = setClient t my (t my).toIdle.giveUp by
          rw [setClient_self]
          exact Function.update_idem ..]
      refine Found.freed hmine rfl (giveUp_ipAddr _) fun j hj => Or.inl ?_
      cases hj
      exact reqClient_idle hreq

theorem lookupRequest_found (serverIpAddr serverId : Addr) :
    Found t (lookupRequest t (scan t macAddr reqIpAddr) serverIpAddr serverId).1 macAddr
      (scan t macAddr reqIpAddr).myClient
      (lookupRequest t (scan t macAddr reqIpAddr) serverIpAddr serverId).2 := by
  unfold lookupRequest
  cases hmy : (scan t macAddr reqIpAddr).myClient with
  | none =>
    refine Found.unchanged (fun j hj => Or.inl ?_) fun j i _ hi => by cases hi
    dsimp only at hj
    by_cases hbusy : (scan t macAddr reqIpAddr).ipUnavailable = true
    · rw [if_pos hbusy] at hj
      cases hj
    · rw [if_neg hbusy] at hj
      by_cases hme : forMe serverIpAddr serverId
      · rw [if_pos hme] at hj
        exact reqClient_idle hj
      · rw [if_neg hme] at hj
        cases hj
  | some my =>
    have hmine := myClient_some hmy
    dsimp only
    by_cases hbusy : (scan t macAddr reqIpAddr).ipUnavailable = true
    · rw [if_pos hbusy]
      exact Found.freed hmine rfl (giveUp_ipAddr _) fun j hj => by cases hj
    · rw [if_neg hbusy]
      cases hreq : (scan t macAddr reqIpAddr).reqClient with
      | none =>
        dsimp only
        by_cases hme : forMe serverIpAddr serverId
        · rw [if_pos hme]
          refine Found.unchanged (fun j hj => Or.inr hj) fun j i hj hi => ?_
          cases hj
          cases hi
          rfl
        · rw [if_neg hme]
          exact Found.unchanged (fun j hj => by cases hj) fun j i hj _ => by cases hj
      | some req =>
        dsimp only
        refine Found.freed hmine rfl (giveUp_ipAddr _) fun j hj => Or.inl ?_
        by_cases hme : forMe serverIpAddr serverId
        · rw [if_pos hme] at hj
          cases hj
          exact reqClient_idle hreq
        · rw [if_neg hme] at hj
          cases hj

/-- The entry that a REQUEST names: one that holds the requested address, else the sender's. -/
theorem lookupRequest_ret (f : Scan) (serverIpAddr serverId : Addr) :
    (lookupRequest t f serverIpAddr serverId).2 =
      if f.ipUnavailable = true ∨ ¬ forMe serverIpAddr serverId then none
      else f.reqClient.or f.myClient := by
  unfold lookupRequest
  by_cases hme : forMe serverIpAddr serverId
  · cases f.myClient with
    | none => cases f.ipUnavailable <;> simp [hme]
    | some my => cases f.reqClient <;> cases f.ipUnavailable <;> simp [hme]
  · cases f.myClient with
    | none => cases f.ipUnavailable <;> simp [hme]
    | some my => cases f.reqClient <;> cases f.ipUnavailable <;> simp [hme]

theorem lookupRelease_found :
    Found t (lookupRelease t (scan t macAddr reqIpAddr)).1 macAddr
      (scan t macAddr reqIpAddr).myClient (lookupRelease t (scan t macAddr reqIpAddr)).2 := by
  unfold lookupRelease
  cases hmy : (scan t macAddr reqIpAddr).myClient with
  | none => exact Found.unchanged (fun j hj => by cases hj) fun j i hj _ => by cases hj
  | some my => exact Found.freed (myClient_some hmy) rfl (giveUp_ipAddr _) fun j hj => by cases hj

end Branches

/-- What a lookup does: the entry it names belongs to the sender now, and the sender has no other. -/
structure Looked (t t' : Table) (macAddr : Mac) (my ret : Option (Fin clientNum)) : Prop where
  ipAddr : ∀ k, (t' k).ipAddr = (t k).ipAddr
  others : ∀ k, ret ≠ some k → FreedOr t t' macAddr k
  mine : ∀ j, ret = some j → (t' j).macAddr = macAddr
  returned : ∀ j, ret = some j → (t j).state = .idle ∨ my = some j
  left : ∀ j i, ret = some j → my = some i → i ≠ j → (t' i).state = .idle

theorem Found.looked {t t' : Table} {macAddr : Mac} {my : Option (Fin clientNum)}
    {ret : Option (Fin clientNum)} (h : Found t t' macAddr my ret) :
    Looked t (match ret with
      | some j => (setClient t' j { t' j with macAddr := macAddr }, some j)
      | none => (t', none)).1 macAddr my (match ret with
      | some j => (setClient t' j { t' j with macAddr := macAddr }, some j)
      | none => (t', none)).2 := by
  cases ret with
  | none =>
    exact ⟨h.ipAddr, fun k _ => h.others k, (fun j hj => nomatch hj), (fun j hj => nomatch hj),
      (fun j i hj => nomatch hj)⟩
  | some j =>
    dsimp only
    refine ⟨fun k => ?_, fun k hk => ?_, fun j' hj => ?_, h.returned, fun j' i hj hi hne => ?_⟩
    · by_cases hkj : k = j
      · rw [hkj, setClient_self]
        exact h.ipAddr j
      · rw [setClient_of_ne hkj]
        exact h.ipAddr k
    · have hkj : k ≠ j := fun heq => hk (by rw [heq])
      rw [FreedOr, setClient_of_ne hkj]
      exact h.others k
    · cases hj
      rw [setClient_self]
    · cases hj
      rw [setClient_of_ne hne]
      exact h.left j i rfl hi hne

theorem clientTableLookup_looked (s : Server) (macAddr : Mac) (msgType : UInt8)
    (reqIpAddr serverId : Addr) :
    Looked s.clients (clientTableLookup s macAddr msgType reqIpAddr serverId).1 macAddr
      (scan s.clients macAddr reqIpAddr).myClient
      (clientTableLookup s macAddr msgType reqIpAddr serverId).2 := by
  unfold clientTableLookup
  dsimp only
  by_cases hdiscover : msgType = msgDiscover
  · rw [if_pos hdiscover]
    exact lookupDiscover_found.looked
  · rw [if_neg hdiscover]
    by_cases hrequest : msgType = msgRequest
    · rw [if_pos hrequest]
      exact (lookupRequest_found s.serverIpAddr serverId).looked
    · rw [if_neg hrequest]
      by_cases hrelease : msgType = msgRelease
      · rw [if_pos hrelease]
        exact lookupRelease_found.looked
      · rw [if_neg hrelease]
        by_cases hdecline : msgType = msgDecline
        · rw [if_pos hdecline]
          exact lookupRelease_found.looked
        · rw [if_neg hdecline]
          have hfound : Found s.clients s.clients macAddr (scan s.clients macAddr reqIpAddr).myClient
              none := Found.unchanged (fun j hj => nomatch hj) fun j i hj _ => nomatch hj
          exact hfound.looked

section Handle
variable {t : Table} {j k : Fin clientNum}

/-- The entry `k` is as before, or it was idle and has lost its history. -/
def ForgottenOr (t t' : Table) (k : Fin clientNum) : Prop :=
  t' k = t k ∨ ((t k).state = .idle ∧ t' k = (t k).clearMac)

theorem bindClient_self (t : Table) (j : Fin clientNum) :
    bindClient t j j = { t j with lease := defaultLeaseTime, state := .bind } := by
  unfold bindClient cleanClientHistory
  rw [setClient_self, if_neg]
  simp

theorem bindClient_other (h : k ≠ j) : ForgottenOr t (bindClient t j) k := by
  have hself : setClient t j { t j with lease := defaultLeaseTime, state := .bind } k = t k :=
    setClient_of_ne h
  unfold bindClient cleanClientHistory ForgottenOr
  simp only [hself]
  by_cases hidle : (t k).state = .idle ∧ (t k).macAddr = (t j).macAddr
  · rw [if_pos hidle]
    exact Or.inr ⟨hidle.1, rfl⟩
  · rw [if_neg hidle]
    exact Or.inl rfl

theorem offerClient_self (t : Table) (j : Fin clientNum) :
    offerClient t j j = { t j with timeout := defaultTimeout, state := .request } := setClient_self

theorem offerClient_other (h : k ≠ j) : ForgottenOr t (offerClient t j) k :=
  Or.inl (setClient_of_ne h)

/-- The state machine answers with an offer or binds the entry and acknowledges. -/
theorem clientSMEHandle_cases (s : Server) (t : Table) (j : Fin clientNum) (msgType : UInt8)
    (xid : BitVec 32) (flags : BitVec 16) :
    clientSMEHandle s t j msgType xid flags = (offerClient t j, offerGen s (t j) xid flags) ∨
    clientSMEHandle s t j msgType xid flags = (bindClient t j, ackGen s (t j) xid flags) := by
  unfold clientSMEHandle
  cases (t j).state with
  | idle =>
    dsimp only
    by_cases hrequest : msgType ≠ msgDiscover ∧ msgType = msgRequest
    · rw [if_pos hrequest]
      exact Or.inr rfl
    · rw [if_neg hrequest]
      exact Or.inl rfl
  | select => exact Or.inl rfl
  | request => exact Or.inr rfl
  | bind => exact Or.inr rfl

/-- What the state machine does to the table. -/
structure Handled (t t' : Table) (j : Fin clientNum) : Prop where
  self : ∃ timeout lease state, t' j = { t j with timeout := timeout, lease := lease, state := state }
  others : ∀ k, k ≠ j → ForgottenOr t t' k

theorem offerClient_handled (t : Table) (j : Fin clientNum) : Handled t (offerClient t j) j :=
  ⟨⟨_, _, _, offerClient_self t j⟩, fun _ => offerClient_other⟩

theorem bindClient_handled (t : Table) (j : Fin clientNum) : Handled t (bindClient t j) j :=
  ⟨⟨_, _, _, bindClient_self t j⟩, fun _ => bindClient_other⟩

end Handle

/-- A message changes nothing; or the lookup refuses it; or an entry is offered or bound. -/
theorem recvCb_cases {s s' : Server} {hwaddr : Option Mac} {pbuf : Bool} {m : Msg}
    {r : Option Reply} (h : recvCb s hwaddr pbuf m = (s', r)) :
    (s' = s ∧ r = none) ∨
    ∃ msgType, m.msgType = some msgType ∧ ∃ t ret,
      clientTableLookup s m.chaddr msgType m.reqIpAddr m.serverId = (t, ret) ∧
      ((ret = none ∧ s' = { s with clients := t } ∧
          (r = none ∨ r = some (nakGen s m.chaddr m.xid))) ∨
        ∃ j, ret = some j ∧
          ((s' = { s with clients := offerClient t j } ∧
              (r = none ∨ r = some (offerGen s (t j) m.xid m.flags))) ∨
            (s' = { s with clients := bindClient t j } ∧
              (r = none ∨ r = some (ackGen s (t j) m.xid m.flags))))) := by
  unfold recvCb at h
  by_cases hpass : passes hwaddr m = true
  · rw [if_pos hpass] at h
    cases hmsg : m.msgType with
    | none =>
      rw [hmsg] at h
      cases h
      exact Or.inl ⟨rfl, rfl⟩
    | some msgType =>
      rw [hmsg] at h
      dsimp only at h
      by_cases hinform : msgType = msgInform
      · rw [if_pos hinform] at h
        cases h
        exact Or.inl ⟨rfl, rfl⟩
      · rw [if_neg hinform] at h
        refine Or.inr ⟨msgType, rfl, ?_⟩
        rcases hlook : clientTableLookup s m.chaddr msgType m.reqIpAddr m.serverId with ⟨t, ret⟩
        rw [hlook] at h
        refine ⟨t, ret, rfl, ?_⟩
        cases ret with
        | none =>
          dsimp only at h
          cases h
          refine Or.inl ⟨rfl, rfl, ?_⟩
          split
          · exact Or.inr rfl
          · exact Or.inl rfl
        | some j =>
          dsimp only at h
          refine Or.inr ⟨j, rfl, ?_⟩
          rcases clientSMEHandle_cases s t j msgType m.xid m.flags with hoffer | hack
          · rw [hoffer] at h
            cases h
            refine Or.inl ⟨rfl, ?_⟩
            cases pbuf
            · exact Or.inl rfl
            · exact Or.inr rfl
          · rw [hack] at h
            cases h
            refine Or.inr ⟨rfl, ?_⟩
            cases pbuf
            · exact Or.inl rfl
            · exact Or.inr rfl
  · rw [if_neg hpass] at h
    cases h
    exact Or.inl ⟨rfl, rfl⟩

end WmIot.Dhcp
