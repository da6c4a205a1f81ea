import WmIot.Lib.CString

/-!
# The header list of a request

`wm_http2_client_add_header`, `wm_http2_client_delete_header` and what `wm_http2_submit_request` hands to
nghttp2, of `wm_http2_client.c`. The table has holes after a deletion, and the first `http_header_num` slots
are handed over.
-/

namespace WmIot.Http2
open CString
set_option autoImplicit false

/-- `WM_HTTP2_HEADER_MAX_NUM` -/
def headerMaxNum : Nat := 20

/-- `nghttp2_nv`; the strings are their characters, `none` is NULL. -/
structure Nv where
  name : Option (List Byte) := none
  value : Option (List Byte) := none
  namelen : Nat := 0
  valuelen : Nat := 0
  flags : Nat := 0
  deriving DecidableEq, Repr

/-- What is stored for a name and a value. -/
def entry (name value : List Byte) : Nv := ⟨some name, some value, name.length, value.length, 0⟩

/-- The loop that stores `nv` in the first slot without a name. -/
def fillFirst (nv : Nv) : List Nv → Option (List Nv)
  | [] => none
  | slot :: rest => if slot.name.isNone then some (nv :: rest) else (fillFirst nv rest).map (slot :: ·)

/-- The loop that clears the first slot with this name. -/
def clearFirst (name : List Byte) : List Nv → Option (List Nv)
  | [] => none
  | slot :: rest => if slot.name = some name then some ({} :: rest) else (clearFirst name rest).map (slot :: ·)

theorem fillFirst_length {nv : Nv} {slots slots' : List Nv} (h : fillFirst nv slots = some slots') :
    slots'.length = slots.length := by
  induction slots generalizing slots' with
  | nil => cases h
  | cons slot rest ih =>
    rw [fillFirst] at h
    split at h
    · cases h
      rfl
    · obtain ⟨rest', hrest, rfl⟩ := Option.map_eq_some_iff.mp h
      exact congrArg Nat.succ (ih hrest)

theorem clearFirst_length {name : List Byte} {slots slots' : List Nv} (h : clearFirst name slots = some slots') :
    slots'.length = slots.length := by
  induction slots generalizing slots' with
  | nil => cases h
  | cons slot rest ih =>
    rw [clearFirst] at h
    split at h
    · cases h
      rfl
    · obtain ⟨rest', hrest, rfl⟩ := Option.map_eq_some_iff.mp h
      exact congrArg Nat.succ (ih hrest)

/-- The headers of a `wm_http2_client_req_t`: `http_header` and the 16 bits of `http_header_num` -/
structure Headers where
  httpHeader : List Nv
  httpHeaderNum : BitVec 16
  size : httpHeader.length = headerMaxNum

namespace Headers

/-- The request is cleared when it is made. -/
def empty : Headers := ⟨List.replicate headerMaxNum {}, 0, List.length_replicate⟩

/-- `wm_http2_client_add_header` on a request -/
def add (req : Headers) (name value : List Byte) : Headers × Bool :=
  if req.httpHeader.any (·.name = some name) then (req, false)
  else
    match h : fillFirst (entry name value) req.httpHeader with
    | some slots => (⟨slots, req.httpHeaderNum + 1#16, (fillFirst_length h).trans req.size⟩, true)
    | none => (req, false)

/-- `wm_http2_client_delete_header` on a request -/
def delete (req : Headers) (name : List Byte) : Headers × Bool :=
  match h : clearFirst name req.httpHeader with
  | some slots => (⟨slots, req.httpHeaderNum - 1#16, (clearFirst_length h).trans req.size⟩, true)
  | none => (req, false)

/-- The entries that `wm_http2_submit_request` hands to nghttp2. -/
def submitted (req : Headers) : List Nv := req.httpHeader.take req.httpHeaderNum.toNat

end Headers

/-- The requests of a client. -/
abbrev Client := List Headers

/-- `wm_http2_client_add_header` -/
def clientAddHeader (client : Client) (idx : Nat) (name value : List Byte) : Client × Bool :=
  match client[idx]? with
  | none => (client, false)
  | some req => (client.set idx (req.add name value).1, (req.add name value).2)

/-- `wm_http2_client_delete_header` -/
def clientDeleteHeader (client : Client) (idx : Nat) (name : List Byte) : Client × Bool :=
  match client[idx]? with
  | none => (client, false)
  | some req => (client.set idx (req.delete name).1, (req.delete name).2)

inductive HeaderCall where
  | add (idx : Nat) (name value : List Byte)
  | delete (idx : Nat) (name : List Byte)

/-- A client, and the pairs of each request that were added successfully and not deleted since. -/
structure History where
  client : Client
  live : Nat → List (List Byte × List Byte)

def HeaderCall.run (s : History) : HeaderCall → History
  | .add idx name value =>
    match clientAddHeader s.client idx name value with
    | (client, true) => ⟨client, Function.update s.live idx (s.live idx ++ [(name, value)])⟩
    | (client, false) => { s with client }
  | .delete idx name =>
    match clientDeleteHeader s.client idx name with
    | (client, true) => ⟨client, Function.update s.live idx ((s.live idx).filter (·.1 ≠ name))⟩
    | (client, false) => { s with client }

/-- Some calls on a new client with `reqnum` requests. -/
def headerRun (reqnum : Nat) (calls : List HeaderCall) : History :=
  calls.foldl HeaderCall.run ⟨List.replicate reqnum .empty, fun _ => []⟩

/-- What is handed over are the live pairs, a pair is added when its name is new and there is room, and a
failing call changes nothing. -/
structure HeadersExact (req : Headers) (live : List (List Byte × List Byte)) : Prop where
  submits : req.submitted.Perm (live.map fun p => entry p.1 p.2)
  adds : ∀ name value, (req.add name value).2 = true ↔ name ∉ live.map Prod.fst ∧ live.length < headerMaxNum
  addFails : ∀ name value, (req.add name value).2 = false → (req.add name value).1 = req
  deleteFails : ∀ name, (req.delete name).2 = false → (req.delete name).1 = req

/-- No free slot is in front of one in use. -/
def Dense (req : Headers) : Prop := req.httpHeader.Pairwise fun a b => b.name.isSome → a.name.isSome

/-! ### The table -/

def Nv.inUse (nv : Nv) : Bool := nv.name.isSome

section
variable {nv slot : Nv} {slots slots' : List Nv} {name value : List Byte}

theorem fillFirst_eq_some (hnv : nv.inUse = true) (h : fillFirst nv slots = some slots') :
    (slots'.filter Nv.inUse).Perm (nv :: slots.filter Nv.inUse) := by
  induction slots generalizing slots' with
  | nil => cases h
  | cons slot rest ih =>
    rw [fillFirst] at h
    split at h
    next hfree =>
      cases h
      have hslot : slot.inUse = false := by rw [Nv.inUse, Option.isSome_eq_false_iff]; exact hfree
      rw [List.filter_cons_of_pos hnv, List.filter_cons_of_neg (by rw [hslot]; exact Bool.false_ne_true)]
    next hused =>
      obtain ⟨rest', hrest, rfl⟩ := Option.map_eq_some_iff.mp h
      have hslot : slot.inUse = true := by
        rw [Nv.inUse, ← Bool.not_eq_false, Option.isSome_eq_false_iff]
        exact hused
      rw [List.filter_cons_of_pos hslot, List.filter_cons_of_pos hslot]
      exact ((ih hrest).cons slot).trans (List.Perm.swap _ _ _)

theorem fillFirst_eq_none_iff : fillFirst nv slots = none ↔ ∀ slot ∈ slots, slot.inUse = true := by
  induction slots with
  | nil => exact iff_of_true rfl nofun
  | cons slot rest ih =>
    rw [fillFirst, List.forall_mem_cons]
    split
    next hfree =>
      refine iff_of_false nofun fun h => ?_
      rw [Nv.inUse] at h
      rw [Option.isNone_iff_eq_none.mp hfree] at h
      exact absurd h.1 Bool.false_ne_true
    next hused =>
      have hslot : slot.inUse = true := by
        rw [Nv.inUse, ← Bool.not_eq_false, Option.isSome_eq_false_iff]
        exact hused
      rw [Option.map_eq_none_iff, ih, and_iff_right hslot]

theorem clearFirst_eq_some (h : clearFirst name slots = some slots') :
    ∃ slot ∈ slots, slot.name = some name ∧
      (slots.filter Nv.inUse).Perm (slot :: slots'.filter Nv.inUse) := by
  induction slots generalizing slots' with
  | nil => cases h
  | cons slot rest ih =>
    rw [clearFirst] at h
    split at h
    next hname =>
      cases h
      refine ⟨slot, List.mem_cons_self, hname, ?_⟩
      rw [List.filter_cons_of_pos (by rw [Nv.inUse, hname]; rfl), List.filter_cons_of_neg (by decide)]
    next =>
      obtain ⟨rest', hrest, rfl⟩ := Option.map_eq_some_iff.mp h
      obtain ⟨found, hfound, hname, hperm⟩ := ih hrest
      refine ⟨found, List.mem_cons_of_mem slot hfound, hname, ?_⟩
      cases hslot : slot.inUse with
      | true =>
        rw [List.filter_cons_of_pos hslot, List.filter_cons_of_pos hslot]
        exact (hperm.cons slot).trans (List.Perm.swap _ _ _)
      | false =>
        rw [List.filter_cons_of_neg (by rw [hslot]; exact Bool.false_ne_true),
          List.filter_cons_of_neg (by rw [hslot]; exact Bool.false_ne_true)]
        exact hperm

end

/-- The first elements, as many as have the property, are those with the property exactly when no other one is in
front of them. -/
theorem take_countP_iff {α : Type} (p : α → Bool) (l : List α) :
    (∀ a ∈ l.take (l.countP p), p a = true) ↔ l.Pairwise fun a b => p b = true → p a = true := by
  induction l with
  | nil => exact iff_of_true nofun List.Pairwise.nil
  | cons a l ih =>
    rw [List.pairwise_cons]
    cases ha : p a with
    | true =>
      rw [List.countP_cons_of_pos ha, List.take_succ_cons, List.forall_mem_cons, ih]
      exact ⟨fun h => ⟨fun _ _ _ => rfl, h.2⟩, fun h => ⟨ha, h.2⟩⟩
    | false =>
      rw [List.countP_cons_of_neg (by rw [ha]; exact Bool.false_ne_true)]
      constructor
      · intro h
        have hzero : l.countP p = 0 := by
          by_contra hpos
          obtain ⟨n, hn⟩ := Nat.exists_eq_succ_of_ne_zero hpos
          rw [hn, List.take_succ_cons] at h
          exact absurd (h a List.mem_cons_self) (by rw [ha]; exact Bool.false_ne_true)
        have hnone := List.countP_eq_zero.mp hzero
        refine ⟨fun b hb hpb => absurd hpb (hnone b hb), ?_⟩
        exact List.pairwise_of_forall_mem_list fun b _ c hc hpc => absurd hpc (hnone c hc)
      · rintro ⟨hfirst, -⟩
        have hzero : l.countP p = 0 := List.countP_eq_zero.mpr fun b hb hpb => Bool.false_ne_true (hfirst b hb hpb)
        rw [hzero]
        exact nofun

/-! ### The live pairs -/

/-- The slots in use are the live pairs, and as many as are counted. -/
structure Tracks (req : Headers) (live : List (List Byte × List Byte)) : Prop where
  entries : (req.httpHeader.filter Nv.inUse).Perm (live.map fun p => entry p.1 p.2)
  count : req.httpHeaderNum.toNat = live.length
  names : (live.map Prod.fst).Nodup

namespace Tracks
variable {req : Headers} {live : List (List Byte × List Byte)} {name value : List Byte}

theorem empty : Tracks .empty [] := by
  refine ⟨?_, rfl, List.nodup_nil⟩
  rw [Headers.empty, List.filter_replicate_of_neg (by decide)]
  exact .nil

theorem slot_eq (h : Tracks req live) {slot : Nv} (hmem : slot ∈ req.httpHeader) (hname : slot.name = some name) :
    ∃ value, (name, value) ∈ live ∧ slot = entry name value := by
  have hused : slot ∈ req.httpHeader.filter Nv.inUse :=
    List.mem_filter.mpr ⟨hmem, by rw [Nv.inUse, hname]; rfl⟩
  obtain ⟨⟨name', value⟩, hlive, rfl⟩ := List.mem_map.mp (h.entries.mem_iff.mp hused)
  obtain rfl := Option.some.inj hname
  exact ⟨value, hlive, rfl⟩

theorem named_iff (h : Tracks req live) (name : List Byte) :
    req.httpHeader.any (·.name = some name) = true ↔ name ∈ live.map Prod.fst := by
  rw [List.any_eq_true]
  constructor
  · rintro ⟨slot, hmem, hname⟩
    obtain ⟨value, hlive, -⟩ := h.slot_eq hmem (of_decide_eq_true hname)
    exact List.mem_map_of_mem (f := Prod.fst) hlive
  · intro hname
    obtain ⟨⟨name', value⟩, hlive, rfl⟩ := List.mem_map.mp hname
    have hused := h.entries.mem_iff.mpr (List.mem_map_of_mem hlive)
    exact ⟨_, (List.mem_filter.mp hused).1, decide_eq_true rfl⟩

theorem length_le (h : Tracks req live) : live.length ≤ headerMaxNum := by
  have hlen := h.entries.length_eq
  rw [List.length_map] at hlen
  rw [← hlen, ← req.size]
  exact List.length_filter_le _ _

theorem full_iff (h : Tracks req live) :
    fillFirst (entry name value) req.httpHeader = none ↔ ¬ live.length < headerMaxNum := by
  have hlen := h.entries.length_eq
  rw [List.length_map] at hlen
  rw [fillFirst_eq_none_iff, Nat.not_lt, ← hlen, ← req.size]
  constructor
  · intro hall
    rw [List.filter_eq_self.mpr hall]
  · intro hle
    exact List.filter_eq_self.mp (List.filter_sublist.eq_of_length (Nat.le_antisymm (List.length_filter_le _ _) hle))

/-- An addition fails and changes nothing, or fills a slot. -/
theorem add_cases (h : Tracks req live) (name value : List Byte) :
    (req.add name value = (req, false) ∧ ¬ (name ∉ live.map Prod.fst ∧ live.length < headerMaxNum)) ∨
      ∃ req', req.add name value = (req', true) ∧ name ∉ live.map Prod.fst ∧ live.length < headerMaxNum ∧
        Tracks req' (live ++ [(name, value)]) := by
  rw [Headers.add]
  split
  next hnamed => exact Or.inl ⟨rfl, fun hnew => hnew.1 ((h.named_iff name).mp hnamed)⟩
  next hnamed =>
    have hnew := mt (h.named_iff name).mpr hnamed
    split
    next slots hfill =>
      have hroom : live.length < headerMaxNum := by
        by_contra hfull
        rw [h.full_iff.mpr hfull] at hfill
        cases hfill
      refine Or.inr ⟨_, rfl, hnew, hroom, ?_, ?_, ?_⟩
      · rw [List.map_append]
        exact ((fillFirst_eq_some rfl hfill).trans (h.entries.cons _)).trans (List.perm_append_singleton _ _).symm
      · have hcount := h.count
        rw [List.length_append, List.length_singleton, ← hcount, BitVec.toNat_add, BitVec.toNat_ofNat]
        rw [headerMaxNum] at hroom
        omega
      · rw [List.map_append, List.map_singleton]
        exact (List.perm_append_singleton _ _).nodup_iff.mpr (List.nodup_cons.mpr ⟨hnew, h.names⟩)
    next hfill =>
      exact Or.inl ⟨rfl, fun hroom => (h.full_iff.mp hfill) hroom.2⟩

/-- A deletion fails and changes nothing, or clears the slot of a live pair. -/
theorem delete_cases (h : Tracks req live) (name : List Byte) :
    req.delete name = (req, false) ∨
      ∃ req', req.delete name = (req', true) ∧ Tracks req' (live.filter (·.1 ≠ name)) := by
  rw [Headers.delete]
  split
  next slots hclear =>
    refine Or.inr ⟨_, rfl, ?_⟩
    obtain ⟨slot, hmem, hname, hperm⟩ := clearFirst_eq_some hclear
    obtain ⟨value, hlive, rfl⟩ := h.slot_eq hmem hname
    -- the pair of this name, and the other ones
    obtain ⟨front, back, rfl⟩ := List.append_of_mem hlive
    have hnames := h.names
    rw [List.map_append, List.map_cons, List.nodup_middle, List.nodup_cons, ← List.map_append] at hnames
    have hrest : ((front ++ (name, value) :: back).filter (·.1 ≠ name)) = front ++ back := by
      rw [List.filter_append, List.filter_cons_of_neg (by simp), ← List.filter_append, List.filter_eq_self]
      intro p hp
      exact decide_eq_true fun heq => hnames.1 (List.mem_map.mpr ⟨p, hp, heq⟩)
    rw [hrest]
    have hentries := (hperm.symm.trans h.entries)
    rw [List.map_append, List.map_cons] at hentries
    have hcount := h.count
    rw [List.length_append, List.length_cons] at hcount
    refine ⟨?_, ?_, hnames.2⟩
    · rw [List.map_append]
      exact (hentries.trans List.perm_middle).cons_inv
    · rw [List.length_append, BitVec.toNat_sub, BitVec.toNat_ofNat]
      have := req.httpHeaderNum.isLt
      omega
  next => exact Or.inl rfl

/-- The entries that are handed over are the live pairs exactly when the table is dense. -/
theorem submits_iff (h : Tracks req live) :
    req.submitted.Perm (live.map fun p => entry p.1 p.2) ↔ Dense req := by
  have hcount : req.httpHeaderNum.toNat = req.httpHeader.countP Nv.inUse := by
    rw [h.count, List.countP_eq_length_filter, h.entries.length_eq, List.length_map]
  have hdense := take_countP_iff Nv.inUse req.httpHeader
  rw [Headers.submitted, hcount]
  constructor
  · intro hperm
    refine hdense.mp fun slot hslot => ?_
    obtain ⟨p, -, rfl⟩ := List.mem_map.mp (hperm.mem_iff.mp hslot)
    rfl
  · intro hd
    have hall := hdense.mpr hd
    have heq : req.httpHeader.take (req.httpHeader.countP Nv.inUse) = req.httpHeader.filter Nv.inUse := by
      have hsub : (req.httpHeader.take (req.httpHeader.countP Nv.inUse)).Sublist
          (req.httpHeader.filter Nv.inUse) := by
        have := (List.take_sublist (req.httpHeader.countP Nv.inUse) req.httpHeader).filter Nv.inUse
        rwa [List.filter_eq_self.mpr hall] at this
      refine hsub.eq_of_length ?_
      rw [List.length_take, ← List.countP_eq_length_filter, Nat.min_eq_left List.countP_le_length]
    rw [heq]
    exact h.entries

theorem exact_iff_dense (h : Tracks req live) : HeadersExact req live ↔ Dense req := by
  refine ⟨fun hexact => h.submits_iff.mp hexact.submits, fun hd => ⟨h.submits_iff.mpr hd, ?_, ?_, ?_⟩⟩
  · intro name value
    rcases h.add_cases name value with ⟨hadd, hno⟩ | ⟨req', hadd, hnew, hroom, -⟩
    · rw [hadd]
      exact iff_of_false Bool.false_ne_true hno
    · rw [hadd]
      exact iff_of_true rfl ⟨hnew, hroom⟩
  · intro name value hfail
    rcases h.add_cases name value with ⟨hadd, -⟩ | ⟨req', hadd, -⟩
    · rw [hadd]
    · rw [hadd] at hfail
      cases hfail
  · intro name hfail
    rcases h.delete_cases name with hdel | ⟨req', hdel, -⟩
    · rw [hdel]
    · rw [hdel] at hfail
      cases hfail

end Tracks

/-! ### Runs -/

/-- Each request of the client has its own live pairs. -/
def History.Tracks (s : History) : Prop := ∀ k req, s.client[k]? = some req → Http2.Tracks req (s.live k)

theorem History.Tracks.set {s : History} (h : s.Tracks) {idx : Nat} {req' : Headers}
    {live : List (List Byte × List Byte)} (hreq : Http2.Tracks req' live) :
    History.Tracks ⟨s.client.set idx req', Function.update s.live idx live⟩ := by
  intro k req hk
  dsimp only at hk ⊢
  by_cases heq : k = idx
  · subst heq
    obtain ⟨hlt, hget⟩ := List.getElem?_eq_some_iff.mp hk
    rw [List.getElem_set_self] at hget
    rw [← hget, Function.update_self]
    exact hreq
  · rw [List.getElem?_set_ne (Ne.symm heq)] at hk
    rw [Function.update_of_ne heq]
    exact h k req hk

theorem set_self {client : Client} {idx : Nat} {req : Headers} (h : client[idx]? = some req) :
    client.set idx req = client := by
  obtain ⟨hlt, rfl⟩ := List.getElem?_eq_some_iff.mp h
  exact List.set_getElem_self hlt

theorem HeaderCall.run_tracks {s : History} (h : s.Tracks) (call : HeaderCall) : (call.run s).Tracks := by
  cases call with
  | add idx name value =>
    rw [HeaderCall.run, clientAddHeader]
    cases hidx : s.client[idx]? with
    | none => exact h
    | some req =>
      dsimp only
      rcases (h idx req hidx).add_cases name value with ⟨hadd, -⟩ | ⟨req', hadd, -, -, hreq⟩
      · rw [hadd, set_self hidx]
        exact h
      · rw [hadd]
        exact h.set hreq
  | delete idx name =>
    rw [HeaderCall.run, clientDeleteHeader]
    cases hidx : s.client[idx]? with
    | none => exact h
    | some req =>
      dsimp only
      rcases (h idx req hidx).delete_cases name with hdel | ⟨req', hdel, hreq⟩
      · rw [hdel, set_self hidx]
        exact h
      · rw [hdel]
        exact h.set hreq

theorem headerRun_tracks (reqnum : Nat) (calls : List HeaderCall) : (headerRun reqnum calls).Tracks := by
  have hrun : ∀ s : History, s.Tracks → (calls.foldl HeaderCall.run s).Tracks := by
    induction calls with
    | nil => exact fun s h => h
    | cons call calls ih => exact fun s h => ih _ (call.run_tracks h)
  refine hrun _ fun k req hk => ?_
  rw [List.eq_of_mem_replicate (List.mem_of_getElem? hk)]
  exact .empty

/-- After any calls, what is said of the headers of a request holds when its table is dense. -/
theorem headers_exact_iff (reqnum : Nat) (calls : List HeaderCall) (k : Nat) :
    ∀ req ∈ (headerRun reqnum calls).client[k]?, HeadersExact req ((headerRun reqnum calls).live k) ↔ Dense req :=
  fun req hreq => (headerRun_tracks reqnum calls k req hreq).exact_iff_dense

/-- One request with two headers. -/
def twoHeaders : List HeaderCall := [.add 0 [0x61#8] [0x31#8], .add 0 [0x62#8] [0x32#8]]

theorem headers_exact_iff_two : ∃ req, (headerRun 1 twoHeaders).client[0]? = some req ∧
    (HeadersExact req ((headerRun 1 twoHeaders).live 0) ↔ Dense req) := by
  obtain ⟨req, hreq⟩ := Option.isSome_iff_exists.mp
    (show ((headerRun 1 twoHeaders).client[0]?).isSome from by decide)
  exact ⟨req, hreq, headers_exact_iff 1 twoHeaders 0 req hreq⟩

/-- With the first header deleted a cleared slot is handed over. -/
theorem not_headersExact : ∃ req, (headerRun 1 (twoHeaders ++ [.delete 0 [0x61#8]])).client[0]? = some req ∧
    ¬ HeadersExact req ((headerRun 1 (twoHeaders ++ [.delete 0 [0x61#8]])).live 0) := by
  obtain ⟨req, hreq⟩ := Option.isSome_iff_exists.mp
    (show ((headerRun 1 (twoHeaders ++ [.delete 0 [0x61#8]])).client[0]?).isSome from by decide)
  refine ⟨req, hreq, fun h => ?_⟩
  have hsub : ((headerRun 1 (twoHeaders ++ [.delete 0 [0x61#8]])).client[0]?).map Headers.submitted =
      some [{}] := by decide
  have hlive : ((headerRun 1 (twoHeaders ++ [.delete 0 [0x61#8]])).live 0) = [([0x62#8], [0x32#8])] := by decide
  rw [hreq, Option.map_some, Option.some.injEq] at hsub
  have hperm := h.submits
  rw [hsub, hlive] at hperm
  exact absurd hperm (by decide)

end WmIot.Http2
