import WmIot.Dma.Descriptors

/-!
# Configuring a DMA transfer

`wm_w800_driver_dma_config` of `wm_drv_ops_dma.c`. A list is copied into nodes of the heap, a single descriptor into
a static slot of its channel; what the channel points to is freed when the call fails.
-/

namespace WmIot.Dma
set_option autoImplicit false

/-- The descriptors of the hardware: the static slot of a channel, or a node of the heap. -/
inductive Ptr where
  | slot (ch : Nat)
  | node (id : Nat)
deriving DecidableEq, Repr

structure Node where
  ptr : Ptr
  hal : HalDesc
deriving DecidableEq, Repr

/-- `drv_ctx.desc`, each pointer with what is reached from it, and the number of the next node of the heap. -/
structure State where
  desc : Nat → List Node
  fresh : Nat

/-- What a call meets: which of its allocations succeed, whether `wm_hal_dma_config` does, and what lies behind the
tables of the conversion. -/
structure Env where
  malloc : Nat → Bool
  hal : Bool
  beyond : Nat → Nat

/-- What a call does; `configured` is the chain that is given to `wm_hal_dma_config`. -/
structure Outcome where
  status : Status
  state : State
  allocated : List Ptr
  freed : List Ptr
  configured : List Node

/-- A new node of a list. -/
def HalDesc.listNode : HalDesc :=
  { HalDesc.zero with
    vld := 2 ^ 0x1f
    extendCtrl := { HalDesc.zero.extendCtrl with chainMode := 1, chainModeEn := 1 } }

/-- The loop over a list, from the `k`-th allocation on: whether it comes to the end, and the nodes it has linked. The
result of the conversion is not looked at. -/
def copyList (env : Env) (fresh : Nat) : List DrvDesc → Nat → Bool × List Node
  | [], _ => (true, [])
  | d :: ds, k =>
    if env.malloc k then
      let rest := copyList env fresh ds (k + 1)
      (rest.1, ⟨.node (fresh + k), (descConvert env.beyond d .listNode).2⟩ :: rest.2)
    else (false, [])

def setDesc (s : State) (ch : Nat) (chain : List Node) : State :=
  { s with desc := fun c => if c = ch then chain else s.desc c }

/-- The `exit` of a call: what the channel points to is freed. -/
def exit (s : State) (ch : Nat) (status : Status) (allocated : List Ptr) (configured : List Node) : Outcome :=
  ⟨status, setDesc s ch [], allocated, (s.desc ch).map Node.ptr, configured⟩

/-- `wm_hal_dma_config` of what the channel points to, and the end of the call. -/
def halConfig (env : Env) (s : State) (ch : Nat) (allocated : List Ptr) : Outcome :=
  if env.hal then ⟨.success, s, allocated, [], s.desc ch⟩ else exit s ch .failed allocated (s.desc ch)

/-- `wm_w800_driver_dma_config` of the descriptor `d` with the list `ds` behind it. -/
def config (env : Env) (s : State) (d : DrvDesc) (ds : List DrvDesc) : Outcome :=
  if 8 ≤ d.ch.val ∨ d.len = 0 then ⟨.failed, s, [], [], []⟩
  else if d.dmaMode = listMode then
    let list := copyList env s.fresh (d :: ds) 0
    let nodes := list.2
    -- the pointer moves with the first node
    let s' := if nodes = [] then s else setDesc { s with fresh := s.fresh + nodes.length } d.ch nodes
    let allocated := nodes.map Node.ptr
    if list.1 then halConfig env s' d.ch allocated else exit s' d.ch .noMem allocated []
  else
    let node : Node := ⟨.slot d.ch, (descConvert env.beyond d .zero).2⟩
    halConfig env (setDesc s d.ch [node]) d.ch []

/-! ## What a call promises -/

/-- The descriptors of a call; a single transfer does not look at what follows. -/
def request (d : DrvDesc) (ds : List DrvDesc) : List DrvDesc := if d.dmaMode = listMode then d :: ds else [d]

/-- How the nodes of a call are read. -/
def readNode (d : DrvDesc) (n : Node) : Transfer := if d.dmaMode = listMode then n.hal.chain else n.hal.nonchain

def Accepted (env : Env) (d : DrvDesc) : Prop := (descConvert env.beyond d .zero).1 = .success

/-- An allocation for one of the descriptors of a list fails. -/
def AllocFails (env : Env) (d : DrvDesc) (ds : List DrvDesc) : Prop :=
  d.dmaMode = listMode ∧ ∃ k ≤ ds.length, env.malloc k = false

/-- A success has configured what was asked for, and a failure has freed what the call has allocated. -/
structure Faithful (env : Env) (d : DrvDesc) (ds : List DrvDesc) (o : Outcome) : Prop where
  success : o.status = .success →
    (∀ x ∈ request d ds, Accepted env x) ∧ o.configured.map (readNode d) = (request d ds).map DrvDesc.transfer
  failure : (∃ x ∈ request d ds, ¬ Accepted env x) ∨ AllocFails env d ds ∨ env.hal = false →
    o.status ≠ .success ∧ o.freed.Perm o.allocated ∧ o.freed.Nodup

/-- The channel or the length is refused; or the single descriptor can be converted and is configured; or, for a list,
nothing is left from earlier when the first allocation fails, and if nothing fails each descriptor can be converted
and reads the same in the layout of a list. -/
def Sound (env : Env) (s : State) (d : DrvDesc) (ds : List DrvDesc) : Prop :=
  8 ≤ d.ch.val ∨ d.len = 0 ∨
    if d.dmaMode = listMode then
      (env.malloc 0 = true ∨ s.desc d.ch = []) ∧
        ((∃ k ≤ ds.length, env.malloc k = false) ∨ env.hal = false ∨ ∀ x ∈ d :: ds, x.Convertible ∧ x.SameInChain)
    else d.Convertible ∧ env.hal = true

section
variable {env : Env} {s : State} {d : DrvDesc} {ds : List DrvDesc} {fresh k : Nat}

theorem accepted_iff : Accepted env d ↔ d.Convertible := descConvert_success

theorem setDesc_desc (s : State) (ch : Nat) (chain : List Node) : (setDesc s ch chain).desc ch = chain := if_pos rfl

/-- The loop comes to the end exactly if no allocation fails. -/
theorem copyList_done : ∀ {ds : List DrvDesc} {k : Nat},
    (copyList env fresh ds k).1 = true ↔ ∀ i < ds.length, env.malloc (k + i) = true := by
  intro ds
  induction ds with
  | nil => exact fun {k} => ⟨fun _ i hi => absurd hi (Nat.not_lt_zero i), fun _ => rfl⟩
  | cons d ds ih =>
    intro k
    rw [copyList]
    by_cases hk : env.malloc k = true
    · rw [if_pos hk]
      refine (@ih (k + 1)).trans ⟨fun h i hi => ?_, fun h i hi => ?_⟩
      · cases i with
        | zero => exact hk
        | succ i =>
          have hnext := h i (Nat.lt_of_succ_lt_succ hi)
          rwa [Nat.add_right_comm] at hnext
      · have hnext := h (i + 1) (Nat.succ_lt_succ hi)
        rwa [← Nat.add_assoc, Nat.add_right_comm] at hnext
    · rw [if_neg hk]
      exact iff_of_false Bool.false_ne_true fun h => hk (h 0 (Nat.succ_pos _))

/-- Then there is a node for each descriptor, in their order. -/
theorem copyList_hal : ∀ {ds : List DrvDesc} {k : Nat}, (copyList env fresh ds k).1 = true →
    (copyList env fresh ds k).2.map Node.hal = ds.map fun d => (descConvert env.beyond d .listNode).2 := by
  intro ds
  induction ds with
  | nil => exact fun _ => rfl
  | cons d ds ih =>
    intro k h
    rw [copyList] at h ⊢
    by_cases hk : env.malloc k = true
    · rw [if_pos hk] at h ⊢
      rw [List.map_cons, List.map_cons, ih h]
    · rw [if_neg hk] at h
      cases h

/-- The nodes of a call are new, one for each allocation that succeeds in a row. -/
theorem copyList_ptr : ∀ {ds : List DrvDesc} {k : Nat},
    (copyList env fresh ds k).2.map Node.ptr =
      (List.range (copyList env fresh ds k).2.length).map fun i => .node (fresh + (k + i)) := by
  intro ds
  induction ds with
  | nil => exact fun {_} => rfl
  | cons d ds ih =>
    intro k
    rw [copyList]
    split
    next =>
      dsimp only
      rw [List.map_cons, ih, List.length_cons, List.range_succ_eq_map, List.map_cons, List.map_map]
      have hnext : ∀ i, fresh + (k + 1 + i) = fresh + (k + (i + 1)) := fun i => by omega
      simp only [hnext, Nat.add_zero]
      rfl
    next => rfl

theorem copyList_nodup : ((copyList env fresh ds k).2.map Node.ptr).Nodup := by
  rw [copyList_ptr]
  refine List.Nodup.map (fun i j hij => ?_) List.nodup_range
  have := Ptr.node.inj hij
  omega

/-- There is a node unless the first allocation fails. -/
theorem copyList_nil_iff : (copyList env fresh (d :: ds) k).2 = [] ↔ env.malloc k = false := by
  rw [copyList]
  cases hk : env.malloc k with
  | false => exact iff_of_true rfl rfl
  | true => exact iff_of_false (List.cons_ne_nil _ _) Bool.noConfusion

theorem allocFails_iff (fresh : Nat) (hmode : d.dmaMode = listMode) :
    AllocFails env d ds ↔ (copyList env fresh (d :: ds) 0).1 = false := by
  rw [← Bool.not_eq_true, copyList_done, AllocFails]
  refine ⟨fun ⟨_, k, hk, hfail⟩ h => ?_, fun h => ⟨hmode, ?_⟩⟩
  · have hok := h k (Nat.lt_succ_of_le hk)
    rw [Nat.zero_add, hfail] at hok
    cases hok
  · by_contra hnone
    refine h fun i hi => ?_
    rw [Nat.zero_add, ← Bool.not_eq_false]
    exact fun hfail => hnone ⟨i, Nat.le_of_lt_succ hi, hfail⟩

theorem request_list (hmode : d.dmaMode = listMode) : request d ds = d :: ds := if_pos hmode

theorem request_single (hmode : d.dmaMode ≠ listMode) : request d ds = [d] := if_neg hmode

theorem halConfig_ok (hhal : env.hal = true) (s : State) (ch : Nat) (allocated : List Ptr) :
    halConfig env s ch allocated = ⟨.success, s, allocated, [], s.desc ch⟩ := if_pos hhal

theorem halConfig_fails (hhal : env.hal = false) (s : State) (ch : Nat) (allocated : List Ptr) :
    halConfig env s ch allocated = exit s ch .failed allocated (s.desc ch) :=
  if_neg (by rw [hhal]; exact Bool.false_ne_true)

/-- A failure that frees what was allocated is as promised. -/
theorem faithful_of_failure {o : Outcome} (hret : o.status ≠ .success) (hfreed : o.freed = o.allocated)
    (hnodup : o.allocated.Nodup) : Faithful env d ds o :=
  ⟨fun h => absurd h hret, fun _ => ⟨hret, List.Perm.of_eq hfreed, hfreed ▸ hnodup⟩⟩

theorem single_faithful (hmode : d.dmaMode ≠ listMode) (s : State) :
    Faithful env d ds (halConfig env (setDesc s d.ch [⟨.slot d.ch, (descConvert env.beyond d .zero).2⟩]) d.ch []) ↔
      d.Convertible ∧ env.hal = true := by
  cases hhal : env.hal with
  | false =>
    rw [halConfig_fails hhal, exit, setDesc_desc]
    refine ⟨fun h => ?_, fun h => absurd h.2 Bool.false_ne_true⟩
    -- the static slot is freed
    obtain ⟨-, hperm, -⟩ := h.failure (.inr (.inr hhal))
    exact absurd hperm.length_eq Nat.one_ne_zero
  | true =>
    rw [halConfig_ok hhal, setDesc_desc]
    refine ⟨fun h => ⟨?_, rfl⟩, fun ⟨hconv, _⟩ => ⟨fun _ => ⟨fun x hx => ?_, ?_⟩, fun h => ?_⟩⟩
    · exact accepted_iff.mp ((h.success rfl).1 d (by rw [request_single hmode]; exact List.mem_singleton_self d))
    · rw [request_single hmode, List.mem_singleton] at hx
      rw [hx]
      exact accepted_iff.mpr hconv
    · rw [request_single hmode, List.map_singleton, List.map_singleton, readNode, if_neg hmode,
        nonchain_descConvert rfl hconv hmode]
    · rw [request_single hmode] at h
      rcases h with ⟨x, hx, hnot⟩ | ⟨hlist, -⟩ | hfail
      · rw [List.mem_singleton.mp hx] at hnot
        exact absurd (accepted_iff.mpr hconv) hnot
      · exact absurd hlist hmode
      · rw [hhal] at hfail
        cases hfail

/-- A list that is configured. -/
theorem list_faithful (hmode : d.dmaMode = listMode) (hhal : env.hal = true) {nodes : List Node}
    (hnodes : nodes.map Node.hal = (d :: ds).map fun x => (descConvert env.beyond x .listNode).2)
    (halloc : ¬ AllocFails env d ds) {s' : State} {allocated : List Ptr} :
    Faithful env d ds ⟨.success, s', allocated, [], nodes⟩ ↔ ∀ x ∈ d :: ds, x.Convertible ∧ x.SameInChain := by
  have hread : nodes.map (readNode d) = (d :: ds).map fun x => (descConvert env.beyond x .listNode).2.chain := by
    have hfun : readNode d = HalDesc.chain ∘ Node.hal := by
      funext n
      exact if_pos hmode
    rw [hfun, ← List.map_map, hnodes, List.map_map]
    rfl
  constructor
  · intro h x hx
    obtain ⟨hacc, hsame⟩ := h.success rfl
    rw [request_list hmode] at hacc hsame
    have hconv := accepted_iff.mp (hacc x hx)
    refine ⟨hconv, (@chain_descConvert env.beyond x .listNode rfl hconv).mp ?_⟩
    rw [hread] at hsame
    exact List.map_inj_left.mp hsame x hx
  · intro h
    refine ⟨fun _ => ?_, fun hbad => ?_⟩
    · rw [request_list hmode, hread]
      refine ⟨fun x hx => accepted_iff.mpr (h x hx).1, List.map_inj_left.mpr fun x hx => ?_⟩
      exact (chain_descConvert rfl (h x hx).1).mpr (h x hx).2
    · rw [request_list hmode] at hbad
      rcases hbad with ⟨x, hx, hnot⟩ | hfail | hfail
      · exact absurd (accepted_iff.mpr (h x hx).1) hnot
      · exact absurd hfail halloc
      · rw [hhal] at hfail
        cases hfail

theorem listConfig_faithful (hmode : d.dmaMode = listMode) {done : Bool} {nodes : List Node}
    (hlist : copyList env s.fresh (d :: ds) 0 = (done, nodes)) :
    Faithful env d ds
        (let s' := if nodes = [] then s else setDesc { s with fresh := s.fresh + nodes.length } d.ch nodes
        if done then halConfig env s' d.ch (nodes.map Node.ptr) else exit s' d.ch .noMem (nodes.map Node.ptr) []) ↔
      (env.malloc 0 = true ∨ s.desc d.ch = []) ∧
        ((∃ k ≤ ds.length, env.malloc k = false) ∨ env.hal = false ∨
          ∀ x ∈ d :: ds, x.Convertible ∧ x.SameInChain) := by
  have hfails : AllocFails env d ds ↔ done = false := by
    rw [allocFails_iff s.fresh hmode, hlist]
  have hnil : nodes = [] ↔ env.malloc 0 = false := by
    rw [← @copyList_nil_iff env d ds s.fresh, hlist]
  have hnodup : (nodes.map Node.ptr).Nodup := by
    have := @copyList_nodup env (d :: ds) s.fresh 0
    rwa [hlist] at this
  dsimp only
  by_cases hnone : nodes = []
  · -- the first allocation fails, and what is freed is not of this call
    have hfirst := hnil.mp hnone
    have hdone : done = false := hfails.mp ⟨hmode, 0, Nat.zero_le _, hfirst⟩
    subst hdone hnone
    rw [if_pos rfl, if_neg Bool.false_ne_true, exit, hfirst, or_iff_right Bool.false_ne_true]
    constructor
    · intro h
      obtain ⟨-, hperm, -⟩ := h.failure (.inr (.inl (hfails.mpr rfl)))
      exact ⟨List.map_eq_nil_iff.mp hperm.eq_nil, .inl ⟨0, Nat.zero_le _, hfirst⟩⟩
    · rintro ⟨hdesc, -⟩
      exact faithful_of_failure nofun (by rw [hdesc]) List.nodup_nil
  · have hfirst : env.malloc 0 = true := by
      rw [← Bool.not_eq_false]
      exact fun h => hnone (hnil.mpr h)
    rw [if_neg hnone, and_iff_right (.inl hfirst)]
    generalize hstate : setDesc { s with fresh := s.fresh + nodes.length } d.ch nodes = s'
    have hdesc : s'.desc d.ch = nodes := by
      rw [← hstate]
      exact setDesc_desc _ _ _
    cases hdone : done with
    | false =>
      rw [if_neg Bool.false_ne_true, exit, hdesc]
      exact iff_of_true (faithful_of_failure nofun rfl hnodup) (.inl (hfails.mpr hdone).2)
    | true =>
      have hno : ¬ AllocFails env d ds := fun h => by
        rw [hfails.mp h] at hdone
        cases hdone
      have hno' : ¬ ∃ k ≤ ds.length, env.malloc k = false := fun h => hno ⟨hmode, h⟩
      rw [if_pos rfl, or_iff_right hno']
      cases hhal : env.hal with
      | false =>
        rw [halConfig_fails hhal, exit, hdesc]
        exact iff_of_true (faithful_of_failure nofun rfl hnodup) (.inl rfl)
      | true =>
        have hhals : nodes.map Node.hal = (d :: ds).map fun x => (descConvert env.beyond x .listNode).2 := by
          have := @copyList_hal env s.fresh (d :: ds) 0
          rw [hlist] at this
          exact this hdone
        rw [halConfig_ok hhal, hdesc, list_faithful hmode hhal hhals hno, or_iff_right nofun]

end

/-- The driver after its start. -/
def State.init : State := ⟨fun _ => [], 0⟩

/-- A descriptor from the PSRAM to the SRAM. -/
def psramDesc (len : Fin 65536) (mode : Fin 4) : DrvDesc := ⟨0x30000000, 0x20000000, len, 0, 1, 1, 1, 0, mode, 0, 0, 0⟩

/-- Nothing fails. -/
def Env.good : Env := ⟨fun _ => true, true, fun _ => 0⟩

/-- No allocation succeeds. -/
def Env.noMem : Env := ⟨fun _ => false, true, fun _ => 0⟩

end WmIot.Dma
