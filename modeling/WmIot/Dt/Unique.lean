import WmIot.Lib.Holders
import WmIot.Dt.DeviceTable

/-!
# One device, one node

A name is held by the global list, by a lookup between its two critical sections, or by a call of the
automatic initialisation that has the name's device on its private list. While no two of these meet,
the list has a name once, and everybody gets the same device.
-/

namespace WmIot.Dt
open Transition Holders
set_option autoImplicit false

variable {ν : Type} [DecidableEq ν]

/-- At most one node for a name, one device for all who asked since it was last freed, and one
call of `init` for a node. -/
structure Unique (s : World ν) : Prop where
  nodes : (s.devList.map Device.name).Nodup
  same : ∀ d ∈ s.obtained, ∀ e ∈ s.obtained, d.name = e.name → d = e
  once : ∀ d, s.inits d ≤ 1

/-- The devices off the global list that the call has. -/
def AutoInit.owned (a : AutoInit ν) : List (Device ν) :=
  match a.phase with
  | .initing d => d :: a.devList
  | .insert d => d :: a.devList
  | _ => a.devList

/-- The name for which the call is about to make a device. -/
def AutoInit.making (table : List (TableEntry ν)) (a : AutoInit ν) : List ν :=
  match a.phase with
  | .found i none => ((table[i]?.filter TableEntry.initLevel).map TableEntry.devName).toList
  | _ => []

/-- Who can hold a name: the global list, a lookup or a call of the automatic initialisation. -/
inductive Holder where
  | list
  | get (j : Nat)
  | auto (k : Nat)
deriving DecidableEq

def hold (table : List (TableEntry ν)) (s : World ν) : Holder → List ν
  | .list => s.devList.map Device.name
  | .get j => ((s.gets j).map TableEntry.devName).toList
  | .auto k => (s.autos k).making table ++ (s.autos k).owned.map Device.name

/-- The call has looked at the device and not yet taken it off the list. -/
def LooksAt (s : World ν) (k : Nat) (d : Device ν) : Prop :=
  (∃ i, (s.autos k).phase = .found i (some d)) ∨ ∃ i, (s.autos k).phase = .take i d

/-- The call will take the device off the list. -/
def WillTake (table : List (TableEntry ν)) (s : World ν) (k : Nat) (d : Device ν) : Prop :=
  (∃ i e, (s.autos k).phase = .found i (some d) ∧ table[i]? = some e ∧ e.initLevel = true ∧
    s.inited d = false) ∨ ∃ i, (s.autos k).phase = .take i d

/-- A call of the automatic initialisation makes a device only when nobody is making one of its name,
takes one off the list alone and for its first `init`, and has memory for the array or devices that
nobody has. -/
def autoAlone (table : List (TableEntry ν)) (s : World ν) (k : Nat) (mem : Bool) : Prop :=
  match (s.autos k).phase with
  | .collect i => ∀ e ∈ table[i]?, e.initLevel = true →
      match lookup s.devList e.devName with
      | none => ∀ p, e.devName ∉ hold table s p
      | some d => s.inited d = false → ∀ k', ¬ WillTake table s k' d
  | .found i (some d) => ∀ e ∈ table[i]?, e.initLevel = true → s.inited d = false → s.inits d = 0
  | .array => mem = true ∨ ∀ d ∈ (s.autos k).devList, d ∉ s.obtained
  | _ => True

/-- A device is looked for when nobody is making one of its name, and freed when no call of the
automatic initialisation looks at it. -/
def alone (table : List (TableEntry ν)) (s : World ν) : Event ν → Prop
  | .get _ name => lookup s.devList name = none → (∃ e ∈ table, e.devName = name) →
      ∀ p, name ∉ hold table s p
  | .freeByName name => ∀ d ∈ lookup s.devList name, ∀ k, ¬ LooksAt s k d
  | .free d => ∀ k, ¬ LooksAt s k d
  | .freeAll => ∀ d ∈ s.devList, ∀ k, ¬ LooksAt s k d
  | .auto k mem _ _ => autoAlone table s k mem
  | _ => True

/-- What a run keeps. -/
structure Inv (table : List (TableEntry ν)) (s : World ν) : Prop where
  divided : Divided (hold table s)
  taken : ∀ k d, WillTake table s k d → d ∈ s.devList
  takenOnce : ∀ k k' d, WillTake table s k d → WillTake table s k' d → k = k'
  obtained : ∀ d ∈ s.obtained, d ∈ s.devList ∨ ∃ k, d ∈ (s.autos k).owned
  once : ∀ d, s.inits d ≤ 1
  fresh : ∀ d, s.nextAddr ≤ d.addr → s.inits d = 0
  waiting : ∀ k, ∀ d ∈ (s.autos k).devList, s.inits d = 0
  uninit : ∀ k i d, (s.autos k).phase = .take i d → s.inits d = 0 ∧ s.inited d = false
  listAddr : ∀ d ∈ s.devList, d.addr < s.nextAddr
  ownedAddr : ∀ k, ∀ d ∈ (s.autos k).owned, d.addr < s.nextAddr

section Lookup
variable {l : List (Device ν)} {name : ν} {d : Device ν}

theorem lookup_some (h : lookup l name = some d) : d ∈ l ∧ d.name = name :=
  ⟨List.mem_of_find?_eq_some h, by simpa using List.find?_some h⟩

theorem lookup_none (h : lookup l name = none) : name ∉ l.map Device.name := by
  intro hmem
  obtain ⟨d, hd, hname⟩ := List.mem_map.mp hmem
  have hnot := List.find?_eq_none.mp h d hd
  exact hnot (by simpa using hname)

theorem perm_erase_names (h : d ∈ l) :
    (l.map Device.name).Perm (d.name :: (l.erase d).map Device.name) :=
  (List.perm_cons_erase h).map Device.name

end Lookup

section Hold
variable {table : List (TableEntry ν)} {s : World ν} {k : Nat}

theorem hold_setAuto (a : AutoInit ν) : hold table (s.setAuto k a) =
    Function.update (hold table s) (.auto k) (a.making table ++ a.owned.map Device.name) := by
  funext p
  cases p with
  | list => rfl
  | get j => rfl
  | auto k' =>
    by_cases hk : k' = k
    · subst hk
      rw [Function.update_self, hold, World.setAuto]
      dsimp only
      rw [Function.update_self]
    · have hne : Holder.auto k' ≠ .auto k := fun h => hk (by cases h; rfl)
      rw [Function.update_of_ne hne, hold, World.setAuto]
      dsimp only
      rw [Function.update_of_ne hk, hold]

theorem hold_devList (l : List (Device ν)) : hold table { s with devList := l } =
    Function.update (hold table s) .list (l.map Device.name) := by
  funext p
  cases p with
  | list => rfl
  | get j => rfl
  | auto k' => rfl

theorem hold_gets (j : Nat) (e : Option (TableEntry ν)) :
    hold table { s with gets := Function.update s.gets j e } =
      Function.update (hold table s) (.get j) ((e.map TableEntry.devName).toList) := by
  funext p
  cases p with
  | list => rfl
  | get j' =>
    by_cases hj : j' = j
    · subst hj
      rw [Function.update_self, hold]
      dsimp only
      rw [Function.update_self]
    · have hne : Holder.get j' ≠ .get j := fun h => hj (by cases h; rfl)
      rw [Function.update_of_ne hne, hold]
      dsimp only
      rw [Function.update_of_ne hj, hold]
  | auto k' => rfl

theorem setAuto_self (a : AutoInit ν) : (s.setAuto k a).autos k = a := Function.update_self ..

theorem setAuto_of_ne {k' : Nat} (h : k' ≠ k) (a : AutoInit ν) :
    (s.setAuto k a).autos k' = s.autos k' := Function.update_of_ne h ..

end Hold

section Inv
variable {table : List (TableEntry ν)} {s : World ν}

theorem Inv.owned_not_listed (h : Inv table s) {k : Nat} {d : Device ν}
    (hd : d ∈ (s.autos k).owned) : d ∉ s.devList := by
  intro hlist
  have hauto : d.name ∈ hold table s (.auto k) :=
    List.mem_append_right _ (List.mem_map_of_mem hd)
  have heq := h.divided.once (.auto k) .list d.name hauto (List.mem_map_of_mem hlist)
  cases heq

theorem owned_sub (a : AutoInit ν) {d : Device ν} (h : d ∈ a.devList) : d ∈ a.owned := by
  unfold AutoInit.owned
  cases a.phase with
  | initing e => exact List.mem_cons_of_mem e h
  | insert e => exact List.mem_cons_of_mem e h
  | idle => exact h
  | collect i => exact h
  | found i dev => exact h
  | take i e => exact h
  | array => exact h
  | sorted => exact h

theorem Inv.unique (h : Inv table s) : Unique s := by
  refine ⟨h.divided.nodup .list, fun d hd e he hname => ?_, h.once⟩
  have hauto : ∀ {d : Device ν} {k : Nat}, d ∈ (s.autos k).owned → d.name ∈ hold table s (.auto k) :=
    fun hd => List.mem_append_right _ (List.mem_map_of_mem hd)
  rcases h.obtained d hd with hd | ⟨k, hd⟩
  · rcases h.obtained e he with he | ⟨k, he⟩
    · exact List.inj_on_of_nodup_map (h.divided.nodup .list) hd he hname
    · have heq := h.divided.once .list (.auto k) d.name (List.mem_map_of_mem hd)
        (hname ▸ hauto he)
      cases heq
  · rcases h.obtained e he with he | ⟨k', he⟩
    · have heq := h.divided.once (.auto k) .list d.name (hauto hd)
        (hname ▸ List.mem_map_of_mem he)
      cases heq
    · have heq := h.divided.once (.auto k) (.auto k') d.name (hauto hd) (hname ▸ hauto he)
      cases heq
      have hnodup := (h.divided.nodup (.auto k)).of_append_right
      exact List.inj_on_of_nodup_map hnodup hd he hname

end Inv

section Frame
variable {table : List (TableEntry ν)} {s s' : World ν} {k : Nat} {a : AutoInit ν}

theorem Inv.owned_once (h : Inv table s) {k' : Nat} {d : Device ν} (hd : d ∈ (s.autos k).owned)
    (hd' : d ∈ (s.autos k').owned) : k = k' := by
  have heq := h.divided.once (.auto k) (.auto k') d.name
    (List.mem_append_right _ (List.mem_map_of_mem hd))
    (List.mem_append_right _ (List.mem_map_of_mem hd'))
  cases heq
  rfl

/-- What a step of one call of the automatic initialisation touches. -/
structure Touches (table : List (TableEntry ν)) (s s' : World ν) (k : Nat) (a : AutoInit ν) : Prop where
  autos : s'.autos = Function.update s.autos k a
  obtained : s'.obtained = s.obtained
  nextAddr : s.nextAddr ≤ s'.nextAddr
  inits : ∀ d, d ∉ (s.autos k).owned → s'.inits d = s.inits d
  inited : ∀ d, d ∉ (s.autos k).owned → s'.inited d = s.inited d
  initedKept : ∀ d, s'.inited d = false → s.inited d = false
  list : ∀ d ∈ s.devList, d ∈ s'.devList ∨
    (d ∈ a.owned ∧ ∀ k', k' ≠ k → ¬ WillTake table s k' d)
  owned : ∀ d ∈ (s.autos k).owned, d ∈ s.obtained → d ∈ s'.devList ∨ d ∈ a.owned

/-- What the touched things have to meet. -/
structure Meets (table : List (TableEntry ν)) (s s' : World ν) (k : Nat) (a : AutoInit ν) : Prop where
  divided : Divided (hold table s')
  taken : ∀ d, WillTake table s' k d → d ∈ s'.devList ∧ ∀ k', k' ≠ k → ¬ WillTake table s k' d
  once : ∀ d, s'.inits d ≤ 1
  fresh : ∀ d, s'.nextAddr ≤ d.addr → s'.inits d = 0
  waiting : ∀ d ∈ a.devList, s'.inits d = 0
  uninit : ∀ i d, a.phase = .take i d → s'.inits d = 0 ∧ s'.inited d = false
  listAddr : ∀ d ∈ s'.devList, d.addr < s'.nextAddr
  ownedAddr : ∀ d ∈ a.owned, d.addr < s'.nextAddr

theorem Touches.willTake (h : Touches table s s' k a) {k' : Nat} {d : Device ν}
    (hk : k' ≠ k) (ht : WillTake table s' k' d) : WillTake table s k' d := by
  unfold WillTake at ht ⊢
  rw [h.autos, Function.update_of_ne hk] at ht
  rcases ht with ⟨i, e, hphase, he, hlevel, huninit⟩ | htake
  · exact Or.inl ⟨i, e, hphase, he, hlevel, h.initedKept d huninit⟩
  · exact Or.inr htake

theorem Inv.touched (hinv : Inv table s) (h : Touches table s s' k a) (hm : Meets table s s' k a) :
    Inv table s' := by
  have hself : s'.autos k = a := by rw [h.autos, Function.update_self]
  have hother : ∀ {k'}, k' ≠ k → s'.autos k' = s.autos k' := fun hk => by
    rw [h.autos, Function.update_of_ne hk]
  refine ⟨hm.divided, fun k' d ht => ?_, fun k₁ k₂ d h₁ h₂ => ?_, fun d hd => ?_, hm.once, hm.fresh,
    fun k' d hd => ?_, fun k' i d hd => ?_, hm.listAddr, fun k' d hd => ?_⟩
  · by_cases hk : k' = k
    · subst hk
      exact (hm.taken d ht).1
    · have hbefore := h.willTake hk ht
      rcases h.list d (hinv.taken k' d hbefore) with hd | ⟨-, hnot⟩
      · exact hd
      · exact absurd hbefore (hnot k' hk)
  · by_cases hk₁ : k₁ = k
    · by_cases hk₂ : k₂ = k
      · rw [hk₁, hk₂]
      · rw [hk₁] at h₁
        exact absurd (h.willTake hk₂ h₂) ((hm.taken d h₁).2 k₂ hk₂)
    · by_cases hk₂ : k₂ = k
      · rw [hk₂] at h₂
        exact absurd (h.willTake hk₁ h₁) ((hm.taken d h₂).2 k₁ hk₁)
      · exact hinv.takenOnce k₁ k₂ d (h.willTake hk₁ h₁) (h.willTake hk₂ h₂)
  · rw [h.obtained] at hd
    rcases hinv.obtained d hd with hlist | ⟨k', hk'⟩
    · rcases h.list d hlist with hlist | ⟨howned, -⟩
      · exact Or.inl hlist
      · exact Or.inr ⟨k, by rw [hself]; exact howned⟩
    · by_cases hk : k' = k
      · rw [hk] at hk'
        rcases h.owned d hk' hd with hlist | howned
        · exact Or.inl hlist
        · exact Or.inr ⟨k, by rw [hself]; exact howned⟩
      · exact Or.inr ⟨k', by rw [hother hk]; exact hk'⟩
  · by_cases hk : k' = k
    · rw [hk, hself] at hd
      exact hm.waiting d hd
    · rw [hother hk] at hd
      have hnot : d ∉ (s.autos k).owned := fun hd' =>
        hk (hinv.owned_once (owned_sub _ hd) hd')
      rw [h.inits d hnot]
      exact hinv.waiting k' d hd
  · by_cases hk : k' = k
    · rw [hk, hself] at hd
      exact hm.uninit i d hd
    · rw [hother hk] at hd
      have hnot : d ∉ (s.autos k).owned := fun hd' =>
        hinv.owned_not_listed hd' (hinv.taken k' d (Or.inr ⟨i, hd⟩))
      rw [h.inits d hnot, h.inited d hnot]
      exact hinv.uninit k' i d hd
  · by_cases hk : k' = k
    · rw [hk, hself] at hd
      exact hm.ownedAddr d hd
    · rw [hother hk] at hd
      exact Nat.lt_of_lt_of_le (hinv.ownedAddr k' d hd) h.nextAddr

/-- The call goes to another phase, with the same devices or with fewer. -/
theorem Inv.goto (hinv : Inv table s) (hsub : ∀ d ∈ a.owned, d ∈ (s.autos k).owned)
    (hkeep : ∀ d ∈ (s.autos k).owned, d ∈ s.obtained → d ∈ a.owned)
    (hdiv : Divided (hold table (s.setAuto k a)))
    (hwaiting : ∀ d ∈ a.devList, s.inits d = 0)
    (htaken : ∀ d, WillTake table (s.setAuto k a) k d →
      d ∈ s.devList ∧ ∀ k', k' ≠ k → ¬ WillTake table s k' d)
    (huninit : ∀ i d, a.phase = .take i d → s.inits d = 0 ∧ s.inited d = false) :
    Inv table (s.setAuto k a) :=
  hinv.touched
    { autos := rfl, obtained := rfl, nextAddr := Nat.le_refl _, inits := fun _ _ => rfl
      inited := fun _ _ => rfl, initedKept := fun _ h => h, list := fun _ hd => Or.inl hd
      owned := fun d hd hobt => Or.inr (hkeep d hd hobt) }
    { divided := hdiv, taken := htaken, once := hinv.once, fresh := hinv.fresh
      waiting := hwaiting, uninit := huninit, listAddr := hinv.listAddr
      ownedAddr := fun d hd => hinv.ownedAddr k d (hsub d hd) }

theorem willTake_phase {d : Device ν} {s : World ν} (h : WillTake table s k d) :
    (∃ i, (s.autos k).phase = .found i (some d)) ∨ ∃ i, (s.autos k).phase = .take i d := by
  rcases h with ⟨i, e, hphase, -⟩ | htake
  · exact Or.inl ⟨i, hphase⟩
  · exact Or.inr htake

end Frame

section AutoSteps
variable {table : List (TableEntry ν)} {s s' : World ν} {k i : Nat}

/-- Between two devices the call has the private list and makes nothing. -/
def Phase.resting : Phase ν → Bool
  | .found _ none => false
  | .initing _ => false
  | .insert _ => false
  | _ => true

theorem owned_resting {a : AutoInit ν} (h : a.phase.resting = true) : a.owned = a.devList := by
  unfold AutoInit.owned
  rcases a with ⟨phase, devList⟩
  cases phase with
  | initing d => cases h
  | insert d => cases h
  | _ => rfl

theorem making_resting {a : AutoInit ν} (h : a.phase.resting = true) : a.making table = [] := by
  unfold AutoInit.making
  rcases a with ⟨phase, devList⟩
  cases phase with
  | found i dev =>
    cases dev with
    | none => cases h
    | some d => rfl
  | _ => rfl

theorem making_found {a : AutoInit ν} {e : TableEntry ν} (h : a.phase = .found i none)
    (he : table[i]? = some e) : a.making table = if e.initLevel = true then [e.devName] else [] := by
  unfold AutoInit.making
  rw [h]
  dsimp only
  rw [he]
  by_cases hlevel : e.initLevel = true
  · rw [if_pos hlevel, Option.filter_some, if_pos hlevel]
    rfl
  · rw [if_neg hlevel, Option.filter_some, if_neg hlevel]
    rfl

theorem hold_resting (h : (s.autos k).phase.resting = true) :
    hold table s (.auto k) = (s.autos k).devList.map Device.name := by
  rw [hold, making_resting h, owned_resting h, List.nil_append]

/-- From one resting phase to another with the same private list. -/
theorem Inv.rest (hinv : Inv table s) {phase : Phase ν} (hrest : phase.resting = true)
    (hown : (s.autos k).owned = (s.autos k).devList)
    (htaken : ∀ d, WillTake table (s.setAuto k { s.autos k with phase := phase }) k d →
      d ∈ s.devList ∧ ∀ k', k' ≠ k → ¬ WillTake table s k' d)
    (huninit : ∀ i d, phase = .take i d → s.inits d = 0 ∧ s.inited d = false) :
    Inv table (s.setAuto k { s.autos k with phase := phase }) := by
  have hnew : ({ s.autos k with phase := phase } : AutoInit ν).owned = (s.autos k).devList :=
    owned_resting (a := { s.autos k with phase := phase }) hrest
  refine hinv.goto (fun d hd => ?_) (fun d hd _ => ?_) ?_ (hinv.waiting k) htaken huninit
  · rw [hnew] at hd
    rw [hown]
    exact hd
  · rw [hown] at hd
    rw [hnew]
    exact hd
  · have hpart : (hold table s (.auto k)) =
        (s.autos k).making table ++ (s.autos k).devList.map Device.name := by rw [hold, hown]
    rw [hold_setAuto, hnew, making_resting (a := { s.autos k with phase := phase }) hrest]
    have hnodup := hinv.divided.nodup (.auto k)
    rw [hpart] at hnodup
    refine hinv.divided.shrink hnodup.of_append_right fun y hy => ?_
    rw [hpart]
    exact List.mem_append_right _ hy

theorem Inv.rest_plain (hinv : Inv table s) {phase : Phase ν} (hrest : phase.resting = true)
    (hown : (s.autos k).owned = (s.autos k).devList)
    (hfound : ∀ i d, phase ≠ .found i (some d)) (htake : ∀ i d, phase ≠ .take i d) :
    Inv table (s.setAuto k { s.autos k with phase := phase }) := by
  refine hinv.rest hrest hown (fun d ht => ?_) fun i d heq => absurd heq (htake i d)
  rcases willTake_phase ht with ⟨i, h⟩ | ⟨i, h⟩
  · rw [setAuto_self] at h
    exact absurd h (hfound i d)
  · rw [setAuto_self] at h
    exact absurd h (htake i d)

theorem Inv.collect (hinv : Inv table s) {mem : Bool} (hok : autoAlone table s k mem)
    (hphase : (s.autos k).phase = .collect i) {e : TableEntry ν} (he : table[i]? = some e) :
    Inv table (s.setAuto k { s.autos k with phase := .found i (lookup s.devList e.devName) }) := by
  have hresting : (s.autos k).phase.resting = true := by
    rw [hphase]
    rfl
  have hok' := hok
  unfold autoAlone at hok'
  rw [hphase] at hok'
  have hcond := hok' e he
  cases hlook : lookup s.devList e.devName with
  | some d =>
    obtain ⟨hd, hname⟩ := lookup_some hlook
    refine hinv.rest rfl (owned_resting hresting) (fun d' ht => ?_) fun _ _ heq => by cases heq
    unfold WillTake at ht
    rw [setAuto_self] at ht
    rcases ht with ⟨i', e', hp, he', hlevel, huninit⟩ | ⟨i', hp⟩
    · cases hp
      rw [he] at he'
      cases he'
      have hno := hcond hlevel
      rw [hlook] at hno
      exact ⟨hd, fun k' _ => hno huninit k'⟩
    · cases hp
  | none =>
    have hown := owned_resting hresting
    have hnew : (AutoInit.mk (.found i none) (s.autos k).devList).owned = (s.autos k).devList := rfl
    refine hinv.goto (fun d hd => ?_) (fun d hd _ => ?_) ?_ (hinv.waiting k) (fun d ht => ?_)
      fun _ _ heq => by cases heq
    · rw [hnew] at hd
      rw [hown]
      exact hd
    · rw [hown] at hd
      rw [hnew]
      exact hd
    · rw [hold_setAuto, hnew]
      rw [making_found (a := ⟨.found i none, (s.autos k).devList⟩) rfl he]
      by_cases hlevel : e.initLevel = true
      · have hno := hcond hlevel
        rw [hlook] at hno
        rw [if_pos hlevel]
        refine hinv.divided.fresh hno ?_
        rw [hold_resting hresting]
        exact List.Perm.refl _
      · rw [if_neg hlevel]
        refine hinv.divided.shrink ?_ fun y hy => ?_
        · have hnodup := hinv.divided.nodup (.auto k)
          rw [hold_resting hresting] at hnodup
          exact hnodup
        · rw [hold_resting hresting]
          exact hy
    · rcases willTake_phase ht with ⟨i', h⟩ | ⟨i', h⟩
      · rw [setAuto_self] at h
        cases h
      · rw [setAuto_self] at h
        cases h

theorem Inv.collectEntry (hinv : Inv table s) {mem : Bool} (hok : autoAlone table s k mem)
    {dev : Option (Device ν)} (hphase : (s.autos k).phase = .found i dev) {e : TableEntry ν}
    (he : table[i]? = some e) : Inv table (collectEntry s k i e dev mem) := by
  have hown : (s.autos k).owned = (s.autos k).devList := by
    rw [AutoInit.owned, hphase]
  unfold Dt.collectEntry
  dsimp only
  cases dev with
  | some d =>
    dsimp only
    by_cases hskip : s.inited d = true ∨ ¬ e.initLevel = true
    · rw [if_pos hskip]
      exact hinv.rest_plain rfl hown (fun _ _ h => by cases h) fun _ _ h => by cases h
    · rw [if_neg hskip]
      obtain ⟨hinited, hlevel⟩ := not_or.mp hskip
      have huninit : s.inited d = false := by simpa using hinited
      have hlevel' : e.initLevel = true := by simpa using hlevel
      have hwill : WillTake table s k d := Or.inl ⟨i, e, hphase, he, hlevel', huninit⟩
      have hzero : s.inits d = 0 := by
        unfold autoAlone at hok
        rw [hphase] at hok
        exact hok e he hlevel' huninit
      refine hinv.rest rfl hown (fun d' ht => ?_) fun i' d' heq => ?_
      · rcases willTake_phase ht with ⟨i', h⟩ | ⟨i', h⟩
        · rw [setAuto_self] at h
          cases h
        · rw [setAuto_self] at h
          cases h
          exact ⟨hinv.taken k d hwill, fun k' hk ht' => hk (hinv.takenOnce k' k d ht' hwill)⟩
      · cases heq
        exact ⟨hzero, huninit⟩
  | none =>
    dsimp only
    by_cases hmake : e.initLevel = true ∧ mem = true
    · rw [if_pos hmake]
      have hsame : ∀ p, hold table { s.setAuto k ⟨.collect (i + 1), ⟨s.nextAddr, e⟩ ::
          (s.autos k).devList⟩ with nextAddr := s.nextAddr + 1 } p = hold table s p := by
        intro p
        rw [show hold table { s.setAuto k ⟨.collect (i + 1), ⟨s.nextAddr, e⟩ ::
          (s.autos k).devList⟩ with nextAddr := s.nextAddr + 1 } p = hold table (s.setAuto k
            ⟨.collect (i + 1), ⟨s.nextAddr, e⟩ :: (s.autos k).devList⟩) p by cases p <;> rfl,
          hold_setAuto]
        by_cases hp : p = .auto k
        · subst hp
          rw [Function.update_self, hold, making_found hphase he, if_pos hmake.1, hown]
          rfl
        · rw [Function.update_of_ne hp]
      have hnew : ∀ d ∈ (⟨s.nextAddr, e⟩ :: (s.autos k).devList : List (Device ν)),
          s.inits d = 0 ∧ d.addr < s.nextAddr + 1 := by
        intro d hd
        rcases List.mem_cons.mp hd with rfl | hd
        · exact ⟨hinv.fresh _ (Nat.le_refl _), Nat.lt_succ_self _⟩
        · exact ⟨hinv.waiting k d hd, Nat.lt_succ_of_lt (hinv.ownedAddr k d (owned_sub _ hd))⟩
      refine hinv.touched (k := k) (a := ⟨.collect (i + 1), ⟨s.nextAddr, e⟩ :: (s.autos k).devList⟩)
        { autos := rfl, obtained := rfl, nextAddr := Nat.le_succ _, inits := fun _ _ => rfl
          inited := fun _ _ => rfl, initedKept := fun _ h => h, list := fun _ hd => Or.inl hd
          owned := fun d hd _ => Or.inr (List.mem_cons_of_mem _ (hown ▸ hd)) }
        { divided := hinv.divided.congr hsame, taken := fun d ht => ?_, once := hinv.once
          fresh := fun d hd => hinv.fresh d (Nat.le_of_succ_le hd)
          waiting := fun d hd => (hnew d hd).1, uninit := fun _ _ h => by cases h
          listAddr := fun d hd => Nat.lt_succ_of_lt (hinv.listAddr d hd)
          ownedAddr := fun d hd => (hnew d hd).2 }
      rcases willTake_phase ht with ⟨i', h⟩ | ⟨i', h⟩
      · rw [show ({ s.setAuto k ⟨.collect (i + 1), ⟨s.nextAddr, e⟩ :: (s.autos k).devList⟩ with
          nextAddr := s.nextAddr + 1 } : World ν).autos k = ⟨.collect (i + 1), ⟨s.nextAddr, e⟩ ::
            (s.autos k).devList⟩ from setAuto_self _] at h
        cases h
      · rw [show ({ s.setAuto k ⟨.collect (i + 1), ⟨s.nextAddr, e⟩ :: (s.autos k).devList⟩ with
          nextAddr := s.nextAddr + 1 } : World ν).autos k = ⟨.collect (i + 1), ⟨s.nextAddr, e⟩ ::
            (s.autos k).devList⟩ from setAuto_self _] at h
        cases h
    · rw [if_neg hmake]
      exact hinv.rest_plain rfl hown (fun _ _ h => by cases h) fun _ _ h => by cases h

/-- The device goes from the global list to the private one. -/
theorem Inv.take (hinv : Inv table s) {d : Device ν} (hphase : (s.autos k).phase = .take i d) :
    Inv table { s.setAuto k ⟨.collect (i + 1), d :: (s.autos k).devList⟩ with
      devList := s.devList.erase d } := by
  have hresting : (s.autos k).phase.resting = true := by
    rw [hphase]
    rfl
  have hwill : WillTake table s k d := Or.inr ⟨i, hphase⟩
  have hlist := hinv.taken k d hwill
  have huninit := hinv.uninit k i d hphase
  have hown := owned_resting hresting
  have hauto : ({ s.setAuto k ⟨.collect (i + 1), d :: (s.autos k).devList⟩ with
      devList := s.devList.erase d } : World ν).autos k = ⟨.collect (i + 1),
        d :: (s.autos k).devList⟩ := setAuto_self _
  refine hinv.touched (k := k) (a := ⟨.collect (i + 1), d :: (s.autos k).devList⟩)
    { autos := rfl, obtained := rfl, nextAddr := Nat.le_refl _, inits := fun _ _ => rfl
      inited := fun _ _ => rfl, initedKept := fun _ h => h, list := fun e he => ?_
      owned := fun e he _ => Or.inr (List.mem_cons_of_mem _ (hown ▸ he)) }
    { divided := ?_, taken := fun e ht => ?_, once := hinv.once, fresh := hinv.fresh
      waiting := fun e he => ?_, uninit := fun _ _ h => by cases h
      listAddr := fun e he => hinv.listAddr e (List.mem_of_mem_erase he)
      ownedAddr := fun e he => ?_ }
  · by_cases hed : e = d
    · rw [hed]
      exact Or.inr ⟨List.mem_cons_self, fun k' hk ht => hk (hinv.takenOnce k' k d ht hwill)⟩
    · exact Or.inl ((List.mem_erase_of_ne hed).mpr he)
  · have hlisted : (hold table s .list).Perm (d.name :: (s.devList.erase d).map Device.name) :=
      perm_erase_names hlist
    have hmove := hinv.divided.move (p := .list) (q := .auto k) (by simp) hlisted (List.Perm.refl _)
    refine hmove.congr fun p => ?_
    cases p with
    | list => rfl
    | get j => rfl
    | auto k' =>
      by_cases hk : k' = k
      · subst hk
        rw [Function.update_self, hold, hauto, hold_resting hresting]
        rfl
      · rw [Function.update_of_ne (fun h => hk (by cases h; rfl)), Function.update_of_ne (by simp),
          hold, hold]
        dsimp only
        rw [setAuto_of_ne hk]
  · rcases willTake_phase ht with ⟨i', h⟩ | ⟨i', h⟩
    · rw [hauto] at h
      cases h
    · rw [hauto] at h
      cases h
  · rcases List.mem_cons.mp he with rfl | he
    · exact huninit.1
    · exact hinv.waiting k e he
  · rcases List.mem_cons.mp he with rfl | he
    · exact hinv.listAddr e hlist
    · exact hinv.ownedAddr k e (owned_sub _ he)

/-- Without memory for the array the private list is dropped; nobody has what is on it. -/
theorem Inv.drop (hinv : Inv table s) (hphase : (s.autos k).phase = .array)
    (hnobody : ∀ d ∈ (s.autos k).devList, d ∉ s.obtained) : Inv table (s.setAuto k ⟨.idle, []⟩) := by
  have hown : (s.autos k).owned = (s.autos k).devList := by
    rw [AutoInit.owned, hphase]
  refine hinv.goto (fun d hd => by cases hd) (fun d hd hobt => ?_) ?_ (fun d hd => by cases hd)
    (fun d ht => ?_) fun _ _ h => by cases h
  · rw [hown] at hd
    exact absurd hobt (hnobody d hd)
  · rw [hold_setAuto]
    exact hinv.divided.shrink List.nodup_nil fun y hy => by cases hy
  · rcases willTake_phase ht with ⟨i', h⟩ | ⟨i', h⟩
    · rw [setAuto_self] at h
      cases h
    · rw [setAuto_self] at h
      cases h

/-- The next device of the array, its `init` called or not. -/
theorem Inv.pick (hinv : Inv table s) (hphase : (s.autos k).phase = .sorted) {d : Device ν}
    (hd : d ∈ (s.autos k).devList) (called : Bool) {phase : Phase ν}
    (hnext : phase = if called then .initing d else .insert d) {inits : Device ν → Nat}
    (hinits : inits = if called then Function.update s.inits d (s.inits d + 1) else s.inits) :
    Inv table { s.setAuto k ⟨phase, (s.autos k).devList.erase d⟩ with inits := inits } := by
  have hresting : (s.autos k).phase.resting = true := by
    rw [hphase]
    rfl
  have hown := owned_resting hresting
  have hnew : (AutoInit.mk phase ((s.autos k).devList.erase d)).owned =
      d :: (s.autos k).devList.erase d := by
    rw [hnext]
    cases called <;> rfl
  have hmaking : (AutoInit.mk phase ((s.autos k).devList.erase d)).making table = [] := by
    rw [hnext]
    cases called <;> rfl
  have hauto : ({ s.setAuto k ⟨phase, (s.autos k).devList.erase d⟩ with inits := inits } :
      World ν).autos k = ⟨phase, (s.autos k).devList.erase d⟩ := setAuto_self _
  have hnames : ((s.autos k).devList.map Device.name).Nodup := by
    have hnodup := hinv.divided.nodup (.auto k)
    rw [hold_resting hresting] at hnodup
    exact hnodup
  have hzero : ∀ e ∈ (s.autos k).devList, e ≠ d → inits e = 0 := by
    intro e he hne
    rw [hinits]
    cases called with
    | false => exact hinv.waiting k e he
    | true =>
      rw [if_pos rfl, Function.update_of_ne hne]
      exact hinv.waiting k e he
  have hnot : ∀ e ∈ (s.autos k).devList.erase d, e ∈ (s.autos k).devList ∧ e ≠ d := by
    intro e he
    refine ⟨List.mem_of_mem_erase he, fun heq => ?_⟩
    rw [heq] at he
    exact (List.Nodup.of_map _ hnames).not_mem_erase he
  have hsame : ∀ e, e ≠ d → inits e = s.inits e := by
    intro e hne
    rw [hinits]
    cases called with
    | false => rfl
    | true => exact Function.update_of_ne hne ..
  have hself : inits d ≤ 1 := by
    rw [hinits]
    cases called with
    | false => exact hinv.once d
    | true =>
      exact Nat.le_of_eq (by rw [if_pos rfl, Function.update_self, hinv.waiting k d hd])
  have hsub : ∀ e ∈ d :: (s.autos k).devList.erase d, e ∈ (s.autos k).devList := fun e he =>
    (List.perm_cons_erase hd).mem_iff.mpr he
  refine hinv.touched (k := k) (a := ⟨phase, (s.autos k).devList.erase d⟩)
    { autos := rfl, obtained := rfl, nextAddr := Nat.le_refl _
      inits := fun e he => hsame e fun heq => he (by rw [heq, hown]; exact hd)
      inited := fun _ _ => rfl, initedKept := fun _ h => h, list := fun _ he => Or.inl he
      owned := fun e he _ => Or.inr ?_ }
    { divided := ?_, taken := fun e ht => ?_, once := fun e => ?_, fresh := fun e he => ?_
      waiting := fun e he => hzero e (hnot e he).1 (hnot e he).2, uninit := fun i' e h => ?_
      listAddr := hinv.listAddr
      ownedAddr := fun e he => hinv.ownedAddr k e ?_ }
  · rw [hnew]
    rw [hown] at he
    exact (List.perm_cons_erase hd).mem_iff.mp he
  · have hhold : hold table { s.setAuto k ⟨phase, (s.autos k).devList.erase d⟩ with
        inits := inits } = hold table (s.setAuto k ⟨phase, (s.autos k).devList.erase d⟩) := by
      funext p
      cases p <;> rfl
    have hperm := perm_erase_names hd
    rw [hhold, hold_setAuto, hmaking, hnew, List.nil_append]
    refine hinv.divided.shrink (hperm.nodup_iff.mp hnames) fun y hy => ?_
    rw [hold_resting hresting]
    exact hperm.mem_iff.mpr hy
  · rcases willTake_phase ht with ⟨i', h⟩ | ⟨i', h⟩
    · rw [hauto, hnext] at h
      cases called <;> cases h
    · rw [hauto, hnext] at h
      cases called <;> cases h
  · by_cases hed : e = d
    · rw [hed]
      exact hself
    · exact le_of_eq_of_le (hsame e hed) (hinv.once e)
  · have hne : e ≠ d := fun heq => by
      have hlt := hinv.ownedAddr k d (owned_sub _ hd)
      rw [heq] at he
      exact Nat.lt_irrefl _ (Nat.lt_of_lt_of_le hlt he)
    exact (hsame e hne).trans (hinv.fresh e he)
  · rw [hnext] at h
    cases called <;> cases h
  · rw [hnew] at he
    rw [hown]
    exact hsub e he

/-- The driver's `init` ends. -/
theorem Inv.ended (hinv : Inv table s) {d : Device ν} (ok : Bool)
    (hphase : (s.autos k).phase = .initing d) :
    Inv table { s.setAuto k { s.autos k with phase := .insert d } with
      inited := Function.update s.inited d (s.inited d || ok) } := by
  have hown : (s.autos k).owned = d :: (s.autos k).devList := by
    rw [AutoInit.owned, hphase]
  have hmem : d ∈ (s.autos k).owned := by
    rw [hown]
    exact List.mem_cons_self
  have hmaking : (s.autos k).making table = [] := by
    rw [AutoInit.making, hphase]
  have hother : ∀ e, e ≠ d → Function.update s.inited d (s.inited d || ok) e = s.inited e :=
    fun e he => Function.update_of_ne he ..
  have hauto : ({ s.setAuto k { s.autos k with phase := .insert d } with
      inited := Function.update s.inited d (s.inited d || ok) } : World ν).autos k =
        { s.autos k with phase := .insert d } := setAuto_self _
  refine hinv.touched (k := k) (a := { s.autos k with phase := .insert d })
    { autos := rfl, obtained := rfl, nextAddr := Nat.le_refl _, inits := fun _ _ => rfl
      inited := fun e he => hother e fun heq => he (heq ▸ hmem)
      initedKept := fun e he => ?_, list := fun _ he => Or.inl he
      owned := fun e he _ => Or.inr (by rw [hown] at he; exact he) }
    { divided := hinv.divided.congr fun p => ?_, taken := fun e ht => ?_, once := hinv.once
      fresh := hinv.fresh, waiting := hinv.waiting k, uninit := fun _ _ h => by cases h
      listAddr := hinv.listAddr, ownedAddr := fun e he => hinv.ownedAddr k e (by rw [hown]; exact he) }
  · have he' : Function.update s.inited d (s.inited d || ok) e = false := he
    by_cases hed : e = d
    · rw [hed, Function.update_self, Bool.or_eq_false_iff] at he'
      rw [hed]
      exact he'.1
    · rw [hother e hed] at he'
      exact he'
  · cases p with
    | list => rfl
    | get j => rfl
    | auto k' =>
      by_cases hk : k' = k
      · subst hk
        rw [hold, hold, hauto, hmaking, hown]
        rfl
      · rw [hold, hold]
        dsimp only
        rw [setAuto_of_ne hk]
  · rcases willTake_phase ht with ⟨i', h⟩ | ⟨i', h⟩
    · rw [hauto] at h
      cases h
    · rw [hauto] at h
      cases h

/-- The device goes to the global list. -/
theorem Inv.inserted (hinv : Inv table s) {d : Device ν} (hphase : (s.autos k).phase = .insert d) :
    Inv table { s.setAuto k { s.autos k with phase := .sorted } with
      devList := d :: s.devList } := by
  have hown : (s.autos k).owned = d :: (s.autos k).devList := by
    rw [AutoInit.owned, hphase]
  have hmaking : (s.autos k).making table = [] := by
    rw [AutoInit.making, hphase]
  have hauto : ({ s.setAuto k { s.autos k with phase := .sorted } with
      devList := d :: s.devList } : World ν).autos k = { s.autos k with phase := .sorted } :=
    setAuto_self _
  refine hinv.touched (k := k) (a := { s.autos k with phase := .sorted })
    { autos := rfl, obtained := rfl, nextAddr := Nat.le_refl _, inits := fun _ _ => rfl
      inited := fun _ _ => rfl, initedKept := fun _ h => h
      list := fun e he => Or.inl (List.mem_cons_of_mem d he), owned := fun e he _ => ?_ }
    { divided := ?_, taken := fun e ht => ?_, once := hinv.once, fresh := hinv.fresh
      waiting := hinv.waiting k, uninit := fun _ _ h => (by cases h), listAddr := fun e he => ?_
      ownedAddr := fun e he => hinv.ownedAddr k e (owned_sub _ he) }
  · rw [hown] at he
    rcases List.mem_cons.mp he with rfl | he
    · exact Or.inl List.mem_cons_self
    · exact Or.inr he
  · have hholds : (hold table s (.auto k)).Perm (d.name :: (s.autos k).devList.map Device.name) := by
      rw [hold, hmaking, hown]
      exact List.Perm.refl _
    have hmove := hinv.divided.move (p := .auto k) (q := .list) (by simp) hholds (List.Perm.refl _)
    refine hmove.congr fun p => ?_
    cases p with
    | list => rfl
    | get j => rfl
    | auto k' =>
      by_cases hk : k' = k
      · subst hk
        rw [Function.update_of_ne (by simp), Function.update_self, hold, hauto]
        rfl
      · rw [Function.update_of_ne (by simp), Function.update_of_ne (fun h => hk (by cases h; rfl)),
          hold, hold]
        dsimp only
        rw [setAuto_of_ne hk]
  · rcases willTake_phase ht with ⟨i', h⟩ | ⟨i', h⟩
    · rw [hauto] at h
      cases h
    · rw [hauto] at h
      cases h
  · rcases List.mem_cons.mp he with rfl | he
    · exact hinv.ownedAddr k e (by rw [hown]; exact List.mem_cons_self)
    · exact hinv.listAddr e he

theorem Inv.autoStep (hinv : Inv table s) {mem ok : Bool} {next : Device ν}
    (hok : autoAlone table s k mem) (h : autoStep table s k mem ok next = some s') :
    Inv table s' := by
  unfold Dt.autoStep at h
  dsimp only at h
  cases hphase : (s.autos k).phase with
  | idle =>
    rw [hphase] at h
    cases h
  | collect i =>
    rw [hphase] at h
    dsimp only at h
    cases he : table[i]? with
    | some e =>
      rw [he] at h
      cases h
      exact hinv.collect hok hphase he
    | none =>
      rw [he] at h
      cases h
      have hown : (s.autos k).owned = (s.autos k).devList := by
        rw [AutoInit.owned, hphase]
      by_cases hnil : (s.autos k).devList = []
      · rw [if_pos hnil]
        exact hinv.rest_plain rfl hown (fun _ _ h => by cases h) fun _ _ h => by cases h
      · rw [if_neg hnil]
        exact hinv.rest_plain rfl hown (fun _ _ h => by cases h) fun _ _ h => by cases h
  | found i dev =>
    rw [hphase] at h
    dsimp only at h
    cases he : table[i]? with
    | some e =>
      rw [he] at h
      cases h
      exact hinv.collectEntry hok hphase he
    | none =>
      rw [he] at h
      cases h
  | take i d =>
    rw [hphase] at h
    cases h
    exact hinv.take hphase
  | array =>
    rw [hphase] at h
    dsimp only at h
    by_cases hmem : mem = true
    · rw [if_pos hmem] at h
      cases h
      have hown : (s.autos k).owned = (s.autos k).devList := by
        rw [AutoInit.owned, hphase]
      exact hinv.rest_plain rfl hown (fun _ _ h => by cases h) fun _ _ h => by cases h
    · rw [if_neg hmem] at h
      cases h
      unfold autoAlone at hok
      rw [hphase] at hok
      exact hinv.drop hphase (hok.resolve_left hmem)
  | sorted =>
    rw [hphase] at h
    dsimp only at h
    have hown : (s.autos k).owned = (s.autos k).devList := by
      rw [AutoInit.owned, hphase]
    by_cases hnil : (s.autos k).devList = []
    · rw [if_pos hnil] at h
      cases h
      exact hinv.rest_plain rfl hown (fun _ _ h => by cases h) fun _ _ h => by cases h
    · rw [if_neg hnil] at h
      by_cases hhigh : highest (s.autos k).devList next = true
      · rw [if_pos hhigh] at h
        have hnext : next ∈ (s.autos k).devList := (of_decide_eq_true hhigh).1
        by_cases hinit : next.entry.initLevel = true ∧ next.entry.hasInit = true
        · rw [if_pos hinit] at h
          cases h
          exact hinv.pick hphase hnext true rfl rfl
        · rw [if_neg hinit] at h
          cases h
          exact hinv.pick hphase hnext false rfl rfl
      · rw [if_neg hhigh] at h
        cases h
  | initing d =>
    rw [hphase] at h
    cases h
    exact hinv.ended ok hphase
  | insert d =>
    rw [hphase] at h
    cases h
    exact hinv.inserted hphase

end AutoSteps

section Calls
variable {table : List (TableEntry ν)} {s s' : World ν}

/-- Nothing changes but who holds which name, the list and what has been returned. -/
theorem Inv.relist (hinv : Inv table s) {devList obtained : List (Device ν)} {nextAddr : Nat}
    {gets : Nat → Option (TableEntry ν)}
    (hdiv : Divided (hold table { s with
      devList := devList, obtained := obtained, nextAddr := nextAddr, gets := gets }))
    (htaken : ∀ k d, WillTake table s k d → d ∈ devList)
    (hobt : ∀ d ∈ obtained, d ∈ devList ∨ ∃ k, d ∈ (s.autos k).owned)
    (hnext : s.nextAddr ≤ nextAddr) (haddr : ∀ d ∈ devList, d.addr < nextAddr) :
    Inv table { s with
      devList := devList, obtained := obtained, nextAddr := nextAddr, gets := gets } :=
  { divided := hdiv, taken := htaken, takenOnce := hinv.takenOnce, obtained := hobt
    once := hinv.once, fresh := fun d hd => hinv.fresh d (Nat.le_trans hnext hd)
    waiting := hinv.waiting, uninit := hinv.uninit, listAddr := haddr
    ownedAddr := fun k d hd => Nat.lt_of_lt_of_le (hinv.ownedAddr k d hd) hnext }

theorem Inv.getDevice (hinv : Inv table s) {j : Nat} {name : ν} (hfree : s.gets j = none)
    (hok : alone table s (.get j name)) : Inv table (getDevice table s j name) := by
  unfold Dt.getDevice
  cases hlook : lookup s.devList name with
  | some d =>
    dsimp only
    refine hinv.relist (hinv.divided.congr fun p => by cases p <;> rfl) hinv.taken (fun e he => ?_)
      (Nat.le_refl _) hinv.listAddr
    rcases List.mem_cons.mp he with rfl | he
    · exact Or.inl (lookup_some hlook).1
    · exact hinv.obtained e he
  | none =>
    dsimp only
    refine hinv.relist ?_ hinv.taken hinv.obtained (Nat.le_refl _) hinv.listAddr
    have hempty : hold table s (.get j) = [] := by
      rw [hold, hfree]
      rfl
    rw [hold_gets]
    cases hfind : table.find? fun e => e.devName = name with
    | none => exact hinv.divided.shrink List.nodup_nil fun y hy => by cases hy
    | some e =>
      have hname : e.devName = name := by simpa using List.find?_some hfind
      have hno := hok hlook ⟨e, List.mem_of_find?_eq_some hfind, hname⟩
      rw [← hname] at hno
      refine hinv.divided.fresh hno ?_
      rw [hempty]
      exact List.Perm.refl _

theorem Inv.addDevice (hinv : Inv table s) {j : Nat} {e : TableEntry ν} (hget : s.gets j = some e)
    (mem : Bool) : Inv table (addDevice s j e mem) := by
  have hholds : hold table s (.get j) = [e.devName] := by
    rw [hold, hget]
    rfl
  unfold Dt.addDevice
  cases mem with
  | false =>
    rw [if_neg Bool.false_ne_true]
    refine hinv.relist ?_ hinv.taken hinv.obtained (Nat.le_refl _) hinv.listAddr
    rw [hold_gets]
    exact hinv.divided.shrink List.nodup_nil fun y hy => by cases hy
  | true =>
    rw [if_pos rfl]
    refine hinv.relist ?_ (fun k d ht => List.mem_cons_of_mem _ (hinv.taken k d ht)) (fun d hd => ?_)
      (Nat.le_succ _) fun d hd => ?_
    · have hperm : (hold table s (.get j)).Perm (e.devName :: []) := by rw [hholds]
      have hmove := hinv.divided.move (p := .get j) (q := .list) (by simp) hperm (List.Perm.refl _)
      refine hmove.congr fun p => ?_
      cases p with
      | list => rfl
      | get j' =>
        rw [Function.update_of_ne (by simp)]
        by_cases hj : j' = j
        · subst hj
          rw [Function.update_self, hold]
          dsimp only
          rw [Function.update_self]
          rfl
        · rw [Function.update_of_ne (fun h => hj (by cases h; rfl)), hold, hold]
          dsimp only
          rw [Function.update_of_ne hj]
      | auto k => rfl
    · rcases List.mem_cons.mp hd with rfl | hd
      · exact Or.inl List.mem_cons_self
      · rcases hinv.obtained d hd with hd | hd
        · exact Or.inl (List.mem_cons_of_mem _ hd)
        · exact Or.inr hd
    · rcases List.mem_cons.mp hd with rfl | hd
      · exact Nat.lt_succ_self _
      · exact Nat.lt_succ_of_lt (hinv.listAddr d hd)

theorem WillTake.looksAt {k : Nat} {d : Device ν} (h : WillTake table s k d) : LooksAt s k d := by
  rcases h with ⟨i, e, hphase, -⟩ | htake
  · exact Or.inl ⟨i, hphase⟩
  · exact Or.inr htake

theorem Inv.freeDevice (hinv : Inv table s) {d : Device ν} (hd : d ∈ s.devList)
    (hfree : ∀ k, ¬ LooksAt s k d) : Inv table (freeDevice s d) := by
  have hperm := perm_erase_names hd
  have hnames : (d.name :: (s.devList.erase d).map Device.name).Nodup :=
    hperm.nodup_iff.mp (hinv.divided.nodup .list)
  refine hinv.relist ?_ (fun k e ht => ?_) (fun e he => ?_) (Nat.le_refl _)
    fun e he => hinv.listAddr e (List.mem_of_mem_erase he)
  · have hlist : hold table { s with devList := s.devList.erase d } = _ := hold_devList _
    have hsub : ∀ y ∈ (s.devList.erase d).map Device.name, y ∈ hold table s .list := fun y hy =>
      hperm.mem_iff.mpr (List.mem_cons_of_mem _ hy)
    refine (hinv.divided.shrink (List.nodup_cons.mp hnames).2 hsub).congr fun p => ?_
    rw [← hlist]
    cases p <;> rfl
  · have hne : e ≠ d := fun heq => hfree k (heq ▸ ht.looksAt)
    exact (List.mem_erase_of_ne hne).mpr (hinv.taken k e ht)
  · obtain ⟨he, hname⟩ := List.mem_filter.mp he
    rcases hinv.obtained e he with he | he
    · have hne : e ≠ d := fun heq => by
        rw [heq] at hname
        simp at hname
      exact Or.inl ((List.mem_erase_of_ne hne).mpr he)
    · exact Or.inr he

theorem Inv.freeAll : ∀ {l : List (Device ν)} {s : World ν}, Inv table s → l.Nodup →
    (∀ d ∈ l, d ∈ s.devList) → (∀ d ∈ l, ∀ k, ¬ LooksAt s k d) →
    Inv table (l.foldl Dt.freeDevice s) := by
  intro l
  induction l with
  | nil => exact fun hinv _ _ _ => hinv
  | cons d l ih =>
    intro s hinv hnodup hmem hfree
    obtain ⟨hnot, hrest⟩ := List.nodup_cons.mp hnodup
    have hnext := hinv.freeDevice (hmem d List.mem_cons_self) (hfree d List.mem_cons_self)
    refine ih hnext hrest (fun e he => ?_) fun e he k hlook => ?_
    · have hne : e ≠ d := fun heq => hnot (heq ▸ he)
      exact (List.mem_erase_of_ne hne).mpr (hmem e (List.mem_cons_of_mem d he))
    · exact hfree e (List.mem_cons_of_mem d he) k hlook

theorem Inv.autoInit (hinv : Inv table s) {k : Nat} (hidle : s.autos k = ⟨.idle, []⟩) :
    Inv table (s.setAuto k ⟨.collect 0, []⟩) := by
  have hgoto : Inv table (s.setAuto k { s.autos k with phase := .collect 0 }) :=
    hinv.rest_plain rfl (by rw [hidle]; rfl) (fun _ _ h => by cases h) fun _ _ h => by cases h
  rw [hidle] at hgoto
  exact hgoto

theorem Inv.step (hinv : Inv table s) {e : Event ν} (hok : alone table s e)
    (h : step table s e = some s') : Inv table s' := by
  unfold Dt.step at h
  cases e with
  | get j name =>
    dsimp only at h
    by_cases hfree : s.gets j = none
    · rw [if_pos hfree] at h
      cases h
      exact hinv.getDevice hfree hok
    · rw [if_neg hfree] at h
      cases h
  | add j mem =>
    obtain ⟨e, he, rfl⟩ := Option.map_eq_some_iff.mp h
    exact hinv.addDevice he mem
  | freeByName name =>
    dsimp only at h
    cases hlook : lookup s.devList name with
    | some d =>
      rw [hlook] at h
      cases h
      exact hinv.freeDevice (lookup_some hlook).1 (hok d hlook)
    | none =>
      rw [hlook] at h
      cases h
      exact hinv
  | free d =>
    dsimp only at h
    by_cases hd : d ∈ s.devList
    · rw [if_pos hd] at h
      cases h
      exact hinv.freeDevice hd hok
    · rw [if_neg hd] at h
      cases h
      exact hinv
  | freeAll =>
    cases h
    exact Inv.freeAll hinv (List.Nodup.of_map _ (hinv.divided.nodup .list)) (fun d hd => hd) hok
  | autoInit k =>
    dsimp only at h
    split at h
    · cases h
      exact hinv.autoInit ‹_›
    · cases h
  | auto k mem ok next => exact hinv.autoStep hok h

theorem Init.hold_nil (h : Init s) (p : Holder) : hold table s p = [] := by
  obtain ⟨hlist, hgets, hautos, -⟩ := h
  cases p with
  | list =>
    rw [hold, hlist]
    rfl
  | get j =>
    rw [hold, hgets]
    rfl
  | auto k =>
    rw [hold, hautos]
    rfl

theorem Init.inv (h : Init s) : Inv table s := by
  have hnone : ∀ p, hold table s p = [] := h.hold_nil
  obtain ⟨hlist, hgets, hautos, hinits, hobt⟩ := h
  have hquiet : ∀ k d, ¬ WillTake table s k d := by
    intro k d ht
    rcases willTake_phase ht with ⟨i, h⟩ | ⟨i, h⟩
    · rw [hautos] at h
      cases h
    · rw [hautos] at h
      cases h
  refine ⟨⟨fun p => ?_, fun p q x hx => ?_⟩, fun k d ht => absurd ht (hquiet k d),
    fun k _ d ht => absurd ht (hquiet k d), fun d hd => ?_, fun d => ?_, fun d _ => hinits d,
    fun k d hd => hinits d, fun k i d h => ?_, fun d hd => ?_, fun k d hd => ?_⟩
  · rw [hnone]
    exact List.nodup_nil
  · rw [hnone] at hx
    cases hx
  · rw [hobt] at hd
    cases hd
  · rw [hinits]
    exact Nat.zero_le 1
  · rw [hautos] at h
    cases h
  · rw [hlist] at hd
    cases hd
  · rw [hautos] at hd
    cases hd

/-- While no two makers of a device meet, a name has one node, all who ask get the same device and its
`init` runs once. -/
theorem device_unique (h : Reached Init (step table) (alone table) s) : Unique s := by
  have hinv : Inv table s := h.invariant (fun _ hs => hs.inv) fun _ _ _ hi hok hs => hi.step hok hs
  exact hinv.unique

end Calls

section Example

def emptyWorld : World Nat :=
  ⟨0, [], fun _ => false, fun _ => none, fun _ => ⟨.idle, []⟩, fun _ => 0, []⟩

theorem emptyWorld_init : Init emptyWorld :=
  ⟨rfl, fun _ => rfl, fun _ => rfl, fun _ => rfl, rfl⟩

/-- A table of one device that is initialised at the start. -/
def oneDevice : List (TableEntry Nat) := [⟨7, true, 0, true⟩]

def device (addr : Nat) : Device Nat := ⟨addr, ⟨7, true, 0, true⟩⟩

/-- A lookup makes the device, another one finds it. -/
theorem device_unique_twoLookups :
    ∃ s, exec (step oneDevice) emptyWorld [.get 0 7, .add 0 true, .get 1 7] = some s ∧
      s.obtained = [device 0, device 0] ∧ Unique s := by
  have hrun : (exec (step oneDevice) emptyWorld [.get 0 7, .add 0 true, .get 1 7]).map
      World.obtained = some [device 0, device 0] := by decide +kernel
  have halong : Along (step oneDevice) (alone oneDevice) emptyWorld
      [.get 0 7, .add 0 true, .get 1 7] := by
    refine ⟨fun _ _ p => ?_, fun s hs => ⟨trivial, fun s' hs' => ⟨fun hnone => ?_, fun _ _ => trivial⟩⟩⟩
    · rw [emptyWorld_init.hold_nil]
      exact List.not_mem_nil
    · cases hs
      cases hs'
      cases hnone
  obtain ⟨s, hs, hobt⟩ := Option.map_eq_some_iff.mp hrun
  exact ⟨s, hs, hobt, device_unique (.of_exec (.start emptyWorld_init) halong hs)⟩

/-- Two lookups miss before either adds its node; and a driver's `init` that looks its own device up
makes a second node for it. -/
theorem device_twice :
    (∃ s, Reached Init (step oneDevice) anyStep s ∧ s.devList = [device 1, device 0] ∧
      s.obtained = [device 1, device 0]) ∧
    ∃ s, Reached Init (step oneDevice) anyStep s ∧ s.devList = [device 0, device 1] := by
  constructor
  · have hrun : (exec (step oneDevice) emptyWorld [.get 0 7, .get 1 7, .add 0 true, .add 1 true]).map
        (fun s => (s.devList, s.obtained)) =
        some ([device 1, device 0], [device 1, device 0]) := by decide +kernel
    obtain ⟨s, hs, hfinal⟩ := Option.map_eq_some_iff.mp hrun
    rw [Prod.mk.injEq] at hfinal
    exact ⟨s, .of_exec (.start emptyWorld_init) (along_anyStep _ _) hs, hfinal⟩
  · have hrun : (exec (step oneDevice) emptyWorld ([.autoInit 0] ++
        List.replicate 5 (.auto 0 true true (device 0)) ++ [.get 0 7, .add 0 true] ++
        List.replicate 3 (.auto 0 true true (device 0)))).map World.devList =
        some [device 0, device 1] := by decide +kernel
    obtain ⟨s, hs, hfinal⟩ := Option.map_eq_some_iff.mp hrun
    exact ⟨s, .of_exec (.start emptyWorld_init) (along_anyStep _ _) hs, hfinal⟩

end Example

end WmIot.Dt
