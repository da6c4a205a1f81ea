import WmIot.Lib.Keyed
import WmIot.Nvs.GroupDeletion
import WmIot.Nvs.Linear

/-!
# Plain values are a finite map

A store whose items all hold plain values, no blobs, is a finite map from group and key to type and
data. Lookups go by a hash and compare prefixes, a write appends and erases the old copy, and the
collections in between move the items around; over every run the answers are those of the map.
-/

namespace WmIot.Nvs
open NorFlash Keyed Picking
set_option autoImplicit false

/-- The group and the key of an item. -/
def Item.identity (it : Item) : Byte × List Byte := (it.groupId.setWidth 8, it.key)

/-- The type code and the data of a record. -/
def Record.value (r : Record) : BitVec 4 × List Byte := (r.1.type, r.2)

/-- Group and key to type code and data. -/
abbrev ValueMap := Byte × List Byte → Option (BitVec 4 × List Byte)

/-- An item that `wm_nvs_item_init` made for a value other than a blob. -/
structure Item.Plain (it : Item) : Prop where
  name : it.name = nameField it.key
  recv : it.recv1 = 0
  seg : it.segId = segIdAny
  notBlob : it.type ≠ NvsType.blob.code
  notSeg : it.type ≠ NvsType.blobSeg.code

/-- The types whose values are one item. -/
def NvsType.IsPlain (t : NvsType) : Prop := t.IsValue ∧ t ≠ .blob

instance (t : NvsType) : Decidable t.IsPlain := inferInstanceAs (Decidable (_ ∧ _))

/-- The hash of a key in a group. -/
def keyHash (P : Port) (g : Byte) (key : List Byte) : BitVec 24 :=
  itemCrcHash P ((keyQuery g .any key).probe P key)

/-- No key of a group goes on where another one ends and has its hash. -/
def NoClash (P : Port) (K : Set (Byte × List Byte)) : Prop :=
  ∀ g key key', (g, key) ∈ K → (g, key') ∈ K → key.IsPrefix key' → keyHash P g key = keyHash P g key' → key = key'

/-- What a lookup for type `t` makes of the type code `c`. -/
def NvsType.takes (t : NvsType) (c : BitVec 4) : Bool :=
  (t.code == NvsType.any.code || t.code == c) || (t.code == NvsType.anyWithoutSeg.code && c != NvsType.blobSeg.code)

/-- The store holds the entries of `m`, under keys of `K`. -/
structure HoldsMap (P : Port) (K : Set (Byte × List Byte)) (st : Store) (m : ValueMap) : Prop where
  tidy : Tidy P st
  plain : ∀ r ∈ st.records, r.1.Plain
  used : ∀ r ∈ st.records, r.1.identity ∈ K
  entries : Represents (fun r : Record => r.1.identity) Record.value st.records m

/-! ## Names -/

section Names
variable {P : Port} {g : Byte} {t : NvsType} {key data : List Byte}

theorem nameField_key (h : IsKey key) : (nameField key).toList.takeWhile (· ≠ 0) = key := by
  have hlen := h.le
  have hchars : ∀ c ∈ key, c ≠ 0 := by
    rintro c hc rfl
    exact h.chars hc
  have hlist : (nameField key).toList =
      key ++ if key.length < 15 then 0#8 :: List.replicate (14 - key.length) 0xff#8 else [] := by
    apply List.ext_getElem
    · rw [Vector.length_toList, List.length_append]
      split
      · simp only [List.length_cons, List.length_replicate, maxKeyLen]
        omega
      · simp only [List.length_nil, maxKeyLen] at *
        omega
    · intro i hi hi'
      have hi15 : i < 15 := by rwa [Vector.length_toList] at hi
      simp only [nameField, Vector.getElem_toList, Vector.getElem_ofFn, strnlen_eq_length h.chars h.le]
      by_cases hik : i < key.length
      · rw [if_pos hik, List.getElem_append_left hik, List.getD_eq_getElem _ _ hik]
      · rw [if_neg hik, List.getElem_append_right (Nat.le_of_not_lt hik)]
        have hshort : key.length < 15 := by omega
        simp only [if_pos hshort, List.getElem_cons]
        by_cases heq : i = key.length
        · rw [if_pos heq, dif_pos (by omega)]
          rfl
        · rw [if_neg heq, dif_neg (by omega), List.getElem_replicate]
  rw [hlist, List.takeWhile_append_of_pos (by simpa using hchars)]
  split <;> simp

theorem newItem_plain (hkey : IsKey key) (ht : t.IsPlain) : (newItem P g t key data segIdAny).Plain := by
  have hname : (newItem P g t key data segIdAny).key = key := by
    unfold Item.key newItem
    rw [itemInit_name]
    exact nameField_key hkey
  refine ⟨?_, itemInit_recv1 .., itemInit_segId .., ?_, ?_⟩
  · rw [hname]
    exact itemInit_name ..
  · rw [newItem, itemInit_type]
    exact fun h => ht.2 (NvsType.code_injective h)
  · rw [newItem, itemInit_type]
    exact fun h => ht.1.2.1 (NvsType.code_injective h)

theorem newItem_identity (hkey : IsKey key) (hg : g.toNat < 64) :
    (newItem P g t key data segIdAny).identity = (g, key) := by
  apply Prod.ext
  · show ((newItem P g t key data segIdAny).groupId.setWidth 8 : Byte) = g
    rw [newItem, itemInit_groupId]
    apply BitVec.eq_of_toNat_eq
    simp only [BitVec.toNat_setWidth]
    omega
  · show (newItem P g t key data segIdAny).key = key
    unfold Item.key newItem
    rw [itemInit_name]
    exact nameField_key hkey

end Names

/-! ## Lookups -/

section Lookups
variable {P : Port} {K : Set (Byte × List Byte)} {st : Store} {m : ValueMap} {g : Byte} {t : NvsType}
  {key : List Byte} {p : Place}

theorem places_records (st : Store) : st.places.map (fun p => (p.item, p.data)) = st.records := by
  rw [Store.places, Store.records, List.map_flatMap]
  apply List.flatMap_congr
  intro s _
  rw [Store.placesOf, Store.sectorRecords, recordsOf, List.map_map]
  rfl

theorem mem_records_of_place (hp : p ∈ st.places) : (p.item, p.data) ∈ st.records := by
  rw [← places_records]
  exact List.mem_map.mpr ⟨p, hp, rfl⟩

theorem entryData_length (f : Flash) (addr : Nat) (x : Entry) :
    (entryData f addr x).length = x.2.length.toNat := by
  unfold entryData
  split
  · rw [List.length_take, Vector.length_toList]
    omega
  · exact readBytes_length ..

theorem place_length (hp : p ∈ st.places) : p.data.length = p.item.length.toNat := by
  rw [place_eq hp]
  exact entryData_length ..

theorem keyQuery_fits {it : Item} (hg : g ≠ groupIdAny) :
    (keyQuery g t key).fits it = true ↔ (it.groupId.setWidth 8 : Byte) = g ∧ t.takes it.type = true := by
  simp only [Query.fits, keyQuery, Query.matches, NvsType.takes, Bool.and_true, Bool.and_eq_true, Bool.or_eq_true,
    beq_iff_eq, beq_self_eq_true, true_or, and_true, hg, false_or, @eq_comm _ g]

/-- On plain items without a clash a lookup is a comparison of group, key and type. -/
theorem HoldsMap.sees_iff (h : HoldsMap P K st m) (hK : NoClash P K) (hkey : IsKey key) (hg : g ≠ groupIdAny)
    (hmem : (g, key) ∈ K) (hp : p ∈ st.places) :
    (keyQuery g t key).sees P p.item = true ↔ p.item.identity = (g, key) ∧ t.takes p.item.type = true := by
  have hr := mem_records_of_place hp
  have hplain := h.plain _ hr
  have hused := h.used _ hr
  have hstate := (mem_places hp).2.2
  have hsound : HashSoundAt P (keyQuery g t key) key p.item := by
    apply hashSoundAt_of_written hplain.name hplain.recv hg fun _ => hplain.seg
    intro _ hfit hhash hpre
    have hgroup := ((keyQuery_fits hg).mp hfit).1
    refine (hK g key p.item.key hmem (hgroup ▸ hused) hpre ?_).symm
    rw [show keyHash P g key = itemCrcHash P ((keyQuery g t key).probe P key) from rfl, ← hhash]
    have hsame : (keyQuery g .any p.item.key).SameHash P p.item.key p.item := by
      refine sameHash_of_written hplain.name hplain.recv ?_ hplain.seg
      show p.item.groupId = g.setWidth 6
      rw [← hgroup, BitVec.setWidth_setWidth_of_le _ (by decide), BitVec.setWidth_eq]
    exact hsame
  rw [(sees_eq_keeps_iff rfl hkey).mpr hsound, keeps_iff, keyQuery_fits hg]
  constructor
  · rintro ⟨_, ⟨hgroup, htype⟩, hk⟩
    exact ⟨Prod.ext hgroup hk, htype⟩
  · rintro ⟨hid, htype⟩
    exact ⟨hstate, ⟨congrArg Prod.fst hid, htype⟩, congrArg Prod.snd hid⟩

/-- What a lookup finds is what the map says. -/
theorem HoldsMap.find (h : HoldsMap P K st m) (hK : NoClash P K) (hkey : IsKey key) (hg : g ≠ groupIdAny)
    (hmem : (g, key) ∈ K) :
    (∃ p ∈ st.places, p.item.identity = (g, key) ∧ t.takes p.item.type = true ∧
        m (g, key) = some (p.item.type, p.data) ∧
        smFindItem P st (keyQuery g t key) 0 = some (p.sector, p.index, p.item)) ∨
      ((∀ v, m (g, key) = some v → t.takes v.1 = false) ∧ smFindItem P st (keyQuery g t key) 0 = none) := by
  have hsees : ∀ p ∈ st.places, (keyQuery g t key).sees P p.item = true ↔
      p.item.identity = (g, key) ∧ t.takes p.item.type = true := fun p hp => h.sees_iff hK hkey hg hmem hp
  rw [h.tidy.find_places (show (keyQuery g t key).key ≠ none from Option.some_ne_none key)]
  cases hfind : st.places.find? fun p => (keyQuery g t key).sees P p.item with
  | some p =>
    have hp := List.mem_of_find?_eq_some hfind
    have hseen := List.find?_some hfind
    obtain ⟨hid, htype⟩ := (hsees p hp).mp hseen
    have hentry := h.entries.mem (mem_records_of_place hp)
    simp only [hid] at hentry
    exact Or.inl ⟨p, hp, hid, htype, hentry, rfl⟩
  | none =>
    refine Or.inr ⟨fun v hv => ?_, rfl⟩
    obtain ⟨r, hr, hid, rfl⟩ := (h.entries.entry _ _).mp hv
    rw [← places_records] at hr
    obtain ⟨p, hp, rfl⟩ := List.mem_map.mp hr
    have hnot := List.find?_eq_none.mp hfind p hp
    exact Bool.eq_false_of_not_eq_true fun htype => hnot ((hsees p hp).mpr ⟨hid, htype⟩)

end Lookups

/-! ## Reading -/

/-- What a read of the map gives. -/
def ValueMap.read (m : ValueMap) (g : Byte) (t : NvsType) (key : List Byte) (size : Nat) : ReadResult :=
  match m (g, key) with
  | some (c, data) =>
    if t.takes c then
      if size < data.length then ⟨.valueTooLong, data.length, []⟩ else ⟨.ok, data.length, data⟩
    else ⟨.notFound, size, []⟩
  | none => ⟨.notFound, size, []⟩

section Read
variable {P : Port} {K : Set (Byte × List Byte)} {st : Store} {m : ValueMap} {g : Byte} {t : NvsType}
  {key : List Byte} {p : Place}

/-- The data of an item in use lies inside the partition. -/
theorem Tidy.read_place (ht : Tidy P st) (hp : p ∈ st.places) :
    sectorReadItemData st p.sector p.index p.item p.item.length.toNat = some p.data := by
  have hdata : p.data = entryData st.flash (st.secArr p.sector).address (p.index, p.item) :=
    congrArg Place.data (place_eq hp)
  obtain ⟨hs, hx, _⟩ := mem_places hp
  obtain ⟨L, hL⟩ := ht.active _ hs
  rw [hL.items_eq] at hx
  have hb := hL.packed.chain.mem_bounds hx
  have hf := hL.packed.fits
  have hsize := ht.inSize (List.mem_append_left _ hs)
  rw [hdata, entryData, sectorReadItemData]
  simp only
  split
  · rfl
  · rename_i hlong
    have hspan : p.item.length.toNat ≤ (p.item.span - 1) * 32 := length_le_span (by omega)
    rw [Store.ptRead, if_pos]
    simp only [sliceAddr, sliceSize] at *
    omega

theorem HoldsMap.read (h : HoldsMap P K st m) (hK : NoClash P K) (hkey : IsKey key) (hg : g ≠ groupIdAny)
    (hmem : (g, key) ∈ K) (size : Nat) : storageReadItem P st g t key size = (m.read g t key size, st) := by
  unfold storageReadItem ValueMap.read
  rcases h.find hK hkey hg hmem (t := t) with ⟨p, hp, _, htype, hentry, hfind⟩ | ⟨hnone, hfind⟩
  · have hplain := h.plain _ (mem_records_of_place hp)
    have hblob : t ≠ .blob := by
      rintro rfl
      simp only [NvsType.takes, Bool.or_eq_true, Bool.and_eq_true, beq_iff_eq] at htype
      rcases htype with (hany | hsame) | ⟨hall, _⟩
      · exact absurd hany (by decide)
      · exact hplain.notBlob hsame.symm
      · exact absurd hall (by decide)
    simp only [hfind, hentry, if_neg hblob, if_pos htype, place_length hp, h.tidy.read_place hp]
    split <;> rfl
  · simp only [hfind]
    cases hm : m (g, key) with
    | none => rfl
    | some v =>
      simp only [hnone v hm, Bool.false_eq_true, if_false]

end Read

/-! ## Deleting -/

section Delete
variable {P : Port} {K : Set (Byte × List Byte)} {st : Store} {m : ValueMap} {g : Byte} {t : NvsType}
  {key : List Byte} {p : Place}

theorem erase_records (ht : Tidy P st) (hp : p ∈ st.places) :
    st.records.Perm ((p.item, p.data) :: (sectorEraseItem st p.sector p.index p.item true).records) := by
  rw [← places_records, ← places_records, ht.erase_places hp p.item]
  have hperm := List.perm_cons_erase hp
  rw [ht.places_nodup.erase_eq_filter] at hperm
  have hmap := hperm.map fun p : Place => (p.item, p.data)
  rw [List.map_cons] at hmap
  convert hmap using 4
  funext x
  by_cases hx : x = p <;> simp [hx]

theorem HoldsMap.erase (h : HoldsMap P K st m) (hp : p ∈ st.places) :
    HoldsMap P K (sectorEraseItem st p.sector p.index p.item true) (Function.update m p.item.identity none) := by
  obtain ⟨hs, hx, _⟩ := mem_places hp
  have hrec := erase_records h.tidy hp
  have hsub : ∀ r ∈ (sectorEraseItem st p.sector p.index p.item true).records, r ∈ st.records :=
    fun r hr => hrec.mem_iff.mpr (List.mem_cons_of_mem _ hr)
  exact ⟨(h.tidy.erase hs hx p.item).1, fun r hr => h.plain r (hsub r hr), fun r hr => h.used r (hsub r hr),
    (h.entries.perm hrec.symm).remove⟩

theorem HoldsMap.eraseFound (h : HoldsMap P K st m) (hp : p ∈ st.places) :
    Nvs.eraseFound P st p.sector p.index p.item =
      (.ok, sectorEraseItem st p.sector p.index p.item true) :=
  if_neg (h.plain _ (mem_records_of_place hp)).notBlob

/-- The code a deletion from the map gives. -/
def ValueMap.delCode (m : ValueMap) (g : Byte) (t : NvsType) (key : List Byte) : Err :=
  match m (g, key) with
  | some (c, _) => if t.takes c then .ok else .notFound
  | none => .notFound

/-- The map after a deletion. -/
def ValueMap.del (m : ValueMap) (g : Byte) (t : NvsType) (key : List Byte) : ValueMap :=
  if m.delCode g t key = .ok then Function.update m (g, key) none else m

theorem HoldsMap.del (h : HoldsMap P K st m) (hK : NoClash P K) (hkey : IsKey key) (hg : g ≠ groupIdAny)
    (hmem : (g, key) ∈ K) : (storageDelItem P st g t key).1 = m.delCode g t key ∧
      HoldsMap P K (storageDelItem P st g t key).2 (m.del g t key) := by
  rcases h.find hK hkey hg hmem (t := t) with ⟨p, hp, hid, htype, hentry, hfind⟩ | ⟨hnone, hfind⟩
  · have hcode : m.delCode g t key = .ok := by
      unfold ValueMap.delCode
      simp only [hentry, if_pos htype]
    unfold storageDelItem ValueMap.del
    simp only [hfind, hcode, h.eraseFound hp, if_true, true_and]
    rw [← hid]
    exact h.erase hp
  · have hcode : m.delCode g t key = .notFound := by
      unfold ValueMap.delCode
      cases hm : m (g, key) with
      | none => rfl
      | some v => simp only [hnone v hm, Bool.false_eq_true, if_false]
    unfold storageDelItem ValueMap.del
    rw [hcode, hfind, if_neg (by decide)]
    exact ⟨rfl, h⟩

/-- The map without a group. -/
def ValueMap.delGroup (m : ValueMap) (g : Byte) : ValueMap := fun k => if k.1 ≠ g then m k else none

theorem sweep_of_count_zero {α : Type} [DecidableEq α] {sees : α → Nat → α → Bool} {count : α → Nat}
    {ds : List α} (hds : ∀ d ∈ ds, count d = 0) (l : List α) : sweep sees count ds l = l.filter (· ∉ ds) := by
  induction ds generalizing l with
  | nil => simp [sweep]
  | cons d ds ih =>
    rw [sweep, hds d List.mem_cons_self, takeOut, ih fun x hx => hds x (List.mem_cons_of_mem d hx),
      List.filter_filter]
    apply List.filter_congr
    intro x _
    simp [Bool.and_comm]

theorem HoldsMap.delGroup (h : HoldsMap P K st m) (hg : g ≠ groupIdAny) :
    HoldsMap P K (storageDelGroup P st g).2 (m.delGroup g) := by
  have hplaces : (storageDelGroup P st g).2.places =
      st.places.filter fun p => decide (p.item.identity.1 ≠ g) := by
    rw [h.tidy.delGroup_places g, sweep_of_count_zero]
    · apply List.filter_congr
      intro p hp
      have hplain := h.plain _ (mem_records_of_place hp)
      rw [decide_eq_decide, List.mem_filter]
      apply not_congr
      refine (and_iff_right hp).trans ((groupQuery_sees hg).trans ?_)
      exact ⟨fun hsees => hsees.2.1, fun hid => ⟨(mem_places hp).2.2, hid, hplain.notSeg⟩⟩
    · intro p hp
      have hplain := h.plain _ (mem_records_of_place (List.mem_of_mem_filter hp))
      exact if_neg hplain.notBlob
  have hrec : (storageDelGroup P st g).2.records =
      st.records.filter fun r => decide (r.1.identity.1 ≠ g) := by
    rw [← places_records, ← places_records, hplaces, List.filter_map]
    rfl
  refine ⟨(h.tidy.delGroup g).tidy, ?_, ?_, ?_⟩
  · rw [hrec]
    exact fun r hr => h.plain r (List.mem_of_mem_filter hr)
  · rw [hrec]
    exact fun r hr => h.used r (List.mem_of_mem_filter hr)
  · rw [hrec]
    have hmap : m.delGroup g = fun k => if decide (k.1 ≠ g) then m k else none := by
      funext k
      simp only [ValueMap.delGroup, decide_eq_true_eq]
    rw [hmap]
    exact h.entries.filter fun k => decide (k.1 ≠ g)

end Delete

/-! ## Writing -/

section Write
variable {P : Port} {K : Set (Byte × List Byte)} {st st' : Store} {m : ValueMap} {g : Byte} {t : NvsType}
  {key data : List Byte} {p : Place} {s : Nat} {err : Err} {segId : Byte} {fuel : Nat}

/-- Writing an item adds its record or changes nothing. -/
theorem Tidy.write_records (ht : Tidy P st) (hs : s ∈ st.active)
    (h : sectorWriteItem P st s g t key data segId = (err, st')) :
    (err ≠ .ok ∧ st'.records.Perm st.records) ∨
      (err = .ok ∧ st'.records.Perm ((newItem P g t key data segId, data) :: st.records)) := by
  obtain ⟨_, hl, hw, _⟩ := ht.write hs h
  obtain ⟨A, B, hactive⟩ := List.append_of_mem hs
  have hnodup := ht.nodup.of_append_left
  rw [hactive] at hnodup
  obtain ⟨_, hB, hA⟩ := List.nodup_append.mp hnodup
  have hsame : ∀ L : List Nat, (∀ x ∈ L, x ∈ st.active) → s ∉ L →
      L.flatMap st'.sectorRecords = L.flatMap st.sectorRecords := by
    intro L hL hsL
    apply flatMap_sectorRecords ht hL
    intro x hx
    apply ht.sameAt hl (List.mem_append_left _ hs) (List.mem_append_left _ (hL x hx))
    rintro rfl
    exact hsL hx
  have hleft := hsame A (by rw [hactive]; exact fun x hx => List.mem_append_left _ hx)
    fun hsA => hA s hsA s List.mem_cons_self rfl
  have hright := hsame B (by rw [hactive]; exact fun x hx => List.mem_append_right _ (List.mem_cons_of_mem _ hx))
    (List.nodup_cons.mp hB).1
  simp only [Store.records, hl.active, hactive, List.flatMap_append, List.flatMap_cons, hleft, hright]
  cases hw with
  | failed herr _ hrec =>
    rw [hrec]
    exact Or.inl ⟨herr, .refl _⟩
  | done _ _ hrec =>
    rw [hrec, List.append_assoc, List.singleton_append, ← List.append_assoc, ← List.append_assoc]
    exact Or.inr ⟨rfl, List.perm_middle⟩

theorem HoldsMap.of_perm (h : HoldsMap P K st m) (ht : Tidy P st') (hp : st'.records.Perm st.records) :
    HoldsMap P K st' m :=
  ⟨ht, fun r hr => h.plain r (hp.mem_iff.mp hr), fun r hr => h.used r (hp.mem_iff.mp hr), h.entries.perm hp⟩

/-- The branch for plain values fails and moves items at most, or adds the record. -/
theorem Tidy.writePlain_records (ht : Tidy P st) (g : Byte) (t : NvsType) (key data : List Byte) :
    (∃ err st', writePlain P st g t key data = .done err st' ∧ err ≠ .ok ∧ Tidy P st' ∧
        st'.records.Perm st.records) ∨
      ∃ st', writePlain P st g t key data = .eraseOld st' ∧ Tidy P st' ∧
        st'.records.Perm ((newItem P g t key data segIdAny, data) :: st.records) := by
  have htidy := (ht.writePlain_grows g t key data).1
  have hrun := ht.plainRun g t key data
  generalize writePlain P st g t key data = a at hrun htidy
  have hlast : ∀ {st₁ : Store} {cur : Nat} {r : Err × Store}, Tidy P st₁ → cur ∈ st₁.active →
      sectorWriteItem P st₁ cur g t key data segIdAny = r → st₁.records.Perm st.records →
      Tidy P (Appended.ofResult r).store →
      (∃ err st', Appended.ofResult r = .done err st' ∧ err ≠ .ok ∧ Tidy P st' ∧
          st'.records.Perm st.records) ∨
        ∃ st', Appended.ofResult r = .eraseOld st' ∧ Tidy P st' ∧
          st'.records.Perm ((newItem P g t key data segIdAny, data) :: st.records) := by
    rintro st₁ cur ⟨err, st₂⟩ ht₁ hcur hwrite hp htidy
    rcases ht₁.write_records hcur hwrite with ⟨herr, hrec⟩ | ⟨rfl, hrec⟩
    · left
      refine ⟨err, st₂, ?_, herr, ?_, hrec.trans hp⟩
      · cases err <;> first | exact absurd rfl herr | rfl
      · rwa [Appended.store_ofResult] at htidy
    · right
      refine ⟨st₂, rfl, ?_, hrec.trans (hp.cons _)⟩
      rwa [Appended.store_ofResult] at htidy
  cases hrun with
  | first hcur hwrite _ => exact hlast ht (mem_of_current hcur) hwrite (.refl _) htidy
  | refused hcur hwrite hreq hne =>
    have hw := ht.write (mem_of_current hcur) hwrite
    have hrec := (ht.write_records (mem_of_current hcur) hwrite).resolve_right fun hbad =>
      absurd hbad.1 (by decide)
    have hr := hw.1.request (nonBlobWriteReqSize_pos t _) hreq
    exact Or.inl ⟨_, _, rfl, hne, htidy, (hr.records hw.1).trans hrec.2⟩
  | second hcur hwrite hreq hcur' hwrite' =>
    have hw := ht.write (mem_of_current hcur) hwrite
    have hrec := (ht.write_records (mem_of_current hcur) hwrite).resolve_right fun hbad =>
      absurd hbad.1 (by decide)
    have hr := hw.1.request (nonBlobWriteReqSize_pos t _) hreq
    exact hlast (hr.tidy hw.1) (mem_of_current hcur') hwrite' ((hr.records hw.1).trans hrec.2) htidy

/-- The sector of the old copy still holds it, unless the write is stale. -/
theorem Tidy.old_extends (ht : Tidy P st) {i : Nat} {it : Item} (hold : findOld P st g key = some (s, i, it))
    (hnew : writeNew P fuel st (some (s, i, it)) g t key data = .eraseOld st')
    (hstale : storageWriteStale P fuel st g t key data = false) : Extends st st' s := by
  obtain ⟨_, hg⟩ := ht.writeNew_grows fuel (some (s, i, it)) g t key data
  rw [hnew] at hg
  obtain ⟨evs, htr, _, hext⟩ := hg.trace
  obtain ⟨hs, _, _⟩ := ht.find_keyed (q := keyQuery g .anyWithoutSeg key) (by simp [keyQuery]) hold
  apply hext s hs
  rintro ⟨ev, hev, hop⟩
  unfold storageWriteStale at hstale
  simp only [hold, hnew] at hstale
  have hlog : st'.log.drop st.log.length = evs := by
    rw [show st'.log = st.log ++ evs from htr.log, List.drop_left]
  rw [hlog] at hstale
  exact List.any_eq_false.mp hstale ev hev (by simpa using hop)

/-- The old copy holds the value when the comparison says so. -/
theorem Tidy.sameValue_eq (ht : Tidy P st) (hp : p ∈ st.places) (hblob : t ≠ .blob)
    (h : sameValue P st (some (p.sector, p.index, p.item)) t data = true) :
    p.item.type = t.code ∧ p.data = data := by
  have hread := ht.read_place hp
  unfold sameValue at h
  simp only [if_neg hblob] at h
  split at h
  · rename_i htype
    refine ⟨htype, ?_⟩
    unfold storageCmpFindItem at h
    split at h
    · exact absurd h (by simp)
    rename_i hlen
    rw [not_not] at hlen
    unfold sectorReadItemData at hread
    rw [← hlen] at hread
    split at h
    · rename_i hshort
      rw [if_pos hshort] at hread
      exact (Option.some.inj hread).symm.trans (beq_iff_eq.mp h)
    · rename_i hlong
      rw [if_neg hlong] at hread
      rw [hread] at h
      exact Option.some.inj (beq_iff_eq.mp h)
  · exact absurd h (by simp)

/-- A write that is not stale is an update of the map, or fails and leaves the map alone. -/
theorem HoldsMap.write (h : HoldsMap P K st m) (hK : NoClash P K) (hkey : IsKey key) (hg : g.toNat < 63)
    (hmem : (g, key) ∈ K) (hplain : t.IsPlain)
    (hstale : storageWriteStale P fuel st g t key data = false) :
    ∃ err, (storageWriteItem P fuel st g t key data).1 = some err ∧
      HoldsMap P K (storageWriteItem P fuel st g t key data).2
        (if err = .ok then Function.update m (g, key) (some (t.code, data)) else m) := by
  have hany : g ≠ groupIdAny := by
    rintro rfl
    exact absurd hg (by decide)
  have hnewPlain : (newItem P g t key data segIdAny).Plain := newItem_plain hkey hplain
  have hnewId : (newItem P g t key data segIdAny).identity = (g, key) := newItem_identity hkey (by omega)
  have hnewValue : Record.value (newItem P g t key data segIdAny, data) = (t.code, data) :=
    Prod.ext (itemInit_type ..) rfl
  rcases h.find hK hkey hany hmem (t := .anyWithoutSeg) with ⟨p, hp, hid, _, hentry, hfind⟩ | ⟨hnone, hfind⟩
  · have hold : findOld P st g key = some (p.sector, p.index, p.item) := hfind
    unfold storageWriteItem
    by_cases hsame : sameValue P st (some (p.sector, p.index, p.item)) t data = true
    · -- the old copy holds the value already
      obtain ⟨htype, hdata⟩ := h.tidy.sameValue_eq hp hplain.2 hsame
      simp only [hold, writeNew, if_pos hsame]
      refine ⟨.ok, rfl, ?_⟩
      rw [if_pos rfl, ← htype, ← hdata, ← hentry, Function.update_eq_self]
      exact h
    have hnew : writeNew P fuel st (some (p.sector, p.index, p.item)) g t key data = writePlain P st g t key data := by
      rw [writeNew, if_neg hsame, if_neg hplain.2]
    rcases h.tidy.writePlain_records g t key data with ⟨err, st₁, hrun, herr, ht₁, hrec⟩ | ⟨st₁, hrun, ht₁, hrec⟩
    · simp only [hold, hnew, hrun]
      exact ⟨err, rfl, by rw [if_neg herr]; exact h.of_perm ht₁ hrec⟩
    rw [hrun] at hnew
    have hext := h.tidy.old_extends hold hnew hstale
    obtain ⟨_, hx, hstate⟩ := mem_places hp
    obtain ⟨M, hM⟩ := hext.items
    have hp₁ : st₁.place p.sector (p.index, p.item) ∈ st₁.places := by
      refine List.mem_flatMap.mpr ⟨p.sector, hext.active, List.mem_map.mpr ⟨(p.index, p.item), ?_, rfl⟩⟩
      refine List.mem_filter.mpr ⟨?_, decide_eq_true hstate⟩
      rw [hM]
      exact List.mem_append_left M hx
    have hdata : entryData st₁.flash (st₁.secArr p.sector).address (p.index, p.item) = p.data :=
      (hext.value _ hx).trans (congrArg Place.data (place_eq hp)).symm
    -- the records: the new one, and those there were but for the old one
    have herase : st₁.records.Perm ((p.item, p.data) ::
        (sectorEraseItem st₁ p.sector p.index p.item true).records) := by
      have hperm := erase_records ht₁ hp₁
      simp only [Store.place, hdata] at hperm
      exact hperm
    have holdRec := List.perm_cons_erase (mem_records_of_place hp)
    have hfinal : (sectorEraseItem st₁ p.sector p.index p.item true).records.Perm
        ((newItem P g t key data segIdAny, data) :: st.records.erase (p.item, p.data)) := by
      apply List.Perm.cons_inv (a := (p.item, p.data))
      exact herase.symm.trans ((hrec.trans (holdRec.cons _)).trans (List.Perm.swap _ _ _))
    have hfound : Nvs.eraseFound P st₁ p.sector p.index p.item =
        (.ok, sectorEraseItem st₁ p.sector p.index p.item true) :=
      if_neg (h.plain _ (mem_records_of_place hp)).notBlob
    simp only [hold, hnew, hfound, Outcome.returned]
    refine ⟨.ok, rfl, ?_⟩
    rw [if_pos rfl]
    have hsub : ∀ r ∈ (sectorEraseItem st₁ p.sector p.index p.item true).records,
        r = (newItem P g t key data segIdAny, data) ∨ r ∈ st.records := fun r hr =>
      (List.mem_cons.mp (hfinal.mem_iff.mp hr)).imp id List.mem_of_mem_erase
    have hitems : (p.index, p.item) ∈ st₁.items p.sector := by
      rw [hM]
      exact List.mem_append_left M hx
    refine ⟨(ht₁.erase hext.active hitems p.item).1, fun r hr => ?_, fun r hr => ?_, ?_⟩
    · rcases hsub r hr with rfl | hr
      · exact hnewPlain
      · exact h.plain r hr
    · rcases hsub r hr with rfl | hr
      · rw [hnewId]
        exact hmem
      · exact h.used r hr
    · have hrep := (h.entries.perm holdRec.symm).replace (r := (newItem P g t key data segIdAny, data))
        (hid.trans hnewId.symm)
      simp only [hnewId, hnewValue] at hrep
      exact hrep.perm hfinal
  · have hold : findOld P st g key = none := hfind
    have habsent : m (g, key) = none := by
      cases hm : m (g, key) with
      | none => rfl
      | some v =>
        obtain ⟨r, hr, _, rfl⟩ := (h.entries.entry _ _).mp hm
        have htakes : NvsType.anyWithoutSeg.takes (Record.value r).1 = true := by
          simpa [NvsType.takes, Record.value, NvsType.code] using Or.inr (h.plain r hr).notSeg
        rw [hnone _ hm] at htakes
        exact absurd htakes (by simp)
    have hnew : writeNew P fuel st none g t key data = writePlain P st g t key data := by
      rw [writeNew, if_neg (show ¬ sameValue P st none t data = true from Bool.false_ne_true), if_neg hplain.2]
    unfold storageWriteItem
    rcases h.tidy.writePlain_records g t key data with ⟨err, st₁, hrun, herr, ht₁, hrec⟩ | ⟨st₁, hrun, ht₁, hrec⟩
    · simp only [hold, hnew, hrun]
      exact ⟨err, rfl, by rw [if_neg herr]; exact h.of_perm ht₁ hrec⟩
    · simp only [hold, hnew, hrun]
      refine ⟨.ok, rfl, ?_⟩
      rw [if_pos rfl]
      have hsub : ∀ r ∈ st₁.records, r = (newItem P g t key data segIdAny, data) ∨ r ∈ st.records :=
        fun r hr => List.mem_cons.mp (hrec.mem_iff.mp hr)
      refine ⟨ht₁, fun r hr => ?_, fun r hr => ?_, ?_⟩
      · rcases hsub r hr with rfl | hr
        · exact hnewPlain
        · exact h.plain r hr
      · rcases hsub r hr with rfl | hr
        · rw [hnewId]
          exact hmem
        · exact h.used r hr
      · have hins := h.entries.insert (r := (newItem P g t key data segIdAny, data)) (by
          simp only [hnewId]
          exact habsent)
        simp only [hnewId, hnewValue] at hins
        exact hins.perm hrec

end Write

/-! ## Runs -/

/-- A group, not that of all groups, and a key that is used in it. -/
structure Named (K : Set (Byte × List Byte)) (g : Byte) (key : List Byte) : Prop where
  group : g.toNat < 63
  isKey : IsKey key
  used : (g, key) ∈ K

/-- The operations on plain values. -/
def StorageOp.IsPlain (K : Set (Byte × List Byte)) : StorageOp → Prop
  | .write g t key _ => t.IsPlain ∧ Named K g key
  | .del g _ key => Named K g key
  | .read g _ key _ => Named K g key
  | .delGroup g => g ≠ groupIdAny
  | .openGroup .. => False

/-- What an operation hands back. -/
inductive Answer where
  | code (err : Option Err)
  | value (r : ReadResult)

def StorageOp.answer (P : Port) (fuel : Nat) (st : Store) : StorageOp → Answer
  | .write g t key data => .code (storageWriteItem P fuel st g t key data).1
  | .del g t key => .code (some (storageDelItem P st g t key).1)
  | .delGroup g => .code (some (storageDelGroup P st g).1)
  | .openGroup group createNew mem => .code (some (storageOpenGroup P st group createNew mem).1)
  | .read g t key size => .value (storageReadItem P st g t key size).1

/-- What the finite map does and answers; only a write may fail, and then it changes nothing. -/
inductive MapStep (m : ValueMap) : StorageOp → Answer → ValueMap → Prop where
  | written (g : Byte) (t : NvsType) (key data : List Byte) :
      MapStep m (.write g t key data) (.code (some .ok)) (Function.update m (g, key) (some (t.code, data)))
  | failed (g : Byte) (t : NvsType) (key data : List Byte) {err : Err} (herr : err ≠ .ok) :
      MapStep m (.write g t key data) (.code (some err)) m
  | deleted (g : Byte) (t : NvsType) (key : List Byte) :
      MapStep m (.del g t key) (.code (some (m.delCode g t key))) (m.del g t key)
  | groupDeleted (g : Byte) : MapStep m (.delGroup g) (.code (some .ok)) (m.delGroup g)
  | read (g : Byte) (t : NvsType) (key : List Byte) (size : Nat) :
      MapStep m (.read g t key size) (.value (m.read g t key size)) m

/-- A run of the map with its answers. -/
inductive MapRun (m : ValueMap) : List (StorageOp × Answer) → ValueMap → Prop where
  | refl : MapRun m [] m
  | step {log : List (StorageOp × Answer)} {m' m'' : ValueMap} {op : StorageOp} {a : Answer}
      (h : MapRun m log m') (hop : MapStep m' op a m'') : MapRun m (log ++ [(op, a)]) m''

/-- A run of the store on plain values, no write of which is stale. -/
inductive ValueRun (P : Port) (K : Set (Byte × List Byte)) (st : Store) : List (StorageOp × Answer) → Store → Prop where
  | refl : ValueRun P K st [] st
  | step {log : List (StorageOp × Answer)} {st' : Store} (h : ValueRun P K st log st') (op : StorageOp) (fuel : Nat)
      (hop : op.IsPlain K) (hstale : op.stale P fuel st' = false) :
      ValueRun P K st (log ++ [(op, op.answer P fuel st')]) (op.run P fuel st')

section Runs
variable {P : Port} {K : Set (Byte × List Byte)} {st st' : Store} {m : ValueMap} {g : Byte} {key : List Byte}

theorem Named.ne_any (h : Named K g key) : g ≠ groupIdAny := by
  rintro rfl
  exact absurd h.group (by decide)

/-- One operation of the store is one step of the map. -/
theorem HoldsMap.step (h : HoldsMap P K st m) (hK : NoClash P K) {op : StorageOp} {fuel : Nat}
    (hop : op.IsPlain K) (hstale : op.stale P fuel st = false) :
    ∃ m', MapStep m op (op.answer P fuel st) m' ∧ HoldsMap P K (op.run P fuel st) m' := by
  cases op with
  | write g t key data =>
    obtain ⟨ht, hn⟩ := hop
    obtain ⟨err, hcode, hst⟩ := h.write hK hn.isKey hn.group hn.used ht hstale
    refine ⟨_, ?_, hst⟩
    rw [StorageOp.answer, hcode]
    by_cases herr : err = .ok
    · rw [herr, if_pos rfl]
      exact .written g t key data
    · rw [if_neg herr]
      exact .failed g t key data herr
  | del g t key =>
    have hn : Named K g key := hop
    obtain ⟨hcode, hst⟩ := h.del hK hn.isKey hn.ne_any hn.used (t := t)
    refine ⟨_, ?_, hst⟩
    rw [StorageOp.answer, hcode]
    exact .deleted g t key
  | delGroup g => exact ⟨_, .groupDeleted g, h.delGroup hop⟩
  | openGroup group createNew mem => exact absurd hop not_false
  | read g t key size =>
    have hn : Named K g key := hop
    have hread := h.read hK hn.isKey hn.ne_any hn.used (t := t) size
    refine ⟨m, ?_, ?_⟩
    · rw [StorageOp.answer, hread]
      exact .read g t key size
    · rw [StorageOp.run, hread]
      exact h

/-- Every run on plain values gives the answers of the finite map. -/
theorem plain_values_are_map {log : List (StorageOp × Answer)} (h : HoldsMap P K st m) (hK : NoClash P K)
    (hrun : ValueRun P K st log st') : ∃ m', MapRun m log m' ∧ HoldsMap P K st' m' := by
  induction hrun with
  | refl => exact ⟨m, .refl, h⟩
  | step _ op fuel hop hstale ih =>
    obtain ⟨m₁, hm₁, h₁⟩ := ih
    obtain ⟨m₂, hm₂, h₂⟩ := h₁.step hK hop hstale
    exact ⟨m₂, .step hm₁ hm₂, h₂⟩

end Runs

/-- One key in use. -/
def oneKey : Set (Byte × List Byte) := {(1, [0x6b])}

theorem testStore_empty : HoldsMap testPort oneKey testStore fun _ => none := by
  have hempty : testStore.records = [] := by decide +kernel
  refine ⟨testStore_tidy, ?_, ?_, ?_⟩
  · simp [hempty]
  · simp [hempty]
  · rw [hempty]
    exact .nil

/-- A value is written to an erased partition and read back. -/
theorem plain_values_are_map_write :
    let write := StorageOp.write 1 .uint8 [0x6b] [7]
    let st := write.run testPort 0 testStore
    let read := StorageOp.read 1 .uint8 [0x6b] 8
    ∃ m', MapRun (fun _ => none) [(write, write.answer testPort 0 testStore), (read, read.answer testPort 0 st)] m' ∧
      HoldsMap testPort oneKey (read.run testPort 0 st) m' := by
  intro write st read
  have hnamed : Named oneKey 1 [0x6b] := ⟨by decide, ⟨by decide, by decide, by decide⟩, rfl⟩
  have hclash : NoClash testPort oneKey := by
    intro g key key' hkey hkey' _ _
    exact (Prod.mk.inj hkey).2.trans (Prod.mk.inj hkey').2.symm
  have hwrite : ValueRun testPort oneKey testStore [(write, write.answer testPort 0 testStore)] st :=
    .step .refl write 0 ⟨by decide, hnamed⟩ (by decide +kernel)
  have hread : ValueRun testPort oneKey testStore ([(write, write.answer testPort 0 testStore)] ++
      [(read, read.answer testPort 0 st)]) (read.run testPort 0 st) := .step hwrite read 0 hnamed rfl
  exact plain_values_are_map testStore_empty hclash hread

end WmIot.Nvs
