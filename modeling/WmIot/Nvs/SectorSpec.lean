import WmIot.Nvs.Layout

/-!
# What the sector operations do

Each operation works on one sector (`Local`); on a packed sector it appends an item, marks
one as dropped, or fills an empty sector with the live items of another.
-/

namespace WmIot.Nvs
open NorFlash
set_option autoImplicit false

/-! ## The bytes of an item -/

/-- The value an entry holds, as `wm_nvs_sector_read_item_data` returns it. -/
def entryData (f : Flash) (addr : Nat) (e : Entry) : List Byte :=
  if e.2.length.toNat ≤ 8 then e.2.data.toList.take e.2.length.toNat
  else readBytes f (sliceAddr addr (e.1 + 1)) e.2.length.toNat

theorem length_le_span {it : Item} (h : 8 < it.length.toNat) :
    it.length.toNat ≤ (it.span - 1) * 32 := by
  have hl : it.length.toNat < 4096 := it.length.isLt
  unfold Item.span
  rw [if_pos h]
  simp only [sliceSize]
  omega

theorem entryCntOf_eq_span {it : Item} : entryCntOf it.length.toNat = it.span := rfl

theorem entryData_congr {f g : Flash} {addr i e : Nat} {L : List Entry} (h : Chain f addr i L e)
    {x : Entry} (hx : x ∈ L) (hfg : AgreeOn f g (sliceAddr addr i) (sliceAddr addr e)) :
    entryData g addr x = entryData f addr x := by
  unfold entryData
  split
  · rfl
  · rename_i hlen
    have hb := h.mem_bounds hx
    have hs := length_le_span (Nat.lt_of_not_le hlen)
    have hpos := x.2.span_pos
    apply (hfg.symm).readBytes
    · exact sliceAddr_mono _ (by omega)
    · have hm := sliceAddr_mono addr hb.2
      simp only [sliceAddr, sliceSize] at hm ⊢
      omega

/-- Programming the state byte of an entry leaves every value alone. -/
theorem entryData_markState {f : Flash} {addr i e : Nat} {L : List Entry} (h : Chain f addr i L e)
    {x y : Entry} (hx : x ∈ L) (hy : y ∈ L) (b : Byte) :
    entryData (program f (sliceAddr addr x.1) [b]) addr y = entryData f addr y := by
  unfold entryData
  split
  · rfl
  · rename_i hlen
    have hs := length_le_span (Nat.lt_of_not_le hlen)
    have hdisj : x.1 ≤ y.1 ∨ y.1 + y.2.span ≤ x.1 := by
      have hp := h.pairwise
      rcases eq_or_ne x y with rfl | hne
      · exact Or.inl (Nat.le_refl _)
      · have hpos := x.2.span_pos
        rcases List.mem_iff_getElem.mp hx with ⟨n, hn, rfl⟩
        rcases List.mem_iff_getElem.mp hy with ⟨m, hm, rfl⟩
        rcases Nat.lt_trichotomy n m with hlt | heq | hlt
        · have hle := List.pairwise_iff_getElem.mp hp n m hn hm hlt
          exact Or.inl (by omega)
        · subst heq
          exact absurd rfl hne
        · exact Or.inr (List.pairwise_iff_getElem.mp hp m n hm hn hlt)
    have hoff : AgreeOn (program f (sliceAddr addr x.1) [b]) f (sliceAddr addr (y.1 + 1))
        (sliceAddr addr (y.1 + 1) + y.2.length.toNat) := by
      apply AgreeOn.program
      simp only [sliceAddr, sliceSize, List.length_singleton] at *
      have hpos := y.2.span_pos
      omega
    exact hoff.readBytes (Nat.le_refl _) (Nat.le_refl _)

theorem strnlen_le (s : List Byte) (n : Nat) : strnlen s n ≤ n := by
  induction n generalizing s with
  | zero => simp [strnlen]
  | succ n ih =>
    cases s with
    | nil => simp [strnlen]
    | cons c s =>
      have hs := ih s
      simp only [strnlen]
      split <;> omega

/-- The 19 bytes the header checksum covers besides the data field. -/
theorem bytes_head (it : Item) : (it.bytes.drop 1).take 19 = it.name.toList ++
    [it.groupByte, it.segId, it.length.extractLsb' 0 4 ++ it.type, it.length.extractLsb' 4 8] := by
  simp only [Item.bytes, List.drop_succ_cons, List.drop_zero]
  rw [← List.append_assoc, List.take_append_of_le_length (by simp), List.take_of_length_le (by simp)]

@[simp] theorem itemCrcHead_droped (P : Port) (it : Item) : itemCrcHead P it.droped = itemCrcHead P it := by
  simp only [itemCrcHead, bytes_head, Item.groupByte, Item.droped]

section ItemInit
variable (P : Port) (state g : Byte) (t : NvsType) (key data : List Byte) (segId : Byte)

@[simp] theorem itemInit_state (d : Option (List Byte)) (n : Nat) :
    (itemInit P state g t key d n segId).state = state := by cases d <;> rfl

@[simp] theorem itemInit_name (d : Option (List Byte)) (n : Nat) :
    (itemInit P state g t key d n segId).name = nameField key := by cases d <;> rfl

@[simp] theorem itemInit_groupId (d : Option (List Byte)) (n : Nat) :
    (itemInit P state g t key d n segId).groupId = g.setWidth 6 := by cases d <;> rfl

@[simp] theorem itemInit_recv1 (d : Option (List Byte)) (n : Nat) :
    (itemInit P state g t key d n segId).recv1 = 0 := by cases d <;> rfl

@[simp] theorem itemInit_segId (d : Option (List Byte)) (n : Nat) :
    (itemInit P state g t key d n segId).segId = segId := by cases d <;> rfl

@[simp] theorem itemInit_type (d : Option (List Byte)) (n : Nat) :
    (itemInit P state g t key d n segId).type = t.code := by cases d <;> rfl

@[simp] theorem itemInit_length (d : Option (List Byte)) (n : Nat) :
    (itemInit P state g t key d n segId).length = BitVec.ofNat 12 n := by cases d <;> rfl

theorem itemInit_data (n : Nat) :
    (itemInit P state g t key (some data) n segId).data =
      dataField (if n > 8 then le32 (P.crc32 0xFFFFFFFF#32 data) else data.take n) := rfl

/-- A freshly initialised item passes its own header checksum. -/
theorem itemInit_crc (n : Nat) :
    (itemInit P state g t key (some data) n segId).crcItem =
      itemCrcHead P (itemInit P state g t key (some data) n segId) := by
  simp only [itemInit, itemCrcHead, bytes_head, Item.groupByte]

end ItemInit

theorem dataField_take {bytes : List Byte} (h : bytes.length ≤ 8) :
    (dataField bytes).toList.take bytes.length = bytes := by
  apply List.ext_getElem
  · simp [h]
  · intro i h₁ h₂
    simp [dataField, List.getElem?_eq_getElem h₂]

/-! ## Changes confined to one sector -/

/-- `st'` continues `st` by the events `evs`. -/
structure Trace (st st' : Store) (evs : List Event) : Prop where
  log : st'.log = st.log ++ evs
  flash : st'.flash = replay st.flash (evs.map Event.op)

/-- An event that is issued with the lists of `st` and stays inside `[lo, lo + 4096)`. -/
def Event.Inside (ev : Event) (active : List Nat) (lo : Nat) : Prop :=
  ev.active = active ∧ ∀ a, ev.op.Touches a → lo ≤ a ∧ a < lo + 4096

/-- Only sector `s` differs, in its RAM record and on flash. -/
structure Local (s : Nat) (st st' : Store) : Prop where
  secNum : st'.secNum = st.secNum
  active : st'.active = st.active
  idle : st'.idle = st.idle
  serial : st'.serialNumber = st.serialNumber
  groups : st'.groupList = st.groupList
  others : ∀ t, t ≠ s → st'.secArr t = st.secArr t
  address : (st'.secArr s).address = (st.secArr s).address
  events : ∃ evs, Trace st st' evs ∧ ∀ ev ∈ evs, ev.Inside st.active (st.secArr s).address

theorem Trace.refl (st : Store) : Trace st st [] := ⟨by simp, rfl⟩

theorem Trace.trans {st₁ st₂ st₃ : Store} {xs ys : List Event} (h : Trace st₁ st₂ xs)
    (h' : Trace st₂ st₃ ys) : Trace st₁ st₃ (xs ++ ys) where
  log := by rw [h'.log, h.log, List.append_assoc]
  flash := by rw [h'.flash, h.flash, List.map_append, replay_append]

namespace Local
variable {s : Nat} {st st₁ st₂ st₃ : Store}

theorem refl (s : Nat) (st : Store) : Local s st st :=
  ⟨rfl, rfl, rfl, rfl, rfl, fun _ _ => rfl, rfl, [], Trace.refl st, by simp⟩

theorem trans (h : Local s st₁ st₂) (h' : Local s st₂ st₃) : Local s st₁ st₃ where
  secNum := h'.secNum.trans h.secNum
  active := h'.active.trans h.active
  idle := h'.idle.trans h.idle
  serial := h'.serial.trans h.serial
  groups := h'.groups.trans h.groups
  others := fun t ht => (h'.others t ht).trans (h.others t ht)
  address := h'.address.trans h.address
  events := by
    obtain ⟨xs, hx, hxi⟩ := h.events
    obtain ⟨ys, hy, hyi⟩ := h'.events
    refine ⟨xs ++ ys, hx.trans hy, ?_⟩
    intro ev hev
    rcases List.mem_append.mp hev with hev | hev
    · exact hxi ev hev
    · have hi := hyi ev hev
      rwa [h.active, h.address] at hi

theorem size (h : Local s st₁ st₂) : st₂.size = st₁.size := by
  simp only [Store.size, h.secNum]

/-- The flash outside the sector is as before. -/
theorem agreeOn (h : Local s st₁ st₂) {lo hi : Nat}
    (ho : hi ≤ (st₁.secArr s).address ∨ (st₁.secArr s).address + 4096 ≤ lo) :
    AgreeOn st₂.flash st₁.flash lo hi := by
  obtain ⟨evs, ht, hin⟩ := h.events
  rw [ht.flash]
  apply replay_agreeOn
  intro op hop a hlo hhi htouch
  obtain ⟨ev, hev, rfl⟩ := List.mem_map.mp hop
  have hb := (hin ev hev).2 a htouch
  omega

theorem setSec (st : Store) (s : Nat) (sec : Sector) (h : sec.address = (st.secArr s).address) :
    Local s st (st.setSec s sec) where
  secNum := rfl
  active := rfl
  idle := rfl
  serial := rfl
  groups := rfl
  others := fun t ht => by simp [Store.setSec, ht]
  address := by simp [Store.setSec, h]
  events := ⟨[], ⟨by simp [Store.setSec], rfl⟩, by simp⟩

theorem ptWriteRaw (st : Store) (s addr : Nat) (bytes : List Byte)
    (hlo : (st.secArr s).address ≤ addr) (hhi : addr + bytes.length ≤ (st.secArr s).address + 4096) :
    Local s st (st.ptWriteRaw addr bytes) where
  secNum := rfl
  active := rfl
  idle := rfl
  serial := rfl
  groups := rfl
  others := fun _ _ => rfl
  address := rfl
  events := by
    refine ⟨[⟨.program addr bytes, st.active⟩], ⟨rfl, rfl⟩, ?_⟩
    intro ev hev
    obtain rfl := List.mem_singleton.mp hev
    refine ⟨rfl, ?_⟩
    rintro a ⟨h₁, h₂⟩
    omega

theorem ptErase (st : Store) (s : Nat) : Local s st (st.ptErase (st.secArr s).address) where
  secNum := rfl
  active := rfl
  idle := rfl
  serial := rfl
  groups := rfl
  others := fun _ _ => rfl
  address := rfl
  events := by
    refine ⟨[⟨.erase (st.secArr s).address sectionSize, st.active⟩], ⟨rfl, rfl⟩, ?_⟩
    intro ev hev
    obtain rfl := List.mem_singleton.mp hev
    refine ⟨rfl, ?_⟩
    rintro a ⟨h₁, h₂⟩
    simp only [sectionSize] at h₂
    omega

end Local

section Simp
variable (st : Store) (s addr : Nat) (sec : Sector) (bytes : List Byte)

@[simp] theorem setSec_self : (st.setSec s sec).secArr s = sec := by simp [Store.setSec]
@[simp] theorem setSec_flash : (st.setSec s sec).flash = st.flash := rfl
@[simp] theorem setSec_active : (st.setSec s sec).active = st.active := rfl
@[simp] theorem setSec_idle : (st.setSec s sec).idle = st.idle := rfl
@[simp] theorem setSec_size : (st.setSec s sec).size = st.size := rfl
@[simp] theorem setSec_secNum : (st.setSec s sec).secNum = st.secNum := rfl
@[simp] theorem setSec_log : (st.setSec s sec).log = st.log := rfl
@[simp] theorem setSec_groupList : (st.setSec s sec).groupList = st.groupList := rfl
@[simp] theorem setSec_serialNumber : (st.setSec s sec).serialNumber = st.serialNumber := rfl
@[simp] theorem ptWriteRaw_secArr : (st.ptWriteRaw addr bytes).secArr = st.secArr := rfl
@[simp] theorem ptWriteRaw_flash : (st.ptWriteRaw addr bytes).flash = program st.flash addr bytes := rfl
@[simp] theorem ptWriteRaw_active : (st.ptWriteRaw addr bytes).active = st.active := rfl
@[simp] theorem ptWriteRaw_idle : (st.ptWriteRaw addr bytes).idle = st.idle := rfl
@[simp] theorem ptWriteRaw_size : (st.ptWriteRaw addr bytes).size = st.size := rfl
@[simp] theorem ptWriteRaw_secNum : (st.ptWriteRaw addr bytes).secNum = st.secNum := rfl
@[simp] theorem ptWriteRaw_log :
    (st.ptWriteRaw addr bytes).log = st.log ++ [⟨.program addr bytes, st.active⟩] := rfl
@[simp] theorem ptErase_secArr : (st.ptErase addr).secArr = st.secArr := rfl
@[simp] theorem ptErase_flash : (st.ptErase addr).flash = erase st.flash addr 4096 := rfl
@[simp] theorem ptErase_active : (st.ptErase addr).active = st.active := rfl
@[simp] theorem ptErase_idle : (st.ptErase addr).idle = st.idle := rfl

theorem setSec_other {t : Nat} (h : t ≠ s) : (st.setSec s sec).secArr t = st.secArr t := by
  simp [Store.setSec, h]

@[simp] theorem setSec_setSec (sec' : Sector) :
    (st.setSec s sec).setSec s sec' = st.setSec s sec' := by simp [Store.setSec]

theorem ptWrite_of_le (h : addr + bytes.length ≤ st.size) :
    st.ptWrite addr bytes = (.ok, st.ptWriteRaw addr bytes) := if_pos h

end Simp

theorem program_nil (f : Flash) (addr : Nat) : program f addr [] = f := by
  funext a
  exact program_apply_out (by simp; omega)

/-! ## Appending an item -/

/-- The RAM record of a sector after an item is appended. -/
def Sector.push (P : Port) (sec : Sector) (it : Item) : Sector :=
  { sec with
    nextFreeSlice := add8 sec.nextFreeSlice it.span
    usedSlice := add8 sec.usedSlice it.span
    hash := hashAppend P sec.hash it sec.nextFreeSlice }

theorem add8_eq {a b : Nat} (h : a + b ≤ 127) : add8 a b = a + b := Nat.mod_eq_of_lt (by omega)

/-- The header of an item with its data behind it, put on the erased end of a packed sector. -/
theorem Packed.push {P : Port} {f : Flash} {sec : Sector} {L : List Entry} (h : Packed P f sec L)
    {it : Item} (hstate : it.state = itemUsing) (hfit : sec.nextFreeSlice + it.span ≤ 127)
    {data : List Byte} (hdata : data.length ≤ (it.span - 1) * 32) :
    Packed P (program (program f (sliceAddr sec.address sec.nextFreeSlice) it.bytes)
      (sliceAddr sec.address (sec.nextFreeSlice + 1)) data) (sec.push P it)
      (L ++ [(sec.nextFreeSlice, it)]) := by
  have hspan := it.span_pos
  have hbytes : it.bytes.length = 32 := it.bytes_length
  have hused := h.used
  have hlen := h.chain.length_le
  have hnodes : (hashNodes P L).length ≤ L.length := by
    simp only [hashNodes, List.length_map]
    exact List.length_filter_le _ _
  have hfirst : AgreeOn f (program (program f (sliceAddr sec.address sec.nextFreeSlice) it.bytes)
      (sliceAddr sec.address (sec.nextFreeSlice + 1)) data)
      (sliceAddr sec.address 0) (sliceAddr sec.address sec.nextFreeSlice) := by
    apply AgreeOn.symm
    apply AgreeOn.trans (AgreeOn.program _) (AgreeOn.program _)
    · left; exact sliceAddr_mono _ (by omega)
    · left; exact Nat.le_refl _
  constructor
  · apply Chain.append_iff.mpr
    refine ⟨sec.nextFreeSlice, h.chain.congr hfirst, rfl, ?_, ?_⟩
    · simp only [Sector.push]
      rw [readItem_program_off, readItem_program]
      · apply h.tail.mono (Nat.le_refl _)
        have hm := sliceAddr_mono sec.address hfit
        rw [sliceAddr_add, sliceAddr_last] at hm
        simp only [sliceSize]
        omega
      · left
        exact Nat.le_of_eq (sliceAddr_add _ _ 1).symm
    · simp only [Sector.push, Chain, add8_eq hfit]
  · simpa only [Sector.push, add8_eq hfit] using hfit
  · intro x hx
    rcases List.mem_append.mp hx with hx | hx
    · exact h.known x hx
    · obtain rfl := List.mem_singleton.mp hx
      exact Or.inl hstate
  · simp only [Sector.push, add8_eq hfit]
    have htail : BlankOn f (sliceAddr sec.address (sec.nextFreeSlice + it.span)) (sec.address + 4096) :=
      h.tail.mono (sliceAddr_mono _ (by omega)) (Nat.le_refl _)
    apply AgreeOn.blankOn _ htail
    apply AgreeOn.trans (AgreeOn.program _) (AgreeOn.program _)
    · right
      simp only [sliceAddr, sliceSize]
      omega
    · right
      simp only [sliceAddr, sliceSize]
      omega
  · simp only [Sector.push, hused]
  · have hroom : ¬ (hashNodes P L).length ≥ entryCount := by
      simp only [entryCount]
      omega
    simp only [Sector.push, h.hash, hashAppend, if_neg hroom, hashNodes_append]
    rw [hashNodes_cons_live P (x := (sec.nextFreeSlice, it)) hstate]
    rfl

/-! ## Writing an item -/

/-- The item `wm_nvs_sector_write_item` puts on flash. -/
def newItem (P : Port) (g : Byte) (t : NvsType) (key data : List Byte) (segId : Byte) : Item :=
  itemInit P itemUsing g t key (some data) data.length segId

theorem newItem_length (P : Port) (g : Byte) (t : NvsType) (key : List Byte) {data : List Byte}
    (segId : Byte) (h : data.length ≤ 4032) : (newItem P g t key data segId).length.toNat = data.length := by
  simp only [newItem, itemInit_length, BitVec.toNat_ofNat]
  omega

theorem newItem_span (P : Port) (g : Byte) (t : NvsType) (key : List Byte) {data : List Byte}
    (segId : Byte) (h : data.length ≤ 4032) : (newItem P g t key data segId).span = entryCntOf data.length := by
  rw [← entryCntOf_eq_span, newItem_length P g t key segId h]

@[simp] theorem headerBytes_length (P : Port) (sn : BitVec 32) : (headerBytes P sn).length = 32 := by
  simp [headerBytes, le32]

section Init
variable {P : Port} {st : Store} {s : Nat}

theorem sectorInit_local (P : Port) (st : Store) (s : Nat) : Local s st (sectorInit P st s) := by
  have h₁ := Local.setSec st s { st.secArr s with
    state := sectorUsing, nextFreeSlice := 0, usedSlice := 0, dropedSlice := 0 } rfl
  apply h₁.trans
  apply Local.ptWriteRaw
  · simp
  · simp

theorem sectorInit_packed (h : Packed P st.flash (st.secArr s) []) :
    Packed P (sectorInit P st s).flash ((sectorInit P st s).secArr s) [] where
  chain := by simp [sectorInit, Chain]
  fits := by simp [sectorInit]
  known := by simp
  tail := by
    have hn : (st.secArr s).nextFreeSlice = 0 := h.chain.symm
    have ht := h.tail
    rw [hn] at ht
    simp only [sectorInit, ptWriteRaw_flash, ptWriteRaw_secArr, setSec_self, setSec_flash]
    apply AgreeOn.blankOn _ ht
    apply AgreeOn.program
    right
    simp [sliceAddr]
  used := by simp [sectorInit]
  hash := by simpa [sectorInit] using h.hash

theorem sectorInit_state : ((sectorInit P st s).secArr s).state = sectorUsing := by simp [sectorInit]

end Init

theorem readySector_local (P : Port) (st : Store) (s : Nat) : Local s st (readySector P st s) := by
  unfold readySector
  split
  · exact sectorInit_local P st s
  · exact Local.refl s st

theorem readySector_packed {P : Port} {st : Store} {s : Nat} {L : List Entry}
    (h : Packed P st.flash (st.secArr s) L) (hu : (st.secArr s).state = sectorUninit → L = []) :
    Packed P (readySector P st s).flash ((readySector P st s).secArr s) L := by
  unfold readySector
  split
  · rename_i hs
    obtain rfl := hu hs
    exact sectorInit_packed h
  · exact h

/-- The store after an item is appended to sector `s`. -/
def appendItem (P : Port) (st : Store) (s : Nat) (it : Item) (data : List Byte) : Store :=
  let sec := st.secArr s
  let st := st.ptWriteRaw (sliceAddr sec.address sec.nextFreeSlice) it.bytes
  let st := if data = [] then st
    else st.ptWriteRaw (sliceAddr sec.address (sec.nextFreeSlice + 1)) data
  st.setSec s (sec.push P it)

/-- The bytes that follow the header of an item on flash. -/
def tailData (data : List Byte) : List Byte := if data.length > 8 then data else []

theorem tailData_length (data : List Byte) :
    (tailData data).length ≤ (entryCntOf data.length - 1) * 32 := by
  unfold tailData entryCntOf
  split
  · simp only [sliceSize]
    omega
  · simp

/-- Everything `wm_nvs_sector_write_item` can do. -/
theorem sectorWriteItem_cases {P : Port} {st st' : Store} {s : Nat} {g : Byte} {t : NvsType}
    {key data : List Byte} {segId : Byte} {err : Err}
    (hsize : (st.secArr s).address + 4096 ≤ st.size)
    (h : sectorWriteItem P st s g t key data segId = (err, st')) :
    (err ≠ .ok ∧ (st' = st ∨ st' = readySector P st s)) ∨
    (err = .ok ∧ data.length ≤ 4032 ∧
      ((readySector P st s).secArr s).nextFreeSlice + entryCntOf data.length ≤ 127 ∧
      st' = appendItem P (readySector P st s) s (newItem P g t key data segId) (tailData data)) := by
  unfold sectorWriteItem at h
  split at h
  · obtain ⟨rfl, rfl⟩ := Prod.mk.inj h
    exact Or.inl ⟨by decide, Or.inl rfl⟩
  split at h
  · obtain ⟨rfl, rfl⟩ := Prod.mk.inj h
    exact Or.inl ⟨by decide, Or.inl rfl⟩
  simp only at h
  split at h
  · obtain ⟨rfl, rfl⟩ := Prod.mk.inj h
    exact Or.inl ⟨by decide, Or.inr rfl⟩
  rename_i hlen
  split at h
  · obtain ⟨rfl, rfl⟩ := Prod.mk.inj h
    exact Or.inl ⟨by decide, Or.inr rfl⟩
  rename_i hfit
  have hlen' : data.length ≤ 4032 := by simpa using hlen
  have hfit' : ((readySector P st s).secArr s).nextFreeSlice + entryCntOf data.length ≤ 127 := by
    simpa using hfit
  obtain ⟨rfl, rfl⟩ := Prod.mk.inj h
  refine Or.inr ⟨rfl, hlen', hfit', ?_⟩
  have hloc := readySector_local P st s
  have haddr : ((readySector P st s).secArr s).address + 4096 ≤ (readySector P st s).size := by
    rw [hloc.address, hloc.size]
    exact hsize
  generalize readySector P st s = st₀ at *
  have hspan := newItem_span P g t key segId hlen'
  have hoff : (st₀.secArr s).address + sliceSize + (st₀.secArr s).nextFreeSlice * sliceSize =
      sliceAddr (st₀.secArr s).address (st₀.secArr s).nextFreeSlice := by
    simp only [sliceAddr, sliceSize]
    omega
  have hoff' : sliceAddr (st₀.secArr s).address (st₀.secArr s).nextFreeSlice + sliceSize =
      sliceAddr (st₀.secArr s).address ((st₀.secArr s).nextFreeSlice + 1) := by
    rw [sliceAddr_add]
  have hnew : itemInit P itemUsing g t key (some data) data.length segId =
      newItem P g t key data segId := rfl
  simp only [sectorWriteItemData, appendItem, tailData, hoff, hoff', hnew]
  by_cases hlong : data.length > 8
  · have hne : data ≠ [] := by
      rintro rfl
      simp at hlong
    have hin : sliceAddr (st₀.secArr s).address ((st₀.secArr s).nextFreeSlice + 1) + data.length ≤
        st₀.size := by
      simp only [entryCntOf, if_pos hlong, sliceSize] at hfit'
      simp only [sliceAddr, sliceSize]
      omega
    have hwrite := ptWrite_of_le (st₀.ptWriteRaw (sliceAddr (st₀.secArr s).address
      (st₀.secArr s).nextFreeSlice) (newItem P g t key data segId).bytes) _ data hin
    simp only [if_pos hlong, if_neg hne, hwrite, setSec_self, setSec_setSec, Sector.push, hspan]
  · simp only [if_neg hlong, if_true, setSec_self, setSec_setSec, Sector.push, hspan]

theorem appendItem_local {P : Port} {st : Store} {s : Nat} {it : Item} {data : List Byte}
    (hfit : (st.secArr s).nextFreeSlice + it.span ≤ 127) (hdata : data.length ≤ (it.span - 1) * 32) :
    Local s st (appendItem P st s it data) := by
  have hspan := it.span_pos
  have hbytes : it.bytes.length = 32 := it.bytes_length
  have h₁ : Local s st (st.ptWriteRaw (sliceAddr (st.secArr s).address (st.secArr s).nextFreeSlice)
      it.bytes) := by
    apply Local.ptWriteRaw
    · simp only [sliceAddr]
      omega
    · simp only [sliceAddr, sliceSize]
      omega
  have h₂ : Local s st ((st.ptWriteRaw (sliceAddr (st.secArr s).address (st.secArr s).nextFreeSlice)
      it.bytes).ptWriteRaw (sliceAddr (st.secArr s).address ((st.secArr s).nextFreeSlice + 1)) data) := by
    apply h₁.trans
    apply Local.ptWriteRaw
    · simp only [sliceAddr, ptWriteRaw_secArr]
      omega
    · simp only [sliceAddr, sliceSize, ptWriteRaw_secArr]
      omega
  unfold appendItem
  simp only
  split
  · exact h₁.trans (Local.setSec _ s ((st.secArr s).push P it) rfl)
  · exact h₂.trans (Local.setSec _ s ((st.secArr s).push P it) rfl)

theorem appendItem_flash (P : Port) (st : Store) (s : Nat) (it : Item) (data : List Byte) :
    (appendItem P st s it data).flash =
      program (program st.flash (sliceAddr (st.secArr s).address (st.secArr s).nextFreeSlice) it.bytes)
        (sliceAddr (st.secArr s).address ((st.secArr s).nextFreeSlice + 1)) data := by
  unfold appendItem
  simp only
  split
  · rename_i h
    rw [h, program_nil]
    rfl
  · rfl

theorem appendItem_secArr (P : Port) (st : Store) (s : Nat) (it : Item) (data : List Byte) :
    (appendItem P st s it data).secArr s = (st.secArr s).push P it := by
  simp [appendItem]

/-! ## The records of a sector -/

/-- An item in use and its value. -/
abbrev Record := Item × List Byte

def recordsOf (f : Flash) (addr : Nat) (L : List Entry) : List Record :=
  (L.filter fun x => x.Live).map fun x => (x.2, entryData f addr x)

theorem recordsOf_append (f : Flash) (addr : Nat) (L M : List Entry) :
    recordsOf f addr (L ++ M) = recordsOf f addr L ++ recordsOf f addr M := by simp [recordsOf]

theorem recordsOf_congr {f g : Flash} {addr : Nat} {L : List Entry}
    (h : ∀ x ∈ L, entryData g addr x = entryData f addr x) : recordsOf g addr L = recordsOf f addr L := by
  apply List.map_congr_left
  intro x hx
  rw [h x (List.mem_of_mem_filter hx)]

/-- `tail` are the bytes that go behind the header of `it` when it holds `value`. -/
inductive Stored (it : Item) : List Byte → List Byte → Prop where
  | short (h : it.length.toNat ≤ 8) : Stored it [] (it.data.toList.take it.length.toNat)
  | long (value : List Byte) (h : 8 < it.length.toNat) (hlen : value.length = it.length.toNat) :
      Stored it value value

theorem Stored.length_le {it : Item} {tail value : List Byte} (h : Stored it tail value) :
    tail.length ≤ (it.span - 1) * 32 := by
  cases h with
  | short _ => simp
  | long _ h hlen =>
    rw [hlen]
    exact length_le_span h

theorem newItem_stored (P : Port) (g : Byte) (t : NvsType) (key : List Byte) {data : List Byte}
    (segId : Byte) (h : data.length ≤ 4032) : Stored (newItem P g t key data segId) (tailData data) data := by
  have hlen := newItem_length P g t key segId h
  unfold tailData
  split
  · rename_i hlong
    exact Stored.long data (by omega) hlen.symm
  · rename_i hshort
    have hval : data = (newItem P g t key data segId).data.toList.take
        (newItem P g t key data segId).length.toNat := by
      rw [hlen, newItem, itemInit_data, if_neg hshort, List.take_length]
      exact (dataField_take (by omega)).symm
    have hst : Stored (newItem P g t key data segId) [] _ := Stored.short (by omega)
    rwa [← hval] at hst

/-- The value of an item whose header and tail were just put on erased cells. -/
theorem entryData_push {f : Flash} {addr i : Nat} {it : Item} {tail value : List Byte}
    (h : Stored it tail value)
    (hblank : BlankOn f (sliceAddr addr (i + 1)) (sliceAddr addr (i + 1) + tail.length)) :
    entryData (program (program f (sliceAddr addr i) it.bytes) (sliceAddr addr (i + 1)) tail) addr
      (i, it) = value := by
  cases h with
  | short h => exact if_pos h
  | long _ h hlen =>
    unfold entryData
    rw [if_neg (Nat.not_le.mpr h), ← hlen]
    apply readBytes_program
    apply AgreeOn.blankOn _ hblank
    apply AgreeOn.program
    right
    have hbytes : it.bytes.length = 32 := it.bytes_length
    rw [hbytes]
    exact Nat.le_of_eq (sliceAddr_add _ _ 1).symm

/-- Appending an item leaves the values of the others alone. -/
theorem Packed.push_value {P : Port} {f : Flash} {sec : Sector} {L : List Entry} (h : Packed P f sec L)
    {it : Item} {tail : List Byte} {x : Entry} (hx : x ∈ L) :
    entryData (program (program f (sliceAddr sec.address sec.nextFreeSlice) it.bytes)
      (sliceAddr sec.address (sec.nextFreeSlice + 1)) tail) sec.address x =
      entryData f sec.address x := by
  apply entryData_congr h.chain hx
  apply AgreeOn.symm
  apply AgreeOn.trans (AgreeOn.program _) (AgreeOn.program _)
  · left; exact sliceAddr_mono _ (by omega)
  · left; exact Nat.le_refl _

/-- Appending an item adds its record and leaves the others alone. -/
theorem recordsOf_push {P : Port} {f : Flash} {sec : Sector} {L : List Entry} (h : Packed P f sec L)
    {it : Item} (hstate : it.state = itemUsing) (hfit : sec.nextFreeSlice + it.span ≤ 127)
    {tail value : List Byte} (hst : Stored it tail value) :
    recordsOf (program (program f (sliceAddr sec.address sec.nextFreeSlice) it.bytes)
      (sliceAddr sec.address (sec.nextFreeSlice + 1)) tail) sec.address
      (L ++ [(sec.nextFreeSlice, it)]) = recordsOf f sec.address L ++ [(it, value)] := by
  have hspan := it.span_pos
  have hlen := hst.length_le
  rw [recordsOf_append]
  congr 1
  · exact recordsOf_congr fun x hx => h.push_value hx
  · have hblank : BlankOn f (sliceAddr sec.address (sec.nextFreeSlice + 1))
        (sliceAddr sec.address (sec.nextFreeSlice + 1) + tail.length) := by
      apply h.tail.mono (sliceAddr_mono _ (by omega))
      have hm := sliceAddr_mono sec.address hfit
      rw [sliceAddr_last] at hm
      simp only [sliceAddr, sliceSize] at hm ⊢
      omega
    have hlive : Entry.Live (sec.nextFreeSlice, it) := hstate
    rw [recordsOf, List.filter_cons_of_pos (by simpa using hlive)]
    simp only [List.filter_nil, List.map_cons, List.map_nil, entryData_push hst hblank]

/-! ## Erasing an item -/

theorem sectorEraseItem_local {st : Store} {s index : Nat} {it : Item} {b : Bool} (h : index < 127) :
    Local s st (sectorEraseItem st s index it b) := by
  have h₁ := Local.setSec st s
    { st.secArr s with dropedSlice := add8 (st.secArr s).dropedSlice it.span } rfl
  have h₂ := h₁.trans (Local.ptWriteRaw _ s (sliceAddr (st.secArr s).address index) [itemDroped]
    (by simp only [sliceAddr, setSec_self]; omega) (by simp [sliceAddr]; omega))
  unfold sectorEraseItem
  simp only
  split
  · apply h₂.trans
    apply Local.setSec
    rfl
  · exact h₂

@[simp] theorem sectorEraseItem_flash (st : Store) (s index : Nat) (it : Item) (b : Bool) :
    (sectorEraseItem st s index it b).flash =
      program st.flash (sliceAddr (st.secArr s).address index) [itemDroped] := by
  unfold sectorEraseItem
  cases b <;> rfl

theorem sectorEraseItem_secArr (st : Store) (s index : Nat) (it : Item) :
    (sectorEraseItem st s index it true).secArr s = { st.secArr s with
      dropedSlice := add8 (st.secArr s).dropedSlice it.span
      hash := hashErase (st.secArr s).hash index } := by
  simp [sectorEraseItem]

theorem Packed.pairwise {P : Port} {f : Flash} {sec : Sector} {L : List Entry} (h : Packed P f sec L) :
    L.Pairwise fun x y => x.1 < y.1 := by
  apply h.chain.pairwise.imp
  intro x y hxy
  have hs := x.2.span_pos
  omega

/-- Entry `k` of a packed sector becomes DROPED; the item passed in only counts for the counter. -/
theorem sectorEraseItem_packed {P : Port} {st : Store} {s : Nat} {L : List Entry} {x : Entry} (it : Item)
    (h : Packed P st.flash (st.secArr s) L) (hx : x ∈ L) :
    Packed P (sectorEraseItem st s x.1 it true).flash ((sectorEraseItem st s x.1 it true).secArr s)
      (markDroped x.1 L) := by
  have hb := h.chain.mem_bounds hx
  have hs := x.2.span_pos
  have hbehind : sliceAddr (st.secArr s).address x.1 + 1 ≤
      sliceAddr (st.secArr s).address (st.secArr s).nextFreeSlice := by
    have hm := sliceAddr_mono (st.secArr s).address hb.2
    rw [sliceAddr_add] at hm
    omega
  rw [sectorEraseItem_flash, sectorEraseItem_secArr]
  constructor
  · exact h.chain.markDroped fun y hy _ => h.known y hy
  · exact h.fits
  · intro y hy
    rcases mem_markDroped.mp hy with ⟨hy, _⟩ | ⟨z, _, _, rfl⟩
    · exact h.known y hy
    · exact Or.inr rfl
  · apply AgreeOn.blankOn _ h.tail
    apply AgreeOn.program
    right
    exact hbehind
  · exact h.used
  · simp only [h.hash]
    exact hashErase_markDroped P h.pairwise

theorem filter_live_markDroped {k : Nat} (L : List Entry) :
    (markDroped k L).filter (fun x => x.Live) = (L.filter fun x => x.1 ≠ k).filter fun x => x.Live := by
  induction L with
  | nil => rfl
  | cons x L ih =>
    by_cases hk : x.1 = k
    · rw [markDroped_cons_eq hk, List.filter_cons_of_neg (by simpa using not_live_droped x.1 x.2),
        List.filter_cons_of_neg (by simpa using hk)]
      exact ih
    · rw [markDroped_cons_ne hk, List.filter_cons_of_pos (p := fun x : Entry => decide (x.1 ≠ k))
        (by simpa using hk)]
      by_cases hl : x.Live
      · rw [List.filter_cons_of_pos (by simpa using hl), List.filter_cons_of_pos (by simpa using hl), ih]
      · rw [List.filter_cons_of_neg (by simpa using hl), List.filter_cons_of_neg (by simpa using hl), ih]

/-- Erasing an entry removes its record and leaves the others alone. -/
theorem recordsOf_markDroped {f : Flash} {addr i e : Nat} {L : List Entry} (h : Chain f addr i L e)
    {x : Entry} (hx : x ∈ L) :
    recordsOf (program f (sliceAddr addr x.1) [itemDroped]) addr (markDroped x.1 L) =
      recordsOf f addr (L.filter fun y => y.1 ≠ x.1) := by
  unfold recordsOf
  rw [filter_live_markDroped]
  apply List.map_congr_left
  intro y hy
  have hyL : y ∈ L := List.mem_of_mem_filter (List.mem_of_mem_filter hy)
  rw [entryData_markState h hx hyL]

/-! ## Erasing a sector and changing its state -/

theorem sectorSetState_local (st : Store) (s : Nat) (state : Byte) :
    Local s st (sectorSetState st s state) := by
  apply (Local.setSec st s { st.secArr s with state := state } rfl).trans
  apply Local.ptWriteRaw
  · simp
  · simp

@[simp] theorem sectorSetState_flash (st : Store) (s : Nat) (state : Byte) :
    (sectorSetState st s state).flash = program st.flash ((st.secArr s).address + 2) [state] := rfl

@[simp] theorem sectorSetState_secArr (st : Store) (s : Nat) (state : Byte) :
    (sectorSetState st s state).secArr s = { st.secArr s with state := state } := by
  simp [sectorSetState]

theorem sectorSetState_packed {P : Port} {st : Store} {s : Nat} {L : List Entry}
    (h : Packed P st.flash (st.secArr s) L) (state : Byte) :
    Packed P (sectorSetState st s state).flash ((sectorSetState st s state).secArr s) L := by
  have hoff : AgreeOn (program st.flash ((st.secArr s).address + 2) [state]) st.flash
      (sliceAddr (st.secArr s).address 0) ((st.secArr s).address + 4096) := by
    apply AgreeOn.program
    right
    simp only [sliceAddr, sliceSize, List.length_singleton]
    omega
  rw [sectorSetState_flash, sectorSetState_secArr]
  constructor
  · apply h.chain.congr
    apply hoff.symm.mono (Nat.le_refl _)
    rw [← sliceAddr_last]
    exact sliceAddr_mono _ h.fits
  · exact h.fits
  · exact h.known
  · exact (hoff.mono (sliceAddr_mono _ (Nat.zero_le _)) (Nat.le_refl _)).blankOn h.tail
  · exact h.used
  · exact h.hash

theorem sectorErase_local (st : Store) (s : Nat) : Local s st (sectorErase st s) := by
  have h₁ := sectorSetState_local st s sectorCrash
  have h₂ := h₁.trans (Local.ptErase (sectorSetState st s sectorCrash) s)
  apply h₂.trans
  apply Local.setSec
  rfl

theorem sectorErase_secArr (st : Store) (s : Nat) : (sectorErase st s).secArr s = { st.secArr s with
    state := sectorUninit, nextFreeSlice := 0, usedSlice := 0, dropedSlice := 0, hash := [] } := by
  simp [sectorErase]

theorem sectorErase_blank (st : Store) (s : Nat) :
    BlankOn (sectorErase st s).flash (st.secArr s).address ((st.secArr s).address + 4096) := by
  have h := erase_blankOn (sectorSetState st s sectorCrash).flash (st.secArr s).address 4096
  simpa [sectorErase] using h

theorem packed_nil (P : Port) {f : Flash} {sec : Sector} (hn : sec.nextFreeSlice = 0)
    (hu : sec.usedSlice = 0) (hh : sec.hash = [])
    (hb : BlankOn f (sec.address + 32) (sec.address + 4096)) : Packed P f sec [] where
  chain := hn.symm
  fits := by omega
  known := by simp
  tail := by
    apply hb.mono _ (Nat.le_refl _)
    simp only [sliceAddr, sliceSize]
    omega
  used := by omega
  hash := hh

end WmIot.Nvs
