import WmIot.Nvs.Runs

/-!
# The lookup by key against a linear scan

`wm_nvs_sector_find_item` with a key goes through the hash table of the sector and compares as
many characters as the key has. The linear scan it stands for keeps the items in use that fit
the other filters and whose name is the key. `HashSound` says on which sectors the two agree.
-/

namespace WmIot.Nvs
open NorFlash
set_option autoImplicit false

/-! ## Two searches in one list -/

/-- Two searches end at the same place when no entry before it is taken by one of them only. -/
theorem find?_eq_find?_iff {α : Type*} {p r : α → Bool} {L : List α} :
    L.find? p = L.find? r ↔
      ∀ A x B, L = A ++ x :: B → (∀ y ∈ A, ¬ (p y = true ∧ r y = true)) → p x = r x := by
  induction L with
  | nil => simp
  | cons z L ih =>
    by_cases hz : p z = r z
    · by_cases hp : p z = true
      · have hr : r z = true := hz ▸ hp
        rw [List.find?_cons_of_pos hp, List.find?_cons_of_pos hr]
        refine ⟨fun _ A x B hL hA => ?_, fun _ => rfl⟩
        cases A with
        | nil =>
          obtain ⟨rfl, _⟩ := List.cons.inj hL
          exact hz
        | cons a A =>
          obtain ⟨rfl, _⟩ := List.cons.inj hL
          exact absurd ⟨hp, hr⟩ (hA z List.mem_cons_self)
      · have hr : ¬ r z = true := hz ▸ hp
        rw [List.find?_cons_of_neg hp, List.find?_cons_of_neg hr, ih]
        constructor
        · intro h A x B hL hA
          cases A with
          | nil =>
            obtain ⟨rfl, _⟩ := List.cons.inj hL
            exact hz
          | cons a A =>
            obtain ⟨rfl, hrest⟩ := List.cons.inj hL
            exact h A x B hrest fun y hy => hA y (List.mem_cons_of_mem z hy)
        · intro h A x B hL hA
          apply h (z :: A) x B (by rw [hL, List.cons_append])
          intro y hy
          rcases List.mem_cons.mp hy with rfl | hy
          · exact fun hyy => hp hyy.1
          · exact hA y hy
    · have hne : L.find? p ≠ some z ∨ p z = true := by
        by_cases hp : p z = true
        · exact Or.inr hp
        · exact Or.inl fun hfound => hp (List.find?_some hfound)
      constructor
      · intro h
        exfalso
        by_cases hp : p z = true
        · have hr : ¬ r z = true := fun hr => hz (hp.trans hr.symm)
          rw [List.find?_cons_of_pos hp, List.find?_cons_of_neg hr] at h
          exact hr (List.find?_some h.symm)
        · have hr : r z = true := by
            cases hrz : r z with
            | true => rfl
            | false => exact absurd ((Bool.not_eq_true _ ▸ hp : p z = false).trans hrz.symm) hz
          rw [List.find?_cons_of_neg hp, List.find?_cons_of_pos hr] at h
          exact hp (List.find?_some h)
      · intro h
        exact absurd (h [] z L rfl (by simp)) hz

/-! ## Names and keys -/

/-- The name of an item, as the C string in its name field. -/
def Item.key (it : Item) : List Byte := it.name.toList.takeWhile (· ≠ 0)

/-- A key is a C string of 1 to 15 characters. -/
structure IsKey (key : List Byte) : Prop where
  pos : 0 < key.length
  le : key.length ≤ maxKeyLen
  chars : 0#8 ∉ key

theorem strnlen_eq_length {key : List Byte} (h : 0#8 ∉ key) {n : Nat} (hn : key.length ≤ n) :
    strnlen key n = key.length := by
  induction key generalizing n with
  | nil => cases n <;> rfl
  | cons c key ih =>
    obtain ⟨n, rfl⟩ : ∃ m, n = m + 1 := ⟨n - 1, by simp only [List.length_cons] at hn; omega⟩
    have hc : c ≠ 0 := fun hc => h (by rw [hc]; exact List.mem_cons_self)
    rw [strnlen, if_neg hc, ih (fun hk => h (List.mem_cons_of_mem c hk)) (Nat.le_of_succ_le_succ hn)]
    rfl

/-- Comparing as many characters as the key has only looks for the key at the front. -/
theorem strncmpEq_iff_isPrefix {name key : List Byte} (h : 0#8 ∉ key) (hlen : key.length ≤ name.length) :
    strncmpEq name key key.length = true ↔ key.IsPrefix (name.takeWhile (· ≠ 0)) := by
  induction key generalizing name with
  | nil => simp [strncmpEq]
  | cons c key ih =>
    cases name with
    | nil => simp at hlen
    | cons a name =>
      have hc : c ≠ 0 := fun hc => h (by rw [hc]; exact List.mem_cons_self)
      have hrest : strncmpEq name key key.length = true ↔ key.IsPrefix (name.takeWhile (· ≠ 0)) :=
        ih (fun hk => h (List.mem_cons_of_mem c hk)) (Nat.le_of_succ_le_succ hlen)
      rw [List.length_cons, strncmpEq, List.takeWhile_cons]
      by_cases hac : a = c
      · subst hac
        simp only [beq_self_eq_true, Bool.true_and, hc, ne_eq, not_false_eq_true, decide_true, if_true,
          List.cons_prefix_cons, true_and, beq_iff_eq, Bool.or_eq_true, false_or]
        exact hrest
      · constructor
        · intro heq
          simp only [Bool.and_eq_true, beq_iff_eq] at heq
          exact absurd heq.1 hac
        · intro hpre
          split at hpre
          · exact absurd (List.cons_prefix_cons.mp hpre).1.symm hac
          · exact absurd (List.prefix_nil.mp hpre) (List.cons_ne_nil c key)

/-! ## The linear scan -/

/-- The filters of a lookup besides the name. -/
def Query.fits (q : Query) (it : Item) : Bool := { q with key := none }.matches it

/-- The items the linear scan for `key` keeps. -/
def Query.keeps (q : Query) (key : List Byte) (it : Item) : Bool :=
  it.state == itemUsing && q.fits it && it.key == key

/-- The first item from slice `start` on that the scan keeps; a sector without a valid header has none. -/
def linearFind (st : Store) (s : Nat) (q : Query) (key : List Byte) (start : Nat) : Option Entry :=
  let sec := st.secArr s
  if sec.state = sectorCrash ∨ sec.state = sectorInvalid ∨ sec.state = sectorUninit then none
  else (itemsBelow st.flash sec).find? fun x => start ≤ x.1 && q.keeps key x.2

/-- The item has the hash that a lookup computes for the key. -/
def Query.SameHash (P : Port) (q : Query) (key : List Byte) (it : Item) : Prop :=
  itemCrcHash P it = itemCrcHash P (q.probe P key)

/-- The items the scan keeps have the hash of the lookup; the others in use that fit the filters and
have that hash do not have a name that goes on after the key. -/
structure HashSoundAt (P : Port) (q : Query) (key : List Byte) (it : Item) : Prop where
  kept : q.keeps key it = true → q.SameHash P key it
  collision : it.state = itemUsing → q.fits it = true → q.SameHash P key it → key.IsPrefix it.key → it.key = key

/-- Both hold up to the first item from slice `start` on that is kept and has the hash. -/
def HashSound (P : Port) (q : Query) (key : List Byte) (start : Nat) (L : List Entry) : Prop :=
  ∀ A x B, L = A ++ x :: B →
    (∀ y ∈ A, ¬ (start ≤ y.1 ∧ q.keeps key y.2 = true ∧ q.SameHash P key y.2)) →
    start ≤ x.1 → HashSoundAt P q key x.2

section Filters
variable {P : Port} {q : Query} {key : List Byte} {it : Item}

theorem matches_iff (hq : q.key = some key) (hkey : IsKey key) :
    q.matches it = true ↔ q.fits it = true ∧ key.IsPrefix it.key := by
  have hlen : key.length ≤ it.name.toList.length := by
    rw [Vector.length_toList]
    exact hkey.le
  have hname := strncmpEq_iff_isPrefix hkey.chars hlen
  simp only [Query.fits, Query.matches, hq, strnlen_eq_length hkey.chars hkey.le, Bool.and_eq_true,
    Bool.and_true, hname, Item.key]

theorem sees_iff (hq : q.key = some key) (hkey : IsKey key) :
    q.sees P it = true ↔
      it.state = itemUsing ∧ q.fits it = true ∧ key.IsPrefix it.key ∧ q.SameHash P key it := by
  simp only [Query.sees, hq, Bool.and_eq_true, beq_iff_eq, matches_iff hq hkey, Query.SameHash, and_assoc]

theorem keeps_iff : q.keeps key it = true ↔ it.state = itemUsing ∧ q.fits it = true ∧ it.key = key := by
  simp only [Query.keeps, Bool.and_eq_true, beq_iff_eq, and_assoc]

/-- A lookup takes the items the scan keeps and no others exactly when the hash is sound. -/
theorem sees_eq_keeps_iff (hq : q.key = some key) (hkey : IsKey key) :
    q.sees P it = q.keeps key it ↔ HashSoundAt P q key it := by
  rw [Bool.eq_iff_iff, sees_iff hq hkey, keeps_iff]
  constructor
  · intro h
    refine ⟨fun hkept => ?_, fun hu hfit hhash hpre => ?_⟩
    · exact (h.mpr (keeps_iff.mp hkept)).2.2.2
    · exact (h.mp ⟨hu, hfit, hpre, hhash⟩).2.2
  · intro h
    constructor
    · rintro ⟨hu, hfit, hpre, hhash⟩
      exact ⟨hu, hfit, h.collision hu hfit hhash hpre⟩
    · rintro ⟨hu, hfit, hname⟩
      exact ⟨hu, hfit, hname ▸ List.prefix_rfl, h.kept (keeps_iff.mpr ⟨hu, hfit, hname⟩)⟩

theorem sees_and_keeps_iff (hq : q.key = some key) (hkey : IsKey key) :
    (q.sees P it = true ∧ q.keeps key it = true) ↔ q.keeps key it = true ∧ q.SameHash P key it := by
  rw [sees_iff hq hkey]
  constructor
  · rintro ⟨⟨_, _, _, hhash⟩, hkept⟩
    exact ⟨hkept, hhash⟩
  · rintro ⟨hkept, hhash⟩
    obtain ⟨hu, hfit, hname⟩ := keeps_iff.mp hkept
    exact ⟨⟨hu, hfit, hname ▸ List.prefix_rfl, hhash⟩, hkept⟩

/-- An item that was initialised for the key with the group and segment of the lookup has its hash. -/
theorem sameHash_of_written (hname : it.name = nameField key) (hrecv : it.recv1 = 0)
    (hgroup : it.groupId = q.groupId.setWidth 6) (hseg : it.segId = q.segIndex) : q.SameHash P key it := by
  simp only [Query.SameHash, itemCrcHash, Query.probe, itemInit_name, itemInit_segId, Item.groupByte,
    itemInit_groupId, itemInit_recv1, hname, hrecv, hgroup, hseg]

/-- Where the items were initialised by `wm_nvs_item_init`, a lookup with the group and the segment of the
items it is for only depends on the names that share a hash. -/
theorem hashSoundAt_of_written (hname : it.name = nameField it.key) (hrecv : it.recv1 = 0)
    (hgroup : q.groupId ≠ groupIdAny) (hseg : q.fits it = true → it.segId = q.segIndex)
    (hcollision : it.state = itemUsing → q.fits it = true → q.SameHash P key it → key.IsPrefix it.key →
      it.key = key) : HashSoundAt P q key it where
  kept := by
    intro hkept
    obtain ⟨_, hfit, hkey⟩ := keeps_iff.mp hkept
    have hid : q.groupId = it.groupId.setWidth 8 := by
      simp only [Query.fits, Query.matches, Bool.and_eq_true, Bool.or_eq_true, beq_iff_eq] at hfit
      exact hfit.1.1.1.1.resolve_left hgroup
    refine sameHash_of_written (by rw [hname, hkey]) hrecv ?_ (hseg hfit)
    rw [hid, BitVec.setWidth_setWidth_of_le _ (by decide), BitVec.setWidth_eq]
  collision := hcollision

end Filters

/-! ## The lookup -/

section Find
variable {P : Port} {st : Store} {s start : Nat} {q : Query} {key : List Byte}

theorem mem_itemsBelow {f : Flash} {sec : Sector} {x : Entry} (hx : x ∈ itemsBelow f sec) :
    x.1 < sec.nextFreeSlice ∧ x.1 < 127 ∧ readItem f (sliceAddr sec.address x.1) = x.2 := by
  obtain ⟨hmem, hlt⟩ := List.mem_filter.mp hx
  obtain ⟨_, hin, _, hread⟩ := walk_mem hmem
  exact ⟨of_decide_eq_true hlt, hin, hread⟩

theorem itemsBelow_pairwise (f : Flash) (sec : Sector) :
    (itemsBelow f sec).Pairwise fun x y => x.1 + x.2.span ≤ y.1 := by
  obtain ⟨e, hchain, _⟩ := walk_chain f sec.address entryCount 0 (by decide)
  exact hchain.pairwise.filter _

theorem itemsBelow_length_le (f : Flash) (sec : Sector) : (itemsBelow f sec).length ≤ entryCount := by
  apply Nat.le_trans (List.length_filter_le _ _)
  rcases walk_length_le f sec.address entryCount 0 (by decide) with hlen | hnil
  · exact hlen
  · rw [hnil]
    exact Nat.zero_le _

/-- On a sector whose hash table is that of its content, a lookup by key takes the first item from
the start on that it sees. -/
theorem sectorFindItem_hashed (hacc : Accounted P st.flash (st.secArr s)) (hq : q.key = some key)
    (hstate : ¬ ((st.secArr s).state = sectorCrash ∨ (st.secArr s).state = sectorInvalid ∨
      (st.secArr s).state = sectorUninit)) :
    sectorFindItem P st s q start =
      (itemsBelow st.flash (st.secArr s)).find? fun x => start ≤ x.1 && q.sees P x.2 := by
  rw [sectorFindItem_eq]
  unfold sectorFind
  simp only [if_neg hstate]
  split
  next hlate =>
    symm
    apply List.find?_eq_none.mpr
    intro x hx hsees
    have hlt := (mem_itemsBelow hx).2.1
    simp only [Bool.and_eq_true, decide_eq_true_eq] at hsees
    simp only [entryCount] at hlate
    omega
  next =>
    apply findLoop_hashed hacc.hash (fun x hx => (mem_itemsBelow hx).2.2) (itemsBelow_pairwise _ _) _ hq
    · exact Nat.le_trans (List.length_filter_le _ _) (itemsBelow_length_le _ _)
    · intro x hx
      obtain ⟨hnext, hin, _⟩ := mem_itemsBelow hx
      simp only [entryCount]
      omega

/-- The lookup by key gives what the linear scan gives exactly when the hash is sound. -/
theorem sectorFindItem_eq_linearFind_iff (P : Port) (st : Store) (s : Nat) (q : Query) (key : List Byte) (start : Nat)
    (hacc : Accounted P st.flash (st.secArr s)) (hq : q.key = some key) (hkey : IsKey key) :
    sectorFindItem P st s q start = linearFind st s q key start ↔
      ((st.secArr s).state = sectorCrash ∨ (st.secArr s).state = sectorInvalid ∨
          (st.secArr s).state = sectorUninit) ∨
        HashSound P q key start (itemsBelow st.flash (st.secArr s)) := by
  by_cases hstate : (st.secArr s).state = sectorCrash ∨ (st.secArr s).state = sectorInvalid ∨
      (st.secArr s).state = sectorUninit
  · have hlinear : linearFind st s q key start = none := by
      simp only [linearFind, if_pos hstate]
    have hfind : sectorFindItem P st s q start = none := by
      rw [sectorFindItem_eq]
      unfold sectorFind
      simp only [if_pos hstate]
      rfl
    rw [hlinear, hfind]
    exact ⟨fun _ => Or.inl hstate, fun _ => rfl⟩
  · have hlinear : linearFind st s q key start =
        (itemsBelow st.flash (st.secArr s)).find? fun x => start ≤ x.1 && q.keeps key x.2 := by
      simp only [linearFind, if_neg hstate]
    rw [hlinear, sectorFindItem_hashed hacc hq hstate, find?_eq_find?_iff, or_iff_right hstate]
    apply forall_congr'
    intro A
    apply forall_congr'
    intro x
    apply forall_congr'
    intro B
    apply imp_congr_right
    intro _
    have hbefore : (∀ y ∈ A, ¬ ((decide (start ≤ y.1) && q.sees P y.2) = true ∧
          (decide (start ≤ y.1) && q.keeps key y.2) = true)) ↔
        ∀ y ∈ A, ¬ (start ≤ y.1 ∧ q.keeps key y.2 = true ∧ q.SameHash P key y.2) := by
      apply forall_congr'
      intro y
      apply imp_congr_right
      intro _
      apply not_congr
      rw [← sees_and_keeps_iff hq hkey]
      simp only [Bool.and_eq_true, decide_eq_true_eq]
      exact ⟨fun h => ⟨h.1.1, h.1.2, h.2.2⟩, fun h => ⟨⟨h.1, h.2.1⟩, h.1, h.2.2⟩⟩
    rw [hbefore]
    apply imp_congr_right
    intro _
    by_cases hx : start ≤ x.1
    · rw [decide_eq_true hx, Bool.true_and, Bool.true_and, sees_eq_keeps_iff hq hkey]
      exact ⟨fun h _ => h, fun h => h hx⟩
    · rw [decide_eq_false hx, Bool.false_and, Bool.false_and]
      exact ⟨fun _ h => absurd h hx, fun _ => rfl⟩

end Find

def wifi : List Byte := [0x77, 0x69, 0x66, 0x69]

/-- A key that starts with `wifi` and has the same 24 bits of CRC-32. -/
def wifintoda : List Byte := wifi ++ [0x6e, 0x74, 0x6f, 0x64, 0x61]

/-- A mounted partition after one write. -/
def keyedStore (key : List Byte) : Store := (StorageOp.write 1 .uint8 key [1]).run testPort 0 testStore

theorem sectorFindItem_eq_linearFind_iff_wifi :
    sectorFindItem testPort (keyedStore wifi) 0 (keyQuery 1 .uint8 wifi) 0 =
        linearFind (keyedStore wifi) 0 (keyQuery 1 .uint8 wifi) wifi 0 ↔
      (((keyedStore wifi).secArr 0).state = sectorCrash ∨ ((keyedStore wifi).secArr 0).state = sectorInvalid ∨
          ((keyedStore wifi).secArr 0).state = sectorUninit) ∨
        HashSound testPort (keyQuery 1 .uint8 wifi) wifi 0
          (itemsBelow (keyedStore wifi).flash ((keyedStore wifi).secArr 0)) := by
  have hacc : Accounted testPort (keyedStore wifi).flash ((keyedStore wifi).secArr 0) := by
    rw [accounted_iff]
    decide +kernel
  exact sectorFindItem_eq_linearFind_iff testPort (keyedStore wifi) 0 (keyQuery 1 .uint8 wifi) wifi 0 hacc rfl
    ⟨by decide, by decide, by decide⟩

/-- With only the longer key stored, the lookup of the shorter one finds it. -/
theorem prefix_key_found :
    IsKey wifi ∧ Accounted testPort (keyedStore wifintoda).flash ((keyedStore wifintoda).secArr 0) ∧
      (sectorFindItem testPort (keyedStore wifintoda) 0 (keyQuery 1 .uint8 wifi) 0).map (fun x => x.2.key) =
        some wifintoda ∧
      linearFind (keyedStore wifintoda) 0 (keyQuery 1 .uint8 wifi) wifi 0 = none := by
  refine ⟨⟨by decide, by decide, by decide⟩, ?_⟩
  rw [accounted_iff]
  decide +kernel

end WmIot.Nvs
