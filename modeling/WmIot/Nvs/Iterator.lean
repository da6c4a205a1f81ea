import WmIot.Nvs.Lists
import WmIot.Nvs.Runs

/-!
# The iterator

`wm_nvs_iterator.c`. The iterator keeps a sector and a slice index between its calls and walks
the ring of the active list until it meets the head. What is still to come is a list of items:
a call yields its first element and leaves the rest.
-/

namespace WmIot.Nvs
open NorFlash
set_option autoImplicit false

/-- `wm_nvs_entry_t`. -/
structure EntryInfo where
  group : List Byte := []
  key : List Byte := []
  type : BitVec 4 := 0
  groupId : BitVec 6 := 0
  length : Nat := 0
  deriving DecidableEq

/-- `wm_nvs_iterator_info_t`. -/
structure Iterator where
  groupId : Byte
  type : NvsType
  sector : Option Nat := none
  sliceIndex : Nat := 0
  info : EntryInfo := {}
  deriving DecidableEq

/-- Where a `list.next` of a sector points. The head of the idle list and a NULL pointer are
no sectors, but the loop would take them for one. -/
inductive Node where
  | sector (s : Nat)
  | activeHead
  | stray
  deriving DecidableEq

/-- The element behind `s` in a ring with head `head`. -/
def ringNext (head : Node) (s : Nat) : List Nat → Node
  | [] => head
  | e :: es => if e = s then es.head?.elim head .sector else ringNext head s es

def Store.nextNode (st : Store) (s : Nat) : Node :=
  if s ∈ st.active then ringNext .activeHead s st.active else ringNext .stray s st.idle

/-- `dl_list_first` of the active list. -/
def Store.firstNode (st : Store) : Node :=
  match st.active with
  | [] => .stray
  | s :: _ => .sector s

def findGroupById (st : Store) (groupId : BitVec 6) : Option Group :=
  st.groupList.find? fun g => g.id == groupId.setWidth 8

def EntryInfo.ofItem (st : Store) (it : Item) : EntryInfo where
  group :=
    match if it.groupId.toNat > 0 then findGroupById st it.groupId else none with
    | some g => g.name.take maxKeyLen
    | none => []
  key := cstr it.name.toList maxKeyLen
  type := it.type
  groupId := it.groupId
  length := if it.type = NvsType.blob.code then it.allSize else it.length.toNat

/-- How a call of `wm_nvs_iterator_next` ends. -/
inductive NextResult where
  | found (it : Iterator) (s index : Nat) (item : Item)
  | notFound
  | stray
  | running
  deriving DecidableEq

def Iterator.query (it : Iterator) : Query where
  groupId := it.groupId
  type := if it.type = .any then NvsType.anyWithoutSeg.code else it.type.code
  key := none
  segIndex := segIdAny
  segStart := segStartAny

/-- The loop of `wm_nvs_iterator_next`, with the sectors it looks at. -/
def iteratorNextLoop (P : Port) (st : Store) (it : Iterator) : Nat → Node → Nat → List Nat × NextResult
  | 0, _, _ => ([], .running)
  | _ + 1, .activeHead, _ => ([], .notFound)
  | _ + 1, .stray, _ => ([], .stray)
  | n + 1, .sector s, index =>
    match sectorFindItem P st s it.query index with
    | some (i, item) =>
      ([s], .found { it with
        sector := some s, sliceIndex := i + item.span, info := EntryInfo.ofItem st item } s i item)
    | none =>
      let rest := iteratorNextLoop P st it n (st.nextNode s) 0
      (s :: rest.1, rest.2)

def iteratorNext (P : Port) (fuel : Nat) (st : Store) (it : Iterator) : List Nat × NextResult :=
  match it.sector with
  | none => iteratorNextLoop P st it fuel st.firstNode 0
  | some s => iteratorNextLoop P st it fuel (.sector s) it.sliceIndex

/-- Calls of `wm_nvs_iterator_next` until one does not find an item, at most `n` of them. -/
def iterate (P : Port) (fuel : Nat) (st : Store) : Nat → Iterator → List (Nat × Entry) × NextResult
  | 0, _ => ([], .running)
  | n + 1, it =>
    match (iteratorNext P fuel st it).2 with
    | .found it s i item =>
      let rest := iterate P fuel st n it
      ((s, i, item) :: rest.1, rest.2)
    | res => ([], res)

/-! ## What is still to come -/

/-- The items of sector `s` from slice `start` on. -/
def Store.itemsFrom (st : Store) (s start : Nat) : List Entry :=
  let sec := st.secArr s
  if sec.state = sectorCrash ∨ sec.state = sectorInvalid ∨ sec.state = sectorUninit then []
  else scan st.flash sec.address (min sec.nextFreeSlice entryCount) entryCount start

/-- Those the iterator asks for. -/
def Store.wantedFrom (P : Port) (st : Store) (q : Query) (s start : Nat) : List (Nat × Entry) :=
  ((st.itemsFrom s start).filter fun x => q.sees P x.2).map fun x => (s, x)

/-- What the iterator yields of the sectors `L`. -/
def Store.wanted (P : Port) (st : Store) (q : Query) (L : List Nat) : List (Nat × Entry) :=
  L.flatMap fun s => st.wantedFrom P q s 0

section Scan
variable {P : Port} {f : Flash} {addr end_ : Nat}

/-- Turns behind the end of the items change nothing. -/
theorem scan_fuel (n m i : Nat) (hn : end_ ≤ i + n) (hm : end_ ≤ i + m) :
    scan f addr end_ n i = scan f addr end_ m i := by
  induction n generalizing m i with
  | zero =>
    cases m with
    | zero => rfl
    | succ m => rw [scan, scan, if_neg (by omega)]
  | succ n ih =>
    cases m with
    | zero => rw [scan, scan, if_neg (by omega)]
    | succ m =>
      have hs := (readItem f (sliceAddr addr i)).span_pos
      have hrest := ih m (i + (readItem f (sliceAddr addr i)).span) (by omega) (by omega)
      rw [scan, scan]
      simp only [hrest]

/-- Behind the first item found comes the rest of the walk. -/
theorem scan_find {p : Entry → Bool} {x : Entry} (n i : Nat) (hn : end_ ≤ i + n)
    (h : (scan f addr end_ n i).find? p = some x) :
    (scan f addr end_ n i).filter p = x :: (scan f addr end_ n (x.1 + x.2.span)).filter p := by
  induction n generalizing i with
  | zero => simp [scan] at h
  | succ n ih =>
    have hs := (readItem f (sliceAddr addr i)).span_pos
    unfold scan at h ⊢
    split at h
    · rename_i hi
      simp only at h
      split at h
      · rename_i hstate
        simp only [if_pos hi, if_pos hstate]
        rw [List.find?_cons] at h
        rw [List.filter_cons]
        split at h
        · rename_i hp
          obtain rfl := Option.some.inj h
          rw [if_pos hp]
          have hfuel : scan f addr end_ n (i + (readItem f (sliceAddr addr i)).span) =
              scan f addr end_ (n + 1) (i + (readItem f (sliceAddr addr i)).span) :=
            scan_fuel n (n + 1) _ (by omega) (by omega)
          rw [hfuel, scan]
        · rename_i hp
          have hrest := ih (i + (readItem f (sliceAddr addr i)).span) (by omega) h
          have hmem := List.mem_of_find?_eq_some h
          have hle := (scan_chain f addr end_ n (i + (readItem f (sliceAddr addr i)).span)).choose_spec.1.mem_bounds hmem
          have hfuel : scan f addr end_ n (x.1 + x.2.span) = scan f addr end_ (n + 1) (x.1 + x.2.span) :=
            scan_fuel n (n + 1) _ (by omega) (by omega)
          rw [if_neg (by simpa using hp), hrest, hfuel, scan]
      · simp at h
    · simp at h

end Scan

section Sector
variable {P : Port} {st : Store} {s start : Nat} {q : Query}

theorem find_itemsFrom (hq : q.key = none) :
    sectorFindItem P st s q start = (st.itemsFrom s start).find? fun x => q.sees P x.2 := by
  rw [sectorFindItem_eq]
  unfold sectorFind Store.itemsFrom
  simp only
  split
  · rfl
  · split
    · rename_i hge
      have hmin : min (st.secArr s).nextFreeSlice entryCount ≤ entryCount := Nat.min_le_right _ _
      rw [show entryCount = 126 + 1 from rfl] at hge hmin ⊢
      rw [scan, if_neg (by omega)]
      rfl
    · exact findLoop_walk hq entryCount start Item.zero

/-- A search in a sector splits what is wanted of it. -/
theorem wantedFrom_found (hq : q.key = none) {i : Nat} {item : Item}
    (h : sectorFindItem P st s q start = some (i, item)) :
    st.wantedFrom P q s start = (s, i, item) :: st.wantedFrom P q s (i + item.span) := by
  rw [find_itemsFrom hq] at h
  unfold Store.wantedFrom
  unfold Store.itemsFrom at h ⊢
  simp only at h ⊢
  split at h
  · simp at h
  · rename_i hs
    simp only [if_neg hs]
    rw [scan_find (x := (i, item)) entryCount start (by omega) h, List.map_cons]

theorem wantedFrom_none (hq : q.key = none) (h : sectorFindItem P st s q start = none) :
    st.wantedFrom P q s start = [] := by
  rw [find_itemsFrom hq] at h
  unfold Store.wantedFrom
  rw [List.filter_eq_nil_iff.mpr (List.find?_eq_none.mp h)]
  rfl

end Sector

/-! ## The walk round the ring -/

section Ring
variable {P : Port} {st : Store} {it : Iterator} {s : Nat}

theorem ringNext_append {head : Node} {A B : List Nat} (hs : s ∉ A) :
    ringNext head s (A ++ s :: B) = B.head?.elim head .sector := by
  induction A with
  | nil => exact if_pos rfl
  | cons e A ih =>
    have he : ¬ e = s := by
      rintro rfl
      exact hs List.mem_cons_self
    rw [List.cons_append, ringNext, if_neg he]
    exact ih fun hm => hs (List.mem_cons_of_mem e hm)

theorem ringNext_mem {head : Node} {L : List Nat} :
    ringNext head s L = head ∨ ∃ t ∈ L, ringNext head s L = .sector t := by
  induction L with
  | nil => exact Or.inl rfl
  | cons e L ih =>
    unfold ringNext
    split
    · cases L with
      | nil => exact Or.inl rfl
      | cons t L => exact Or.inr ⟨t, List.mem_cons_of_mem e List.mem_cons_self, rfl⟩
    · rcases ih with hh | ⟨t, ht, hn⟩
      · exact Or.inl hh
      · exact Or.inr ⟨t, List.mem_cons_of_mem e ht, hn⟩

/-- From an active sector on the loop looks at active sectors only. -/
theorem iteratorNextLoop_active (n index : Nat) (hs : s ∈ st.active) :
    (∀ t ∈ (iteratorNextLoop P st it n (.sector s) index).1, t ∈ st.active) ∧
      (iteratorNextLoop P st it n (.sector s) index).2 ≠ .stray := by
  induction n generalizing s index with
  | zero => exact ⟨by simp [iteratorNextLoop], fun h => NextResult.noConfusion h⟩
  | succ n ih =>
    unfold iteratorNextLoop
    split
    · refine ⟨fun t ht => ?_, fun h => NextResult.noConfusion h⟩
      rwa [List.mem_singleton.mp ht]
    · simp only
      have hnode : st.nextNode s = .activeHead ∨ ∃ t ∈ st.active, st.nextNode s = .sector t := by
        rw [Store.nextNode, if_pos hs]
        exact ringNext_mem
      rcases hnode with hhead | ⟨t, ht, hnext⟩
      · rw [hhead]
        cases n with
        | zero =>
          refine ⟨fun t ht => ?_, fun h => NextResult.noConfusion h⟩
          rwa [List.mem_singleton.mp ht]
        | succ n =>
          refine ⟨fun t ht => ?_, fun h => NextResult.noConfusion h⟩
          rwa [List.mem_singleton.mp ht]
      · rw [hnext]
        obtain ⟨hin, hres⟩ := ih 0 ht
        refine ⟨fun u hu => ?_, hres⟩
        rcases List.mem_cons.mp hu with rfl | hu
        · exact hs
        · exact hin u hu

/-- What an iterator in front of `L` yields next. -/
structure Remains (P : Port) (st : Store) (it : Iterator) (L : List (Nat × Entry)) : Prop where
  split : ∃ s A B, it.sector = some s ∧ st.active = A ++ s :: B ∧
    L = st.wantedFrom P it.query s it.sliceIndex ++ st.wanted P it.query B

/-- The loop yields the first item still to come and leaves the others. -/
theorem iteratorNextLoop_spec (P : Port) (it : Iterator) (index : Nat) (hnd : st.active.Nodup)
    {B : List Nat} {n : Nat} (A : List Nat) (hact : st.active = A ++ s :: B) (hn : B.length + 2 ≤ n) :
    match st.wantedFrom P it.query s index ++ st.wanted P it.query B with
    | [] => (iteratorNextLoop P st it n (.sector s) index).2 = .notFound
    | y :: L => ∃ it', (iteratorNextLoop P st it n (.sector s) index).2 = .found it' y.1 y.2.1 y.2.2 ∧
      it'.groupId = it.groupId ∧ it'.type = it.type ∧ Remains P st it' L := by
  have hkey : it.query.key = none := rfl
  induction B generalizing A s n index with
  | nil =>
    obtain ⟨m, rfl⟩ : ∃ m, n = m + 2 := ⟨n - 2, by simp only [List.length_nil] at hn; omega⟩
    unfold iteratorNextLoop
    cases hfind : sectorFindItem P st s it.query index with
    | some r =>
      obtain ⟨i, item⟩ := r
      rw [wantedFrom_found hkey hfind]
      exact ⟨_, rfl, rfl, rfl, ⟨s, A, [], rfl, hact, rfl⟩⟩
    | none =>
      rw [wantedFrom_none hkey hfind]
      have hs : s ∈ st.active := by
        rw [hact]
        simp
      have hsA : s ∉ A := by
        rw [hact] at hnd
        exact fun hm => (List.nodup_append.mp hnd).2.2 s hm s List.mem_cons_self rfl
      have hnode : st.nextNode s = .activeHead := by
        rw [Store.nextNode, if_pos hs, hact, ringNext_append hsA]
        rfl
      simp only [hnode]
      rfl
  | cons t B ih =>
    obtain ⟨m, rfl⟩ : ∃ m, n = m + 1 := ⟨n - 1, by omega⟩
    unfold iteratorNextLoop
    cases hfind : sectorFindItem P st s it.query index with
    | some r =>
      obtain ⟨i, item⟩ := r
      rw [wantedFrom_found hkey hfind]
      exact ⟨_, rfl, rfl, rfl, ⟨s, A, t :: B, rfl, hact, rfl⟩⟩
    | none =>
      rw [wantedFrom_none hkey hfind, List.nil_append]
      have hs : s ∈ st.active := by
        rw [hact]
        simp
      have hsA : s ∉ A := by
        rw [hact] at hnd
        exact fun hm => (List.nodup_append.mp hnd).2.2 s hm s List.mem_cons_self rfl
      have hnode : st.nextNode s = .sector t := by
        rw [Store.nextNode, if_pos hs, hact, ringNext_append hsA]
        rfl
      simp only [hnode]
      apply ih 0 (A ++ [s])
      · rw [hact]
        simp
      · simp only [List.length_cons] at hn
        omega

end Ring

/-! ## Safety of a call -/

/-- A call returns and looks at nothing but active sectors. -/
structure NextSafe (P : Port) (st : Store) (it : Iterator) : Prop where
  ends : ∀ fuel, st.active.length < fuel → (iteratorNext P fuel st it).2 ≠ .running
  active : ∀ fuel, ∀ s ∈ (iteratorNext P fuel st it).1, s ∈ st.active
  inside : ∀ fuel, (iteratorNext P fuel st it).2 ≠ .stray

/-- The iterator has not begun, or stands in an active sector. -/
def Iterator.InPlace (st : Store) (it : Iterator) : Prop := ∀ s, it.sector = some s → s ∈ st.active

section Call
variable {P : Port} {st : Store} {it : Iterator}

theorem firstNode_cons {s : Nat} {B : List Nat} (h : st.active = s :: B) : st.firstNode = .sector s := by
  rw [Store.firstNode, h]

theorem iteratorNext_start {s : Nat} {B : List Nat} (h : st.active = s :: B) (hit : it.sector = none)
    (fuel : Nat) : iteratorNext P fuel st it = iteratorNextLoop P st it fuel (.sector s) 0 := by
  unfold iteratorNext
  rw [hit, firstNode_cons h]

theorem iteratorNext_resume {s : Nat} (hit : it.sector = some s) (fuel : Nat) :
    iteratorNext P fuel st it = iteratorNextLoop P st it fuel (.sector s) it.sliceIndex := by
  unfold iteratorNext
  rw [hit]

theorem nextSafe_iff (hnd : st.active.Nodup) (hne : st.active ≠ []) : NextSafe P st it ↔ it.InPlace st := by
  constructor
  · intro h s hs
    apply h.active 1 s
    rw [iteratorNext_resume hs]
    unfold iteratorNextLoop
    split
    · exact List.mem_singleton_self s
    · exact List.mem_cons_self
  · intro hplace
    -- the call is the loop from an active sector on
    obtain ⟨s, index, A, B, hact, hrun⟩ : ∃ s index A B, st.active = A ++ s :: B ∧
        ∀ fuel, iteratorNext P fuel st it = iteratorNextLoop P st it fuel (.sector s) index := by
      cases hit : it.sector with
      | none =>
        obtain ⟨s, B, hact⟩ := List.exists_cons_of_ne_nil hne
        exact ⟨s, 0, [], B, hact, iteratorNext_start hact hit⟩
      | some s =>
        obtain ⟨A, B, hact⟩ := List.append_of_mem (hplace s hit)
        exact ⟨s, it.sliceIndex, A, B, hact, iteratorNext_resume hit⟩
    have hs : s ∈ st.active := by
      rw [hact]
      simp
    refine ⟨fun fuel hfuel => ?_, fun fuel => ?_, fun fuel => ?_⟩
    · have hlen : B.length + 2 ≤ fuel := by
        rw [hact, List.length_append, List.length_cons] at hfuel
        omega
      have hspec := iteratorNextLoop_spec P it index hnd A hact hlen
      rw [hrun]
      split at hspec
      · rw [hspec]
        exact fun h => NextResult.noConfusion h
      · obtain ⟨it', hfound, _⟩ := hspec
        rw [hfound]
        exact fun h => NextResult.noConfusion h
    · rw [hrun]
      exact (iteratorNextLoop_active fuel index hs).1
    · rw [hrun]
      exact (iteratorNextLoop_active fuel index hs).2

end Call

/-! ## Iterating without updates -/

/-- The items an iterator is to yield: those of its group and type that are no blob segments. -/
def Iterator.Wants (it : Iterator) (item : Item) : Prop :=
  (it.groupId = groupIdAny ∨ it.groupId = item.groupId.setWidth 8) ∧
    (it.type = .any ∨ it.type = .anyWithoutSeg ∨ it.type.code = item.type) ∧
    item.type ≠ NvsType.blobSeg.code

instance (it : Iterator) (item : Item) : Decidable (it.Wants item) :=
  inferInstanceAs (Decidable (_ ∧ _))

/-- The live items of the active sectors an iterator is to yield, each with its sector. -/
def Iterator.selection (it : Iterator) (st : Store) : List (Nat × Entry) :=
  st.active.flatMap fun s => ((st.items s).filter fun x => x.Live ∧ it.Wants x.2).map fun x => (s, x)

section Iterate
variable {P : Port} {st : Store} {it : Iterator} {fuel n : Nat}

theorem Iterator.sees_iff (it : Iterator) (ht : it.type ≠ .blobSeg) (x : Entry) :
    it.query.sees P x.2 = true ↔ x.Live ∧ it.Wants x.2 := by
  have htype : ((it.query.type = NvsType.any.code ∨ it.query.type = x.2.type) ∨
      (it.query.type = NvsType.anyWithoutSeg.code ∧ x.2.type ≠ NvsType.blobSeg.code)) ↔
      (it.type = .any ∨ it.type = .anyWithoutSeg ∨ it.type.code = x.2.type) ∧
        x.2.type ≠ NvsType.blobSeg.code := by
    by_cases hall : it.type = .any ∨ it.type = .anyWithoutSeg
    · have hq : it.query.type = NvsType.anyWithoutSeg.code := by
        rcases hall with h | h <;> simp [Iterator.query, h]
      have hleft : it.type = .any ∨ it.type = .anyWithoutSeg ∨ it.type.code = x.2.type :=
        hall.imp id Or.inl
      rw [hq]
      constructor
      · rintro ((h | h) | ⟨_, h⟩)
        · exact absurd h (by decide)
        · exact ⟨hleft, by rw [← h]; decide⟩
        · exact ⟨hleft, h⟩
      · exact fun h => Or.inr ⟨rfl, h.2⟩
    · obtain ⟨hany, hwithout⟩ := not_or.mp hall
      have hq : it.query.type = it.type.code := by simp [Iterator.query, hany]
      rw [hq]
      have hne : ∀ {t : NvsType}, it.type ≠ t → it.type.code ≠ t.code :=
        fun h hc => h (NvsType.code_injective hc)
      constructor
      · rintro ((h | h) | ⟨h, _⟩)
        · exact absurd h (hne hany)
        · exact ⟨Or.inr (Or.inr h), by rw [← h]; exact hne ht⟩
        · exact absurd h (hne hwithout)
      · rintro ⟨h | h | h, _⟩
        · exact absurd h hany
        · exact absurd h hwithout
        · exact Or.inl (Or.inr h)
  have hkey : it.query.key = none := rfl
  have hmatch : it.query.matches x.2 = true ↔ it.Wants x.2 := by
    unfold Iterator.Wants
    rw [← htype]
    simp [Query.matches, Iterator.query]
  simp only [Query.sees, hkey, Bool.and_true, Bool.and_eq_true, beq_iff_eq, hmatch, Entry.Live]

theorem selection_eq (it : Iterator) (ht : it.type ≠ .blobSeg) :
    st.wanted P it.query st.active = it.selection st := by
  apply List.flatMap_congr
  intro s _
  unfold Store.wantedFrom
  congr 1
  apply List.filter_congr
  intro x _
  have hiff := it.sees_iff (P := P) ht x
  rw [Bool.eq_iff_iff, hiff, decide_eq_true_iff]

theorem Remains.iterate (hnd : st.active.Nodup) (hfuel : st.active.length < fuel) {L : List (Nat × Entry)}
    (h : Remains P st it L) (hn : L.length < n) : Nvs.iterate P fuel st n it = (L, .notFound) := by
  induction L generalizing it n with
  | nil =>
    obtain ⟨n, rfl⟩ : ∃ m, n = m + 1 := ⟨n - 1, by simp only [List.length_nil] at hn; omega⟩
    obtain ⟨s, A, B, hit, hact, hL⟩ := h.split
    have hlen : B.length + 2 ≤ fuel := by
      rw [hact, List.length_append, List.length_cons] at hfuel
      omega
    have hspec := iteratorNextLoop_spec P it it.sliceIndex hnd A hact hlen
    rw [← hL] at hspec
    unfold Nvs.iterate
    rw [iteratorNext_resume hit, hspec]
  | cons y L ih =>
    obtain ⟨n, rfl⟩ : ∃ m, n = m + 1 := ⟨n - 1, by omega⟩
    obtain ⟨s, A, B, hit, hact, hL⟩ := h.split
    have hlen : B.length + 2 ≤ fuel := by
      rw [hact, List.length_append, List.length_cons] at hfuel
      omega
    have hspec := iteratorNextLoop_spec P it it.sliceIndex hnd A hact hlen
    rw [← hL] at hspec
    obtain ⟨it', hfound, _, _, hrest⟩ := hspec
    have hlt : L.length < n := by
      simp only [List.length_cons] at hn
      omega
    unfold Nvs.iterate
    rw [iteratorNext_resume hit, hfound]
    simp only [ih hrest hlt]

/-- A fresh iterator yields its selection and then ends. -/
theorem iterate_selection (hnd : st.active.Nodup) (hne : st.active ≠ []) (hfuel : st.active.length < fuel)
    (ht : it.type ≠ .blobSeg) (hit : it.sector = none) (hn : (it.selection st).length < n) :
    iterate P fuel st n it = (it.selection st, .notFound) := by
  obtain ⟨s, B, hact⟩ := List.exists_cons_of_ne_nil hne
  obtain ⟨n, rfl⟩ : ∃ m, n = m + 1 := ⟨n - 1, by omega⟩
  have hlen : B.length + 2 ≤ fuel := by
    rw [hact, List.length_cons] at hfuel
    omega
  have hspec := iteratorNextLoop_spec P it 0 hnd [] hact hlen
  have hall : st.wantedFrom P it.query s 0 ++ st.wanted P it.query B = it.selection st := by
    rw [← selection_eq (P := P) it ht, hact]
    rfl
  rw [hall] at hspec
  unfold iterate
  rw [iteratorNext_start hact hit]
  cases hsel : it.selection st with
  | nil =>
    rw [hsel] at hspec
    rw [hspec]
  | cons y L =>
    rw [hsel] at hspec hn
    obtain ⟨it', hfound, _, _, hrest⟩ := hspec
    have hlt : L.length < n := by
      simp only [List.length_cons] at hn
      omega
    rw [hfound]
    simp only [hrest.iterate hnd hfuel hlt]

theorem items_pairwise (st : Store) (s : Nat) : (st.items s).Pairwise fun x y => x.1 < y.1 := by
  unfold Store.items
  simp only
  split
  · exact List.Pairwise.nil
  · obtain ⟨e, hc, _⟩ := scan_chain st.flash (st.secArr s).address
      (min (st.secArr s).nextFreeSlice entryCount) entryCount 0
    apply hc.pairwise.imp
    intro x y hxy
    have hs := x.2.span_pos
    omega

/-- No item is selected twice. -/
theorem selection_nodup (hnd : st.active.Nodup) :
    ((it.selection st).map fun y => (y.1, y.2.1)).Nodup := by
  unfold Iterator.selection
  rw [List.map_flatMap, List.nodup_flatMap]
  constructor
  · intro s _
    rw [List.map_map]
    apply List.Pairwise.map _ _ ((items_pairwise st s).filter _)
    intro x y hxy heq
    have hind : x.1 = y.1 := (Prod.mk.inj heq).2
    omega
  · apply hnd.imp
    intro s t hne y hy hy'
    obtain ⟨x, hx, rfl⟩ := List.mem_map.mp hy
    obtain ⟨x', hx', hxx⟩ := List.mem_map.mp hy'
    obtain ⟨z, _, rfl⟩ := List.mem_map.mp hx
    obtain ⟨z', _, rfl⟩ := List.mem_map.mp hx'
    exact hne (Prod.mk.inj hxx).1.symm

end Iterate

/-! ## Runs with updates between the calls -/

/-- The states of a store and of one iterator for group `g` and type `t`, with writes and
deletions between the calls that yield an item. -/
inductive IteratorRun (P : Port) (st₀ : Store) (g : Byte) (t : NvsType) : Store → Iterator → Prop where
  | start : IteratorRun P st₀ g t st₀ { groupId := g, type := t }
  | next {st : Store} {it it' : Iterator} {s index : Nat} {item : Item} (fuel : Nat)
      (h : IteratorRun P st₀ g t st it)
      (hfound : (iteratorNext P fuel st it).2 = .found it' s index item) : IteratorRun P st₀ g t st it'
  | write {st : Store} {it : Iterator} (fuel : Nat) (groupId : Byte) (type : NvsType)
      (key data : List Byte) (h : IteratorRun P st₀ g t st it) :
      IteratorRun P st₀ g t (storageWriteItem P fuel st groupId type key data).2 it
  | del {st : Store} {it : Iterator} (groupId : Byte) (type : NvsType) (key : List Byte)
      (h : IteratorRun P st₀ g t st it) :
      IteratorRun P st₀ g t (storageDelItem P st groupId type key).2 it

theorem IteratorRun.shuffles {P : Port} {st₀ st : Store} {g : Byte} {t : NvsType} {it : Iterator}
    (h : IteratorRun P st₀ g t st it) : Shuffles st₀ st := by
  induction h with
  | start => exact .refl st₀
  | next _ _ _ ih => exact ih
  | write fuel groupId type key data _ ih =>
    exact ih.trans (storageWriteItem_shuffles P _ fuel groupId type key data)
  | del groupId type key _ ih => exact ih.trans (storageDelItem_lists P _ groupId type key).shuffles

/-- In every run a call is safe exactly when the iterator stands in an active sector; without
updates a fresh iterator yields the live items it is for, each once, and then ends. -/
theorem iterator_safety (P : Port) {st₀ : Store} (hnd : (st₀.active ++ st₀.idle).Nodup)
    (hne : st₀.active ≠ []) {g : Byte} {t : NvsType} (ht : t ≠ .blobSeg) {st : Store} {it : Iterator}
    (hrun : IteratorRun P st₀ g t st it) :
    (NextSafe P st it ↔ it.InPlace st) ∧
      ∀ fuel n, st.active.length < fuel →
        (Iterator.selection { groupId := g, type := t } st).length < n →
        iterate P fuel st n { groupId := g, type := t } =
            (Iterator.selection { groupId := g, type := t } st, .notFound) ∧
          ((Iterator.selection { groupId := g, type := t } st).map fun y => (y.1, y.2.1)).Nodup := by
  have hs := hrun.shuffles
  have hnd' : st.active.Nodup := (List.nodup_append.mp (hs.perm.nodup_iff.mpr hnd)).1
  have hne' := hs.nonempty hne
  refine ⟨nextSafe_iff hnd' hne', fun fuel n hfuel hn => ?_⟩
  exact ⟨iterate_selection hnd' hne' hfuel ht rfl hn, selection_nodup hnd'⟩

/-- One item is left, in the last slice of the first sector. -/
def filledStore : Store := runOps testPort 0 fillOps testStore

theorem iterator_safety_filled :
    NextSafe testPort filledStore { groupId := 1, type := .any } ∧
      iterate testPort 3 filledStore 2 { groupId := 1, type := .any } =
        (Iterator.selection { groupId := 1, type := .any } filledStore, .notFound) := by
  have h : filledStore.active = [0] ∧ filledStore.idle = [1] ∧
      (Iterator.selection { groupId := 1, type := .any } filledStore).length = 1 := by decide +kernel
  obtain ⟨hact, hidle, hlen⟩ := h
  have hnd : (filledStore.active ++ filledStore.idle).Nodup := by
    rw [hact, hidle]
    decide
  have hsafe := iterator_safety testPort hnd (by rw [hact]; decide) (t := .any) (by decide) (g := 1) .start
  refine ⟨hsafe.1.mpr fun s hs => absurd hs (by simp), ?_⟩
  exact (hsafe.2 3 2 (by rw [hact]; decide) (by rw [hlen]; decide)).1

/-- An iterator that has yielded the item in the last slice of the first sector. -/
def startedIterator : Iterator where
  groupId := 1
  type := .any
  sector := some 0
  sliceIndex := 127
  info := { key := [0x6b], type := NvsType.uint8.code, groupId := 1, length := 1 }

/-- The store after a write of another key, which collects the first sector. -/
def collectedStore : Store := (storageWriteItem testPort 0 filledStore 1 .uint8 [0x6a] [3]).2

/-- A collection between two calls takes the iterator's sector off the active list. -/
theorem iterator_leaves_active :
    IteratorRun testPort filledStore 1 .any collectedStore startedIterator ∧
      ¬ NextSafe testPort collectedStore startedIterator := by
  constructor
  · have hfound : (iteratorNext testPort 3 filledStore { groupId := 1, type := .any }).2 =
        .found startedIterator 0 126 (readItem filledStore.flash (sliceAddr 0 126)) := by decide +kernel
    exact .write 0 1 .uint8 [0x6a] [3] (.next 3 .start hfound)
  · intro h
    have hrun : collectedStore.active = [1] ∧
        (iteratorNext testPort 1 collectedStore startedIterator).1 = [0] := by decide +kernel
    have hmem := h.active 1 0 (by rw [hrun.2]; exact List.mem_singleton_self 0)
    rw [hrun.1] at hmem
    exact absurd hmem (by decide)

end WmIot.Nvs
