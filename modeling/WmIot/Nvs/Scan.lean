import WmIot.Nvs.Tidy

/-!
# Scanning a sector at load

`sector_update_slice_and_hash` walks a sector from its first slice. `walk` is the list of items
it meets, whatever their state byte, and `walkEnd` the slice at which it stops; the loop is a
fold over that list and marks the items in use whose header checksum is wrong as dropped.
-/

namespace WmIot.Nvs
open NorFlash
set_option autoImplicit false

def walk (f : Flash) (addr : Nat) : Nat → Nat → List Entry
  | 0, _ => []
  | n + 1, i =>
    if i < entryCount then
      let it := readItem f (sliceAddr addr i)
      if it.state = itemUnused then [] else (i, it) :: walk f addr n (i + it.span)
    else []

def walkEnd (f : Flash) (addr : Nat) : Nat → Nat → Nat
  | 0, _ => entryCount
  | n + 1, i =>
    if i < entryCount then
      let it := readItem f (sliceAddr addr i)
      if it.state = itemUnused then i else walkEnd f addr n (i + it.span)
    else entryCount

/-- In use, but the header checksum is not that of the header. -/
def Entry.Torn (P : Port) (x : Entry) : Prop := x.Live ∧ x.2.crcItem ≠ itemCrcHead P x.2

instance (P : Port) (x : Entry) : Decidable (x.Torn P) := inferInstanceAs (Decidable (_ ∧ _))

/-- One turn of the loop on the RAM record. -/
def Sector.count (P : Port) (sec : Sector) (x : Entry) : Sector :=
  if x.2.state = itemUsing then
    if x.2.crcItem = itemCrcHead P x.2 then
      { sec with hash := hashAppend P sec.hash x.2 x.1, usedSlice := add8 sec.usedSlice x.2.span }
    else { sec with
      usedSlice := add8 sec.usedSlice x.2.span
      dropedSlice := add8 (add8 sec.dropedSlice x.2.span) x.2.span }
  else if x.2.state = itemDroped then { sec with
    dropedSlice := add8 sec.dropedSlice x.2.span, usedSlice := add8 sec.usedSlice x.2.span }
  else sec

/-- One turn of the loop on the flash. -/
def dropTorn (P : Port) (addr : Nat) (f : Flash) (x : Entry) : Flash :=
  if x.Torn P then program f (sliceAddr addr x.1) [itemDroped] else f

theorem readItem_agree {f g : Flash} {addr i : Nat}
    (h : AgreeOn f g (sliceAddr addr i) (addr + 4096)) (hi : i < 127) :
    readItem f (sliceAddr addr i) = readItem g (sliceAddr addr i) := by
  apply readItem_congr
  apply h.mono (Nat.le_refl _)
  simp only [sliceAddr, sliceSize]
  omega

theorem walk_congr {f g : Flash} {addr : Nat} (n i : Nat)
    (h : AgreeOn f g (sliceAddr addr i) (addr + 4096)) : walk f addr n i = walk g addr n i := by
  induction n generalizing i with
  | zero => rfl
  | succ n ih =>
    unfold walk
    split
    · rename_i hi
      simp only [readItem_agree h hi]
      rw [ih _ (h.mono (sliceAddr_mono _ (Nat.le_add_right _ _)) (Nat.le_refl _))]
    · rfl

theorem walkEnd_congr {f g : Flash} {addr : Nat} (n i : Nat)
    (h : AgreeOn f g (sliceAddr addr i) (addr + 4096)) : walkEnd f addr n i = walkEnd g addr n i := by
  induction n generalizing i with
  | zero => rfl
  | succ n ih =>
    unfold walkEnd
    split
    · rename_i hi
      simp only [readItem_agree h hi]
      rw [ih _ (h.mono (sliceAddr_mono _ (Nat.le_add_right _ _)) (Nat.le_refl _))]
    · rfl

theorem walkEnd_le (f : Flash) (addr n i : Nat) : walkEnd f addr n i ≤ 127 := by
  induction n generalizing i with
  | zero => exact Nat.le_refl _
  | succ n ih =>
    unfold walkEnd
    split
    · rename_i hi
      simp only
      split
      · exact Nat.le_of_lt hi
      · exact ih _
    · exact Nat.le_refl _

theorem walk_mem {f : Flash} {addr n i : Nat} {x : Entry} (h : x ∈ walk f addr n i) :
    i ≤ x.1 ∧ x.1 < 127 ∧ x.2.state ≠ itemUnused ∧ readItem f (sliceAddr addr x.1) = x.2 := by
  induction n generalizing i with
  | zero => simp [walk] at h
  | succ n ih =>
    unfold walk at h
    split at h
    · rename_i hi
      simp only at h
      split at h
      · simp at h
      · rename_i hs
        rcases List.mem_cons.mp h with rfl | h
        · exact ⟨Nat.le_refl _, hi, hs, rfl⟩
        · have hx := ih h
          exact ⟨by omega, hx.2⟩
    · simp at h

section Loop
variable {P : Port} {s : Nat}

/-- What is left of the loop after one turn that led from `st` to `st₁`. -/
theorem updateSliceLoop_turn {n i : Nat} {st st₁ st' : Store} {x : Entry}
    (hx : x.1 = i) (hl : Local s st st₁) (hsec : st₁.secArr s = (st.secArr s).count P x)
    (hflash : st₁.flash = dropTorn P (st.secArr s).address st.flash x)
    (hrest : Local s st₁ st' ∧
      st'.secArr s = { (walk st₁.flash (st₁.secArr s).address n (i + x.2.span)).foldl (Sector.count P)
          (st₁.secArr s) with
        nextFreeSlice := walkEnd st₁.flash (st₁.secArr s).address n (i + x.2.span) } ∧
      st'.flash = (walk st₁.flash (st₁.secArr s).address n (i + x.2.span)).foldl
        (dropTorn P (st₁.secArr s).address) st₁.flash) :
    Local s st st' ∧
      st'.secArr s = { (x :: walk st.flash (st.secArr s).address n (i + x.2.span)).foldl
          (Sector.count P) (st.secArr s) with
        nextFreeSlice := walkEnd st.flash (st.secArr s).address n (i + x.2.span) } ∧
      st'.flash = (x :: walk st.flash (st.secArr s).address n (i + x.2.span)).foldl
        (dropTorn P (st.secArr s).address) st.flash := by
  obtain ⟨hl', hsec', hflash'⟩ := hrest
  have hspan := x.2.span_pos
  have hagree : AgreeOn st₁.flash st.flash (sliceAddr (st.secArr s).address (i + x.2.span))
      ((st.secArr s).address + 4096) := by
    rw [hflash]
    unfold dropTorn
    split
    · apply AgreeOn.program
      right
      have hm := sliceAddr_mono (st.secArr s).address (show i + 1 ≤ i + x.2.span by omega)
      rw [sliceAddr_add] at hm
      rw [hx, List.length_singleton]
      omega
    · exact AgreeOn.refl _ _ _
  rw [hl.address, walk_congr n _ hagree] at hsec' hflash'
  rw [walkEnd_congr n _ hagree] at hsec'
  refine ⟨hl.trans hl', ?_, ?_⟩
  · rw [hsec', hsec]
    rfl
  · rw [hflash', hflash]
    rfl

/-- The loop counts what the walk meets and drops what is torn. -/
theorem updateSliceLoop_spec (n i : Nat) (st : Store) :
    Local s st (updateSliceLoop P s n i st) ∧
      (updateSliceLoop P s n i st).secArr s =
        { (walk st.flash (st.secArr s).address n i).foldl (Sector.count P) (st.secArr s) with
          nextFreeSlice := walkEnd st.flash (st.secArr s).address n i } ∧
      (updateSliceLoop P s n i st).flash =
        (walk st.flash (st.secArr s).address n i).foldl (dropTorn P (st.secArr s).address) st.flash := by
  induction n generalizing i st with
  | zero => exact ⟨Local.setSec st s _ rfl, by simp [updateSliceLoop, walk, walkEnd], rfl⟩
  | succ n ih =>
    unfold updateSliceLoop walk walkEnd
    by_cases hi : i < entryCount
    · simp only [if_pos hi]
      generalize readItem st.flash (sliceAddr (st.secArr s).address i) = it
      by_cases hunused : it.state = itemUnused
      · simp only [if_pos hunused]
        exact ⟨Local.setSec st s _ rfl, by simp, rfl⟩
      simp only [if_neg hunused]
      by_cases husing : it.state = itemUsing
      · simp only [if_pos husing]
        by_cases hcrc : it.crcItem = itemCrcHead P it
        · rw [if_pos hcrc]
          refine updateSliceLoop_turn (x := (i, it)) rfl ?_ ?_ ?_ (ih _ _)
          · exact Local.setSec st s _ rfl
          · simp [Sector.count, husing, hcrc]
          · simp [dropTorn, Entry.Torn, hcrc]
        · rw [if_neg hcrc]
          refine updateSliceLoop_turn (x := (i, it)) rfl ?_ ?_ ?_ (ih _ _)
          · apply Local.trans _ (sectorEraseItem_local hi)
            exact Local.setSec st s _ rfl
          · simp [Sector.count, husing, hcrc, sectorEraseItem]
          · simp [dropTorn, Entry.Torn, Entry.Live, husing, hcrc]
      · simp only [if_neg husing]
        by_cases hdrop : it.state = itemDroped
        · rw [if_pos hdrop]
          refine updateSliceLoop_turn (x := (i, it)) rfl ?_ ?_ ?_ (ih _ _)
          · exact Local.setSec st s _ rfl
          · simp only [setSec_self, Sector.count, if_neg husing, if_pos hdrop]
          · simp [dropTorn, Entry.Torn, Entry.Live, husing]
        · rw [if_neg hdrop]
          refine updateSliceLoop_turn (x := (i, it)) rfl (Local.refl s st) ?_ ?_ (ih _ _)
          · simp [Sector.count, husing, hdrop]
          · simp [dropTorn, Entry.Torn, Entry.Live, husing]
    · simp only [if_neg hi]
      exact ⟨Local.setSec st s _ rfl, by simp, rfl⟩

end Loop

end WmIot.Nvs
