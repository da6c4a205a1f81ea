import WmIot.Lib.CString
import WmIot.PartitionTable.Table

/-!
# What an accepted table promises

The names of a table need no terminator and the end of a partition is computed in 32 bits, so an accepted
table may promise less than it seems to. Here the lookup is followed byte by byte: a comparison that leaves
the buffer of the entries has no result.
-/

namespace WmIot.PartitionTable
open NorFlash LittleEndian
open CString (strcmpEq)
set_option autoImplicit false

/-! ## The lookup -/

/-- The loop of `wm_partition_table_find` with its 8-bit counter; without turns left it does not end. -/
def findLoop (name buf : List (BitVec 8)) (count : Nat) : Nat → Nat → Nat → Option (Option Item)
  | 0, _, _ => none
  | n + 1, i, off =>
    if i < count then
      match strcmpEq name (buf.drop off) with
      | none => none
      | some true => some (some (itemAt buf off))
      | some false => findLoop name buf count n ((i + 1) % 256) (off + itemSize)
    else some none

/-- `wm_partition_table_find`, whose outer `none` is a read outside of the entries or no end. -/
def readFind (size : Nat) (mem : Bool) (f : Flash) (verified : Option Nat) (name : List (BitVec 8)) :
    Option (Except Err Item) :=
  match verified with
  | none => some (.error .notInited)
  | some count =>
    if !mem then some (.error .noMem)
    else
      match Flash.read size mem f (tableOffset + headerSize) (count * itemSize) with
      | none => some (.error .failed)
      | some buf => (findLoop name buf count 257 0 0).map fun
        | none => .error .notFound
        | some item => .ok item

/-- The bytes of an entry of the table. -/
def entry (f : Flash) (i : Nat) : List (BitVec 8) := readBytes f (tableOffset + headerSize + i * itemSize) itemSize

/-- The end of every entry is in the flash, the checksum is that of the header and all entries, and every lookup
of a string reads the table only and returns, if it succeeds, an entry of that name. -/
def Sound (size : Nat) (md5 : List (BitVec 8) → List (BitVec 8)) (f : Flash) (count : Nat) : Prop :=
  (∀ i < count, (itemAt (entry f i) 0).offset + (itemAt (entry f i) 0).size ≤ size) ∧
    readBytes f (tableOffset + (headerSize + count * itemSize)) md5Size =
      md5 (readBytes f tableOffset (headerSize + count * itemSize)) ∧
    ∀ mem name, 0#8 ∉ name → ∃ r, readFind size mem f (some count) name = some r ∧
      ∀ item, r = .ok item → ∃ i < count, item = itemAt (entry f i) 0 ∧ cString item.name = name

/-- No end wraps around, and each name ends in its field or with the first byte of the offset. -/
def Careful (f : Flash) (count : Nat) : Prop :=
  ∀ i < count, (itemAt (entry f i) 0).offset + (itemAt (entry f i) 0).size < 2 ^ 32 ∧ 0#8 ∈ (entry f i).take 17

/-! ## The comparison of strings -/

section Strings
variable {name p : List (BitVec 8)}

theorem strcmpEq_true (h : strcmpEq name p = some true) : ∃ rest, p = name ++ 0#8 :: rest := by
  induction name generalizing p with
  | nil =>
    cases p with
    | nil => nomatch h
    | cons b p => exact ⟨p, by rw [of_decide_eq_true (Option.some.inj h), List.nil_append]⟩
  | cons c name ih =>
    cases p with
    | nil => nomatch h
    | cons b p =>
      rw [strcmpEq] at h
      split at h
      next hcb =>
        obtain ⟨rest, rfl⟩ := ih h
        exact ⟨rest, by rw [hcb, List.cons_append]⟩
      next => exact absurd (Option.some.inj h) (by decide)

/-- Only a string that goes on where the memory ends is followed out of it. -/
theorem prefix_of_strcmpEq (h : strcmpEq name p = none) : p <+: name := by
  induction name generalizing p with
  | nil =>
    cases p with
    | nil => exact List.nil_prefix
    | cons b p => nomatch h
  | cons c name ih =>
    cases p with
    | nil => exact List.nil_prefix
    | cons b p =>
      rw [strcmpEq] at h
      split at h
      next hcb =>
        rw [hcb, List.cons_prefix_cons]
        exact ⟨rfl, ih h⟩
      next => nomatch h

theorem strcmpEq_cString (p : List (BitVec 8)) : strcmpEq (cString p) p ≠ some false := by
  induction p with
  | nil => exact nofun
  | cons b p ih =>
    by_cases hb : b = 0#8
    · rw [cString, List.takeWhile_cons_of_neg (by simpa using hb), strcmpEq, hb]
      exact fun h => absurd (Option.some.inj h) (by decide)
    · rw [cString, List.takeWhile_cons_of_pos (by simpa using hb), strcmpEq, if_pos rfl]
      exact ih

theorem zero_notMem_cString (p : List (BitVec 8)) : 0#8 ∉ cString p := by
  intro h
  exact absurd (List.mem_takeWhile_imp h) (by decide)

/-- A name that ends in its field is read off the field. -/
theorem cString_take {rest : List (BitVec 8)} (hname : 0#8 ∉ name) {k : Nat} (hk : name.length ≤ k) :
    cString ((name ++ 0#8 :: rest).take k) = name := by
  have hall : ∀ b ∈ name, decide (b ≠ 0#8) = true := fun b hb => by
    simpa using fun hzero : b = 0#8 => hname (hzero ▸ hb)
  rw [List.take_append, List.take_of_length_le hk, cString, List.takeWhile_append_of_pos hall]
  cases k - name.length with
  | zero => exact List.append_nil name
  | succ k => exact List.append_nil name

theorem length_le_of_zero_mem {rest : List (BitVec 8)} {k : Nat} (hname : 0#8 ∉ name)
    (h : 0#8 ∈ (name ++ 0#8 :: rest).take (k + 1)) : name.length ≤ k := by
  by_contra hlt
  rw [List.take_append_of_le_length (by omega)] at h
  exact hname (List.mem_of_mem_take h)

end Strings

/-! ## The loop -/

section Loop
variable {name buf : List (BitVec 8)} {count : Nat}

/-- The counter does not wrap below 256 entries. -/
theorem next_counter {i : Nat} (hcount : count ≤ 255) (hi : i < count) : (i + 1) % 256 = i + 1 :=
  Nat.mod_eq_of_lt (by omega)

theorem findLoop_isSome (hcount : count ≤ 255) (hread : ∀ j < count, strcmpEq name (buf.drop (j * itemSize)) ≠ none) :
    ∀ n i, i ≤ count → count < n + i → (findLoop name buf count n i (i * itemSize)).isSome := by
  intro n
  induction n with
  | zero =>
    intro i hle hlt
    omega
  | succ n ih =>
    intro i hle hlt
    rw [findLoop]
    split
    next hi =>
      cases hcmp : strcmpEq name (buf.drop (i * itemSize)) with
      | none => exact absurd hcmp (hread i hi)
      | some equal =>
        cases equal with
        | true => rfl
        | false =>
          simp only [next_counter hcount hi, ← Nat.succ_mul]
          exact ih (i + 1) hi (by omega)
    next => rfl

theorem findLoop_found (hcount : count ≤ 255) {item : Item} : ∀ n i,
    findLoop name buf count n i (i * itemSize) = some (some item) →
      ∃ j, i ≤ j ∧ j < count ∧ strcmpEq name (buf.drop (j * itemSize)) = some true ∧ item = itemAt buf (j * itemSize) ∧
        ∀ k, i ≤ k → k < j → strcmpEq name (buf.drop (k * itemSize)) = some false := by
  intro n
  induction n with
  | zero => exact fun _ h => nomatch h
  | succ n ih =>
    intro i h
    rw [findLoop] at h
    split at h
    next hi =>
      cases hcmp : strcmpEq name (buf.drop (i * itemSize)) with
      | none =>
        rw [hcmp] at h
        nomatch h
      | some equal =>
        rw [hcmp] at h
        cases equal with
        | true =>
          have hitem := Option.some.inj (Option.some.inj h)
          exact ⟨i, Nat.le_refl i, hi, hcmp, hitem.symm, fun k hik hki => absurd hik (Nat.not_le.mpr hki)⟩
        | false =>
          simp only [next_counter hcount hi, ← Nat.succ_mul] at h
          obtain ⟨j, hij, hj, hequal, hitem, hbefore⟩ := ih (i + 1) h
          refine ⟨j, by omega, hj, hequal, hitem, fun k hik hkj => ?_⟩
          rcases Nat.eq_or_lt_of_le hik with rfl | hlt
          · exact hcmp
          · exact hbefore k hlt hkj
    next => nomatch h

theorem findLoop_notFound (hcount : count ≤ 255) : ∀ n i,
    findLoop name buf count n i (i * itemSize) = some none →
      ∀ k, i ≤ k → k < count → strcmpEq name (buf.drop (k * itemSize)) = some false := by
  intro n
  induction n with
  | zero => exact fun _ h => nomatch h
  | succ n ih =>
    intro i h k hik hk
    rw [findLoop] at h
    split at h
    next hi =>
      cases hcmp : strcmpEq name (buf.drop (i * itemSize)) with
      | none =>
        rw [hcmp] at h
        nomatch h
      | some equal =>
        rw [hcmp] at h
        cases equal with
        | true => nomatch h
        | false =>
          simp only [next_counter hcount hi, ← Nat.succ_mul] at h
          rcases Nat.eq_or_lt_of_le hik with rfl | hlt
          · exact hcmp
          · exact ih (i + 1) h k hlt hk
    next hi => omega

end Loop

/-! ## The entries in the buffers -/

section Entries
variable {buf e name : List (BitVec 8)} {f : Flash} {size count : Nat} {md5 : List (BitVec 8) → List (BitVec 8)}
  {mem : Bool}

theorem wordAt_sub (buf : List (BitVec 8)) (off k : Nat) (hk : k + 4 ≤ itemSize) :
    wordAt 4 buf (off + k) = wordAt 4 ((buf.drop off).take itemSize) (0 + k) := by
  have htake : min 4 (itemSize - k) = 4 := Nat.min_eq_left (by omega)
  rw [wordAt, wordAt, List.drop_take, List.take_take, List.drop_drop, Nat.zero_add, htake]

/-- An entry is read from its own bytes. -/
theorem itemAt_eq {off : Nat} (h : (buf.drop off).take itemSize = e) : itemAt buf off = itemAt e 0 := by
  subst h
  have hname : (buf.drop off).take 16 = (((buf.drop off).take itemSize).drop 0).take 16 := by
    rw [List.drop_zero, List.take_take]
    rfl
  have hoffset := wordAt_sub buf off 16 (by decide)
  have hsize := wordAt_sub buf off 20 (by decide)
  have hflag := wordAt_sub buf off 24 (by decide)
  simp only [itemAt, hname, hoffset, hsize, hflag]

/-- An entry in the buffer of the lookup. -/
theorem entry_of_buf {i : Nat} (hi : i < count) :
    ((readBytes f (tableOffset + headerSize) (count * itemSize)).drop (i * itemSize)).take itemSize = entry f i := by
  have hle : (i + 1) * itemSize ≤ count * itemSize := Nat.mul_le_mul_right itemSize hi
  rw [Nat.succ_mul] at hle
  exact readBytes_slice f _ hle

/-- An entry in the buffer of the initialisation. -/
theorem entry_of_table {i : Nat} (hi : i < count) (k : Nat) :
    ((readBytes f tableOffset (headerSize + (count * itemSize + k))).drop (headerSize + i * itemSize)).take itemSize =
      entry f i := by
  have hle : (i + 1) * itemSize ≤ count * itemSize := Nat.mul_le_mul_right itemSize hi
  rw [Nat.succ_mul] at hle
  rw [readBytes_slice f _ (by omega), ← Nat.add_assoc]
  rfl

theorem read_some {off len : Nat} {bytes : List (BitVec 8)} (h : Flash.read size mem f off len = some bytes) :
    bytes = readBytes f off len ∧ off + len ≤ size := by
  unfold Flash.read at h
  split at h
  next => nomatch h
  next hok => exact ⟨(Option.some.inj h).symm, by omega⟩

/-- What a table has that `wm_partition_table_init` takes. -/
theorem init_ok (h : init size mem md5 f = .ok count) :
    count ≤ 145 ∧ tableOffset + headerSize + (count * itemSize + md5Size) ≤ size ∧
      readBytes f (tableOffset + (headerSize + count * itemSize)) md5Size =
        md5 (readBytes f tableOffset (headerSize + count * itemSize)) ∧
      ∀ i < count, ((itemAt (entry f i) 0).offset + (itemAt (entry f i) 0).size) % 2 ^ 32 ≤ size := by
  unfold init at h
  cases hheader : Flash.read size mem f tableOffset headerSize with
  | none =>
    rw [hheader] at h
    nomatch h
  | some header =>
    rw [hheader] at h
    dsimp only at h
    split at h
    next => nomatch h
    next =>
      split at h
      next => nomatch h
      next hfits =>
        split at h
        next => nomatch h
        next =>
          generalize wordAt 2 header 6 = n at h hfits
          cases hbody : Flash.read size mem f (tableOffset + headerSize) (n * itemSize + md5Size) with
          | none =>
            rw [hbody] at h
            nomatch h
          | some body =>
            rw [hbody] at h
            dsimp only at h
            obtain ⟨rfl, -⟩ := read_some hheader
            obtain ⟨rfl, hsize⟩ := read_some hbody
            rw [← readBytes_add] at h
            unfold checkTable at h
            dsimp only at h
            split at h
            next => nomatch h
            next hsum =>
              split at h
              next => nomatch h
              next hends =>
                obtain rfl : n = count := Except.ok.inj h
                refine ⟨?_, hsize, ?_, fun i hi => ?_⟩
                · have hitem : n * itemSize = n * 28 := rfl
                  have hhead : headerSize = 12 := rfl
                  have hmd5 : md5Size = 16 := rfl
                  have hsector : Flash.sectorSize = 4096 := rfl
                  omega
                · have hlow : 0 + (headerSize + n * itemSize) ≤ headerSize + (n * itemSize + md5Size) := by omega
                  have hhigh : headerSize + n * itemSize + md5Size ≤ headerSize + (n * itemSize + md5Size) := by omega
                  have htake := readBytes_slice f tableOffset hlow
                  have hdrop := readBytes_slice f tableOffset hhigh
                  rw [Nat.add_zero, List.drop_zero] at htake
                  rw [← hdrop, ← htake]
                  exact Decidable.not_not.mp hsum
                · have hall : ∀ i < n, ¬ size <
                      ((itemAt (readBytes f tableOffset (headerSize + (n * itemSize + md5Size)))
                        (headerSize + i * itemSize)).offset +
                      (itemAt (readBytes f tableOffset (headerSize + (n * itemSize + md5Size)))
                        (headerSize + i * itemSize)).size) % 2 ^ 32 := by
                    simpa using hends
                  have hi' := hall i hi
                  rw [itemAt_eq (entry_of_table hi md5Size)] at hi'
                  exact Nat.le_of_not_lt hi'

/-! ## Main result -/

/-- What the lookup reads of an accepted table. -/
theorem readFind_eq (hcount : 0 < count) (hsize : tableOffset + headerSize + count * itemSize ≤ size) :
    readFind size true f (some count) name =
      (findLoop name (readBytes f (tableOffset + headerSize) (count * itemSize)) count 257 0 0).map fun
        | none => .error .notFound
        | some item => .ok item := by
  have hpos : 0 < count * itemSize := Nat.mul_pos hcount (by decide)
  have hread : Flash.read size true f (tableOffset + headerSize) (count * itemSize) =
      some (readBytes f (tableOffset + headerSize) (count * itemSize)) := by
    rw [Flash.read, if_neg (by simp only [Bool.true_eq_false, or_false]; omega)]
  simp only [readFind, hread, Bool.not_true, Bool.false_eq_true, if_false]

/-- Without memory, and for no entries, nothing is compared. -/
theorem readFind_empty : ∃ r, readFind size mem f (some 0) name = some r ∧ ∀ item, r ≠ .ok item := by
  cases mem with
  | false => exact ⟨.error .noMem, rfl, nofun⟩
  | true =>
    refine ⟨.error .failed, ?_, nofun⟩
    have hread : Flash.read size true f (tableOffset + headerSize) (0 * itemSize) = none := if_pos (.inl (Nat.zero_mul _))
    simp only [readFind, hread, Bool.not_true, Bool.false_eq_true, if_false]

theorem readFind_noMem : readFind size false f (some count) name = some (.error .noMem) := rfl

section Accepted
variable (hcount : count ≤ 145) (hfits : tableOffset + headerSize + count * itemSize ≤ size)
include hcount hfits

/-- Where the names end with the first byte of the offset, the lookups are right. -/
theorem found_of_careful (hends : ∀ i < count, 0#8 ∈ (entry f i).take 17) (hname : 0#8 ∉ name) :
    ∃ r, readFind size mem f (some count) name = some r ∧
      ∀ item, r = .ok item → ∃ i < count, item = itemAt (entry f i) 0 ∧ cString item.name = name := by
  rcases Nat.eq_zero_or_pos count with rfl | hpos
  · obtain ⟨r, hr, hno⟩ := readFind_empty
    exact ⟨r, hr, fun item h => absurd h (hno item)⟩
  cases mem with
  | false => exact ⟨_, readFind_noMem, nofun⟩
  | true =>
    rw [readFind_eq hpos hfits]
    have hzero : ∀ j < count, 0#8 ∈ ((readBytes f (tableOffset + headerSize) (count * itemSize)).drop
        (j * itemSize)).take 17 := by
      intro j hj
      have h := hends j hj
      rw [← entry_of_buf hj, List.take_take] at h
      exact h
    have hread : ∀ j < count, strcmpEq name ((readBytes f (tableOffset + headerSize) (count * itemSize)).drop
        (j * itemSize)) ≠ none := by
      intro j hj h
      exact hname ((prefix_of_strcmpEq h).subset (List.mem_of_mem_take (hzero j hj)))
    have hbyte : count ≤ 255 := by omega
    obtain ⟨r, hr⟩ := Option.isSome_iff_exists.mp (findLoop_isSome hbyte hread 257 0 (Nat.zero_le _) (by omega))
    rw [Nat.zero_mul] at hr
    rw [hr]
    cases r with
    | none => exact ⟨.error .notFound, rfl, nofun⟩
    | some item =>
      refine ⟨.ok item, rfl, fun item' h => ?_⟩
      obtain rfl : item = item' := Except.ok.inj h
      obtain ⟨j, -, hj, hequal, rfl, -⟩ := findLoop_found hbyte 257 0 (by rw [Nat.zero_mul]; exact hr)
      refine ⟨j, hj, itemAt_eq (entry_of_buf hj), ?_⟩
      obtain ⟨rest, hrest⟩ := strcmpEq_true hequal
      have hzero' := hzero j hj
      rw [hrest] at hzero'
      simp only [itemAt, hrest]
      exact cString_take hname (length_le_of_zero_mem hname hzero')

/-- A lookup of what a name field without end runs on to goes wrong. -/
theorem careful_of_found {i : Nat} (hi : i < count)
    (hfound : ∀ name, 0#8 ∉ name → ∃ r, readFind size true f (some count) name = some r ∧
      ∀ item, r = .ok item → ∃ i < count, item = itemAt (entry f i) 0 ∧ cString item.name = name) :
    0#8 ∈ (entry f i).take 17 := by
  by_contra hno
  obtain ⟨buf, hbuf⟩ : ∃ buf, buf = readBytes f (tableOffset + headerSize) (count * itemSize) := ⟨_, rfl⟩
  obtain ⟨r, hr, hright⟩ := hfound (cString (buf.drop (i * itemSize))) (zero_notMem_cString _)
  rw [readFind_eq (Nat.zero_lt_of_lt hi) hfits, ← hbuf] at hr
  obtain ⟨res, hres, hmap⟩ := Option.map_eq_some_iff.mp hr
  have hloop : findLoop (cString (buf.drop (i * itemSize))) buf count 257 0 (0 * itemSize) = some res := by
    rw [Nat.zero_mul]
    exact hres
  cases res with
  | none =>
    exact strcmpEq_cString _ (findLoop_notFound (by omega) 257 0 hloop i (Nat.zero_le i) hi)
  | some item =>
    obtain ⟨j, hj, rfl, hname⟩ := hright item hmap.symm
    have hlong : 17 ≤ (cString (buf.drop (i * itemSize))).length := by
      have htake : ((buf.drop (i * itemSize)).take 17) = (entry f i).take 17 := by
        rw [hbuf, ← entry_of_buf hi, List.take_take]
        rfl
      have hlen : 17 ≤ (buf.drop (i * itemSize)).length := by
        have hle : (i + 1) * itemSize ≤ count * itemSize := Nat.mul_le_mul_right itemSize hi
        have hsize : itemSize = 28 := rfl
        rw [Nat.succ_mul] at hle
        rw [hbuf, List.length_drop, readBytes_length]
        omega
      have hall : ∀ b ∈ (buf.drop (i * itemSize)).take 17, decide (b ≠ 0#8) = true := by
        intro b hb
        rw [htake] at hb
        simpa using fun hzero : b = 0#8 => hno (hzero ▸ hb)
      rw [cString, ← List.take_append_drop 17 (buf.drop (i * itemSize)), List.takeWhile_append_of_pos hall,
        List.length_append, List.length_take]
      omega
    have hshort : (cString (itemAt (entry f j) 0).name).length ≤ 16 := by
      have htake : (itemAt (entry f j) 0).name.length ≤ 16 := by
        rw [itemAt, List.length_take]
        omega
      exact (List.takeWhile_prefix _).length_le.trans htake
    rw [hname] at hshort
    omega

end Accepted

/-- What an accepted table promises holds exactly where no end of a partition wraps around and every name ends
in its field or with the first byte of the offset. -/
theorem accepted_sound_iff (hsize : size < 2 ^ 32) (h : init size mem md5 f = .ok count) :
    Sound size md5 f count ↔ Careful f count := by
  obtain ⟨hcount, hfits, hsum, hends⟩ := init_ok h
  constructor
  · rintro ⟨hbounds, -, hfound⟩ i hi
    exact ⟨by have := hbounds i hi; omega, careful_of_found hcount (by omega) hi fun name => hfound true name⟩
  · intro hcareful
    refine ⟨fun i hi => ?_, hsum, fun mem name => ?_⟩
    · have hmod := Nat.mod_eq_of_lt (hcareful i hi).1
      have hend := hends i hi
      rwa [hmod] at hend
    · exact found_of_careful hcount (by omega) fun i hi => (hcareful i hi).2

end Entries

/-! ## The lookup of the table's model -/

theorem cString_eq_iff {name p : List (BitVec 8)} (hname : 0#8 ∉ name) {equal : Bool}
    (h : strcmpEq name p = some equal) : cString p = name ↔ equal = true := by
  constructor
  · rintro rfl
    cases equal with
    | true => rfl
    | false => exact absurd h (strcmpEq_cString p)
  · rintro rfl
    obtain ⟨rest, rfl⟩ := strcmpEq_true h
    have hall : ∀ b ∈ name, decide (b ≠ 0#8) = true := fun b hb => by
      simpa using fun hzero : b = 0#8 => hname (hzero ▸ hb)
    rw [cString, List.takeWhile_append_of_pos hall]
    exact List.append_nil name

/-- Where the lookup stays in the table, it is `find`. -/
theorem find_of_readFind {size count : Nat} {mem : Bool} {f : Flash} {name : List (BitVec 8)} {r : Except Err Item}
    (hcount : count ≤ 255) (hname : 0#8 ∉ name) (h : readFind size mem f (some count) name = some r) :
    find size mem f (some count) name = r := by
  unfold readFind at h
  unfold find
  cases mem with
  | false => exact Option.some.inj h
  | true =>
    simp only [Bool.not_true, Bool.false_eq_true, if_false] at h ⊢
    cases hread : Flash.read size true f (tableOffset + headerSize) (count * itemSize) with
    | none =>
      rw [hread] at h
      exact Option.some.inj h
    | some buf =>
      rw [hread] at h
      obtain ⟨res, hres, rfl⟩ := Option.map_eq_some_iff.mp h
      have hloop : findLoop name buf count 257 0 (0 * itemSize) = some res := by
        rw [Nat.zero_mul]
        exact hres
      cases res with
      | none =>
        have hall := findLoop_notFound hcount 257 0 hloop
        have hfind : ((List.range count).find? fun i => cString (buf.drop (i * itemSize)) = name) = none := by
          rw [List.find?_eq_none]
          intro i hi hsame
          have hcmp := hall i (Nat.zero_le i) (List.mem_range.mp hi)
          exact Bool.false_ne_true ((cString_eq_iff hname hcmp).mp (of_decide_eq_true hsame))
        simp only [hfind]
      | some item =>
        obtain ⟨j, -, hj, hequal, rfl, hbefore⟩ := findLoop_found hcount 257 0 hloop
        have hfind : ((List.range count).find? fun i => cString (buf.drop (i * itemSize)) = name) = some j := by
          rw [List.find?_range_eq_some]
          refine ⟨decide_eq_true ((cString_eq_iff hname hequal).mpr rfl), List.mem_range.mpr hj, fun k hk => ?_⟩
          have hcmp := hbefore k (Nat.zero_le k) hk
          simpa using mt (cString_eq_iff hname hcmp).mp (by decide)
        simp only [hfind]

/-! ## Tables -/

/-- A table of one entry, with a checksum of zeros. -/
def tableFlash (name : List (BitVec 8)) (offset size : Nat) : Flash := fun a =>
  (pack 4 tableMagicNumber ++ pack 2 0 ++ pack 2 1 ++ pack 4 0 ++ name ++ pack 4 offset ++ pack 4 size ++ pack 4 0 ++
    List.replicate 16 0#8).getD (a - tableOffset) blank

theorem accepted_sound_iff_app :
    Sound 0x200000 (fun _ => List.replicate 16 0#8) (tableFlash (CString.lit "app" ++ List.replicate 13 0#8) 0xF000 0x100000) 1 ↔
      Careful (tableFlash (CString.lit "app" ++ List.replicate 13 0#8) 0xF000 0x100000) 1 := by
  have h : init 0x200000 true (fun _ => List.replicate 16 0#8)
      (tableFlash (CString.lit "app" ++ List.replicate 13 0#8) 0xF000 0x100000) = .ok 1 := by decide +kernel
  exact accepted_sound_iff (by decide) h

/-- An entry that wraps around the address space is accepted; so is a name that runs on into the offset. -/
theorem accepted_not_sound :
    (init 0x200000 true (fun _ => List.replicate 16 0#8)
        (tableFlash (CString.lit "app" ++ List.replicate 13 0#8) 0xFFFFF000 0x2000) = .ok 1 ∧
      ¬ Sound 0x200000 (fun _ => List.replicate 16 0#8)
        (tableFlash (CString.lit "app" ++ List.replicate 13 0#8) 0xFFFFF000 0x2000) 1) ∧
    init 0x200000 true (fun _ => List.replicate 16 0#8)
        (tableFlash (CString.lit "application_2048") 0xF001 0x1000) = .ok 1 ∧
      ¬ Sound 0x200000 (fun _ => List.replicate 16 0#8) (tableFlash (CString.lit "application_2048") 0xF001 0x1000) 1 := by
  refine ⟨⟨by decide +kernel, fun h => ?_⟩, by decide +kernel, fun h => ?_⟩
  · exact absurd (h.1 0 (by decide)) (by decide +kernel)
  · obtain ⟨r, hr, hright⟩ := h.2.2 true (CString.lit "application_2048" ++ [0x01#8, 0xF0#8]) (by decide)
    have hread : readFind 0x200000 true (tableFlash (CString.lit "application_2048") 0xF001 0x1000) (some 1)
        (CString.lit "application_2048" ++ [0x01#8, 0xF0#8]) =
          some (.ok ⟨CString.lit "application_2048", 0xF001, 0x1000, 0⟩) := by decide +kernel
    obtain ⟨i, -, -, hname⟩ := hright _ (Option.some.inj (hr.symm.trans hread))
    exact absurd hname (by decide)

end WmIot.PartitionTable
