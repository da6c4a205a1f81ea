import WmIot.PartitionTable.Tool
import WmIot.PartitionTable.Table

/-!
# The tool and the firmware agree

What `partition.py` accepts and writes is taken by `wm_partition_table_init`, and `wm_partition_table_find`
returns the entry of each name, as far as the names and their number allow it.
-/

namespace WmIot.PartitionTable
open LittleEndian Ota
open NorFlash (Flash readBytes)
set_option autoImplicit false

/-- The name of a partition as a C string. -/
def cName (p : Partition) : List Byte := cString (encode (strip p.name))

/-- On every flash that holds all partitions, the firmware takes the file and finds each partition, whatever
function of 16 bytes both sides have for the checksum. -/
def Agrees (lines : List (List Char)) (ps : List Partition) : Prop :=
  ∀ md5 : List Byte → List Byte, (∀ data, (md5 data).length = md5Size) →
    ∃ bin, main md5 lines = some bin ∧
      ∀ (size : Nat) (f : Flash), size < 2 ^ 32 → (∀ p ∈ ps, p.offset + p.size ≤ size) →
        readBytes f tableOffset bin.length = bin →
          ∃ count, init size true md5 f = .ok count ∧ ∀ p ∈ ps,
            ∃ item, find size true f (some count) (cName p) = .ok item ∧
              (item.offset : Int) = p.offset ∧ (item.size : Int) = p.size ∧ (item.flag : Int) = p.flag

/-- The characters of the name are ASCII. -/
def Ascii (p : Partition) : Prop := ∀ c ∈ strip p.name, c.val ≤ 127

/-- The table fits into a sector, and its names are ASCII and different. -/
structure Findable (ps : List Partition) : Prop where
  count : ps.length ≤ 145
  ascii : ∀ p ∈ ps, Ascii p
  nodup : (ps.map cName).Nodup

/-! ## What the validation says -/

theorem strip_length (s : List Char) : (strip s).length ≤ s.length :=
  (List.rdropWhile_prefix isSpace _).length_le.trans (List.dropWhile_suffix isSpace).length_le

theorem noOverlap_pairwise {ps : List Partition} (hover : noOverlap ps = true) (hsize : ∀ p ∈ ps, 2 ≤ p.size) :
    ps.Pairwise fun p q => p.offset < q.offset := by
  induction ps with
  | nil => exact .nil
  | cons p ps ih =>
    cases ps with
    | nil => exact List.pairwise_singleton _ _
    | cons q ps =>
      rw [noOverlap, Bool.and_eq_true_iff] at hover
      have hrest := ih hover.2 fun a ha => hsize a (List.mem_cons_of_mem p ha)
      have hgap : p.offset + p.size - 1 ≤ q.offset := by simpa using hover.1
      have hnext : p.offset < q.offset := by
        have := hsize p List.mem_cons_self
        omega
      refine .cons (fun a ha => ?_) hrest
      rcases List.mem_cons.mp ha with rfl | ha
      · exact hnext
      · exact hnext.trans (List.rel_of_pairwise_cons hrest ha)

/-- The facts of a validated file. -/
structure Valid (ps : List Partition) : Prop where
  table : ∃ p ∈ ps, p.offset = 0xE000 ∧ p.size = 0x1000
  offsets : (ps.map (·.offset)).Nodup
  names : ∀ p ∈ ps, (strip p.name).length < 16

theorem valid_of_validate {lines : List (List Char)} {ps : List Partition} (hread : readPartitions lines = some ps)
    (hvalid : validatePartitionTable lines = some true) : Valid ps := by
  simp only [validatePartitionTable, hread, Option.map_some, Option.some.injEq, Bool.and_eq_true,
    List.all_eq_true, decide_eq_true_eq, List.contains_iff_mem] at hvalid
  obtain ⟨⟨⟨⟨hconsistent, hrequired⟩, haligned⟩, hoverlap⟩, hnames⟩ := hvalid
  refine ⟨?_, ?_, fun p hp => (strip_length p.name).trans_lt (hnames p hp)⟩
  · have hmem := hrequired "partition_table".toList (by decide)
    obtain ⟨p, hp, hname⟩ := List.mem_map.mp hmem
    have hcheck := hconsistent p hp
    have hfind : (expectedPartitions.find? fun e => e.name = "partition_table".toList) =
        some ⟨"partition_table".toList, 0xE000, 0x1000, 0x0⟩ := by decide
    rw [consistent, hname, hfind] at hcheck
    simp only [checkPartitionConsistency, Bool.and_eq_true, decide_eq_true_eq] at hcheck
    exact ⟨p, hp, hcheck.1.1, hcheck.1.2⟩
  · have hperm := List.perm_insertionSort (fun p q : Partition => p.offset ≤ q.offset) ps
    have hsize : ∀ p ∈ ps.insertionSort (fun p q => p.offset ≤ q.offset), 2 ≤ p.size := by
      intro p hp
      have h := haligned p (hperm.mem_iff.mp hp)
      simp only [is4kAligned, Bool.and_eq_true, decide_eq_true_eq] at h
      omega
    have hpairwise := noOverlap_pairwise hoverlap hsize
    rw [← (hperm.map (·.offset)).nodup_iff, List.Nodup, List.pairwise_map]
    exact hpairwise.imp fun h => ne_of_lt h

/-! ## The entries of the file -/

theorem packName_length (p : Partition) : 16 ≤ (packName p).length := by
  have h := encode_length_ge (newVersion (strip p.name))
  rw [newVersion_length] at h
  exact h

theorem itemBytes_length (p : Partition) : (itemBytes p).length = (packName p).length + 12 := by
  simp only [itemBytes, List.length_append, pack_length]

/-- A name of at most 15 characters takes 16 bytes exactly where it is ASCII. -/
theorem packName_length_eq_iff {p : Partition} (h : (strip p.name).length < 16) :
    (packName p).length = 16 ↔ Ascii p := by
  have hlen := encode_length_eq_iff (newVersion (strip p.name))
  rw [newVersion_length, newVersion_ascii, List.take_of_length_le (by omega)] at hlen
  exact hlen

theorem items_length {ps : List Partition} (hnames : ∀ p ∈ ps, (strip p.name).length < 16) :
    ps.length * itemSize ≤ (ps.map itemBytes).flatten.length ∧
      ((ps.map itemBytes).flatten.length = ps.length * itemSize ↔ ∀ p ∈ ps, Ascii p) := by
  induction ps with
  | nil => exact ⟨Nat.le_refl _, fun _ p hp => absurd hp List.not_mem_nil, fun _ => rfl⟩
  | cons p ps ih =>
    obtain ⟨hge, hiff⟩ := ih fun q hq => hnames q (List.mem_cons_of_mem p hq)
    have hname := packName_length p
    have hascii := packName_length_eq_iff (hnames p List.mem_cons_self)
    have hitem : itemSize = 28 := rfl
    rw [hitem] at hge hiff ⊢
    rw [List.map_cons, List.flatten_cons, List.length_append, itemBytes_length, List.length_cons,
      List.forall_mem_cons, ← hascii, ← hiff]
    omega

theorem tableBytes_length (ps : List Partition) :
    (tableBytes ps).length = headerSize + (ps.map itemBytes).flatten.length := by
  simp only [tableBytes, List.length_append, pack_length, headerSize]
  omega

theorem encode_append (s t : List Char) : encode (s ++ t) = encode s ++ encode t := by
  simp only [encode, List.flatMap_append, List.map_append]

theorem cString_append_nul (a rest : List Byte) : cString (a ++ 0#8 :: rest) = cString a := by
  induction a with
  | nil => rfl
  | cons b a ih =>
    by_cases hb : b = 0#8
    · rw [hb]
      rfl
    · simp only [List.cons_append, cString, List.takeWhile_cons, hb, ne_eq, not_false_eq_true, decide_true,
        if_true] at ih ⊢
      exact congrArg (b :: ·) ih

/-- The string at an entry is the name of its partition. -/
theorem cString_itemBytes {p : Partition} (h : (strip p.name).length < 16) (tail : List Byte) :
    cString (itemBytes p ++ tail) = cName p := by
  obtain ⟨k, hk⟩ : ∃ k, 16 - (strip p.name).length = k + 1 := ⟨15 - (strip p.name).length, by omega⟩
  have hnul : encode (List.replicate (k + 1) '\x00') = 0#8 :: encode (List.replicate k '\x00') := rfl
  rw [itemBytes, packName, newVersion, if_pos h, encode_append, hk, hnul, List.append_assoc, List.append_assoc,
    List.cons_append, cString_append_nul, cName]

/-- The fields at an entry are those of its partition. -/
theorem itemAt_itemBytes {buf tail : List Byte} {off : Nat} {p : Partition} (h : buf.drop off = itemBytes p ++ tail)
    (hname : (packName p).length = 16) (hfits : Fits p) :
    itemAt buf off = ⟨packName p, p.offset.toNat, p.size.toNat, p.flag.toNat⟩ := by
  have hword : ∀ k, wordAt 4 buf (off + k) = wordAt 4 (buf.drop off) k := by
    intro k
    rw [wordAt, wordAt, List.drop_drop]
  have hbound : ∀ v : Int, 0 ≤ v ∧ v < 2 ^ 32 → v.toNat < 256 ^ 4 := by
    intro v hv
    have hpow : 256 ^ 4 = 2 ^ 32 := by norm_num
    omega
  have hoffset : wordAt 4 (buf.drop off) 16 = p.offset.toNat := by
    have hbytes : buf.drop off =
        packName p ++ (pack 4 p.offset.toNat ++ (pack 4 p.size.toNat ++ (pack 4 p.flag.toNat ++ tail))) := by
      rw [h, itemBytes]
      simp only [List.append_assoc]
    rw [← hname]
    exact wordAt_of_append hbytes (hbound _ hfits.offset)
  have hsize : wordAt 4 (buf.drop off) 20 = p.size.toNat := by
    have hlen : (packName p ++ pack 4 p.offset.toNat).length = 20 := by
      rw [List.length_append, hname, pack_length]
    have hbytes : buf.drop off = packName p ++ pack 4 p.offset.toNat ++
        (pack 4 p.size.toNat ++ (pack 4 p.flag.toNat ++ tail)) := by
      rw [h, itemBytes]
      simp only [List.append_assoc]
    rw [← hlen]
    exact wordAt_of_append hbytes (hbound _ hfits.size)
  have hflag : wordAt 4 (buf.drop off) 24 = p.flag.toNat := by
    have hlen : (packName p ++ (pack 4 p.offset.toNat ++ pack 4 p.size.toNat)).length = 24 := by
      rw [List.length_append, List.length_append, hname, pack_length, pack_length]
    have hbytes : buf.drop off = packName p ++ (pack 4 p.offset.toNat ++ pack 4 p.size.toNat) ++
        (pack 4 p.flag.toNat ++ tail) := by
      rw [h, itemBytes]
      simp only [List.append_assoc]
    rw [← hlen]
    exact wordAt_of_append hbytes (hbound _ hfits.flag)
  have htake : (buf.drop off).take 16 = packName p := by
    rw [h, itemBytes, List.append_assoc]
    exact List.take_left' hname
  rw [itemAt, hword, hword, hword, hoffset, hsize, hflag, htake]

/-! ## The firmware on the file -/

section Firmware
variable {md5 : List Byte → List Byte} {ps : List Partition} {size : Nat} {f : Flash}

theorem image_length (ps : List Partition) (hmd5 : ∀ data, (md5 data).length = md5Size) :
    (tableBytes ps).length + md5Size ≤ (image md5 ps).length ∧ 1024 ≤ (image md5 ps).length := by
  simp only [image, List.length_append, List.length_replicate, hmd5]
  omega

/-- A flash that holds the partition of the table can be read there. -/
theorem read_le (hvalid : Valid ps) (hsize : ∀ p ∈ ps, p.offset + p.size ≤ size) {k : Nat} (hk : k ≤ 4096) :
    tableOffset + k ≤ size := by
  obtain ⟨p, hp, hoffset, hlen⟩ := hvalid.table
  have hend := hsize p hp
  rw [hoffset, hlen] at hend
  change 0xE000 + k ≤ size
  omega

theorem read_eq {off k : Nat} (hend : off + k ≤ size) (hpos : 0 < k) :
    Flash.read size true f off k = some (readBytes f off k) := by
  rw [Flash.read, if_neg (by simp only [Bool.true_eq_false, or_false]; omega)]

/-- The firmware reads the header of the file and checks its number of entries, then the whole table. -/
theorem init_eq (hmd5 : ∀ data, (md5 data).length = md5Size) (hvalid : Valid ps)
    (hsize : ∀ p ∈ ps, p.offset + p.size ≤ size) (hcount : ps.length < 2 ^ 16)
    (hf : readBytes f tableOffset (image md5 ps).length = image md5 ps) :
    init size true md5 f =
      if 145 < ps.length then .error .failed
      else checkTable size md5 ((image md5 ps).take (headerSize + ps.length * itemSize + md5Size)) ps.length := by
  have hend : ∀ k ≤ 4096, tableOffset + k ≤ size := fun k => read_le hvalid hsize
  obtain ⟨hlen, hpad⟩ := image_length ps hmd5
  obtain ⟨hitems, _⟩ := items_length hvalid.names
  rw [tableBytes_length] at hlen
  have hheader : headerSize = 12 := rfl
  have hitem : itemSize = 28 := rfl
  have hsum : md5Size = 16 := rfl
  have hsector : Flash.sectorSize = 4096 := rfl
  have hmul : ps.length * itemSize = ps.length * 28 := rfl
  have hread : Flash.read size true f tableOffset headerSize = some ((image md5 ps).take headerSize) := by
    rw [read_eq (hend _ (by omega)) (by omega), readBytes_take hf (by omega)]
  obtain ⟨rest, himage⟩ : ∃ rest, image md5 ps = tableBytes ps ++ rest := ⟨_, by rw [image, List.append_assoc]⟩
  have hmagic : wordAt 4 ((image md5 ps).take headerSize) 0 = tableMagicNumber := by
    have hbytes : image md5 ps = [] ++ (pack 4 magicNumber ++ (pack 2 0 ++ (pack 2 ps.length ++ (pack 4 0 ++
        ((ps.map itemBytes).flatten ++ rest))))) := by
      rw [himage, tableBytes]
      simp only [List.append_assoc, List.nil_append]
    rw [wordAt_take _ (by omega)]
    exact wordAt_of_append hbytes (by decide)
  have hnum : wordAt 2 ((image md5 ps).take headerSize) 6 = ps.length := by
    have hbytes : image md5 ps = pack 4 magicNumber ++ pack 2 0 ++ (pack 2 ps.length ++ (pack 4 0 ++
        ((ps.map itemBytes).flatten ++ rest))) := by
      rw [himage, tableBytes]
      simp only [List.append_assoc]
    rw [wordAt_take _ (by omega)]
    exact wordAt_of_append hbytes hcount
  unfold init
  rw [hread]
  dsimp only
  rw [hmagic, hnum, if_neg (Decidable.not_not.mpr rfl)]
  by_cases hmany : 145 < ps.length
  · rw [if_pos (by omega), if_pos hmany]
  · have hbody : Flash.read size true f (tableOffset + headerSize) (ps.length * itemSize + md5Size) =
        some (((image md5 ps).drop headerSize).take (ps.length * itemSize + md5Size)) := by
      have hall : tableOffset + headerSize + (ps.length * itemSize + md5Size) ≤ size := by
        rw [Nat.add_assoc]
        exact hend _ (by omega)
      rw [read_eq hall (by omega), readBytes_drop hf (by omega)]
    rw [if_neg (by omega), if_neg (by decide), hbody, if_neg hmany]
    dsimp only
    rw [← List.take_add, Nat.add_assoc]

/-- The entries of a table whose names are ASCII lie one behind the other. -/
theorem drop_items (hvalid : Valid ps) (hascii : ∀ p ∈ ps, Ascii p) (rest : List Byte) {i : Nat}
    (hi : i < ps.length) : ∃ tail, ((ps.map itemBytes).flatten ++ rest).drop (i * itemSize) = itemBytes ps[i] ++ tail := by
  have hall : ∀ b ∈ ps.map itemBytes, b.length = itemSize := by
    intro b hb
    obtain ⟨p, hp, rfl⟩ := List.mem_map.mp hb
    rw [itemBytes_length, (packName_length_eq_iff (hvalid.names p hp)).mpr (hascii p hp)]
    rfl
  obtain ⟨tail, htail⟩ := drop_flatten (ps.map itemBytes) hall rest i (by rw [List.length_map]; exact hi)
  rw [List.getElem_map] at htail
  exact ⟨tail, htail⟩

theorem tableBytes_drop (ps : List Partition) (rest : List Byte) :
    (tableBytes ps ++ rest).drop headerSize = (ps.map itemBytes).flatten ++ rest := by
  have hheader : tableBytes ps ++ rest = (pack 4 magicNumber ++ (pack 2 0 ++ (pack 2 ps.length ++ pack 4 0))) ++
      ((ps.map itemBytes).flatten ++ rest) := by
    rw [tableBytes]
    simp only [List.append_assoc]
  rw [hheader]
  apply List.drop_left'
  simp only [List.length_append, pack_length]
  rfl

/-- The checksum and the ends of all partitions are found to be right. -/
theorem checkTable_ok (hmd5 : ∀ data, (md5 data).length = md5Size) (hvalid : Valid ps) (hfits : ∀ p ∈ ps, Fits p)
    (hascii : ∀ p ∈ ps, Ascii p) (hlt : size < 2 ^ 32) (hsize : ∀ p ∈ ps, p.offset + p.size ≤ size) :
    checkTable size md5 ((image md5 ps).take (headerSize + ps.length * itemSize + md5Size)) ps.length =
      .ok ps.length := by
  have hlen : (tableBytes ps).length = headerSize + ps.length * itemSize := by
    rw [tableBytes_length, (items_length hvalid.names).2.mpr hascii]
  have hbuf : (image md5 ps).take (headerSize + ps.length * itemSize + md5Size) =
      tableBytes ps ++ md5 (tableBytes ps) := by
    rw [image]
    apply List.take_left'
    rw [List.length_append, hlen, hmd5]
  have hsum : ((tableBytes ps ++ md5 (tableBytes ps)).drop (headerSize + ps.length * itemSize)).take md5Size =
      md5 ((tableBytes ps ++ md5 (tableBytes ps)).take (headerSize + ps.length * itemSize)) := by
    rw [← hlen, List.drop_left, List.take_left]
    exact List.take_of_length_le (Nat.le_of_eq (hmd5 _))
  dsimp only [checkTable]
  rw [hbuf, if_neg (Decidable.not_not.mpr hsum), if_neg]
  intro hany
  obtain ⟨i, hi, hover⟩ := List.any_eq_true.mp hany
  have hi := List.mem_range.mp hi
  obtain ⟨tail, htail⟩ := drop_items hvalid hascii (md5 (tableBytes ps)) hi
  rw [← tableBytes_drop, List.drop_drop] at htail
  have hmem : ps[i] ∈ ps := List.getElem_mem hi
  have hfit := hfits _ hmem
  have hend := hsize _ hmem
  rw [itemAt_itemBytes htail ((packName_length_eq_iff (hvalid.names _ hmem)).mpr (hascii _ hmem)) hfit] at hover
  have hover := of_decide_eq_true hover
  have hoffset := hfit.offset
  have hwidth := hfit.size
  dsimp only at hover
  omega

/-- The entry of a partition is found under its name. -/
theorem find_ok (hmd5 : ∀ data, (md5 data).length = md5Size) (hvalid : Valid ps) (hfits : ∀ p ∈ ps, Fits p)
    (hfindable : Findable ps) (hsize : ∀ p ∈ ps, p.offset + p.size ≤ size)
    (hf : readBytes f tableOffset (image md5 ps).length = image md5 ps) {i : Nat} (hi : i < ps.length) :
    find size true f (some ps.length) (cName ps[i]) =
      .ok ⟨packName ps[i], ps[i].offset.toNat, ps[i].size.toNat, ps[i].flag.toNat⟩ := by
  have hcount := hfindable.count
  have hitems := (items_length hvalid.names).2.mpr hfindable.ascii
  obtain ⟨hlen, _⟩ := image_length ps hmd5
  rw [tableBytes_length, hitems] at hlen
  have hitem : ps.length * itemSize = ps.length * 28 := rfl
  have hsum : md5Size = 16 := rfl
  have hheader : headerSize = 12 := rfl
  obtain ⟨rest, himage⟩ : ∃ rest, image md5 ps = tableBytes ps ++ rest := ⟨_, by rw [image, List.append_assoc]⟩
  have hread : Flash.read size true f (tableOffset + headerSize) (ps.length * itemSize) =
      some ((ps.map itemBytes).flatten) := by
    have hall : tableOffset + headerSize + ps.length * itemSize ≤ size := by
      rw [Nat.add_assoc]
      exact read_le hvalid hsize (by omega)
    rw [read_eq hall (by omega), readBytes_drop hf (by omega), himage, tableBytes_drop, ← hitems, List.take_left]
  have hplace : ∀ {k : Nat} (hk : k < ps.length), ∃ tail,
      ((ps.map itemBytes).flatten).drop (k * itemSize) = itemBytes ps[k] ++ tail := by
    intro k hk
    have h := drop_items hvalid hfindable.ascii [] hk
    rw [List.append_nil] at h
    exact h
  have hname : ∀ {k : Nat} (hk : k < ps.length),
      cString (((ps.map itemBytes).flatten).drop (k * itemSize)) = cName ps[k] := by
    intro k hk
    obtain ⟨tail, htail⟩ := hplace hk
    rw [htail, cString_itemBytes (hvalid.names _ (List.getElem_mem hk))]
  have hfirst : ((List.range ps.length).find? fun k =>
      cString (((ps.map itemBytes).flatten).drop (k * itemSize)) = cName ps[i]) = some i := by
    rw [List.find?_range_eq_some]
    refine ⟨decide_eq_true (hname hi), List.mem_range.mpr hi, fun k hk => ?_⟩
    rw [hname (by omega)]
    have hne : cName ps[k] ≠ cName ps[i] := by
      have h := List.pairwise_iff_getElem.mp hfindable.nodup k i (by rw [List.length_map]; omega)
        (by rw [List.length_map]; exact hi) hk
      rw [List.getElem_map, List.getElem_map] at h
      exact h
    rw [decide_eq_false hne]
    rfl
  obtain ⟨tail, htail⟩ := hplace hi
  have hmem : ps[i] ∈ ps := List.getElem_mem hi
  unfold find
  dsimp only
  rw [if_neg (by decide), hread]
  dsimp only
  rw [hfirst]
  dsimp only
  rw [itemAt_itemBytes htail ((packName_length_eq_iff (hvalid.names _ hmem)).mpr (hfindable.ascii _ hmem))
    (hfits _ hmem)]

end Firmware

/-! ## Main result -/

/-- A flash that holds the file of the table. -/
def flashOf (bin : List Byte) : Flash := fun a => bin.getD (a - tableOffset) NorFlash.blank

theorem readBytes_flashOf (bin : List Byte) : readBytes (flashOf bin) tableOffset bin.length = bin := by
  apply List.ext_getElem
  · exact NorFlash.readBytes_length _ _ _
  · intro i h₁ h₂
    simp only [readBytes, flashOf, List.getElem_map, List.getElem_range, Nat.add_sub_cancel_left]
    rw [List.getD_eq_getElem?_getD, List.getElem?_eq_getElem h₂, Option.getD_some]

section Main
variable {lines : List (List Char)} {ps : List Partition}

/-- What the agreement says of one checksum function and the largest flash. -/
theorem Agrees.run (h : Agrees lines ps) (hread : readPartitions lines = some ps)
    (hvalid : validatePartitionTable lines = some true) (hfits : ∀ p ∈ ps, Fits p) (hcount : ps.length < 2 ^ 16)
    (hsize : ∀ p ∈ ps, p.offset + p.size ≤ (2 ^ 32 - 1 : Nat)) (md5 : List Byte → List Byte)
    (hmd5 : ∀ data, (md5 data).length = md5Size) :
    ¬ 145 < ps.length ∧
      (∃ count, checkTable (2 ^ 32 - 1) md5
        ((image md5 ps).take (headerSize + ps.length * itemSize + md5Size)) ps.length = .ok count) ∧
      ∃ found : List Byte → Except Err Item, ∀ p ∈ ps, ∃ item, found (cName p) = .ok item ∧
        (item.offset : Int) = p.offset := by
  obtain ⟨bin, hbin, hall⟩ := h md5 hmd5
  rw [main_of_fits hread hvalid hfits hcount] at hbin
  cases hbin
  obtain ⟨count, hinit, hfound⟩ := hall (2 ^ 32 - 1) (flashOf (image md5 ps)) (by decide) hsize (readBytes_flashOf _)
  rw [init_eq hmd5 (valid_of_validate hread hvalid) hsize hcount (readBytes_flashOf _)] at hinit
  split at hinit
  next => nomatch hinit
  next hfew =>
    refine ⟨hfew, ⟨count, hinit⟩, find (2 ^ 32 - 1) true (flashOf (image md5 ps)) (some count), fun p hp => ?_⟩
    obtain ⟨item, hitem, hoffset, _⟩ := hfound p hp
    exact ⟨item, hitem, hoffset⟩

theorem checkTable_md5 {size count count' : Nat} {md5 : List Byte → List Byte} {buf : List Byte}
    (h : checkTable size md5 buf count = .ok count') :
    (buf.drop (headerSize + count * itemSize)).take md5Size = md5 (buf.take (headerSize + count * itemSize)) := by
  dsimp only [checkTable] at h
  split at h
  next => nomatch h
  next heq => exact Decidable.not_not.mp heq

/-- With a name that is not ASCII some checksum function tells the tool's file from a right one. -/
theorem ascii_of_checkTable (hvalid : Valid ps)
    (h : ∀ md5 : List Byte → List Byte, (∀ data, (md5 data).length = md5Size) → ∃ count,
      checkTable (2 ^ 32 - 1) md5 ((image md5 ps).take (headerSize + ps.length * itemSize + md5Size)) ps.length =
        .ok count) : ∀ p ∈ ps, Ascii p := by
  obtain ⟨hge, hiff⟩ := items_length hvalid.names
  apply hiff.mp
  by_contra hne
  have hlong : headerSize + ps.length * itemSize < (tableBytes ps).length := by
    rw [tableBytes_length]
    omega
  -- the byte where the firmware looks for the checksum belongs to the table
  obtain ⟨b, hb⟩ : ∃ b, b = (tableBytes ps)[headerSize + ps.length * itemSize] + 1#8 := ⟨_, rfl⟩
  obtain ⟨md5, hmd5def⟩ : ∃ md5 : List Byte → List Byte, md5 = fun data =>
      if data.length = (tableBytes ps).length then List.replicate md5Size 0#8 else List.replicate md5Size b := ⟨_, rfl⟩
  have hmd5 : ∀ data, (md5 data).length = md5Size := by
    intro data
    rw [hmd5def]
    dsimp only
    split
    · exact List.length_replicate
    · exact List.length_replicate
  obtain ⟨count, hcheck⟩ := h md5 hmd5
  have hsum := checkTable_md5 hcheck
  obtain ⟨rest, himage⟩ : ∃ rest, image md5 ps = tableBytes ps ++ rest := ⟨_, by rw [image, List.append_assoc]⟩
  have hother : md5 (((image md5 ps).take (headerSize + ps.length * itemSize + md5Size)).take
      (headerSize + ps.length * itemSize)) = List.replicate md5Size b := by
    rw [hmd5def]
    dsimp only
    rw [if_neg]
    simp only [List.length_take]
    omega
  have hhead := congrArg List.head? hsum
  rw [hother, himage] at hhead
  have hlen := (image_length ps hmd5).1
  rw [himage] at hlen
  have hfirst : ((((tableBytes ps ++ rest).take (headerSize + ps.length * itemSize + md5Size)).drop
      (headerSize + ps.length * itemSize)).take md5Size).head? =
        some (tableBytes ps)[headerSize + ps.length * itemSize] := by
    have hpos : md5Size ≠ 0 := by decide
    rw [List.head?_take, if_neg hpos, List.head?_drop, List.getElem?_take_of_lt (by
      have : 0 < md5Size := by decide
      omega), List.getElem?_append_left hlong, List.getElem?_eq_getElem hlong]
  rw [hfirst] at hhead
  have hsame : (tableBytes ps)[headerSize + ps.length * itemSize] = b := Option.some.inj hhead
  rw [hb] at hsame
  generalize (tableBytes ps)[headerSize + ps.length * itemSize] = c at hsame
  have hnat := congrArg BitVec.toNat hsame
  rw [BitVec.toNat_add] at hnat
  have hone : (1#8).toNat = 1 := rfl
  have hc := c.isLt
  omega

theorem nodup_of_found {found : List Byte → Except Err Item} (hvalid : Valid ps)
    (hfound : ∀ p ∈ ps, ∃ item, found (cName p) = .ok item ∧ (item.offset : Int) = p.offset) :
    (ps.map cName).Nodup := by
  have hoffsets := hvalid.offsets
  rw [List.Nodup, List.pairwise_map] at hoffsets ⊢
  apply hoffsets.imp_of_mem
  intro p q hp hq hne hsame
  obtain ⟨item, hitem, hoffset⟩ := hfound p hp
  obtain ⟨item', hitem', hoffset'⟩ := hfound q hq
  rw [hsame, hitem'] at hitem
  cases hitem
  exact hne (hoffset.symm.trans hoffset')

/-- For a file that the tool accepts, tool and firmware agree exactly if all numbers fit into their fields, and
either no flash has room for all partitions or the table can hold and tell apart the names. -/
theorem agrees_iff (hread : readPartitions lines = some ps) (hvalid : validatePartitionTable lines = some true) :
    Agrees lines ps ↔ (∀ p ∈ ps, Fits p) ∧ ps.length < 2 ^ 16 ∧
      ((∃ p ∈ ps, 2 ^ 32 ≤ p.offset + p.size) ∨ Findable ps) := by
  have hv := valid_of_validate hread hvalid
  constructor
  · intro h
    obtain ⟨bin, hbin, _⟩ := h (fun _ => List.replicate md5Size 0#8) fun _ => List.length_replicate
    obtain ⟨hfits, hcount⟩ := fits_of_main hread hbin
    refine ⟨hfits, hcount, ?_⟩
    by_cases hbig : ∃ p ∈ ps, 2 ^ 32 ≤ p.offset + p.size
    · exact .inl hbig
    · have hsize : ∀ p ∈ ps, p.offset + p.size ≤ (2 ^ 32 - 1 : Nat) := by
        intro p hp
        have : ¬ 2 ^ 32 ≤ p.offset + p.size := fun hle => hbig ⟨p, hp, hle⟩
        omega
      have hrun := h.run hread hvalid hfits hcount hsize
      obtain ⟨hfew, _, found, hfound⟩ := hrun (fun _ => List.replicate md5Size 0#8) fun _ => List.length_replicate
      exact .inr ⟨by omega, ascii_of_checkTable hv fun md5 hmd5 => (hrun md5 hmd5).2.1, nodup_of_found hv hfound⟩
  · intro ⟨hfits, hcount, hcase⟩ md5 hmd5
    refine ⟨image md5 ps, main_of_fits hread hvalid hfits hcount, fun size f hlt hsize hf => ?_⟩
    rcases hcase with ⟨p, hp, hbig⟩ | hfindable
    · have hend := hsize p hp
      omega
    · have hfew := hfindable.count
      refine ⟨ps.length, ?_, fun p hp => ?_⟩
      · rw [init_eq hmd5 hv hsize hcount hf, if_neg (by omega),
          checkTable_ok hmd5 hv hfits hfindable.ascii hlt hsize]
      · obtain ⟨i, hi, rfl⟩ := List.getElem_of_mem hp
        have hfit := hfits _ hp
        refine ⟨_, find_ok hmd5 hv hfits hfindable hsize hf hi, ?_, ?_, ?_⟩
        · exact Int.toNat_of_nonneg hfit.offset.1
        · exact Int.toNat_of_nonneg hfit.size.1
        · exact Int.toNat_of_nonneg hfit.flag.1

end Main

/-! ## Files -/

/-- `partition_table_normal.csv` -/
def normalTable : List (List Char) :=
  ["# name,          offset,    size,      flag".toList,
    "ft,              0x0,       0x2000,    0x0".toList,
    "bootloader,      0x2000,    0xC000,    0x0".toList,
    "partition_table, 0xE000,    0x1000,    0x0".toList,
    "app,             0xF000,    0x100000,  0x0".toList,
    "nvs,             0x1F0000,  0x8000,    0x0".toList]

def normalPartitions : List Partition :=
  [⟨"ft".toList, 0x0, 0x2000, 0⟩, ⟨"bootloader".toList, 0x2000, 0xC000, 0⟩,
    ⟨"partition_table".toList, 0xE000, 0x1000, 0⟩, ⟨"app".toList, 0xF000, 0x100000, 0⟩,
    ⟨"nvs".toList, 0x1F0000, 0x8000, 0⟩]

theorem agrees_iff_normalTable : Agrees normalTable normalPartitions ↔
    (∀ p ∈ normalPartitions, Fits p) ∧ normalPartitions.length < 2 ^ 16 ∧
      ((∃ p ∈ normalPartitions, 2 ^ 32 ≤ p.offset + p.size) ∨ Findable normalPartitions) :=
  agrees_iff (by decide +kernel) (by decide +kernel)

/-- Two lines with one name. -/
def twiceTable : List (List Char) := normalTable ++ ["nvs , 0x1F8000, 0x8000, 0x0".toList]

def twicePartitions : List Partition := normalPartitions ++ [⟨"nvs ".toList, 0x1F8000, 0x8000, 0⟩]

/-- A line whose name is not ASCII. -/
def wideTable : List (List Char) := normalTable ++ ["données, 0x1F8000, 0x8000, 0x0".toList]

def widePartitions : List Partition := normalPartitions ++ [⟨"données".toList, 0x1F8000, 0x8000, 0⟩]

theorem accepted_not_agrees :
    (readPartitions twiceTable = some twicePartitions ∧ validatePartitionTable twiceTable = some true ∧
      ¬ Agrees twiceTable twicePartitions) ∧
    readPartitions wideTable = some widePartitions ∧ validatePartitionTable wideTable = some true ∧
      ¬ Agrees wideTable widePartitions := by
  have hread : readPartitions twiceTable = some twicePartitions := by decide +kernel
  have hvalid : validatePartitionTable twiceTable = some true := by decide +kernel
  have hread' : readPartitions wideTable = some widePartitions := by decide +kernel
  have hvalid' : validatePartitionTable wideTable = some true := by decide +kernel
  have hsize : ∀ p ∈ twicePartitions, p.offset + p.size ≤ (2 ^ 32 - 1 : Nat) := by decide +kernel
  have hsize' : ∀ p ∈ widePartitions, p.offset + p.size ≤ (2 ^ 32 - 1 : Nat) := by decide +kernel
  refine ⟨⟨hread, hvalid, fun h => ?_⟩, hread', hvalid', fun h => ?_⟩
  · obtain ⟨bin, hbin, _⟩ := h (fun _ => List.replicate md5Size 0#8) fun _ => List.length_replicate
    obtain ⟨hfits, hcount⟩ := fits_of_main hread hbin
    obtain ⟨_, _, found, hfound⟩ := h.run hread hvalid hfits hcount hsize
      (fun _ => List.replicate md5Size 0#8) fun _ => List.length_replicate
    exact absurd (nodup_of_found (valid_of_validate hread hvalid) hfound) (by decide +kernel)
  · obtain ⟨bin, hbin, _⟩ := h (fun _ => List.replicate md5Size 0#8) fun _ => List.length_replicate
    obtain ⟨hfits, hcount⟩ := fits_of_main hread' hbin
    have hrun := h.run hread' hvalid' hfits hcount hsize'
    have hascii := ascii_of_checkTable (valid_of_validate hread' hvalid') fun md5 hmd5 => (hrun md5 hmd5).2.1
    have hwide := hascii ⟨"données".toList, 0x1F8000, 0x8000, 0⟩ (by decide +kernel) 'é' (by decide +kernel)
    exact absurd hwide (by decide)

end WmIot.PartitionTable
