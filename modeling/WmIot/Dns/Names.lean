import WmIot.Dns.Server

/-!
# Comparing a query with the configured name

The comparison steps over the separators of the configured name without a look at them, and behind its
end when the query has another label.
-/

namespace WmIot.Dns.Server
open CString
set_option autoImplicit false

/-- The configured name and its NUL, as far as it lies in `DnsName`. -/
def nameBytes (name : List Byte) : List Byte := (name ++ [0#8]).take nameSize

def nameMem (name : List Byte) (i : Int) : Option Byte :=
  if 0 ≤ i then (nameBytes name)[i.toNat]? else none

def dot : Byte := 0x2E

/-- The bytes of the labels one behind the other, `none` between two labels. -/
def joined : List (List Byte) → List (Option Byte)
  | [] => []
  | [l] => l.map some
  | l :: l' :: ls => l.map some ++ none :: joined (l' :: ls)

/-- Where a C string of the bytes ends. -/
def zeroAt (j : List (Option Byte)) : Nat := j.findIdx fun b => b = some 0#8

/-- The label bytes that have a byte of the name beside them are equal to it. -/
def Agrees (name : List Byte) (j : List (Option Byte)) : Prop :=
  ∀ (i : Nat) (b c : Byte), j[i]? = some (some b) → name[i]? = some c → b = c

/-- The root is asked for and is the name; or the name ends where the labels end but has another
separator or fills `DnsName`; or the labels go on behind it with a zero or with another label. -/
def Slips (name : List Byte) (labels : List (List Byte)) : Prop :=
  (labels = [] ∧ name = []) ∨
  Agrees name (joined labels) ∧
    (((joined labels).length = name.length ∧
        (name.length = nameSize ∨ ∃ i : Nat, (joined labels)[i]? = some none ∧ name[i]? ≠ some dot)) ∨
      (joined labels)[name.length]? = some (some 0#8) ∨
      ((joined labels)[name.length]? = some none ∧ zeroAt (joined labels) ≤ nameSize))

/-- The comparison of memory with labels in one pass. -/
def compareJoined : List Byte → List (Option Byte) → Option Int
  | mem, [] => mem.head?.map fun c => if c = 0#8 then 0 else 1
  | mem, none :: j => compareJoined mem.tail j
  | mem, some b :: j => mem.head?.bind fun c => if c ≠ b then some 1 else compareJoined mem.tail j

section Encode
variable {my : Int → Option Byte} {p : Int} {mem : List Byte}

/-- `mem` is the memory from `p` on. -/
def Holds (my : Int → Option Byte) (p : Int) (mem : List Byte) : Prop :=
  ∀ i : Nat, my (p + i) = mem[i]?

theorem Holds.head (h : Holds my p mem) : my p = mem.head? := by
  have hzero := h 0
  rw [Int.natCast_zero, Int.add_zero] at hzero
  rw [hzero, List.head?_eq_getElem?]

theorem Holds.tail (h : Holds my p mem) : Holds my (p + 1) mem.tail := by
  intro i
  rw [List.getElem?_tail, ← h (i + 1)]
  congr 1
  omega

theorem Holds.drop (h : Holds my p mem) (n : Nat) : Holds my (p + n) (mem.drop n) := by
  intro i
  rw [List.getElem?_drop, ← h (n + i)]
  congr 1
  omega

/-- One label: it is passed, it differs, or the memory ends in it. -/
theorem compareLabel_cases (rest : List Byte) (j : List (Option Byte)) : ∀ {l mem : List Byte} {p : Int},
    Holds my p mem →
    (compareLabel my l.length p (l ++ rest) = some (some rest) ∧
      compareJoined mem (l.map some ++ j) = compareJoined (mem.drop l.length) j) ∨
    (compareLabel my l.length p (l ++ rest) = some none ∧
      compareJoined mem (l.map some ++ j) = some 1) ∨
    (compareLabel my l.length p (l ++ rest) = none ∧
      compareJoined mem (l.map some ++ j) = none) := by
  intro l
  induction l with
  | nil => exact fun _ => Or.inl ⟨rfl, rfl⟩
  | cons b l ih =>
    intro mem p h
    rw [List.length_cons, List.cons_append, compareLabel, List.map_cons, List.cons_append,
      compareJoined, h.head]
    cases mem with
    | nil => exact Or.inr (Or.inr ⟨rfl, rfl⟩)
    | cons c mem =>
      rw [List.head?_cons, Option.bind_some, Option.bind_some]
      by_cases hne : c ≠ b
      · rw [if_pos hne, if_pos hne]
        exact Or.inr (Or.inl ⟨rfl, rfl⟩)
      · rw [if_neg hne, if_neg hne]
        exact ih h.tail

theorem lengthByte {l : List Byte} (hl : l ≠ [] ∧ l.length ≤ 63) :
    (BitVec.ofNat 8 l.length).toNat = l.length ∧ BitVec.ofNat 8 l.length ≠ 0#8 ∧
      BitVec.ofNat 8 l.length &&& 0xc0#8 ≠ 0xc0#8 := by
  have hall : ∀ n < 64, BitVec.ofNat 8 n &&& 0xc0#8 ≠ 0xc0#8 := by decide
  have hpos := List.length_pos_iff.mpr hl.1
  have hval : (BitVec.ofNat 8 l.length).toNat = l.length := Nat.mod_eq_of_lt (by omega)
  refine ⟨hval, fun hzero => ?_, hall _ (by omega)⟩
  rw [hzero] at hval
  rw [← hval] at hpos
  cases hpos

theorem encode_cons (l : List Byte) (ls : List (List Byte)) :
    encode (l :: ls) = BitVec.ofNat 8 l.length :: (l ++ encode ls) := by
  rw [encode, encode, List.flatMap_cons, List.cons_append, List.cons_append, List.append_assoc]

theorem compareLabels_encode : ∀ {ls : List (List Byte)} {l : List Byte} {fuel : Nat} {p : Int}
    {mem : List Byte}, (∀ l' ∈ l :: ls, l' ≠ [] ∧ l'.length ≤ 63) → ls.length < fuel →
    Holds my p mem →
    compareLabels my fuel p (encode (l :: ls)) = compareJoined mem (joined (l :: ls)) := by
  intro ls
  induction ls with
  | nil =>
    intro l fuel p mem hls hfuel h
    obtain ⟨fuel, rfl⟩ : ∃ n, fuel = n + 1 := ⟨fuel - 1, by omega⟩
    obtain ⟨hval, -, hplain⟩ := lengthByte (hls l List.mem_cons_self)
    rw [encode_cons, compareLabels, if_neg hplain, hval, joined, show encode [] = [0#8] from rfl]
    have hcases := compareLabel_cases [0#8] [] (l := l) h
    rw [List.append_nil] at hcases
    rcases hcases with ⟨heq, heq'⟩ | ⟨heq, heq'⟩ | ⟨heq, heq'⟩
    · rw [heq, heq']
      dsimp only
      rw [if_neg (by simp), atEnd, compareJoined, ← (h.drop l.length).head,
        Int.add_sub_cancel]
    · rw [heq, heq']
    · rw [heq, heq']
  | cons l' ls ih =>
    intro l fuel p mem hls hfuel h
    obtain ⟨fuel, rfl⟩ : ∃ n, fuel = n + 1 := ⟨fuel - 1, by omega⟩
    obtain ⟨hval, -, hplain⟩ := lengthByte (hls l List.mem_cons_self)
    obtain ⟨-, hzero, -⟩ := lengthByte (hls l' (List.mem_cons_of_mem l List.mem_cons_self))
    rw [List.length_cons] at hfuel
    have hrest : compareLabels my fuel (p + l.length + 1) (encode (l' :: ls)) =
        compareJoined (mem.drop l.length).tail (joined (l' :: ls)) :=
      ih (fun l'' hl'' => hls l'' (List.mem_cons_of_mem l hl'')) (by omega) (h.drop l.length).tail
    rw [encode_cons, compareLabels, if_neg hplain, hval, joined]
    rcases compareLabel_cases (encode (l' :: ls)) (none :: joined (l' :: ls)) (l := l) h with
      ⟨heq, heq'⟩ | ⟨heq, heq'⟩ | ⟨heq, heq'⟩
    · rw [heq, heq', compareJoined]
      rw [encode_cons] at hrest ⊢
      dsimp only
      rw [if_pos hzero]
      exact hrest
    · rw [heq, heq']
    · rw [heq, heq']

end Encode

section Strlen

theorem zeroAt_some (b : Byte) (j : List (Option Byte)) :
    zeroAt (some b :: j) = if b = 0#8 then 0 else zeroAt j + 1 := by
  rw [zeroAt, List.findIdx_cons]
  by_cases hb : b = 0#8
  · rw [if_pos hb, hb]
    rfl
  · rw [if_neg hb]
    simp [hb, zeroAt]

theorem zeroAt_none (j : List (Option Byte)) : zeroAt (none :: j) = zeroAt j + 1 := by
  rw [zeroAt, List.findIdx_cons]
  rfl

theorem strlen_label {rest : List Byte} {j : List (Option Byte)} (h : strlen rest = some (zeroAt j)) :
    ∀ l : List Byte, strlen (l ++ rest) = some (zeroAt (l.map some ++ j)) := by
  intro l
  induction l with
  | nil => exact h
  | cons b l ih =>
    rw [List.cons_append, strlen, List.map_cons, List.cons_append, zeroAt_some, ih]
    by_cases hb : b = 0#8
    · rw [if_pos hb, if_pos hb]
    · rw [if_neg hb, if_neg hb]
      rfl

/-- The length that `strlen` finds counts the first length byte. -/
theorem strlen_encode : ∀ {ls : List (List Byte)} {l : List Byte},
    (∀ l' ∈ l :: ls, l' ≠ [] ∧ l'.length ≤ 63) →
    strlen (encode (l :: ls)) = some (zeroAt (joined (l :: ls)) + 1) := by
  intro ls
  induction ls with
  | nil =>
    intro l hls
    obtain ⟨-, hzero, -⟩ := lengthByte (hls l List.mem_cons_self)
    have hlabel : strlen (l ++ encode []) = some (zeroAt (l.map some ++ [])) := strlen_label rfl l
    rw [List.append_nil] at hlabel
    rw [encode_cons, strlen, if_neg hzero, hlabel]
    rfl
  | cons l' ls ih =>
    intro l hls
    obtain ⟨-, hzero, -⟩ := lengthByte (hls l List.mem_cons_self)
    have hrest := ih (l := l') fun l'' hl'' => hls l'' (List.mem_cons_of_mem l hl'')
    rw [← zeroAt_none] at hrest
    rw [encode_cons, strlen, if_neg hzero, strlen_label hrest l]
    rfl

end Strlen

section Compare
variable {name t : List Byte} {j : List (Option Byte)}

theorem compareJoined_nil : ∀ j : List (Option Byte), compareJoined [] j = none := by
  intro j
  induction j with
  | nil => rfl
  | cons b j ih =>
    cases b with
    | none => exact ih
    | some b => rfl

theorem compareJoined_cases : ∀ (j : List (Option Byte)) (mem : List Byte),
    compareJoined mem j = none ∨ compareJoined mem j = some 0 ∨ compareJoined mem j = some 1 := by
  intro j
  induction j with
  | nil =>
    intro mem
    cases mem with
    | nil => exact Or.inl rfl
    | cons c mem =>
      rw [compareJoined, List.head?_cons, Option.map_some]
      by_cases hc : c = 0#8
      · exact Or.inr (Or.inl (by rw [if_pos hc]))
      · exact Or.inr (Or.inr (by rw [if_neg hc]))
  | cons b j ih =>
    intro mem
    cases b with
    | none => exact ih mem.tail
    | some b =>
      cases mem with
      | nil => exact Or.inl rfl
      | cons c mem =>
        rw [compareJoined, List.head?_cons, Option.bind_some]
        by_cases hne : c ≠ b
        · rw [if_pos hne]
          exact Or.inr (Or.inr rfl)
        · rw [if_neg hne]
          exact ih mem

theorem agrees_cons {x : Option Byte} {c : Byte} :
    Agrees (c :: name) (x :: j) ↔ (∀ b, x = some b → b = c) ∧ Agrees name j := by
  constructor
  · intro h
    refine ⟨fun b hb => h 0 b c (by rw [hb]; rfl) rfl, fun i b c' hb hc => ?_⟩
    exact h (i + 1) b c' hb hc
  · rintro ⟨hhead, htail⟩ i b c' hb hc
    cases i with
    | zero =>
      cases hc
      exact hhead b (Option.some.inj hb)
    | succ i => exact htail i b c' hb hc

theorem agrees_nil (j : List (Option Byte)) : Agrees [] j := fun i b c _ hc => by cases hc

/-- The comparison succeeds where the labels end with the name and agree with it but for the
separators. -/
theorem compareJoined_zero_iff (hname : 0#8 ∉ name) (ht : t = [0#8] ∨ t = []) :
    compareJoined (name ++ t) j = some 0 ↔ Agrees name j ∧ j.length = name.length ∧ t = [0#8] := by
  induction name generalizing j with
  | nil =>
    rw [List.nil_append]
    cases j with
    | nil =>
      rcases ht with rfl | rfl
      · exact ⟨fun _ => ⟨agrees_nil [], rfl, rfl⟩, fun _ => rfl⟩
      · exact ⟨nofun, fun h => nomatch h.2.2⟩
    | cons x j =>
      refine ⟨fun h => ?_, fun h => nomatch h.2.1⟩
      rcases ht with rfl | rfl
      · cases x with
        | none =>
          rw [compareJoined, List.tail_cons, compareJoined_nil] at h
          cases h
        | some b =>
          rw [compareJoined, List.head?_cons, Option.bind_some, List.tail_cons, compareJoined_nil] at h
          split at h
          · cases h
          · cases h
      · rw [compareJoined_nil] at h
        cases h
  | cons c name ih =>
    have hc : c ≠ 0#8 := fun hc => hname (hc ▸ List.mem_cons_self)
    have hrest : 0#8 ∉ name := fun hmem => hname (List.mem_cons_of_mem c hmem)
    rw [List.cons_append]
    cases j with
    | nil =>
      rw [compareJoined, List.head?_cons, Option.map_some, if_neg hc]
      exact ⟨nofun, fun h => nomatch h.2.1⟩
    | cons x j =>
      rw [agrees_cons, List.length_cons, List.length_cons, Nat.succ_inj]
      cases x with
      | none =>
        rw [compareJoined, List.tail_cons, ih hrest]
        simp
      | some b =>
        rw [compareJoined, List.head?_cons, Option.bind_some, List.tail_cons]
        by_cases hne : c ≠ b
        · rw [if_pos hne]
          refine ⟨nofun, fun h => absurd (h.1.1 b rfl).symm hne⟩
        · rw [if_neg hne, ih hrest]
          simp [(not_not.mp hne).symm]

/-- It leaves the name where they agree and the name fills its array, or the labels go on. -/
theorem compareJoined_none_iff {room : Nat} (hname : 0#8 ∉ name) (hroom : name.length ≤ room)
    (ht : t = if name.length < room then [0#8] else []) (hzero : zeroAt j ≤ room) :
    compareJoined (name ++ t) j = none ↔ Agrees name j ∧
      ((j.length = name.length ∧ name.length = room) ∨ j[name.length]? = some (some 0#8) ∨
        j[name.length]? = some none) := by
  induction name generalizing j room with
  | nil =>
    rw [List.nil_append, ht]
    have hagree := agrees_nil j
    cases j with
    | nil =>
      by_cases hlt : ([] : List Byte).length < room
      · rw [if_pos hlt]
        simp only [compareJoined, List.length_nil] at hlt ⊢
        simp
        omega
      · rw [if_neg hlt]
        simp only [compareJoined, List.length_nil] at hlt ⊢
        simp
        exact ⟨hagree, by omega⟩
    | cons x j =>
      cases x with
      | none =>
        have hnone : compareJoined (if ([] : List Byte).length < room then [0#8] else []) (none :: j) =
            none := by
          rw [compareJoined]
          split <;> exact compareJoined_nil j
        exact ⟨fun _ => ⟨hagree, Or.inr (Or.inr rfl)⟩, fun _ => hnone⟩
      | some b =>
        rw [zeroAt_some] at hzero
        by_cases hb : b = 0#8
        · subst hb
          refine ⟨fun _ => ⟨hagree, Or.inr (Or.inl rfl)⟩, fun _ => ?_⟩
          split
          · rw [compareJoined, List.head?_cons, Option.bind_some, if_neg (by simp), List.tail_cons,
              compareJoined_nil]
          · rfl
        · rw [if_neg hb] at hzero
          rw [if_pos (by rw [List.length_nil]; omega), compareJoined, List.head?_cons,
            Option.bind_some, if_pos (Ne.symm hb)]
          refine ⟨nofun, fun h => ?_⟩
          rcases h.2 with ⟨hlen, -⟩ | hsome | hsome
          · cases hlen
          · cases hsome
            exact absurd rfl hb
          · cases hsome
  | cons c name ih =>
    have hc : c ≠ 0#8 := fun hc => hname (hc ▸ List.mem_cons_self)
    have hrest : 0#8 ∉ name := fun hmem => hname (List.mem_cons_of_mem c hmem)
    obtain ⟨room, rfl⟩ : ∃ n, room = n + 1 := ⟨room - 1, by rw [List.length_cons] at hroom; omega⟩
    rw [List.length_cons] at hroom
    have ht' : t = if name.length < room then [0#8] else [] := by
      rw [ht, List.length_cons]
      simp
    rw [List.cons_append]
    cases j with
    | nil =>
      rw [compareJoined, List.head?_cons, Option.map_some]
      simp
    | cons x j =>
      have hshift : (x :: j)[(c :: name).length]? = j[name.length]? := rfl
      rw [agrees_cons, hshift, List.length_cons, List.length_cons, Nat.succ_inj, Nat.succ_inj]
      cases x with
      | none =>
        rw [zeroAt_none] at hzero
        rw [compareJoined, List.tail_cons, ih hrest (by omega) ht' (by omega)]
        simp
      | some b =>
        rw [compareJoined, List.head?_cons, Option.bind_some, List.tail_cons]
        by_cases hne : c ≠ b
        · rw [if_pos hne]
          refine ⟨nofun, fun h => absurd (h.1.1 b rfl).symm hne⟩
        · have hcb : c = b := not_not.mp hne
          rw [zeroAt_some, if_neg (hcb ▸ hc)] at hzero
          rw [if_neg hne, ih hrest (by omega) ht' (by omega)]
          simp [hcb]

end Compare

section Name
variable {name : List Byte} {labels : List (List Byte)} {j : List (Option Byte)}

theorem intercalate_dot (labels : List (List Byte)) :
    List.intercalate [dot] labels = (joined labels).map fun b => b.getD dot := by
  have hlabel : ∀ l : List Byte, (l.map some).map (fun b => b.getD dot) = l := fun l => by
    rw [List.map_map]
    exact List.map_id l
  fun_induction joined labels with
  | case1 => rfl
  | case2 l => exact (List.append_nil l).trans (hlabel l).symm
  | case3 l l' ls ih =>
    rw [List.map_append, List.map_cons, hlabel, ← ih]
    rfl

/-- The joined labels are the name. -/
theorem joined_eq_iff : (j.map fun b => b.getD dot) = name ↔ j.length = name.length ∧ Agrees name j ∧
    ∀ i : Nat, j[i]? = some none → name[i]? = some dot := by
  induction j generalizing name with
  | nil =>
    cases name with
    | nil => exact ⟨fun _ => ⟨rfl, agrees_nil [], fun i hi => by cases hi⟩, fun _ => rfl⟩
    | cons c name => exact ⟨nofun, fun h => nomatch h.1⟩
  | cons x j ih =>
    cases name with
    | nil => exact ⟨nofun, fun h => nomatch h.1⟩
    | cons c name =>
      rw [List.map_cons, List.cons.injEq, ih, agrees_cons, List.length_cons, List.length_cons,
        Nat.succ_inj]
      constructor
      · rintro ⟨hx, hlen, hagrees, hdots⟩
        refine ⟨hlen, ⟨fun b hb => by rw [hb] at hx; exact hx, hagrees⟩, fun i hi => ?_⟩
        cases i with
        | zero =>
          cases hi
          exact congrArg some hx.symm
        | succ i => exact hdots i hi
      · rintro ⟨hlen, ⟨hhead, hagrees⟩, hdots⟩
        refine ⟨?_, hlen, hagrees, fun i hi => hdots (i + 1) hi⟩
        cases x with
        | none => exact (Option.some.inj (hdots 0 rfl)).symm
        | some b => exact hhead b rfl

theorem nameBytes_eq (hlen : name.length ≤ nameSize) :
    nameBytes name = name ++ if name.length < nameSize then [0#8] else [] := by
  rw [nameBytes]
  by_cases hlt : name.length < nameSize
  · rw [if_pos hlt, List.take_of_length_le]
    rw [List.length_append]
    exact hlt
  · rw [if_neg hlt, List.append_nil, List.take_append_of_le_length (by omega),
      List.take_of_length_le hlen]

theorem nameMem_holds (name : List Byte) : Holds (nameMem name) 0 (nameBytes name) := by
  intro i
  rw [Int.zero_add, nameMem, if_pos (Int.natCast_nonneg i)]
  rfl

/-- The comparison of a name with labels, unless the labels are too long for it. -/
theorem dnsCompareName_encode {l : List Byte} {ls : List (List Byte)}
    (hls : ∀ l' ∈ l :: ls, l' ≠ [] ∧ l'.length ≤ 63) (hlen : name.length ≤ nameSize) :
    dnsCompareName (nameMem name) (encode (l :: ls)) =
      if nameSize < zeroAt (joined (l :: ls)) % 2 ^ 32 then some 1
      else compareJoined (name ++ if name.length < nameSize then [0#8] else [])
        (joined (l :: ls)) := by
  have hfuel : ls.length < (encode (l :: ls)).length := by
    rw [encode, List.length_append, List.length_flatMap]
    have hcount : (l :: ls).length ≤ ((l :: ls).map fun l => (BitVec.ofNat 8 l.length :: l).length).sum := by
      generalize l :: ls = labels
      induction labels with
      | nil => exact Nat.le_refl 0
      | cons l labels ih =>
        rw [List.map_cons, List.sum_cons, List.length_cons, List.length_cons]
        omega
    rw [List.length_cons] at hcount
    omega
  have hmod : (zeroAt (joined (l :: ls)) + 1 + 2 ^ 32 - 1) % 2 ^ 32 =
      zeroAt (joined (l :: ls)) % 2 ^ 32 := by
    rw [Nat.add_right_comm, Nat.add_sub_cancel, Nat.add_mod_right]
  rw [dnsCompareName, strlen_encode hls, Option.bind_some, hmod,
    compareLabels_encode hls hfuel (nameMem_holds name), nameBytes_eq hlen]
  rfl

theorem zeroAt_le {i : Nat} (h : j[i]? = some (some 0#8)) : zeroAt j ≤ i := by
  by_contra hlt
  have hnot := List.not_of_lt_findIdx (Nat.not_le.mp hlt)
  rw [List.getElem?_eq_some_iff] at h
  obtain ⟨hi, h⟩ := h
  rw [h] at hnot
  simp at hnot

theorem zeroAt_le_encode (l : List Byte) (ls : List (List Byte))
    (hls : ∀ l' ∈ l :: ls, l' ≠ [] ∧ l'.length ≤ 63) :
    zeroAt (joined (l :: ls)) < (encode (l :: ls)).length := by
  obtain ⟨q, rest, heq, -, hlen⟩ := strlen_eq_some_iff.mp (strlen_encode hls)
  rw [heq, List.length_append]
  omega

/-- Where the comparison goes wrong or leaves the name: it slips. -/
theorem slips_iff {l : List Byte} {ls : List (List Byte)} (hname : 0#8 ∉ name)
    (hlen : name.length ≤ nameSize) (hzero : zeroAt (joined (l :: ls)) ≤ nameSize) :
    compareJoined (name ++ if name.length < nameSize then [0#8] else []) (joined (l :: ls)) =
      some (if List.intercalate [dot] (l :: ls) = name then 0 else 1) ↔ ¬ Slips name (l :: ls) := by
  have hnone := compareJoined_none_iff hname hlen rfl hzero
  have hok := compareJoined_zero_iff (j := joined (l :: ls)) hname
    (t := if name.length < nameSize then [0#8] else [])
    (by split; exacts [Or.inl rfl, Or.inr rfl])
  have ht : (if name.length < nameSize then [0#8] else ([] : List Byte)) = [0#8] ↔
      name.length ≠ nameSize := by
    by_cases hlt : name.length < nameSize
    · rw [if_pos hlt]
      exact ⟨fun _ => by omega, fun _ => rfl⟩
    · rw [if_neg hlt]
      exact ⟨nofun, fun hne => by omega⟩
  have hcases := compareJoined_cases (joined (l :: ls))
    (name ++ if name.length < nameSize then [0#8] else [])
  rw [ht] at hok
  generalize compareJoined (name ++ if name.length < nameSize then [0#8] else [])
    (joined (l :: ls)) = r at hnone hok hcases ⊢
  by_cases heq : List.intercalate [dot] (l :: ls) = name
  · rw [if_pos heq, hok]
    obtain ⟨hsame, hagrees, hdots⟩ := joined_eq_iff.mp ((intercalate_dot (l :: ls)).symm.trans heq)
    have hbehind : (joined (l :: ls))[name.length]? = none := by
      rw [← hsame]
      exact List.getElem?_eq_none (Nat.le_refl _)
    rw [Slips, hbehind]
    constructor
    · rintro ⟨-, -, hne⟩ (⟨hnil, -⟩ | ⟨-, ⟨-, hfull | ⟨i, hi, hbad⟩⟩ | hsome | ⟨hsome, -⟩⟩)
      · cases hnil
      · exact hne hfull
      · exact hbad (hdots i hi)
      · cases hsome
      · cases hsome
    · intro hnot
      exact ⟨hagrees, hsame, fun hfull => hnot (Or.inr ⟨hagrees, Or.inl ⟨hsame, Or.inl hfull⟩⟩)⟩
  · rw [if_neg heq]
    have hdots : ∀ h : Agrees name (joined (l :: ls)) ∧ (joined (l :: ls)).length = name.length,
        ∃ i : Nat, (joined (l :: ls))[i]? = some none ∧ name[i]? ≠ some dot := by
      rintro ⟨hagrees, hsame⟩
      by_contra hall
      refine heq ((intercalate_dot (l :: ls)).trans (joined_eq_iff.mpr ⟨hsame, hagrees, ?_⟩))
      intro i hi
      by_contra hbad
      exact hall ⟨i, hi, hbad⟩
    constructor
    · rintro rfl (⟨hnil, -⟩ | ⟨hagrees, hcase⟩)
      · cases hnil
      · rcases hcase with ⟨hsame, -⟩ | hsome | ⟨hsome, -⟩
        · by_cases hfull : name.length = nameSize
          · exact nomatch hnone.mpr ⟨hagrees, Or.inl ⟨hsame, hfull⟩⟩
          · exact nomatch hok.mpr ⟨hagrees, hsame, hfull⟩
        · exact nomatch hnone.mpr ⟨hagrees, Or.inr (Or.inl hsome)⟩
        · exact nomatch hnone.mpr ⟨hagrees, Or.inr (Or.inr hsome)⟩
    · intro hnot
      rcases hcases with hr | hr | hr
      · obtain ⟨hagrees, hcase⟩ := hnone.mp hr
        refine absurd (Or.inr ⟨hagrees, ?_⟩) hnot
        exact hcase.imp (And.imp_right Or.inl) (Or.imp_right fun hsome => ⟨hsome, hzero⟩)
      · obtain ⟨hagrees, hsame, -⟩ := hok.mp hr
        exact absurd (Or.inr ⟨hagrees, Or.inl ⟨hsame, Or.inr (hdots ⟨hagrees, hsame⟩)⟩⟩) hnot
      · exact hr

/-- For a name and a query of labels the comparison is right and stays inside of both, if and only if
it does not slip. -/
theorem compares_iff (hname : 0#8 ∉ name) (hlen : name.length ≤ nameSize)
    (hlabels : ∀ l ∈ labels, l ≠ [] ∧ l.length ≤ 63) (hpacket : (encode labels).length < 2 ^ 16) :
    dnsCompareName (nameMem name) (encode labels) =
      some (if List.intercalate [dot] labels = name then 0 else 1) ↔ ¬ Slips name labels := by
  cases labels with
  | nil =>
    have hresult : dnsCompareName (nameMem name) (encode []) = some 1 := rfl
    have hroot : List.intercalate [dot] [] = ([] : List Byte) := rfl
    have hslips : Slips name [] ↔ name = [] := by
      constructor
      · rintro (⟨-, hnil⟩ | ⟨-, ⟨hsame, -⟩ | hsome | ⟨hsome, -⟩⟩)
        · exact hnil
        · exact List.eq_nil_of_length_eq_zero hsame.symm
        · cases hsome
        · cases hsome
      · exact fun hnil => Or.inl ⟨rfl, hnil⟩
    rw [hresult, hroot, hslips]
    by_cases hnil : name = []
    · rw [if_pos hnil.symm]
      exact ⟨nofun, fun hnot => absurd hnil hnot⟩
    · rw [if_neg (Ne.symm hnil)]
      exact ⟨fun _ => hnil, fun _ => rfl⟩
  | cons l ls =>
    have hlt := zeroAt_le_encode l ls hlabels
    have hmod : zeroAt (joined (l :: ls)) % 2 ^ 32 = zeroAt (joined (l :: ls)) :=
      Nat.mod_eq_of_lt (by omega)
    rw [dnsCompareName_encode hlabels hlen, hmod]
    by_cases hzero : zeroAt (joined (l :: ls)) ≤ nameSize
    · rw [if_neg (by omega)]
      exact slips_iff hname hlen hzero
    · -- labels that are too long are not the name, whatever their bytes
      have hlong : name.length < (joined (l :: ls)).length := by
        have hle : zeroAt (joined (l :: ls)) ≤ (joined (l :: ls)).length := List.findIdx_le_length
        omega
      have hne : List.intercalate [dot] (l :: ls) ≠ name := by
        intro heq
        have hsame := (joined_eq_iff.mp ((intercalate_dot (l :: ls)).symm.trans heq)).1
        omega
      rw [if_pos (by omega), if_neg hne]
      refine ⟨fun _ => ?_, fun _ => rfl⟩
      rintro (⟨hnil, -⟩ | ⟨-, ⟨hsame, -⟩ | hsome | ⟨-, hle⟩⟩)
      · cases hnil
      · omega
      · have hle := zeroAt_le hsome
        omega
      · exact hzero hle

/-- "wm.cn" asked for by its two labels -/
theorem compares_iff_twoLabels :
    dnsCompareName (nameMem (lit "wm.cn")) (encode [lit "wm", lit "cn"]) = some 0 ∧
      ¬ Slips (lit "wm.cn") [lit "wm", lit "cn"] := by
  have hresult : dnsCompareName (nameMem (lit "wm.cn")) (encode [lit "wm", lit "cn"]) = some 0 := by
    decide +kernel
  have hjoined : List.intercalate [dot] [lit "wm", lit "cn"] = lit "wm.cn" :=
    (intercalate_dot _).trans (by decide +kernel)
  refine ⟨hresult, (compares_iff (by decide +kernel) (by decide +kernel) ?_ (by decide +kernel)).mp ?_⟩
  · decide +kernel
  · rw [if_pos hjoined]
    exact hresult

/-- Another separator is taken for a dot; behind the end of a name, or of a name that fills its array,
the comparison reads on; the empty name is not found equal to the root. -/
theorem not_compares :
    (dnsCompareName (nameMem (lit "wm_cn")) (encode [lit "wm", lit "cn"]) = some 0 ∧
      List.intercalate [dot] [lit "wm", lit "cn"] ≠ lit "wm_cn") ∧
    dnsCompareName (nameMem (lit "wm")) (encode [lit "wm", lit "cn"]) = none ∧
    dnsCompareName (nameMem (List.replicate 32 0x61)) (encode [List.replicate 32 0x61]) = none ∧
    (dnsCompareName (nameMem []) (encode []) = some 1 ∧ List.intercalate [dot] [] = ([] : List Byte)) := by
  refine ⟨⟨by decide +kernel, ?_⟩, by decide +kernel, by decide +kernel, rfl, rfl⟩
  rw [intercalate_dot]
  decide +kernel

end Name

end WmIot.Dns.Server
