import WmIot.Crypto.RsaKeys
import WmIot.Lib.Feistel

/-!
# The padding OAEP

The data block and the seed mask each other. The checks go through the whole block, whatever they find, and what
they accept is what the padding makes of a seed and the message that is handed out.
-/

namespace WmIot.Rsa
set_option autoImplicit false

abbrev Octet := BitVec 8

/-! ## Digests -/

/-- `mbedtls_md_type_t` -/
inductive MdType where
  | none | md5 | sha1 | sha224 | sha256 | sha384 | sha512 | ripemd160
deriving DecidableEq, Repr

/-- The sizes in `hash_table`. -/
def MdType.tableSize : MdType → Nat
  | .none => 0
  | .md5 => 16
  | .ripemd160 => 20
  | .sha1 => 20
  | .sha224 => 28
  | .sha256 => 32
  | .sha384 => 48
  | .sha512 => 64

/-- A digest: what `mbedtls_md` gives for any input. -/
structure Md where
  size : Nat
  digest : List Octet → List Octet
  length_digest : ∀ input, (digest input).length = size
  pos : 0 < size

/-- The digests that are built in; the size of another one is 0. -/
structure Digests where
  md : MdType → Option Md
  size_md : ∀ {t m}, md t = some m → m.size = t.tableSize

/-! ## The mask -/

/-- The loop of `mgf_mask` with the turns left and the last byte of the counter. -/
def mgfLoop (m : Md) (src : List Octet) : Nat → Octet → List Octet → List Octet
  | 0, _, dst => dst
  | k + 1, counter, dst =>
    if dst = [] then []
    else
      List.zipWith (· ^^^ ·) (dst.take m.size) (m.digest (src ++ [0, 0, 0, counter])) ++
        mgfLoop m src k (counter + 1) (dst.drop m.size)

/-- `mgf_mask`; each turn masks a byte at least. -/
def mgfMask (m : Md) (dst src : List Octet) : List Octet := mgfLoop m src dst.length 0 dst

/-- The digests of so many turns, one after the other. -/
def mgfStream (m : Md) (src : List Octet) : Nat → Octet → List Octet
  | 0, _ => []
  | k + 1, counter => m.digest (src ++ [0, 0, 0, counter]) ++ mgfStream m src k (counter + 1)

theorem mgfStream_length (m : Md) (src : List Octet) (k : Nat) (counter : Octet) :
    (mgfStream m src k counter).length = k * m.size := by
  induction k generalizing counter with
  | zero => rw [Nat.zero_mul, mgfStream, List.length_nil]
  | succ k ih => rw [mgfStream, List.length_append, m.length_digest, ih, Nat.succ_mul, Nat.add_comm]

theorem mgfLoop_eq (m : Md) (src : List Octet) {k : Nat} {counter : Octet} {dst : List Octet}
    (hk : dst.length ≤ k * m.size) : mgfLoop m src k counter dst = List.zipWith (· ^^^ ·) dst (mgfStream m src k counter) := by
  induction k generalizing counter dst with
  | zero =>
    rw [Nat.zero_mul, Nat.le_zero, List.length_eq_zero_iff] at hk
    rw [hk, mgfLoop, List.zipWith_nil_left]
  | succ k ih =>
    rw [mgfLoop]
    split
    · rename_i hnil
      rw [hnil, List.zipWith_nil_left]
    have hrest : (dst.drop m.size).length ≤ k * m.size := by
      rw [Nat.succ_mul] at hk
      rw [List.length_drop]
      omega
    rw [ih hrest, mgfStream]
    by_cases hlong : m.size ≤ dst.length
    · have hsame : (dst.take m.size).length = (m.digest (src ++ [0, 0, 0, counter])).length := by
        rw [m.length_digest, List.length_take, Nat.min_eq_left hlong]
      rw [← List.zipWith_append hsame, List.take_append_drop]
    · have hshort : dst.length ≤ m.size := Nat.le_of_not_le hlong
      rw [List.drop_of_length_le hshort, List.take_of_length_le hshort, List.zipWith_nil_left, List.append_nil,
        Feistel.zipWith_extend _ (by rwa [m.length_digest])]

/-- The bytes of the stream are put on those of the buffer. -/
theorem mgfMask_eq (m : Md) (dst src : List Octet) :
    mgfMask m dst src = List.zipWith (· ^^^ ·) dst (mgfStream m src dst.length 0) :=
  mgfLoop_eq m src (Nat.le_mul_of_pos_right _ m.pos)

@[simp] theorem mgfMask_length (m : Md) (dst src : List Octet) : (mgfMask m dst src).length = dst.length := by
  have hle : dst.length ≤ dst.length * m.size := Nat.le_mul_of_pos_right _ m.pos
  rw [mgfMask_eq, List.length_zipWith, mgfStream_length, Nat.min_eq_left hle]

theorem xor_cancel (a m : Octet) : a ^^^ m ^^^ m = a := by
  rw [BitVec.xor_assoc, BitVec.xor_self, BitVec.xor_zero]

/-- The same mask twice. -/
theorem mgfMask_involutive (m : Md) (src : List Octet) : Function.Involutive fun dst => mgfMask m dst src := by
  intro dst
  have hlong : dst.length ≤ (mgfStream m src dst.length 0).length := by
    rw [mgfStream_length]
    exact Nat.le_mul_of_pos_right _ m.pos
  dsimp only
  rw [mgfMask_eq m (mgfMask m dst src), mgfMask_length, mgfMask_eq, Feistel.zipWith_cancel xor_cancel hlong]

/-! ## The padding -/

/-- The data block of a message, with its zeros. -/
def dataBlock (m : Md) (label input : List Octet) (zeros : Nat) : List Octet :=
  m.digest label ++ (List.replicate zeros 0 ++ 1 :: input)

/-- What `mbedtls_rsa_rsaes_oaep_encrypt` pads the message to. -/
def oaepEncode (m : Md) (label seed input : List Octet) (olen : Nat) : List Octet :=
  let db := dataBlock m label input (olen - 2 * m.size - 2 - input.length)
  let db := mgfMask m db seed
  let seed := mgfMask m seed db
  0 :: (seed ++ db)

/-- The loop that counts the zeros, with `pad_done`. -/
def oaepPadLen : Octet → List Octet → Nat
  | _, [] => 0
  | done, b :: p =>
    let done := done ||| b
    (((done ||| -done) >>> 7) ^^^ 1).toNat + oaepPadLen done p

def orLoop (bad : Octet) (bytes : List Octet) : Octet := bytes.foldl (· ||| ·) bad

/-- The checks of `mbedtls_rsa_rsaes_oaep_decrypt` on the first byte and the data block. -/
def oaepUnpad (first : Octet) (lhash db : List Octet) (outputMaxLen : Nat) : Except RsaError (List Octet) :=
  let bad := orLoop first (List.zipWith (· ^^^ ·) lhash db)
  let p := db.drop lhash.length
  let padLen := oaepPadLen 0 (p.take (p.length - 1))
  let bad := bad ||| (p.getD padLen 0 ^^^ 1)
  let p := p.drop (padLen + 1)
  if bad ≠ 0 then .error .invalidPadding
  else if outputMaxLen < p.length then .error .outputTooLarge
  else .ok p

/-- `mbedtls_rsa_rsaes_oaep_decrypt` behind the private operation. -/
def oaepDecode (m : Md) (label buf : List Octet) (outputMaxLen : Nat) : Except RsaError (List Octet) :=
  let db := buf.drop (m.size + 1)
  let seed := mgfMask m ((buf.drop 1).take m.size) db
  let db := mgfMask m db seed
  oaepUnpad (buf.headD 0) (m.digest label) db outputMaxLen

theorem or_eq_zero {w : Nat} {a b : BitVec w} : a ||| b = 0 ↔ a = 0 ∧ b = 0 := BitVec.or_eq_zero_iff

theorem zero_or (b : Octet) : 0 ||| b = b := BitVec.zero_or

theorem xor_eq_zero {w : Nat} {a b : BitVec w} : a ^^^ b = 0 ↔ a = b := BitVec.xor_eq_zero_iff

theorem orLoop_eq_zero {bad : Octet} {bytes : List Octet} : orLoop bad bytes = 0 ↔ bad = 0 ∧ ∀ b ∈ bytes, b = 0 := by
  induction bytes generalizing bad with
  | nil => simp [orLoop]
  | cons b bytes ih =>
    rw [orLoop, List.foldl_cons]
    change orLoop (bad ||| b) bytes = 0 ↔ _
    rw [ih, or_eq_zero, List.forall_mem_cons, and_assoc]

/-- No byte differs. -/
theorem zipWith_xor_eq_zero {a b : List Octet} (hlen : a.length ≤ b.length) :
    (∀ x ∈ List.zipWith (· ^^^ ·) a b, x = 0) ↔ b.take a.length = a := by
  induction a generalizing b with
  | nil => simp
  | cons x a ih =>
    cases b with
    | nil => exact absurd hlen (by simp)
    | cons y b =>
      rw [List.zipWith_cons_cons, List.forall_mem_cons, ih (by simpa using hlen), List.length_cons,
        List.take_succ_cons, List.cons.injEq, xor_eq_zero, @eq_comm _ y]

/-- The test for zero without a branch. -/
theorem zeroBit (b : Octet) : (((b ||| -b) >>> 7) ^^^ 1).toNat = if b = 0 then 1 else 0 := by
  revert b
  decide +kernel

theorem oaepPadLen_done {done : Octet} (hdone : done ≠ 0) (p : List Octet) : oaepPadLen done p = 0 := by
  induction p generalizing done with
  | nil => rfl
  | cons b p ih =>
    have hnext : done ||| b ≠ 0 := fun h => hdone (or_eq_zero.mp h).1
    rw [oaepPadLen, zeroBit, if_neg hnext, ih hnext]

/-- The zeros up to the first other byte. -/
theorem oaepPadLen_replicate (j : Nat) {b : Octet} (hb : b ≠ 0) (p : List Octet) :
    oaepPadLen 0 (List.replicate j 0 ++ b :: p) = j := by
  induction j with
  | zero =>
    rw [List.replicate_zero, List.nil_append, oaepPadLen, zero_or, zeroBit, if_neg hb, oaepPadLen_done hb]
  | succ j ih =>
    rw [List.replicate_succ, List.cons_append, oaepPadLen, zero_or, zeroBit, if_pos rfl, ih, Nat.add_comm]

theorem oaepPadLen_zeros (j : Nat) : oaepPadLen 0 (List.replicate j 0) = j := by
  induction j with
  | zero => rfl
  | succ j ih =>
    rw [List.replicate_succ, oaepPadLen, zero_or, zeroBit, if_pos rfl, ih, Nat.add_comm]

/-- Zeros in front, and whether something is behind them. -/
theorem zeros_split (p : List Octet) :
    (∃ j, p = List.replicate j 0) ∨ ∃ j b rest, b ≠ 0 ∧ p = List.replicate j 0 ++ b :: rest := by
  induction p with
  | nil => exact Or.inl ⟨0, rfl⟩
  | cons b p ih =>
    by_cases hb : b = 0
    · subst hb
      rcases ih with ⟨j, rfl⟩ | ⟨j, c, rest, hc, rfl⟩
      · exact Or.inl ⟨j + 1, List.replicate_succ.symm⟩
      · exact Or.inr ⟨j + 1, c, rest, hc, by rw [List.replicate_succ, List.cons_append]⟩
    · exact Or.inr ⟨0, b, p, hb, rfl⟩

/-- Zeros, then a byte, which stands where the count says. -/
theorem oaepPadLen_spec {p : List Octet} (hp : p ≠ []) :
    ∃ j b rest, p = List.replicate j 0 ++ b :: rest ∧ oaepPadLen 0 (p.take (p.length - 1)) = j := by
  rw [← List.dropLast_eq_take]
  obtain ⟨q, last, rfl⟩ : ∃ q last, p = q ++ [last] := ⟨_, _, (List.dropLast_append_getLast hp).symm⟩
  rw [List.dropLast_concat]
  rcases zeros_split q with ⟨j, rfl⟩ | ⟨j, b, rest, hb, rfl⟩
  · exact ⟨j, last, [], rfl, oaepPadLen_zeros j⟩
  · exact ⟨j, b, rest ++ [last], by rw [List.append_assoc, List.cons_append], oaepPadLen_replicate j hb rest⟩

theorem getD_replicate_append (j : Nat) (b : Octet) (rest : List Octet) :
    (List.replicate j 0 ++ b :: rest).getD j 0 = b := by
  simp [List.getD_eq_getElem?_getD]

theorem drop_replicate_append (j : Nat) (b : Octet) (rest : List Octet) :
    (List.replicate j (0 : Octet) ++ b :: rest).drop (j + 1) = rest := by
  rw [List.drop_append, List.length_replicate, Nat.add_sub_cancel_left,
    List.drop_of_length_le (by rw [List.length_replicate]; omega), List.nil_append, List.drop_succ_cons, List.drop_zero]

/-- The count goes up to the one, also where nothing is behind it. -/
theorem oaepPadLen_padded (zeros : Nat) (msg : List Octet) :
    oaepPadLen 0 ((List.replicate zeros 0 ++ 1 :: msg).take ((List.replicate zeros (0 : Octet) ++ 1 :: msg).length - 1)) =
      zeros := by
  rw [← List.dropLast_eq_take]
  cases msg with
  | nil => rw [List.dropLast_concat, oaepPadLen_zeros]
  | cons b msg =>
    rw [List.dropLast_append_of_ne_nil (List.cons_ne_nil _ _), List.dropLast_cons_of_ne_nil (List.cons_ne_nil _ _),
      oaepPadLen_replicate zeros (by decide)]

/-- The checks accept the data blocks of the label. -/
theorem oaepUnpad_eq_ok {first : Octet} {lhash db msg : List Octet} {outputMaxLen : Nat}
    (hlen : lhash.length < db.length) :
    oaepUnpad first lhash db outputMaxLen = .ok msg ↔
      first = 0 ∧ msg.length ≤ outputMaxLen ∧ ∃ zeros, db = lhash ++ (List.replicate zeros 0 ++ 1 :: msg) := by
  have hne : db.drop lhash.length ≠ [] := by simpa using hlen
  obtain ⟨j, b, rest, hp, hj⟩ := oaepPadLen_spec hne
  have hsplit := List.take_append_drop lhash.length db
  have hzero : orLoop first (List.zipWith (· ^^^ ·) lhash db) ||| (b ^^^ 1) = 0 ↔
      first = 0 ∧ db.take lhash.length = lhash ∧ b = 1 := by
    rw [or_eq_zero, orLoop_eq_zero, zipWith_xor_eq_zero hlen.le, xor_eq_zero, and_assoc]
  unfold oaepUnpad
  dsimp only
  rw [hj, hp, getD_replicate_append, drop_replicate_append]
  constructor
  · intro h
    split at h
    · cases h
    rename_i hbad
    split at h
    · cases h
    rename_i hroom
    obtain rfl := Except.ok.inj h
    obtain ⟨hfirst, hhash, rfl⟩ := hzero.mp (not_not.mp hbad)
    exact ⟨hfirst, Nat.not_lt.mp hroom, j, by rw [← hp, ← hhash, List.length_take, Nat.min_eq_left hlen.le, hsplit]⟩
  · rintro ⟨hfirst, hroom, zeros, rfl⟩
    have hdrop : (lhash ++ (List.replicate zeros (0 : Octet) ++ 1 :: msg)).drop lhash.length =
        List.replicate zeros 0 ++ 1 :: msg := List.drop_left
    rw [hdrop] at hp
    rw [hdrop, oaepPadLen_padded] at hj
    subst hj
    obtain ⟨rfl, rfl⟩ := List.cons.inj (List.append_cancel_left hp)
    have htake : (lhash ++ (List.replicate zeros (0 : Octet) ++ 1 :: msg)).take lhash.length = lhash := List.take_left
    rw [if_neg (not_not.mpr (hzero.mpr ⟨hfirst, htake, rfl⟩)), if_neg (Nat.not_lt.mpr hroom)]

/-! ## Both ways -/

section
variable {m : Md} {label seed msg buf : List Octet} {outputMaxLen olen : Nat}

/-- The two masks as a network of two rounds. -/
theorem oaepEncode_eq (m : Md) (label seed input : List Octet) (olen : Nat) :
    oaepEncode m label seed input olen =
      0 :: ((Feistel.hide (fun seed db => mgfMask m db seed) (fun db seed => mgfMask m seed db)
        (seed, dataBlock m label input (olen - 2 * m.size - 2 - input.length))).1 ++
      (Feistel.hide (fun seed db => mgfMask m db seed) (fun db seed => mgfMask m seed db)
        (seed, dataBlock m label input (olen - 2 * m.size - 2 - input.length))).2) := rfl

theorem dataBlock_length (m : Md) (label input : List Octet) (zeros : Nat) :
    (dataBlock m label input zeros).length = m.size + zeros + 1 + input.length := by
  simp only [dataBlock, List.length_append, m.length_digest, List.length_replicate, List.length_cons]
  omega

theorem oaepEncode_length (hseed : seed.length = m.size) (hfits : msg.length + 2 * m.size + 2 ≤ olen) :
    (oaepEncode m label seed msg olen).length = olen := by
  simp only [oaepEncode, List.length_cons, List.length_append, mgfMask_length, dataBlock_length]
  omega

theorem oaepDecode_eq (first : Octet) {s d : List Octet} (hs : s.length = m.size) :
    oaepDecode m label (first :: (s ++ d)) outputMaxLen =
      oaepUnpad first (m.digest label)
        (Feistel.reveal (fun seed db => mgfMask m db seed) (fun db seed => mgfMask m seed db) (s, d)).2
        outputMaxLen := by
  have hleft : (s ++ d).take m.size = s := List.take_left' hs
  have hright : (s ++ d).drop m.size = d := List.drop_left' hs
  rw [oaepDecode, List.drop_succ_cons, List.drop_succ_cons, List.drop_zero, hleft, hright]
  rfl

/-- What is accepted is what the padding makes of a seed and the message handed out. -/
theorem oaepDecode_eq_ok (hlen : 2 * m.size + 2 ≤ buf.length) :
    oaepDecode m label buf outputMaxLen = .ok msg ↔
      msg.length ≤ outputMaxLen ∧ msg.length + 2 * m.size + 2 ≤ buf.length ∧
        ∃ seed, seed.length = m.size ∧ buf = oaepEncode m label seed msg buf.length := by
  have hF : ∀ seed, Function.Involutive fun db => mgfMask m db seed := mgfMask_involutive m
  have hG : ∀ db, Function.Involutive fun seed => mgfMask m seed db := mgfMask_involutive m
  obtain ⟨first, tail, rfl⟩ := List.exists_cons_of_ne_nil (List.ne_nil_of_length_pos (by omega : 0 < buf.length))
  rw [List.length_cons] at hlen
  obtain ⟨s, d, rfl, hs⟩ : ∃ s d, tail = s ++ d ∧ s.length = m.size :=
    ⟨tail.take m.size, tail.drop m.size, (List.take_append_drop _ _).symm, by rw [List.length_take]; omega⟩
  rw [List.length_append] at hlen
  have hsize : (first :: (s ++ d)).length = m.size + 1 + d.length := by
    rw [List.length_cons, List.length_append]
    omega
  rw [oaepDecode_eq first hs, hsize]
  generalize hrev : Feistel.reveal (fun seed db => mgfMask m db seed) (fun db seed => mgfMask m seed db) (s, d) = u
  obtain ⟨seed, db⟩ := u
  have hhide := (Feistel.reveal_eq_iff hF hG).mp hrev
  have hseed : seed.length = m.size := by
    have hone : seed = mgfMask m s d := (congrArg Prod.fst hrev).symm
    rw [hone, mgfMask_length, hs]
  have hdb : db.length = d.length := by
    have htwo : db = mgfMask m d (mgfMask m s d) := (congrArg Prod.snd hrev).symm
    rw [htwo, mgfMask_length]
  dsimp only
  rw [oaepUnpad_eq_ok (by rw [m.length_digest]; omega)]
  constructor
  · rintro ⟨rfl, hroom, zeros, hblock⟩
    change db = dataBlock m label msg zeros at hblock
    have hcount := congrArg List.length hblock
    rw [dataBlock_length] at hcount
    refine ⟨hroom, by omega, seed, hseed, ?_⟩
    rw [oaepEncode_eq, show m.size + 1 + d.length - 2 * m.size - 2 - msg.length = zeros by omega, ← hblock, ← hhide]
  · rintro ⟨hroom, hfits, seed', hseed', henc⟩
    rw [oaepEncode_eq] at henc
    obtain ⟨rfl, hhalves⟩ := List.cons.inj henc
    refine ⟨rfl, hroom, m.size + 1 + d.length - 2 * m.size - 2 - msg.length, ?_⟩
    obtain ⟨hl, hr⟩ := List.append_inj hhalves (by rw [Feistel.hide]; simp only [mgfMask_length]; omega)
    have hpair : (s, d) = Feistel.hide (fun seed db => mgfMask m db seed) (fun db seed => mgfMask m seed db)
        (seed', dataBlock m label msg (m.size + 1 + d.length - 2 * m.size - 2 - msg.length)) := Prod.ext hl hr
    rw [(Feistel.reveal_eq_iff hF hG).mpr hpair] at hrev
    exact (congrArg Prod.snd hrev).symm

end

end WmIot.Rsa
