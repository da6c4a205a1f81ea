import WmIot.Crypto.Oaep

/-!
# The padding PSS

The encoded message is as long as the modulus less one bit, so that in front of it up to eight bits stay clear.
Where that is a whole byte the block begins behind it, and there is one byte less for the salt.
-/

namespace WmIot.Rsa
set_option autoImplicit false

/-- The first byte without its highest bits. -/
def clearTop (k : Nat) : List Octet → List Octet
  | [] => []
  | b :: db => (b &&& 0xFF >>> k) :: db

/-- `hash_mprime` -/
def hashMprime (m : Md) (hash salt : List Octet) : List Octet := m.digest (List.replicate 8 0 ++ hash ++ salt)

/-- The byte that the mask leaves out when the bits in front fill it. -/
def pssOffset (msb : Nat) : Nat := if msb % 8 = 0 then 1 else 0

/-- What `rsa_rsassa_pss_sign` encodes the hash to, with the salt that it has drawn. -/
def pssEncode (m : Md) (hash salt : List Octet) (olen msb : Nat) : List Octet :=
  let h := hashMprime m hash salt
  let db := List.replicate (olen - m.size - salt.length - 2) 0 ++ 1 :: salt
  let offset := pssOffset msb
  let db := db.take offset ++ mgfMask m (db.drop offset) h
  clearTop (olen * 8 - msb) db ++ (h ++ [0xBC])

/-- The loop that skips the zeros up to the last byte. -/
def skipZeros : List Octet → List Octet
  | [] => []
  | [b] => [b]
  | b :: c :: p => if b = 0 then skipZeros (c :: p) else b :: c :: p

/-- The checks of `mbedtls_rsa_rsassa_pss_verify_ext` behind those of the last byte and the lengths. The length -1
stands for any. -/
def pssVerify (m : Md) (hash buf : List Octet) (expectedSaltLen : Int) (msb : Nat) : Except RsaError Unit :=
  let siglen := buf.length
  if buf.headD 0 >>> (8 + msb - siglen * 8) ≠ 0 then .error .badInputData
  else
    let p := buf.drop (pssOffset msb)
    let siglen := siglen - pssOffset msb
    if siglen < m.size + 2 then .error .badInputData
    else
      let h := (p.drop (siglen - m.size - 1)).take m.size
      let db := mgfMask m (p.take (siglen - m.size - 1)) h
      let db := if pssOffset msb = 0 then clearTop (siglen * 8 - msb) db else db
      let p := skipZeros db
      if p.headD 0 ≠ 1 then .error .invalidPadding
      else
        let salt := p.tail
        if expectedSaltLen ≠ -1 ∧ (salt.length : Int) ≠ expectedSaltLen then .error .invalidPadding
        else if h ≠ hashMprime m hash salt then .error .verifyFailed
        else .ok ()

/-! ## The first byte -/

theorem clearTop_length (k : Nat) (db : List Octet) : (clearTop k db).length = db.length := by
  cases db <;> rfl

/-- The bits in front are clear. -/
theorem clear_iff {k : Nat} (hk : k ≤ 8) (b : Octet) : b >>> (8 - k) = 0 ↔ b &&& 0xFF >>> k = b := by
  obtain ⟨k, rfl⟩ : ∃ i : Fin 9, i.val = k := ⟨⟨k, by omega⟩, rfl⟩
  clear hk
  revert k b
  decide +kernel

/-- Masking and clearing twice only clears. -/
theorem clear_mask (a x s : Octet) : (((x ^^^ s) &&& a) ^^^ s) &&& a = x &&& a := by
  ext i hi
  simp only [BitVec.getElem_and, BitVec.getElem_xor]
  cases x[i] <;> cases s[i] <;> cases a[i] <;> rfl

theorem clearTop_mask (m : Md) (h : List Octet) {k : Nat} {db : List Octet} (hclear : clearTop k db = db) :
    clearTop k (mgfMask m (clearTop k (mgfMask m db h)) h) = db := by
  have hlong : db.length ≤ (mgfStream m h db.length 0).length := by
    rw [mgfStream_length]
    exact Nat.le_mul_of_pos_right _ m.pos
  rw [mgfMask_eq m (clearTop k _), clearTop_length, mgfMask_length, mgfMask_eq]
  cases db with
  | nil => rfl
  | cons b db =>
    generalize mgfStream m h (b :: db).length 0 = mask at hlong ⊢
    cases mask with
    | nil => exact absurd hlong (by simp)
    | cons s mask =>
      have hrest : List.zipWith (· ^^^ ·) (List.zipWith (· ^^^ ·) db mask) mask = db :=
        Feistel.zipWith_cancel xor_cancel (by simpa using hlong)
      have hfirst : b &&& 0xFF >>> k = b := (List.cons.inj hclear).1
      rw [List.zipWith_cons_cons, clearTop, List.zipWith_cons_cons, clearTop, clear_mask, hfirst, hrest]

/-- Of two blocks with clear bits in front each is the other one masked, or neither is. -/
theorem clearTop_mask_iff (m : Md) (h : List Octet) {k : Nat} {x y : List Octet} (hx : clearTop k x = x)
    (hy : clearTop k y = y) : clearTop k (mgfMask m x h) = y ↔ x = clearTop k (mgfMask m y h) := by
  constructor
  · rintro rfl
    exact (clearTop_mask m h hx).symm
  · rintro rfl
    exact clearTop_mask m h hy

/-! ## The block -/

theorem skipZeros_spec {db : List Octet} (hdb : db ≠ []) :
    ∃ z b rest, db = List.replicate z 0 ++ b :: rest ∧ skipZeros db = b :: rest := by
  induction db with
  | nil => exact absurd rfl hdb
  | cons b db ih =>
    cases db with
    | nil => exact ⟨0, b, [], rfl, rfl⟩
    | cons c p =>
      rw [skipZeros]
      by_cases hb : b = 0
      · obtain ⟨z, d, rest, heq, hskip⟩ := ih (List.cons_ne_nil _ _)
        exact ⟨z + 1, d, rest, by rw [hb, heq, List.replicate_succ, List.cons_append], by rw [if_pos hb, hskip]⟩
      · exact ⟨0, b, c :: p, rfl, if_neg hb⟩

theorem skipZeros_block (z : Nat) (salt : List Octet) : skipZeros (List.replicate z 0 ++ 1 :: salt) = 1 :: salt := by
  induction z with
  | zero =>
    cases salt with
    | nil => rfl
    | cons b salt => exact if_neg (show (1 : Octet) ≠ 0 by decide)
  | succ z ih =>
    rw [List.replicate_succ, List.cons_append]
    cases hrest : List.replicate z (0 : Octet) ++ 1 :: salt with
    | nil => exact absurd hrest (by simp)
    | cons c p =>
      rw [hrest] at ih
      rw [skipZeros, if_pos rfl, ih]

/-- What the skipping leaves is a one and the salt. -/
theorem skipZeros_iff {db salt : List Octet} (hdb : db ≠ []) :
    (skipZeros db).headD 0 = 1 ∧ (skipZeros db).tail = salt ↔ ∃ z, db = List.replicate z 0 ++ 1 :: salt := by
  constructor
  · rintro ⟨hone, htail⟩
    obtain ⟨z, b, rest, heq, hskip⟩ := skipZeros_spec hdb
    rw [hskip] at hone htail
    have hb : b = 1 := hone
    have hrest : rest = salt := htail
    exact ⟨z, by rw [heq, hb, hrest]⟩
  · rintro ⟨z, rfl⟩
    rw [skipZeros_block]
    exact ⟨rfl, rfl⟩

/-- A block of zeros and a one is clear in front, unless the whole first byte is to be. -/
theorem clearTop_block {k : Nat} (hk : k ≤ 7) (z : Nat) (salt : List Octet) :
    clearTop k (List.replicate z 0 ++ 1 :: salt) = List.replicate z 0 ++ 1 :: salt := by
  have hone : ∀ i : Fin 8, (1 : Octet) &&& 0xFF >>> i.val = 1 := by decide
  cases z with
  | zero => exact congrArg (· :: salt) (hone ⟨k, by omega⟩)
  | succ z =>
    rw [List.replicate_succ, List.cons_append, clearTop]
    exact congrArg (· :: _) BitVec.zero_and

/-! ## Both ways -/

section
variable {m : Md} {hash salt buf : List Octet} {olen msb : Nat} {expectedSaltLen : Int}

theorem hashMprime_length (m : Md) (hash salt : List Octet) : (hashMprime m hash salt).length = m.size :=
  m.length_digest _

theorem pssOffset_le (msb : Nat) : pssOffset msb ≤ 1 := by
  unfold pssOffset
  split <;> omega

theorem pssEncode_length (hfits : salt.length + m.size + 2 ≤ olen) :
    (pssEncode m hash salt olen msb).length = olen := by
  have hoffset := pssOffset_le msb
  simp only [pssEncode, List.length_append, clearTop_length, mgfMask_length, List.length_take, List.length_drop,
    List.length_replicate, List.length_cons, List.length_nil, hashMprime_length]
  omega

/-- The encoding where the block begins behind the first byte, or with it. -/
theorem pssEncode_eq (hfits : salt.length + m.size + 2 + pssOffset msb ≤ olen) :
    pssEncode m hash salt olen msb =
      (if pssOffset msb = 0 then
        clearTop (olen * 8 - msb)
          (mgfMask m (List.replicate (olen - m.size - salt.length - 2) 0 ++ 1 :: salt) (hashMprime m hash salt))
      else
        0 :: mgfMask m (List.replicate (olen - m.size - salt.length - 3) 0 ++ 1 :: salt) (hashMprime m hash salt)) ++
      (hashMprime m hash salt ++ [0xBC]) := by
  rw [pssEncode]
  by_cases hzero : pssOffset msb = 0
  · rw [if_pos hzero, hzero, List.take_zero, List.nil_append, List.drop_zero]
  · have hone : pssOffset msb = 1 := by
      have hle := pssOffset_le msb
      omega
    rw [hone] at hfits
    rw [if_neg hzero, hone, show olen - m.size - salt.length - 2 = olen - m.size - salt.length - 3 + 1 by omega,
      List.replicate_succ, List.cons_append, List.take_succ_cons, List.take_zero, List.drop_succ_cons, List.drop_zero,
      List.singleton_append, clearTop]
    exact congrArg (fun b : Octet => b :: _ ++ _) BitVec.zero_and

/-- The conditions of a verification that succeeds, with the parts of the encoded message. -/
theorem pssVerify_parts {top db h : List Octet} {last : Octet} (htop : top.length = pssOffset msb) (hdb : 0 < db.length)
    (hh : h.length = m.size) :
    pssVerify m hash (top ++ db ++ (h ++ [last])) expectedSaltLen msb = .ok () ↔
      (top ++ db).headD 0 >>> (8 + msb - (top ++ db ++ (h ++ [last])).length * 8) = 0 ∧
        ∃ salt, (∃ z, (if pssOffset msb = 0 then
            clearTop ((top ++ db ++ (h ++ [last])).length * 8 - msb) (mgfMask m db h) else mgfMask m db h) =
              List.replicate z 0 ++ 1 :: salt) ∧
          (expectedSaltLen = -1 ∨ (salt.length : Int) = expectedSaltLen) ∧ h = hashMprime m hash salt := by
  generalize hn : (top ++ db ++ (h ++ [last])).length = n
  have hsum : n = pssOffset msb + db.length + m.size + 1 := by
    rw [← hn]
    simp only [List.length_append, List.length_singleton]
    omega
  have hhead : (top ++ db ++ (h ++ [last])).headD 0 = (top ++ db).headD 0 := by
    cases top with
    | cons b top => rfl
    | nil =>
      cases db with
      | cons b db => rfl
      | nil => exact absurd hdb (by simp)
  have hdrop : (top ++ db ++ (h ++ [last])).drop (pssOffset msb) = db ++ (h ++ [last]) := by
    rw [List.append_assoc, List.drop_left' htop]
  have hsize : n - pssOffset msb - m.size - 1 = db.length := by omega
  have hkept : (h ++ [last]).take m.size = h := List.take_left' hh
  unfold pssVerify
  dsimp only
  rw [hn, hhead, hdrop, hsize, List.take_left' rfl, List.drop_left' rfl, hkept]
  by_cases hfirst : (top ++ db).headD 0 >>> (8 + msb - n * 8) = 0
  · rw [if_neg (not_not.mpr hfirst), if_neg (by omega)]
    have hblock : (if pssOffset msb = 0 then clearTop ((n - pssOffset msb) * 8 - msb) (mgfMask m db h) else mgfMask m db h) =
        if pssOffset msb = 0 then clearTop (n * 8 - msb) (mgfMask m db h) else mgfMask m db h := by
      split
      · rename_i hzero
        rw [hzero, Nat.sub_zero]
      · rfl
    rw [hblock]
    generalize hd : (if pssOffset msb = 0 then clearTop (n * 8 - msb) (mgfMask m db h) else mgfMask m db h) = d
    have hne : d ≠ [] := by
      apply List.ne_nil_of_length_pos
      rw [← hd]
      split
      · rwa [clearTop_length, mgfMask_length]
      · rwa [mgfMask_length]
    constructor
    · intro hok
      split at hok
      · cases hok
      rename_i hone
      split at hok
      · cases hok
      rename_i hlen
      split at hok
      · cases hok
      rename_i hhash
      refine ⟨hfirst, (skipZeros d).tail, (skipZeros_iff hne).mp ⟨not_not.mp hone, rfl⟩, ?_, not_not.mp hhash⟩
      by_contra hneither
      rw [not_or] at hneither
      exact hlen hneither
    · rintro ⟨-, salt, hz, hlen, hhash⟩
      obtain ⟨hone, htail⟩ := (skipZeros_iff hne).mpr hz
      rw [htail, if_neg (not_not.mpr hone), if_neg (by rw [← not_or, not_not]; exact hlen), if_neg (not_not.mpr hhash)]
  · rw [if_pos hfirst]
    exact ⟨fun habs => absurd habs (by simp), fun habs => absurd habs.1 hfirst⟩

theorem clearTop_idem (k : Nat) (db : List Octet) : clearTop k (clearTop k db) = clearTop k db := by
  cases db with
  | nil => rfl
  | cons b db => rw [clearTop, clearTop, BitVec.and_assoc, BitVec.and_self]

theorem clearTop_eq_self {k : Nat} (hk : k ≤ 8) {db : List Octet} (hdb : db ≠ []) :
    clearTop k db = db ↔ db.headD 0 >>> (8 - k) = 0 := by
  obtain ⟨b, db, rfl⟩ := List.exists_cons_of_ne_nil hdb
  rw [List.headD_cons, clear_iff hk, clearTop, List.cons.injEq, and_iff_left rfl]

/-- What is verified is the encoding of the hash with a salt that fits. -/
theorem pssVerify_eq_ok {body : List Octet} (hlow : body.length * 8 ≤ msb) (hhigh : msb < (body.length + 1) * 8) :
    pssVerify m hash (body ++ [0xBC]) expectedSaltLen msb = .ok () ↔
      ∃ salt, salt.length + m.size + 2 + pssOffset msb ≤ body.length + 1 ∧
        (expectedSaltLen = -1 ∨ (salt.length : Int) = expectedSaltLen) ∧
        body ++ [0xBC] = pssEncode m hash salt (body.length + 1) msb := by
  by_cases hroom : m.size + 1 + pssOffset msb ≤ body.length
  · -- the parts: the byte left out, the masked block and the hash
    obtain ⟨top, db, h, rfl, htop, hh⟩ : ∃ top db h, body = top ++ db ++ h ∧ top.length = pssOffset msb ∧
        h.length = m.size := by
      refine ⟨body.take (pssOffset msb), (body.drop (pssOffset msb)).take (body.length - pssOffset msb - m.size),
        (body.drop (pssOffset msb)).drop (body.length - pssOffset msb - m.size), ?_, ?_, ?_⟩
      · rw [List.append_assoc, List.take_append_drop, List.take_append_drop]
      · rw [List.length_take]
        omega
      · rw [List.length_drop, List.length_drop]
        omega
    have hlen : (top ++ db ++ h).length = pssOffset msb + db.length + m.size := by
      rw [List.length_append, List.length_append, htop, hh]
    rw [hlen] at hroom hlow hhigh
    have hne : db ≠ [] := List.ne_nil_of_length_pos (by omega)
    have htotal : (top ++ db ++ (h ++ [(0xBC : Octet)])).length = pssOffset msb + db.length + m.size + 1 := by
      rw [← List.append_assoc, List.length_append, hlen, List.length_singleton]
    rw [List.append_assoc (top ++ db), pssVerify_parts htop (by omega) hh, htotal, hlen]
    by_cases hzero : pssOffset msb = 0
    · obtain rfl : top = [] := List.eq_nil_of_length_eq_zero (htop.trans hzero)
      have hmsb : msb % 8 ≠ 0 := fun habs => by
        rw [pssOffset, if_pos habs] at hzero
        exact absurd hzero (by decide)
      generalize hk : (pssOffset msb + db.length + m.size + 1) * 8 - msb = k
      have hk7 : k ≤ 7 := by omega
      rw [show 8 + msb - (pssOffset msb + db.length + m.size + 1) * 8 = 8 - k by omega]
      simp only [List.nil_append, if_pos hzero]
      rw [← clearTop_eq_self (by omega) hne]
      constructor
      · rintro ⟨hclear, salt, ⟨z, hblock⟩, hlenok, rfl⟩
        have hcount := congrArg List.length hblock
        simp only [clearTop_length, mgfMask_length, List.length_append, List.length_replicate, List.length_cons] at hcount
        refine ⟨salt, by omega, hlenok, ?_⟩
        rw [pssEncode_eq (by omega), if_pos hzero, hk,
          show pssOffset msb + db.length + m.size + 1 - m.size - salt.length - 2 = z by omega,
          ← (clearTop_mask_iff m _ hclear (clearTop_block hk7 z salt)).mp hblock]
      · rintro ⟨salt, hfits, hlenok, henc⟩
        rw [pssEncode_eq (by omega), if_pos hzero, hk] at henc
        obtain ⟨hdb, hrest⟩ := List.append_inj' henc (by
          simp only [List.length_append, List.length_singleton, hashMprime_length, hh])
        obtain ⟨hhash, -⟩ := List.append_inj' hrest rfl
        subst hhash
        have hclear : clearTop k db = db := by rw [hdb, clearTop_idem]
        exact ⟨hclear, salt, ⟨_, (clearTop_mask_iff m _ hclear (clearTop_block hk7 _ salt)).mpr hdb⟩, hlenok, rfl⟩
    · have hone : pssOffset msb = 1 := by
        have hle := pssOffset_le msb
        omega
      have hmsb : msb % 8 = 0 := by
        by_contra habs
        rw [pssOffset, if_neg habs] at hone
        exact absurd hone (by decide)
      obtain ⟨t, rfl⟩ := List.length_eq_one_iff.mp (htop.trans hone)
      have hinv := mgfMask_involutive m h
      rw [show 8 + msb - (pssOffset msb + db.length + m.size + 1) * 8 = 0 by omega, BitVec.ushiftRight_zero]
      simp only [List.singleton_append, List.headD_cons, if_neg hzero]
      constructor
      · rintro ⟨rfl, salt, ⟨z, hblock⟩, hlenok, rfl⟩
        have hcount := congrArg List.length hblock
        simp only [mgfMask_length, List.length_append, List.length_replicate, List.length_cons] at hcount
        refine ⟨salt, by omega, hlenok, ?_⟩
        rw [pssEncode_eq (by omega), if_neg hzero,
          show pssOffset msb + db.length + m.size + 1 - m.size - salt.length - 3 = z by omega, ← hblock]
        exact congrArg (fun d => 0 :: d ++ _) (hinv db).symm
      · rintro ⟨salt, hfits, hlenok, henc⟩
        rw [pssEncode_eq (by omega), if_neg hzero] at henc
        obtain ⟨hdb, hrest⟩ := List.append_inj' henc (by
          simp only [List.length_append, List.length_singleton, hashMprime_length, hh])
        obtain ⟨hhash, -⟩ := List.append_inj' hrest rfl
        subst hhash
        obtain ⟨rfl, hmasked⟩ := List.cons.inj hdb
        refine ⟨rfl, salt, ⟨pssOffset msb + db.length + m.size + 1 - m.size - salt.length - 3, ?_⟩, hlenok, rfl⟩
        exact (congrArg (fun d => mgfMask m d _) hmasked).trans (hinv _)
  · constructor
    · intro hok
      unfold pssVerify at hok
      rw [List.length_append, List.length_singleton] at hok
      dsimp only at hok
      split at hok
      · cases hok
      rw [if_pos (by omega)] at hok
      cases hok
    · rintro ⟨salt, hfits, -, -⟩
      omega

end

end WmIot.Rsa
