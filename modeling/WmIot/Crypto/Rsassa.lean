import WmIot.Crypto.Pss
import WmIot.Crypto.Rsaes

/-!
# Signatures with RSA

A signature is the private operation on an encoding. That of PKCS#1 v1.5 depends on the hash alone. That of PSS has
a salt, and where the modulus has one bit over whole bytes its block begins behind the first byte, which signing
does not count when it fits the salt in.
-/

namespace WmIot.Rsa
set_option autoImplicit false

/-- `mbedtls_hash_info_get_size` -/
def Digests.size (D : Digests) (t : MdType) : Nat :=
  match D.md t with
  | none => 0
  | some m => m.size

/-- The checks of `md_alg` and `hashlen`. -/
def Digests.HashLen (D : Digests) (mdAlg : MdType) (hash : List Octet) : Prop :=
  mdAlg = .none ∨ D.size mdAlg ≠ 0 ∧ hash.length = D.size mdAlg

instance (D : Digests) (mdAlg : MdType) (hash : List Octet) : Decidable (D.HashLen mdAlg hash) :=
  inferInstanceAs (Decidable (_ ∨ _))

/-- The length of the salt in `rsa_rsassa_pss_sign`; -1 stands for the longest one up to the hash. -/
def pssSaltLen (hlen olen : Nat) (saltLen : Int) : Option Nat :=
  if saltLen = -1 then
    if olen < hlen + (hlen - 2) + 2 then none
    else if hlen + hlen + 2 ≤ olen then some hlen
    else some (olen - hlen - 2)
  else if saltLen < 0 ∨ (olen : Int) < saltLen + hlen + 2 then none
  else some saltLen.toNat

/-- The identifiers in `oid_md_alg`. -/
def MdType.oid : MdType → Option (List Octet)
  | .none => Option.none
  | .md5 => some [0x2A, 0x86, 0x48, 0x86, 0xF7, 0x0D, 0x02, 0x05]
  | .sha1 => some [0x2B, 0x0E, 0x03, 0x02, 0x1A]
  | .sha224 => some [0x60, 0x86, 0x48, 0x01, 0x65, 0x03, 0x04, 0x02, 0x04]
  | .sha256 => some [0x60, 0x86, 0x48, 0x01, 0x65, 0x03, 0x04, 0x02, 0x01]
  | .sha384 => some [0x60, 0x86, 0x48, 0x01, 0x65, 0x03, 0x04, 0x02, 0x02]
  | .sha512 => some [0x60, 0x86, 0x48, 0x01, 0x65, 0x03, 0x04, 0x02, 0x03]
  | .ripemd160 => some [0x2B, 0x24, 0x03, 0x02, 0x01]

/-- What `rsa_rsassa_pkcs1_v15_encode` writes behind the padding: the hash, with its identifier if it has one. -/
def digestInfo (D : Digests) (mdAlg : MdType) (hash : List Octet) : Option (List Octet) :=
  if mdAlg = .none then some hash
  else if D.size mdAlg = 0 then none
  else
    match mdAlg.oid with
    | none => none
    | some oid =>
      if hash.length ≠ D.size mdAlg ∨ 0x80 ≤ 8 + hash.length + oid.length then none
      else
        some ([0x30, BitVec.ofNat 8 (8 + oid.length + hash.length), 0x30, BitVec.ofNat 8 (4 + oid.length), 0x06,
          BitVec.ofNat 8 oid.length] ++ oid ++ [0x05, 0x00, 0x04, BitVec.ofNat 8 hash.length] ++ hash)

/-- `rsa_rsassa_pkcs1_v15_encode` -/
def rsaRsassaPkcs1V15Encode (D : Digests) (mdAlg : MdType) (hash : List Octet) (dstLen : Nat) :
    Except RsaError (List Octet) :=
  match digestInfo D mdAlg hash with
  | none => .error .badInputData
  | some info =>
    if dstLen < info.length + 11 then .error .badInputData
    else .ok (0 :: 1 :: (List.replicate (dstLen - info.length - 3) 0xFF ++ 0 :: info))

section Operations
variable (monMul : Nat → Nat → Nat → Nat → Nat → Nat) (regs : Regs) (D : Digests)

/-- `rsa_rsassa_pss_sign` -/
def rsaRsassaPssSign (ctx : RsaContext) (scheme : Scheme) (g : Rng) (mdAlg : MdType) (hash : List Octet)
    (saltLen : Int) : Except RsaError (List Octet) × RsaContext × Rng :=
  if scheme.padding ≠ .v21 then (.error .badInputData, ctx, g)
  else if ¬D.HashLen mdAlg hash then (.error .badInputData, ctx, g)
  else
    match D.md scheme.hashId with
    | none => (.error .badInputData, ctx, g)
    | some m =>
      match pssSaltLen m.size ctx.len saltLen with
      | none => (.error .badInputData, ctx, g)
      | some slen =>
        let (ok, salt, g) := fillBytes slen g
        if ok = false then (.error .rngFailed, ctx, g)
        else rsaPrivate monMul regs ctx g (pssEncode m hash salt ctx.len (bitlen ctx.n - 1))

/-- `mbedtls_rsa_rsassa_pss_verify_ext` -/
def rsaRsassaPssVerifyExt (ctx : RsaContext) (mdAlg : MdType) (hash : List Octet) (mgf1HashId : MdType)
    (expectedSaltLen : Int) (sig : List Octet) : Except RsaError Unit :=
  if ctx.len < 16 ∨ 1024 < ctx.len then .error .badInputData
  else
    match rsaPublic monMul regs ctx sig with
    | .error e => .error e
    | .ok buf =>
      if buf.getD (ctx.len - 1) 0 ≠ 0xBC then .error .invalidPadding
      else if ¬D.HashLen mdAlg hash then .error .badInputData
      else
        match D.md mgf1HashId with
        | none => .error .badInputData
        | some m => pssVerify m hash buf expectedSaltLen (bitlen ctx.n - 1)

/-- `mbedtls_rsa_rsassa_pkcs1_v15_sign` -/
def rsaRsassaPkcs1V15Sign (ctx : RsaContext) (scheme : Scheme) (g : Rng) (mdAlg : MdType) (hash : List Octet) :
    Except RsaError (List Octet) × RsaContext × Rng :=
  if scheme.padding ≠ .v15 then (.error .badInputData, ctx, g)
  else
    match rsaRsassaPkcs1V15Encode D mdAlg hash ctx.len with
    | .error e => (.error e, ctx, g)
    | .ok sig =>
      match rsaPrivate monMul regs ctx g sig with
      | (.error e, ctx, g) => (.error e, ctx, g)
      | (.ok sigTry, ctx, g) =>
        match rsaPublic monMul regs ctx sigTry with
        | .error e => (.error e, ctx, g)
        | .ok verif => if verif ≠ sig then (.error .privateMismatch, ctx, g) else (.ok sigTry, ctx, g)

/-- `mbedtls_rsa_rsassa_pkcs1_v15_verify` -/
def rsaRsassaPkcs1V15Verify (ctx : RsaContext) (mdAlg : MdType) (hash sig : List Octet) : Except RsaError Unit :=
  match rsaRsassaPkcs1V15Encode D mdAlg hash ctx.len with
  | .error e => .error e
  | .ok encodedExpected =>
    match rsaPublic monMul regs ctx sig with
    | .error e => .error e
    | .ok encoded => if encoded ≠ encodedExpected then .error .verifyFailed else .ok ()

end Operations

section Signatures
variable {monMul : Nat → Nat → Nat → Nat → Nat → Nat} {regs : Regs} {D : Digests} {ctx : RsaContext} {p q d : Nat}
  {scheme : Scheme} {mdAlg : MdType} {hash sig : List Octet} {expectedSaltLen : Int}

theorem Digests.size_eq {t : MdType} {m : Md} (h : D.md t = some m) : D.size t = m.size := by
  rw [Digests.size, h]

/-! ## PSS -/

/-- A signature with a salt of some length is the private operation on the encoding with such a salt. -/
theorem rsaRsassaPssSign_ok {g : Rng} {slen : Nat}
    (h : (rsaRsassaPssSign monMul regs D ctx scheme g mdAlg hash slen).1 = .ok sig) :
    D.HashLen mdAlg hash ∧ ∃ m, D.md scheme.hashId = some m ∧ ∃ salt g', salt.length = slen ∧
      (rsaPrivate monMul regs ctx g' (pssEncode m hash salt ctx.len (bitlen ctx.n - 1))).1 = .ok sig := by
  unfold rsaRsassaPssSign at h
  split at h
  · cases h
  split at h
  · cases h
  rename_i hhash
  split at h
  · cases h
  rename_i m hm
  split at h
  · cases h
  rename_i n hn
  have hslen : n = slen := by
    unfold pssSaltLen at hn
    rw [if_neg (by omega)] at hn
    split at hn
    · cases hn
    · rw [← Option.some.inj hn, Int.toNat_natCast]
  have hsalt := fillBytes_length n g
  generalize fillBytes n g = drawn at h hsalt
  obtain ⟨ok, salt, g'⟩ := drawn
  dsimp only at h hsalt
  split at h
  · cases h
  exact ⟨not_not.mp hhash, m, hm, salt, g', hsalt.trans hslen, h⟩

/-- Every salt that fits is drawn in some signature. -/
theorem rsaRsassaPssSign_drawn {m : Md} {salt : List Octet} (hpadding : scheme.padding = .v21)
    (hhash : D.HashLen mdAlg hash) (hm : D.md scheme.hashId = some m) (hfits : salt.length + m.size + 2 ≤ ctx.len) :
    rsaRsassaPssSign monMul regs D ctx scheme (Rng.deliver [LittleEndian.unpack salt.reverse] 0) mdAlg hash
        salt.length =
      rsaPrivate monMul regs ctx (Rng.deliver [LittleEndian.unpack salt.reverse] 1)
        (pssEncode m hash salt ctx.len (bitlen ctx.n - 1)) := by
  have hslen : pssSaltLen m.size ctx.len salt.length = some salt.length := by
    unfold pssSaltLen
    rw [if_neg (by omega), if_neg (by omega), Int.toNat_natCast]
  unfold rsaRsassaPssSign
  rw [if_neg (not_not.mpr hpadding), if_neg (not_not.mpr hhash), hm]
  dsimp only
  rw [hslen]
  dsimp only
  rw [fillBytes_drawn]
  rfl

/-- The encoding ends with its mark. -/
theorem pssEncode_last {m : Md} {salt : List Octet} {olen msb : Nat} (hfits : salt.length + m.size + 2 ≤ olen) :
    (pssEncode m hash salt olen msb).getD (olen - 1) 0 = 0xBC ∧
      ∃ body, pssEncode m hash salt olen msb = body ++ [0xBC] := by
  have hlen := @pssEncode_length m hash salt olen msb hfits
  obtain ⟨body, hbody⟩ : ∃ body, pssEncode m hash salt olen msb = body ++ [0xBC] := ⟨_, (List.append_assoc _ _ _).symm⟩
  refine ⟨?_, body, hbody⟩
  rw [hbody, List.length_append, List.length_singleton] at hlen
  rw [hbody, show olen - 1 = body.length by omega]
  simp [List.getD_eq_getElem?_getD]

theorem rsaRsassaPkcs1V15Encode_length {dstLen : Nat} {em : List Octet}
    (h : rsaRsassaPkcs1V15Encode D mdAlg hash dstLen = .ok em) : em.length = dstLen := by
  unfold rsaRsassaPkcs1V15Encode at h
  split at h
  · cases h
  split at h
  · cases h
  rename_i info _ hroom
  rw [← Except.ok.inj h]
  simp only [List.length_cons, List.length_append, List.length_replicate]
  omega

end Signatures

end WmIot.Rsa
