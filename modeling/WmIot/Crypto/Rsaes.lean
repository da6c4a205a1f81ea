import WmIot.Crypto.Pkcs1

/-!
# Encryption with RSA

A private operation gives the one string of the key's length that the public operation turns into its input. So
decryption accepts what encryption can give, with any bytes of the random source, and nothing else, and hands out
the message that was encrypted.
-/

namespace WmIot.Rsa
open CrtPower
set_option autoImplicit false

/-- The field `padding` of `mbedtls_rsa_context`. -/
inductive Padding where
  | v15 | v21
deriving DecidableEq, Repr

/-- The fields `padding` and `hash_id` of `mbedtls_rsa_context`. -/
structure Scheme where
  padding : Padding
  hashId : MdType
deriving DecidableEq, Repr

section Operations
variable (monMul : Nat → Nat → Nat → Nat → Nat → Nat) (regs : Regs) (D : Digests)

/-- `mbedtls_rsa_rsaes_oaep_encrypt` -/
def rsaesOaepEncrypt (ctx : RsaContext) (hashId : MdType) (g : Rng) (label input : List Octet) :
    Except RsaError (List Octet) × Rng :=
  match D.md hashId with
  | none => (.error .badInputData, g)
  | some m =>
    if ctx.len < input.length + 2 * m.size + 2 then (.error .badInputData, g)
    else
      let (ok, seed, g) := fillBytes m.size g
      if ok = false then (.error .rngFailed, g)
      else (rsaPublic monMul regs ctx (oaepEncode m label seed input ctx.len), g)

/-- `mbedtls_rsa_rsaes_pkcs1_v15_encrypt` -/
def rsaesPkcs1V15Encrypt (ctx : RsaContext) (g : Rng) (input : List Octet) : Except RsaError (List Octet) × Rng :=
  if ctx.len < input.length + 11 then (.error .badInputData, g)
  else
    match padOctets (ctx.len - 3 - input.length) g with
    | (.error e, g) => (.error e, g)
    | (.ok ps, g) => (rsaPublic monMul regs ctx (pkcs1Encode ps input), g)

/-- `mbedtls_rsa_pkcs1_encrypt` -/
def rsaPkcs1Encrypt (ctx : RsaContext) (scheme : Scheme) (g : Rng) (input : List Octet) :
    Except RsaError (List Octet) × Rng :=
  match scheme.padding with
  | .v15 => rsaesPkcs1V15Encrypt monMul regs ctx g input
  | .v21 => rsaesOaepEncrypt monMul regs D ctx scheme.hashId g [] input

/-- `mbedtls_rsa_rsaes_oaep_decrypt` -/
def rsaesOaepDecrypt (ctx : RsaContext) (scheme : Scheme) (g : Rng) (label input : List Octet) (outputMaxLen : Nat) :
    Except RsaError (List Octet) × RsaContext × Rng :=
  if scheme.padding ≠ .v21 then (.error .badInputData, ctx, g)
  else if ctx.len < 16 ∨ 1024 < ctx.len then (.error .badInputData, ctx, g)
  else
    match D.md scheme.hashId with
    | none => (.error .badInputData, ctx, g)
    | some m =>
      if ctx.len < 2 * m.size + 2 then (.error .badInputData, ctx, g)
      else
        match rsaPrivate monMul regs ctx g input with
        | (.error e, ctx, g) => (.error e, ctx, g)
        | (.ok buf, ctx, g) => (oaepDecode m label buf outputMaxLen, ctx, g)

/-- `mbedtls_rsa_rsaes_pkcs1_v15_decrypt` -/
def rsaesPkcs1V15Decrypt (ctx : RsaContext) (scheme : Scheme) (g : Rng) (input : List Octet) (outputMaxLen : Nat) :
    Except RsaError (List Octet) × RsaContext × Rng :=
  if scheme.padding ≠ .v15 then (.error .badInputData, ctx, g)
  else if ctx.len < 16 ∨ 1024 < ctx.len then (.error .badInputData, ctx, g)
  else
    match rsaPrivate monMul regs ctx g input with
    | (.error e, ctx, g) => (.error e, ctx, g)
    | (.ok buf, ctx, g) => (unpaddingResult (unpadding buf outputMaxLen), ctx, g)

/-- `mbedtls_rsa_pkcs1_decrypt` -/
def rsaPkcs1Decrypt (ctx : RsaContext) (scheme : Scheme) (g : Rng) (input : List Octet) (outputMaxLen : Nat) :
    Except RsaError (List Octet) × RsaContext × Rng :=
  match scheme.padding with
  | .v15 => rsaesPkcs1V15Decrypt monMul regs ctx scheme g input outputMaxLen
  | .v21 => rsaesOaepDecrypt monMul regs D ctx scheme g [] input outputMaxLen

/-- A message to decrypt, and the room for it. -/
structure Request where
  scheme : Scheme
  input : List Octet
  outputMaxLen : Nat

/-- One message after the other with one context. -/
def decryptAll (ctx : RsaContext) (g : Rng) : List Request → List (Except RsaError (List Octet))
  | [] => []
  | r :: rs =>
    let (a, ctx, g) := rsaPkcs1Decrypt monMul regs D ctx r.scheme g r.input r.outputMaxLen
    a :: decryptAll ctx g rs

end Operations

/-! ## The private operation as an inverse -/

/-- The random source works, and the context has a blinding pair or finds one. -/
structure Ready (monMul : Nat → Nat → Nat → Nat → Nat → Nat) (regs : Regs) (ctx : RsaContext) (g : Rng) : Prop where
  draws : ∀ k, (g.draw k).1 = true
  blinding : Blinded ctx ∨ ctx.vf = none ∧ (rsaPrepareBlinding monMul regs ctx g).1 = .ok ()

section Inverse
variable {monMul : Nat → Nat → Nat → Nat → Nat → Nat} {regs : Regs} {ctx : RsaContext} {p q d : Nat} {g : Rng}

theorem readBinary_cons (b : Octet) (bytes : List Octet) :
    readBinary (b :: bytes) = b.toNat * 256 ^ bytes.length + readBinary bytes := by
  unfold readBinary
  rw [List.reverse_cons, LittleEndian.unpack_append, List.length_reverse, LittleEndian.unpack, LittleEndian.unpack]
  push_cast
  ring

theorem readBinary_lt (bytes : List Octet) : readBinary bytes < 256 ^ bytes.length := by
  have hlt := unpack_lt bytes.reverse
  rw [List.length_reverse] at hlt
  unfold readBinary
  exact_mod_cast hlt

theorem readBinary_inj {a b : List Octet} (hlen : a.length = b.length) (h : readBinary a = readBinary b) : a = b := by
  have ha := writeBinary_readBinary a
  rw [h, hlen, writeBinary_readBinary] at ha
  exact (Except.ok.inj ha).symm

/-- A modulus has its highest bit. -/
theorem pow_le_modulus {n : Int} (hn : 0 < n) : (2 : Int) ^ (bitlen n - 1) ≤ n := by
  have hpos : 0 < n.natAbs.size := Nat.size_pos.mpr (by omega)
  have hle : 2 ^ (bitlen n - 1) ≤ n.natAbs := by
    by_contra hlt
    have hsize := Nat.size_le.mpr (Nat.lt_of_not_le hlt)
    unfold bitlen at hsize
    omega
  calc
    (2 : Int) ^ (bitlen n - 1) = ((2 ^ (bitlen n - 1) : Nat) : Int) := by push_cast; rfl
    _ ≤ (n.natAbs : Int) := by exact_mod_cast hle
    _ = n := by omega

theorem Key.len_pos (key : Key ctx p q d) : 0 < ctx.len := by
  have hn := key.n_pos
  have hpos : 0 < ctx.n.natAbs.size := Nat.size_pos.mpr (by omega)
  have hlen := key.len
  unfold mpiSize bitlen at hlen
  omega

/-- A string of the key's length that begins with a zero is below the modulus. -/
theorem Key.lt_of_zero (key : Key ctx p q d) {bytes : List Octet} (hlen : bytes.length + 1 = ctx.len) :
    readBinary (0 :: bytes) < ctx.n := by
  have hle : (256 : Int) ^ bytes.length ≤ 2 ^ (bitlen ctx.n - 1) := by
    rw [show (256 : Int) = 2 ^ 8 by norm_num, ← pow_mul]
    have hsize := key.len
    unfold mpiSize at hsize
    exact pow_le_pow_right₀ (by norm_num) (by omega)
  rw [readBinary_cons]
  calc
    ((0 : Octet).toNat : Int) * 256 ^ bytes.length + readBinary bytes = readBinary bytes := by simp
    _ < 256 ^ bytes.length := readBinary_lt bytes
    _ ≤ 2 ^ (bitlen ctx.n - 1) := hle
    _ ≤ ctx.n := pow_le_modulus key.n_pos

/-- The public operation is the power, on numbers below the modulus. -/
theorem rsaPublic_eq_ok (hunit : MontgomeryUnit monMul) (key : Key ctx p q d) (hshort : bitlen ctx.n ≤ 2048)
    {input out : List Octet} :
    rsaPublic monMul regs ctx input = .ok out ↔
      readBinary input < ctx.n ∧ out.length = ctx.len ∧ readBinary out = readBinary input ^ ctx.e.toNat % ctx.n := by
  have hn := key.n_pos
  have hcheck := rsaCheckContext_public (key.check hshort)
  have hpower : exptMod monMul regs (readBinary input) ctx.e ctx.n =
      .ok (readBinary input ^ ctx.e.toNat % ctx.n) := by
    rw [exptMod, if_pos hshort, halExptMod_eq hunit regs key.pos.1.le hn key.n_odd hshort]
  obtain ⟨out', hout, hread, hlen⟩ := key.writeBinary_mod (readBinary input ^ ctx.e.toNat)
  unfold rsaPublic
  rw [if_neg (by simp [hcheck])]
  dsimp only
  by_cases hlt : ctx.n ≤ readBinary input
  · rw [if_pos hlt]
    exact ⟨fun habs => absurd habs (by simp [liftPublic]), fun habs => absurd habs.1 (by omega)⟩
  · rw [if_neg hlt, hpower]
    change liftPublic (writeBinary _ _) = .ok out ↔ _
    rw [hout]
    constructor
    · intro h
      obtain rfl : out' = out := Except.ok.inj h
      exact ⟨Int.not_le.mp hlt, hlen, hread⟩
    · rintro ⟨-, hlen', hread'⟩
      rw [readBinary_inj (hlen'.trans hlen.symm) (hread'.trans hread.symm)]
      rfl

/-- No two strings of the key's length have one power. -/
theorem rsaPublic_inj (hunit : MontgomeryUnit monMul) (key : Key ctx p q d) (hshort : bitlen ctx.n ≤ 2048)
    {a b c : List Octet} (hlen : a.length = b.length) (ha : rsaPublic monMul regs ctx a = .ok c)
    (hb : rsaPublic monMul regs ctx b = .ok c) : a = b := by
  have hcancel : ∀ {x : List Octet}, rsaPublic monMul regs ctx x = .ok c → readBinary x = readBinary c ^ d % ctx.n := by
    intro x hx
    obtain ⟨hlt, -, hread⟩ := (rsaPublic_eq_ok hunit key hshort).mp hx
    have hback : readBinary c ^ d ≡ readBinary x [ZMOD ctx.n] := by
      calc
        readBinary c ^ d ≡ (readBinary x ^ ctx.e.toNat) ^ d [ZMOD ctx.n] := by
          rw [hread]
          exact (Int.mod_modEq _ _).pow d
        _ = readBinary x ^ (ctx.e.toNat * d) := (pow_mul _ _ _).symm
        _ ≡ readBinary x [ZMOD ctx.n] := key.cancel _
    rw [hback, Int.emod_eq_of_lt (readBinary_nonneg x) hlt]
  exact readBinary_inj hlen ((hcancel ha).trans (hcancel hb).symm)

theorem rsaPrivate_refused {input : List Octet} (hle : ctx.n ≤ readBinary input) :
    ∃ e, rsaPrivate monMul regs ctx g input = (.error e, ctx, g) := by
  unfold rsaPrivate
  split
  · exact ⟨_, rfl⟩
  · dsimp only
    rw [if_pos hle]
    exact ⟨_, rfl⟩

/-- What a private operation leaves is ready for the next one. -/
theorem Ready.next (h : Ready monMul regs ctx g) (hunit : MontgomeryUnit monMul) (key : Key ctx p q d)
    (hshort : bitlen ctx.n ≤ 2048) (input : List Octet) :
    Ready monMul regs (rsaPrivate monMul regs ctx g input).2.1 (rsaPrivate monMul regs ctx g input).2.2 ∧
      ∃ vi vf, (rsaPrivate monMul regs ctx g input).2.1 = ctx.blind vi vf := by
  by_cases hlt : readBinary input < ctx.n
  · obtain ⟨out, vi, f, g', hrun, hblind, hdraw⟩ := rsaPrivate_step hunit key hshort h.draws h.blinding hlt
    rw [hrun]
    exact ⟨⟨fun k => by rw [hdraw]; exact h.draws k, Or.inl hblind⟩, vi, some f, rfl⟩
  · obtain ⟨e, hrun⟩ := rsaPrivate_refused (Int.not_lt.mp hlt)
    rw [hrun]
    exact ⟨h, ctx.vi, ctx.vf, rfl⟩

/-- The private operation gives the one string that the public operation turns into its input. -/
theorem rsaPrivate_iff (h : Ready monMul regs ctx g) (hunit : MontgomeryUnit monMul) (key : Key ctx p q d)
    (hshort : bitlen ctx.n ≤ 2048) {input out : List Octet} (hlen : input.length = ctx.len) :
    (rsaPrivate monMul regs ctx g input).1 = .ok out ↔
      out.length = ctx.len ∧ rsaPublic monMul regs ctx out = .ok input := by
  have hsize : ∀ {x : List Octet}, (rsaPrivate monMul regs ctx g input).1 = .ok x → x.length = ctx.len := by
    intro x hx
    obtain ⟨-, -, y, -, hwrite⟩ := rsaPrivate_ok hx
    obtain ⟨x', hx', -, hlen'⟩ := key.writeBinary_mod y
    obtain rfl : x' = x := Except.ok.inj (hx'.symm.trans hwrite)
    exact hlen'
  constructor
  · intro hok
    exact ⟨hsize hok, (rsaPrivate_exact hunit key hlen hok).2⟩
  · rintro ⟨hout, hpublic⟩
    have hread := ((rsaPublic_eq_ok hunit key hshort).mp hpublic).2.2
    have hlt : readBinary input < ctx.n := by
      rw [hread]
      exact Int.emod_lt_of_pos _ key.n_pos
    obtain ⟨out', vi, f, g', hrun, -, -⟩ := rsaPrivate_step hunit key hshort h.draws h.blinding hlt
    have hok : (rsaPrivate monMul regs ctx g input).1 = .ok out' := by rw [hrun]
    have hpublic' := (rsaPrivate_exact hunit key hlen hok).2
    rw [hok, rsaPublic_inj hunit key hshort ((hsize hok).trans hout.symm) hpublic' hpublic]

end Inverse

/-! ## What encryption can give -/

section Formats
variable {monMul : Nat → Nat → Nat → Nat → Nat → Nat} {regs : Regs} {D : Digests} {ctx : RsaContext} {g : Rng}
  {label input msg c : List Octet}

theorem fillBytes_length (len : Nat) (g : Rng) : (fillBytes len g).2.1.length = len := by
  simp [fillBytes]

/-- Some source draws the string. -/
theorem fillBytes_drawn (bytes : List Octet) :
    fillBytes bytes.length (Rng.deliver [LittleEndian.unpack bytes.reverse] 0) =
      (true, bytes, Rng.deliver [LittleEndian.unpack bytes.reverse] 1) := by
  have hpack := pack_unpack bytes.reverse
  rw [List.length_reverse] at hpack
  rw [fillBytes_deliver, List.getD_cons_zero, hpack, List.reverse_reverse]

theorem rsaesOaepEncrypt_iff {hashId : MdType} :
    (∃ g, (rsaesOaepEncrypt monMul regs D ctx hashId g label msg).1 = .ok c) ↔
      ∃ m, D.md hashId = some m ∧ msg.length + 2 * m.size + 2 ≤ ctx.len ∧
        ∃ seed, seed.length = m.size ∧ rsaPublic monMul regs ctx (oaepEncode m label seed msg ctx.len) = .ok c := by
  unfold rsaesOaepEncrypt
  constructor
  · rintro ⟨g, h⟩
    split at h
    · cases h
    rename_i m hm
    split at h
    · cases h
    rename_i hroom
    have hseed := fillBytes_length m.size g
    generalize fillBytes m.size g = drawn at h hseed
    obtain ⟨ok, seed, g'⟩ := drawn
    dsimp only at h hseed
    split at h
    · cases h
    exact ⟨m, hm, Nat.not_lt.mp hroom, seed, hseed, h⟩
  · rintro ⟨m, hm, hroom, seed, hseed, hpublic⟩
    have hdraw := fillBytes_drawn seed
    rw [hseed] at hdraw
    refine ⟨Rng.deliver [LittleEndian.unpack seed.reverse] 0, ?_⟩
    rw [hm]
    dsimp only
    rw [if_neg (Nat.not_lt.mpr hroom), hdraw]
    exact hpublic

theorem rsaesPkcs1V15Encrypt_iff :
    (∃ g, (rsaesPkcs1V15Encrypt monMul regs ctx g msg).1 = .ok c) ↔
      ∃ ps, 8 ≤ ps.length ∧ ps.length + msg.length + 3 = ctx.len ∧ (∀ b ∈ ps, b ≠ 0) ∧
        rsaPublic monMul regs ctx (pkcs1Encode ps msg) = .ok c := by
  unfold rsaesPkcs1V15Encrypt
  constructor
  · rintro ⟨g, h⟩
    split at h
    · cases h
    rename_i hroom
    split at h
    · cases h
    rename_i ps g' hps
    obtain ⟨hlen, hall⟩ := padOctets_ok hps
    exact ⟨ps, by omega, by omega, hall, h⟩
  · rintro ⟨ps, hlong, hlen, hall, hpublic⟩
    obtain ⟨g', hdraw⟩ := padOctets_deliver [] hall
    refine ⟨Rng.deliver ([] ++ ps.map BitVec.toNat) ([] : List Nat).length, ?_⟩
    rw [if_neg (by omega), show ctx.len - 3 - msg.length = ps.length by omega, hdraw]
    exact hpublic

/-! ## Decryption -/

variable {p q d : Nat} {scheme : Scheme} {outputMaxLen : Nat}

theorem Key.len_le (key : Key ctx p q d) (hshort : bitlen ctx.n ≤ 2048) : ctx.len ≤ 256 := by
  have hlen := key.len
  unfold mpiSize at hlen
  omega

theorem rsaesOaepDecrypt_iff (h : Ready monMul regs ctx g) (hunit : MontgomeryUnit monMul) (key : Key ctx p q d)
    (hshort : bitlen ctx.n ≤ 2048) (hsize : 16 ≤ ctx.len) (hpadding : scheme.padding = .v21)
    (hlen : input.length = ctx.len) :
    (rsaesOaepDecrypt monMul regs D ctx scheme g label input outputMaxLen).1 = .ok msg ↔
      msg.length ≤ outputMaxLen ∧
        ∃ g, (rsaesOaepEncrypt monMul regs D ctx scheme.hashId g label msg).1 = .ok input := by
  have hlarge := key.len_le hshort
  rw [rsaesOaepEncrypt_iff]
  unfold rsaesOaepDecrypt
  rw [if_neg (not_not.mpr hpadding), if_neg (by omega)]
  cases hm : D.md scheme.hashId with
  | none => simp
  | some m =>
    dsimp only
    by_cases hroom : ctx.len < 2 * m.size + 2
    · rw [if_pos hroom]
      refine ⟨fun habs => absurd habs (by simp), ?_⟩
      rintro ⟨-, m', hm', hfits, -⟩
      obtain rfl := Option.some.inj hm'
      omega
    · rw [if_neg hroom]
      have hopen := fun out => @rsaPrivate_iff monMul regs ctx p q d g h hunit key hshort input out hlen
      generalize rsaPrivate monMul regs ctx g input = r at hopen
      obtain ⟨r, ctx', g'⟩ := r
      dsimp only at hopen
      cases r with
      | error e =>
        refine ⟨fun habs => absurd habs (by simp), ?_⟩
        rintro ⟨-, m', hm', hfits, seed, hseed, hpublic⟩
        obtain rfl := Option.some.inj hm'
        exact absurd ((hopen _).mpr ⟨oaepEncode_length hseed hfits, hpublic⟩) (by simp)
      | ok buf =>
        obtain ⟨hbuf, hpublic⟩ := (hopen buf).mp rfl
        change oaepDecode m label buf outputMaxLen = .ok msg ↔ _
        rw [oaepDecode_eq_ok (by omega), hbuf]
        constructor
        · rintro ⟨hout, hfits, seed, hseed, rfl⟩
          exact ⟨hout, m, rfl, hfits, seed, hseed, hpublic⟩
        · rintro ⟨hout, m', hm', hfits, seed, hseed, henc⟩
          obtain rfl := Option.some.inj hm'
          have hsame := (hopen _).mpr ⟨oaepEncode_length hseed hfits, henc⟩
          exact ⟨hout, hfits, seed, hseed, Except.ok.inj hsame⟩

theorem pkcs1Encode_length (ps input : List Octet) : (pkcs1Encode ps input).length = ps.length + input.length + 3 := by
  simp only [pkcs1Encode, List.length_cons, List.length_append]
  omega

theorem rsaesPkcs1V15Decrypt_iff (h : Ready monMul regs ctx g) (hunit : MontgomeryUnit monMul) (key : Key ctx p q d)
    (hshort : bitlen ctx.n ≤ 2048) (hsize : 16 ≤ ctx.len) (hpadding : scheme.padding = .v15)
    (hlen : input.length = ctx.len) :
    (rsaesPkcs1V15Decrypt monMul regs ctx scheme g input outputMaxLen).1 = .ok msg ↔
      msg.length ≤ outputMaxLen ∧ ∃ g, (rsaesPkcs1V15Encrypt monMul regs ctx g msg).1 = .ok input := by
  have hlarge := key.len_le hshort
  rw [rsaesPkcs1V15Encrypt_iff]
  unfold rsaesPkcs1V15Decrypt
  rw [if_neg (not_not.mpr hpadding), if_neg (by omega)]
  have hopen := fun out => @rsaPrivate_iff monMul regs ctx p q d g h hunit key hshort input out hlen
  generalize rsaPrivate monMul regs ctx g input = r at hopen
  obtain ⟨r, ctx', g'⟩ := r
  dsimp only at hopen
  cases r with
  | error e =>
    refine ⟨fun habs => absurd habs (by simp), ?_⟩
    rintro ⟨-, ps, -, hps, -, hpublic⟩
    exact absurd ((hopen _).mpr ⟨(pkcs1Encode_length ps msg).trans hps, hpublic⟩) (by simp)
  | ok buf =>
    obtain ⟨hbuf, hpublic⟩ := (hopen buf).mp rfl
    change unpaddingResult (unpadding buf outputMaxLen) = .ok msg ↔ _
    rw [unpadding_eq_ok (by omega) (by omega)]
    constructor
    · rintro ⟨hout, ps, hpad, hall, rfl⟩
      rw [pkcs1Encode_length] at hbuf
      exact ⟨hout, ps, hpad, hbuf, hall, hpublic⟩
    · rintro ⟨hout, ps, hpad, hps, hall, henc⟩
      have hsame := (hopen _).mpr ⟨(pkcs1Encode_length ps msg).trans hps, henc⟩
      exact ⟨hout, ps, hpad, hall, Except.ok.inj hsame⟩

theorem rsaPkcs1Decrypt_iff (h : Ready monMul regs ctx g) (hunit : MontgomeryUnit monMul) (key : Key ctx p q d)
    (hshort : bitlen ctx.n ≤ 2048) (hsize : 16 ≤ ctx.len) (hlen : input.length = ctx.len) :
    (rsaPkcs1Decrypt monMul regs D ctx scheme g input outputMaxLen).1 = .ok msg ↔
      msg.length ≤ outputMaxLen ∧ ∃ g, (rsaPkcs1Encrypt monMul regs D ctx scheme g msg).1 = .ok input := by
  unfold rsaPkcs1Decrypt rsaPkcs1Encrypt
  cases hpadding : scheme.padding with
  | v15 => exact rsaesPkcs1V15Decrypt_iff h hunit key hshort hsize hpadding hlen
  | v21 => exact rsaesOaepDecrypt_iff h hunit key hshort hsize hpadding hlen

/-- A decryption leaves what the private operation leaves, if it comes to it. -/
theorem rsaPkcs1Decrypt_leaves :
    (rsaPkcs1Decrypt monMul regs D ctx scheme g input outputMaxLen).2 = (ctx, g) ∨
      (rsaPkcs1Decrypt monMul regs D ctx scheme g input outputMaxLen).2 = (rsaPrivate monMul regs ctx g input).2 := by
  unfold rsaPkcs1Decrypt rsaesPkcs1V15Decrypt rsaesOaepDecrypt
  generalize rsaPrivate monMul regs ctx g input = r
  obtain ⟨r, ctx', g'⟩ := r
  cases scheme.padding with
  | v15 =>
    dsimp only
    split
    · exact .inl rfl
    split
    · exact .inl rfl
    cases r <;> exact .inr rfl
  | v21 =>
    dsimp only
    split
    · exact .inl rfl
    split
    · exact .inl rfl
    split
    · exact .inl rfl
    split
    · exact .inl rfl
    cases r <;> exact .inr rfl

theorem Ready.decrypted (h : Ready monMul regs ctx g) (hunit : MontgomeryUnit monMul) (key : Key ctx p q d)
    (hshort : bitlen ctx.n ≤ 2048) :
    Ready monMul regs (rsaPkcs1Decrypt monMul regs D ctx scheme g input outputMaxLen).2.1
        (rsaPkcs1Decrypt monMul regs D ctx scheme g input outputMaxLen).2.2 ∧
      ∃ vi vf, (rsaPkcs1Decrypt monMul regs D ctx scheme g input outputMaxLen).2.1 = ctx.blind vi vf := by
  rcases @rsaPkcs1Decrypt_leaves monMul regs D ctx g input scheme outputMaxLen with hsame | hrun
  · rw [hsame]
    exact ⟨h, ctx.vi, ctx.vf, rfl⟩
  · rw [hrun]
    exact h.next hunit key hshort input

/-- A string of the key's length that begins with a zero has a power. -/
theorem rsaPublic_defined (hunit : MontgomeryUnit monMul) (key : Key ctx p q d) (hshort : bitlen ctx.n ≤ 2048)
    {bytes : List Octet} (hlen : bytes.length + 1 = ctx.len) :
    ∃ c, rsaPublic monMul regs ctx (0 :: bytes) = .ok c ∧ c.length = ctx.len := by
  obtain ⟨c, -, hread, hclen⟩ := key.writeBinary_mod (readBinary (0 :: bytes) ^ ctx.e.toNat)
  exact ⟨c, (rsaPublic_eq_ok hunit key hshort).mpr ⟨key.lt_of_zero hlen, hclen, hread⟩, hclen⟩

/-- The source works, and of a hundred bytes in a row one is not zero. -/
structure Rng.Lively (g : Rng) : Prop where
  draws : ∀ k, (g.draw k).1 = true
  nonzero : ∀ k, ∃ i < 100, (g.draw (k + i)).2 % 256 ≠ 0

theorem nonzeroOctet_drawn {k : Nat} {g : Rng} (hdraw : ∀ k, (g.draw k).1 = true)
    (h : ∃ i < k, (g.draw (g.used + i)).2 % 256 ≠ 0) :
    ∃ b g', nonzeroOctet k g = (.ok b, g') ∧ g'.draw = g.draw := by
  induction k generalizing g with
  | zero =>
    obtain ⟨i, hi, -⟩ := h
    exact absurd hi (Nat.not_lt_zero i)
  | succ k ih =>
    have hbyte : (LittleEndian.pack 1 (g.draw g.used).2).reverse.headD 0 = BitVec.ofNat 8 (g.draw g.used).2 := by
      simp [LittleEndian.pack]
    rw [nonzeroOctet, fillBytes]
    dsimp only
    rw [if_neg (by simp [hdraw]), hbyte]
    by_cases hzero : BitVec.ofNat 8 (g.draw g.used).2 = 0
    · rw [if_neg (not_not.mpr hzero)]
      obtain ⟨i, hi, hne⟩ := h
      cases i with
      | zero =>
        have hmod := congrArg BitVec.toNat hzero
        rw [BitVec.toNat_ofNat] at hmod
        exact absurd hmod hne
      | succ i =>
        refine @ih { g with used := g.used + 1 } hdraw ⟨i, Nat.lt_of_succ_lt_succ hi, ?_⟩
        rwa [show g.used + 1 + i = g.used + (i + 1) by omega]
    · rw [if_pos hzero]
      exact ⟨_, _, rfl, rfl⟩

theorem padOctets_drawn {n : Nat} {g : Rng} (h : g.Lively) : ∃ ps g', padOctets n g = (.ok ps, g') := by
  induction n generalizing g with
  | zero => exact ⟨[], g, rfl⟩
  | succ n ih =>
    obtain ⟨b, g₁, hb, hdraw⟩ := nonzeroOctet_drawn h.draws (h.nonzero g.used)
    obtain ⟨ps, g₂, hps⟩ := @ih g₁ ⟨by rw [hdraw]; exact h.draws, by rw [hdraw]; exact h.nonzero⟩
    refine ⟨b :: ps, g₂, ?_⟩
    rw [padOctets, hb]
    dsimp only
    rw [hps]

/-- The message has room in the padding. -/
def Scheme.Fits (scheme : Scheme) (D : Digests) (ctx : RsaContext) (msg : List Octet) : Prop :=
  match scheme.padding with
  | .v15 => msg.length + 11 ≤ ctx.len
  | .v21 => ∃ m, D.md scheme.hashId = some m ∧ msg.length + 2 * m.size + 2 ≤ ctx.len

theorem rsaPkcs1Encrypt_defined (hunit : MontgomeryUnit monMul) (key : Key ctx p q d) (hshort : bitlen ctx.n ≤ 2048)
    (hg : g.Lively) (hfits : scheme.Fits D ctx msg) :
    ∃ c, (rsaPkcs1Encrypt monMul regs D ctx scheme g msg).1 = .ok c ∧ c.length = ctx.len := by
  unfold Scheme.Fits at hfits
  unfold rsaPkcs1Encrypt
  generalize scheme.padding = padding at hfits
  cases padding with
  | v15 =>
    dsimp only at hfits ⊢
    obtain ⟨ps, g', hps⟩ := @padOctets_drawn (ctx.len - 3 - msg.length) g hg
    have hpad := (padOctets_ok hps).1
    have hlen : (2 :: (ps ++ 0 :: msg)).length + 1 = ctx.len := by
      simp only [List.length_cons, List.length_append]
      omega
    obtain ⟨c, hc, hclen⟩ := @rsaPublic_defined monMul regs ctx p q d hunit key hshort _ hlen
    refine ⟨c, ?_, hclen⟩
    unfold rsaesPkcs1V15Encrypt
    rw [if_neg (by omega), hps]
    exact hc
  | v21 =>
    dsimp only at hfits ⊢
    obtain ⟨m, hm, hroom⟩ := hfits
    have hok : (fillBytes m.size g).1 = true := hg.draws g.used
    have hseed := fillBytes_length m.size g
    generalize hdraw : fillBytes m.size g = drawn at hok hseed
    obtain ⟨ok, seed, g'⟩ := drawn
    dsimp only at hok hseed
    obtain ⟨bytes, hbytes⟩ : ∃ bytes, oaepEncode m [] seed msg ctx.len = 0 :: bytes := ⟨_, rfl⟩
    have hlen := @oaepEncode_length m [] seed msg ctx.len hseed hroom
    rw [hbytes, List.length_cons] at hlen
    obtain ⟨c, hc, hclen⟩ := @rsaPublic_defined monMul regs ctx p q d hunit key hshort _ hlen
    refine ⟨c, ?_, hclen⟩
    unfold rsaesOaepEncrypt
    rw [hm]
    dsimp only
    rw [if_neg (by omega), hdraw]
    dsimp only
    rw [if_neg (by simp [hok]), hbytes]
    exact hc

end Formats

/-- A key of two Mersenne primes, with a blinding pair of ones. -/
def mersenneKey : RsaContext where
  len := 25
  n := 100433627766186892221372630609062766858404681029709092356097
  e := 19
  p := 618970019642690137449562111
  q := 162259276829213363391578010288127
  dp := 228041586184148998007733409
  dq := 59779733568657554933739266948257
  qp := 4722384497336874434561
  vi := 1
  vf := some 1

theorem mersenneKey_key :
    Key mersenneKey (mersenne 89) (mersenne 107) 8809967347911130896611634249719550092909796048069616886479 := by
  have hp : (mersenne 89).Prime := lucas_lehmer_sufficiency _ (by norm_num) (by norm_num)
  have hq : (mersenne 107).Prime := lucas_lehmer_sufficiency _ (by norm_num) (by norm_num)
  exact ⟨⟨hp, hq, by decide⟩, by decide, by decide, by decide +kernel, by decide, ⟨by decide, by decide⟩,
    ⟨by decide, by decide⟩, by decide⟩

theorem mersenneKey_ready (regs : Regs) : Ready wordEngine regs mersenneKey twos :=
  ⟨fun _ => rfl, .inl ⟨1, rfl, by simp [mersenneKey]⟩⟩

/-- No digest is built in. -/
def noDigests : Digests := ⟨fun _ => none, fun h => absurd h (by simp)⟩

theorem twos_lively : twos.Lively := ⟨fun _ => rfl, fun _ => ⟨0, by decide, show 2 % 256 ≠ 0 by decide⟩⟩

end WmIot.Rsa
