import WmIot.Crypto.ExptMod
import WmIot.Lib.CrtPower
import WmIot.Lib.LittleEndian

/-!
# RSA operations

The private operation blinds its input and its exponents, works modulo the two primes, and checks its
result with the public exponent before it hands it out. The blinding pair is kept in the context and
squared for each further operation.
-/

namespace WmIot.Rsa
open CrtPower
set_option autoImplicit false

/-! ## Numbers -/

/-- `mbedtls_mpi_exp_mod`, for moduli too long for the engine. -/
def mpiExpMod (a e n : Int) : Except MpiError Int :=
  if n ≤ 0 ∨ n % 2 = 0 then .error .badInputData
  else if e < 0 then .error .badInputData
  else if 8192 < bitlen e ∨ 8192 < bitlen n then .error .badInputData
  else .ok (a ^ e.toNat % n)

/-- `mbedtls_mpi_inv_mod` -/
def invMod (a n : Int) : Except MpiError Int :=
  if n ≤ 1 then .error .badInputData
  else if Int.gcd a n ≠ 1 then .error .notAcceptable
  else .ok (Int.gcdA a n % n)

/-- `mbedtls_mpi_size` -/
def mpiSize (a : Int) : Nat := (bitlen a + 7) / 8

/-- `mbedtls_mpi_read_binary` -/
def readBinary (bytes : List (BitVec 8)) : Int := LittleEndian.unpack bytes.reverse

/-- `mbedtls_mpi_write_binary` -/
def writeBinary (a : Int) (len : Nat) : Except MpiError (List (BitVec 8)) :=
  if a.natAbs < 256 ^ len then .ok (LittleEndian.pack len a.natAbs).reverse else .error .bufferTooSmall

/-- What `f_rng` does, call by call: whether it succeeds, and what it writes. -/
structure Rng where
  draw : Nat → Bool × Nat
  used : Nat

/-- `mbedtls_mpi_fill_random`: the number, NULL when it has no limbs. -/
def fillRandom (size : Nat) (g : Rng) : Bool × Option Int × Rng :=
  if size = 0 then (true, none, g)
  else ((g.draw g.used).1, some ((g.draw g.used).2 % 256 ^ size : Nat), { g with used := g.used + 1 })

/-! ## The context -/

/-- `mbedtls_rsa_context`; `vf` is NULL until it is first filled. -/
structure RsaContext where
  len : Nat
  n : Int
  e : Int
  p : Int
  q : Int
  dp : Int
  dq : Int
  qp : Int
  vi : Int
  vf : Option Int

inductive RsaError where
  | badInputData
  | publicFailed (e : MpiError)
  | privateFailed (e : MpiError)
  | rngFailed
  | verifyFailed
  | randomSource
  | invalidPadding
  | outputTooLarge
  | privateMismatch
deriving DecidableEq, Repr

/-- `rsa_check_context` -/
def rsaCheckContext (ctx : RsaContext) (isPriv : Bool) : Bool :=
  if ctx.len ≠ mpiSize ctx.n ∨ 1024 < ctx.len then false
  else if ctx.n ≤ 0 ∨ ctx.n % 2 = 0 then false
  else if isPriv ∧ (ctx.p ≤ 0 ∨ ctx.p % 2 = 0 ∨ ctx.q ≤ 0 ∨ ctx.q % 2 = 0) then false
  else if ctx.e ≤ 0 then false
  else if isPriv ∧ (ctx.dp ≤ 0 ∨ ctx.dq ≤ 0) then false
  else if isPriv ∧ ctx.qp ≤ 0 then false
  else true

section Operations
-- The engine, and what its buffers hold before a call.
variable (monMul : Nat → Nat → Nat → Nat → Nat → Nat) (regs : Regs)

/-- The exponentiation on the engine when the modulus is short enough for it. -/
def exptMod (a e n : Int) : Except MpiError Int :=
  if bitlen n ≤ 2048 then halExptMod monMul regs a e n else mpiExpMod a e n

def liftPublic {α : Type} : Except MpiError α → Except RsaError α
  | .ok a => .ok a
  | .error e => .error (.publicFailed e)

def liftPrivate {α : Type} : Except MpiError α → Except RsaError α
  | .ok a => .ok a
  | .error e => .error (.privateFailed e)

/-- `mbedtls_rsa_public` -/
def rsaPublic (ctx : RsaContext) (input : List (BitVec 8)) : Except RsaError (List (BitVec 8)) :=
  if rsaCheckContext ctx false = false then .error .badInputData
  else liftPublic do
    let t := readBinary input
    if ctx.n ≤ t then .error .badInputData
    else do
      let t ← exptMod monMul regs t ctx.e ctx.n
      writeBinary t ctx.len

/-- The loop of `rsa_prepare_blinding`, with the turns left. The numbers are those of `R` and of the context. -/
def blindingLoop (ctx : RsaContext) : Nat → Rng → Except RsaError Int × RsaContext × Rng
  | 0, g => (.error .rngFailed, ctx, g)
  | k + 1, g =>
    let (ok, vf, g) := fillRandom (ctx.len - 1) g
    let ctx := { ctx with vf := vf }
    if ok = false then (.error .randomSource, ctx, g)
    else
      let (ok, r, g) := fillRandom (ctx.len - 1) g
      if ok = false then (.error .randomSource, ctx, g)
      else
        match modMpi (vf.getD 0 * r.getD 0) ctx.n with
        | .error e => (.error (.privateFailed e), { ctx with vi := vf.getD 0 * r.getD 0 }, g)
        | .ok vi =>
          match invMod vi ctx.n with
          | .ok inv => (.ok (r.getD 0), { ctx with vi := inv }, g)
          | .error .notAcceptable => blindingLoop { ctx with vi := vi } k g
          | .error e => (.error (.privateFailed e), { ctx with vi := vi }, g)

/-- `rsa_prepare_blinding` -/
def rsaPrepareBlinding (ctx : RsaContext) (g : Rng) : Except RsaError Unit × RsaContext × Rng :=
  match ctx.vf with
  | some vf =>
    match modMpi (ctx.vi * ctx.vi) ctx.n, modMpi (vf * vf) ctx.n with
    | .ok vi, .ok vf => (.ok (), { ctx with vi := vi, vf := some vf }, g)
    | .error e, _ => (.error (.privateFailed e), ctx, g)
    | _, .error e => (.error (.privateFailed e), ctx, g)
  | none =>
    match blindingLoop ctx 11 g with
    | (.error e, ctx, g) => (.error e, ctx, g)
    | (.ok r, ctx, g) =>
      match modMpi (ctx.vi * r) ctx.n with
      | .error e => (.error (.privateFailed e), ctx, g)
      | .ok vi =>
        match exptMod monMul regs vi ctx.e ctx.n with
        | .error e => (.error (.privateFailed e), { ctx with vi := vi }, g)
        | .ok vi => (.ok (), { ctx with vi := vi }, g)

/-- The powers modulo the two primes. -/
def crtPowers (t dp dq p q : Int) : Except MpiError (Int × Int) :=
  if bitlen p ≤ 2048 ∧ bitlen q ≤ 2048 then do
    let tp ← halExptMod monMul regs t dp p
    let tq ← halExptMod monMul regs t dq q
    return (tp, tq)
  else do
    let tp ← mpiExpMod t dp p
    let tq ← mpiExpMod t dq q
    return (tp, tq)

/-- `mbedtls_rsa_private` from the exponentiation on, with the exponents blinded: the result, and what the
public exponent makes of it. -/
def rsaPrivateRoot (ctx : RsaContext) (t dp dq : Int) : Except MpiError (Int × Int) := do
  let (tp, tq) ← crtPowers monMul regs t dp dq ctx.p ctx.q
  let t ← modMpi ((tp - tq) * ctx.qp) ctx.p
  let t := tq + t * ctx.q
  let t ← modMpi (t * ctx.vf.getD 0) ctx.n
  let c ← exptMod monMul regs t ctx.e ctx.n
  return (t, c)

/-- `RSA_EXPONENT_BLINDING` -/
def exponentBlinding : Nat := 28

/-- `mbedtls_rsa_private` -/
def rsaPrivate (ctx : RsaContext) (g : Rng) (input : List (BitVec 8)) :
    Except RsaError (List (BitVec 8)) × RsaContext × Rng :=
  if rsaCheckContext ctx true = false then (.error .badInputData, ctx, g)
  else
    let i := readBinary input
    if ctx.n ≤ i then (.error (.privateFailed .badInputData), ctx, g)
    else
      match rsaPrepareBlinding monMul regs ctx g with
      | (.error e, ctx, g) => (.error e, ctx, g)
      | (.ok (), ctx, g) =>
        match modMpi (i * ctx.vi) ctx.n with
        | .error e => (.error (.privateFailed e), ctx, g)
        | .ok t =>
          let (ok₁, r₁, g) := fillRandom exponentBlinding g
          if ok₁ = false then (.error .randomSource, ctx, g)
          else
            let (ok₂, r₂, g) := fillRandom exponentBlinding g
            if ok₂ = false then (.error .randomSource, ctx, g)
            else
              let dp := (ctx.p - 1) * r₁.getD 0 + ctx.dp
              let dq := (ctx.q - 1) * r₂.getD 0 + ctx.dq
              match rsaPrivateRoot monMul regs ctx t dp dq with
              | .error e => (.error (.privateFailed e), ctx, g)
              | .ok (t, c) =>
                if c ≠ i then (.error .verifyFailed, ctx, g)
                else (liftPrivate (writeBinary t ctx.len), ctx, g)

/-- One private operation after the other. -/
def rsaPrivateAll (ctx : RsaContext) (g : Rng) :
    List (List (BitVec 8)) → List (Except RsaError (List (BitVec 8)))
  | [] => []
  | input :: inputs =>
    let (r, ctx, g) := rsaPrivate monMul regs ctx g input
    r :: rsaPrivateAll ctx g inputs

end Operations

/-! ## Bytes -/

theorem unpack_lt (bytes : List (BitVec 8)) : LittleEndian.unpack bytes < 256 ^ bytes.length := by
  induction bytes with
  | nil => exact Nat.one_pos
  | cons b bytes ih =>
    have hb := b.isLt
    rw [LittleEndian.unpack, List.length_cons, pow_succ]
    omega

theorem pack_unpack (bytes : List (BitVec 8)) :
    LittleEndian.pack bytes.length (LittleEndian.unpack bytes) = bytes := by
  induction bytes with
  | nil => rfl
  | cons b bytes ih =>
    have hb := b.isLt
    have hhigh : (b.toNat + 256 * LittleEndian.unpack bytes) / 256 = LittleEndian.unpack bytes := by omega
    have hlow : BitVec.ofNat 8 (b.toNat + 256 * LittleEndian.unpack bytes) = b := by
      apply BitVec.eq_of_toNat_eq
      rw [BitVec.toNat_ofNat]
      omega
    rw [List.length_cons, LittleEndian.unpack, LittleEndian.pack, hhigh, hlow, ih]

theorem readBinary_nonneg (bytes : List (BitVec 8)) : 0 ≤ readBinary bytes := Int.natCast_nonneg _

/-- A number that is read is written back as it was. -/
theorem writeBinary_readBinary (bytes : List (BitVec 8)) :
    writeBinary (readBinary bytes) bytes.length = .ok bytes := by
  have hlt := unpack_lt bytes.reverse
  have hpack := pack_unpack bytes.reverse
  rw [List.length_reverse] at hlt hpack
  rw [writeBinary, readBinary, Int.natAbs_natCast, if_pos hlt, hpack, List.reverse_reverse]

theorem writeBinary_eq {a : Int} {len : Nat} (ha : 0 ≤ a) (hlt : a < 256 ^ len) :
    ∃ out, writeBinary a len = .ok out ∧ readBinary out = a ∧ out.length = len := by
  have hnat : a.natAbs < 256 ^ len := by
    zify
    rwa [abs_of_nonneg ha]
  refine ⟨(LittleEndian.pack len a.natAbs).reverse, if_pos hnat, ?_, by simp⟩
  rw [readBinary, List.reverse_reverse, LittleEndian.unpack_pack, Nat.mod_eq_of_lt hnat, Int.natAbs_of_nonneg ha]

/-! ## Keys -/

/-- A key of the primes `p` and `q` with the private exponent `d`. -/
structure Key (ctx : RsaContext) (p q d : Nat) : Prop where
  primes : Pair p q
  modulus : ctx.p = p ∧ ctx.q = q ∧ ctx.n = p * q
  odd : p % 2 = 1 ∧ q % 2 = 1
  len : ctx.len = mpiSize ctx.n
  pos : 0 < ctx.e ∧ 0 < d ∧ 0 < ctx.dp ∧ 0 < ctx.dq ∧ 0 < ctx.qp
  left : ctx.e.toNat * d ≡ 1 [MOD p - 1] ∧ ctx.dp.toNat ≡ d [MOD p - 1]
  right : ctx.e.toNat * d ≡ 1 [MOD q - 1] ∧ ctx.dq.toNat ≡ d [MOD q - 1]
  coefficient : ctx.qp * q ≡ 1 [ZMOD p]

section Sound
variable {monMul : Nat → Nat → Nat → Nat → Nat → Nat} {regs : Regs} {ctx : RsaContext} {p q d : Nat}

theorem Key.n_pos (key : Key ctx p q d) : 0 < ctx.n := by
  have hp := key.primes.left.pos
  have hq := key.primes.right.pos
  rw [key.modulus.2.2]
  positivity

theorem Key.n_odd (key : Key ctx p q d) : ctx.n % 2 = 1 := by
  rw [key.modulus.2.2, Int.mul_emod]
  have hp : (p : Int) % 2 = 1 := by exact_mod_cast key.odd.1
  have hq : (q : Int) % 2 = 1 := by exact_mod_cast key.odd.2
  rw [hp, hq]
  rfl

/-- The private exponent undoes the public one. -/
theorem Key.cancel (key : Key ctx p q d) (x : Int) : x ^ (ctx.e.toNat * d) ≡ x [ZMOD ctx.n] := by
  have he := key.pos.1
  rw [key.modulus.2.2]
  exact key.primes.pow_cancel (Nat.mul_pos (by omega) key.pos.2.1) key.left.1 key.right.1 x

/-- The context with another blinding pair. -/
def RsaContext.blind (ctx : RsaContext) (vi : Int) (vf : Option Int) : RsaContext := { ctx with vi := vi, vf := vf }

theorem blindingLoop_keeps (ctx : RsaContext) (k : Nat) (g : Rng) :
    ∃ vi vf, (blindingLoop ctx k g).2.1 = ctx.blind vi vf := by
  induction k generalizing ctx g with
  | zero => exact ⟨ctx.vi, ctx.vf, rfl⟩
  | succ k ih =>
    rw [blindingLoop]
    dsimp only
    split
    · exact ⟨_, _, rfl⟩
    split
    · exact ⟨_, _, rfl⟩
    split
    · exact ⟨_, _, rfl⟩
    split
    · exact ⟨_, _, rfl⟩
    · obtain ⟨vi, vf, h⟩ := ih _ _
      exact ⟨vi, vf, h⟩
    · exact ⟨_, _, rfl⟩

theorem rsaPrepareBlinding_keeps (ctx : RsaContext) (g : Rng) :
    ∃ vi vf, (rsaPrepareBlinding monMul regs ctx g).2.1 = ctx.blind vi vf := by
  unfold rsaPrepareBlinding
  split
  · split <;> exact ⟨_, _, rfl⟩
  · obtain ⟨vi, vf, h⟩ := blindingLoop_keeps ctx 11 g
    generalize blindingLoop ctx 11 g = r at h
    obtain ⟨r, ctx', g'⟩ := r
    dsimp only at h
    subst h
    cases r with
    | error e => exact ⟨_, _, rfl⟩
    | ok r =>
      dsimp only
      split
      · exact ⟨_, _, rfl⟩
      · split <;> exact ⟨_, _, rfl⟩

theorem exptMod_ok (hunit : MontgomeryUnit monMul) {a e n c : Int} (he : 0 ≤ e) (hn : 0 < n) (hodd : n % 2 = 1)
    (h : exptMod monMul regs a e n = .ok c) : c = a ^ e.toNat % n := by
  unfold exptMod at h
  split at h
  · rw [halExptMod_eq hunit regs he hn hodd ‹_›] at h
    exact (Except.ok.inj h).symm
  · unfold mpiExpMod at h
    split at h
    · cases h
    split at h
    · cases h
    split at h
    · cases h
    exact (Except.ok.inj h).symm

theorem bind_eq_ok {ε α β : Type} {x : Except ε α} {f : α → Except ε β} {b : β} (h : x >>= f = .ok b) :
    ∃ a, x = .ok a ∧ f a = .ok b := by
  cases x with
  | error e => cases h
  | ok a => exact ⟨a, rfl, h⟩

theorem modMpi_ok {a n r : Int} (h : modMpi a n = .ok r) : 0 < n ∧ r = a % n := by
  unfold modMpi at h
  split at h
  · cases h
  split at h
  · cases h
  exact ⟨by omega, (Except.ok.inj h).symm⟩

/-- What is handed out went through the check with the public exponent. -/
theorem rsaPrivateRoot_ok {t dp dq r c : Int} (h : rsaPrivateRoot monMul regs ctx t dp dq = .ok (r, c)) :
    (∃ x, r = x % ctx.n) ∧ exptMod monMul regs r ctx.e ctx.n = .ok c := by
  unfold rsaPrivateRoot at h
  obtain ⟨⟨tp, tq⟩, -, h⟩ := bind_eq_ok h
  obtain ⟨t₁, -, h⟩ := bind_eq_ok h
  obtain ⟨t₂, hmod, h⟩ := bind_eq_ok h
  obtain ⟨c', hc, h⟩ := bind_eq_ok h
  obtain ⟨rfl, rfl⟩ := Prod.mk.inj (Except.ok.inj h)
  exact ⟨⟨_, (modMpi_ok hmod).2⟩, hc⟩

theorem rsaPrivate_ok {g : Rng} {input out : List (BitVec 8)}
    (h : (rsaPrivate monMul regs ctx g input).1 = .ok out) :
    rsaCheckContext ctx true = true ∧ readBinary input < ctx.n ∧
      ∃ x, exptMod monMul regs (x % ctx.n) ctx.e ctx.n = .ok (readBinary input) ∧
        writeBinary (x % ctx.n) ctx.len = .ok out := by
  unfold rsaPrivate at h
  split at h
  · cases h
  rename_i hcheck
  dsimp only at h
  split at h
  · cases h
  rename_i hlt
  refine ⟨by simpa using hcheck, Int.not_le.mp hlt, ?_⟩
  obtain ⟨vi, vf, hkeep⟩ := @rsaPrepareBlinding_keeps monMul regs ctx g
  generalize rsaPrepareBlinding monMul regs ctx g = prep at h hkeep
  obtain ⟨res, ctx', g'⟩ := prep
  dsimp only at hkeep
  subst hkeep
  cases res with
  | error e => cases h
  | ok _ =>
    dsimp only at h
    split at h
    · cases h
    split at h
    · cases h
    split at h
    · cases h
    split at h
    · cases h
    rename_i t c hroot
    obtain ⟨⟨x, rfl⟩, hc⟩ := rsaPrivateRoot_ok hroot
    split at h
    · cases h
    rename_i heq
    rw [not_not] at heq
    subst heq
    refine ⟨x, hc, ?_⟩
    change liftPrivate (writeBinary (x % ctx.n) ctx.len) = .ok out at h
    cases hw : writeBinary (x % ctx.n) ctx.len with
    | error e =>
      rw [hw] at h
      cases h
    | ok out' =>
      rw [hw] at h
      exact congrArg Except.ok (Except.ok.inj h)

theorem rsaCheckContext_public (h : rsaCheckContext ctx true = true) : rsaCheckContext ctx false = true := by
  unfold rsaCheckContext at h ⊢
  grind

theorem lt_mpiSize {n : Int} (hn : 0 < n) : n < 256 ^ mpiSize n := by
  have hsize : n.natAbs < 2 ^ bitlen n := Nat.lt_size_self _
  have hle : 2 ^ bitlen n ≤ 2 ^ (8 * mpiSize n) := Nat.pow_le_pow_right (by decide) (by unfold mpiSize; omega)
  rw [pow_mul] at hle
  zify at hsize hle
  rw [abs_of_pos hn] at hsize
  exact hsize.trans_le hle

/-- A number modulo N has its string. -/
theorem Key.writeBinary_mod (key : Key ctx p q d) (x : Int) :
    ∃ out, writeBinary (x % ctx.n) ctx.len = .ok out ∧ readBinary out = x % ctx.n ∧ out.length = ctx.len := by
  have hn := key.n_pos
  have hfits : ctx.n < 256 ^ ctx.len := by
    rw [key.len]
    exact lt_mpiSize hn
  exact writeBinary_eq (Int.emod_nonneg x hn.ne') ((Int.emod_lt_of_pos x hn).trans hfits)

/-- A result is the input to the power of the private exponent, and the public operation turns it back. -/
theorem rsaPrivate_exact (hunit : MontgomeryUnit monMul) (key : Key ctx p q d) {g : Rng}
    {input out : List (BitVec 8)} (hlen : input.length = ctx.len)
    (h : (rsaPrivate monMul regs ctx g input).1 = .ok out) :
    readBinary out = readBinary input ^ d % ctx.n ∧ rsaPublic monMul regs ctx out = .ok input := by
  obtain ⟨hcheck, hlt, x, hc, hw⟩ := rsaPrivate_ok h
  have hn := key.n_pos
  have hxlt := Int.emod_lt_of_pos x hn
  obtain ⟨out', hout, hread, -⟩ := key.writeBinary_mod x
  obtain rfl : out' = out := Except.ok.inj (hout.symm.trans hw)
  have hpow := exptMod_ok hunit key.pos.1.le hn key.n_odd hc
  refine ⟨?_, ?_⟩
  · have hback : x % ctx.n ≡ readBinary input ^ d [ZMOD ctx.n] := by
      calc
        x % ctx.n ≡ (x % ctx.n) ^ (ctx.e.toNat * d) [ZMOD ctx.n] := (key.cancel _).symm
        _ = ((x % ctx.n) ^ ctx.e.toNat) ^ d := pow_mul _ _ _
        _ ≡ readBinary input ^ d [ZMOD ctx.n] := by
          rw [hpow]
          exact (Int.mod_modEq _ _).symm.pow d
    rw [hread, ← hback, Int.emod_emod_of_dvd _ dvd_rfl]
  · have hpub : rsaCheckContext ctx false = true := rsaCheckContext_public hcheck
    unfold rsaPublic
    rw [if_neg (by simp [hpub]), hread]
    dsimp only
    rw [if_neg (by omega), hc]
    show liftPublic (writeBinary (readBinary input) ctx.len) = _
    rw [← hlen, writeBinary_readBinary]
    rfl

theorem Key.blind (key : Key ctx p q d) (vi : Int) (vf : Option Int) : Key (ctx.blind vi vf) p q d :=
  ⟨key.primes, key.modulus, key.odd, key.len, key.pos, key.left, key.right, key.coefficient⟩

theorem rsaPrivate_keeps (ctx : RsaContext) (g : Rng) (input : List (BitVec 8)) :
    ∃ vi vf, (rsaPrivate monMul regs ctx g input).2.1 = ctx.blind vi vf := by
  unfold rsaPrivate
  split
  · exact ⟨ctx.vi, ctx.vf, rfl⟩
  dsimp only
  split
  · exact ⟨ctx.vi, ctx.vf, rfl⟩
  obtain ⟨vi, vf, hkeep⟩ := @rsaPrepareBlinding_keeps monMul regs ctx g
  generalize rsaPrepareBlinding monMul regs ctx g = prep at hkeep
  obtain ⟨res, ctx', g'⟩ := prep
  dsimp only at hkeep
  subst hkeep
  refine ⟨vi, vf, ?_⟩
  cases res with
  | error e => rfl
  | ok _ =>
    dsimp only
    split
    · rfl
    split
    · rfl
    split
    · rfl
    split
    · rfl
    split <;> rfl

/-- Whatever state the blinding pair is in and whatever the random source delivers, each result of operations in
a row is its input to the power of the private exponent, and the public operation turns it back. -/
theorem rsa_private_exact (hunit : MontgomeryUnit monMul) (key : Key ctx p q d) {g : Rng}
    {inputs : List (List (BitVec 8))} (hlen : ∀ input ∈ inputs, input.length = ctx.len) :
    List.Forall₂ (fun input r => ∀ out, r = .ok out → readBinary out = readBinary input ^ d % ctx.n ∧
      rsaPublic monMul regs ctx out = .ok input) inputs (rsaPrivateAll monMul regs ctx g inputs) := by
  induction inputs generalizing ctx g with
  | nil => exact .nil
  | cons input inputs ih =>
    obtain ⟨vi, vf, hkeep⟩ := @rsaPrivate_keeps monMul regs ctx g input
    have hexact := fun out => @rsaPrivate_exact monMul regs _ _ _ _ hunit key g input out
      (hlen input List.mem_cons_self)
    rw [rsaPrivateAll]
    generalize rsaPrivate monMul regs ctx g input = r at hkeep hexact
    obtain ⟨r, ctx', g'⟩ := r
    dsimp only at hkeep hexact ⊢
    subst hkeep
    exact .cons hexact (ih (key.blind vi vf) fun input hmem => hlen input (List.mem_cons_of_mem _ hmem))

end Sound

/-! ## Blinding -/

/-- The pair of the context blinds and unblinds. -/
def Blinded (ctx : RsaContext) : Prop := ∃ f, ctx.vf = some f ∧ ctx.vi * f ^ ctx.e.toNat ≡ 1 [ZMOD ctx.n]

section Complete
variable {monMul : Nat → Nat → Nat → Nat → Nat → Nat} {regs : Regs} {ctx : RsaContext} {p q d : Nat}

theorem modMpi_eq {a n : Int} (hn : 0 < n) : modMpi a n = .ok (a % n) := by
  rw [modMpi, if_neg (by omega), if_neg (by omega)]

theorem invMod_ok {a n x : Int} (h : invMod a n = .ok x) : 1 < n ∧ x * a ≡ 1 [ZMOD n] := by
  unfold invMod at h
  split at h
  · cases h
  split at h
  · cases h
  rename_i hn hgcd
  rw [not_not] at hgcd
  obtain rfl := (Except.ok.inj h).symm
  have hbezout := Int.gcd_eq_gcd_ab a n
  rw [hgcd] at hbezout
  refine ⟨Int.not_le.mp hn, ?_⟩
  calc
    Int.gcdA a n % n * a ≡ Int.gcdA a n * a [ZMOD n] := (Int.mod_modEq _ _).mul_right a
    _ ≡ Int.gcdA a n * a + n * Int.gcdB a n [ZMOD n] :=
      (Int.modEq_add_modulus_mul_iff.mpr rfl)
    _ = 1 := by rw [mul_comm, ← hbezout]; rfl

theorem fillRandom_draw (size : Nat) (g : Rng) : (fillRandom size g).2.2.draw = g.draw := by
  unfold fillRandom
  split <;> rfl

/-- A turn that ends the loop leaves the inverse of the product of the two numbers. -/
theorem blindingLoop_ok (k : Nat) {ctx ctx' : RsaContext} {g g' : Rng} {r : Int}
    (h : blindingLoop ctx k g = (.ok r, ctx', g')) :
    ∃ vi f, ctx' = ctx.blind vi (some f) ∧ vi * (f * r) ≡ 1 [ZMOD ctx.n] ∧ g'.draw = g.draw := by
  induction k generalizing ctx g with
  | zero => cases h
  | succ k ih =>
    rw [blindingLoop] at h
    have hdraw₁ := fillRandom_draw (ctx.len - 1) g
    have hnone : (fillRandom (ctx.len - 1) g).2.1 = none → ctx.len - 1 = 0 := by
      unfold fillRandom
      split <;> simp [*]
    generalize fillRandom (ctx.len - 1) g = one at h hdraw₁ hnone
    obtain ⟨ok₁, vf, g₁⟩ := one
    dsimp only at h hdraw₁ hnone
    split at h
    · cases h
    have hdraw₂ := fillRandom_draw (ctx.len - 1) g₁
    generalize fillRandom (ctx.len - 1) g₁ = two at h hdraw₂
    obtain ⟨ok₂, s, g₂⟩ := two
    dsimp only at h hdraw₂
    split at h
    · cases h
    split at h
    · cases h
    rename_i vi hvi
    obtain ⟨hn, rfl⟩ := modMpi_ok hvi
    split at h
    · rename_i inv hinv
      obtain ⟨hr, hctx⟩ := Prod.mk.inj h
      obtain ⟨rfl, rfl⟩ := Prod.mk.inj hctx
      obtain rfl := Except.ok.inj hr
      obtain ⟨hlt, hprod⟩ := invMod_ok hinv
      have hinverse : inv * (vf.getD 0 * s.getD 0) ≡ 1 [ZMOD ctx.n] :=
        ((Int.mod_modEq _ _).symm.mul_left inv).trans hprod
      cases vf with
      | some f => exact ⟨inv, f, rfl, hinverse, hdraw₂.trans hdraw₁⟩
      | none =>
        have hzero : (0 : Int) ≡ 1 [ZMOD ctx.n] := by simpa using hinverse
        have hone : (1 : Int) % ctx.n = 1 := Int.emod_eq_of_lt (by decide) hlt
        rw [Int.ModEq, hone, Int.zero_emod] at hzero
        cases hzero
    · obtain ⟨vi', f, hctx, hinv, hdraw⟩ := ih h
      exact ⟨vi', f, hctx, hinv, hdraw.trans (hdraw₂.trans hdraw₁)⟩
    · cases h

theorem exptMod_eq (hunit : MontgomeryUnit monMul) {a e n : Int} (he : 0 ≤ e) (hn : 0 < n) (hodd : n % 2 = 1)
    (hshort : bitlen n ≤ 2048) : exptMod monMul regs a e n = .ok (a ^ e.toNat % n) := by
  rw [exptMod, if_pos hshort, halExptMod_eq hunit regs he hn hodd hshort]

/-- The preparation leaves a pair that blinds, from one that does or when it finds a new one. -/
theorem prepare_spec (hunit : MontgomeryUnit monMul) (key : Key ctx p q d) (hshort : bitlen ctx.n ≤ 2048) {g : Rng}
    (hstart : Blinded ctx ∨ ctx.vf = none ∧ (rsaPrepareBlinding monMul regs ctx g).1 = .ok ()) :
    ∃ vi f g', rsaPrepareBlinding monMul regs ctx g = (.ok (), ctx.blind vi (some f), g') ∧
      vi * f ^ ctx.e.toNat ≡ 1 [ZMOD ctx.n] ∧ g'.draw = g.draw := by
  have hn := key.n_pos
  rcases hstart with ⟨f, hf, hinv⟩ | ⟨hnone, hok⟩
  · refine ⟨ctx.vi * ctx.vi % ctx.n, f * f % ctx.n, g, ?_, ?_, rfl⟩
    · unfold rsaPrepareBlinding
      rw [hf]
      dsimp only
      rw [modMpi_eq hn, modMpi_eq hn]
      rfl
    · calc
        ctx.vi * ctx.vi % ctx.n * (f * f % ctx.n) ^ ctx.e.toNat ≡
            ctx.vi * ctx.vi * (f * f) ^ ctx.e.toNat [ZMOD ctx.n] :=
          (Int.mod_modEq _ _).mul ((Int.mod_modEq _ _).pow _)
        _ = ctx.vi * f ^ ctx.e.toNat * (ctx.vi * f ^ ctx.e.toNat) := by ring
        _ ≡ 1 * 1 [ZMOD ctx.n] := hinv.mul hinv
        _ = 1 := by ring
  · unfold rsaPrepareBlinding at hok ⊢
    rw [hnone] at hok ⊢
    dsimp only at hok ⊢
    cases hloop : blindingLoop ctx 11 g with
    | mk res rest =>
      obtain ⟨ctx₁, g₁⟩ := rest
      rw [hloop] at hok
      cases res with
      | error e => cases hok
      | ok r =>
        obtain ⟨vi, f, rfl, hinv, hdraw⟩ := blindingLoop_ok 11 hloop
        dsimp only [RsaContext.blind]
        rw [modMpi_eq hn]
        dsimp only
        rw [exptMod_eq hunit key.pos.1.le hn key.n_odd hshort]
        refine ⟨(vi * r % ctx.n) ^ ctx.e.toNat % ctx.n, f, g₁, rfl, ?_, hdraw⟩
        calc
          (vi * r % ctx.n) ^ ctx.e.toNat % ctx.n * f ^ ctx.e.toNat ≡ (vi * r) ^ ctx.e.toNat * f ^ ctx.e.toNat
              [ZMOD ctx.n] :=
            ((Int.mod_modEq _ _).trans ((Int.mod_modEq _ _).pow _)).mul_right _
          _ = (vi * (f * r)) ^ ctx.e.toNat := by ring
          _ ≡ 1 ^ ctx.e.toNat [ZMOD ctx.n] := hinv.pow _
          _ = 1 := one_pow _

theorem bitlen_le {a b : Int} (ha : 0 ≤ a) (hab : a ≤ b) : bitlen a ≤ bitlen b :=
  Nat.size_le_size (by omega)

/-- The powers modulo the primes make up the power modulo their product. -/
theorem rsaPrivateRoot_eq (hunit : MontgomeryUnit monMul) (key : Key ctx p q d) (hshort : bitlen ctx.n ≤ 2048)
    {f : Int} (hf : ctx.vf = some f) {t dp dq : Int} (hdp : 0 < dp ∧ dp.toNat ≡ d [MOD p - 1])
    (hdq : 0 < dq ∧ dq.toNat ≡ d [MOD q - 1]) :
    rsaPrivateRoot monMul regs ctx t dp dq =
      .ok (t ^ d * f % ctx.n, (t ^ d * f % ctx.n) ^ ctx.e.toNat % ctx.n) := by
  obtain ⟨hp, hq, hpq⟩ := key.modulus
  have hpos : (0 : Int) < p ∧ (0 : Int) < q :=
    ⟨by exact_mod_cast key.primes.left.pos, by exact_mod_cast key.primes.right.pos⟩
  have hodd : (p : Int) % 2 = 1 ∧ (q : Int) % 2 = 1 := by exact_mod_cast key.odd
  have hshortp : bitlen p ≤ 2048 := (bitlen_le hpos.1.le (by rw [hpq]; nlinarith)).trans hshort
  have hshortq : bitlen q ≤ 2048 := (bitlen_le hpos.2.le (by rw [hpq]; nlinarith)).trans hshort
  have hpowers : crtPowers monMul regs t dp dq ctx.p ctx.q = .ok (t ^ dp.toNat % p, t ^ dq.toNat % q) := by
    rw [hp, hq, crtPowers, if_pos ⟨hshortp, hshortq⟩, halExptMod_eq hunit regs hdp.1.le hpos.1 hodd.1 hshortp,
      halExptMod_eq hunit regs hdq.1.le hpos.2 hodd.2 hshortq]
    rfl
  obtain ⟨hleft, hright⟩ := combine key.coefficient (t ^ dp.toNat % p) (t ^ dq.toNat % q)
  have hpow : t ^ dq.toNat % q + (t ^ dp.toNat % p - t ^ dq.toNat % q) * ctx.qp % p * q ≡ t ^ d [ZMOD ctx.n] := by
    rw [hpq]
    refine key.primes.modEq_iff.mpr ⟨(hleft.trans (Int.mod_modEq _ _)).trans ?_, (hright.trans (Int.mod_modEq _ _)).trans ?_⟩
    · exact pow_modEq key.primes.left (by omega) key.pos.2.1 hdp.2 t
    · exact pow_modEq key.primes.right (by omega) key.pos.2.1 hdq.2 t
  have hunblind : (t ^ dq.toNat % q + (t ^ dp.toNat % p - t ^ dq.toNat % q) * ctx.qp % p * q) * f % ctx.n =
      t ^ d * f % ctx.n := hpow.mul_right f
  unfold rsaPrivateRoot
  rw [hpowers]
  show (modMpi ((t ^ dp.toNat % p - t ^ dq.toNat % q) * ctx.qp) ctx.p >>= _) = _
  rw [hp, modMpi_eq hpos.1]
  show (modMpi ((t ^ dq.toNat % q + (t ^ dp.toNat % p - t ^ dq.toNat % q) * ctx.qp % p * ctx.q) * ctx.vf.getD 0) ctx.n
    >>= _) = _
  rw [hq, hf, Option.getD_some, modMpi_eq key.n_pos, hunblind]
  show (exptMod monMul regs (t ^ d * f % ctx.n) ctx.e ctx.n >>= _) = _
  rw [exptMod_eq hunit key.pos.1.le key.n_pos key.n_odd hshort]
  rfl

theorem unblinded (key : Key ctx p q d) {vi f : Int} (hinv : vi * f ^ ctx.e.toNat ≡ 1 [ZMOD ctx.n]) (i : Int) :
    (i * vi % ctx.n) ^ d * f ≡ i ^ d [ZMOD ctx.n] := by
  calc
    (i * vi % ctx.n) ^ d * f ≡ (i * vi) ^ d * f ^ (ctx.e.toNat * d) [ZMOD ctx.n] :=
      ((Int.mod_modEq _ _).pow d).mul (key.cancel f).symm
    _ = i ^ d * (vi * f ^ ctx.e.toNat) ^ d := by rw [pow_mul]; ring
    _ ≡ i ^ d * 1 ^ d [ZMOD ctx.n] := (hinv.pow d).mul_left _
    _ = i ^ d := by ring

/-- An exponent stays as it is modulo `p - 1` when a multiple of that is added. -/
theorem blinded_exponent {p : Nat} (hp : 0 < p) {x : Int} (hx : 0 < x) {d : Nat} (h : x.toNat ≡ d [MOD p - 1])
    (r : Nat) : 0 < ((p : Int) - 1) * r + x ∧ (((p : Int) - 1) * r + x).toNat ≡ d [MOD p - 1] := by
  have hcast : ((p : Int) - 1) * r + x = (((p - 1) * r + x.toNat : Nat) : Int) := by
    push_cast [Nat.cast_sub hp]
    rw [Int.toNat_of_nonneg hx.le]
  rw [hcast, Int.toNat_natCast]
  refine ⟨by omega, Nat.ModEq.trans ?_ h⟩
  exact Nat.modulus_mul_add_modEq_iff.mpr rfl

theorem fillRandom_eq {g : Rng} (hdraw : ∀ k, (g.draw k).1 = true) (size : Nat) (hsize : size ≠ 0) :
    ∃ (r : Nat) (g' : Rng), fillRandom size g = (true, some (r : Int), g') ∧ g'.draw = g.draw :=
  ⟨(g.draw g.used).2 % 256 ^ size, { g with used := g.used + 1 }, by rw [fillRandom, if_neg hsize, hdraw], rfl⟩

theorem Key.check (key : Key ctx p q d) (hshort : bitlen ctx.n ≤ 2048) : rsaCheckContext ctx true = true := by
  obtain ⟨hp, hq, -⟩ := key.modulus
  have hn := key.n_pos
  have hodd := key.n_odd
  have hlen : ctx.len ≤ 1024 := by
    have hlen := key.len
    unfold mpiSize at hlen
    omega
  have hpos := key.primes.left.pos
  have hpos' := key.primes.right.pos
  have hoddp := key.odd
  obtain ⟨he, -, hdp, hdq, hqp⟩ := key.pos
  unfold rsaCheckContext
  rw [if_neg (by have hlen := key.len; omega), if_neg (by omega), if_neg (by rw [hp, hq]; omega), if_neg (by omega),
    if_neg (by omega), if_neg (by omega)]

/-- An operation from a blinding pair, or one that finds a pair, gives the power and leaves a pair. -/
theorem rsaPrivate_step (hunit : MontgomeryUnit monMul) (key : Key ctx p q d) (hshort : bitlen ctx.n ≤ 2048) {g : Rng}
    (hdraw : ∀ k, (g.draw k).1 = true)
    (hstart : Blinded ctx ∨ ctx.vf = none ∧ (rsaPrepareBlinding monMul regs ctx g).1 = .ok ())
    {input : List (BitVec 8)} (hlt : readBinary input < ctx.n) :
    ∃ out vi f g', rsaPrivate monMul regs ctx g input = (.ok out, ctx.blind vi (some f), g') ∧
      Blinded (ctx.blind vi (some f)) ∧ g'.draw = g.draw := by
  obtain ⟨vi, f, g₁, hprep, hinv, hdraw₁⟩ := prepare_spec hunit key hshort hstart
  have hn := key.n_pos
  have hpos := key.primes.left.pos
  have hpos' := key.primes.right.pos
  obtain ⟨r₁, g₂, hr₁, hdraw₂⟩ := fillRandom_eq (by rwa [hdraw₁]) exponentBlinding (by decide)
  obtain ⟨r₂, g₃, hr₂, hdraw₃⟩ := fillRandom_eq (g := g₂) (by rwa [hdraw₂, hdraw₁]) exponentBlinding (by decide)
  have hdp := blinded_exponent hpos key.pos.2.2.1 key.left.2 r₁
  have hdq := blinded_exponent hpos' key.pos.2.2.2.1 key.right.2 r₂
  rw [← key.modulus.1] at hdp
  rw [← key.modulus.2.1] at hdq
  have hroot := @rsaPrivateRoot_eq monMul regs _ _ _ _ hunit (key.blind vi (some f)) hshort f rfl
    (readBinary input * vi % ctx.n) _ _ hdp hdq
  have hpower : (readBinary input * vi % ctx.n) ^ d * f % ctx.n = readBinary input ^ d % ctx.n := unblinded key hinv _
  have hverify : (readBinary input ^ d % ctx.n) ^ ctx.e.toNat % ctx.n = readBinary input := by
    have hback : (readBinary input ^ d % ctx.n) ^ ctx.e.toNat ≡ readBinary input [ZMOD ctx.n] := by
      calc
        (readBinary input ^ d % ctx.n) ^ ctx.e.toNat ≡ (readBinary input ^ d) ^ ctx.e.toNat [ZMOD ctx.n] :=
          (Int.mod_modEq _ _).pow _
        _ = readBinary input ^ (ctx.e.toNat * d) := by rw [← pow_mul, Nat.mul_comm]
        _ ≡ readBinary input [ZMOD ctx.n] := key.cancel _
    rw [hback, Int.emod_eq_of_lt (readBinary_nonneg input) hlt]
  obtain ⟨out, hout, -, -⟩ := key.writeBinary_mod (readBinary input ^ d)
  refine ⟨out, vi, f, g₃, ?_, ⟨f, rfl, hinv⟩, hdraw₃.trans (hdraw₂.trans hdraw₁)⟩
  unfold rsaPrivate
  rw [if_neg (by simp [key.check hshort])]
  dsimp only
  rw [if_neg (by omega), hprep]
  dsimp only [RsaContext.blind] at hroot ⊢
  rw [hpower, hverify] at hroot
  rw [modMpi_eq hn]
  dsimp only
  rw [hr₁]
  simp only [Bool.true_eq_false, if_false]
  rw [hr₂]
  simp only [Bool.true_eq_false, if_false, Option.getD_some]
  rw [hroot]
  simp only [ne_eq, not_true_eq_false, if_false]
  rw [hout]
  rfl

/-- Every operation in a row gives its input to the power of the private exponent, and the public operation turns
each result back, once the context has a blinding pair or finds one in the first operation. -/
theorem rsa_private_run (hunit : MontgomeryUnit monMul) (key : Key ctx p q d) (hshort : bitlen ctx.n ≤ 2048) {g : Rng}
    (hdraw : ∀ k, (g.draw k).1 = true)
    (hstart : Blinded ctx ∨ ctx.vf = none ∧ (rsaPrepareBlinding monMul regs ctx g).1 = .ok ())
    {inputs : List (List (BitVec 8))} (hin : ∀ input ∈ inputs, input.length = ctx.len ∧ readBinary input < ctx.n) :
    List.Forall₂ (fun input r => ∃ out, r = .ok out ∧ readBinary out = readBinary input ^ d % ctx.n ∧
      rsaPublic monMul regs ctx out = .ok input) inputs (rsaPrivateAll monMul regs ctx g inputs) := by
  induction inputs generalizing ctx g with
  | nil => exact .nil
  | cons input inputs ih =>
    obtain ⟨hlen, hlt⟩ := hin input List.mem_cons_self
    obtain ⟨out, vi, f, g', hrun, hblind, hdraw'⟩ := rsaPrivate_step hunit key hshort hdraw hstart hlt
    have hexact : readBinary out = readBinary input ^ d % ctx.n ∧ rsaPublic monMul regs ctx out = .ok input :=
      rsaPrivate_exact hunit key hlen (by rw [hrun])
    have hrest := ih (key.blind vi (some f)) hshort (by rwa [hdraw']) (Or.inl hblind)
      fun input hmem => hin input (List.mem_cons_of_mem _ hmem)
    rw [rsaPrivateAll, hrun]
    exact .cons ⟨out, rfl, hexact⟩ hrest

end Complete

/-! ## A small key -/

/-- The key of 17 and 31 with the exponents 7 and 103, not used yet. -/
def smallKey : RsaContext := ⟨2, 527, 7, 17, 31, 7, 13, 11, 0, none⟩

theorem smallKey_key : Key smallKey 17 31 103 :=
  ⟨⟨by norm_num, by norm_num, by decide⟩, by decide, by decide, by decide, by decide, ⟨by decide, by decide⟩,
    ⟨by decide, by decide⟩, by decide⟩

/-- A source that always delivers two. -/
def twos : Rng := ⟨fun _ => (true, 2), 0⟩

theorem smallKey_prepared : (rsaPrepareBlinding wordEngine ⟨0, 0, 0, 0, 0, 0⟩ smallKey twos).1 = .ok () := by
  rfl

theorem rsa_private_exact_smallKey :
    List.Forall₂ (fun input r => ∀ out, r = .ok out → readBinary out = readBinary input ^ 103 % smallKey.n ∧
      rsaPublic wordEngine ⟨0, 0, 0, 0, 0, 0⟩ smallKey out = .ok input) [[1, 2], [0, 7]]
      (rsaPrivateAll wordEngine ⟨0, 0, 0, 0, 0, 0⟩ smallKey twos [[1, 2], [0, 7]]) :=
  rsa_private_exact wordEngine_unit smallKey_key (by decide)

theorem rsa_private_run_smallKey :
    List.Forall₂ (fun input r => ∃ out, r = .ok out ∧ readBinary out = readBinary input ^ 103 % smallKey.n ∧
      rsaPublic wordEngine ⟨0, 0, 0, 0, 0, 0⟩ smallKey out = .ok input) [[1, 2], [0, 7]]
      (rsaPrivateAll wordEngine ⟨0, 0, 0, 0, 0, 0⟩ smallKey twos [[1, 2], [0, 7]]) := by
  have hshort : bitlen smallKey.n ≤ 2048 := by decide
  exact rsa_private_run wordEngine_unit smallKey_key hshort (fun _ => rfl) (Or.inr ⟨rfl, smallKey_prepared⟩) (by decide)

end WmIot.Rsa
