import WmIot.Crypto.Gpsec
import WmIot.Lib.Framing

/-!
# Framing of a hashed message

The context of a hash as its memory holds it: the words of the state, a block with the number of bytes in
it, and the length in bits in two words. What the engine computes is a parameter.
-/

namespace WmIot.Hash
open Crypto Framing
set_option autoImplicit false

/-- `HASH_DIGEST_LENGTH` -/
def digestLength : Alg → Nat
  | .sha1 => 5
  | .md5 => 4

theorem digestLength_le (alg : Alg) : digestLength alg ≤ 5 := by cases alg <;> decide

/-- The engine in place of the hardware: the words that it has for a state and a block. -/
structure Engine where
  hash : Alg → List UInt32 → List UInt8 → List UInt32
  words : ∀ alg state block, (hash alg state block).length = digestLength alg

/-- `wm_hal_hash_cfg_t` -/
structure Cfg where
  lengthHi : UInt32
  lengthLo : UInt32
  state : List UInt32
  curlen : Nat
  buf : List UInt8
  alg : Alg
  state_length : state.length = 5
  buf_length : buf.length = 64

/-- `memcpy(buf + at, data, n)` in a block; what lies behind the block is not written. -/
def overwrite (buf : List UInt8) (at' : Nat) (data : List UInt8) : List UInt8 :=
  (buf.take at' ++ data ++ buf.drop (at' + data.length)).take buf.length

@[simp] theorem overwrite_length (buf : List UInt8) (at' : Nat) (data : List UInt8) :
    (overwrite buf at' data).length = buf.length := by
  simp only [overwrite, List.length_take, List.length_append, List.length_drop]
  omega

theorem take_overwrite {buf data : List UInt8} {at' : Nat} (h : at' + data.length ≤ buf.length) :
    (overwrite buf at' data).take (at' + data.length) = buf.take at' ++ data := by
  have hlen : (buf.take at' ++ data).length = at' + data.length := by
    simp only [List.length_append, List.length_take]
    omega
  rw [overwrite, List.take_take, Nat.min_eq_left h, List.take_left' hlen]

/-- Bytes that are copied into the block behind those in it. -/
def Cfg.put (cfg : Cfg) (data : List UInt8) : Cfg :=
  { cfg with
    buf := overwrite cfg.buf cfg.curlen data
    curlen := cfg.curlen + data.length
    buf_length := (overwrite_length _ _ _).trans cfg.buf_length }

section Put
variable (cfg : Cfg) (data : List UInt8)

@[simp] theorem Cfg.put_curlen : (cfg.put data).curlen = cfg.curlen + data.length := rfl
@[simp] theorem Cfg.put_buf : (cfg.put data).buf = overwrite cfg.buf cfg.curlen data := rfl
@[simp] theorem Cfg.put_state : (cfg.put data).state = cfg.state := rfl
@[simp] theorem Cfg.put_alg : (cfg.put data).alg = cfg.alg := rfl

end Put

/-- `wm_hal_hash_start` -/
def hashStart (cfg : Cfg) (alg : Alg) : Cfg :=
  { cfg with
    state := [0x67452301, 0xefcdab89, 0x98badcfe, 0x10325476] ++
      if alg = .sha1 then [0xc3d2e1f0] else cfg.state.drop 4
    curlen := 0
    lengthHi := 0
    lengthLo := 0
    alg := alg
    state_length := by split <;> simp [cfg.state_length] }

/-- `lengthLo` advanced, with the carry to `lengthHi`. -/
def Cfg.advance (cfg : Cfg) (bits : UInt32) : Cfg :=
  let n := cfg.lengthLo + bits
  { cfg with
    lengthHi := if n < cfg.lengthLo then cfg.lengthHi + 1 else cfg.lengthHi
    lengthLo := n }

section Engine
variable (g : Engine)

/-- `wm_hal_hash_compress`: the digest registers are as many words as the algorithm has. -/
def hashCompress (cfg : Cfg) : Err × Cfg :=
  let words := digestLength cfg.alg
  (.success, { cfg with
    state := g.hash cfg.alg (cfg.state.take words) cfg.buf ++ cfg.state.drop words
    state_length := by
      have := digestLength_le cfg.alg
      simp only [List.length_append, g.words, List.length_drop, cfg.state_length]
      omega })

/-- The loop of `wm_w800_drv_hash_update`, at most `fuel` times around. -/
def updateLoop : Nat → Cfg → List UInt8 → Option (Err × Cfg)
  | _, cfg, [] => some (.success, cfg)
  | 0, _, _ :: _ => none
  | fuel + 1, cfg, b :: data =>
    let n := min (b :: data).length (64 - cfg.curlen)
    let cfg := cfg.put ((b :: data).take n)
    let rest := (b :: data).drop n
    if cfg.curlen = 64 then
      match hashCompress g cfg with
      | (.success, cfg) => updateLoop fuel { cfg.advance 512 with curlen := 0 } rest
      | (_, cfg) => some (.timeout, cfg)
    else updateLoop fuel cfg rest

/-- Whether the mutex of the engine is acquired and released. -/
structure Mutex where
  acquired : Bool
  released : Bool
deriving DecidableEq, Repr

/-- `wm_w800_drv_hash_update` -/
def hashUpdate (mutex : Mutex) (cfg : Cfg) (data : List UInt8) : Option (Err × Cfg) :=
  if !mutex.acquired then some (.failed, cfg)
  else (updateLoop g data.length cfg data).map fun
    | (.success, cfg) => if !mutex.released then (.failed, cfg) else (.success, cfg)
    | (err, cfg) => (err, cfg)

/-- `while (curlen < limit) buf[curlen++] = 0` -/
def Cfg.fill (cfg : Cfg) (limit : Nat) : Cfg := (fun cfg => cfg.put [0])^[limit - cfg.curlen] cfg

/-- The length is stored behind 56 bytes. -/
def storeLength (cfg : Cfg) : List UInt8 :=
  if cfg.alg = .sha1 then storeWord true cfg.lengthHi ++ storeWord true cfg.lengthLo
  else storeWord false cfg.lengthLo ++ storeWord false cfg.lengthHi

/-- Zeros up to 56 bytes, and the block with the length. -/
def lastBlock (cfg : Cfg) : Cfg :=
  let cfg := cfg.fill 56
  (hashCompress g { cfg with
    buf := overwrite cfg.buf 56 (storeLength cfg)
    buf_length := (overwrite_length _ _ _).trans cfg.buf_length }).2

/-- What `wm_w800_drv_hash_final` does with the mutex: it looks at no result of the compression. -/
def finish (cfg : Cfg) : Cfg :=
  lastBlock g (if 56 < cfg.curlen then { (hashCompress g (cfg.fill 64)).2 with curlen := 0 } else cfg)

/-- The loop that copies the digest to `out`. -/
def copyOut (cfg : Cfg) : List UInt8 :=
  (cfg.state.take (digestLength cfg.alg)).flatMap (storeWord (decide (cfg.alg = Alg.sha1)))

/-- `wm_w800_drv_hash_final`, with what it writes to `out` -/
def hashFinal (mutex : Mutex) (cfg : Cfg) : Err × Cfg × List UInt8 :=
  if 64 ≤ cfg.curlen then (.invalidParam, cfg, [])
  else
    let cfg := cfg.advance (UInt32.ofNat (cfg.curlen <<< 3))
    let cfg := { cfg with lengthHi := cfg.lengthHi + UInt32.ofNat (cfg.curlen >>> 29) }
    let cfg := cfg.put [0x80]
    if !mutex.acquired then (.failed, cfg, [])
    else
      let cfg := finish g cfg
      if !mutex.released then (.failed, cfg, []) else (.success, cfg, copyOut cfg)

/-- `wm_w800_drv_md5_start`, `wm_w800_drv_sha1_start` -/
def start (alg : Alg) (cfg : Cfg) : Err × Cfg := (.success, hashStart cfg alg)

/-- `wm_w800_drv_md5_update`, `wm_w800_drv_sha1_update` -/
def update (alg : Alg) (mutex : Mutex) (cfg : Cfg) (data : List UInt8) : Option (Err × Cfg) :=
  if cfg.alg ≠ alg then some (.invalidParam, cfg) else hashUpdate g mutex cfg data

/-- `wm_w800_drv_md5_final`, `wm_w800_drv_sha1_final` -/
def final (alg : Alg) (mutex : Mutex) (cfg : Cfg) : Err × Cfg × List UInt8 :=
  if cfg.alg ≠ alg then (.invalidParam, cfg, []) else hashFinal g mutex cfg

/-- The updates in their order, up to the first that fails. -/
def updates (alg : Alg) : Cfg → List (Mutex × List UInt8) → Option (Err × Cfg)
  | cfg, [] => some (.success, cfg)
  | cfg, (mutex, data) :: calls =>
    match update g alg mutex cfg data with
    | some (.success, cfg) => updates alg cfg calls
    | other => other

/-- Start, updates and final: the digest where all return success. -/
def digest (alg : Alg) (cfg : Cfg) (calls : List (Mutex × List UInt8)) (last : Mutex) : Option (List UInt8) :=
  match start alg cfg with
  | (.success, cfg) =>
    match updates g alg cfg calls with
    | some (.success, cfg) =>
      match final g alg last cfg with
      | (.success, _, out) => some out
      | _ => none
    | _ => none
  | _ => none

end Engine

/-! ## The digest of the padded message -/

def initial (alg : Alg) : List UInt32 :=
  [0x67452301, 0xefcdab89, 0x98badcfe, 0x10325476] ++ if alg = .sha1 then [0xc3d2e1f0] else []

/-- SHA1 is big-endian, MD5 little-endian. -/
def bigEndian (alg : Alg) : Bool := decide (alg = .sha1)

/-- The compression folded over the message with its padding. -/
def standard (g : Engine) (alg : Alg) (m : List UInt8) : List UInt8 :=
  (fold 64 (g.hash alg) (initial alg) (m ++ padding (bigEndian alg) m.length)).flatMap (storeWord (bigEndian alg))

/-! ## The length -/

/-- `lengthHi` and `lengthLo` as one number -/
def Cfg.bits (cfg : Cfg) : Nat := cfg.lengthHi.toNat * 2 ^ 32 + cfg.lengthLo.toNat

theorem bits_advance (cfg : Cfg) (n : UInt32) : (cfg.advance n).bits = (cfg.bits + n.toNat) % 2 ^ 64 := by
  have hlo := cfg.lengthLo.toNat_lt
  have hhi := cfg.lengthHi.toNat_lt
  have hn := n.toNat_lt
  simp only [Cfg.advance, Cfg.bits, UInt32.lt_iff_toNat_lt, UInt32.toNat_add]
  split
  next h =>
    rw [UInt32.toNat_add, show (1 : UInt32).toNat = 1 from rfl]
    omega
  next h => omega

theorem storeWord_eq (w : UInt32) :
    storeWord false w = (List.range 4).map fun i => UInt8.ofNat (w.toNat / 256 ^ i) := by
  have hbyte : ∀ k i : Nat, k < 32 → 2 ^ k = 256 ^ i →
      (w >>> UInt32.ofNat k).toUInt8 = UInt8.ofNat (w.toNat / 256 ^ i) := by
    intro k i hk hpow
    apply UInt8.toNat_inj.mp
    have hshift : (UInt32.ofNat k).toNat = k := UInt32.toNat_ofNat_of_lt' (Nat.lt_trans hk (by decide))
    rw [UInt32.toNat_toUInt8, UInt32.toNat_shiftRight, hshift, Nat.mod_eq_of_lt hk,
      Nat.shiftRight_eq_div_pow, hpow, UInt8.toNat_ofNat']
  have hzero : w.toUInt8 = UInt8.ofNat (w.toNat / 256 ^ 0) := by
    apply UInt8.toNat_inj.mp
    rw [pow_zero, Nat.div_one, UInt32.toNat_toUInt8, UInt8.toNat_ofNat']
  rw [show List.range 4 = [0, 1, 2, 3] from rfl, List.map_cons, List.map_cons, List.map_cons, List.map_cons,
    List.map_nil, ← hzero, ← hbyte 8 1 (by decide) rfl, ← hbyte 16 2 (by decide) rfl,
    ← hbyte 24 3 (by decide) rfl]
  rfl

theorem storeWord_true (w : UInt32) : storeWord true w = (storeWord false w).reverse := by
  rw [storeWord, storeWord, if_pos rfl, if_neg Bool.false_ne_true, List.reverse_reverse]

theorem storeLength_eq (cfg : Cfg) : storeLength cfg = lengthBytes (bigEndian cfg.alg) cfg.bits := by
  have hlo := cfg.lengthLo.toNat_lt
  have hlittle : storeWord false cfg.lengthLo ++ storeWord false cfg.lengthHi =
      (List.range 8).map fun i => UInt8.ofNat (cfg.bits / 256 ^ i) := by
    rw [storeWord_eq, storeWord_eq, show List.range 8 = List.range 4 ++ (List.range 4).map (4 + ·) from rfl,
      List.map_append, List.map_map]
    congr 1
    · apply List.map_congr_left
      intro i hi
      have hi' : i < 4 := List.mem_range.mp hi
      have hpow : 2 ^ 32 = 256 ^ i * (256 ^ (3 - i) * 256) := by
        rw [← pow_succ, ← pow_add, show i + (3 - i + 1) = 4 by omega]
        rfl
      apply UInt8.toNat_inj.mp
      rw [UInt8.toNat_ofNat', UInt8.toNat_ofNat', Cfg.bits, hpow, Nat.mul_left_comm,
        Nat.mul_add_div (by positivity), ← Nat.mul_assoc, Nat.mul_comm _ 256]
      omega
    · apply List.map_congr_left
      intro i _
      rw [Function.comp_apply, pow_add, ← Nat.div_div_eq_div_mul, Cfg.bits,
        show 256 ^ 4 = 2 ^ 32 from rfl, Nat.mul_comm, Nat.mul_add_div (by positivity),
        Nat.div_eq_of_lt hlo, Nat.add_zero]
  cases halg : cfg.alg with
  | md5 => rw [storeLength, if_neg (by rw [halg]; decide), hlittle]; rfl
  | sha1 =>
    rw [storeLength, if_pos halg, storeWord_true, storeWord_true, ← List.reverse_append, hlittle]
    rfl

/-! ## The block -/

theorem take_put {cfg : Cfg} {data : List UInt8} (h : cfg.curlen + data.length ≤ 64) :
    (cfg.put data).buf.take (cfg.curlen + data.length) = cfg.buf.take cfg.curlen ++ data :=
  take_overwrite (cfg.buf_length.symm ▸ h)

/-- The zeros behind the bytes in the block, and nothing else. -/
theorem fill_spec {cfg : Cfg} {limit : Nat} (hle : cfg.curlen ≤ limit) (h : limit ≤ 64) :
    (cfg.fill limit).curlen = limit ∧
      (cfg.fill limit).buf.take limit = cfg.buf.take cfg.curlen ++ List.replicate (limit - cfg.curlen) 0 ∧
      (cfg.fill limit).state = cfg.state ∧ (cfg.fill limit).alg = cfg.alg ∧
      (cfg.fill limit).bits = cfg.bits := by
  have hloop : ∀ n, cfg.curlen + n ≤ 64 →
      ((fun cfg : Cfg => cfg.put [0])^[n] cfg).curlen = cfg.curlen + n ∧
      ((fun cfg : Cfg => cfg.put [0])^[n] cfg).buf.take (cfg.curlen + n) =
        cfg.buf.take cfg.curlen ++ List.replicate n 0 ∧
      ((fun cfg : Cfg => cfg.put [0])^[n] cfg).state = cfg.state ∧
      ((fun cfg : Cfg => cfg.put [0])^[n] cfg).alg = cfg.alg ∧
      ((fun cfg : Cfg => cfg.put [0])^[n] cfg).bits = cfg.bits := by
    intro n
    induction n with
    | zero => simp
    | succ n ih =>
      intro hn
      obtain ⟨hcur, htake, hstate, halg, hbits⟩ := ih (by omega)
      rw [Function.iterate_succ_apply']
      generalize (fun cfg : Cfg => cfg.put [0])^[n] cfg = cfg' at *
      refine ⟨by rw [Cfg.put_curlen, hcur]; rfl, ?_, hstate, halg, hbits⟩
      have hput := @take_put cfg' [0] (by rw [hcur]; exact hn)
      rw [hcur, htake, List.append_assoc, ← List.replicate_succ'] at hput
      exact hput
  have hspec := hloop (limit - cfg.curlen) (by omega)
  rw [Nat.add_sub_cancel' hle] at hspec
  exact hspec

section Engine
variable (g : Engine) (alg : Alg)

/-- The context holds the message so far: its full blocks in the state and in the length, the others in the
block. -/
structure Framed (m : List UInt8) (cfg : Cfg) : Prop where
  alg_eq : cfg.alg = alg
  curlen_lt : cfg.curlen < 64
  holds : Holds 64 (g.hash alg) (initial alg) m (cfg.state.take (digestLength alg)) (cfg.buf.take cfg.curlen)
  bits : cfg.bits = 8 * (m.length - cfg.curlen) % 2 ^ 64

variable {g alg} {m : List UInt8} {cfg : Cfg}

theorem Framed.curlen_eq (h : Framed g alg m cfg) : cfg.curlen = m.length % 64 := by
  have hlen := h.holds.length_mod
  have hlt := h.curlen_lt
  rw [List.length_take, cfg.buf_length] at hlen
  omega

theorem start_framed (cfg : Cfg) : Framed g alg [] (hashStart cfg alg) where
  alg_eq := rfl
  curlen_lt := Nat.zero_lt_succ _
  holds := by
    have hstate : (hashStart cfg alg).state.take (digestLength alg) = initial alg := by cases alg <;> rfl
    rw [hstate]
    exact .start (by decide)
  bits := by simp [Cfg.bits, hashStart]

theorem take_compress (cfg : Cfg) : (hashCompress g cfg).2.state.take (digestLength cfg.alg) =
    g.hash cfg.alg (cfg.state.take (digestLength cfg.alg)) cfg.buf :=
  List.take_left' (g.words _ _ _)

/-- Bytes that leave room in the block are kept there. -/
theorem Framed.keep (h : Framed g alg m cfg) {data : List UInt8} (hlt : cfg.curlen + data.length < 64) :
    Framed g alg (m ++ data) (cfg.put data) where
  alg_eq := h.alg_eq
  curlen_lt := hlt
  holds := by
    have hput := take_put (Nat.le_of_lt hlt)
    rw [Cfg.put_curlen, hput]
    apply h.holds.keep
    rw [← hput, List.length_take]
    exact Nat.lt_of_le_of_lt (Nat.min_le_left _ _) hlt
  bits := by
    rw [List.length_append, show (cfg.put data).curlen = cfg.curlen + data.length from rfl,
      Nat.add_sub_add_right]
    exact h.bits

/-- Bytes that fill it are compressed with those before them. -/
theorem Framed.flush (h : Framed g alg m cfg) {data : List UInt8} (heq : cfg.curlen + data.length = 64) :
    Framed g alg (m ++ data) { (hashCompress g (cfg.put data)).2.advance 512 with curlen := 0 } := by
  have hblock : (cfg.put data).buf = cfg.buf.take cfg.curlen ++ data := by
    rw [← take_put (Nat.le_of_eq heq)]
    exact (List.take_of_length_le (by rw [(cfg.put data).buf_length]; exact Nat.le_of_eq heq.symm)).symm
  refine ⟨h.alg_eq, Nat.zero_lt_succ _, ?_, ?_⟩
  · have hfull := h.holds.flush (c := data) (by rw [← hblock]; exact (cfg.put data).buf_length)
    have hstate := take_compress (g := g) (cfg.put data)
    rw [hblock, show (cfg.put data).alg = alg from h.alg_eq] at hstate
    rw [List.take_zero]
    exact hstate.symm ▸ hfull
  · have hadv := bits_advance (hashCompress g (cfg.put data)).2 512
    have hcur := h.curlen_eq
    have hle : cfg.curlen ≤ m.length := hcur.trans_le (Nat.mod_le _ _)
    rw [show (hashCompress g (cfg.put data)).2.bits = cfg.bits from rfl, h.bits,
      show (512 : UInt32).toNat = 512 from rfl] at hadv
    refine hadv.trans ?_
    rw [List.length_append, Nat.sub_zero]
    omega

theorem updateLoop_framed : ∀ (fuel : Nat) (data m : List UInt8) (cfg : Cfg), Framed g alg m cfg →
    data.length ≤ fuel → ∃ cfg', updateLoop g fuel cfg data = some (.success, cfg') ∧
      Framed g alg (m ++ data) cfg' := by
  intro fuel
  induction fuel with
  | zero =>
    intro data m cfg h hle
    obtain rfl := List.eq_nil_of_length_eq_zero (Nat.le_zero.mp hle)
    exact ⟨cfg, rfl, (List.append_nil m).symm ▸ h⟩
  | succ fuel ih =>
    intro data m cfg h hle
    cases data with
    | nil => exact ⟨cfg, rfl, (List.append_nil m).symm ▸ h⟩
    | cons b data =>
      have hlt := h.curlen_lt
      rw [List.length_cons] at hle
      rw [updateLoop]
      dsimp only
      generalize hn : min (b :: data).length (64 - cfg.curlen) = n
      have hpos : 0 < n := by rw [← hn, List.length_cons]; omega
      have hlen : ((b :: data).take n).length = n := by rw [List.length_take]; omega
      have hrest : ((b :: data).drop n).length ≤ fuel := by
        rw [List.length_drop, List.length_cons]
        omega
      have hsplit : m ++ b :: data = m ++ (b :: data).take n ++ (b :: data).drop n := by
        rw [List.append_assoc, List.take_append_drop]
      rw [hsplit]
      split
      next hfull =>
        have hsum : cfg.curlen + ((b :: data).take n).length = 64 := hfull
        exact ih _ _ _ (h.flush hsum) hrest
      next hpart =>
        have hsum : cfg.curlen + ((b :: data).take n).length < 64 := by
          have hne : cfg.curlen + ((b :: data).take n).length ≠ 64 := hpart
          omega
        exact ih _ _ _ (h.keep hsum) hrest

/-- An update ends; it succeeds when it has the mutex, and then holds its bytes too. -/
theorem update_framed (h : Framed g alg m cfg) (mutex : Mutex) (data : List UInt8) :
    ∃ cfg', Framed g alg (m ++ data) cfg' ∧ update g alg mutex cfg data =
      some (if !mutex.acquired then (.failed, cfg) else if !mutex.released then (.failed, cfg')
        else (.success, cfg')) := by
  obtain ⟨cfg', hloop, h'⟩ := updateLoop_framed _ data m cfg h le_rfl
  refine ⟨cfg', h', ?_⟩
  rw [update, if_neg (by rw [h.alg_eq]; exact fun hne => hne rfl), hashUpdate, hloop]
  cases mutex.acquired <;> cases mutex.released <;> rfl

/-- Whether all calls have the mutex. -/
def granted (calls : List (Mutex × List UInt8)) : Bool :=
  calls.all fun call => call.1.acquired && call.1.released

theorem updates_framed (calls : List (Mutex × List UInt8)) : ∀ {m : List UInt8} {cfg : Cfg},
    Framed g alg m cfg → ∃ cfg', Framed g alg (m ++ (calls.map Prod.snd).flatten) cfg' ∧
      ∀ cfg'', updates g alg cfg calls = some (.success, cfg'') ↔ granted calls = true ∧ cfg'' = cfg' := by
  induction calls with
  | nil =>
    intro m cfg h
    refine ⟨cfg, by simpa using h, fun cfg'' => ?_⟩
    simp [updates, granted, eq_comm]
  | cons call calls ih =>
    intro m cfg h
    obtain ⟨mutex, data⟩ := call
    obtain ⟨cfg₁, h₁, heq⟩ := update_framed h mutex data
    obtain ⟨cfg', h', hrest⟩ := ih h₁
    refine ⟨cfg', by simpa using h', fun cfg'' => ?_⟩
    rw [updates, heq]
    cases hacq : mutex.acquired <;> cases hrel : mutex.released <;>
      simp [granted, hacq, hrel] at hrest ⊢
    exact hrest cfg''

/-- Zeros and the length behind what is in the block. -/
theorem lastBlock_state (hle : cfg.curlen ≤ 56) {q : List UInt8} {s : List UInt32}
    (htake : cfg.buf.take cfg.curlen = q) (hstate : cfg.state.take (digestLength cfg.alg) = s) :
    (lastBlock g cfg).alg = cfg.alg ∧ (lastBlock g cfg).state.take (digestLength cfg.alg) =
      g.hash cfg.alg s (q ++ List.replicate (56 - cfg.curlen) 0 ++ lengthBytes (bigEndian cfg.alg) cfg.bits) := by
  obtain ⟨_, hblock, hfs, hfa, hfb⟩ := @fill_spec cfg 56 hle (by decide)
  have hlen : 56 + (storeLength (cfg.fill 56)).length = (cfg.fill 56).buf.length := by
    rw [storeLength_eq, lengthBytes_length, (cfg.fill 56).buf_length]
  have hbuf : overwrite (cfg.fill 56).buf 56 (storeLength (cfg.fill 56)) =
      q ++ List.replicate (56 - cfg.curlen) 0 ++ lengthBytes (bigEndian cfg.alg) cfg.bits := by
    have htaken := take_overwrite (Nat.le_of_eq hlen)
    rw [hlen, List.take_of_length_le (Nat.le_of_eq (overwrite_length _ _ _)), hblock, htake] at htaken
    rw [htaken, storeLength_eq, hfa, hfb]
  refine ⟨hfa, ?_⟩
  have hcompress := take_compress (g := g) { cfg.fill 56 with
    buf := overwrite (cfg.fill 56).buf 56 (storeLength (cfg.fill 56))
    buf_length := (overwrite_length _ _ _).trans (cfg.fill 56).buf_length }
  rw [← hbuf, ← hstate, ← hfs, ← hfa]
  exact hcompress

/-- With the length advanced and the byte 0x80 in the block, what is left is the padding. -/
theorem finish_state (hcur : cfg.curlen ≤ 64) (hbits : cfg.bits = 8 * m.length) {p : List UInt8} {s : List UInt32}
    (hmod : p.length = m.length % 64) (htake : cfg.buf.take cfg.curlen = p ++ [0x80])
    (hstate : cfg.state.take (digestLength cfg.alg) = s) :
    (finish g cfg).alg = cfg.alg ∧ (finish g cfg).state.take (digestLength cfg.alg) =
      fold 64 (g.hash cfg.alg) s (p ++ padding (bigEndian cfg.alg) m.length) := by
  have hcurlen : cfg.curlen = p.length + 1 := by
    have hlen := congrArg List.length htake
    rw [List.length_take, cfg.buf_length, List.length_append, List.length_singleton] at hlen
    omega
  have hlt : m.length % 64 < 64 := Nat.mod_lt _ (by decide)
  rw [finish]
  split
  next hbig =>
    -- the zeros fill this block, and a second one takes the length
    obtain ⟨_, hblock, hfs, hfa, hfb⟩ := fill_spec hcur le_rfl
    have hbuf : (cfg.fill 64).buf = p ++ 0x80 :: List.replicate (63 - m.length % 64) 0 := by
      rw [← List.take_of_length_le (Nat.le_of_eq (cfg.fill 64).buf_length), hblock, htake, hcurlen, ← hmod,
        List.append_assoc, show 64 - (p.length + 1) = 63 - p.length by omega]
      rfl
    have hfirst := take_compress (g := g) (cfg.fill 64)
    rw [hbuf, hfa, hfs, hstate] at hfirst
    obtain ⟨halg, hlast⟩ := @lastBlock_state g { (hashCompress g (cfg.fill 64)).2 with curlen := 0 }
      (Nat.zero_le 56) (q := []) rfl (s := g.hash cfg.alg s (p ++ 0x80 :: List.replicate (63 - m.length % 64) 0))
      (by rw [← hfirst, ← hfa]; rfl)
    rw [show (hashCompress g (cfg.fill 64)).2.alg = cfg.alg from hfa, List.nil_append,
      show Cfg.bits { (hashCompress g (cfg.fill 64)).2 with curlen := 0 } = cfg.bits from hfb, hbits] at hlast
    have hlen₁ : (p ++ 0x80 :: List.replicate (63 - m.length % 64) (0 : UInt8)).length = 64 := by
      rw [List.length_append, List.length_cons, List.length_replicate]
      omega
    have hlen₂ : (List.replicate 56 (0 : UInt8) ++ lengthBytes (bigEndian cfg.alg) (8 * m.length)).length = 64 := by
      rw [List.length_append, List.length_replicate, lengthBytes_length]
    refine ⟨halg.trans hfa, ?_⟩
    rw [padding_spills _ (by omega), ← List.append_assoc, fold_block (by decide) hlen₁, fold_one (by decide) hlen₂]
    exact hlast
  next hsmall =>
    obtain ⟨halg, hlast⟩ := lastBlock_state (g := g) (by omega) htake hstate
    have hblock : p ++ [0x80] ++ List.replicate (56 - cfg.curlen) 0 ++ lengthBytes (bigEndian cfg.alg) cfg.bits =
        p ++ padding (bigEndian cfg.alg) m.length := by
      rw [padding_fits _ (by omega), hcurlen, hbits, ← hmod, show 56 - (p.length + 1) = 55 - p.length by omega]
      simp
    have hlen : (p ++ padding (bigEndian cfg.alg) m.length).length = 64 := by
      rw [padding_fits _ (by omega)]
      simp only [List.length_append, List.length_cons, List.length_replicate, lengthBytes_length]
      omega
    rw [hblock] at hlast
    refine ⟨halg, ?_⟩
    rw [fold_one (by decide) hlen]
    exact hlast

/-- Final: it succeeds when it has the mutex, with the digest of the padded message. -/
theorem final_framed (h : Framed g alg m cfg) (hm : m.length < 2 ^ 61) (mutex : Mutex) :
    ∃ cfg', final g alg mutex cfg =
      if mutex.acquired && mutex.released then (.success, cfg', standard g alg m) else (.failed, cfg', []) := by
  have hcur := h.curlen_eq
  have hlt := h.curlen_lt
  have halg := h.alg_eq
  rw [final, if_neg (by rw [halg]; exact fun hne => hne rfl), hashFinal, if_neg (by omega)]
  dsimp only
  generalize hadv : ({ cfg.advance (UInt32.ofNat (cfg.curlen <<< 3)) with
    lengthHi := (cfg.advance (UInt32.ofNat (cfg.curlen <<< 3))).lengthHi +
      UInt32.ofNat ((cfg.advance (UInt32.ofNat (cfg.curlen <<< 3))).curlen >>> 29) } : Cfg) = cfg₁
  have hcur₁ : cfg₁.curlen = cfg.curlen := by rw [← hadv]; rfl
  have hbuf₁ : cfg₁.buf = cfg.buf := by rw [← hadv]; rfl
  have hstate₁ : cfg₁.state = cfg.state := by rw [← hadv]; rfl
  have halg₁ : cfg₁.alg = alg := by rw [← hadv, ← halg]; rfl
  have hbits₁ : cfg₁.bits = 8 * m.length := by
    have hshift : cfg.curlen >>> 29 = 0 := by rw [Nat.shiftRight_eq_div_pow]; omega
    have hadd : (UInt32.ofNat (cfg.curlen <<< 3)).toNat = 8 * cfg.curlen := by
      rw [UInt32.toNat_ofNat_of_lt', Nat.shiftLeft_eq]
      · omega
      · rw [Nat.shiftLeft_eq, UInt32.size]
        omega
    have hb := bits_advance cfg (UInt32.ofNat (cfg.curlen <<< 3))
    rw [hadd, h.bits] at hb
    rw [← hadv, show (cfg.advance (UInt32.ofNat (cfg.curlen <<< 3))).curlen = cfg.curlen from rfl, hshift, show UInt32.ofNat 0 = 0 from rfl, UInt32.add_zero]
    refine hb.trans ?_
    omega
  have hput : (cfg₁.put [0x80]).buf.take (cfg₁.put [0x80]).curlen = cfg.buf.take cfg.curlen ++ [0x80] := by
    rw [Cfg.put_curlen, take_put (by rw [hcur₁]; exact hlt), hbuf₁, hcur₁]
  have hfinish := @finish_state g m (cfg₁.put [0x80]) (by rw [Cfg.put_curlen, hcur₁]; exact hlt) hbits₁ (cfg.buf.take cfg.curlen)
    (cfg.state.take (digestLength alg)) h.holds.length_mod hput
    (by rw [show (cfg₁.put [0x80]).alg = alg from halg₁, show (cfg₁.put [0x80]).state = cfg.state from hstate₁])
  rw [show (cfg₁.put [0x80]).alg = alg from halg₁, ← h.holds.close] at hfinish
  have hout : copyOut (finish g (cfg₁.put [0x80])) = standard g alg m := by
    rw [copyOut, hfinish.1, hfinish.2]
    rfl
  cases mutex.acquired with
  | false => exact ⟨_, rfl⟩
  | true =>
    refine ⟨finish g (cfg₁.put [0x80]), ?_⟩
    cases mutex.released with
    | false => rfl
    | true => rw [← hout]; rfl

/-- The digest of a message that is given in pieces: where the mutex is always granted, and only then, all
calls succeed, and the digest is the standard one of the whole message. -/
theorem framed_digest (g : Engine) (alg : Alg) (cfg : Cfg) (calls : List (Mutex × List UInt8)) (last : Mutex)
    (hm : ((calls.map Prod.snd).flatten).length < 2 ^ 61) (out : List UInt8) :
    digest g alg cfg calls last = some out ↔
      (granted calls && last.acquired && last.released) = true ∧
        out = standard g alg (calls.map Prod.snd).flatten := by
  obtain ⟨cfg₁, hcfg₁, hupdates⟩ := updates_framed calls (@start_framed g alg cfg)
  rw [List.nil_append] at hcfg₁
  obtain ⟨cfg₂, hfinal⟩ := final_framed hcfg₁ hm last
  rw [digest, start]
  dsimp only
  by_cases hgranted : granted calls = true
  · rw [(hupdates cfg₁).mpr ⟨hgranted, rfl⟩, hgranted]
    dsimp only
    rw [hfinal]
    cases last.acquired <;> cases last.released <;> simp [eq_comm]
  · cases hrun : updates g alg (hashStart cfg alg) calls with
    | none => simp [hgranted]
    | some r =>
      obtain ⟨err, cfg'⟩ := r
      cases err with
      | success => exact absurd ((hupdates cfg').mp hrun).1 hgranted
      | failed => simp [hgranted]
      | invalidParam => simp [hgranted]
      | timeout => simp [hgranted]

end Engine

/-! ## One message in three pieces -/

/-- An engine that adds the words of the state and the first bytes of the block. -/
def addEngine : Engine where
  hash alg state block := (List.range (digestLength alg)).map fun i =>
    state.getD i 0 + (block.getD i 0).toUInt32
  words _ _ _ := by rw [List.length_map, List.length_range]

def blankCfg : Cfg := ⟨0, 0, List.replicate 5 0, 0, List.replicate 64 0, .md5, rfl, rfl⟩

theorem framed_digest_pieces :
    ([[1, 2], [], [3]] : List (List UInt8)).flatten.length < 2 ^ 61 ∧
      digest addEngine .sha1 blankCfg [(⟨true, true⟩, [1, 2]), (⟨true, true⟩, []), (⟨true, true⟩, [3])]
        ⟨true, true⟩ = some (standard addEngine .sha1 [1, 2, 3]) :=
  ⟨by decide, (framed_digest addEngine .sha1 blankCfg _ _ (by decide) _).mpr ⟨rfl, rfl⟩⟩

end WmIot.Hash
