import WmIot.Crypto.Oaep

/-!
# The padding PKCS#1 v1.5

The padding is taken off without a branch on what it holds: words are selected with masks, and the message is
moved to its place by passes over the buffer, as many as the buffer has bytes.
-/

namespace WmIot.Rsa
set_option autoImplicit false

/-! ## Selection without branches -/

/-- `mbedtls_ct_uint_mask` -/
def ctUintMask (value : BitVec 32) : BitVec 32 := -((value ||| -value) >>> 31)

/-- `mbedtls_ct_uint_if` -/
def ctUintIf (condition if1 if0 : BitVec 32) : BitVec 32 :=
  (ctUintMask condition &&& if1) ||| (~~~ctUintMask condition &&& if0)

/-- `mbedtls_ct_size_gt` -/
def ctSizeGt (x y : BitVec 32) : BitVec 32 := (y - x) >>> 31

theorem shift_top (x : BitVec 32) : x >>> 31 = if 2 ^ 31 ≤ x.toNat then 1 else 0 := by
  have hx := x.isLt
  apply BitVec.eq_of_toNat_eq
  rw [BitVec.toNat_ushiftRight, Nat.shiftRight_eq_div_pow]
  split
  · rw [show (1 : BitVec 32).toNat = 1 from rfl]
    omega
  · rw [show (0 : BitVec 32).toNat = 0 from rfl]
    omega

theorem ctUintMask_zero : ctUintMask 0 = 0 := by decide

/-- Of a number and its negative one has the highest bit, unless they are zero. -/
theorem ctUintMask_of_ne {value : BitVec 32} (h : value ≠ 0) : ctUintMask value = BitVec.allOnes 32 := by
  have hmsb : (value ||| -value).msb = true := by
    rw [BitVec.msb_or, BitVec.msb_neg]
    by_cases hmin : value = BitVec.intMin 32
    · subst hmin
      decide
    · have hzero : value ≠ 0#32 := h
      rw [bne_iff_ne.mpr hzero, bne_iff_ne.mpr hmin]
      cases value.msb <;> rfl
  have htop : 2 ^ 31 ≤ (value ||| -value).toNat := by simpa [BitVec.msb_eq_decide] using hmsb
  rw [ctUintMask, shift_top, if_pos htop]
  rfl

theorem ctUintIf_eq (condition if1 if0 : BitVec 32) : ctUintIf condition if1 if0 = if condition = 0 then if0 else if1 := by
  unfold ctUintIf
  split
  · rename_i hzero
    rw [hzero, ctUintMask_zero, show ~~~(0 : BitVec 32) = BitVec.allOnes 32 from rfl, BitVec.allOnes_and]
    exact BitVec.zero_and.symm ▸ BitVec.zero_or
  · rename_i hne
    rw [ctUintMask_of_ne hne, BitVec.allOnes_and, show ~~~BitVec.allOnes 32 = 0#32 from rfl, BitVec.zero_and, BitVec.or_zero]

theorem ctSizeGt_eq {x y : Nat} (hx : x < 2 ^ 31) (hy : y < 2 ^ 31) :
    ctSizeGt (BitVec.ofNat 32 x) (BitVec.ofNat 32 y) = if y < x then 1 else 0 := by
  have hxw : (BitVec.ofNat 32 x).toNat = x := by
    rw [BitVec.toNat_ofNat]
    omega
  have hyw : (BitVec.ofNat 32 y).toNat = y := by
    rw [BitVec.toNat_ofNat]
    omega
  have hsub : (BitVec.ofNat 32 y - BitVec.ofNat 32 x).toNat = (2 ^ 32 - x + y) % 2 ^ 32 := by
    rw [BitVec.toNat_sub, hxw, hyw]
  rw [ctSizeGt, shift_top, hsub]
  split <;> split <;> first | rfl | omega

/-! ## Moving to the left -/

/-- A pass of `mbedtls_ct_mem_move_to_left`. -/
def movePass (noOp : BitVec 32) : List Octet → List Octet
  | [] => []
  | [b] => [(ctUintIf noOp (b.setWidth 32) 0).setWidth 8]
  | b :: c :: buf => (ctUintIf noOp (b.setWidth 32) (c.setWidth 32)).setWidth 8 :: movePass noOp (c :: buf)

/-- The first passes of `mbedtls_ct_mem_move_to_left`. -/
def movePasses (total offset : Nat) : Nat → List Octet → List Octet
  | 0, buf => buf
  | i + 1, buf =>
    movePass (ctSizeGt (BitVec.ofNat 32 (total - offset)) (BitVec.ofNat 32 i)) (movePasses total offset i buf)

/-- `mbedtls_ct_mem_move_to_left` -/
def memMoveToLeft (offset : Nat) (buf : List Octet) : List Octet := movePasses buf.length offset buf.length buf

theorem setWidth_cancel (b : Octet) : (b.setWidth 32).setWidth 8 = b := by
  rw [BitVec.setWidth_setWidth_of_le _ (by decide), BitVec.setWidth_eq]

theorem movePass_stay (buf : List Octet) : movePass 1 buf = buf := by
  induction buf with
  | nil => rfl
  | cons b buf ih =>
    cases buf with
    | nil => rw [movePass, ctUintIf_eq, if_neg (by decide), setWidth_cancel]
    | cons c buf => rw [movePass, ctUintIf_eq, if_neg (by decide), setWidth_cancel, ih]

theorem movePass_shift {buf : List Octet} (hbuf : buf ≠ []) : movePass 0 buf = buf.tail ++ [0] := by
  induction buf with
  | nil => exact absurd rfl hbuf
  | cons b buf ih =>
    cases buf with
    | nil =>
      rw [movePass, ctUintIf_eq, if_pos rfl]
      rfl
    | cons c buf =>
      rw [movePass, ctUintIf_eq, if_pos rfl, setWidth_cancel, ih (List.cons_ne_nil _ _)]
      rfl

/-- The passes do nothing at first; then each moves the buffer by one byte. -/
theorem movePasses_eq {total offset : Nat} {buf : List Octet} (hbuf : buf.length = total) (hoffset : offset ≤ total)
    (htotal : total < 2 ^ 31) {i : Nat} (hi : i ≤ total) :
    movePasses total offset i buf =
      buf.drop (i - (total - offset)) ++ List.replicate (i - (total - offset)) 0 := by
  induction i with
  | zero => rw [movePasses, Nat.zero_sub, List.drop_zero, List.replicate_zero, List.append_nil]
  | succ i ih =>
    rw [movePasses, ih (by omega), ctSizeGt_eq (by omega) (by omega)]
    by_cases hstay : i < total - offset
    · rw [if_pos hstay, movePass_stay, show i + 1 - (total - offset) = i - (total - offset) by omega]
    · have hne : buf.drop (i - (total - offset)) ≠ [] := by
        apply List.ne_nil_of_length_pos
        rw [List.length_drop]
        omega
      rw [if_neg hstay, movePass_shift (by simp [hne]), List.tail_append_of_ne_nil hne, List.tail_drop, List.append_assoc,
        show i + 1 - (total - offset) = i - (total - offset) + 1 by omega, List.replicate_succ']

theorem memMoveToLeft_eq {offset : Nat} {buf : List Octet} (hoffset : offset ≤ buf.length) (hbuf : buf.length < 2 ^ 31) :
    memMoveToLeft offset buf = buf.drop offset ++ List.replicate offset 0 := by
  rw [memMoveToLeft, movePasses_eq rfl hoffset hbuf (Nat.le_refl _), Nat.sub_sub_self hoffset]

/-! ## Taking the padding off -/

/-- The loop of `mbedtls_ct_rsaes_pkcs1_v15_unpadding`: `pad_done` and `pad_count`. -/
def unpadLoop : Octet → List Octet → Octet × Nat
  | done, [] => (done, 0)
  | done, b :: p =>
    let done := done ||| (((b ||| -b) >>> 7) ^^^ 1)
    ((unpadLoop done p).1, (((done ||| -done) >>> 7) ^^^ 1).toNat + (unpadLoop done p).2)

/-- `bad` and `pad_count` behind the loop. -/
def unpadCheck (input : List Octet) : BitVec 32 × Nat :=
  let bad := (input.getD 0 0).setWidth 32 ||| ((input.getD 1 0).setWidth 32 ^^^ 2)
  let (padDone, padCount) := unpadLoop 0 (input.drop 2)
  let bad := bad ||| ctUintIf (padDone.setWidth 32) 0 1
  (bad ||| ctSizeGt 8 (BitVec.ofNat 32 padCount), padCount)

/-- `mbedtls_ct_rsaes_pkcs1_v15_unpadding`: the code that it returns, and what it copies to the output, as long as
`olen` says. -/
def unpadding (input : List Octet) (outputMaxLen : Nat) : BitVec 32 × List Octet :=
  let ilen := input.length
  let plaintextMaxSize := if ilen - 11 < outputMaxLen then ilen - 11 else outputMaxLen
  let (bad, padCount) := unpadCheck input
  let plaintextSize := ctUintIf bad (BitVec.ofNat 32 plaintextMaxSize)
    (BitVec.ofNat 32 ilen - BitVec.ofNat 32 padCount - 3)
  let outputTooLarge := ctSizeGt plaintextSize (BitVec.ofNat 32 plaintextMaxSize)
  let ret := ctUintIf bad 0x4100 (ctUintIf outputTooLarge 0x4400 0)
  let bad := ctUintMask (bad ||| outputTooLarge)
  let input := input.take 11 ++ (input.drop 11).map fun b => (b.setWidth 32 &&& ~~~bad).setWidth 8
  let plaintextSize := ctUintIf outputTooLarge (BitVec.ofNat 32 plaintextMaxSize) plaintextSize
  let output := memMoveToLeft (plaintextMaxSize - plaintextSize.toNat) (input.drop (ilen - plaintextMaxSize))
  (ret, output.take plaintextSize.toNat)

/-- The codes as results. -/
def unpaddingResult (r : BitVec 32 × List Octet) : Except RsaError (List Octet) :=
  if r.1 = 0 then .ok r.2 else if r.1 = 0x4100 then .error .invalidPadding else .error .outputTooLarge

/-- What `mbedtls_rsa_rsaes_pkcs1_v15_encrypt` pads the message to. -/
def pkcs1Encode (ps input : List Octet) : List Octet := 0 :: 2 :: (ps ++ 0 :: input)

theorem unpadLoop_done {done : Octet} (hdone : done ≠ 0) (p : List Octet) :
    (unpadLoop done p).1 ≠ 0 ∧ (unpadLoop done p).2 = 0 := by
  induction p generalizing done with
  | nil => exact ⟨hdone, rfl⟩
  | cons b p ih =>
    have hnext : done ||| (((b ||| -b) >>> 7) ^^^ 1) ≠ 0 := fun h => hdone (or_eq_zero.mp h).1
    obtain ⟨hend, hcount⟩ := ih hnext
    rw [unpadLoop, zeroBit, if_neg hnext, hcount]
    exact ⟨hend, rfl⟩

theorem zeroBit_of_ne {b : Octet} (hb : b ≠ 0) : ((b ||| -b) >>> 7) ^^^ 1 = 0 := by
  have hbit := zeroBit b
  rw [if_neg hb] at hbit
  exact BitVec.eq_of_toNat_eq hbit

/-- Bytes that are not zero are counted. -/
theorem unpadLoop_append {ps : List Octet} (hps : ∀ b ∈ ps, b ≠ 0) (p : List Octet) :
    unpadLoop 0 (ps ++ p) = ((unpadLoop 0 p).1, ps.length + (unpadLoop 0 p).2) := by
  induction ps with
  | nil => rw [List.nil_append, List.length_nil, Nat.zero_add]
  | cons b ps ih =>
    rw [List.forall_mem_cons] at hps
    rw [List.cons_append, unpadLoop, zeroBit_of_ne hps.1, zero_or, zeroBit, if_pos rfl, ih hps.2, List.length_cons, Nat.add_comm 1, Nat.add_right_comm]

theorem unpadLoop_zero (p : List Octet) : (unpadLoop 0 (0 :: p)).1 ≠ 0 ∧ (unpadLoop 0 (0 :: p)).2 = 0 := by
  obtain ⟨hend, hcount⟩ := unpadLoop_done (show (1 : Octet) ≠ 0 by decide) p
  rw [unpadLoop, show (0 : Octet) ||| ((((0 : Octet) ||| -(0 : Octet)) >>> 7) ^^^ (1 : Octet)) = 1 by decide, hcount]
  exact ⟨hend, rfl⟩

/-- The bytes in front of the first zero. -/
theorem nonzeros_split (p : List Octet) :
    (∀ b ∈ p, b ≠ 0) ∨ ∃ ps rest, (∀ b ∈ ps, b ≠ 0) ∧ p = ps ++ 0 :: rest := by
  induction p with
  | nil => exact Or.inl (by simp)
  | cons b p ih =>
    by_cases hb : b = 0
    · exact Or.inr ⟨[], p, by simp, by rw [hb, List.nil_append]⟩
    · rcases ih with hall | ⟨ps, rest, hps, rfl⟩
      · exact Or.inl (List.forall_mem_cons.mpr ⟨hb, hall⟩)
      · exact Or.inr ⟨b :: ps, rest, List.forall_mem_cons.mpr ⟨hb, hps⟩, by rw [List.cons_append]⟩

theorem nonzeros_inj {ps qs a b : List Octet} (hps : ∀ c ∈ ps, c ≠ 0) (hqs : ∀ c ∈ qs, c ≠ 0)
    (h : ps ++ 0 :: a = qs ++ 0 :: b) : ps = qs ∧ a = b := by
  have hcount := congrArg (fun p => (unpadLoop 0 p).2) h
  simp only [unpadLoop_append hps, unpadLoop_append hqs, (unpadLoop_zero _).2, Nat.add_zero] at hcount
  obtain ⟨rfl, hrest⟩ := List.append_inj h hcount
  exact ⟨rfl, (List.cons.inj hrest).2⟩

theorem setWidth_eq_zero {b : Octet} : b.setWidth 32 = (0 : BitVec 32) ↔ b = 0 := by
  constructor
  · intro h
    rw [← setWidth_cancel b, h]
    rfl
  · rintro rfl
    rfl

theorem setWidth_xor_eq_zero {b : Octet} : b.setWidth 32 ^^^ (2 : BitVec 32) = 0 ↔ b = 2 := by
  rw [xor_eq_zero]
  constructor
  · intro h
    rw [← setWidth_cancel b, h]
    rfl
  · rintro rfl
    rfl

/-- The tests for the first bytes, an end of the padding and its length. -/
theorem unpadCheck_eq_zero {b₀ b₁ : Octet} {p : List Octet} (hp : p.length < 2 ^ 31) :
    (unpadCheck (b₀ :: b₁ :: p)).1 = 0 ↔ b₀ = 0 ∧ b₁ = 2 ∧ (unpadLoop 0 p).1 ≠ 0 ∧ 8 ≤ (unpadLoop 0 p).2 := by
  have hcount : (unpadLoop 0 p).2 < 2 ^ 31 := by
    rcases nonzeros_split p with hall | ⟨ps, rest, hps, rfl⟩
    · have hloop := unpadLoop_append hall []
      rw [List.append_nil] at hloop
      rw [hloop]
      exact hp
    · rw [unpadLoop_append hps, (unpadLoop_zero rest).2, Nat.add_zero]
      rw [List.length_append] at hp
      omega
  have hend : ctUintIf ((unpadLoop 0 p).1.setWidth 32) 0 1 = 0 ↔ (unpadLoop 0 p).1 ≠ 0 := by
    rw [ctUintIf_eq]
    by_cases hzero : (unpadLoop 0 p).1 = 0
    · rw [if_pos (setWidth_eq_zero.mpr hzero)]
      exact ⟨fun habs => absurd habs (by decide), fun habs => absurd hzero habs⟩
    · rw [if_neg (mt setWidth_eq_zero.mp hzero)]
      exact ⟨fun _ => hzero, fun _ => rfl⟩
  have hshort : ctSizeGt 8 (BitVec.ofNat 32 (unpadLoop 0 p).2) = 0 ↔ 8 ≤ (unpadLoop 0 p).2 := by
    rw [show (8 : BitVec 32) = BitVec.ofNat 32 8 from rfl, ctSizeGt_eq (by decide) hcount]
    split
    · rename_i hlt
      exact ⟨fun habs => absurd habs (by decide), fun habs => absurd hlt (by omega)⟩
    · rename_i hge
      exact ⟨fun _ => by omega, fun _ => rfl⟩
  have hbad : (unpadCheck (b₀ :: b₁ :: p)).1 = b₀.setWidth 32 ||| (b₁.setWidth 32 ^^^ 2) |||
      ctUintIf ((unpadLoop 0 p).1.setWidth 32) 0 1 ||| ctSizeGt 8 (BitVec.ofNat 32 (unpadLoop 0 p).2) := rfl
  rw [hbad, or_eq_zero, or_eq_zero, or_eq_zero, setWidth_eq_zero, setWidth_xor_eq_zero, hend, hshort]
  tauto

theorem unpadCheck_encode {ps : List Octet} (hps : ∀ b ∈ ps, b ≠ 0) (msg : List Octet) :
    (unpadCheck (pkcs1Encode ps msg)).2 = ps.length := by
  change (unpadLoop 0 (ps ++ 0 :: msg)).2 = ps.length
  rw [unpadLoop_append hps, (unpadLoop_zero msg).2, Nat.add_zero]

/-- The checks accept what is padded with eight bytes or more that are not zero. -/
theorem unpadCheck_iff {input : List Octet} (hlong : 2 ≤ input.length) (hshort : input.length < 2 ^ 31) :
    (unpadCheck input).1 = 0 ↔ ∃ ps msg, 8 ≤ ps.length ∧ (∀ b ∈ ps, b ≠ 0) ∧ input = pkcs1Encode ps msg := by
  obtain ⟨b₀, b₁, p, rfl⟩ : ∃ b₀ b₁ p, input = b₀ :: b₁ :: p := by
    match input, hlong with
    | b₀ :: b₁ :: p, _ => exact ⟨b₀, b₁, p, rfl⟩
  have hp : p.length < 2 ^ 31 := by
    simp only [List.length_cons] at hshort
    omega
  rw [unpadCheck_eq_zero hp]
  constructor
  · rintro ⟨rfl, rfl, hend, hpad⟩
    rcases nonzeros_split p with hall | ⟨ps, rest, hps, rfl⟩
    · have hloop := unpadLoop_append hall []
      rw [List.append_nil] at hloop
      rw [hloop] at hend
      exact absurd rfl hend
    · rw [unpadLoop_append hps, (unpadLoop_zero rest).2, Nat.add_zero] at hpad
      exact ⟨ps, rest, hpad, hps, rfl⟩
  · rintro ⟨ps, msg, hpad, hps, henc⟩
    obtain ⟨rfl, hrest⟩ := List.cons.inj henc
    obtain ⟨rfl, rfl⟩ := List.cons.inj hrest
    rw [unpadLoop_append hps, (unpadLoop_zero msg).2, Nat.add_zero]
    exact ⟨rfl, rfl, (unpadLoop_zero msg).1, hpad⟩

theorem pkcs1Encode_inj {ps qs a b : List Octet} (hps : ∀ c ∈ ps, c ≠ 0) (hqs : ∀ c ∈ qs, c ≠ 0)
    (h : pkcs1Encode ps a = pkcs1Encode qs b) : a = b :=
  (nonzeros_inj hps hqs (List.cons.inj (List.cons.inj h).2).2).2

theorem map_keep (l : List Octet) :
    (l.map fun b => (b.setWidth 32 &&& ~~~ctUintMask (0 ||| 0)).setWidth 8) = l := by
  have hone : ∀ b : Octet, (b.setWidth 32 &&& ~~~ctUintMask (0 ||| 0)).setWidth 8 = b := fun b => by
    rw [show ~~~ctUintMask (0 ||| 0) = BitVec.allOnes 32 by decide, BitVec.and_allOnes, setWidth_cancel]
  rw [List.map_congr_left fun b _ => hone b, List.map_id']

/-- What is accepted is the padding of the message that is handed out, where that has room. -/
theorem unpadding_eq_ok {input msg : List Octet} {outputMaxLen : Nat} (hlong : 11 ≤ input.length)
    (hshort : input.length < 2 ^ 31) :
    unpaddingResult (unpadding input outputMaxLen) = .ok msg ↔
      msg.length ≤ outputMaxLen ∧ ∃ ps, 8 ≤ ps.length ∧ (∀ b ∈ ps, b ≠ 0) ∧ input = pkcs1Encode ps msg := by
  have hcheck := unpadCheck_iff (by omega) hshort
  unfold unpadding
  dsimp only
  generalize hmax : (if input.length - 11 < outputMaxLen then input.length - 11 else outputMaxLen) = size
  have hsize : size ≤ outputMaxLen ∧ size ≤ input.length - 11 := by
    rw [← hmax]
    split <;> omega
  generalize hc : unpadCheck input = c at hcheck ⊢
  obtain ⟨bad, padCount⟩ := c
  dsimp only at hcheck ⊢
  by_cases hbad : bad = 0
  · obtain ⟨ps, rest, hpad, hps, rfl⟩ := hcheck.mp hbad
    have hcount := unpadCheck_encode hps rest
    rw [hc] at hcount
    dsimp only at hcount
    subst hbad hcount
    have hlen : (pkcs1Encode ps rest).length = ps.length + rest.length + 3 := by
      simp only [pkcs1Encode, List.length_cons, List.length_append]
      omega
    have hrest : BitVec.ofNat 32 (pkcs1Encode ps rest).length - BitVec.ofNat 32 ps.length - 3 =
        BitVec.ofNat 32 rest.length := by
      rw [hlen]
      apply BitVec.eq_of_toNat_eq
      rw [BitVec.toNat_sub, BitVec.toNat_sub]
      simp only [BitVec.toNat_ofNat, show (3 : BitVec 32).toNat = 3 from rfl]
      omega
    have hword : (BitVec.ofNat 32 rest.length).toNat = rest.length := by
      rw [BitVec.toNat_ofNat]
      omega
    rw [ctUintIf_eq 0, if_pos rfl, hrest, ctUintIf_eq 0, if_pos rfl, ctSizeGt_eq (by omega) (by omega)]
    by_cases hroom : size < rest.length
    · rw [if_pos hroom, ctUintIf_eq, if_neg (by decide)]
      refine ⟨fun habs => absurd habs (by simp [unpaddingResult]), ?_⟩
      rintro ⟨hmsg, qs, -, hqs, henc⟩
      obtain rfl := pkcs1Encode_inj hps hqs henc
      rw [← hmax] at hroom
      split at hroom <;> omega
    · have hpos : (pkcs1Encode ps rest).length - size + (size - rest.length) = ps.length + 3 := by omega
      have hdrop : (pkcs1Encode ps rest).drop (ps.length + 3) = rest := by
        rw [show ps.length + 3 = ps.length + 1 + 1 + 1 by omega, pkcs1Encode, List.drop_succ_cons, List.drop_succ_cons,
          List.drop_append, List.drop_of_length_le (by omega), List.nil_append, Nat.add_sub_cancel_left,
          List.drop_succ_cons, List.drop_zero]
      rw [if_neg hroom, map_keep, List.take_append_drop, ctUintIf_eq 0, if_pos rfl, ctUintIf_eq 0, if_pos rfl, hword,
        memMoveToLeft_eq (by rw [List.length_drop]; omega) (by rw [List.length_drop]; omega), List.drop_drop, hpos, hdrop,
        List.take_left' rfl, unpaddingResult, if_pos rfl]
      constructor
      · intro h
        have hmsg : rest = msg := Except.ok.inj h
        subst hmsg
        exact ⟨by omega, ps, hpad, hps, rfl⟩
      · rintro ⟨-, qs, -, hqs, henc⟩
        rw [pkcs1Encode_inj hps hqs henc]
  · rw [ctUintIf_eq bad 0x4100, if_neg hbad]
    refine ⟨fun habs => absurd habs (by simp [unpaddingResult]), ?_⟩
    rintro ⟨-, ps, hpad, hps, henc⟩
    exact absurd (hcheck.mpr ⟨ps, msg, hpad, hps, henc⟩) hbad

/-! ## Random bytes -/

/-- What `f_rng` writes for a length. -/
def fillBytes (len : Nat) (g : Rng) : Bool × List Octet × Rng :=
  ((g.draw g.used).1, (LittleEndian.pack len (g.draw g.used).2).reverse, { g with used := g.used + 1 })

/-- The inner loop of `mbedtls_rsa_rsaes_pkcs1_v15_encrypt`, with the tries left. -/
def nonzeroOctet : Nat → Rng → Except RsaError Octet × Rng
  | 0, g => (.error .rngFailed, g)
  | k + 1, g =>
    let (ok, bytes, g) := fillBytes 1 g
    if ok = false then (.error .rngFailed, g)
    else if bytes.headD 0 ≠ 0 then (.ok (bytes.headD 0), g)
    else nonzeroOctet k g

/-- The padding of so many bytes. -/
def padOctets : Nat → Rng → Except RsaError (List Octet) × Rng
  | 0, g => (.ok [], g)
  | n + 1, g =>
    match nonzeroOctet 100 g with
    | (.error e, g) => (.error e, g)
    | (.ok b, g) =>
      match padOctets n g with
      | (.error e, g) => (.error e, g)
      | (.ok ps, g) => (.ok (b :: ps), g)

theorem nonzeroOctet_ok {k : Nat} {g g' : Rng} {b : Octet} (h : nonzeroOctet k g = (.ok b, g')) : b ≠ 0 := by
  induction k generalizing g with
  | zero => cases h
  | succ k ih =>
    rw [nonzeroOctet] at h
    dsimp only at h
    split at h
    · cases h
    split at h
    · rename_i hb
      cases h
      exact hb
    · exact ih h

theorem padOctets_ok {n : Nat} {g g' : Rng} {ps : List Octet} (h : padOctets n g = (.ok ps, g')) :
    ps.length = n ∧ ∀ b ∈ ps, b ≠ 0 := by
  induction n generalizing g ps with
  | zero =>
    cases h
    exact ⟨rfl, by simp⟩
  | succ n ih =>
    rw [padOctets] at h
    split at h
    · cases h
    rename_i b g₁ hb
    split at h
    · cases h
    rename_i qs g₂ hqs
    cases h
    obtain ⟨hlen, hall⟩ := ih hqs
    exact ⟨by rw [List.length_cons, hlen], List.forall_mem_cons.mpr ⟨nonzeroOctet_ok hb, hall⟩⟩

/-- A source that delivers the numbers of a list. -/
def Rng.deliver (numbers : List Nat) (used : Nat) : Rng := ⟨fun k => (true, numbers.getD k 0), used⟩

theorem fillBytes_deliver (len : Nat) (numbers : List Nat) (used : Nat) :
    fillBytes len (Rng.deliver numbers used) =
      (true, (LittleEndian.pack len (numbers.getD used 0)).reverse, Rng.deliver numbers (used + 1)) := rfl

/-- Every padding is drawn by some source. -/
theorem padOctets_deliver (qs : List Nat) {ps : List Octet} (hps : ∀ b ∈ ps, b ≠ 0) :
    ∃ g, padOctets ps.length (Rng.deliver (qs ++ ps.map BitVec.toNat) qs.length) = (.ok ps, g) := by
  induction ps generalizing qs with
  | nil => exact ⟨_, rfl⟩
  | cons b ps ih =>
    rw [List.forall_mem_cons] at hps
    obtain ⟨g, hg⟩ := ih (qs ++ [b.toNat]) hps.2
    have hnext : qs ++ [b.toNat] ++ ps.map BitVec.toNat = qs ++ (b :: ps).map BitVec.toNat := by simp
    rw [hnext, List.length_append, List.length_singleton] at hg
    have hfirst : (qs ++ (b :: ps).map BitVec.toNat).getD qs.length 0 = b.toNat := by
      simp [List.getD_eq_getElem?_getD]
    have hpack : (LittleEndian.pack 1 b.toNat).reverse = [b] := by
      simp [LittleEndian.pack]
    have hdraw : nonzeroOctet 100 (Rng.deliver (qs ++ (b :: ps).map BitVec.toNat) qs.length) =
        (.ok b, Rng.deliver (qs ++ (b :: ps).map BitVec.toNat) (qs.length + 1)) := by
      rw [nonzeroOctet, fillBytes_deliver, hfirst, hpack]
      dsimp only
      rw [if_neg (by decide), if_pos (show [b].headD 0 ≠ 0 from hps.1)]
      rfl
    refine ⟨g, ?_⟩
    rw [List.length_cons, padOctets, hdraw]
    dsimp only
    rw [hg]

end WmIot.Rsa
