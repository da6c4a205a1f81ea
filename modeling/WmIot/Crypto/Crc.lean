import WmIot.Crypto.Gpsec
import WmIot.Lib.CrcRegister

/-!
# The CRC of a concatenation

The driver keeps the state of a context in the form in which the engine shows it, and turns it back into
that of the register before each run. The register is that of a CRC of the width of its type; the
polynomials are parameters.
-/

namespace WmIot.Crc
open Crypto CrcRegister
set_option autoImplicit false

/-- How an update finds the mutex and the engine: `polls` is how often the flag is read before it is up,
and `partway` what the register shows until then. -/
structure Env where
  acquired : Bool
  released : Bool
  polls : Nat
  partway : UInt32
deriving DecidableEq, Repr

/-- The flag is not up when the polling ends. -/
def Env.timesOut (e : Env) : Bool := decide (0xFFFF < e.polls)

section Engine
variable (poly : (t : CrcType) → BitVec t.bits)

/-- What the engine shows of its register after a run. -/
def engineRun (cfg : CrcCfg) (register : UInt32) (data : List UInt8) : UInt32 :=
  let bytes := data.map fun b => view cfg.inReverse b.toBitVec
  ⟨(view cfg.outReverse (run (poly cfg.type) (register.toBitVec.setWidth cfg.type.bits) bytes)).setWidth 32⟩

/-- `wm_hal_crc_update`; that the time is over is only logged. -/
def halCrcUpdate (e : Env) (cfg : CrcCfg) (data : List UInt8) : Err × CrcCfg :=
  if data.length = 0 ∨ 65532 < data.length then (.invalidParam, cfg)
  else
    let register := crcValue cfg
    (.success, { cfg with state := if e.timesOut then e.partway else engineRun poly cfg register data })

/-- The contexts, and the configuration that the driver copies them to. -/
structure Sys where
  ctx : Nat → CrcCfg
  hal : CrcCfg

def Sys.set (s : Sys) (c : Nat) (cfg : CrcCfg) : Sys := { s with ctx := Function.update s.ctx c cfg }

/-- `wm_w800_drv_crc_cfg` -/
def crcCfg (s : Sys) (c : Nat) (state : UInt32) (type : CrcType) (outReverse inReverse : Bool) : Err × Sys :=
  (.success, s.set c ⟨state, type, outReverse, inReverse⟩)

/-- `wm_w800_drv_crc_update` -/
def crcUpdate (e : Env) (s : Sys) (c : Nat) (data : List UInt8) : Err × Sys :=
  if !e.acquired then (.failed, s)
  else
    let (ret, hal) := halCrcUpdate poly e (s.ctx c) data
    let s := { s with hal := hal }
    let s := s.set c { s.ctx c with state := hal.state }
    if !e.released then (.failed, s) else (ret, s)

/-- `wm_w800_drv_crc_final` -/
def crcFinal (s : Sys) (c : Nat) : Err × UInt32 := (.success, (s.ctx c).state)

/-- The calls on a context. -/
inductive Call where
  | cfg (c : Nat) (state : UInt32) (type : CrcType) (outReverse inReverse : Bool)
  | update (c : Nat) (data : List UInt8) (e : Env)
  | final (c : Nat)
deriving DecidableEq, Repr

def Call.ctx : Call → Nat
  | .cfg c _ _ _ _ => c
  | .update c _ _ => c
  | .final c => c

def Call.run (s : Sys) : Call → Err × Sys
  | .cfg c state type outReverse inReverse => crcCfg s c state type outReverse inReverse
  | .update c data e => crcUpdate poly e s c data
  | .final c => ((crcFinal s c).1, s)

def runCalls (s : Sys) (calls : List Call) : Sys := calls.foldl (fun s call => (call.run poly s).2) s

/-- The engine is started, and its run times out. -/
def Call.timesOut : Call → Bool
  | .update _ data e => e.acquired && decide (data.length ≠ 0 ∧ data.length ≤ 65532) && e.timesOut
  | _ => false

/-- The mutex is released after the run. -/
def Call.released : Call → Bool
  | .update _ _ e => e.released
  | _ => true

end Engine

/-! ## The two forms of the state -/

theorem and_one_eq (x : UInt32) : x &&& 1 = 1 ↔ x.toBitVec.getLsbD 0 = true := by
  rw [← UInt32.toBitVec_inj, UInt32.toBitVec_and]
  constructor
  · intro h
    have hbit := congrArg (fun v : BitVec 32 => v.getLsbD 0) h
    simpa using hbit
  · intro h
    apply BitVec.eq_of_getLsbD_eq
    intro i hi
    cases i with
    | zero => simpa using h
    | succ i => simp [BitVec.getLsbD_one]

theorem getLsbD_reverseNum (n : Nat) : ∀ (num ret : UInt32) (j : Nat), n ≤ 32 →
    (reverseNum n num ret).toBitVec.getLsbD j =
      (ret.toBitVec.getLsbD j || (decide (j < n) && num.toBitVec.getLsbD (n - 1 - j))) := by
  induction n with
  | zero => simp [reverseNum]
  | succ n ih =>
    intro num ret j hn
    have hmod : (UInt32.ofNat n).toBitVec % 32 = BitVec.ofNat 32 n := by
      apply BitVec.eq_of_toNat_eq
      rw [BitVec.toNat_umod, UInt32.toNat_toBitVec, UInt32.toNat_ofNat', BitVec.toNat_ofNat,
        show BitVec.toNat (32 : BitVec 32) = 32 from rfl]
      omega
    have hset : (ret ||| 1 <<< UInt32.ofNat n).toBitVec.getLsbD j = (ret.toBitVec.getLsbD j || decide (j = n)) := by
      rw [UInt32.toBitVec_or, BitVec.getLsbD_or, UInt32.toBitVec_shiftLeft, hmod]
      simp only [BitVec.shiftLeft_eq', BitVec.toNat_ofNat, BitVec.getLsbD_shiftLeft]
      rw [Nat.mod_eq_of_lt (by omega)]
      congr 1
      rw [show (1 : UInt32).toBitVec = 1#32 from rfl, BitVec.getLsbD_one]
      by_cases hj : j = n
      · simp [hj, show n < 32 by omega]
      · by_cases hlt : j < n
        · simp [hlt, hj]
        · simp [hj, show ¬ (j - n = 0) by omega]
    have hshift : ∀ i, (num >>> 1).toBitVec.getLsbD i = num.toBitVec.getLsbD (1 + i) := fun i => by
      rw [UInt32.toBitVec_shiftRight]
      exact BitVec.getLsbD_ushiftRight _ _ _
    have hbit := and_one_eq num
    rw [reverseNum, ih _ _ _ (by omega), hshift]
    by_cases hj : j < n
    · rw [show 1 + (n - 1 - j) = n + 1 - 1 - j by omega]
      split
      · rw [hset]
        simp [hj, Nat.ne_of_lt hj, show j < n + 1 by omega]
      · simp [hj, show j < n + 1 by omega]
    · by_cases heq : j = n
      · subst heq
        split
        next h => rw [hset]; simp [hbit.mp h]
        next h =>
          have hzero : num.toBitVec.getLsbD 0 = false := Bool.eq_false_iff.mpr (mt hbit.mpr h)
          rw [show j + 1 - 1 - j = 0 by omega, hzero]
          simp
      · split
        · rw [hset]
          simp [hj, heq, show ¬ j < n + 1 by omega]
        · simp [hj, show ¬ j < n + 1 by omega]

/-- A value of the width of a type. -/
def shown {w : Nat} (v : BitVec w) : UInt32 := ⟨v.setWidth 32⟩

theorem bits_le (t : CrcType) : t.bits ≤ 32 := by cases t <;> decide

@[simp] theorem setWidth_shown {w : Nat} (hw : w ≤ 32) (v : BitVec w) : (shown v).toBitVec.setWidth w = v :=
  BitVec.setWidth_setWidth_of_le _ hw |>.trans (BitVec.setWidth_eq _)

theorem reverseNum_shown {w : Nat} (hw : w ≤ 32) (v : BitVec w) : reverseNum w (shown v) 0 = shown v.reverse := by
  apply UInt32.toBitVec_inj.mp
  apply BitVec.eq_of_getLsbD_eq
  intro j hj
  rw [getLsbD_reverseNum w _ _ _ hw]
  simp only [shown, BitVec.getLsbD_setWidth, BitVec.getLsbD_reverse, BitVec.getMsbD]
  by_cases hlt : j < w
  · simp [hlt, hj, show w - 1 - j < 32 by omega]
  · simp [hlt]

/-- The software gives the register what the engine had in it. -/
theorem crcValue_shown {cfg : CrcCfg} {v : BitVec cfg.type.bits} (h : cfg.state = shown v) :
    crcValue cfg = shown (view cfg.outReverse v) := by
  rw [crcValue, view]
  cases cfg.outReverse with
  | false => exact h
  | true =>
    rw [if_pos rfl, if_pos rfl, h]
    exact reverseNum_shown (bits_le _) v

section Engine
variable (poly : (t : CrcType) → BitVec t.bits)

/-- The remainder after a string, from a value as it is shown to another. -/
def advance (t : CrcType) (outReverse inReverse : Bool) (v : BitVec t.bits) (data : List UInt8) : BitVec t.bits :=
  view outReverse (run (poly t) (view outReverse v) (data.map fun b => view inReverse b.toBitVec))

theorem advance_append (t : CrcType) (outReverse inReverse : Bool) (v : BitVec t.bits) (a b : List UInt8) :
    advance poly t outReverse inReverse v (a ++ b) =
      advance poly t outReverse inReverse (advance poly t outReverse inReverse v a) b := by
  rw [advance, advance, advance, view_view, List.map_append, run_append]

theorem engineRun_shown (t : CrcType) (outReverse inReverse : Bool) (v : BitVec t.bits) (data : List UInt8) :
    engineRun poly ⟨shown v, t, outReverse, inReverse⟩ (crcValue ⟨shown v, t, outReverse, inReverse⟩) data =
      shown (advance poly t outReverse inReverse v data) := by
  have hvalue := @crcValue_shown ⟨shown v, t, outReverse, inReverse⟩ v rfl
  rw [engineRun, hvalue, setWidth_shown (bits_le _)]
  rfl

/-! ## Runs -/

/-- Each call with what it returns. -/
def results : Sys → List Call → List (Call × Err)
  | _, [] => []
  | s, call :: calls => (call, (call.run poly s).1) :: results (call.run poly s).2 calls

/-- What a call returns, whatever the state. -/
def Call.ret : Call → Err
  | .update _ data e =>
    if !e.acquired then .failed
    else if !e.released then .failed
    else if data.length = 0 ∨ 65532 < data.length then .invalidParam
    else .success
  | _ => .success

theorem run_ret (s : Sys) (call : Call) : (call.run poly s).1 = call.ret := by
  cases call with
  | cfg => rfl
  | final => rfl
  | update c data e =>
    simp only [Call.run, crcUpdate, halCrcUpdate, Call.ret]
    split
    · rfl
    · split <;> split <;> rfl

theorem results_eq (calls : List Call) : ∀ s, results poly s calls = calls.map fun call => (call, call.ret) := by
  induction calls with
  | nil => exact fun _ => rfl
  | cons call calls ih => exact fun s => by rw [results, run_ret, ih, List.map_cons]

theorem run_others {call : Call} {c : Nat} (h : call.ctx ≠ c) (s : Sys) : (call.run poly s).2.ctx c = s.ctx c := by
  cases call with
  | cfg => exact Function.update_of_ne h.symm _ _
  | final => rfl
  | update c' data e =>
    simp only [Call.run, crcUpdate]
    split
    · rfl
    · split <;> exact Function.update_of_ne h.symm _ _

theorem runCalls_others {calls : List Call} {c : Nat} (h : ∀ call ∈ calls, call.ctx ≠ c) (s : Sys) :
    (runCalls poly s calls).ctx c = s.ctx c := by
  induction calls generalizing s with
  | nil => rfl
  | cons call calls ih =>
    exact (ih (fun call' hm => h call' (List.mem_cons_of_mem _ hm)) _).trans
      (run_others poly (h call List.mem_cons_self) s)

/-- An update that succeeds and does not time out advances its context. -/
theorem update_advances {c : Nat} {data : List UInt8} {e : Env} (hret : (Call.update c data e).ret = .success)
    (htime : (Call.update c data e).timesOut = false) {s : Sys} {t : CrcType} {o i : Bool} {v : BitVec t.bits}
    (hctx : s.ctx c = ⟨shown v, t, o, i⟩) :
    ((Call.update c data e).run poly s).2.ctx c = ⟨shown (advance poly t o i v data), t, o, i⟩ := by
  simp only [Call.ret] at hret
  split at hret
  · cases hret
  next hacq =>
    split at hret
    · cases hret
    next hrel =>
      split at hret
      · cases hret
      next hlen =>
        have hout : e.timesOut = false := by
          simp only [Bool.not_eq_true', Bool.not_eq_false] at hacq
          simp only [not_or, Nat.not_lt] at hlen
          simpa [Call.timesOut, hacq, hlen] using htime
        rw [Call.run, crcUpdate, if_neg hacq, halCrcUpdate, if_neg hlen, hctx]
        dsimp only
        rw [if_neg hrel, hout, if_neg Bool.false_ne_true, engineRun_shown]
        simp [Sys.set, hctx]

/-- A CRC in two updates, with other calls before, between and after them. -/
structure Split where
  c : Nat
  state : UInt32
  type : CrcType
  outReverse : Bool
  inReverse : Bool
  a : List UInt8
  b : List UInt8
  others : List Call × List Call × List Call
  envs : Env × Env
  /-- those of the run with one update -/
  others' : List Call × List Call
  env' : Env

namespace Split
variable (p : Split)

/-- `crc_cfg`, `update(a)`, `update(b)` -/
def inTwo : List Call :=
  .cfg p.c p.state p.type p.outReverse p.inReverse :: p.others.1 ++ .update p.c p.a p.envs.1 :: p.others.2.1 ++
    .update p.c p.b p.envs.2 :: p.others.2.2

/-- `crc_cfg`, `update(a ++ b)` -/
def atOnce : List Call :=
  .cfg p.c p.state p.type p.outReverse p.inReverse :: p.others'.1 ++ .update p.c (p.a ++ p.b) p.env' :: p.others'.2

/-- The state is within the width, one update takes both strings, and the other calls are on other contexts. -/
structure Fits : Prop where
  state : p.state.toNat < 2 ^ p.type.bits
  nonempty : p.a ≠ [] ∧ p.b ≠ []
  length : p.a.length + p.b.length ≤ 65532
  others : ∀ call ∈ p.others.1 ++ p.others.2.1 ++ p.others.2.2 ++ p.others'.1 ++ p.others'.2, call.ctx ≠ p.c

/-- No call succeeds whose run of the engine times out. -/
def Reported (s s' : Sys) : Prop :=
  ∀ r ∈ results poly s p.inTwo ++ results poly s' p.atOnce, r.1.timesOut = true → r.2 ≠ .success

/-- When the calls on the context succeed, both runs give one value. -/
def Agree (s s' : Sys) : Prop :=
  (∀ r ∈ results poly s p.inTwo ++ results poly s' p.atOnce, r.1.ctx = p.c → r.2 = .success) →
    crcFinal (runCalls poly s p.inTwo) p.c = crcFinal (runCalls poly s' p.atOnce) p.c

end Split

/-- Where no update of the context times out, the values are those of the strings after each other. -/
theorem Split.agree {p : Split} (h : p.Fits)
    (htime : ∀ call ∈ p.inTwo ++ p.atOnce, call.ret = .success → call.timesOut = false) (s s' : Sys) :
    p.Agree poly s s' := by
  intro hok
  rw [results_eq, results_eq, ← List.map_append] at hok
  have hupdate : ∀ call ∈ p.inTwo ++ p.atOnce, call.ctx = p.c → call.ret = .success ∧ call.timesOut = false :=
    fun call hm hc =>
      have hret := hok _ (List.mem_map_of_mem hm) hc
      ⟨hret, htime call hm hret⟩
  have hoth := h.others
  simp only [List.mem_append] at hoth
  have hstate : p.state = shown (p.state.toBitVec.setWidth p.type.bits) := by
    apply UInt32.toBitVec_inj.mp
    apply BitVec.eq_of_toNat_eq
    have hle := Nat.pow_le_pow_right (show 0 < 2 by decide) (bits_le p.type)
    rw [shown, BitVec.toNat_setWidth, BitVec.toNat_setWidth, UInt32.toNat_toBitVec, Nat.mod_eq_of_lt h.state,
      Nat.mod_eq_of_lt (h.state.trans_le hle)]
  generalize p.state.toBitVec.setWidth p.type.bits = v at hstate
  have hcfg : ∀ s : Sys, (Call.run poly s (.cfg p.c p.state p.type p.outReverse p.inReverse)).2.ctx p.c =
      ⟨shown v, p.type, p.outReverse, p.inReverse⟩ := fun s => by
    rw [← hstate]
    exact Function.update_self _ _ _
  have hkeep : ∀ {calls : List Call}, (∀ call ∈ calls, call.ctx ≠ p.c) → ∀ {s : Sys} {w : CrcCfg}, s.ctx p.c = w →
      (runCalls poly s calls).ctx p.c = w := fun hcalls _ _ hs => (runCalls_others poly hcalls _).trans hs
  obtain ⟨ha, hta⟩ := hupdate (.update p.c p.a p.envs.1) (by simp [Split.inTwo]) rfl
  obtain ⟨hb, htb⟩ := hupdate (.update p.c p.b p.envs.2) (by simp [Split.inTwo]) rfl
  obtain ⟨hab, htab⟩ := hupdate (.update p.c (p.a ++ p.b) p.env') (by simp [Split.atOnce]) rfl
  have hcut : ∀ (s : Sys) (pre : List Call) (call : Call) (rest : List Call),
      runCalls poly s (pre ++ call :: rest) = runCalls poly (call.run poly (runCalls poly s pre)).2 rest :=
    fun s pre call rest => List.foldl_append
  have hcons : ∀ (s : Sys) (call : Call) (rest : List Call),
      runCalls poly s (call :: rest) = runCalls poly (call.run poly s).2 rest := fun _ _ _ => rfl
  -- the state after each update, through the calls on other contexts
  have htwo : (runCalls poly s p.inTwo).ctx p.c = ⟨shown (advance poly p.type p.outReverse p.inReverse
      (advance poly p.type p.outReverse p.inReverse v p.a) p.b), p.type, p.outReverse, p.inReverse⟩ := by
    rw [Split.inTwo, hcut, hcut, hcons]
    apply hkeep fun call hm => hoth call (by simp [hm])
    apply update_advances poly hb htb
    apply hkeep fun call hm => hoth call (by simp [hm])
    apply update_advances poly ha hta
    exact hkeep (fun call hm => hoth call (by simp [hm])) (hcfg _)
  have honce : (runCalls poly s' p.atOnce).ctx p.c = ⟨shown (advance poly p.type p.outReverse p.inReverse v
      (p.a ++ p.b)), p.type, p.outReverse, p.inReverse⟩ := by
    rw [Split.atOnce, hcut, hcons]
    apply hkeep fun call hm => hoth call (by simp [hm])
    apply update_advances poly hab htab
    exact hkeep (fun call hm => hoth call (by simp [hm])) (hcfg _)
  rw [crcFinal, crcFinal, htwo, honce, advance_append]

/-- An update that is started and not heard of again returns success unless the mutex is not released. -/
theorem timesOut_ret {call : Call} (h : call.timesOut = true) :
    call.ret = if call.released then .success else .failed := by
  cases call with
  | cfg => cases h
  | final => cases h
  | update c data e =>
    simp only [Call.timesOut, Bool.and_eq_true, decide_eq_true_eq] at h
    obtain ⟨⟨hacq, hlen⟩, _⟩ := h
    rw [Call.ret, hacq, if_neg (by decide), Call.released, if_neg (by omega : ¬ (data.length = 0 ∨ _))]
    cases e.released <;> rfl

/-- Both strings after each other have the CRC of their concatenation, and no time-out is taken for success,
exactly when the mutex is not released after any run of the engine that times out. -/
theorem concat_iff {p : Split} (h : p.Fits) (s s' : Sys) :
    p.Reported poly s s' ∧ p.Agree poly s s' ↔
      ∀ call ∈ p.inTwo ++ p.atOnce, call.timesOut = true → call.released = false := by
  have hresults : ∀ call ∈ p.inTwo ++ p.atOnce,
      (call, call.ret) ∈ results poly s p.inTwo ++ results poly s' p.atOnce := fun call hm => by
    rw [results_eq, results_eq, ← List.map_append]
    exact List.mem_map_of_mem hm
  constructor
  · intro hlaw call hm htime
    have hret := hlaw.1 _ (hresults call hm) htime
    rw [timesOut_ret htime] at hret
    cases hrel : call.released with
    | false => rfl
    | true => exact absurd (if_pos hrel) hret
  · intro hcond
    have hsuccess : ∀ call ∈ p.inTwo ++ p.atOnce, call.timesOut = true → call.ret ≠ .success :=
      fun call hm htime => by
        rw [timesOut_ret htime, hcond call hm htime]
        decide
    refine ⟨fun r hr htime => ?_, Split.agree poly h (fun call hm hret => ?_) s s'⟩
    · rw [results_eq, results_eq, ← List.map_append] at hr
      obtain ⟨call, hm, rfl⟩ := List.mem_map.mp hr
      exact hsuccess call hm htime
    · exact Bool.eq_false_iff.mpr fun htime => hsuccess call hm htime hret

end Engine

/-! ## A run that times out -/

def standardPoly : (t : CrcType) → BitVec t.bits
  | .crc8 => 0x07#8
  | .crc16Modbus => 0x8005#16
  | .crc16Ccitt => 0x1021#16
  | .crc32 => 0x04C11DB7#32

/-- CRC32 of two bytes, with a CRC8 on another context in between; the first flag is up after `polls` readings. -/
def twoBytes (polls : Nat) : Split where
  c := 0
  state := 0xFFFFFFFF
  type := .crc32
  outReverse := true
  inReverse := true
  a := [0x31]
  b := [0x32]
  others := ([], [.cfg 1 0 .crc8 false false, .update 1 [0x33] ⟨true, true, 3, 0⟩], [])
  envs := (⟨true, true, polls, 0⟩, ⟨true, true, 3, 0⟩)
  others' := ([], [])
  env' := ⟨true, true, 3, 0⟩

theorem twoBytes_fits (polls : Nat) : (twoBytes polls).Fits where
  state := show (0xFFFFFFFF : UInt32).toNat < 2 ^ 32 by decide
  nonempty := ⟨List.cons_ne_nil _ _, List.cons_ne_nil _ _⟩
  length := show 1 + 1 ≤ 65532 by decide
  others call hm := by
    simp only [twoBytes, List.mem_append, List.mem_cons, List.not_mem_nil, or_false, false_or] at hm
    rcases hm with rfl | rfl <;> exact Nat.one_ne_zero

def blankSys : Sys := ⟨fun _ => ⟨0, .crc8, false, false⟩, ⟨0, .crc8, false, false⟩⟩

theorem concat_iff_twoBytes : (twoBytes 3).Fits ∧
    ((twoBytes 3).Reported standardPoly blankSys blankSys ∧ (twoBytes 3).Agree standardPoly blankSys blankSys) :=
  ⟨twoBytes_fits 3, (concat_iff standardPoly (twoBytes_fits 3) blankSys blankSys).mpr (by decide)⟩

/-- The time of the first run is over, and its update returns success. -/
theorem not_reported_timeout : ¬ (∀ (poly : (t : CrcType) → BitVec t.bits) (p : Split) (s s' : Sys), p.Fits →
    p.Reported poly s s' ∧ p.Agree poly s s') := by
  intro h
  have hlate := (h standardPoly (twoBytes 65536) blankSys blankSys (twoBytes_fits 65536)).1
    (.update 0 [0x31] ⟨true, true, 65536, 0⟩, .success)
  rw [results_eq] at hlate
  exact hlate (by simp [twoBytes, Split.inTwo, Call.ret]) (by decide) rfl

end WmIot.Crc
