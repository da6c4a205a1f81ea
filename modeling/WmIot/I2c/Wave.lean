import WmIot.I2c.Soft

/-!
# What the pins do

Each helper takes the pins from where the last one left them. A byte that is acknowledged ends with a
STOP: SDA becomes an output, which is high, before SCL falls. And `i2c_read` ends without one.
-/

namespace WmIot.I2c
open I2cBus
set_option autoImplicit false

/-- Where the pins are, and what was seen of them. -/
structure At (s : World) (slave : Nat → Bool) (scl sda input heard : Bool) (pos : Nat) (bus : Bus) :
    Prop where
  slave : s.slave = slave
  scl : s.scl = scl
  sda : s.sda = sda
  input : s.input = input
  heard : s.heard = heard
  pos : s.pos = pos
  bus : s.bus = bus

/-- Both pins are outputs, and the slave sees their levels. -/
def Out (s : World) (slave : Nat → Bool) (scl sda clean : Bool) (pos : Nat) (symbols : List Sym) : Prop :=
  At s slave scl sda false false pos ⟨scl, sda, clean, symbols⟩

section Pins
variable {s : World} {slave : Nat → Bool} {scl sda clean heard : Bool} {pos : Nat} {bus : Bus}
  {symbols : List Sym}

theorem emit_bus (s : World) : (emit s).bus = s.bus.see s.scl s.level := by
  unfold World.bus emit
  rw [List.foldl_append]
  rfl

theorem setScl_out (h : At s slave scl sda false false pos bus) (v : Bool) :
    At (setScl v s) slave v sda false false pos (bus.see v sda) := by
  have hlevel : World.level { s with scl := v } = sda := by
    unfold World.level
    rw [h.input, if_neg Bool.false_ne_true, h.sda]
  have hstay : ¬ (v = false ∧ (emit { s with scl := v }).heard = true) := fun hfall => by
    have hheard : s.heard = true := hfall.2
    rw [h.heard] at hheard
    cases hheard
  unfold setScl
  rw [if_neg hstay]
  refine ⟨h.slave, rfl, h.sda, h.input, h.heard, h.pos, ?_⟩
  rw [emit_bus, hlevel]
  exact congrArg (fun b => Bus.see b v sda) h.bus

theorem setSda_out (h : At s slave scl sda false false pos bus) (v : Bool) :
    At (setSda v s) slave scl v false false pos (bus.see scl v) := by
  have hlevel : World.level { s with sda := v } = v := by
    unfold World.level
    rw [h.input, if_neg Bool.false_ne_true]
  refine ⟨h.slave, h.scl, rfl, h.input, h.heard, h.pos, ?_⟩
  unfold setSda
  rw [emit_bus, hlevel, h.scl]
  exact congrArg (fun b => Bus.see b scl v) h.bus

/-- SDA becomes an input. -/
theorem setDir_in (h : At s slave scl sda false false pos bus) :
    At (setDir true s) slave scl sda true false pos (bus.see scl (slave pos)) := by
  have hlevel : World.level { s with input := true } = slave pos := by
    unfold World.level
    rw [if_pos rfl, h.slave, h.pos]
  refine ⟨h.slave, h.scl, h.sda, rfl, h.heard, h.pos, ?_⟩
  unfold setDir
  rw [emit_bus, hlevel, h.scl]
  exact congrArg (fun b => Bus.see b scl (slave pos)) h.bus

/-- SDA becomes an output. -/
theorem setDir_out (h : At s slave scl sda true heard pos bus) :
    At (setDir false s) slave scl sda false heard pos (bus.see scl sda) := by
  have hlevel : World.level { s with input := false } = sda := by
    unfold World.level
    rw [if_neg Bool.false_ne_true, h.sda]
  refine ⟨h.slave, h.scl, h.sda, rfl, h.heard, h.pos, ?_⟩
  unfold setDir
  rw [emit_bus, hlevel, h.scl]
  exact congrArg (fun b => Bus.see b scl sda) h.bus

theorem setScl_rise (h : At s slave scl sda true false pos bus) :
    At (setScl true s) slave true sda true false pos (bus.see true (slave pos)) := by
  have hlevel : World.level { s with scl := true } = slave pos := by
    unfold World.level
    rw [h.input, if_pos rfl, h.slave, h.pos]
  unfold setScl
  rw [if_neg (fun hfall => Bool.false_ne_true hfall.1.symm)]
  refine ⟨h.slave, rfl, h.sda, h.input, h.heard, h.pos, ?_⟩
  rw [emit_bus, hlevel]
  exact congrArg (fun b => Bus.see b true (slave pos)) h.bus

theorem getSda_in (h : At s slave scl sda true false pos bus) :
    (getSda s).1 = slave pos ∧ At (getSda s).2 slave scl sda true true pos bus := by
  refine ⟨?_, h.slave, h.scl, h.sda, h.input, rfl, h.pos, h.bus⟩
  unfold getSda World.level
  dsimp only
  rw [h.input, if_pos rfl, h.slave, h.pos]

/-- SCL falls after the slave's bit was read. -/
theorem setScl_fall {input : Bool} (h : At s slave scl sda input true pos bus) :
    At (setScl false s) slave false sda input false (pos + 1)
      ((bus.see false (if input then slave pos else sda)).see false
        (if input then slave (pos + 1) else sda)) := by
  have hlevel : World.level { s with scl := false } = if input then slave pos else sda := by
    unfold World.level
    dsimp only
    rw [h.input, h.slave, h.pos, h.sda]
  obtain ⟨t, ht⟩ : ∃ t, t = emit { s with scl := false } := ⟨_, rfl⟩
  have hbus : t.bus = bus.see false (if input then slave pos else sda) := by
    rw [ht, emit_bus, hlevel]
    exact congrArg (fun b => Bus.see b false (if input then slave pos else sda)) h.bus
  have hat : At t slave false sda input true pos (bus.see false (if input then slave pos else sda)) := by
    subst ht
    exact ⟨h.slave, rfl, h.sda, h.input, h.heard, h.pos, hbus⟩
  have hnext : World.level { t with heard := false, pos := t.pos + 1 } =
      if input then slave (pos + 1) else sda := by
    unfold World.level
    dsimp only
    rw [hat.input, hat.slave, hat.pos, hat.sda]
  unfold setScl
  rw [← ht, if_pos ⟨rfl, hat.heard⟩]
  refine ⟨hat.slave, hat.scl, hat.sda, hat.input, rfl, congrArg (· + 1) hat.pos, ?_⟩
  rw [emit_bus, hnext]
  have hscl : World.scl { t with heard := false, pos := t.pos + 1 } = false := hat.scl
  rw [hscl]
  exact congrArg (fun b => Bus.see b false (if input then slave (pos + 1) else sda)) hat.bus

theorem idle_out (slave : Nat → Bool) : Out (idle slave) slave true true false 0 [] :=
  ⟨rfl, rfl, rfl, rfl, rfl, rfl, rfl⟩

/-- A START from the idle bus, or with SCL low. -/
theorem start_out (h : Out s slave scl true false pos symbols) :
    Out (start s) slave true false false pos (symbols ++ [.start]) := by
  have h₁ := setScl_out h true
  have h₂ := setSda_out h₁ true
  have h₃ := setSda_out h₂ false
  cases scl with
  | true => exact h₃
  | false => exact h₃

theorem stop_out (h : Out s slave false sda clean pos symbols) :
    Out (stop s) slave true true false pos (symbols ++ [.stop]) := by
  have h₁ := setScl_out h false
  have h₂ := setSda_out h₁ false
  have h₃ := setScl_out h₂ true
  have h₄ := setSda_out h₃ true
  exact h₄

/-- The clock pulse that is over when SCL falls. -/
def pulse (scl sda clean : Bool) : List Sym := if scl && clean then [.bit sda] else []

theorem fall_out (h : Out s slave scl sda clean pos symbols) :
    Out (setScl false s) slave false sda false pos (symbols ++ pulse scl sda clean) := by
  have hfall := setScl_out h false
  cases scl with
  | true =>
    cases clean with
    | true => exact hfall
    | false => exact hfall
  | false =>
    unfold pulse
    rw [Bool.false_and, if_neg Bool.false_ne_true, List.append_nil]
    exact hfall

/-- A bit of a byte that is written: SCL stays high until the next begins. -/
theorem writeBit_out (h : Out s slave scl sda clean pos symbols) (bit : Bool) :
    Out (setScl true (setSda bit (setScl false s))) slave true bit true pos
      (symbols ++ pulse scl sda clean) := by
  have h₂ := setSda_out (fall_out h) bit
  exact setScl_out h₂ true

/-- The bits below a place. -/
def bitsBelow (data : UInt8) : Nat → List Bool
  | 0 => []
  | i + 1 => data.toNat.testBit i :: bitsBelow data i

theorem writeBits_out (data : UInt8) (n : Nat) : ∀ {s : World} {scl sda clean : Bool} {symbols : List Sym},
    Out s slave scl sda clean pos symbols → ∃ scl' sda' clean' symbols',
      Out (writeBits data n s) slave scl' sda' clean' pos symbols' ∧
        symbols' ++ pulse scl' sda' clean' =
          symbols ++ pulse scl sda clean ++ (bitsBelow data n).map .bit := by
  induction n with
  | zero =>
    intro s scl sda clean symbols h
    exact ⟨scl, sda, clean, symbols, h, (List.append_nil _).symm⟩
  | succ n ih =>
    intro s scl sda clean symbols h
    obtain ⟨scl', sda', clean', symbols', hout, heq⟩ := ih (writeBit_out h (data.toNat.testBit n))
    refine ⟨scl', sda', clean', symbols', hout, heq.trans ?_⟩
    simp only [pulse, bitsBelow, Bool.and_self, if_true, List.map_cons, List.append_assoc,
      List.singleton_append]

/-- What is seen instead of an acknowledgement. -/
def slot (nack : Bool) : Sym := if nack then .bit true else .stop

theorem writeByte_out (h : Out s slave scl sda clean pos symbols) (data : UInt8) :
    (writeByte data s).1 = (if slave pos then .failed else .success) ∧
      Out (writeByte data s).2 slave false true false (pos + 1)
        (symbols ++ pulse scl sda clean ++ ((bits data).map .bit ++ [slot (slave pos)])) := by
  obtain ⟨scl', sda', clean', symbols', hbits, heq⟩ := writeBits_out data 8 h
  have h₁ := setSda_out (fall_out hbits) true
  have h₂ := setScl_rise (setDir_in h₁)
  obtain ⟨hget, h₃⟩ := getSda_in h₂
  have h₄ := setScl_fall (setDir_out h₃)
  have hsymbols : symbols ++ pulse scl sda clean ++ ((bits data).map .bit ++ [slot (slave pos)]) =
      symbols' ++ pulse scl' sda' clean' ++ [slot (slave pos)] := by
    rw [heq, ← List.append_assoc]
    rfl
  rw [hsymbols]
  unfold writeByte
  dsimp only
  rw [hget]
  refine ⟨rfl, ?_⟩
  -- SDA goes from the slave's level to its own while SCL is high
  cases hbit : slave pos with
  | true =>
    rw [hbit] at h₄
    exact h₄
  | false =>
    rw [hbit] at h₄
    simpa [Out, Bus.see, slot] using h₄

/-- What is seen of bytes that are written. -/
def wire (slave : Nat → Bool) : Nat → List UInt8 → List Sym
  | _, [] => []
  | p, b :: data => (bits b).map .bit ++ slot (slave p) :: wire slave (p + 1) data

theorem writeData_out (data : List UInt8) : ∀ {s : World} {pos : Nat} {symbols : List Sym} (ret : Err),
    Out s slave false true false pos symbols →
      Out (writeData data ret s).2 slave false true false (pos + data.length)
        (symbols ++ wire slave pos data) := by
  induction data with
  | nil =>
    intro s pos symbols ret h
    rw [wire, List.append_nil]
    exact h
  | cons b data ih =>
    intro s pos symbols ret h
    obtain ⟨-, hbyte⟩ := writeByte_out h b
    have hrest := ih (if (writeByte b s).1 = .success then ret else .failed) hbyte
    have hlen : pos + 1 + data.length = pos + (b :: data).length := by
      rw [List.length_cons]
      omega
    have hsymbols : symbols ++ pulse false true false ++ ((bits b).map .bit ++ [slot (slave pos)]) ++
        wire slave (pos + 1) data = symbols ++ wire slave pos (b :: data) := by
      simp only [pulse, wire, Bool.false_and, Bool.false_eq_true, if_false, List.append_nil,
        List.append_assoc, List.singleton_append]
    rw [hlen, hsymbols] at hrest
    exact hrest

/-! ## Reading -/

/-- SDA is an input, and SCL is low. -/
def Listening (s : World) (slave : Nat → Bool) (sda : Bool) (pos : Nat) (symbols : List Sym) : Prop :=
  At s slave false sda true false pos ⟨false, slave pos, false, symbols⟩

theorem readBits_out (n : Nat) : ∀ {s : World} {pos : Nat} {symbols : List Sym} (ret : UInt8),
    Listening s slave sda pos symbols →
      (readBits n ret s).1 = ((List.range n).map fun i => slave (pos + i)).foldl
        (fun (r : UInt8) b => r <<< 1 ||| b.toUInt8) ret ∧
      Listening (readBits n ret s).2 slave sda (pos + n)
        (symbols ++ ((List.range n).map fun i => slave (pos + i)).map .bit) := by
  induction n with
  | zero =>
    intro s pos symbols ret h
    exact ⟨rfl, by rw [List.range_zero, List.map_nil, List.map_nil, List.append_nil]; exact h⟩
  | succ n ih =>
    intro s pos symbols ret h
    obtain ⟨hget, h₂⟩ := getSda_in (setScl_rise h)
    have h₃ : Listening (setScl false (getSda (setScl true s)).2) slave sda (pos + 1)
        (symbols ++ [.bit (slave pos)]) := setScl_fall h₂
    obtain ⟨hret, hout⟩ := ih (ret <<< 1 ||| (slave pos).toUInt8) h₃
    have hbits : (List.range (n + 1)).map (fun i => slave (pos + i)) =
        slave pos :: (List.range n).map fun i => slave (pos + 1 + i) := by
      rw [List.range_succ_eq_map, List.map_cons, List.map_map]
      congr 1
      refine List.map_congr_left fun i _ => congrArg slave ?_
      omega
    rw [hbits]
    unfold readBits
    dsimp only
    rw [hget]
    refine ⟨hret, ?_⟩
    rw [List.map_cons, ← List.singleton_append, ← List.append_assoc]
    have hpos : pos + (n + 1) = pos + 1 + n := by omega
    rw [hpos]
    exact hout

/-- Eight bits make the byte that has them. -/
theorem bits_foldl (b₇ b₆ b₅ b₄ b₃ b₂ b₁ b₀ : Bool) :
    bits ([b₇, b₆, b₅, b₄, b₃, b₂, b₁, b₀].foldl (fun (r : UInt8) b => r <<< 1 ||| b.toUInt8) 0) =
      [b₇, b₆, b₅, b₄, b₃, b₂, b₁, b₀] := by
  revert b₇ b₆ b₅ b₄ b₃ b₂ b₁ b₀
  decide +kernel

theorem readByte_out (h : Out s slave scl sda clean pos symbols) (sendAck : Bool) :
    bits (readByte sendAck s).1 = slaveBits slave pos ∧
      Out (readByte sendAck s).2 slave true (!sendAck) true (pos + 8)
        (symbols ++ pulse scl sda clean ++ (slaveBits slave pos).map .bit) := by
  have h₁ := setSda_out (fall_out h) true
  have h₂ : Listening (setDir true (setSda true (setScl false s))) slave true pos
    (symbols ++ pulse scl sda clean) := setDir_in h₁
  obtain ⟨hret, h₃⟩ := readBits_out 8 0 h₂
  have h₄ := setScl_out (setDir_out h₃) false
  have h₅ := setScl_out (setSda_out h₄ (!sendAck)) true
  refine ⟨?_, h₅⟩
  have hbyte : (readByte sendAck s).1 = (slaveBits slave pos).foldl
        (fun (r : UInt8) b => r <<< 1 ||| b.toUInt8) 0 :=
    hret
  rw [hbyte]
  exact bits_foldl _ _ _ _ _ _ _ _

/-- The bytes that are read are the slave's, and all but the last are acknowledged. -/
theorem readData_out (n : Nat) : ∀ {s : World} {scl sda clean : Bool} {pos : Nat} {symbols : List Sym},
    Out s slave scl sda clean pos symbols → Received slave pos (readItems n) (readData false n s).1 ∧
      ∃ scl' sda' clean' symbols', Out (readData false n s).2 slave scl' sda' clean' (pos + 8 * n) symbols' ∧
        symbols <+: symbols' ∧ symbols' ++ pulse scl' sda' clean' =
          symbols ++ pulse scl sda clean ++ render slave pos (readItems n) := by
  induction n with
  | zero =>
    intro s scl sda clean pos symbols h
    exact ⟨rfl, scl, sda, clean, symbols, h, List.prefix_refl _, (List.append_nil _).symm⟩
  | succ n ih =>
    intro s scl sda clean pos symbols h
    obtain ⟨hbyte, hout⟩ := readByte_out h (!(decide (n = 0) && !false))
    obtain ⟨hreceived, scl', sda', clean', symbols', hout', hgrown, heq⟩ := ih hout
    have hpos : pos + 8 * (n + 1) = pos + 8 + 8 * n := by omega
    have hprefix : symbols <+: symbols' :=
      ((List.prefix_append _ _).trans (List.prefix_append _ _)).trans hgrown
    refine ⟨⟨_, _, rfl, hbyte, hreceived⟩, scl', sda', clean', symbols', hpos ▸ hout', hprefix,
      heq.trans ?_⟩
    simp only [pulse, readItems, render, Bool.not_false, Bool.and_true, Bool.not_not,
      if_true, List.append_assoc, List.singleton_append]

end Pins

/-! ## Calls -/

theorem addrByte_write (addr : Nat) : UInt8.ofNat (addr <<< 1) = addrByte addr false := by
  unfold addrByte
  rw [Nat.shiftLeft_eq, Nat.pow_one, Nat.mul_comm]
  rfl

theorem addrByte_read (addr : Nat) : UInt8.ofNat (addr <<< 1 ||| 1) = addrByte addr true := by
  unfold addrByte
  rw [← Nat.shiftLeft_add_eq_or_of_lt (by decide), Nat.shiftLeft_eq, Nat.pow_one, Nat.mul_comm]
  rfl

/-- The symbols begin like this. -/
def Begins (s : World) (symbols : List Sym) : Prop := ∃ rest, s.bus.symbols = symbols ++ rest

section Calls
variable {s : World} {slave : Nat → Bool} {scl sda clean : Bool} {pos : Nat} {symbols first : List Sym}

theorem Out.begins (h : Out s slave scl sda clean pos symbols) (hfirst : first <+: symbols) :
    Begins s first := by
  obtain ⟨rest, hrest⟩ := hfirst
  refine ⟨rest, ?_⟩
  rw [h.bus, hrest]

/-- The address byte behind a START. -/
theorem address_out (h : Out s slave scl true false pos symbols) (data : UInt8) :
    (writeByte data (start s)).1 = (if slave pos then .failed else .success) ∧
      Out (writeByte data (start s)).2 slave false true false (pos + 1)
        (symbols ++ .start :: (bits data).map .bit ++ [slot (slave pos)]) := by
  obtain ⟨hret, hout⟩ := writeByte_out (start_out h) data
  refine ⟨hret, ?_⟩
  simp only [pulse, Bool.and_false, Bool.false_eq_true, if_false, List.append_nil, List.append_assoc,
    List.cons_append] at hout ⊢
  exact hout

/-- The bytes of `i2c_soft_tx_polling` and its STOP keep what was seen before. -/
theorem writeData_begins (h : Out s slave false true false pos symbols) (hfirst : first <+: symbols)
    (data : List UInt8) (ret : Err) (noStop : Bool) :
    Begins (if !noStop || (writeData data ret s).1 ≠ .success then stop (writeData data ret s).2
      else (writeData data ret s).2) first := by
  have hout := writeData_out data ret h
  have hgrown := hfirst.trans (List.prefix_append symbols (wire slave pos data))
  split
  next => exact (stop_out hout).begins (hgrown.trans (List.prefix_append _ _))
  next => exact hout.begins hgrown

/-- `i2c_soft_tx_polling` without a START goes on with the data. -/
theorem txPolling_noStart (addr : Nat) (data : List UInt8) (noStop : Bool) (s : World) :
    txPolling addr data true noStop s = ((writeData data .success s).1,
      if !noStop || (writeData data .success s).1 ≠ .success then stop (writeData data .success s).2
      else (writeData data .success s).2) := rfl

/-- `i2c_soft_tx_polling` with a START. -/
theorem txPolling_nack (h : Out s slave scl true false pos symbols) (hnack : slave pos = true)
    (addr : Nat) (data : List UInt8) (noStop : Bool) :
    (txPolling addr data false noStop s).1 = .failed ∧
      Out (txPolling addr data false noStop s).2 slave true true false (pos + 1)
        (symbols ++ .start :: (bits (addrByte addr false)).map .bit ++ [.bit true, .stop]) := by
  obtain ⟨hret, hout⟩ := address_out h (addrByte addr false)
  rw [hnack, if_pos rfl] at hret
  rw [hnack] at hout
  have hstop := stop_out hout
  have hrun : txPolling addr data false noStop s =
      (.failed, stop (writeByte (addrByte addr false) (start s)).2) := by
    unfold txPolling
    rw [if_neg Bool.false_ne_true, addrByte_write]
    dsimp only
    rw [hret, if_neg (by decide)]
    simp only [ne_eq, reduceCtorEq, not_false_eq_true, decide_true, Bool.or_true, if_true]
  rw [hrun]
  refine ⟨rfl, ?_⟩
  rw [List.append_assoc] at hstop
  exact hstop

theorem txPolling_ack (h : Out s slave scl true false pos symbols) (hack : slave pos = false)
    (addr : Nat) (data : List UInt8) (noStop : Bool) :
    Begins (txPolling addr data false noStop s).2
        (symbols ++ .start :: (bits (addrByte addr false)).map .bit ++ [.stop]) ∧
      (noStop = true → (txPolling addr data false noStop s).1 = .success → ∃ pos' rest,
        Out (txPolling addr data false noStop s).2 slave false true false pos'
          (symbols ++ .start :: (bits (addrByte addr false)).map .bit ++ [.stop] ++ rest)) := by
  obtain ⟨hret, hout⟩ := address_out h (addrByte addr false)
  rw [hack, if_neg Bool.false_ne_true] at hret
  rw [hack] at hout
  have hrun : txPolling addr data false noStop s =
      ((writeData data .success (writeByte (addrByte addr false) (start s)).2).1,
        if !noStop || (writeData data .success (writeByte (addrByte addr false) (start s)).2).1 ≠ .success
        then stop (writeData data .success (writeByte (addrByte addr false) (start s)).2).2
        else (writeData data .success (writeByte (addrByte addr false) (start s)).2).2) := by
    unfold txPolling
    rw [if_neg Bool.false_ne_true, addrByte_write]
    dsimp only
    rw [hret, if_pos rfl]
  rw [hrun]
  refine ⟨writeData_begins hout (List.prefix_refl _) data .success noStop, fun hno hsuccess => ?_⟩
  dsimp only at hsuccess ⊢
  rw [hno, hsuccess]
  exact ⟨_, _, writeData_out data .success hout⟩

/-- `i2c_soft_rx_polling` keeps what was seen before it, and the first byte behind it. -/
theorem rxPolling_begins (h : Out s slave scl true false pos symbols) (addr size : Nat) :
    Begins (rxPolling addr size false false s).2.2
      (symbols ++ .start :: (bits (addrByte addr true)).map .bit ++ [slot (slave pos)]) := by
  obtain ⟨-, hout⟩ := address_out h (addrByte addr true)
  unfold rxPolling
  rw [if_neg Bool.false_ne_true, addrByte_read]
  dsimp only
  split
  next => exact hout.begins (List.prefix_refl _)
  next =>
    obtain ⟨-, _, _, _, _, hread, hgrown, -⟩ := readData_out size hout
    exact hread.begins hgrown

/-- The bytes of a read phase are the slave's. -/
theorem rxPolling_received (h : Out s slave scl true false pos symbols) (addr size : Nat)
    (hsuccess : (rxPolling addr size false false s).1 = .success) :
    Received slave pos (.start :: .write (addrByte addr true) :: readItems size)
      (rxPolling addr size false false s).2.1 := by
  obtain ⟨-, hout⟩ := address_out h (addrByte addr true)
  obtain ⟨hreceived, -⟩ := readData_out size hout
  unfold rxPolling at hsuccess ⊢
  rw [if_neg Bool.false_ne_true, addrByte_read] at hsuccess ⊢
  dsimp only at hsuccess ⊢
  split
  next hfailed =>
    rw [if_pos hfailed] at hsuccess
    exact absurd hsuccess hfailed
  next => exact hreceived

/-- A read phase whose address byte is not acknowledged ends with SCL low. -/
theorem rxPolling_nack (h : Out s slave scl true false pos symbols) (hnack : slave pos = true)
    (addr size : Nat) : (rxPolling addr size false false s).2.2.bus.scl = false := by
  obtain ⟨hret, hout⟩ := address_out h (addrByte addr true)
  rw [hnack, if_pos rfl] at hret
  unfold rxPolling
  rw [if_neg Bool.false_ne_true, addrByte_read]
  dsimp only
  rw [hret, if_pos (by decide), hout.bus]

end Calls

/-- The call begins with an address byte to write to. -/
def Call.writesFirst : Call → Bool
  | .read sub _ => decide (sub ≠ [])
  | .write _ _ => true

section Transaction
variable {c : Config} {lock : Bool} {slave : Nat → Bool} {call : Call}

/-- A call that writes an address byte which is acknowledged shows a STOP behind it. -/
theorem run_ack (hvalid : c.valid = true ∧ lock = true) (hack : slave 0 = false)
    (hfirst : call.writesFirst = true) :
    Begins (call.run c lock (idle slave)).2.2
      (.start :: (bits (addrByte c.addr false)).map .bit ++ [.stop]) := by
  have hout := idle_out slave
  cases call with
  | write sub data =>
    obtain ⟨hbegins, hlow⟩ := txPolling_ack hout hack c.addr sub (decide (data ≠ []))
    dsimp only [Call.run, i2cWrite]
    rw [hvalid.1, hvalid.2, Bool.not_true, if_neg Bool.false_ne_true, if_neg Bool.false_ne_true]
    split
    next hgo =>
      obtain ⟨pos', rest, hlow⟩ := hlow hgo.2 hgo.1
      rw [txPolling_noStart]
      exact writeData_begins hlow (List.prefix_append _ _) data .success false
    next => exact hbegins
  | read sub size =>
    have hsub : sub ≠ [] := of_decide_eq_true hfirst
    obtain ⟨hbegins, hlow⟩ := txPolling_ack hout hack c.addr sub true
    rw [List.nil_append] at hbegins
    dsimp only [Call.run, i2cRead]
    rw [hvalid.1, hvalid.2, Bool.not_true, if_neg Bool.false_ne_true, if_neg Bool.false_ne_true,
      if_pos hsub]
    split
    next hgo =>
      obtain ⟨pos', rest, hlow⟩ := hlow rfl hgo
      obtain ⟨rest', hrest⟩ := rxPolling_begins hlow c.addr size
      exact ⟨_, hrest.trans (by simp only [List.append_assoc, List.nil_append]; rfl)⟩
    next =>
      dsimp only
      exact hbegins

theorem items_write (c : Config) (hfirst : call.writesFirst = true) :
    ∃ items, call.items c.addr = .start :: .write (addrByte c.addr false) :: items := by
  cases call with
  | write sub data => exact ⟨_, rfl⟩
  | read sub size =>
    dsimp only [Call.items]
    rw [if_neg (of_decide_eq_true hfirst)]
    exact ⟨_, rfl⟩

theorem not_legal_ack (hvalid : c.valid = true ∧ lock = true) (hack : slave 0 = false)
    (hfirst : call.writesFirst = true) :
    ¬ Legal slave (call.items c.addr) (call.run c lock (idle slave)).2.2.bus := by
  obtain ⟨rest, hrest⟩ := run_ack hvalid hack hfirst
  obtain ⟨items, hitems⟩ := items_write c hfirst
  rw [hitems]
  exact not_legal_of_stop slave (hrest.trans (by simp only [List.append_assoc]; rfl))

/-- A call that writes an address byte which is not acknowledged stops. -/
theorem run_nack (hvalid : c.valid = true ∧ lock = true) (hnack : slave 0 = true)
    (hfirst : call.writesFirst = true) :
    (call.run c lock (idle slave)).1 = .failed ∧ (call.run c lock (idle slave)).2.2.bus =
      .idle (.start :: (bits (addrByte c.addr false)).map .bit ++ [.bit true, .stop]) := by
  have hout := idle_out slave
  cases call with
  | write sub data =>
    obtain ⟨hret, hstop⟩ := txPolling_nack hout hnack c.addr sub (decide (data ≠ []))
    dsimp only [Call.run, i2cWrite]
    rw [hvalid.1, hvalid.2, Bool.not_true, if_neg Bool.false_ne_true, if_neg Bool.false_ne_true]
    rw [hret, if_neg (fun h => by cases h.1)]
    exact ⟨rfl, hstop.bus⟩
  | read sub size =>
    have hsub : sub ≠ [] := of_decide_eq_true hfirst
    obtain ⟨hret, hstop⟩ := txPolling_nack hout hnack c.addr sub true
    rw [List.nil_append] at hstop
    dsimp only [Call.run, i2cRead]
    rw [hvalid.1, hvalid.2, Bool.not_true, if_neg Bool.false_ne_true, if_neg Bool.false_ne_true,
      if_pos hsub]
    rw [hret, if_neg (by decide)]
    dsimp only
    exact ⟨rfl, hstop.bus⟩

/-- A call that reads at once leaves SCL low, or shows a STOP behind its address byte. -/
theorem not_legal_read (hvalid : c.valid = true ∧ lock = true) (size : Nat) :
    ¬ Legal slave ((Call.read [] size).items c.addr) ((Call.read [] size).run c lock (idle slave)).2.2.bus := by
  have hout := idle_out slave
  have hrun : (Call.read [] size).run c lock (idle slave) = rxPolling c.addr size false false (idle slave) := by
    dsimp only [Call.run, i2cRead]
    rw [hvalid.1, hvalid.2, Bool.not_true, if_neg Bool.false_ne_true, if_neg Bool.false_ne_true,
      if_neg (fun h : ([] : List UInt8) ≠ [] => h rfl)]
    rw [if_pos rfl]
  rw [hrun]
  cases hbit : slave 0 with
  | true =>
    have hlow := rxPolling_nack hout hbit c.addr size
    rintro ⟨done, -, -, hbus⟩
    rw [hbus] at hlow
    cases hlow
  | false =>
    obtain ⟨rest, hrest⟩ := rxPolling_begins hout c.addr size
    rw [hbit] at hrest
    exact not_legal_of_stop slave (hrest.trans (by simp only [List.append_assoc, List.nil_append]; rfl))

/-- A call is a transaction from idle bus to idle bus if and only if it is refused, or the first byte
it writes is its address and is not acknowledged. -/
theorem transacts_iff (call : Call) (c : Config) (lock : Bool) (slave : Nat → Bool) :
    call.Transacts c lock slave ↔
      (c.valid && lock) = false ∨ call.writesFirst = true ∧ slave 0 = true := by
  by_cases hvalid : c.valid = true ∧ lock = true
  · have haccepted : ¬ (c.valid && lock) = false := by
      rw [hvalid.1, hvalid.2]
      decide
    unfold Call.Transacts
    dsimp only
    rw [if_pos hvalid]
    constructor
    · rintro ⟨hlegal, -⟩
      cases hfirst : call.writesFirst with
      | false =>
        cases call with
        | write sub data => cases hfirst
        | read sub size =>
          have hsub : sub = [] := not_ne_iff.mp (of_decide_eq_false hfirst)
          subst hsub
          exact absurd hlegal (not_legal_read hvalid size)
      | true =>
        cases hbit : slave 0 with
        | true => exact Or.inr ⟨rfl, rfl⟩
        | false =>
          exact absurd hlegal (not_legal_ack hvalid hbit hfirst)
    · rintro (hrefused | ⟨hfirst, hnack⟩)
      · exact absurd hrefused haccepted
      · obtain ⟨hret, hbus⟩ := run_nack hvalid hnack hfirst
        refine ⟨⟨[.start, .write (addrByte c.addr false)], ?_, Or.inr (Or.inl hnack), ?_⟩, fun hsuccess => ?_⟩
        · obtain ⟨items, hitems⟩ := items_write c hfirst
          exact ⟨items, hitems.symm⟩
        · rw [hbus]
          unfold render render render
          rw [hnack]
          rfl
        · rw [hret] at hsuccess
          cases hsuccess
  · have hrefused : (c.valid && lock) = false := by
      cases hv : c.valid with
      | false => rfl
      | true =>
        cases hl : lock with
        | false => rfl
        | true => exact absurd ⟨hv, hl⟩ hvalid
    refine ⟨fun _ => Or.inl hrefused, fun _ => ?_⟩
    unfold Call.Transacts
    dsimp only
    rw [if_neg hvalid]
    cases hv : c.valid with
    | false =>
      cases call with
      | write sub data =>
        dsimp only [Call.run, i2cWrite]
        rw [hv]
        rfl
      | read sub size =>
        dsimp only [Call.run, i2cRead]
        rw [hv]
        rfl
    | true =>
      have hl : lock = false := by
        rw [hv, Bool.true_and] at hrefused
        exact hrefused
      cases call with
      | write sub data =>
        dsimp only [Call.run, i2cWrite]
        rw [hv, hl]
        rfl
      | read sub size =>
        dsimp only [Call.run, i2cRead]
        rw [hv, hl]
        rfl

end Transaction

section Example

def fastConfig : Config := ⟨0x50, 100000, true, 400000⟩

/-- A byte is written to a slave that acknowledges all bytes; SCL stays low after a read of a slave that
acknowledges none. -/
theorem calls_leave_bus :
    ¬ (Call.write [0x10] [0x55]).Transacts fastConfig true (fun _ => false) ∧
      ((Call.read [] 1).run fastConfig true (idle fun _ => true)).2.2.bus.scl = false ∧
      ¬ (Call.read [] 1).Transacts fastConfig true (fun _ => true) := by
  have hvalid : fastConfig.valid = true ∧ true = true := by decide
  refine ⟨fun h => ?_, by decide +kernel, fun h => ?_⟩
  · unfold Call.Transacts at h
    dsimp only at h
    rw [if_pos hvalid] at h
    exact not_legal_ack hvalid rfl rfl h.1
  · unfold Call.Transacts at h
    dsimp only at h
    rw [if_pos hvalid] at h
    exact not_legal_read hvalid 1 h.1

end Example

end WmIot.I2c
