import WmIot.Crypto.Gpsec
import WmIot.Lib.Crc32

/-!
# Operations on the shared engine and alone

A run of many owners is compared with the run that has only the events of one of them, in which the
engine always completes. The two agree on the owner's context as long as the clock is on wherever a hash
block is compressed, and the engine completes. Alone, a hash run has its clock from its own start.
-/

namespace WmIot.Crypto
open Transition
set_option autoImplicit false

/-! ## What a hash operation needs of the engine -/

/-- An update fills a block. -/
def HashCfg.fills (cfg : HashCfg) (data : List UInt8) : Prop := 64 ≤ cfg.buf.length + data.length

instance (cfg : HashCfg) (data : List UInt8) : Decidable (cfg.fills data) :=
  inferInstanceAs (Decidable (64 ≤ cfg.buf.length + data.length))

/-- The event without a timeout of the engine. -/
def Event.settled : Event → Event
  | .call o k => .call o k
  | .go o e => .go o { e with completes := true }

/-- Where the step starts the engine it completes, and a hash block finds the clock on. -/
def Micro.served (clock : Bool) (e : Env) (c : Ctx) : Micro → Prop
  | .hashUpdate alg data =>
    data ≠ [] → c.hash.alg = alg → e.acquired = true → c.hash.fills data →
      clock = true ∧ e.completes = true
  | .finalBlock => e.acquired = true → clock = true ∧ e.completes = true
  | .crcUpdate _ | .cipher _ _ => e.acquired = true → e.completes = true
  | _ => True

def orderly (s : World) : Event → Prop
  | .call _ _ => True
  | .go o e => ∀ m ∈ (s.ctx o).todo.head?, m.served s.clock e (s.ctx o)

section Hash
variable (g : Gpsec) {e e' : Env} {clock clock' : Bool}

theorem flushFull_open {cfg : HashCfg} (h : cfg.buf.length < 64) (started : Bool) :
    flushFull g e clock cfg started = (.success, cfg, started) := by
  rw [flushFull, if_neg (Nat.ne_of_lt h)]

/-- An update that fills no block leaves the engine alone. -/
theorem absorb_open {data : List UInt8} : ∀ {cfg : HashCfg}, ¬ cfg.fills data → ∀ started,
    absorb g e clock data cfg started = (.success, { cfg with buf := cfg.buf ++ data }, started) := by
  induction data with
  | nil =>
    intro cfg _ started
    rw [absorb, List.append_nil]
  | cons b data ih =>
    intro cfg hopen started
    have hlen : cfg.buf.length + (data.length + 1) < 64 := Nat.lt_of_not_le hopen
    have hpushed : (cfg.buf ++ [b]).length = cfg.buf.length + 1 := List.length_append
    have hrest : ¬ ({ cfg with buf := cfg.buf ++ [b] } : HashCfg).fills data := by
      unfold HashCfg.fills
      dsimp only
      omega
    have hnext := ih hrest started
    rw [absorb, flushFull_open g (by omega)]
    dsimp only
    rw [if_neg (fun h => h rfl), flushFull_open g (by dsimp only; omega)]
    dsimp only
    rw [if_neg (fun h => h rfl), hnext, List.append_assoc, List.singleton_append]

/-- With the clock on, and an engine that completes, nothing else of the environment matters. -/
theorem compress_served (hclock : clock = true) (hdone : e.completes = true) (block : List UInt8)
    (cfg : HashCfg) : compress g e clock block cfg =
      (.success, { cfg with state := g.hash cfg.alg cfg.state block }) := by
  rw [compress, hclock, hdone]
  rfl

theorem absorb_served (hclock : clock = true) (hdone : e.completes = true) (hclock' : clock' = true)
    (hdone' : e'.completes = true) {data : List UInt8} : ∀ (cfg : HashCfg) (started : Bool),
    absorb g e clock data cfg started = absorb g e' clock' data cfg started := by
  have hflush : ∀ cfg started, flushFull g e clock cfg started = flushFull g e' clock' cfg started := by
    intro cfg started
    simp only [flushFull, compress_served g hclock hdone, compress_served g hclock' hdone']
  induction data with
  | nil => exact fun _ _ => rfl
  | cons b data ih =>
    intro cfg started
    simp only [absorb, hflush, ih]

theorem finalBlock_served (hclock : clock = true) (hdone : e.completes = true) (hclock' : clock' = true)
    (hdone' : e'.completes = true) (cfg : HashCfg) :
    finalBlock g e clock cfg = finalBlock g e' clock' cfg := by
  simp only [finalBlock, compress_served g hclock hdone, compress_served g hclock' hdone']

theorem flushFull_err (e : Env) (clock : Bool) (cfg : HashCfg) (started : Bool) :
    (flushFull g e clock cfg started).1 = .success := by
  unfold flushFull compress
  split <;> rfl

/-- An update gives no error: that the engine does not complete goes unnoticed. -/
theorem absorb_err (e : Env) (clock : Bool) (data : List UInt8) : ∀ (cfg : HashCfg) (started : Bool),
    (absorb g e clock data cfg started).1 = .success := by
  induction data with
  | nil => exact fun _ _ => rfl
  | cons b data ih =>
    intro cfg started
    have hfirst := flushFull_err g e clock cfg started
    rcases hflush : flushFull g e clock cfg started with ⟨err, cfg₁, started₁⟩
    rw [hflush] at hfirst
    have hsecond := flushFull_err g e clock { cfg₁ with buf := cfg₁.buf ++ [b] } started₁
    rcases hflush' : flushFull g e clock { cfg₁ with buf := cfg₁.buf ++ [b] } started₁ with ⟨err', cfg₂, started₂⟩
    rw [hflush'] at hsecond
    have hrest := ih cfg₂ started₂
    dsimp only at hfirst hsecond
    subst hfirst
    subst hsecond
    simp only [absorb, hflush, hflush', ne_eq, not_true_eq_false, if_false, hrest]

end Hash

/-! ## The clock of an owner that runs alone -/

/-- The rest of a call finds the clock on where a hash block may be compressed, as long as nobody else
switches it, and leaves it on for a run that is open. -/
def Powered (clock running : Bool) : List Micro → Prop
  | [] => running = true → clock = true
  | .clockOn :: rest => Powered true running rest
  | .clockOff :: rest => running = false ∧ Powered false running rest
  | .hashStart _ :: rest => clock = true ∧ Powered clock true rest
  | .hashUpdate _ _ :: rest | .finalPad _ :: rest | .finalBlock :: rest =>
    clock = true ∧ Powered clock running rest
  | .finalCopy :: rest => Powered clock false rest
  | .crcCfg _ _ _ _ :: rest | .crcFinal :: rest | .crcZero :: rest => Powered clock running rest
  | .crcUpdate _ :: rest | .cipher _ _ :: rest | .rng :: rest =>
    running = false ∧ ∀ clock, Powered clock running rest

/-- It does no harm that the clock is on. -/
theorem Powered.on {todo : List Micro} : ∀ {clock running : Bool},
    Powered clock running todo → Powered true running todo := by
  induction todo with
  | nil => exact fun _ _ => rfl
  | cons m rest ih =>
    intro clock running h
    cases m with
    | clockOn => exact h
    | clockOff => exact h
    | hashStart => exact ⟨rfl, ih h.2⟩
    | hashUpdate => exact ⟨rfl, ih h.2⟩
    | finalPad => exact ⟨rfl, ih h.2⟩
    | finalBlock => exact ⟨rfl, ih h.2⟩
    | finalCopy => exact ih h
    | crcCfg => exact @ih clock running h
    | crcFinal => exact @ih clock running h
    | crcZero => exact @ih clock running h
    | crcUpdate => exact h
    | cipher => exact h
    | rng => exact h

theorem Powered.step (g : Gpsec) (e : Env) {clock : Bool} {c : Ctx} {m : Micro} {rest : List Micro}
    (h : Powered clock c.running (m :: rest)) {r : Outcome} (hr : m.run g e clock c = r) :
    Powered r.clock r.ctx.running rest ∧ (r.err ≠ .success → Powered r.clock r.ctx.running []) := by
  subst hr
  cases m with
  | clockOn => exact ⟨h, fun hne => absurd rfl hne⟩
  | clockOff => exact ⟨h.2, fun hne => absurd rfl hne⟩
  | hashStart => exact ⟨h.2, fun hne => absurd rfl hne⟩
  | hashUpdate alg data =>
    dsimp only [Micro.run]
    split
    · exact ⟨h.2, fun _ _ => h.1⟩
    · split
      · exact ⟨h.2, fun _ _ => h.1⟩
      · exact ⟨h.2, fun _ _ => h.1⟩
  | finalPad alg =>
    dsimp only [Micro.run]
    split
    · exact ⟨h.2, fun _ _ => h.1⟩
    · exact ⟨h.2, fun _ _ => h.1⟩
  | finalBlock =>
    dsimp only [Micro.run]
    split
    · exact ⟨h.2, fun _ _ => h.1⟩
    · exact ⟨h.2, fun _ _ => h.1⟩
  | finalCopy => exact ⟨h, fun hne => absurd rfl hne⟩
  | crcCfg => exact ⟨h, fun hne => absurd rfl hne⟩
  | crcFinal => exact ⟨h, fun hne => absurd rfl hne⟩
  | crcZero => exact ⟨h, fun hne => absurd rfl hne⟩
  | crcUpdate data =>
    have hidle : c.running = true → False := fun hrun => Bool.noConfusion (h.1.symm.trans hrun)
    dsimp only [Micro.run]
    split
    · exact ⟨h.2 _, fun _ hrun => (hidle hrun).elim⟩
    · split
      · exact ⟨h.2 _, fun _ hrun => (hidle hrun).elim⟩
      · exact ⟨h.2 _, fun _ hrun => (hidle hrun).elim⟩
  | cipher k data =>
    have hidle : c.running = true → False := fun hrun => Bool.noConfusion (h.1.symm.trans hrun)
    dsimp only [Micro.run]
    split
    · exact ⟨h.2 _, fun _ hrun => (hidle hrun).elim⟩
    · split
      · exact ⟨h.2 _, fun _ hrun => (hidle hrun).elim⟩
      · exact ⟨h.2 _, fun _ hrun => (hidle hrun).elim⟩
  | rng =>
    have hidle : c.running = true → False := fun hrun => Bool.noConfusion (h.1.symm.trans hrun)
    dsimp only [Micro.run]
    split
    · exact ⟨h.2 _, fun _ hrun => (hidle hrun).elim⟩
    · exact ⟨h.2 _, fun _ hrun => (hidle hrun).elim⟩

/-! ## Contexts -/

def Owner.hashes : Owner → Bool
  | .hash _ | .md5 _ => true
  | _ => false

/-- Only the context of a hash is ever in a run. -/
def Ctx.Suits (o : Owner) (c : Ctx) : Prop :=
  o.hashes = false → c.running = false ∧ ∀ alg, Micro.hashStart alg ∉ c.todo

@[simp] theorem proceed_running (err : Err) (rest : List Micro) (c : Ctx) :
    (proceed err rest c).running = c.running := by
  unfold proceed
  split
  · rfl
  · split <;> rfl

theorem proceed_todo (err : Err) (rest : List Micro) (c : Ctx) :
    (proceed err rest c).todo = rest ∨ err ≠ .success ∧ (proceed err rest c).todo = [] := by
  unfold proceed
  split
  next h => exact .inr ⟨h.1, rfl⟩
  next =>
    split
    next h => exact .inl h.symm
    next => exact .inl rfl

/-- A run is opened by its start alone. -/
theorem Micro.run_running (g : Gpsec) (e : Env) (clock : Bool) {c : Ctx} {m : Micro}
    (hm : ∀ alg, m ≠ .hashStart alg) (hc : c.running = false) :
    (m.run g e clock c).ctx.running = false := by
  cases m with
  | hashStart alg => exact absurd rfl (hm alg)
  | finalCopy => rfl
  | hashUpdate alg data =>
    dsimp only [Micro.run]
    split
    · exact hc
    · split <;> exact hc
  | crcUpdate data =>
    dsimp only [Micro.run]
    split
    · exact hc
    · split <;> exact hc
  | cipher k data =>
    dsimp only [Micro.run]
    split
    · exact hc
    · split <;> exact hc
  | finalPad alg =>
    dsimp only [Micro.run]
    split <;> exact hc
  | finalBlock =>
    dsimp only [Micro.run]
    split <;> exact hc
  | rng =>
    dsimp only [Micro.run]
    split <;> exact hc
  | clockOn => exact hc
  | clockOff => exact hc
  | crcCfg => exact hc
  | crcFinal => exact hc
  | crcZero => exact hc

theorem Ctx.Suits.go {o : Owner} {c : Ctx} (h : c.Suits o) (g : Gpsec) (e : Env) (clock : Bool)
    {m : Micro} {rest : List Micro} (htodo : c.todo = m :: rest) {r : Outcome}
    (hr : m.run g e clock c = r) : (proceed r.err rest r.ctx).Suits o := by
  subst hr
  intro ho
  obtain ⟨hrun, hstart⟩ := h ho
  rw [htodo] at hstart
  refine ⟨?_, fun alg hmem => ?_⟩
  · rw [proceed_running]
    exact Micro.run_running g e clock (fun alg hm => hstart alg (hm ▸ List.mem_cons_self)) hrun
  · rcases proceed_todo (m.run g e clock c).err rest (m.run g e clock c).ctx with hrest | ⟨_, hnil⟩
    · rw [hrest] at hmem
      exact hstart alg (List.mem_cons_of_mem _ hmem)
    · rw [hnil] at hmem
      exact List.not_mem_nil hmem

theorem Call.fits_start {o : Owner} (ho : o.hashes = false) {c : Ctx} {k : Call} (hfits : k.fits o c = true)
    (alg : Alg) : Micro.hashStart alg ∉ k.steps := by
  intro hmem
  cases k with
  | start => cases o <;> first | exact Bool.noConfusion ho | exact Bool.noConfusion hfits
  | md5 => cases o <;> first | exact Bool.noConfusion ho | exact Bool.noConfusion hfits
  | crc32Reverse data =>
    dsimp only [Call.steps] at hmem
    split at hmem
    · simp only [List.mem_singleton, reduceCtorEq] at hmem
    · simp only [List.mem_cons, reduceCtorEq, List.not_mem_nil, or_self] at hmem
  | _ => simp only [Call.steps, List.mem_cons, reduceCtorEq, List.not_mem_nil, or_self] at hmem

theorem Ctx.Suits.call {o : Owner} {c : Ctx} (h : c.Suits o) {k : Call} (hfits : k.fits o c = true)
    (force : Bool) : ({ c with todo := k.steps, force := force } : Ctx).Suits o :=
  fun ho => ⟨(h ho).1, Call.fits_start ho hfits⟩

/-- The next step of the owner keeps the clock right for what is left of its call. -/
theorem Powered.go (g : Gpsec) (e : Env) {clock : Bool} {c : Ctx} {m : Micro} {rest : List Micro}
    (h : Powered clock c.running (m :: rest)) {r : Outcome} (hr : m.run g e clock c = r) :
    Powered r.clock (proceed r.err rest r.ctx).running (proceed r.err rest r.ctx).todo := by
  obtain ⟨hrest, habort⟩ := h.step g e hr
  rw [proceed_running]
  rcases proceed_todo r.err rest r.ctx with htodo | ⟨herr, htodo⟩
  · rw [htodo]
    exact hrest
  · rw [htodo]
    exact habort herr

/-- A call that its owner may make starts powered. -/
theorem Powered.call {o : Owner} {clock : Bool} {c : Ctx} (h : Powered clock c.running []) (hsuits : c.Suits o)
    {k : Call} (hfits : k.fits o c = true) : Powered clock c.running k.steps := by
  cases k with
  | start alg => exact ⟨rfl, fun _ => rfl⟩
  | md5 data => exact ⟨rfl, rfl, rfl, rfl, rfl, fun hf => Bool.noConfusion hf⟩
  | update alg data =>
    cases o with
    | hash => exact ⟨h hfits, h⟩
    | _ => cases hfits
  | final alg =>
    cases o with
    | hash => exact ⟨h hfits, h hfits, fun hf => Bool.noConfusion hf⟩
    | _ => cases hfits
  | crcCfg => exact h
  | crcFinal => exact h
  | crcUpdate data =>
    cases o with
    | crc =>
      have hidle := (hsuits rfl).1
      exact ⟨hidle, fun _ hrun => Bool.noConfusion (hidle.symm.trans hrun)⟩
    | _ => cases hfits
  | crc32Reverse data =>
    cases o with
    | crc32 =>
      have hidle := (hsuits rfl).1
      dsimp only [Call.steps]
      split
      · exact h
      · exact ⟨hidle, fun _ => ⟨hidle, fun hrun => Bool.noConfusion (hidle.symm.trans hrun)⟩⟩
    | _ => cases hfits
  | cipher k data =>
    cases o with
    | cipher =>
      have hidle := (hsuits rfl).1
      exact ⟨hidle, fun _ hrun => Bool.noConfusion (hidle.symm.trans hrun)⟩
    | _ => cases hfits
  | rng =>
    cases o with
    | rng =>
      have hidle := (hsuits rfl).1
      exact ⟨hidle, fun _ hrun => Bool.noConfusion (hidle.symm.trans hrun)⟩
    | _ => cases hfits

/-! ## Shared and alone -/

theorem cipherOp_served (g : Gpsec) {e e' : Env} (hdone : e.completes = true) (hdone' : e'.completes = true)
    (k : Cipher) (data : List UInt8) : cipherOp g e k data = cipherOp g e' k data := by
  rw [cipherOp, cipherOp, hdone, hdone']
  rfl

theorem crcUpdate_served (g : Gpsec) {e e' : Env} (hdone : e.completes = true) (hdone' : e'.completes = true)
    (data : List UInt8) (cfg : CrcCfg) : crcUpdate g e data cfg = crcUpdate g e' data cfg := by
  rw [crcUpdate, crcUpdate, hdone, hdone']
  rfl

/-- No step keeps the mutex. -/
theorem Micro.run_leak (g : Gpsec) (e : Env) (clock : Bool) (c : Ctx) (m : Micro) :
    (m.run g e clock c).leak = false := by
  cases m with
  | hashUpdate alg data =>
    have herr := absorb_err g e clock data c.hash false
    dsimp only [Micro.run]
    split
    · rfl
    · split
      · rfl
      · exact decide_eq_false (fun hne => hne herr)
  | finalPad =>
    dsimp only [Micro.run]
    split <;> rfl
  | finalBlock =>
    dsimp only [Micro.run]
    split <;> rfl
  | crcUpdate =>
    dsimp only [Micro.run]
    split
    · rfl
    · split <;> rfl
  | cipher =>
    dsimp only [Micro.run]
    split
    · rfl
    · split <;> rfl
  | rng =>
    dsimp only [Micro.run]
    split <;> rfl
  | _ => rfl

/-- A step that is served starts no engine without clock. -/
theorem Micro.run_off (g : Gpsec) {e : Env} {clock : Bool} {c : Ctx} {m : Micro} (h : m.served clock e c) :
    (m.run g e clock c).off = false := by
  cases m with
  | hashUpdate alg data =>
    dsimp only [Micro.run]
    split
    · rfl
    next hparam =>
      split
      · rfl
      next hacq =>
        rw [not_or, not_not] at hparam
        dsimp only
        by_cases hfills : c.hash.fills data
        · rw [(h hparam.1 hparam.2 (by simpa using hacq) hfills).1, Bool.not_true, Bool.and_false]
        · rw [absorb_open g hfills, Bool.false_and]
  | finalBlock =>
    dsimp only [Micro.run]
    split
    · rfl
    next hacq =>
      rw [(h (by simpa using hacq)).1]
      rfl
  | finalPad =>
    dsimp only [Micro.run]
    split <;> rfl
  | crcUpdate =>
    dsimp only [Micro.run]
    split
    · rfl
    · split <;> rfl
  | cipher =>
    dsimp only [Micro.run]
    split
    · rfl
    · split <;> rfl
  | rng =>
    dsimp only [Micro.run]
    split <;> rfl
  | _ => rfl

/-- A step that is served does to the context what it does alone. -/
theorem Micro.run_alone (g : Gpsec) {e : Env} {clock clock' : Bool} {c : Ctx} {m : Micro} {rest : List Micro}
    (h : m.served clock e c) (hpowered : Powered clock' c.running (m :: rest)) :
    (m.run g e clock c).err = (m.run g { e with completes := true } clock' c).err ∧
      (m.run g e clock c).ctx = (m.run g { e with completes := true } clock' c).ctx := by
  have hsettled : ({ e with completes := true } : Env).completes = true := rfl
  cases m with
  | hashUpdate alg data =>
    dsimp only [Micro.run]
    split
    · exact ⟨rfl, rfl⟩
    next hparam =>
      split
      · exact ⟨rfl, rfl⟩
      next hacq =>
        rw [not_or, not_not] at hparam
        dsimp only
        by_cases hfills : c.hash.fills data
        · obtain ⟨hclock, hdone⟩ := h hparam.1 hparam.2 (by simpa using hacq) hfills
          rw [absorb_served g hclock hdone hpowered.1 hsettled]
          exact ⟨rfl, rfl⟩
        · rw [absorb_open g hfills, absorb_open g hfills]
          exact ⟨rfl, rfl⟩
  | finalBlock =>
    dsimp only [Micro.run]
    split
    · exact ⟨rfl, rfl⟩
    next hacq =>
      obtain ⟨hclock, hdone⟩ := h (by simpa using hacq)
      dsimp only
      rw [finalBlock_served g hclock hdone hpowered.1 hsettled]
      exact ⟨rfl, rfl⟩
  | crcUpdate data =>
    dsimp only [Micro.run]
    split
    · exact ⟨rfl, rfl⟩
    · split
      · exact ⟨rfl, rfl⟩
      next hacq =>
        dsimp only
        rw [crcUpdate_served g (h (by simpa using hacq)) hsettled]
        exact ⟨rfl, rfl⟩
  | cipher k data =>
    dsimp only [Micro.run]
    split
    · exact ⟨rfl, rfl⟩
    · split
      · exact ⟨rfl, rfl⟩
      next hacq =>
        dsimp only
        rw [cipherOp_served g (h (by simpa using hacq)) hsettled]
        exact ⟨rfl, rfl⟩
  | finalPad =>
    dsimp only [Micro.run]
    split <;> exact ⟨rfl, rfl⟩
  | rng =>
    dsimp only [Micro.run]
    split <;> exact ⟨rfl, rfl⟩
  | _ => exact ⟨rfl, rfl⟩

/-- The run of all owners and the run of one of them agree on its context. -/
structure Alike (o : Owner) (s s' : World) : Prop where
  ctx : s'.ctx o = s.ctx o
  free : s.mutex = none
  clocked : s.off = false
  free' : s'.mutex = none
  powered : Powered s'.clock (s.ctx o).running (s.ctx o).todo
  suits : (s.ctx o).Suits o

theorem Alike.fresh (o : Owner) : Alike o fresh fresh :=
  ⟨rfl, rfl, rfl, rfl, fun hrun => Bool.noConfusion hrun, fun _ => ⟨rfl, fun _ => List.not_mem_nil⟩⟩

theorem step_other {g : Gpsec} {o : Owner} {s t : World} {ev : Event} (howner : ev.owner ≠ o)
    (hs : step g s ev = some t) : t.ctx o = s.ctx o := by
  cases ev with
  | call a k =>
    dsimp only [step] at hs
    split at hs
    · cases hs
      exact Function.update_of_ne (Ne.symm howner) _ _
    · cases hs
  | go a e =>
    dsimp only [step] at hs
    split at hs
    · cases hs
    · split at hs
      · cases hs
      · cases hs
        exact Function.update_of_ne (Ne.symm howner) _ _

/-- An orderly step frees the mutex and finds the clock on. -/
theorem step_clean {g : Gpsec} {s t : World} {ev : Event} (hok : orderly s ev) (hs : step g s ev = some t)
    (hfree : s.mutex = none) (hclocked : s.off = false) : t.mutex = none ∧ t.off = false := by
  cases ev with
  | call a k =>
    dsimp only [step] at hs
    split at hs
    · cases hs
      exact ⟨hfree, hclocked⟩
    · cases hs
  | go a e =>
    dsimp only [step] at hs
    split at hs
    · cases hs
    next m rest htodo =>
      split at hs
      · cases hs
      · have hserved := hok m (by rw [htodo]; rfl)
        cases hs
        dsimp only
        rw [Micro.run_leak, Micro.run_off g hserved, hclocked]
        exact ⟨hfree, rfl⟩

/-- The step of another owner. -/
theorem Alike.others {g : Gpsec} {o : Owner} {s s' t : World} {ev : Event} (h : Alike o s s')
    (hok : orderly s ev) (howner : ev.owner ≠ o) (hs : step g s ev = some t) : Alike o t s' := by
  have hctx := step_other howner hs
  obtain ⟨hfree, hclocked⟩ := step_clean hok hs h.free h.clocked
  refine ⟨?_, hfree, hclocked, h.free', ?_, ?_⟩
  · rw [hctx]
    exact h.ctx
  · rw [hctx]
    exact h.powered
  · rw [hctx]
    exact h.suits

/-- The owner's own step can be made alone. -/
theorem Alike.own {g : Gpsec} {o : Owner} {s s' t : World} {ev : Event} (h : Alike o s s')
    (hok : orderly s ev) (howner : ev.owner = o) (hs : step g s ev = some t) :
    ∃ t', step g s' ev.settled = some t' ∧ Alike o t t' := by
  obtain ⟨hfree, hclocked⟩ := step_clean hok hs h.free h.clocked
  subst howner
  cases ev with
  | call a k =>
    dsimp only [step, Event.settled, Event.owner] at hs h ⊢
    rw [h.ctx]
    split at hs
    next hfits =>
      cases hs
      rw [if_pos hfits]
      have hidle : Powered s'.clock (s.ctx a).running [] := hfits.1 ▸ h.powered
      refine ⟨_, rfl, ?_, hfree, hclocked, h.free', ?_, ?_⟩
      · dsimp only
        rw [Function.update_self, Function.update_self]
      · dsimp only
        rw [Function.update_self]
        exact hidle.call h.suits hfits.2
      · dsimp only
        rw [Function.update_self]
        exact h.suits.call hfits.2 _
    next => cases hs
  | go a e =>
    dsimp only [step, Event.settled, Event.owner] at hs h ⊢
    rw [h.ctx]
    split at hs
    next => cases hs
    next m rest htodo =>
      have hserved := hok m (by rw [htodo]; rfl)
      have hpowered : Powered s'.clock (s.ctx a).running (m :: rest) := htodo ▸ h.powered
      obtain ⟨herr, hctx⟩ := Micro.run_alone g hserved hpowered
      split at hs
      next => cases hs
      next =>
        cases hs
        rw [h.free']
        rw [if_neg (fun hheld => Bool.noConfusion hheld.2)]
        refine ⟨_, rfl, ?_, hfree, hclocked, ?_, ?_, ?_⟩
        · dsimp only
          rw [Function.update_self, Function.update_self, herr, hctx]
        · dsimp only
          rw [Micro.run_leak]
          rfl
        · dsimp only
          rw [Function.update_self, herr, hctx]
          exact hpowered.go g _ rfl
        · dsimp only
          rw [Function.update_self]
          exact h.suits.go g e s.clock htodo rfl

/-- The events of one owner, with an engine that completes. -/
def alone (o : Owner) (es : List Event) : List Event :=
  (es.filter fun ev => decide (ev.owner = o)).map Event.settled

theorem Alike.run (g : Gpsec) {o : Owner} {t : World} {es : List Event} : ∀ {s s' : World}, Alike o s s' →
    Along (step g) orderly s es → exec (step g) s es = some t →
    ∃ t', exec (step g) s' (alone o es) = some t' ∧ Alike o t t' := by
  induction es with
  | nil =>
    intro s s' h _ hrun
    cases hrun
    exact ⟨s', rfl, h⟩
  | cons ev es ih =>
    intro s s' h hok hrun
    obtain ⟨s₁, hs, hrun⟩ := Option.bind_eq_some_iff.mp hrun
    by_cases howner : ev.owner = o
    · obtain ⟨s₁', hs', h₁⟩ := h.own hok.1 howner hs
      obtain ⟨t', hrun', ht⟩ := ih h₁ (hok.2 s₁ hs) hrun
      refine ⟨t', ?_, ht⟩
      have hcons : alone o (ev :: es) = ev.settled :: alone o es := by
        have hkeep : (fun ev : Event => decide (ev.owner = o)) ev = true := decide_eq_true howner
        rw [alone, List.filter_cons, if_pos hkeep, List.map_cons, alone]
      rw [hcons, exec, hs']
      exact hrun'
    · obtain ⟨t', hrun', ht⟩ := ih (h.others hok.1 howner hs) (hok.2 s₁ hs) hrun
      refine ⟨t', ?_, ht⟩
      have hskip : alone o (ev :: es) = alone o es := by
        rw [alone, List.filter_cons_of_neg (by simpa using howner), alone]
      rw [hskip]
      exact hrun'

/-! ## A clock that is switched off when nobody needs it -/

def Micro.gatesOff : Micro → Bool
  | .clockOff | .cipher _ _ | .rng => true
  | _ => false

/-- The engine completes, and the clock is switched off only when no other owner relies on it. -/
def counted (s : World) : Event → Prop
  | .call _ _ => True
  | .go o e => e.completes = true ∧ ∀ m ∈ (s.ctx o).todo.head?, m.gatesOff = true →
      ∀ a, a ≠ o → Powered false (s.ctx a).running (s.ctx a).todo

theorem Powered.served {clock : Bool} {c : Ctx} {m : Micro} {rest : List Micro}
    (h : Powered clock c.running (m :: rest)) {e : Env} (hdone : e.completes = true) :
    m.served clock e c := by
  cases m with
  | hashUpdate => exact fun _ _ _ _ => ⟨h.1, hdone⟩
  | finalBlock => exact fun _ => ⟨h.1, hdone⟩
  | crcUpdate => exact fun _ => hdone
  | cipher => exact fun _ => hdone
  | _ => trivial

theorem Micro.run_clock (g : Gpsec) (e : Env) (clock : Bool) (c : Ctx) {m : Micro} (hm : m.gatesOff = false) :
    (m.run g e clock c).clock = clock ∨ (m.run g e clock c).clock = true := by
  cases m with
  | clockOff => cases hm
  | cipher => cases hm
  | rng => cases hm
  | clockOn => exact .inr rfl
  | hashUpdate =>
    dsimp only [Micro.run]
    split
    · exact .inl rfl
    · split <;> exact .inl rfl
  | crcUpdate =>
    dsimp only [Micro.run]
    split
    · exact .inl rfl
    · split
      · exact .inl rfl
      · exact .inr rfl
  | finalPad =>
    dsimp only [Micro.run]
    split <;> exact .inl rfl
  | finalBlock =>
    dsimp only [Micro.run]
    split <;> exact .inl rfl
  | _ => exact .inl rfl

/-- Every owner finds its clock on. -/
def Gated (s : World) : Prop :=
  ∀ o, Powered s.clock (s.ctx o).running (s.ctx o).todo ∧ (s.ctx o).Suits o

theorem Gated.fresh : Gated fresh :=
  fun o => ⟨(Alike.fresh o).powered, (Alike.fresh o).suits⟩

theorem Gated.orderly {s : World} (h : Gated s) {ev : Event} (hok : counted s ev) : orderly s ev := by
  cases ev with
  | call => trivial
  | go o e =>
    intro m hm
    obtain ⟨rest, htodo⟩ := List.head?_eq_some_iff.mp hm
    have hpowered : Powered s.clock (s.ctx o).running (m :: rest) := htodo ▸ (h o).1
    exact hpowered.served hok.1

theorem Gated.step {g : Gpsec} {s t : World} {ev : Event} (h : Gated s) (hok : counted s ev)
    (hs : step g s ev = some t) : Gated t := by
  cases ev with
  | call a k =>
    dsimp only [Crypto.step] at hs
    split at hs
    next hfits =>
      cases hs
      intro o
      dsimp only
      rcases eq_or_ne o a with rfl | hne
      · have hidle : Powered s.clock (s.ctx o).running [] := hfits.1 ▸ (h o).1
        rw [Function.update_self]
        exact ⟨hidle.call (h o).2 hfits.2, (h o).2.call hfits.2 _⟩
      · rw [Function.update_of_ne hne]
        exact h o
    next => cases hs
  | go a e =>
    dsimp only [Crypto.step] at hs
    split at hs
    next => cases hs
    next m rest htodo =>
      split at hs
      next => cases hs
      next =>
        cases hs
        intro o
        dsimp only
        rcases eq_or_ne o a with rfl | hne
        · have hpowered : Powered s.clock (s.ctx o).running (m :: rest) := htodo ▸ (h o).1
          rw [Function.update_self]
          exact ⟨hpowered.go g e rfl, (h o).2.go g e s.clock htodo rfl⟩
        · rw [Function.update_of_ne hne]
          refine ⟨?_, (h o).2⟩
          rcases hoff : m.gatesOff with _ | _
          · rcases Micro.run_clock g e s.clock (s.ctx a) hoff with hsame | hon
            · rw [hsame]
              exact (h o).1
            · rw [hon]
              exact (h o).1.on
          · have hfree := hok.2 m (by rw [htodo]; rfl) hoff o hne
            rcases (m.run g e s.clock (s.ctx a)).clock with _ | _
            · exact hfree
            · exact hfree.on

/-- Counting the users of the clock would do: then every step is orderly. -/
theorem along_orderly (g : Gpsec) {es : List Event} : ∀ {s : World}, Gated s →
    Along (step g) counted s es → Along (step g) orderly s es := by
  induction es with
  | nil => exact fun _ _ => trivial
  | cons ev es ih =>
    exact fun h hok => ⟨h.orderly hok.1, fun t ht => ih (h.step hok.1 ht) (hok.2 t ht)⟩

/-! ## Main results -/

/-- The engine never ran without clock, the mutex is free between the steps, and every owner has got the
results that it gets alone. -/
def Undisturbed (g : Gpsec) (es : List Event) (s : World) : Prop :=
  s.off = false ∧ s.mutex = none ∧
    ∀ o, ∃ s', exec (step g) fresh (alone o es) = some s' ∧ s'.ctx o = s.ctx o

theorem operations_undisturbed (g : Gpsec) {es : List Event} {s : World}
    (hok : Along (step g) orderly fresh es) (hrun : exec (step g) fresh es = some s) :
    Undisturbed g es s := by
  obtain ⟨_, _, hany⟩ := (Alike.fresh (.rng 0)).run g hok hrun
  refine ⟨hany.clocked, hany.free, fun o => ?_⟩
  obtain ⟨s', hrun', halike⟩ := (Alike.fresh o).run g hok hrun
  exact ⟨s', hrun', halike.ctx⟩

instance Micro.decidableServed (clock : Bool) (e : Env) (c : Ctx) :
    (m : Micro) → Decidable (m.served clock e c)
  | .hashUpdate alg data => inferInstanceAs (Decidable (data ≠ [] → c.hash.alg = alg →
      e.acquired = true → c.hash.fills data → clock = true ∧ e.completes = true))
  | .finalBlock =>
    inferInstanceAs (Decidable (e.acquired = true → clock = true ∧ e.completes = true))
  | .crcUpdate _ | .cipher _ _ => inferInstanceAs (Decidable (e.acquired = true → e.completes = true))
  | .clockOn | .clockOff | .hashStart _ | .finalPad _ | .finalCopy | .crcCfg _ _ _ _ | .crcFinal
  | .crcZero | .rng => .isTrue trivial

instance decidableOrderly (s : World) : (ev : Event) → Decidable (orderly s ev)
  | .call _ _ => .isTrue trivial
  | .go o e => inferInstanceAs (Decidable (∀ m ∈ (s.ctx o).todo.head?, m.served s.clock e (s.ctx o)))

/-- The CRC-32 of the engine, reflected both ways; other operations are not run on it. -/
def crc32Gpsec : Gpsec where
  hash := fun _ state _ => state
  crc := fun _ _ _ value data =>
    ⟨Crc32.update (reverseNum 32 value 0).toBitVec (data.map UInt8.toBitVec)⟩
  cipher := fun _ data => data

def idleEnv : Env := ⟨true, true, [], 0, [], []⟩

/-- A hash run is open while the clock is switched off, but has no block full. -/
def openRun : List Event :=
  [.call (.hash 0) (.start .sha1), .go (.hash 0) idleEnv, .go (.hash 0) idleEnv,
   .call (.crc32 0) (.crc32Reverse [0x31, 0x32, 0x33]), .go (.crc32 0) idleEnv,
   .call (.hash 0) (.update .sha1 [0x61, 0x62]),
   .go (.crc32 0) idleEnv, .go (.crc32 0) idleEnv, .go (.crc32 0) idleEnv,
   .go (.hash 0) idleEnv]

theorem operations_undisturbed_openRun :
    ∃ s, exec (step crc32Gpsec) fresh openRun = some s ∧ Undisturbed crc32Gpsec openRun s := by
  have hsome : (exec (step crc32Gpsec) fresh openRun).isSome = true := by decide +kernel
  obtain ⟨s, hs⟩ := Option.isSome_iff_exists.mp hsome
  exact ⟨s, hs, operations_undisturbed crc32Gpsec (by decide +kernel) hs⟩

/-- A random number is read between the start of a hash and its first block. -/
def gatedRun : List Event :=
  [.call (.hash 0) (.start .md5), .go (.hash 0) idleEnv, .go (.hash 0) idleEnv,
   .call (.rng 0) .rng, .go (.rng 0) idleEnv,
   .call (.hash 0) (.update .md5 (List.replicate 64 0)), .go (.hash 0) idleEnv]

/-- The engine does not complete a CRC. -/
def lateRun : List Event :=
  [.call (.crc 0) (.crcCfg 0xFFFFFFFF .crc32 true true), .go (.crc 0) idleEnv,
   .call (.crc 0) (.crcUpdate [0x31, 0x32, 0x33]), .go (.crc 0) { idleEnv with completes := false },
   .call (.crc 0) .crcFinal, .go (.crc 0) idleEnv]

theorem operations_disturbed :
    (∃ s, exec (step crc32Gpsec) fresh gatedRun = some s ∧ ¬ Undisturbed crc32Gpsec gatedRun s) ∧
    ∃ s, exec (step crc32Gpsec) fresh lateRun = some s ∧
      (s.ctx (.crc 0)).returned.map Prod.fst = [.success, .success, .success] ∧
      ¬ Undisturbed crc32Gpsec lateRun s := by
  constructor
  · have hoff : (exec (step crc32Gpsec) fresh gatedRun).map World.off = some true := by decide +kernel
    obtain ⟨s, hs, hoff⟩ := Option.map_eq_some_iff.mp hoff
    exact ⟨s, hs, fun h => Bool.noConfusion (h.1.symm.trans hoff)⟩
  · have hshared : (exec (step crc32Gpsec) fresh lateRun).map (fun s => (s.ctx (.crc 0)).returned) =
        some [(.success, .none), (.success, .none), (.success, .value 0)] := by decide +kernel
    have halone : (exec (step crc32Gpsec) fresh (alone (.crc 0) lateRun)).map
        (fun s => (s.ctx (.crc 0)).returned) =
          some [(.success, .none), (.success, .none), (.success, .value 0x77B79C2D)] := by decide +kernel
    obtain ⟨s, hs, hshared⟩ := Option.map_eq_some_iff.mp hshared
    obtain ⟨s', hs', halone⟩ := Option.map_eq_some_iff.mp halone
    refine ⟨s, hs, by rw [hshared]; rfl, fun h => ?_⟩
    obtain ⟨t, ht, hctx⟩ := h.2.2 (.crc 0)
    cases hs'.symm.trans ht
    rw [hctx, hshared] at halone
    exact absurd halone (by decide)

end WmIot.Crypto
