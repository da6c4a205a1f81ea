import WmIot.FtParam.RoundTrip
import WmIot.Lib.Trace

/-!
# Runs over the factory parameters

Calls, resets and power cuts in any order, with any allocations refused. The parameters are two maps, one in
memory and one that a reset loads. A call that fails may leave its value in memory, or in both; a cut one leaves
the old or the new value. A call that succeeds leaves it in both.

A call is cut behind a good first copy only, and a first copy torn by the cut does not pass for a third block.
-/

namespace WmIot.FtParam
open NorFlash Traces
set_option autoImplicit false

/-- The value of each parameter. -/
abbrev Params := FtCmd → List Byte

/-- What a block holds. -/
def params (p : Image) : Params := fun u => readBytes p u.at u.len

/-- What happens to the device. A cut leaves a flash, and the device is reset. -/
inductive Event where
  | set (mem : Allocations) (t : FtCmd) (data : List Byte)
  | get (resetWhenGet : Bool) (u : FtCmd)
  | restart
  | powerCut (mem : Allocations) (t : FtCmd) (data : List Byte) (left : Flash)

/-- What the caller gets. -/
inductive Answer where
  | returned (success : Bool)
  | value (v : Option (List Byte))
  | silent

def step (P : Port) (st : State) : Event → State × Answer
  | .set mem t data =>
    let out := wmFtParamSet P mem st t data
    (⟨replay st.flash out.ops, out.ram⟩, .returned out.success)
  | .get resetWhenGet u =>
    (if resetWhenGet then resetInternalData P st else st, .value (wmFtParamGet P resetWhenGet st u u.len))
  | .restart => (boot P st.flash, .silent)
  | .powerCut _ _ _ left => (boot P left, .silent)

/-- The events of a run: values have the length of their parameter, and cuts are as said above. -/
def Occurs (P : Port) (st : State) : Event → Prop
  | .set _ t data => data.length = t.len
  | .get _ u => u ≠ .all
  | .restart => True
  | .powerCut mem t data left => data.length = t.len ∧ CopyValid P st.flash P.addr0 ∧
      Cut st.flash (wmFtParamSet P mem st t data).ops left ∧
      (CopyValid P left P.addr0 → readBytes left P.addr0 verSize = readBytes st.flash P.addr0 verSize ∨
        readBytes left P.addr0 verSize ∈ newBlocks P st.ram t data)

/-- A step, with what is seen of it. -/
def Does (P : Port) (st : State) (seen : Event × Answer) (st' : State) : Prop :=
  Occurs P st seen.1 ∧ step P st seen.1 = (st', seen.2)

/-! ## The parameters as maps -/

/-- The values in memory, and those that a reset loads. -/
structure Maps where
  live : Params
  stored : Params

/-- What each event does to the maps. With all its buffers a call of a parameter succeeds. -/
inductive Maps.Does : Maps → Event × Answer → Maps → Prop where
  | success {m : Maps} {mem : Allocations} {t : FtCmd} {data : List Byte} : t ≠ .all →
      Does m (.set mem t data, .returned true) ⟨Function.update m.live t data, Function.update m.live t data⟩
  | failure {m : Maps} {mem : Allocations} {t : FtCmd} {data : List Byte} : mem ≠ granted ∨ t = .all →
      Does m (.set mem t data, .returned false) m
  | unstored {m : Maps} {mem : Allocations} {t : FtCmd} {data : List Byte} : mem ≠ granted →
      Does m (.set mem t data, .returned false) ⟨Function.update m.live t data, m.stored⟩
  | unconfirmed {m : Maps} {mem : Allocations} {t : FtCmd} {data : List Byte} : mem ≠ granted →
      Does m (.set mem t data, .returned false) ⟨Function.update m.live t data, Function.update m.live t data⟩
  | get {m : Maps} {u : FtCmd} : Does m (.get false u, .value (some (m.live u))) m
  | reload {m : Maps} {u : FtCmd} : Does m (.get true u, .value (some (m.stored u))) ⟨m.stored, m.stored⟩
  | restart {m : Maps} : Does m (.restart, .silent) ⟨m.stored, m.stored⟩
  | cutBefore {m : Maps} {mem : Allocations} {t : FtCmd} {data : List Byte} {left : Flash} :
      Does m (.powerCut mem t data left, .silent) ⟨m.stored, m.stored⟩
  | cutAfter {m : Maps} {mem : Allocations} {t : FtCmd} {data : List Byte} {left : Flash} :
      Does m (.powerCut mem t data left, .silent) ⟨Function.update m.live t data, Function.update m.live t data⟩

/-- A reset loads a block of the current layout with these values. -/
structure Stores (P : Port) (f : Flash) (m : Params) : Prop where
  accepted : Accepted P f
  current : P.check (copyAt f (loadedAddr P f)) = .current
  values : params (copyAt f (loadedAddr P f)) = m

/-- The two maps of a state. -/
structure Represents (P : Port) (st : State) (m : Maps) : Prop where
  current : P.check st.ram = .current
  live : params st.ram = m.live
  stored : Stores P st.flash m.stored

section Blocks
variable {P : Port} {p q ram : Image} {f g : Flash} {t u : FtCmd} {data : List Byte} {m : Params}

theorem params_congr (h : AgreeOn p q 0 verSize) : params p = params q := by
  funext u
  by_cases hall : u = .all
  · subst hall
    rfl
  · exact h.readBytes (Nat.zero_le _) (FtCmd.place hall).1

theorem ftExtValid_of_current (h : P.check p = .current) : ftExtValid p = true := by
  have hmagic : get32 p magicNoAt = signatureWord := check_magic (by rw [h]; decide)
  by_contra hinvalid
  unfold Port.check at h
  rw [if_pos hmagic, if_neg hinvalid] at h
  split at h <;> cases h

/-- The block of a call updates one parameter. -/
theorem params_newImage (hext : ftExtValid ram = true) (ht : t ≠ .all) (hlen : data.length = t.len) :
    params (newImage P ram t data) = Function.update (params ram) t data := by
  have hsame : upgrade ram = ram := if_pos hext
  funext u
  by_cases htu : u = t
  · subst htu
    rw [Function.update_self]
    exact newImage_own ht hlen
  · rw [Function.update_of_ne htu]
    by_cases hall : u = .all
    · subst hall
      rfl
    · have hother : readBytes (newImage P ram t data) u.at u.len = readBytes (upgrade ram) u.at u.len :=
        newImage_other (Ne.symm htu) ht hall hlen
      rwa [hsame] at hother

theorem loadedAddr_first (h : CopyValid P f P.addr0) : loadedAddr P f = P.addr0 := if_neg (copyValid_iff.mp h)

theorem loadedAddr_second (h : ¬ CopyValid P f P.addr0) : loadedAddr P f = P.addr1 :=
  if_pos (by_contra fun hne => h (copyValid_iff.mpr hne))

/-- The flash as loaded depends on the block at the place found. -/
theorem Stores.of_block (hacc : Accepted P g) (hcheck : P.check p = .current)
    (hblock : readBytes g (loadedAddr P g) verSize = readBytes p 0 verSize) : Stores P g (params p) := by
  have hcopy : AgreeOn (copyAt g (loadedAddr P g)) p 0 verSize := by
    apply agreeOn_of_readBytes
    rw [← hblock]
    simp only [readBytes, copyAt, Nat.zero_add]
  exact ⟨hacc, (check_congr hcopy).trans hcheck, params_congr hcopy⟩

/-- A block of the current layout in the first copy is what is loaded. -/
theorem Stores.of_first (hcheck : P.check p = .current) (hvalid : CopyValid P g P.addr0)
    (hblock : readBytes g P.addr0 verSize = readBytes p 0 verSize) : Stores P g (params p) := by
  refine Stores.of_block (Or.inl hvalid) hcheck ?_
  rwa [loadedAddr_first hvalid]

/-- In the second copy it is loaded when the first one is not valid. -/
theorem Stores.of_second (hcheck : P.check p = .current) (hfirst : ¬ CopyValid P g P.addr0)
    (hvalid : CopyValid P g P.addr1) (hblock : readBytes g P.addr1 verSize = readBytes p 0 verSize) :
    Stores P g (params p) := by
  refine Stores.of_block (Or.inr hvalid) hcheck ?_
  rwa [loadedAddr_second hfirst]

/-- The first copy as it was is loaded again. -/
theorem Stores.first_kept (h : Stores P f m) (hvalid : CopyValid P f P.addr0)
    (hblock : readBytes g P.addr0 verSize = readBytes f P.addr0 verSize) : Stores P g m := by
  obtain ⟨-, hcheck, rfl⟩ := h
  rw [loadedAddr_first hvalid] at hcheck ⊢
  have hcopy : AgreeOn (copyAt g P.addr0) (copyAt f P.addr0) 0 verSize := by
    apply agreeOn_of_readBytes
    simpa only [readBytes, copyAt, Nat.zero_add] using hblock
  refine Stores.of_first hcheck ⟨hvalid.1, ?_⟩ ?_
  · rw [check_congr hcopy, hcheck]
    decide
  · rw [hblock]
    simp only [readBytes, copyAt, Nat.zero_add]

/-- Loading the copy again puts its block in memory. -/
theorem Stores.loaded (h : Stores P f m) (ram : Image) :
    P.check (patch ram 0 (loadedBytes P f)) = .current ∧ params (patch ram 0 (loadedBytes P f)) = m := by
  obtain ⟨p, hp, -, hbytes⟩ := loadedBytes_eq h.accepted
  have hcurrent : P.check p = .current := (check_congr hp).trans h.current
  rw [hbytes, if_pos hcurrent]
  have hsame : AgreeOn (patch ram 0 (readBytes p 0 verSize)) p 0 verSize := patch_readBytes_start ram p verSize
  exact ⟨(check_congr hsame).trans hcurrent, (params_congr (hsame.trans hp)).trans h.values⟩

theorem represents_boot (h : Stores P f m) : Represents P (boot P f) ⟨m, m⟩ := by
  obtain ⟨hcurrent, hvalues⟩ := h.loaded (fill (fun _ => 0) 0 verSize)
  rw [boot_eq h.accepted]
  constructor <;> dsimp only
  · exact hcurrent
  · exact hvalues
  · exact h

theorem Represents.reload {st : State} {m : Maps} (h : Represents P st m) :
    Represents P (resetInternalData P st) ⟨m.stored, m.stored⟩ := by
  obtain ⟨hcurrent, hvalues⟩ := h.stored.loaded st.ram
  rw [resetInternalData_eq h.stored.accepted]
  constructor <;> dsimp only
  · exact hcurrent
  · exact hvalues
  · exact h.stored

/-- In a block of the current layout every parameter is found. -/
theorem Represents.readParam {st : State} {m : Maps} (h : Represents P st m) (hall : u ≠ .all) :
    readParam P st u u.len = some (m.live u) := by
  rw [readParam_current (ftExtValid_of_current h.current) hall, ← h.live]
  rfl

end Blocks

/-! ## One call -/

section Calls
variable {P : Port} {f g : Flash} {mem : Allocations} {st : State} {t : FtCmd} {data : List Byte} {m : Params}
  {new : Image}

/-- A write of a copy is made whole or not at all. -/
theorem write_whole {addr : Nat} (mem : Bool) (f : Flash) (new : Image) (hdvd : Flash.sectorSize ∣ addr) :
    Flash.wrWithErasePrivate P.size mem f addr (readBytes new 0 verSize) = [] ∨
      addr + verSize ≤ P.size ∧
        readBytes (replay f (Flash.wrWithErasePrivate P.size mem f addr (readBytes new 0 verSize))) addr verSize =
          readBytes new 0 verSize := by
  have hlen : (readBytes new 0 verSize).length = verSize := readBytes_length _ _ _
  by_cases hrefused : P.size < addr + verSize ∨ mem = false
  · left
    unfold Flash.wrWithErasePrivate
    rw [hlen, if_pos (Or.inr hrefused)]
  · right
    push Not at hrefused
    obtain ⟨hroom, hmem⟩ := hrefused
    obtain rfl : mem = true := by simpa using hmem
    have hwritten : readBytes (replay f (Flash.wrWithErasePrivate P.size true f addr (readBytes new 0 verSize))) addr
        (readBytes new 0 verSize).length = readBytes new 0 verSize :=
      Flash.readBytes_wrWithErasePrivate (by rw [hlen]; exact hroom) hdvd (by rw [hlen]; decide) (by rw [hlen]; decide)
    rw [hlen] at hwritten
    exact ⟨hroom, hwritten⟩

theorem copyValid_of_block {addr : Nat} (hnew : P.check new = .current) (hroom : addr + verSize ≤ P.size)
    (hblock : readBytes g addr verSize = readBytes new 0 verSize) : CopyValid P g addr := by
  have hcopy : AgreeOn (copyAt g addr) new 0 verSize := by
    apply agreeOn_of_readBytes
    rw [← hblock]
    simp only [readBytes, copyAt, Nat.zero_add]
  refine ⟨hroom, ?_⟩
  rw [check_congr hcopy, hnew]
  decide

/-- Behind a good first copy the update of the second one keeps what is loaded; else there is none. -/
theorem Stores.sync (h : Stores P st.flash m) : Stores P (replay st.flash (syncSecond P mem st).2) m := by
  by_cases hfirst : CopyValid P st.flash P.addr0
  · have hkept : AgreeOn (replay st.flash (syncSecond P mem st).2) st.flash P.addr0 (P.addr0 + verSize) :=
      replay_agreeOn _ _ syncSecond_off_first
    exact h.first_kept hfirst (hkept.readBytes (Nat.le_refl _) (Nat.le_refl _))
  · rw [syncSecond_of_invalid hfirst]
    exact h

theorem Stores.write_second (h : Stores P f m) (hnew : P.check new = .current) (refused : Bool) :
    Stores P (replay f (Flash.wrWithErasePrivate P.size refused f P.addr1 (readBytes new 0 verSize))) m ∨
      Stores P (replay f (Flash.wrWithErasePrivate P.size refused f P.addr1 (readBytes new 0 verSize))) (params new) := by
  have hkept : AgreeOn (replay f (Flash.wrWithErasePrivate P.size refused f P.addr1 (readBytes new 0 verSize))) f
      P.addr0 (P.addr0 + verSize) := replay_agreeOn _ _ (write_off_first (readBytes_length _ _ _))
  by_cases hfirst : CopyValid P f P.addr0
  · exact Or.inl (h.first_kept hfirst (hkept.readBytes (Nat.le_refl _) (Nat.le_refl _)))
  · rcases write_whole (P := P) refused f new (aligned1 P) with hops | ⟨hroom, hblock⟩
    · rw [hops]
      exact Or.inl h
    · have hfirst' := fun hvalid => hfirst (CopyValid.congr hvalid hkept.symm)
      exact Or.inr (.of_second hnew hfirst' (copyValid_of_block hnew hroom hblock) hblock)

theorem Stores.write_first (h : Stores P f m) (hnew : P.check new = .current) (refused : Bool) :
    Stores P (replay f (Flash.wrWithErasePrivate P.size refused f P.addr0 (readBytes new 0 verSize))) m ∨
      Stores P (replay f (Flash.wrWithErasePrivate P.size refused f P.addr0 (readBytes new 0 verSize))) (params new) := by
  rcases write_whole (P := P) refused f new P.aligned with hops | ⟨hroom, hblock⟩
  · rw [hops]
    exact Or.inl h
  · exact Or.inr (.of_first hnew (copyValid_of_block hnew hroom hblock) hblock)

/-- Whatever is refused, the two writes leave the old values or the new ones. -/
theorem Stores.writeCopies (h : Stores P f m) (hnew : P.check new = .current) :
    Stores P (replay f (writeCopies P mem f new).2) m ∨ Stores P (replay f (writeCopies P mem f new).2) (params new) := by
  unfold FtParam.writeCopies
  dsimp only
  split
  · exact h.write_second hnew mem.write1
  · rw [replay_append]
    rcases h.write_second hnew mem.write1 with h₁ | h₁
    · exact h₁.write_first hnew mem.write0
    · exact Or.inr ((h₁.write_first hnew mem.write0).elim id id)

/-- Behind a good first copy no cut of them leaves anything else. -/
theorem Stores.writeCopies_cut (h : Stores P f m) (hfirst : CopyValid P f P.addr0) (hnew : P.check new = .current)
    (hcut : Cut f (FtParam.writeCopies P mem f new).2 g)
    (htorn : CopyValid P g P.addr0 → readBytes g P.addr0 verSize = readBytes f P.addr0 verSize ∨
      readBytes g P.addr0 verSize = readBytes new 0 verSize) : Stores P g m ∨ Stores P g (params new) := by
  have hlen : (readBytes new 0 verSize).length = verSize := readBytes_length _ _ _
  have hbefore : ∀ refused, Cut f (Flash.wrWithErasePrivate P.size refused f P.addr1 (readBytes new 0 verSize)) g →
      Stores P g m := by
    intro refused hcut
    exact h.first_kept hfirst ((hcut.agreeOn (write_off_first hlen)).readBytes (Nat.le_refl _) (Nat.le_refl _))
  unfold FtParam.writeCopies at hcut
  dsimp only at hcut
  split at hcut
  · exact Or.inl (hbefore _ hcut)
  · rename_i hmatch
    rcases hcut.split with hcut | hcut
    · exact Or.inl (hbefore _ hcut)
    · -- the second copy is the new block by now, and the first one is being written
      obtain ⟨hvalid₁, hblock₁⟩ := copy_of_match hnew (by simpa using hmatch)
      have hkept := hcut.agreeOn (write_off_second hlen)
      by_cases hvalid : CopyValid P g P.addr0
      · rcases htorn hvalid with hold | hnewBlock
        · exact Or.inl (h.first_kept hfirst hold)
        · exact Or.inr (.of_first hnew hvalid hnewBlock)
      · refine Or.inr (.of_second hnew hvalid (hvalid₁.congr hkept) ?_)
        rw [hkept.readBytes (Nat.le_refl _) (Nat.le_refl _)]
        exact hblock₁

/-- A call gives up with the block in memory as it was, or goes on to write the new one. -/
theorem set_cases (P : Port) (mem : Allocations) (st : State) (hlen : data.length = t.len) :
    (∃ ops, (ops = [] ∨ ops = (syncSecond P mem st).2) ∧ wmFtParamSet P mem st t data = ⟨false, st.ram, ops⟩) ∨
      t ≠ .all ∧ wmFtParamSet P mem st t data =
        ⟨(FtParam.writeCopies P mem (replay st.flash (syncSecond P mem st).2) (newImage P st.ram t data)).1,
          newImage P st.ram t data, (syncSecond P mem st).2 ++
            (FtParam.writeCopies P mem (replay st.flash (syncSecond P mem st).2) (newImage P st.ram t data)).2⟩ := by
  unfold wmFtParamSet
  split
  · exact Or.inl ⟨[], Or.inl rfl, rfl⟩
  · rename_i hstop
    push Not at hstop
    have hall : t ≠ .all := by
      rintro rfl
      exact hstop.1 hlen
    dsimp only
    split
    · rw [storeParam_eq hall hlen]
      exact Or.inr ⟨hall, rfl⟩
    · exact Or.inl ⟨_, Or.inr rfl, rfl⟩

theorem Represents.granted {m : Maps} (h : Represents P st m) (hroom : P.addr1 + verSize ≤ P.size) (ht : t ≠ .all)
    (hlen : data.length = t.len) : (wmFtParamSet P granted st t data).success = true := by
  refine set_granted ht hlen rfl (syncSecond_granted ?_ ?_ hroom ⟨rfl, rfl⟩) hroom ⟨rfl, rfl, rfl, rfl⟩
  · rw [h.current]
    decide
  · rw [h.current]
    intro habs
    cases habs

theorem Represents.params_new {m : Maps} (h : Represents P st m) (ht : t ≠ .all) (hlen : data.length = t.len) :
    params (newImage P st.ram t data) = Function.update m.live t data := by
  rw [params_newImage (ftExtValid_of_current h.current) ht hlen, h.live]

/-- A call, whatever is refused. -/
theorem Represents.set {m : Maps} (h : Represents P st m) (hroom : P.addr1 + verSize ≤ P.size)
    (hlen : data.length = t.len) :
    ∃ m', m.Does (.set mem t data, .returned (wmFtParamSet P mem st t data).success) m' ∧
      Represents P ⟨replay st.flash (wmFtParamSet P mem st t data).ops, (wmFtParamSet P mem st t data).ram⟩ m' := by
  have hrefused : (wmFtParamSet P mem st t data).success = false → mem ≠ FtParam.granted ∨ t = .all := by
    intro hfail
    by_contra hnot
    push Not at hnot
    rw [hnot.1, h.granted hroom hnot.2 hlen] at hfail
    cases hfail
  rcases set_cases P mem st hlen with ⟨ops, hops, hout⟩ | ⟨ht, hout⟩
  · refine ⟨m, ?_, ?_⟩
    · rw [hout] at hrefused ⊢
      exact .failure (hrefused rfl)
    · rw [hout]
      refine ⟨h.current, h.live, ?_⟩
      rcases hops with rfl | rfl
      · exact h.stored
      · exact h.stored.sync
  · have hnew : P.check (newImage P st.ram t data) = .current := check_newImage ht hlen
    have hparams := h.params_new ht hlen
    have hlive : (wmFtParamSet P mem st t data).ram = newImage P st.ram t data := by rw [hout]
    have hcurrent : P.check (wmFtParamSet P mem st t data).ram = .current := by rw [hlive]; exact hnew
    rw [← hlive] at hparams
    cases hsucc : (wmFtParamSet P mem st t data).success with
    | true =>
      obtain ⟨-, -, hvalid, hblock⟩ := set_success hlen hsucc
      have hstored := Stores.of_first hnew hvalid hblock
      rw [← hlive, hparams] at hstored
      exact ⟨_, .success ht, hcurrent, hparams, hstored⟩
    | false =>
      have hmem : mem ≠ FtParam.granted := (hrefused hsucc).resolve_right ht
      have hflash : replay st.flash (wmFtParamSet P mem st t data).ops =
          replay (replay st.flash (syncSecond P mem st).2)
            (FtParam.writeCopies P mem (replay st.flash (syncSecond P mem st).2) (newImage P st.ram t data)).2 := by
        rw [hout, replay_append]
      have hsynced : Stores P (replay st.flash (syncSecond P mem st).2) m.stored := h.stored.sync
      have hwritten : Stores P (replay st.flash (wmFtParamSet P mem st t data).ops) m.stored ∨
          Stores P (replay st.flash (wmFtParamSet P mem st t data).ops) (params (newImage P st.ram t data)) := by
        rw [hflash]
        exact hsynced.writeCopies hnew
      rw [← hlive, hparams] at hwritten
      rcases hwritten with hstored | hstored
      · exact ⟨_, .unstored hmem, hcurrent, hparams, hstored⟩
      · exact ⟨_, .unconfirmed hmem, hcurrent, hparams, hstored⟩

/-- A call cut behind a good first copy. -/
theorem Represents.cut {m : Maps} (h : Represents P st m) (hocc : Occurs P st (.powerCut mem t data g)) :
    Stores P g m.stored ∨ Stores P g (Function.update m.live t data) := by
  obtain ⟨hlen, hfirst, hcut, htorn⟩ := hocc
  have hbefore : ∀ ops, (∀ op ∈ ops, ∀ a, P.addr0 ≤ a → a < P.addr0 + verSize → ¬ op.Touches a) →
      Cut st.flash ops g → Stores P g m.stored := fun ops hoff hcut =>
    h.stored.first_kept hfirst ((hcut.agreeOn hoff).readBytes (Nat.le_refl _) (Nat.le_refl _))
  rcases set_cases P mem st hlen with ⟨ops, hops, hout⟩ | ⟨ht, hout⟩
  · rw [hout] at hcut
    refine Or.inl (hbefore ops ?_ hcut)
    rcases hops with rfl | rfl
    · simp
    · exact syncSecond_off_first
  · rw [hout] at hcut
    rcases hcut.split with hcut | hcut
    · exact Or.inl (hbefore _ syncSecond_off_first hcut)
    · have hkept : AgreeOn (replay st.flash (syncSecond P mem st).2) st.flash P.addr0 (P.addr0 + verSize) :=
        replay_agreeOn _ _ syncSecond_off_first
      rw [← h.params_new ht hlen]
      refine h.stored.sync.writeCopies_cut (hfirst.congr hkept) (check_newImage ht hlen) hcut fun hvalid => ?_
      rw [hkept.readBytes (Nat.le_refl _) (Nat.le_refl _)]
      have hblocks := htorn hvalid
      rwa [newBlocks, if_neg ht, List.mem_singleton] at hblocks

end Calls

/-! ## Runs -/

section Runs
variable {P : Port} {f : Flash} {st : State} {m : Maps}

theorem Represents.get {u : FtCmd} (h : Represents P st m) (resetWhenGet : Bool) (hall : u ≠ .all) :
    wmFtParamGet P resetWhenGet st u u.len = some (if resetWhenGet then m.stored u else m.live u) := by
  cases resetWhenGet with
  | false => exact h.readParam hall
  | true => exact h.reload.readParam hall

/-- Every step is one of the maps. -/
theorem Represents.does (hroom : P.addr1 + verSize ≤ P.size) (st : State) (m : Maps) (seen : Event × Answer)
    (st' : State) (h : Represents P st m) (hdoes : Does P st seen st') :
    ∃ m', m.Does seen m' ∧ Represents P st' m' := by
  obtain ⟨event, answer⟩ := seen
  obtain ⟨hocc, hstep⟩ := hdoes
  cases event with
  | set mem t data =>
    obtain ⟨rfl, rfl⟩ := Prod.mk.inj hstep
    exact h.set hroom hocc
  | get resetWhenGet u =>
    obtain ⟨rfl, rfl⟩ := Prod.mk.inj hstep
    rw [h.get resetWhenGet hocc]
    cases resetWhenGet with
    | false => exact ⟨m, .get, h⟩
    | true => exact ⟨_, .reload, h.reload⟩
  | restart =>
    obtain ⟨rfl, rfl⟩ := Prod.mk.inj hstep
    exact ⟨_, .restart, represents_boot h.stored⟩
  | powerCut mem t data left =>
    obtain ⟨rfl, rfl⟩ := Prod.mk.inj hstep
    rcases h.cut hocc with hstored | hstored
    · exact ⟨_, .cutBefore, represents_boot hstored⟩
    · exact ⟨_, .cutAfter, represents_boot hstored⟩

/-- The values that the loaded copy of a flash holds. -/
def bootMaps (P : Port) (f : Flash) : Maps :=
  ⟨params (copyAt f (loadedAddr P f)), params (copyAt f (loadedAddr P f))⟩

theorem runs_simulated (hroom : P.addr1 + verSize ≤ P.size) (hacc : Accepted P f)
    (hcurrent : P.check (copyAt f (loadedAddr P f)) = .current) {seen : List (Event × Answer)} {st : State}
    (hrun : Trace (Does P) (boot P f) seen st) : ∃ m, Trace Maps.Does (bootMaps P f) seen m ∧ Represents P st m :=
  hrun.simulate (Represents.does hroom) (represents_boot ⟨hacc, hcurrent, rfl⟩)

/-- The event is a call for the parameter. -/
def Event.Sets (t : FtCmd) : Event → Prop
  | .set _ u _ => u = t
  | .powerCut _ u _ _ => u = t
  | _ => False

/-- Both maps have the value. -/
def Maps.Holds (t : FtCmd) (data : List Byte) (m : Maps) : Prop := m.live t = data ∧ m.stored t = data

/-- Calls for other parameters do not touch it. -/
theorem Maps.Does.holds {t : FtCmd} {data : List Byte} {m m' : Maps} {seen : Event × Answer} (h : m.Does seen m')
    (hother : ¬ seen.1.Sets t) (hm : m.Holds t data) : m'.Holds t data := by
  have hupdate : ∀ {u : FtCmd} (v : List Byte), ¬ u = t → Function.update m.live u v t = data := by
    intro u v hut
    rw [Function.update_of_ne (Ne.symm hut)]
    exact hm.1
  cases h with
  | success _ => exact ⟨hupdate _ hother, hupdate _ hother⟩
  | failure _ => exact hm
  | unstored _ => exact ⟨hupdate _ hother, hm.2⟩
  | unconfirmed _ => exact ⟨hupdate _ hother, hupdate _ hother⟩
  | get => exact hm
  | reload => exact ⟨hm.2, hm.2⟩
  | restart => exact ⟨hm.2, hm.2⟩
  | cutBefore => exact ⟨hm.2, hm.2⟩
  | cutAfter => exact ⟨hupdate _ hother, hupdate _ hother⟩

end Runs

/-! ## The runs of a chip -/

/-- After the first copy was lost, a call has made both. -/
def repaired : State := (step chip (boot chip secondOnly) (.set granted .btMac [1, 2, 3, 4, 5, 6])).1

/-- The power fails as a call starts, before the flash is touched. -/
def cutAtOnce : Event := .powerCut granted .wifiMac [1, 2, 3, 4, 5, 6] repaired.flash

theorem current_secondOnly : chip.check (copyAt secondOnly (loadedAddr chip secondOnly)) = .current := by
  have hcopy : AgreeOn (copyAt secondOnly chip.addr1) testBlock 0 verSize := by
    intro a _ _
    have haddr : chip.addr1 = 0x1000 := rfl
    simp only [copyAt, secondOnly, haddr]
    rw [if_pos (Nat.le_add_right _ _), Nat.add_sub_cancel_left]
  rw [loadedAddr_second not_copyValid_secondOnly, check_congr hcopy]
  exact check_newImage (by decide) rfl

theorem does_repair :
    Does chip (boot chip secondOnly) (.set granted .btMac [1, 2, 3, 4, 5, 6], .returned true) repaired :=
  ⟨rfl, by rw [repaired, ← set_succeeds_second]; rfl⟩

theorem does_cutAtOnce : Does chip repaired (cutAtOnce, .silent) (boot chip repaired.flash) := by
  have hvalid : CopyValid chip (replay (boot chip secondOnly).flash
      (wmFtParamSet chip granted (boot chip secondOnly) .btMac [1, 2, 3, 4, 5, 6]).ops) chip.addr0 :=
    (set_success rfl set_succeeds_second).2.2.1
  have hflash : repaired.flash = replay (boot chip secondOnly).flash
      (wmFtParamSet chip granted (boot chip secondOnly) .btMac [1, 2, 3, 4, 5, 6]).ops := by
    unfold repaired step
    dsimp only
  rw [← hflash] at hvalid
  exact ⟨⟨rfl, hvalid, Cut.start _ _, fun _ => Or.inl rfl⟩, rfl⟩

/-- A run over an image whose loaded copy is of the current layout answers as the two maps do. -/
theorem runs_refine_maps (P : Port) (f : Flash) (hroom : P.addr1 + verSize ≤ P.size) (hacc : Accepted P f)
    (hcurrent : P.check (copyAt f (loadedAddr P f)) = .current) (seen : List (Event × Answer)) (st : State)
    (hrun : Trace (Does P) (boot P f) seen st) :
    ∃ m, Trace Maps.Does (bootMaps P f) seen m ∧ Represents P st m :=
  runs_simulated hroom hacc hcurrent hrun

theorem runs_refine_maps_repaired :
    ∃ m, Trace Maps.Does (bootMaps chip secondOnly)
        [(.set granted .btMac [1, 2, 3, 4, 5, 6], .returned true), (cutAtOnce, .silent)] m ∧
      Represents chip (boot chip repaired.flash) m :=
  runs_refine_maps chip secondOnly (by decide) (Or.inr copyValid_secondOnly) current_secondOnly _ _
    (.cons does_repair (.cons does_cutAtOnce (.nil _)))

/-- The value of a call that succeeded is what is read, then and after a reset, until the parameter is set again:
through failing and cut calls for others, and resets. -/
theorem set_stays (P : Port) (f : Flash) (hroom : P.addr1 + verSize ≤ P.size) (hacc : Accepted P f)
    (hcurrent : P.check (copyAt f (loadedAddr P f)) = .current) (before after : List (Event × Answer))
    (st st' st'' : State) (mem : Allocations) (t : FtCmd) (data : List Byte)
    (hbefore : Trace (Does P) (boot P f) before st) (hset : Does P st (.set mem t data, .returned true) st')
    (hafter : Trace (Does P) st' after st'') (hother : ∀ seen ∈ after, ¬ seen.1.Sets t) (resetWhenGet : Bool) :
    wmFtParamGet P resetWhenGet st'' t t.len = some data ∧
      wmFtParamGet P resetWhenGet (boot P st''.flash) t t.len = some data := by
  obtain ⟨m, -, hm⟩ := runs_simulated hroom hacc hcurrent hbefore
  obtain ⟨m', hdoes, hm'⟩ := hm.does hroom _ _ _ _ hset
  cases hdoes with
  | success ht =>
    obtain ⟨m'', htrace, hm''⟩ := hafter.simulate (Represents.does hroom) hm'
    have hholds : m''.Holds t data :=
      htrace.invariant (fun _ _ _ hs hok hstep => hstep.holds hok hs)
        ⟨Function.update_self .., Function.update_self ..⟩ hother
    have hboot := represents_boot hm''.stored
    rw [hm''.get resetWhenGet ht, hboot.get resetWhenGet ht]
    obtain ⟨hlive, hstored⟩ := hholds
    cases resetWhenGet with
    | false => simp [hlive, hstored]
    | true => simp [hstored]

theorem set_stays_repaired :
    wmFtParamGet chip true (boot chip repaired.flash) .btMac FtCmd.btMac.len = some [1, 2, 3, 4, 5, 6] ∧
      wmFtParamGet chip true (boot chip (boot chip repaired.flash).flash) .btMac FtCmd.btMac.len =
        some [1, 2, 3, 4, 5, 6] :=
  set_stays chip secondOnly (by decide) (Or.inr copyValid_secondOnly) current_secondOnly [] [(cutAtOnce, .silent)]
    (boot chip secondOnly) repaired (boot chip repaired.flash) granted .btMac [1, 2, 3, 4, 5, 6] (.nil _) does_repair
    (.cons does_cutAtOnce (.nil _)) (by
      rintro seen hseen habs
      rw [List.mem_singleton.mp hseen] at habs
      cases habs) true

end WmIot.FtParam
