import WmIot.Flash.External

/-!
# Erasing a region of an external flash

`wm_drv_external_flash_erase_region`. The result of every read, erase and program is looked at; what the call does
to the chip is compared with the internal driver's on the chips whose addresses have three bytes.
-/

namespace WmIot.Flash.External
open NorFlash
set_option autoImplicit false

/-- What the bus does to the reads, erases and programs of a call, in their order. -/
structure RegionBus where
  read₁ : Read
  erase₁ : Nat → Cycle
  program₁ : Nat → Cycle
  erase₂ : Nat → Cycle
  read₂ : Read
  erase₃ : Nat → Cycle
  program₂ : Nat → Cycle

/-- A result that is not success ends the call. -/
def andThen (f : Flash) (x : Err × Trace) (next : Flash → Err × Trace) : Err × Trace :=
  if x.1 ≠ .success then x
  else
    let y := next (effect f x.2)
    (y.1, x.2 ++ y.2)

/-- The sector at `saved` is read, the sectors from `start` on are erased, and the sector is written back with ones
from `lo` to `hi`. -/
def eraseAround (hbe : Bool) (r : Read) (erase program : Nat → Cycle) (start num saved lo hi : Nat) (f : Flash) :
    Err × Trace :=
  let tmp := readUnit r f saved sectorSize
  if tmp.1 ≠ .success then (tmp.1, [])
  else
    andThen f (eraseSectors hbe erase start num) fun _ =>
      programPages program saved (setBlank tmp.2 lo hi) (sectorSize / pageSize)

/-- The `do` of `wm_drv_external_flash_erase_region`, for each of its cases. -/
def eraseCases (hbe : Bool) (bus : RegionBus) (f : Flash) (offset len : Nat) : Err × Trace :=
  let startIdx := offset / sectorSize
  let sectorOffset := offset % sectorSize
  let lenOffset := (len + sectorOffset) % 2 ^ 32 % sectorSize
  let first := startIdx * sectorSize
  if sectorOffset = 0 ∧ lenOffset = 0 then eraseSectors hbe bus.erase₁ first (len / sectorSize)
  else if sectorOffset = 0 then
    let num := len / sectorSize + 1
    eraseAround hbe bus.read₁ bus.erase₁ bus.program₁ first num ((startIdx + num - 1) * sectorSize % 2 ^ 32) 0 lenOffset f
  else if (sectorOffset + len) % 2 ^ 32 ≤ sectorSize then
    eraseAround hbe bus.read₁ bus.erase₁ bus.program₁ first 1 first sectorOffset ((sectorOffset + len) % 2 ^ 32) f
  else
    let left := len - (sectorSize - sectorOffset)
    let last := (startIdx + left / sectorSize + 1) * sectorSize % 2 ^ 32
    andThen f (eraseAround hbe bus.read₁ bus.erase₁ bus.program₁ first 1 first sectorOffset sectorSize f) fun g =>
      andThen g
        (if left / sectorSize ≠ 0 then
          eraseSectors hbe bus.erase₂ ((startIdx + 1) * sectorSize % 2 ^ 32) (left / sectorSize)
        else (.success, []))
        (eraseAround hbe bus.read₂ bus.erase₃ bus.program₂ last 1 last 0 lenOffset)

/-- `wm_drv_external_flash_erase_region` of a chip of the given size, and what comes to the bus; `mem` says whether
the buffer can be allocated. -/
def eraseRegion (size : Nat) (hbe : Bool) (bus : RegionBus) (mem : Bool) (f : Flash) (offset len : Nat) : Err × Trace :=
  if len = 0 then (.invalidParam, [])
  else if size < (offset + len) % 2 ^ 32 then (.invalidParam, [])
  else if !mem then (.noMem, [])
  else eraseCases hbe bus f offset len

/-! ## Commands that all take place -/

/-- The commands, each of which takes place. -/
def carriedOut (ops : List Op) : Trace := ops.map fun op => (op, .done)

/-- No command of a call fails or is dropped. -/
def AllDone (t : Trace) : Prop := ∀ c ∈ t, c.2 = .done

/-- The commands of a call that succeeds and whose transfers take place. -/
def Gives (x : Err × Trace) (ops : List Op) : Prop := x.1 = .success → AllDone x.2 → x.2 = carriedOut ops

theorem taken_carriedOut (ops : List Op) : taken (carriedOut ops) = ops := by
  induction ops with
  | nil => rfl
  | cons op ops ih =>
    have hcons : taken (carriedOut (op :: ops)) = op :: taken (carriedOut ops) := rfl
    rw [hcons, ih]

theorem effect_carriedOut (f : Flash) (ops : List Op) : effect f (carriedOut ops) = replay f ops := by
  rw [effect, taken_carriedOut]

theorem fates_carriedOut {cycles : Nat → Cycle} : ∀ {ops : List Op} {k : Nat}, AllDone (fates cycles ops k) →
    fates cycles ops k = carriedOut ops := by
  intro ops
  induction ops with
  | nil => exact fun _ => rfl
  | cons op ops ih =>
    intro k h
    rw [fates] at h
    have hfirst : (cycles k).command = .done := h _ List.mem_cons_self
    have hrest := ih fun c hc => h c (List.mem_cons_of_mem _ hc)
    rw [fates, hrest, hfirst]
    rfl

theorem gives_runOps (checked : Bool) (cycles : Nat → Cycle) (ops : List Op) :
    Gives (runOps checked cycles ops 0) ops := by
  intro hrun hdone
  have htrace := runOps_success.2 hrun
  rw [htrace] at hdone ⊢
  exact fates_carriedOut hdone

theorem gives_eraseSectors (hbe : Bool) (cycles : Nat → Cycle) (flashAddr num : Nat) :
    Gives (eraseSectors hbe cycles flashAddr num) (eraseList hbe flashAddr num) := by
  rw [eraseSectors_eq]
  exact gives_runOps false cycles _

theorem gives_andThen {f : Flash} {x : Err × Trace} {next : Flash → Err × Trace} {ops ops' : List Op}
    (hx : Gives x ops) (hnext : Gives (next (replay f ops)) ops') : Gives (andThen f x next) (ops ++ ops') := by
  intro hrun hdone
  unfold andThen at hrun hdone ⊢
  by_cases hfirst : x.1 = .success
  · rw [if_neg (not_not.mpr hfirst)] at hrun hdone ⊢
    have htrace : x.2 = carriedOut ops := hx hfirst fun c hc => hdone c (List.mem_append_left _ hc)
    rw [htrace, effect_carriedOut] at hrun hdone ⊢
    have hrest := hnext hrun fun c hc => hdone c (List.mem_append_right _ hc)
    dsimp only
    rw [hrest, carriedOut, carriedOut, carriedOut, List.map_append]
  · rw [if_pos hfirst] at hrun
    exact absurd hrun hfirst

/-- The commands of `eraseAround`. -/
def aroundOps (hbe : Bool) (start num saved lo hi : Nat) (f : Flash) : List Op :=
  eraseList hbe start num ++
    programOps saved (setBlank (readBytes f (sent saved) sectorSize) lo hi) (sectorSize / pageSize)

theorem gives_eraseAround {r : Read} (hread : r.fate ≠ .dropped) (hbe : Bool) (erase program : Nat → Cycle)
    (start num saved lo hi : Nat) (f : Flash) :
    Gives (eraseAround hbe r erase program start num saved lo hi f) (aroundOps hbe start num saved lo hi f) := by
  intro hrun hdone
  unfold eraseAround at hrun hdone ⊢
  dsimp only at hrun hdone ⊢
  by_cases hok : (readUnit r f saved sectorSize).1 = .success
  · have hbytes : (readUnit r f saved sectorSize).2 = readBytes f (sent saved) sectorSize := by
      obtain ⟨hfate, hidle⟩ := readUnit_success.mp hok
      have hdone : r.fate = .done := by
        cases hr : r.fate with
        | done => rfl
        | dropped => exact absurd hr hread
        | failed => exact absurd hr hfate
      rw [readUnit, if_neg hfate, if_neg (not_not.mpr hidle)]
      exact if_pos hdone
    rw [if_neg (not_not.mpr hok), hbytes] at hrun hdone ⊢
    exact gives_andThen (gives_eraseSectors hbe erase start num) (gives_runOps true program _) hrun hdone
  · rw [if_pos hok] at hrun
    exact absurd hrun hok

/-- The commands of `wm_drv_external_flash_erase_region` behind its checks. -/
def regionOps (hbe : Bool) (f : Flash) (offset len : Nat) : List Op :=
  let startIdx := offset / sectorSize
  let sectorOffset := offset % sectorSize
  let lenOffset := (len + sectorOffset) % 2 ^ 32 % sectorSize
  let first := startIdx * sectorSize
  if sectorOffset = 0 ∧ lenOffset = 0 then eraseList hbe first (len / sectorSize)
  else if sectorOffset = 0 then
    let num := len / sectorSize + 1
    aroundOps hbe first num ((startIdx + num - 1) * sectorSize % 2 ^ 32) 0 lenOffset f
  else if (sectorOffset + len) % 2 ^ 32 ≤ sectorSize then
    aroundOps hbe first 1 first sectorOffset ((sectorOffset + len) % 2 ^ 32) f
  else
    let left := len - (sectorSize - sectorOffset)
    let last := (startIdx + left / sectorSize + 1) * sectorSize % 2 ^ 32
    let ops := aroundOps hbe first 1 first sectorOffset sectorSize f
    let middle := if left / sectorSize ≠ 0 then eraseList hbe ((startIdx + 1) * sectorSize % 2 ^ 32) (left / sectorSize) else []
    ops ++ (middle ++ aroundOps hbe last 1 last 0 lenOffset (replay (replay f ops) middle))

theorem gives_eraseCases {bus : RegionBus} (hread₁ : bus.read₁.fate ≠ .dropped) (hread₂ : bus.read₂.fate ≠ .dropped)
    (hbe : Bool) (f : Flash) (offset len : Nat) :
    Gives (eraseCases hbe bus f offset len) (regionOps hbe f offset len) := by
  unfold eraseCases regionOps
  dsimp only
  split
  next => exact gives_eraseSectors hbe _ _ _
  next =>
    split
    next => exact gives_eraseAround hread₁ hbe _ _ _ _ _ _ _ f
    next =>
      split
      next => exact gives_eraseAround hread₁ hbe _ _ _ _ _ _ _ f
      next =>
        refine gives_andThen (gives_eraseAround hread₁ hbe _ _ _ _ _ _ _ f) (gives_andThen ?_ ?_)
        · split
          next => exact gives_eraseSectors hbe _ _ _
          next => exact fun _ _ => rfl
        · exact gives_eraseAround hread₂ hbe _ _ _ _ _ _ _ _

/-! ## The commands of the internal driver -/

section Chip
variable {hbe : Bool} {start num saved lo hi offset len : Nat}

theorem replay_eraseList (hstart : start % sectorSize = 0) (hle : start + num * sectorSize ≤ 2 ^ 24) (f : Flash) :
    replay f (eraseList hbe start num) = replay f (Flash.eraseSectors start num) := by
  funext a
  rw [(eraseList_spec hbe hstart hle).1, replay_eraseSectors f start (by omega)]

theorem replay_aroundOps (hstart : start % sectorSize = 0) (hle : start + num * sectorSize ≤ 2 ^ 24)
    (hsaved : saved + sectorSize ≤ 2 ^ 24) (f : Flash) :
    replay f (aroundOps hbe start num saved lo hi f) = replay f (Flash.eraseSectors start num ++
      writePages saved (setBlank (readSector f saved) lo hi) (sectorSize / pageSize)) := by
  have hpages : sectorSize / pageSize * pageSize = sectorSize := by decide
  have hsector := sectorSize_pos
  have hread : readBytes f (sent saved) sectorSize = readSector f saved := by
    have haddr : sent saved = saved % 2 ^ 32 % 2 ^ 25 := by
      unfold sent
      omega
    rw [haddr, readSector]
  rw [aroundOps, replay_append, replay_append, replay_eraseList hstart hle, hread, programOps_eq (by omega)]

theorem programOps_touches {flashAddr n : Nat} (hle : flashAddr + n * pageSize ≤ 2 ^ 24) {buf : List Byte} {op : Op}
    (hop : op ∈ programOps flashAddr buf n) {a : Nat} (ha : op.Touches a) :
    flashAddr ≤ a ∧ a < flashAddr + n * pageSize := by
  obtain ⟨k, hk, rfl⟩ := List.mem_map.mp hop
  have hpage : 0 < pageSize := by decide
  obtain ⟨hsent, hlast⟩ := sent_unit hpage hle (List.mem_range.mp hk)
  have hlen : ((buf.drop (k * pageSize)).take pageSize).length ≤ pageSize := List.length_take_le _ _
  simp only [Op.Touches, hsent] at ha
  omega

theorem aroundOps_touches (hstart : start % sectorSize = 0) (hle : start + num * sectorSize ≤ 2 ^ 24)
    (hsaved : saved + sectorSize ≤ 2 ^ 24) (hinside : start ≤ saved ∧ saved + sectorSize ≤ start + num * sectorSize)
    {f : Flash} {op : Op} (hop : op ∈ aroundOps hbe start num saved lo hi f) {a : Nat} (ha : op.Touches a) :
    start ≤ a ∧ a < start + num * sectorSize := by
  have hpages : sectorSize / pageSize * pageSize = sectorSize := by decide
  rcases List.mem_append.mp hop with hop | hop
  · exact (eraseList_spec hbe hstart hle).2 op hop a ha
  · have := programOps_touches (by omega) hop ha
    omega

/-- On a range of the chip that does not end at the end of a later sector the commands do what the internal driver's
do, and they are for the sectors of the range. -/
theorem regionOps_inside (hbe : Bool) (hpos : len ≠ 0) (hle : offset + len ≤ 2 ^ 24)
    (hends : ¬ EndsAtSector offset len) (f : Flash) :
    replay f (regionOps hbe f offset len) = replay f (eraseCommands f offset len) ∧
      ∀ op ∈ regionOps hbe f offset len, ∀ a, op.Touches a →
        offset / sectorSize * sectorSize ≤ a ∧ a / sectorSize * sectorSize < offset + len := by
  have hpart : offset % sectorSize ≤ offset := Nat.mod_le _ _
  have hsum : (len + offset % sectorSize) % 2 ^ 32 = len + offset % sectorSize := Nat.mod_eq_of_lt (by omega)
  have hsum' : (offset % sectorSize + len) % 2 ^ 32 = offset % sectorSize + len := Nat.mod_eq_of_lt (by omega)
  have hdvd : offset / sectorSize * sectorSize % sectorSize = 0 := Nat.mul_mod_left _ _
  unfold regionOps eraseCommands
  dsimp only
  rw [hsum, hsum']
  split
  next h =>
    have hfits : offset / sectorSize * sectorSize + len / sectorSize * sectorSize = offset + len := by
      simp only [sectorSize_eq] at h ⊢
      omega
    refine ⟨replay_eraseList hdvd (by omega) f, fun op hop a ha => ?_⟩
    have htouch := (eraseList_spec hbe hdvd (show _ ≤ 2 ^ 24 by omega)).2 op hop a ha
    have hsector := Nat.div_mul_le_self a sectorSize
    omega
  next h =>
    split
    next h₁ =>
      have hlast : (offset / sectorSize + (len / sectorSize + 1) - 1) * sectorSize =
          offset / sectorSize * sectorSize + len / sectorSize * sectorSize := by
        rw [← Nat.add_assoc, Nat.add_sub_cancel, Nat.add_mul]
      have hnum : (len / sectorSize + 1) * sectorSize = len / sectorSize * sectorSize + sectorSize := Nat.succ_mul _ _
      have hfits : offset / sectorSize * sectorSize + (len / sectorSize + 1) * sectorSize ≤ 2 ^ 24 := by
        simp only [sectorSize_eq] at h h₁ ⊢
        omega
      rw [hlast, Nat.mod_eq_of_lt (by omega)]
      refine ⟨replay_aroundOps hdvd hfits (by omega) f, fun op hop a ha => ?_⟩
      have htouch := aroundOps_touches hdvd hfits (by omega) (by omega) hop ha
      simp only [sectorSize_eq] at h h₁ htouch ⊢
      omega
    next h₁ =>
      have hfirst : offset / sectorSize * sectorSize + 1 * sectorSize ≤ 2 ^ 24 := by
        simp only [sectorSize_eq]
        omega
      have htouches : ∀ {lo hi : Nat}, ∀ op ∈ aroundOps hbe (offset / sectorSize * sectorSize) 1
          (offset / sectorSize * sectorSize) lo hi f, ∀ a, op.Touches a →
          offset / sectorSize * sectorSize ≤ a ∧ a / sectorSize * sectorSize < offset + len := by
        intro lo hi op hop a ha
        have htouch := aroundOps_touches hdvd hfirst (by omega) (by omega) hop ha
        simp only [sectorSize_eq] at htouch ⊢
        omega
      split
      next h₂ => exact ⟨replay_aroundOps hdvd hfirst (by omega) f, htouches⟩
      next h₂ =>
        have hne : (offset + len) % sectorSize ≠ 0 := fun h₃ => hends ⟨h₁, by omega, h₃⟩
        generalize hleft : (len - (sectorSize - offset % sectorSize)) / sectorSize = left
        have hlast : (offset / sectorSize + left + 1) * sectorSize =
            offset / sectorSize * sectorSize + sectorSize + left * sectorSize := by
          rw [Nat.succ_mul, Nat.add_mul]
          omega
        have hnext : (offset / sectorSize + 1) * sectorSize = offset / sectorSize * sectorSize + sectorSize :=
          Nat.succ_mul _ _
        have hbound : offset / sectorSize * sectorSize + sectorSize + left * sectorSize < offset + len := by
          simp only [sectorSize_eq] at hleft hne h₂ ⊢
          omega
        have hfits : offset / sectorSize * sectorSize + sectorSize + left * sectorSize + 1 * sectorSize ≤ 2 ^ 24 := by
          simp only [sectorSize_eq] at hbound ⊢
          omega
        have hnextDvd : (offset / sectorSize * sectorSize + sectorSize) % sectorSize = 0 := by
          rw [Nat.add_mod_right, hdvd]
        have hlastDvd : (offset / sectorSize * sectorSize + sectorSize + left * sectorSize) % sectorSize = 0 := by
          rw [Nat.add_mul_mod_self_right, hnextDvd]
        rw [hlast, hnext, Nat.mod_eq_of_lt (a := offset / sectorSize * sectorSize + sectorSize) (by omega),
          Nat.mod_eq_of_lt (a := offset / sectorSize * sectorSize + sectorSize + left * sectorSize) (by omega)]
        generalize hfirstAddr : offset / sectorSize * sectorSize = first at *
        have hmiddle : ∀ g, replay g (if left ≠ 0 then eraseList hbe (first + sectorSize) left else []) =
            replay g (Flash.eraseSectors (first + sectorSize) left) := by
          intro g
          split
          next => exact replay_eraseList hnextDvd (by omega) g
          next hnone =>
            rw [not_not.mp hnone]
            rfl
        refine ⟨?_, fun op hop a ha => ?_⟩
        · rw [replay_append, replay_append, replay_aroundOps hlastDvd hfits (by omega), hmiddle,
            replay_aroundOps hdvd hfirst (by omega)]
          simp only [replay_append]
        · rcases List.mem_append.mp hop with hop | hop
          · exact htouches op hop a ha
          · rcases List.mem_append.mp hop with hop | hop
            · split at hop
              next =>
                have htouch := (eraseList_spec hbe hnextDvd (show _ ≤ 2 ^ 24 by omega)).2 op hop a ha
                have hsector := Nat.div_mul_le_self a sectorSize
                omega
              next => exact absurd hop List.not_mem_nil
            · have htouch := aroundOps_touches hlastDvd hfits (by omega) (by omega) hop ha
              simp only [sectorSize_eq] at htouch hlastDvd hbound ⊢
              omega

/-- A command of a range that runs round the 24 bits of an address. -/
theorem eraseList_wraps (hbe : Bool) : eraseList hbe (2 ^ 24) 1 = eraseList hbe 0 1 := by
  cases hbe <;> decide +kernel

theorem aroundOps_wraps (hbe : Bool) (lo hi : Nat) (f : Flash) :
    aroundOps hbe (2 ^ 24) 1 (2 ^ 24) lo hi f = aroundOps hbe 0 1 0 lo hi f := by
  have hsent : ∀ n, sent (2 ^ 24 + n) = sent (0 + n) := by
    intro n
    unfold sent
    omega
  have hpages : ∀ buf n, programOps (2 ^ 24) buf n = programOps 0 buf n := by
    intro buf n
    apply List.map_congr_left
    intro k _
    rw [hsent]
  have hread : sent (2 ^ 24) = sent 0 := hsent 0
  rw [aroundOps, aroundOps, eraseList_wraps, hread, hpages]

/-- Erase commands stay in the space that three bytes can name. -/
theorem eraseList_masked {op : Op} (hop : op ∈ eraseList hbe start num) {a : Nat} (ha : 2 ^ 24 ≤ a) :
    ¬ op.Touches a := by
  have hsector : ∀ fa n, op ∈ eraseOps sectorSize fa n → ¬ op.Touches a := by
    intro fa n h
    obtain ⟨k, _, rfl⟩ := List.mem_map.mp h
    simp only [Op.Touches, sent, sectorSize_eq]
    omega
  have hblock : ∀ fa n, op ∈ eraseOps blockSize fa n → ¬ op.Touches a := by
    intro fa n h
    obtain ⟨k, _, rfl⟩ := List.mem_map.mp h
    simp only [Op.Touches, sent, blockSize]
    omega
  unfold eraseList at hop
  dsimp only at hop
  split at hop
  next =>
    rcases List.mem_append.mp hop with hop | hop
    · rcases List.mem_append.mp hop with hop | hop
      · exact hsector _ _ hop
      · exact hblock _ _ hop
    · exact hsector _ _ hop
  next => exact hsector _ _ hop

theorem regionOps_masked {f : Flash} {op : Op} (hop : op ∈ regionOps hbe f offset len) {a : Nat} (ha : 2 ^ 24 ≤ a) :
    (∃ addr bytes, op = .program addr bytes) ∨ ¬ op.Touches a := by
  have haround : ∀ {start num saved lo hi g}, op ∈ aroundOps hbe start num saved lo hi g →
      (∃ addr bytes, op = .program addr bytes) ∨ ¬ op.Touches a := by
    intro start num saved lo hi g h
    rcases List.mem_append.mp h with h | h
    · exact .inr (eraseList_masked h ha)
    · obtain ⟨k, _, rfl⟩ := List.mem_map.mp h
      exact .inl ⟨_, _, rfl⟩
  unfold regionOps at hop
  dsimp only at hop
  split at hop
  next => exact .inr (eraseList_masked hop ha)
  next =>
    split at hop
    next => exact haround hop
    next =>
      split at hop
      next => exact haround hop
      next =>
        rcases List.mem_append.mp hop with hop | hop
        · exact haround hop
        · rcases List.mem_append.mp hop with hop | hop
          · split at hop
            next => exact .inr (eraseList_masked hop ha)
            next => exact absurd hop List.not_mem_nil
          · exact haround hop

/-- A range from inside the first sector to the end of a chip of 2^24 bytes: the last sector of the call is the first
one again, which is read, erased and written back. -/
theorem regionOps_wholeChip (hbe : Bool) (hstart : offset % sectorSize ≠ 0) (hfirst : offset < sectorSize)
    (hend : offset + len = 2 ^ 24) (f : Flash) :
    (∀ a, replay f (regionOps hbe f offset len) a = if offset ≤ a ∧ a < offset + len then blank else f a) ∧
      ∀ op ∈ regionOps hbe f offset len, ∀ a, op.Touches a → a < offset + len := by
  have hmod : offset % sectorSize = offset := Nat.mod_eq_of_lt hfirst
  have hdiv : offset / sectorSize = 0 := Nat.div_eq_of_lt hfirst
  have hleft : (len - (sectorSize - offset)) / sectorSize = 4095 := by
    simp only [sectorSize_eq] at hfirst ⊢
    omega
  have hlenOffset : (len + offset) % 2 ^ 32 % sectorSize = 0 := by
    simp only [sectorSize_eq]
    omega
  have hcross : ¬ (offset + len) % 2 ^ 32 ≤ sectorSize := by
    rw [hend]
    decide
  have hlast : (0 + 4095 + 1) * sectorSize % 2 ^ 32 = 2 ^ 24 := by decide
  have hnext : (0 + 1) * sectorSize % 2 ^ 32 = sectorSize := by decide
  have hdvd : 0 % sectorSize = 0 := Nat.zero_mod _
  have hsector : 0 + 1 * sectorSize ≤ 2 ^ 24 := by decide
  have hmiddle := eraseList_spec hbe (show sectorSize % sectorSize = 0 by decide)
    (show sectorSize + 4095 * sectorSize ≤ 2 ^ 24 by decide)
  have hmiddleEnd : sectorSize + 4095 * sectorSize = 2 ^ 24 := by decide
  unfold regionOps
  dsimp only
  rw [hmod] at hstart ⊢
  rw [hdiv, hleft, hlenOffset, if_neg (fun h => hstart h.1), if_neg hstart, if_neg hcross, hlast, hnext, Nat.zero_mul,
    if_pos (by decide), aroundOps_wraps]
  refine ⟨fun a => ?_, fun op hop a ha => ?_⟩
  · rw [replay_append, replay_append, replay_aroundOps hdvd hsector (by decide),
      replay_blankPart _ (by decide) (by decide), if_neg (by omega), hmiddle.1, hmiddleEnd,
      replay_aroundOps hdvd hsector (by decide), replay_blankPart _ (by decide) (Nat.le_refl _)]
    split
    next hin => rw [if_pos (by omega)]
    next hout =>
      split
      next hin => rw [if_pos (by omega)]
      next => rw [if_neg (by omega)]
  · have hfits : ∀ {lo hi g}, op ∈ aroundOps hbe 0 1 0 lo hi g → a < 0 + 1 * sectorSize := fun h =>
      (aroundOps_touches hdvd hsector (by decide) (by decide) h ha).2
    rcases List.mem_append.mp hop with hop | hop
    · have := hfits hop
      omega
    · rcases List.mem_append.mp hop with hop | hop
      · have := (hmiddle.2 op hop a ha).2
        omega
      · have := hfits hop
        omega

/-- An erase of one sector is for its first byte. -/
theorem eraseList_first (hbe : Bool) {addr : Nat} (hdvd : addr % sectorSize = 0) (hle : addr + sectorSize ≤ 2 ^ 24) :
    ∃ op ∈ eraseList hbe addr 1, op.Touches addr := by
  by_contra hnone
  have hkept : AgreeOn (replay (fun _ => 0) (eraseList hbe addr 1)) (fun _ => 0) addr (addr + 1) := by
    apply replay_agreeOn
    intro op hop a hlo hhi ha
    obtain rfl : a = addr := by omega
    exact hnone ⟨op, hop, ha⟩
  have hzero := hkept addr (Nat.le_refl _) (Nat.lt_succ_self _)
  have hsector := sectorSize_pos
  rw [(eraseList_spec hbe hdvd (by omega)).1, if_pos (by omega)] at hzero
  exact absurd (show blank = (0 : Byte) from hzero) (by decide)

/-- A range that ends at the end of a later sector has a command for a sector behind it, or, at the end of the
address space, for the first sector. -/
theorem regionOps_endsAtSector (hbe : Bool) (hle : offset + len ≤ 2 ^ 24) (hends : EndsAtSector offset len) (f : Flash) :
    ∃ op ∈ regionOps hbe f offset len, op.Touches (if offset + len = 2 ^ 24 then 0 else offset + len) := by
  obtain ⟨hstart, hcross, hend⟩ := hends
  have hlast : (offset / sectorSize + (len - (sectorSize - offset % sectorSize)) / sectorSize + 1) * sectorSize =
      offset + len := by
    simp only [sectorSize_eq] at hstart hcross hend ⊢
    omega
  have hpart : offset % sectorSize ≤ offset := Nat.mod_le _ _
  have hsum' : (offset % sectorSize + len) % 2 ^ 32 = offset % sectorSize + len := Nat.mod_eq_of_lt (by omega)
  have hop : ∃ op ∈ eraseList hbe (offset + len) 1,
      op.Touches (if offset + len = 2 ^ 24 then 0 else offset + len) := by
    by_cases hwhole : offset + len = 2 ^ 24
    · rw [hwhole, if_pos rfl, eraseList_wraps]
      exact eraseList_first hbe (by decide) (by decide)
    · rw [if_neg hwhole]
      refine eraseList_first hbe hend ?_
      simp only [sectorSize_eq] at hend ⊢
      omega
  obtain ⟨op, hop, htouch⟩ := hop
  refine ⟨op, ?_, htouch⟩
  unfold regionOps
  dsimp only
  have hlastMod : (offset + len) % 2 ^ 32 = offset + len := Nat.mod_eq_of_lt (by omega)
  rw [if_neg fun h₁ => hstart h₁.1, if_neg hstart, hsum', if_neg (by omega), hlast, hlastMod]
  exact List.mem_append_right _ (List.mem_append_right _ (List.mem_append_left _ hop))

end Chip

/-! ## Main results -/

/-- The range is erased, the rest of the chip is as it was, and the commands are for sectors of the range. -/
structure ErasesOnly (size : Nat) (f : Flash) (offset len : Nat) (t : Trace) : Prop where
  erased : BlankOn (effect f t) offset (offset + len)
  kept : ∀ a < size, a < offset ∨ offset + len ≤ a → effect f t a = f a
  sectors : ∀ c ∈ t, ∀ a, c.1.Touches a → ∃ b, offset ≤ b ∧ b < offset + len ∧ b / sectorSize = a / sectorSize

/-- Whatever the chip holds, a call that succeeds and whose transfers take place erases the range and nothing else. -/
def ErasesRange (size : Nat) (hbe : Bool) (offset len : Nat) : Prop :=
  ∀ bus mem f t, bus.read₁.fate ≠ .dropped → bus.read₂.fate ≠ .dropped →
    eraseRegion size hbe bus mem f offset len = (.success, t) → AllDone t → ErasesOnly size f offset len t

/-- Nothing fails and every wait is short. -/
def quickBus : RegionBus where
  read₁ := (quickPiece .done).read
  erase₁ := fun _ => quick .done
  program₁ := fun _ => quick .done
  erase₂ := fun _ => quick .done
  read₂ := (quickPiece .done).read
  erase₃ := fun _ => quick .done
  program₂ := fun _ => quick .done

/-- A call that succeeds and whose transfers take place. -/
def Runs (x : Err × Trace) : Prop := x.1 = .success ∧ AllDone x.2

theorem runs_runOps (checked : Bool) (ops : List Op) : Runs (runOps checked (fun _ => quick .done) ops 0) := by
  have hrun : (runOps checked (fun _ => quick .done) ops 0).1 = .success :=
    runOps_success.1.mpr fun _ _ => by cases checked <;> decide
  refine ⟨hrun, ?_⟩
  rw [runOps_success.2 hrun]
  exact (mem_fates (· = Fate.done)).mpr fun _ _ => rfl

theorem runs_eraseSectors (hbe : Bool) (flashAddr num : Nat) :
    Runs (eraseSectors hbe (fun _ => quick .done) flashAddr num) := by
  rw [eraseSectors_eq]
  exact runs_runOps false _

theorem runs_andThen {f : Flash} {x : Err × Trace} {next : Flash → Err × Trace} (hx : Runs x)
    (hnext : ∀ g, Runs (next g)) : Runs (andThen f x next) := by
  rw [andThen, if_neg (not_not.mpr hx.1)]
  obtain ⟨hrun, hdone⟩ := hnext (effect f x.2)
  refine ⟨hrun, fun c hc => ?_⟩
  rcases List.mem_append.mp hc with hc | hc
  · exact hx.2 c hc
  · exact hdone c hc

theorem runs_eraseAround (hbe : Bool) (start num saved lo hi : Nat) (f : Flash) :
    Runs (eraseAround hbe (quickPiece .done).read (fun _ => quick .done) (fun _ => quick .done) start num saved lo hi
      f) := by
  have hread : (quickPiece .done).read.Passes := ⟨by decide, by decide⟩
  unfold eraseAround
  dsimp only
  rw [if_neg (not_not.mpr (readUnit_success.mpr hread))]
  exact runs_andThen (runs_eraseSectors hbe start num) fun _ => runs_runOps true _

theorem runs_eraseCases (hbe : Bool) (f : Flash) (offset len : Nat) : Runs (eraseCases hbe quickBus f offset len) := by
  unfold eraseCases
  dsimp only
  split
  next => exact runs_eraseSectors hbe _ _
  next =>
    split
    next => exact runs_eraseAround hbe _ _ _ _ _ f
    next =>
      split
      next => exact runs_eraseAround hbe _ _ _ _ _ f
      next =>
        refine runs_andThen (runs_eraseAround hbe _ _ _ _ _ f) fun g => runs_andThen ?_ fun g => ?_
        · split
          next => exact runs_eraseSectors hbe _ _
          next => exact ⟨rfl, fun _ hc => absurd hc List.not_mem_nil⟩
        · exact runs_eraseAround hbe _ _ _ _ _ g

section Exact
variable {size offset len : Nat}

theorem eraseRegion_quick (hlen : len ≠ 0) (hsize : (offset + len) % 2 ^ 32 ≤ size) (hbe : Bool) (f : Flash) :
    eraseRegion size hbe quickBus true f offset len = (.success, carriedOut (regionOps hbe f offset len)) := by
  obtain ⟨hrun, hdone⟩ := runs_eraseCases hbe f offset len
  have hgives := gives_eraseCases (by decide) (by decide) hbe f offset len hrun hdone
  rw [eraseRegion, if_neg hlen, if_neg (by omega), if_neg (by decide)]
  exact Prod.ext hrun hgives

theorem eraseRegion_success {hbe mem : Bool} {bus : RegionBus} {f : Flash} {t : Trace}
    (hread₁ : bus.read₁.fate ≠ .dropped) (hread₂ : bus.read₂.fate ≠ .dropped)
    (hrun : eraseRegion size hbe bus mem f offset len = (.success, t)) (hdone : AllDone t) :
    t = carriedOut (regionOps hbe f offset len) := by
  unfold eraseRegion at hrun
  split at hrun
  next => cases hrun
  next =>
    split at hrun
    next => cases hrun
    next =>
      split at hrun
      next => cases hrun
      next =>
        have htrace : (eraseCases hbe bus f offset len).2 = t := congrArg Prod.snd hrun
        have hret : (eraseCases hbe bus f offset len).1 = .success := congrArg Prod.fst hrun
        rw [← htrace] at hdone ⊢
        exact gives_eraseCases hread₁ hread₂ hbe f offset len hret hdone

theorem erasesOnly_carriedOut {f : Flash} {ops : List Op} (hblank : BlankOn (replay f ops) offset (offset + len))
    (hkept : ∀ a < size, a < offset ∨ offset + len ≤ a → replay f ops a = f a)
    (hsectors : ∀ op ∈ ops, ∀ a, op.Touches a →
      ∃ b, offset ≤ b ∧ b < offset + len ∧ b / sectorSize = a / sectorSize) :
    ErasesOnly size f offset len (carriedOut ops) := by
  refine ⟨?_, ?_, fun c hc a ha => ?_⟩
  · rwa [effect_carriedOut]
  · rwa [effect_carriedOut]
  · obtain ⟨op, hop, rfl⟩ := List.mem_map.mp hc
    exact hsectors op hop a ha

/-- A sector that begins in front of the end of a range, and does not end in front of its start, has a byte of it. -/
theorem sector_meets {a : Nat} (hlen : len ≠ 0) (hlo : offset / sectorSize * sectorSize ≤ a)
    (hhi : a / sectorSize * sectorSize < offset + len) :
    ∃ b, offset ≤ b ∧ b < offset + len ∧ b / sectorSize = a / sectorSize := by
  rcases Nat.lt_or_ge (a / sectorSize * sectorSize) offset with hbefore | hbehind
  · refine ⟨offset, Nat.le_refl _, by omega, ?_⟩
    simp only [sectorSize_eq] at hlo hbefore ⊢
    omega
  · exact ⟨a / sectorSize * sectorSize, hbehind, hhi, Nat.mul_div_cancel _ sectorSize_pos⟩

end Exact

end WmIot.Flash.External
