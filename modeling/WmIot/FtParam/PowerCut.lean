import WmIot.FtParam.Boot
import WmIot.Lib.Crc32

/-!
# Power cuts while a parameter is set

A call overwrites the second copy first. Behind a good first copy that is safe at every cut; an
image whose only good copy is the second one loses it with the first erase.
-/

namespace WmIot.FtParam
open NorFlash
set_option autoImplicit false

/-- One copy is valid and holds one of the blocks, and a reset finds a copy. -/
structure Survives (P : Port) (blocks : List (List Byte)) (g : Flash) : Prop where
  copy : ∃ addr, (addr = P.addr0 ∨ addr = P.addr1) ∧ CopyValid P g addr ∧ readBytes g addr verSize ∈ blocks
  init : get32 (boot P g).ram magicNoAt = signatureWord

/-- The block a call sets out to write; the type `all` is refused. -/
def newBlocks (P : Port) (ram : Image) (opnum : FtCmd) (data : List Byte) : List (List Byte) :=
  if opnum = .all then [] else [readBytes (newImage P ram opnum data) 0 verSize]

section Cut
variable {P : Port} {f g : Flash} {mem : Allocations} {st : State} {opnum : FtCmd} {data : List Byte}
  {blocks : List (List Byte)}

theorem survives_of_copy {addr : Nat} (haddr : addr = P.addr0 ∨ addr = P.addr1) (hvalid : CopyValid P f addr)
    (hblock : readBytes f addr verSize ∈ blocks) (hsame : AgreeOn g f addr (addr + verSize)) : Survives P blocks g := by
  have hvalid' := hvalid.congr hsame
  refine ⟨⟨addr, haddr, hvalid', ?_⟩, ?_⟩
  · rw [hsame.readBytes (Nat.le_refl _) (Nat.le_refl _)]
    exact hblock
  · apply boot_magic
    rcases haddr with rfl | rfl
    · exact Or.inl hvalid'
    · exact Or.inr hvalid'

/-- Writes of the second copy keep off the first one. -/
theorem write_off_first {refused : Bool} {src : List Byte} (hlen : src.length = verSize) :
    ∀ op ∈ Flash.wrWithErasePrivate P.size refused f P.addr1 src, ∀ a, P.addr0 ≤ a → a < P.addr0 + verSize →
      ¬ op.Touches a := by
  intro op hop a _ hhi htouch
  have hin := Flash.wrWithErasePrivate_touches (aligned1 P) (by rw [hlen]; decide) hop htouch
  unfold Port.addr1 at hin
  unfold verSize at hhi
  omega

theorem write_off_second {refused : Bool} {src : List Byte} (hlen : src.length = verSize) :
    ∀ op ∈ Flash.wrWithErasePrivate P.size refused f P.addr0 src, ∀ a, P.addr1 ≤ a → a < P.addr1 + verSize →
      ¬ op.Touches a := by
  intro op hop a hlo _ htouch
  have hin := Flash.wrWithErasePrivate_touches P.aligned (by rw [hlen]; decide) hop htouch
  unfold Port.addr1 at hlo
  unfold Flash.sectorSize at hin
  omega

theorem syncSecond_off_first :
    ∀ op ∈ (syncSecond P mem st).2, ∀ a, P.addr0 ≤ a → a < P.addr0 + verSize → ¬ op.Touches a := by
  unfold syncSecond
  split
  · simp
  · split
    · exact write_off_first (readBytes_length _ _ _)
    · simp

/-- Behind a good first copy, no cut of the two writes leaves less than the old or the new block. -/
theorem writeCopies_survives {ram : Image} (hram : P.check ram = .current)
    (hvalid : CopyValid P f P.addr0) (hold : readBytes f P.addr0 verSize ∈ blocks)
    (hnew : readBytes ram 0 verSize ∈ blocks) (hcut : Cut f (writeCopies P mem f ram).2 g) : Survives P blocks g := by
  have hlen : (readBytes ram 0 verSize).length = verSize := readBytes_length _ _ _
  unfold writeCopies at hcut
  dsimp only at hcut
  split at hcut
  · exact survives_of_copy (Or.inl rfl) hvalid hold (hcut.agreeOn (write_off_first hlen))
  · rename_i hmatch
    rcases hcut.split with hcut | hcut
    · exact survives_of_copy (Or.inl rfl) hvalid hold (hcut.agreeOn (write_off_first hlen))
    · obtain ⟨hvalid₁, hblock₁⟩ := copy_of_match hram (by simpa using hmatch)
      refine survives_of_copy (Or.inr rfl) hvalid₁ ?_ (hcut.agreeOn (write_off_second hlen))
      rw [hblock₁]
      exact hnew

/-- A good first copy is the old block, whatever memory holds, until the new one is in the second. -/
theorem set_survives_of_first (mem : Allocations) (st : State) (hlen : data.length = opnum.len)
    (hvalid : CopyValid P st.flash P.addr0) (hold : readBytes st.flash P.addr0 verSize ∈ blocks)
    (hnew : ∀ b ∈ newBlocks P st.ram opnum data, b ∈ blocks)
    (hcut : Cut st.flash (wmFtParamSet P mem st opnum data).ops g) : Survives P blocks g := by
  rcases wmFtParamSet_cases P mem st hlen with ⟨ram, hops⟩ | ⟨ram, hops⟩ | ⟨hall, -, hops⟩
  · rw [hops] at hcut
    exact survives_of_copy (Or.inl rfl) hvalid hold (hcut.agreeOn (by simp))
  · rw [hops] at hcut
    exact survives_of_copy (Or.inl rfl) hvalid hold (hcut.agreeOn syncSecond_off_first)
  · rw [hops] at hcut
    rcases hcut.split with hcut | hcut
    · exact survives_of_copy (Or.inl rfl) hvalid hold (hcut.agreeOn syncSecond_off_first)
    · have hkept : AgreeOn (replay st.flash (syncSecond P mem st).2) st.flash P.addr0 (P.addr0 + verSize) :=
        replay_agreeOn _ _ syncSecond_off_first
      refine writeCopies_survives (check_newImage hall hlen) (hvalid.congr hkept) ?_ (hnew _ ?_) hcut
      · rw [hkept.readBytes (Nat.le_refl _) (Nat.le_refl _)]
        exact hold
      · rw [newBlocks, if_neg hall]
        exact List.mem_singleton.mpr rfl

/-- Without a good first copy the second one is not brought up to date. -/
theorem syncSecond_of_invalid (h : ¬ CopyValid P st.flash P.addr0) : syncSecond P mem st = (true, []) := by
  have hfailed : (ftParamInit P mem.read0 st.flash P.addr0 blankImage).1 = .failed := by
    cases hread : mem.read0 with
    | false => rw [ftParamInit_refused (Or.inr rfl)]
    | true =>
      by_contra hne
      exact h (copyValid_iff.mpr hne)
  unfold syncSecond
  rw [if_pos hfailed]

/-- Without a good first copy, and unless the first write is refused, the call erases the second. -/
theorem set_erases_second (mem : Allocations) (st : State) (hlen : data.length = opnum.len)
    (hinvalid : ¬ CopyValid P st.flash P.addr0) (hall : opnum ≠ .all) (hbuffer : mem.buffer = true) (hwrite : mem.write1 = true)
    (hroom : P.addr1 + verSize ≤ P.size) :
    Cut st.flash (wmFtParamSet P mem st opnum data).ops (erase st.flash P.addr1 Flash.sectorSize) := by
  have hpos := (FtCmd.place hall).2.1
  have hops : (wmFtParamSet P mem st opnum data).ops =
      (writeCopies P mem st.flash (newImage P st.ram opnum data)).2 := by
    unfold wmFtParamSet
    rw [if_neg (by rw [hbuffer]; simp only [Bool.true_eq_false, or_false]; omega)]
    simp only [syncSecond_of_invalid hinvalid, if_true, storeParam_eq hall hlen, replay_nil, List.nil_append]
    rfl
  have hblock : (readBytes (newImage P st.ram opnum data) 0 verSize).length = verSize := readBytes_length _ _ _
  rw [hops]
  unfold writeCopies
  rw [hwrite]
  dsimp only
  rw [Flash.wrWithErasePrivate_eq (by rw [hblock]; exact hroom) (aligned1 P) (by rw [hblock]; decide)
    (by rw [hblock]; decide)]
  split
  · exact .next (.start _ _)
  · exact .next (.start _ _)

theorem erased_second : ¬ CopyValid P (erase f P.addr1 Flash.sectorSize) P.addr1 := by
  rintro ⟨-, hcheck⟩
  have hblank : AgreeOn (copyAt (erase f P.addr1 Flash.sectorSize) P.addr1) blankImage 0 verSize := by
    intro a _ ha
    have hlt : a < Flash.sectorSize := Nat.lt_trans ha (by decide)
    exact erase_blankOn f P.addr1 Flash.sectorSize (P.addr1 + a) (by omega) (by omega)
  have hmagic := check_magic hcheck
  rw [get32_congr magicNoAt hblank (by decide) (by decide)] at hmagic
  exact absurd hmagic (by decide)

/-- The erase of the only valid copy can be cut, and then no copy is left. -/
theorem set_loses_second (mem : Allocations) (st : State) (hlen : data.length = opnum.len)
    (hinvalid : ¬ CopyValid P st.flash P.addr0) (hall : opnum ≠ .all) (hbuffer : mem.buffer = true)
    (hwrite : mem.write1 = true) (hroom : P.addr1 + verSize ≤ P.size) :
    ∃ g, Cut st.flash (wmFtParamSet P mem st opnum data).ops g ∧ ¬ Accepted P g := by
  refine ⟨_, set_erases_second mem st hlen hinvalid hall hbuffer hwrite hroom, ?_⟩
  rintro (hvalid | hvalid)
  · refine hinvalid (hvalid.congr (AgreeOn.symm (AgreeOn.erase (Or.inl ?_))))
    unfold Port.addr1 verSize
    omega
  · exact erased_second hvalid

theorem Survives.accepted (h : Survives P blocks g) : Accepted P g := by
  obtain ⟨addr, haddr, hvalid, -⟩ := h.copy
  rcases haddr with rfl | rfl
  · exact Or.inl hvalid
  · exact Or.inr hvalid

end Cut

/-- Every cut of a call leaves the old or the new block in a valid copy exactly when the first copy
was valid, or the call stops before it writes the new block to the second. -/
theorem set_survives_power_cut_iff (P : Port) (f : Flash) (hacc : Accepted P f) (mem : Allocations)
    (opnum : FtCmd) (data : List Byte) (hlen : data.length = opnum.len) :
    (∀ g, Cut f (wmFtParamSet P mem (boot P f) opnum data).ops g →
      Survives P (readBytes f (loadedAddr P f) verSize :: newBlocks P (boot P f).ram opnum data) g) ↔
    CopyValid P f P.addr0 ∨ opnum = .all ∨ mem.buffer = false ∨ mem.write1 = false := by
  have hflash : (boot P f).flash = f := by
    rw [boot_eq hacc]
  have hloaded := hacc.loaded
  by_cases hfirst : CopyValid P f P.addr0
  · refine ⟨fun _ => Or.inl hfirst, fun _ g hcut => ?_⟩
    have haddr : loadedAddr P f = P.addr0 := by
      rw [loadedAddr, if_neg (copyValid_iff.mp hfirst)]
    refine set_survives_of_first mem (boot P f) hlen ?_ ?_ (fun b hb => List.mem_cons_of_mem _ hb) ?_
    · rw [hflash]
      exact hfirst
    · rw [hflash, haddr]
      exact List.mem_cons_self
    · rw [hflash]
      exact hcut
  · have haddr : loadedAddr P f = P.addr1 := by
      unfold loadedAddr
      rw [if_pos (by_contra fun hne => hfirst (copyValid_iff.mpr hne))]
    rw [haddr] at hloaded ⊢
    have hinvalid : ¬ CopyValid P (boot P f).flash P.addr0 := by rwa [hflash]
    have hsync : syncSecond P mem (boot P f) = (true, []) := syncSecond_of_invalid hinvalid
    constructor
    · intro hsurvive
      by_contra hcond
      push Not at hcond
      obtain ⟨-, hall, hbuffer, hwrite⟩ := hcond
      obtain ⟨g, hcut, hlost⟩ := set_loses_second mem (boot P f) hlen hinvalid hall (by simpa using hbuffer)
        (by simpa using hwrite) hloaded.1
      rw [hflash] at hcut
      exact hlost (hsurvive g hcut).accepted
    · intro hcond g hcut
      have hstill : ∀ ops, ops = [] → Cut f ops g →
          Survives P (readBytes f P.addr1 verSize :: newBlocks P (boot P f).ram opnum data) g := by
        rintro ops rfl hcut
        exact survives_of_copy (Or.inr rfl) hloaded List.mem_cons_self (hcut.agreeOn (by simp))
      rcases wmFtParamSet_cases P mem (boot P f) hlen with ⟨ram, hops⟩ | ⟨ram, hops⟩ | ⟨hall, hbuffer, hops⟩
      · rw [hops] at hcut
        exact hstill _ rfl hcut
      · rw [hops, hsync] at hcut
        exact hstill _ rfl hcut
      · -- the write to the second copy is refused, and the first one is written only when that changes nothing
        have hwrite : mem.write1 = false := by
          rcases hcond with h | h | h | h
          · exact absurd h hfirst
          · exact absurd h hall
          · rw [hbuffer] at h
            cases h
          · exact h
        have hrefused : ∀ src, Flash.wrWithErasePrivate P.size false f P.addr1 src = [] := by
          intro src
          unfold Flash.wrWithErasePrivate
          rw [if_pos (Or.inr (Or.inr rfl))]
        rw [hops, hsync, hflash, List.nil_append, replay_nil] at hcut
        unfold writeCopies at hcut
        rw [hwrite] at hcut
        simp only [hrefused, replay_nil, List.nil_append] at hcut
        split at hcut
        · exact hstill _ rfl hcut
        · exact survives_of_copy (Or.inr rfl) hloaded List.mem_cons_self
            (hcut.agreeOn (write_off_second (readBytes_length _ _ _)))

/-- A chip of 2 MiB with the partition where the tool puts it. -/
def chip : Port := ⟨0x200000, 0, Nat.dvd_zero _, Crc32.update 0xFFFFFFFF#32⟩

/-- A block with its station address set. -/
def testBlock : Image := newImage chip blankImage .wifiMac [0x28, 0x6D, 0xCD, 0, 0, 1]

/-- The first copy is erased, the second one holds the block. -/
def secondOnly : Flash := fun a => if 0x1000 ≤ a then testBlock (a - 0x1000) else 0xFF#8

def granted : Allocations := ⟨true, true, true, true, true, true, true, true, true⟩

theorem copyValid_secondOnly : CopyValid chip secondOnly chip.addr1 := by
  have hcopy : AgreeOn (copyAt secondOnly chip.addr1) testBlock 0 verSize := by
    intro a _ _
    have haddr : chip.addr1 = 0x1000 := rfl
    simp only [copyAt, secondOnly, haddr]
    rw [if_pos (Nat.le_add_right _ _), Nat.add_sub_cancel_left]
  have hcheck : chip.check testBlock = .current := check_newImage (by decide) rfl
  refine ⟨by decide, ?_⟩
  rw [check_congr hcopy, hcheck]
  decide

theorem not_copyValid_secondOnly : ¬ CopyValid chip secondOnly chip.addr0 := by
  rintro ⟨-, hcheck⟩
  exact absurd (check_magic hcheck) (by decide)

theorem set_survives_power_cut_iff_second :
    (∀ g, Cut secondOnly (wmFtParamSet chip granted (boot chip secondOnly) .btMac [1, 2, 3, 4, 5, 6]).ops g →
      Survives chip (readBytes secondOnly (loadedAddr chip secondOnly) verSize ::
        newBlocks chip (boot chip secondOnly).ram .btMac [1, 2, 3, 4, 5, 6]) g) ↔
    CopyValid chip secondOnly chip.addr0 ∨ FtCmd.btMac = .all ∨ granted.buffer = false ∨ granted.write1 = false :=
  set_survives_power_cut_iff chip secondOnly (Or.inr copyValid_secondOnly) granted .btMac [1, 2, 3, 4, 5, 6] rfl

/-- The image is accepted, and the first erase of the call leaves no valid copy. -/
theorem set_loses_only_copy :
    Accepted chip secondOnly ∧
      ∃ g, Cut secondOnly (wmFtParamSet chip granted (boot chip secondOnly) .btMac [1, 2, 3, 4, 5, 6]).ops g ∧
        ¬ Accepted chip g := by
  have hacc : Accepted chip secondOnly := Or.inr copyValid_secondOnly
  have hflash : (boot chip secondOnly).flash = secondOnly := by
    rw [boot_eq hacc]
  refine ⟨hacc, ?_⟩
  have hlost : ∃ g, Cut (boot chip secondOnly).flash
      (wmFtParamSet chip granted (boot chip secondOnly) .btMac [1, 2, 3, 4, 5, 6]).ops g ∧ ¬ Accepted chip g :=
    set_loses_second granted (boot chip secondOnly) rfl (by rw [hflash]; exact not_copyValid_secondOnly) (by decide) rfl
      rfl (by decide)
  rwa [hflash] at hlost

end WmIot.FtParam
