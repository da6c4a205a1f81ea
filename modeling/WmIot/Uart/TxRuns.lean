import WmIot.Uart.TxQueue

/-!
# Runs of writes and TX-done callbacks

What holds at each access of the writer, and that both the writer and the callback keep it. The
callback must not fall into the two places where the writer acts on what it read before: while it
has read `tbm->w` or `tbm->append` and not yet set `writting`, and after it saw a busy HAL and
still has `writting` set.
-/

namespace WmIot.Uart
open Ring Transition
set_option autoImplicit false

/-- The callback here would pass a node to the HAL behind the writer's back, or leave one behind:
the append node has data, and the writer holds a copy of a pointer that moves, or is about to
leave with `writting` set. -/
def Window (s : State) : Prop :=
  0 < (s.node s.append).status.dateSize ∧
    match s.pc with
    | .loadAppend _ write => write = s.append
    | .setWritting _ => True
    | .leave _ => s.writting = true
    | _ => False

instance : DecidablePred Window := fun s => by
  unfold Window
  cases s.pc <;> infer_instance

/-- Every callback of the run finds the writer outside the window. -/
def offWindow (s : State) (e : Event) : Prop :=
  match e with
  | .txDone => ¬ Window s
  | _ => True

instance (s : State) (e : Event) : Decidable (offWindow s e) := by
  cases e <;> unfold offWindow <;> infer_instance

/-- Nothing waits while the HAL is idle. -/
def Quiet (s : State) : Prop := s.hal = none → (s.node s.append).status.dateSize = 0

/-- Between calls, and before `writting` is set. -/
structure Resting (size : Nat) (s : State) : Prop where
  queue : Queue size s s.w s.returned
  writting : s.writting = false
  quiet : Quiet s

/-- `writting` is set and the writer's copy of `tbm->append` is right. -/
structure Active (size : Nat) (s : State) (cur : Fin txBufNum) (c : Call) : Prop where
  queue : Queue size s cur (s.returned ++ c.data.take c.count)
  writting : s.writting = true
  append : c.append = s.append

/-- The writer has found room for `n` bytes in its node. -/
structure Room (size : Nat) (s : State) (c : Call) (n : Nat) : Prop where
  free : (s.node c.write).status.sending = false
  pos : 0 < n
  left : n ≤ c.data.length - c.count
  fits : (s.node c.write).status.dateSize + n ≤ size

/-- The bytes are in the node, behind its data. -/
def Copied (s : State) (c : Call) (n : Nat) : Prop :=
  ((s.node c.write).buf.drop (s.node c.write).status.dateSize).take n =
    (c.data.drop c.count).take n

/-- The writer found the HAL idle and data in the append node. -/
structure Ready (size : Nat) (s : State) (c : Call) : Prop extends Active size s s.w c where
  idle : s.hal = none
  data : 0 < (s.node s.append).status.dateSize

/-- The state while the writer starts a transfer: `s` is where it decided to. -/
def marked (s : State) (w append : Fin txBufNum) (writting : Bool) (pc : Pc) : State :=
  { s with node := (started s).node, w := w, append := append, writting := writting, pc := pc }

/-- What holds at each access. -/
def Inv (size : Nat) (s : State) : Prop :=
  match s.pc with
  | .outside => Resting size s
  | .waiting _ => Resting size s
  | .loadAppend _ write => Resting size s ∧ write = s.w
  | .setWritting c => Resting size s ∧ c.write = s.w ∧ c.append = s.append ∧ c.count = 0
  | .testSending c => Active size s s.w c ∧ c.write = s.w ∧ c.count < c.data.length
  | .testRoom c => Active size s s.w c ∧ c.write = s.w ∧ c.count < c.data.length ∧
      (s.node c.write).status.sending = false
  | .loadOffset c n => Active size s s.w c ∧ c.write = s.w ∧ Room size s c n
  | .copy c n offset => Active size s s.w c ∧ c.write = s.w ∧ Room size s c n ∧
      offset = (s.node c.write).status.dateSize
  | .loadStatus c n => Active size s s.w c ∧ c.write = s.w ∧ Room size s c n ∧ Copied s c n
  | .storeStatus c n status => Active size s s.w c ∧ c.write = s.w ∧ Room size s c n ∧
      Copied s c n ∧ status = (s.node c.write).status
  | .testFull c => Active size s
      (if (s.node c.write).status.dateSize = size then s.w + 1 else s.w) c ∧ c.write = s.w ∧
      (s.node c.write).status.sending = false
  | .storeWrite c => Active size s c.write c
  | .testIdle c => Active size s s.w c
  | .testPending c => Active size s s.w c ∧ s.hal = none
  | .loadMark c => Ready size s c
  | .storeMark c status => Ready size s c ∧ status = (s.node s.append).status
  | .testWrite c => ∃ s₀, Ready size s₀ c ∧ s = marked s₀ s₀.w s₀.append true (.testWrite c)
  | .loadNext c => ∃ s₀, Ready size s₀ c ∧ s₀.w = s₀.append ∧
      s = marked s₀ s₀.w s₀.append true (.loadNext c)
  | .storeNext c w => ∃ s₀, Ready size s₀ c ∧ s₀.w = s₀.append ∧ w = s₀.w ∧
      s = marked s₀ s₀.w s₀.append true (.storeNext c w)
  | .storeAppend c => ∃ s₀, Ready size s₀ c ∧
      s = marked s₀ (started s₀).w s₀.append true (.storeAppend c)
  | .clearWritting c => ∃ s₀, Ready size s₀ c ∧
      s = marked s₀ (started s₀).w (s₀.append + 1) true (.clearWritting c)
  | .callApi c => ∃ s₀, Ready size s₀ c ∧
      s = marked s₀ (started s₀).w (s₀.append + 1) false (.callApi c)
  | .leave c => Queue size s s.w (s.returned ++ c.data.take c.count) ∧ Quiet s

section Writer
variable {size : Nat} {s s' : State} {c : Call}

theorem next_ne (a : Fin txBufNum) : a + 1 ≠ a := by
  revert a
  decide

theorem inv_enterLoop (h : Active size s s.w c) (hw : c.write = s.w) :
    Inv size { s with pc := enterLoop c } := by
  have hactive : Active size { s with pc := enterLoop c } s.w c :=
    ⟨h.queue.congr rfl rfl rfl rfl rfl, h.writting, h.append⟩
  by_cases hlt : c.count < c.data.length
  · have hpc : enterLoop c = .testSending c := if_pos hlt
    rw [hpc] at hactive ⊢
    exact ⟨hactive, hw, hlt⟩
  · have hpc : enterLoop c = .testIdle c := if_neg hlt
    rw [hpc] at hactive ⊢
    exact hactive

theorem inv_storeStatus (hpos : 0 < size) (hmax : size < 2 ^ 16) {n : Nat}
    (h : Active size s s.w c) (hw : c.write = s.w) (hroom : Room size s c n)
    (hcopied : Copied s c n) :
    Inv size { s with
      node := setStatus s.node c.write
        { (s.node c.write).status with
          dateSize := ((s.node c.write).status.dateSize + n) % 2 ^ 16 }
      pc := .testFull { c with count := c.count + n } } := by
  have hlen : ((c.data.drop c.count).take n).length = n := by
    have := hroom.left
    simp
    omega
  have hfits := hroom.fits
  have hfree := hroom.free
  have hbuf := hcopied
  rw [Copied] at hbuf
  rw [hw] at hfree hfits hbuf
  have hqueue := h.queue.store hpos hfree (by rw [hlen]; exact hroom.pos)
    (by rw [hlen]; exact hfits) (by rw [hlen]; exact hbuf)
  rw [hlen, List.append_assoc, ← List.take_add] at hqueue
  have hstatus : ({ (s.node s.w).status with
      dateSize := ((s.node s.w).status.dateSize + n) % 2 ^ 16 } : Status) =
      ⟨false, (s.node s.w).status.dateSize + n⟩ := by
    dsimp only
    rw [Nat.mod_eq_of_lt (by omega), hfree]
  rw [hw, hstatus]
  refine ⟨⟨?_, h.writting, h.append⟩, rfl, ?_⟩
  · simp only [setStatus_self]
    exact hqueue.congr rfl rfl rfl rfl rfl
  · dsimp only
    rw [setStatus_self]

/-- The transfer that the writer starts is the one the callback would have started. -/
theorem Ready.callApi {s₀ : State} (h : Ready size s₀ c) (hpos : 0 < size) :
    ∃ s', txApi (marked s₀ (started s₀).w (s₀.append + 1) false (.callApi c)) c.append
        ((started s₀).node c.append).status.dateSize = some s' ∧
      Inv size { s' with pc := .leave c } := by
  have hdata := h.data
  have happend := h.append
  have hsize : ((started s₀).node c.append).status.dateSize =
      (s₀.node s₀.append).status.dateSize := by
    rw [happend]
    exact congrArg (fun n => n.status.dateSize) (setStatus_self ..)
  have hbuf : ((started s₀).node c.append).buf = (s₀.node s₀.append).buf := by
    rw [happend]
    exact setStatus_buf ..
  refine ⟨{ started s₀ with writting := false, pc := .callApi c }, ?_, ?_, ?_⟩
  · have hgo : ¬ ((marked s₀ (started s₀).w (s₀.append + 1) false (.callApi c)).hal.isSome = true ∨
        (s₀.node s₀.append).status.dateSize = 0) := by
      rw [show (marked s₀ (started s₀).w (s₀.append + 1) false (.callApi c)).hal = none from h.idle]
      simp
      omega
    rw [hsize, txApi, if_neg hgo]
    have hsent : ((marked s₀ (started s₀).w (s₀.append + 1) false (.callApi c)).node c.append).buf =
        (s₀.node s₀.append).buf := hbuf
    rw [hsent, happend]
    rfl
  · exact (h.queue.start hpos h.idle h.data).congr rfl rfl rfl rfl rfl
  · exact fun hidle => by cases hidle

theorem inv_leave (hq : Queue size s s.w (s.returned ++ c.data.take c.count)) (hquiet : Quiet s) :
    Inv size { s with
      writting := false
      returned := s.returned ++ c.data.take c.count
      pc := afterCall c } := by
  have hrest : Resting size { s with
      writting := false
      returned := s.returned ++ c.data.take c.count
      pc := afterCall c } := ⟨hq.congr rfl rfl rfl rfl rfl, rfl, hquiet⟩
  by_cases hlt : c.count < c.data.length
  · have hpc : afterCall c = .waiting (c.data.drop c.count) := if_pos hlt
    rw [hpc] at hrest ⊢
    exact hrest
  · have hpc : afterCall c = .outside := if_neg hlt
    rw [hpc] at hrest ⊢
    exact hrest

/-- One access of the writer. -/
theorem Inv.writerStep (hpos : 0 < size) (hmax : size < 2 ^ 16) (h : Inv size s)
    (hs : writerStep size s = some s') : Inv size s' := by
  unfold Inv at h
  unfold Uart.writerStep at hs
  cases hpc : s.pc with
  | outside =>
    rw [hpc] at hs
    cases hs
  | waiting rest =>
    rw [hpc] at hs
    cases hs
  | loadAppend data write =>
    rw [hpc] at h hs
    cases hs
    obtain ⟨hrest, hw⟩ := h
    exact ⟨⟨hrest.queue.congr rfl rfl rfl rfl rfl, hrest.writting, hrest.quiet⟩, hw, rfl, rfl⟩
  | setWritting c =>
    rw [hpc] at h hs
    cases hs
    obtain ⟨hrest, hw, happend, hcount⟩ := h
    have hactive : Active size { s with writting := true } s.w c := by
      refine ⟨?_, rfl, happend⟩
      rw [hcount, List.take_zero, List.append_nil]
      exact hrest.queue.congr rfl rfl rfl rfl rfl
    exact inv_enterLoop (s := { s with writting := true }) hactive hw
  | testSending c =>
    rw [hpc] at h hs
    cases hs
    obtain ⟨hactive, hw, hcount⟩ := h
    by_cases hsend : (s.node c.write).status.sending = true
    · rw [if_pos hsend]
      exact ⟨hactive.queue.congr rfl rfl rfl rfl rfl, hactive.writting, hactive.append⟩
    · rw [if_neg hsend]
      exact ⟨⟨hactive.queue.congr rfl rfl rfl rfl rfl, hactive.writting, hactive.append⟩, hw, hcount,
        Bool.eq_false_of_not_eq_true hsend⟩
  | testRoom c =>
    rw [hpc] at h hs
    cases hs
    obtain ⟨hactive, hw, hcount, hfree⟩ := h
    by_cases hroom : (s.node c.write).status.dateSize < size
    · rw [if_pos hroom]
      refine ⟨⟨hactive.queue.congr rfl rfl rfl rfl rfl, hactive.writting, hactive.append⟩, hw,
        hfree, ?_, ?_, ?_⟩
      · omega
      · omega
      · show (s.node c.write).status.dateSize + _ ≤ size
        omega
    · rw [if_neg hroom]
      exact ⟨hactive.queue.congr rfl rfl rfl rfl rfl, hactive.writting, hactive.append⟩
  | loadOffset c n =>
    rw [hpc] at h hs
    cases hs
    obtain ⟨hactive, hw, hroom⟩ := h
    exact ⟨⟨hactive.queue.congr rfl rfl rfl rfl rfl, hactive.writting, hactive.append⟩, hw,
      ⟨hroom.free, hroom.pos, hroom.left, hroom.fits⟩, rfl⟩
  | copy c n offset =>
    rw [hpc] at h hs
    cases hs
    obtain ⟨hactive, hw, hroom, hoffset⟩ := h
    subst hoffset
    have hlen : ((c.data.drop c.count).take n).length = n := by
      have := hroom.left
      simp
      omega
    have hfits := hroom.fits
    have hsize := hactive.queue.length c.write
    have hcopy := hactive.queue.copy hroom.free
      (show (s.node c.write).status.dateSize + ((c.data.drop c.count).take n).length ≤ size by
        rw [hlen]
        exact hfits)
    refine ⟨⟨hcopy.congr rfl rfl rfl rfl rfl, hactive.writting, hactive.append⟩, hw,
      ⟨?_, hroom.pos, hroom.left, ?_⟩, ?_⟩
    · rw [setBuf_status]
      exact hroom.free
    · rw [setBuf_status]
      exact hfits
    · dsimp only [Copied]
      rw [setBuf_self]
      dsimp only
      have hdrop : ((memcpy (s.node c.write).buf (s.node c.write).status.dateSize
          ((c.data.drop c.count).take n)).drop (s.node c.write).status.dateSize).take
          ((c.data.drop c.count).take n).length = (c.data.drop c.count).take n :=
        memcpy_drop (by omega)
      rw [hlen] at hdrop
      exact hdrop
  | loadStatus c n =>
    rw [hpc] at h hs
    cases hs
    obtain ⟨hactive, hw, hroom, hcopied⟩ := h
    exact ⟨⟨hactive.queue.congr rfl rfl rfl rfl rfl, hactive.writting, hactive.append⟩, hw,
      ⟨hroom.free, hroom.pos, hroom.left, hroom.fits⟩, hcopied, rfl⟩
  | storeStatus c n status =>
    rw [hpc] at h hs
    cases hs
    obtain ⟨hactive, hw, hroom, hcopied, hstatus⟩ := h
    subst hstatus
    exact inv_storeStatus hpos hmax hactive hw hroom hcopied
  | testFull c =>
    rw [hpc] at h hs
    cases hs
    obtain ⟨hactive, hw, -⟩ := h
    by_cases hfull : (s.node c.write).status.dateSize = size
    · rw [if_pos hfull] at hactive ⊢
      refine ⟨?_, hactive.writting, hactive.append⟩
      dsimp only
      rw [hw]
      exact hactive.queue.congr rfl rfl rfl rfl rfl
    · rw [if_neg hfull] at hactive ⊢
      exact inv_enterLoop hactive hw
  | storeWrite c =>
    rw [hpc] at h hs
    cases hs
    have hactive : Active size { s with w := c.write } c.write c :=
      ⟨h.queue.congr rfl rfl rfl rfl rfl, h.writting, h.append⟩
    exact inv_enterLoop (s := { s with w := c.write }) hactive rfl
  | testIdle c =>
    rw [hpc] at h hs
    cases hs
    by_cases hr : c.append = s.r
    · rw [if_pos hr]
      have hidle : s.hal = none := by
        -- with a transfer on, the append node is the one after `r`
        by_contra hbusy
        obtain ⟨t, ht⟩ := Option.ne_none_iff_exists'.mp hbusy
        have hnext := (h.queue.busy t ht).1
        rw [← h.append, hr] at hnext
        exact next_ne _ hnext
      exact ⟨⟨h.queue.congr rfl rfl rfl rfl rfl, h.writting, h.append⟩, hidle⟩
    · rw [if_neg hr]
      refine ⟨h.queue.congr rfl rfl rfl rfl rfl, fun hidle => ?_⟩
      rw [(h.queue.idle hidle).1] at hr
      exact absurd h.append hr
  | testPending c =>
    rw [hpc] at h hs
    cases hs
    obtain ⟨hactive, hidle⟩ := h
    have happend := hactive.append
    by_cases hdata : 0 < (s.node c.append).status.dateSize
    · rw [if_pos hdata]
      rw [happend] at hdata
      exact ⟨⟨hactive.queue.congr rfl rfl rfl rfl rfl, hactive.writting, happend⟩, hidle, hdata⟩
    · rw [if_neg hdata]
      refine ⟨hactive.queue.congr rfl rfl rfl rfl rfl, fun _ => ?_⟩
      rw [happend] at hdata
      dsimp only
      omega
  | loadMark c =>
    rw [hpc] at h hs
    cases hs
    refine ⟨⟨⟨h.queue.congr rfl rfl rfl rfl rfl, h.writting, h.append⟩, h.idle, h.data⟩, ?_⟩
    dsimp only
    rw [h.append]
  | storeMark c status =>
    rw [hpc] at h hs
    cases hs
    obtain ⟨hready, hstatus⟩ := h
    refine ⟨s, hready, ?_⟩
    simp only [marked, started, hstatus, hready.append, ← hready.writting]
  | testWrite c =>
    rw [hpc] at h hs
    cases hs
    obtain ⟨s₀, hready, hmark⟩ := h
    have hw : s.w = s₀.w := by rw [hmark]; rfl
    have happend := hready.append
    by_cases heq : s.w = c.append
    · rw [if_pos heq]
      refine ⟨s₀, hready, by rw [← hw, heq, happend], ?_⟩
      rw [hmark]
      rfl
    · rw [if_neg heq]
      refine ⟨s₀, hready, ?_⟩
      have hstay : (started s₀).w = s₀.w := by
        rw [hw, happend] at heq
        simp [started, heq]
      rw [hmark, hstay]
      rfl
  | loadNext c =>
    rw [hpc] at h hs
    cases hs
    obtain ⟨s₀, hready, heq, hmark⟩ := h
    refine ⟨s₀, hready, heq, ?_, ?_⟩
    · rw [hmark]
      rfl
    · rw [hmark]
      rfl
  | storeNext c w =>
    rw [hpc] at h hs
    cases hs
    obtain ⟨s₀, hready, heq, hw, hmark⟩ := h
    refine ⟨s₀, hready, ?_⟩
    have hmove : (started s₀).w = w + 1 := by
      rw [hw]
      simp [started, heq]
    rw [hmark, hmove]
    rfl
  | storeAppend c =>
    rw [hpc] at h hs
    cases hs
    obtain ⟨s₀, hready, hmark⟩ := h
    refine ⟨s₀, hready, ?_⟩
    rw [hmark, hready.append]
    rfl
  | clearWritting c =>
    rw [hpc] at h hs
    cases hs
    obtain ⟨s₀, hready, hmark⟩ := h
    refine ⟨s₀, hready, ?_⟩
    rw [hmark]
    rfl
  | callApi c =>
    rw [hpc] at h hs
    obtain ⟨s₀, hready, hmark⟩ := h
    obtain ⟨s₁, hcall, hinv⟩ := hready.callApi hpos
    rw [hmark] at hs
    have hcall' : txApi (marked s₀ (started s₀).w (s₀.append + 1) false (.callApi c)) c.append
        (((marked s₀ (started s₀).w (s₀.append + 1) false (.callApi c)).node c.append).status.dateSize) =
        some s₁ := hcall
    dsimp only at hs
    rw [hcall'] at hs
    cases hs
    exact hinv
  | leave c =>
    rw [hpc] at h hs
    cases hs
    exact inv_leave h.1 h.2

end Writer

section Callback
variable {size : Nat} {s s' : State} {cur : Fin txBufNum} {acc : List UInt8} {t : Transfer}

/-- The state once the callback has freed the node that was sent. -/
def finished (s : State) : State := finishSent { s with hal := none }

theorem Queue.finished_eq (q : Queue size s cur acc) (ht : s.hal = some t) :
    finished s = { s with hal := none, node := setStatus s.node s.r ⟨false, 0⟩, r := s.append } :=
  q.finishSent_eq ht

/-- Only the node that was sent changes. -/
theorem Queue.finished_node (q : Queue size s cur acc) (ht : s.hal = some t) {i : Fin txBufNum}
    (hfree : (s.node i).status.sending = false) : (finished s).node i = s.node i := by
  rw [q.finished_eq ht]
  refine setStatus_of_ne _ (fun heq => ?_) _
  rw [((q.busy t ht).2.2.1 i).mpr heq] at hfree
  cases hfree

theorem Queue.append_free (q : Queue size s cur acc) : (s.node s.append).status.sending = false := by
  rcases hhal : s.hal with _ | t
  · exact (q.idle hhal).2 s.append
  · obtain ⟨hnext, -, hsend, -⟩ := q.busy t hhal
    rw [← Bool.not_eq_true, hsend, ← hnext]
    exact next_ne s.r

/-- The callback frees the node, and then may start a transfer. -/
theorem Queue.txDone_cases (q : Queue size s cur acc) (ht : s.hal = some t)
    (hs : txDone s = some s') :
    (s' = finished s ∧ (s.writting = true ∨ (s.node s.append).status.dateSize = 0)) ∨
    (s' = started (finished s) ∧ s.writting = false ∧ 0 < (s.node s.append).status.dateSize) := by
  have hrun : appendNext (finished s) s.append = s' := by
    simpa [txDone, ht, finished] using hs
  have happend : (finished s).append = s.append := by rw [q.finished_eq ht]
  have hwritting : (finished s).writting = s.writting := by rw [q.finished_eq ht]
  have hdata : ((finished s).node s.append).status.dateSize = (s.node s.append).status.dateSize := by
    rw [q.finished_node ht q.append_free]
  by_cases hgo : s.writting = true ∨ (s.node s.append).status.dateSize = 0
  · rw [appendNext_refused (by rw [hwritting, hdata]; exact hgo)] at hrun
    exact Or.inl ⟨hrun.symm, hgo⟩
  · have hw : s.writting = false := Bool.eq_false_of_not_eq_true fun h => hgo (Or.inl h)
    have hpos : 0 < (s.node s.append).status.dateSize := by omega
    have hidle : (finished s).hal = none := by rw [q.finished_eq ht]
    rw [← happend, appendNext_started hidle (by rw [hwritting, hw])
      (by rw [happend, hdata]; exact hpos)] at hrun
    exact Or.inr ⟨hrun.symm, hw, hpos⟩

/-- Between calls the callback may start the next node or leave the queue empty. -/
theorem Queue.txDone_rest (q : Queue size s s.w acc) (hpos : 0 < size) (ht : s.hal = some t)
    (hgo : s.writting = false ∨ (s.node s.append).status.dateSize = 0)
    (hs : txDone s = some s') :
    Queue size s' s'.w acc ∧ Quiet s' ∧ s'.writting = s.writting ∧ s'.pc = s.pc ∧
      s'.returned = s.returned := by
  have hf := q.finish ht
  have heq := q.finished_eq ht
  rcases q.txDone_cases ht hs with ⟨hs', hcase⟩ | ⟨hs', hw, hdata⟩
  · have hzero : (s.node s.append).status.dateSize = 0 := by
      rcases hcase with hw | hzero
      · rcases hgo with hfalse | hzero
        · rw [hw] at hfalse
          cases hfalse
        · exact hzero
      · exact hzero
    have hnode := q.finished_node ht q.append_free
    subst hs'
    have hw : (finished s).w = s.w := by rw [heq]
    refine ⟨by rw [hw]; exact hf, fun _ => ?_, by rw [heq], by rw [heq], by rw [heq]⟩
    rw [show (finished s).append = s.append by rw [heq], hnode]
    exact hzero
  · subst hs'
    have hf' : Queue size (finished s) (finished s).w acc := by
      rw [show (finished s).w = s.w by rw [heq]]
      exact hf
    have hstart := hf'.start hpos (by rw [heq])
      (by rw [show (finished s).append = s.append by rw [heq], q.finished_node ht q.append_free]
          exact hdata)
    refine ⟨hstart, fun h => (by cases h), ?_, ?_, ?_⟩
    · rw [show (started (finished s)).writting = (finished s).writting from rfl, heq]
    · rw [show (started (finished s)).pc = (finished s).pc from rfl, heq]
    · rw [show (started (finished s)).returned = (finished s).returned from rfl, heq]

/-- While `writting` is set the callback frees the node and no more. -/
theorem Active.callback {c : Call} (h : Active size s cur c) (ht : s.hal = some t)
    (hs : txDone s = some s') :
    Active size s' cur c ∧ s'.w = s.w ∧ s'.pc = s.pc ∧
      ∀ i, (s.node i).status.sending = false → s'.node i = s.node i := by
  have heq := h.queue.finished_eq ht
  rcases h.queue.txDone_cases ht hs with ⟨hs', -⟩ | ⟨-, hw, -⟩
  · subst hs'
    refine ⟨⟨?_, ?_, ?_⟩, by rw [heq], by rw [heq], fun i => h.queue.finished_node ht⟩
    · rw [show (finished s).returned = s.returned by rw [heq]]
      exact h.queue.finish ht
    · rw [heq]
      exact h.writting
    · rw [heq]
      exact h.append
  · rw [h.writting] at hw
    cases hw

theorem Room.of_node {c : Call} {n : Nat} (h : Room size s c n)
    (hnode : s'.node c.write = s.node c.write) : Room size s' c n := by
  refine ⟨?_, h.pos, h.left, ?_⟩
  · rw [hnode]
    exact h.free
  · rw [hnode]
    exact h.fits

theorem Resting.callback (h : Resting size s) (hpos : 0 < size) (ht : s.hal = some t)
    (hs : txDone s = some s') : Resting size s' ∧ s'.pc = s.pc := by
  obtain ⟨hq, hquiet, hw, hpc, hret⟩ := h.queue.txDone_rest hpos ht (Or.inl h.writting) hs
  refine ⟨⟨?_, hw.trans h.writting, hquiet⟩, hpc⟩
  rw [hret]
  exact hq

/-- Off the window the callback moves neither pointer that a resting writer has read. -/
theorem Resting.w_kept (h : Resting size s) (ht : s.hal = some t) (hs : txDone s = some s')
    (hoff : 0 < (s.node s.append).status.dateSize → s.w ≠ s.append) : s'.w = s.w := by
  have heq := h.queue.finished_eq ht
  rcases h.queue.txDone_cases ht hs with ⟨hs', -⟩ | ⟨hs', -, hdata⟩
  · rw [hs', heq]
  · have hne : (finished s).w ≠ (finished s).append := by
      rw [heq]
      exact hoff hdata
    rw [hs', started, if_neg hne, heq]

theorem Resting.append_kept (h : Resting size s) (ht : s.hal = some t) (hs : txDone s = some s')
    (hoff : (s.node s.append).status.dateSize = 0) : s'.append = s.append ∧ s'.w = s.w := by
  have heq := h.queue.finished_eq ht
  rcases h.queue.txDone_cases ht hs with ⟨hs', -⟩ | ⟨-, -, hdata⟩
  · rw [hs', heq]
    exact ⟨rfl, rfl⟩
  · omega

/-- While the writer starts a transfer there is none to report done. -/
theorem Ready.not_busy {P : Prop} {c : Call} {s₀ : State} {w append : Fin txBufNum} {writting : Bool}
    {pc : Pc} (h : Ready size s₀ c) (hmark : s = marked s₀ w append writting pc)
    (ht : s.hal = some t) : P := by
  have hidle : s.hal = none := by
    rw [hmark]
    exact h.idle
  rw [hidle] at ht
  cases ht

/-- A callback outside the window. -/
theorem Inv.txDone (hpos : 0 < size) (h : Inv size s) (hoff : ¬ Window s)
    (hs : txDone s = some s') : Inv size s' := by
  obtain ⟨t, ht⟩ : ∃ t, s.hal = some t := by
    rcases hhal : s.hal with _ | t
    · rw [Uart.txDone, hhal] at hs
      cases hs
    · exact ⟨t, rfl⟩
  unfold Inv at h ⊢
  unfold Window at hoff
  cases hpc : s.pc with
  | outside =>
    rw [hpc] at h
    obtain ⟨hrest, hpc'⟩ := h.callback hpos ht hs
    rw [hpc', hpc]
    exact hrest
  | waiting rest =>
    rw [hpc] at h
    obtain ⟨hrest, hpc'⟩ := h.callback hpos ht hs
    rw [hpc', hpc]
    exact hrest
  | loadAppend data write =>
    rw [hpc] at h hoff
    obtain ⟨hrest, hw⟩ := h
    obtain ⟨hrest', hpc'⟩ := hrest.callback hpos ht hs
    have hstay := hrest.w_kept ht hs fun hdata heq => hoff ⟨hdata, hw.trans heq⟩
    rw [hpc', hpc]
    exact ⟨hrest', hw.trans hstay.symm⟩
  | setWritting c =>
    rw [hpc] at h hoff
    obtain ⟨hrest, hw, happend, hcount⟩ := h
    obtain ⟨hrest', hpc'⟩ := hrest.callback hpos ht hs
    have hzero : (s.node s.append).status.dateSize = 0 := by
      by_contra hne
      exact hoff ⟨by omega, trivial⟩
    obtain ⟨happend', hw'⟩ := hrest.append_kept ht hs hzero
    rw [hpc', hpc]
    exact ⟨hrest', hw.trans hw'.symm, happend.trans happend'.symm, hcount⟩
  | testSending c =>
    rw [hpc] at h
    obtain ⟨hactive, hw, hcount⟩ := h
    obtain ⟨hactive', hw', hpc', -⟩ := hactive.callback ht hs
    rw [hpc', hpc]
    exact ⟨by rw [hw']; exact hactive', hw.trans hw'.symm, hcount⟩
  | testRoom c =>
    rw [hpc] at h
    obtain ⟨hactive, hw, hcount, hfree⟩ := h
    obtain ⟨hactive', hw', hpc', hnode⟩ := hactive.callback ht hs
    rw [hpc', hpc]
    exact ⟨by rw [hw']; exact hactive', hw.trans hw'.symm, hcount, by rw [hnode _ hfree]; exact hfree⟩
  | loadOffset c n =>
    rw [hpc] at h
    obtain ⟨hactive, hw, hroom⟩ := h
    obtain ⟨hactive', hw', hpc', hnode⟩ := hactive.callback ht hs
    rw [hpc', hpc]
    exact ⟨by rw [hw']; exact hactive', hw.trans hw'.symm, hroom.of_node (hnode _ hroom.free)⟩
  | copy c n offset =>
    rw [hpc] at h
    obtain ⟨hactive, hw, hroom, hoffset⟩ := h
    obtain ⟨hactive', hw', hpc', hnode⟩ := hactive.callback ht hs
    rw [hpc', hpc]
    refine ⟨by rw [hw']; exact hactive', hw.trans hw'.symm, hroom.of_node (hnode _ hroom.free), ?_⟩
    rw [hnode _ hroom.free]
    exact hoffset
  | loadStatus c n =>
    rw [hpc] at h
    obtain ⟨hactive, hw, hroom, hcopied⟩ := h
    obtain ⟨hactive', hw', hpc', hnode⟩ := hactive.callback ht hs
    rw [hpc', hpc]
    refine ⟨by rw [hw']; exact hactive', hw.trans hw'.symm, hroom.of_node (hnode _ hroom.free), ?_⟩
    rw [Copied, hnode _ hroom.free]
    exact hcopied
  | storeStatus c n status =>
    rw [hpc] at h
    obtain ⟨hactive, hw, hroom, hcopied, hstatus⟩ := h
    obtain ⟨hactive', hw', hpc', hnode⟩ := hactive.callback ht hs
    rw [hpc', hpc]
    refine ⟨by rw [hw']; exact hactive', hw.trans hw'.symm, hroom.of_node (hnode _ hroom.free), ?_, ?_⟩
    · rw [Copied, hnode _ hroom.free]
      exact hcopied
    · rw [hnode _ hroom.free]
      exact hstatus
  | testFull c =>
    rw [hpc] at h
    obtain ⟨hactive, hw, hfree⟩ := h
    obtain ⟨hactive', hw', hpc', hnode⟩ := hactive.callback ht hs
    rw [hpc', hpc]
    refine ⟨?_, hw.trans hw'.symm, by rw [hnode _ hfree]; exact hfree⟩
    simp only [hw', hnode _ hfree]
    exact hactive'
  | storeWrite c =>
    rw [hpc] at h
    obtain ⟨hactive', -, hpc', -⟩ := Active.callback h ht hs
    rw [hpc', hpc]
    exact hactive'
  | testIdle c =>
    rw [hpc] at h
    obtain ⟨hactive', hw', hpc', -⟩ := Active.callback h ht hs
    rw [hpc', hpc]
    dsimp only
    rw [hw']
    exact hactive'
  | leave c =>
    rw [hpc] at h hoff
    have hgo : s.writting = false ∨ (s.node s.append).status.dateSize = 0 := by
      by_contra hne
      refine hoff ⟨by omega, ?_⟩
      exact Bool.eq_true_of_not_eq_false fun hw => hne (Or.inl hw)
    obtain ⟨hq, hquiet, -, hpc', hret⟩ := h.1.txDone_rest hpos ht hgo hs
    rw [hpc', hpc]
    dsimp only
    rw [hret]
    exact ⟨hq, hquiet⟩
  | testPending c =>
    rw [hpc] at h
    rw [h.2] at ht
    cases ht
  | loadMark c =>
    rw [hpc] at h
    rw [h.idle] at ht
    cases ht
  | storeMark c status =>
    rw [hpc] at h
    rw [h.1.idle] at ht
    cases ht
  | testWrite c =>
    rw [hpc] at h
    obtain ⟨s₀, hready, hmark⟩ := h
    exact hready.not_busy hmark ht
  | loadNext c =>
    rw [hpc] at h
    obtain ⟨s₀, hready, -, hmark⟩ := h
    exact hready.not_busy hmark ht
  | storeNext c w =>
    rw [hpc] at h
    obtain ⟨s₀, hready, -, -, hmark⟩ := h
    exact hready.not_busy hmark ht
  | storeAppend c =>
    rw [hpc] at h
    obtain ⟨s₀, hready, hmark⟩ := h
    exact hready.not_busy hmark ht
  | clearWritting c =>
    rw [hpc] at h
    obtain ⟨s₀, hready, hmark⟩ := h
    exact hready.not_busy hmark ht
  | callApi c =>
    rw [hpc] at h
    obtain ⟨s₀, hready, hmark⟩ := h
    exact hready.not_busy hmark ht

end Callback

/-- What a transmit buffer is for: the HAL gets what the writers gave, in order, and all of
it once nobody is at work. The buffer under transfer is left alone. -/
structure Delivered (s : State) : Prop where
  order : s.handed <+: accepted s
  complete : s.hal = none → s.pc.isOutside = true → s.handed = accepted s
  kept : ∀ t, s.hal = some t → ∃ before, s.handed = before ++ (s.node t.node).buf.take t.size

section Runs
variable {size : Nat} {s s' : State}

theorem Init.inv (h : Init size s) (hpos : 0 < size) : Inv size s := by
  have hzero : ∀ i, held (s.node i) = 0 := fun i => by simp [held, (h.node i).1]
  have hall : ∀ x ∈ helds s.node s.append, x = 0 := by
    intro x hx
    simp only [helds, ring, List.map_map, List.mem_map] at hx
    obtain ⟨k, -, rfl⟩ := hx
    exact hzero _
  have hpending : pending s.node s.append = [] := by
    rw [pending, List.flatMap_eq_nil_iff]
    intro n hn
    simp only [ring, List.mem_map] at hn
    obtain ⟨k, -, rfl⟩ := hn
    rw [unsent, hzero, List.take_zero]
  unfold Inv
  rw [h.pc]
  refine ⟨⟨fun i => (h.node i).2, fun i => ?_, filled_zeros hpos hall, Or.inl ?_, ?_, fun _ => ⟨?_, fun i => ?_⟩, ?_⟩,
    h.writting, fun _ => ?_⟩
  · rw [(h.node i).1]
    exact Nat.zero_le _
  · rw [fulls_zeros hpos hall, place_zero, h.w, h.append]
  · rw [h.returned, h.handed, hpending]
    rfl
  · rw [h.r, h.append]
  · rw [(h.node i).1]
  · intro t ht
    rw [h.hal] at ht
    cases ht
  · rw [(h.node _).1]

theorem Inv.step (hpos : 0 < size) (hmax : size < 2 ^ 16) (h : Inv size s) {e : Event}
    (hoff : offWindow s e) (hs : step size s e = some s') : Inv size s' := by
  cases e with
  | write data =>
    unfold Inv at h
    cases hpc : s.pc <;> simp only [Uart.step, hpc] at hs h <;> try cases hs
    by_cases hdata : data = []
    · rw [if_pos hdata] at hs
      cases hs
    · rw [if_neg hdata] at hs
      cases hs
      exact ⟨⟨h.queue.congr rfl rfl rfl rfl rfl, h.writting, h.quiet⟩, rfl⟩
  | writer => exact h.writerStep hpos hmax hs
  | acquired =>
    unfold Inv at h
    cases hpc : s.pc <;> simp only [Uart.step, hpc] at hs h <;> try cases hs
    exact ⟨⟨h.queue.congr rfl rfl rfl rfl rfl, h.writting, h.quiet⟩, rfl⟩
  | givenUp =>
    unfold Inv at h
    cases hpc : s.pc <;> simp only [Uart.step, hpc] at hs h <;> try cases hs
    exact ⟨h.queue.congr rfl rfl rfl rfl rfl, h.writting, h.quiet⟩
  | txDone => exact h.txDone hpos hoff hs

/-- Nothing is pending while the append node is empty. -/
theorem Queue.drained {cur : Fin txBufNum} {acc : List UInt8} (q : Queue size s cur acc)
    (hpos : 0 < size) (hzero : (s.node s.append).status.dateSize = 0) : s.handed = acc := by
  have hfilled := q.filled
  have hheld : held (s.node s.append) = 0 := by simp [held, hzero]
  rw [helds_cons] at hfilled
  obtain ⟨-, hrest⟩ := hfilled.first (by omega)
  have hpending : pending s.node s.append = [] := by
    rw [pending, List.flatMap_eq_nil_iff]
    intro n hn
    have hn' : held n ∈ helds s.node s.append := List.mem_map_of_mem hn
    rw [helds_cons] at hn'
    rw [unsent]
    rcases List.mem_cons.mp hn' with h | h
    · rw [h, hheld, List.take_zero]
    · rw [hrest _ h, List.take_zero]
  rw [q.flow, hpending, List.append_nil]

theorem Queue.delivered {cur : Fin txBufNum} (q : Queue size s cur (accepted s))
    (hdone : s.hal = none → s.pc.isOutside = true → s.handed = accepted s) : Delivered s := by
  refine ⟨⟨_, q.flow.symm⟩, hdone, fun t ht => ?_⟩
  obtain ⟨-, hnode, -, hsent⟩ := q.busy t ht
  rw [hnode]
  exact hsent

theorem Resting.delivered (h : Resting size s) (hpos : 0 < size) (hcopied : s.pc.copied = []) :
    Delivered s := by
  have hacc : accepted s = s.returned := by rw [accepted, hcopied, List.append_nil]
  refine Queue.delivered (show Queue size s s.w (accepted s) by rw [hacc]; exact h.queue) fun hidle _ => ?_
  rw [hacc]
  exact h.queue.drained hpos (h.quiet hidle)

theorem Active.delivered {cur : Fin txBufNum} {c : Call} (h : Active size s cur c)
    (hcopied : s.pc.copied = c.data.take c.count) (hin : s.pc.isOutside = false) :
    Delivered s := by
  refine Queue.delivered (show Queue size s cur (accepted s) by rw [accepted, hcopied]; exact h.queue) fun _ hout => ?_
  rw [hin] at hout
  cases hout

/-- While the writer starts a transfer nothing has been handed over yet. -/
theorem Ready.delivered {c : Call} {s₀ : State} {w append : Fin txBufNum} {writting : Bool}
    {pc : Pc} (h : Ready size s₀ c) (hmark : s = marked s₀ w append writting pc)
    (hcopied : pc.copied = c.data.take c.count) (hin : pc.isOutside = false) : Delivered s := by
  subst hmark
  have hacc : accepted (marked s₀ w append writting pc) = s₀.returned ++ c.data.take c.count := by
    rw [← hcopied]
    rfl
  refine ⟨?_, fun _ hout => ?_, fun t ht => ?_⟩
  · rw [hacc]
    exact ⟨_, h.queue.flow.symm⟩
  · rw [show (marked s₀ w append writting pc).pc = pc from rfl, hin] at hout
    cases hout
  · rw [show (marked s₀ w append writting pc).hal = none from h.idle] at ht
    cases ht

theorem Inv.delivered (hpos : 0 < size) (h : Inv size s) : Delivered s := by
  unfold Inv at h
  cases hpc : s.pc with
  | outside =>
    rw [hpc] at h
    exact h.delivered hpos (by rw [hpc]; rfl)
  | waiting rest =>
    rw [hpc] at h
    exact h.delivered hpos (by rw [hpc]; rfl)
  | loadAppend data write =>
    rw [hpc] at h
    exact h.1.delivered hpos (by rw [hpc]; rfl)
  | setWritting c =>
    rw [hpc] at h
    exact h.1.delivered hpos (by rw [hpc, Pc.copied, h.2.2.2, List.take_zero])
  | testSending c =>
    rw [hpc] at h
    exact h.1.delivered (by rw [hpc]; rfl) (by rw [hpc]; rfl)
  | testRoom c =>
    rw [hpc] at h
    exact h.1.delivered (by rw [hpc]; rfl) (by rw [hpc]; rfl)
  | loadOffset c n =>
    rw [hpc] at h
    exact h.1.delivered (by rw [hpc]; rfl) (by rw [hpc]; rfl)
  | copy c n offset =>
    rw [hpc] at h
    exact h.1.delivered (by rw [hpc]; rfl) (by rw [hpc]; rfl)
  | loadStatus c n =>
    rw [hpc] at h
    exact h.1.delivered (by rw [hpc]; rfl) (by rw [hpc]; rfl)
  | storeStatus c n status =>
    rw [hpc] at h
    exact h.1.delivered (by rw [hpc]; rfl) (by rw [hpc]; rfl)
  | testFull c =>
    rw [hpc] at h
    exact h.1.delivered (by rw [hpc]; rfl) (by rw [hpc]; rfl)
  | storeWrite c =>
    rw [hpc] at h
    exact Active.delivered h (by rw [hpc]; rfl) (by rw [hpc]; rfl)
  | testIdle c =>
    rw [hpc] at h
    exact Active.delivered h (by rw [hpc]; rfl) (by rw [hpc]; rfl)
  | testPending c =>
    rw [hpc] at h
    exact h.1.delivered (by rw [hpc]; rfl) (by rw [hpc]; rfl)
  | loadMark c =>
    rw [hpc] at h
    exact h.toActive.delivered (by rw [hpc]; rfl) (by rw [hpc]; rfl)
  | storeMark c status =>
    rw [hpc] at h
    exact h.1.toActive.delivered (by rw [hpc]; rfl) (by rw [hpc]; rfl)
  | testWrite c =>
    rw [hpc] at h
    obtain ⟨s₀, hready, hmark⟩ := h
    exact hready.delivered hmark rfl rfl
  | loadNext c =>
    rw [hpc] at h
    obtain ⟨s₀, hready, -, hmark⟩ := h
    exact hready.delivered hmark rfl rfl
  | storeNext c w =>
    rw [hpc] at h
    obtain ⟨s₀, hready, -, -, hmark⟩ := h
    exact hready.delivered hmark rfl rfl
  | storeAppend c =>
    rw [hpc] at h
    obtain ⟨s₀, hready, hmark⟩ := h
    exact hready.delivered hmark rfl rfl
  | clearWritting c =>
    rw [hpc] at h
    obtain ⟨s₀, hready, hmark⟩ := h
    exact hready.delivered hmark rfl rfl
  | callApi c =>
    rw [hpc] at h
    obtain ⟨s₀, hready, hmark⟩ := h
    exact hready.delivered hmark rfl rfl
  | leave c =>
    rw [hpc] at h
    refine Queue.delivered (show Queue size s s.w (accepted s) by rw [accepted, hpc]; exact h.1) fun _ hout => ?_
    rw [hpc] at hout
    cases hout

theorem tx_inv (hpos : 0 < size) (hmax : size < 2 ^ 16)
    (h : Reached (Init size) (step size) offWindow s) : Inv size s :=
  h.invariant (fun _ hinit => hinit.inv hpos) fun _ _ _ hinv hoff hs => hinv.step hpos hmax hoff hs

end Runs

theorem TxBufSize.blockSize_pos (b : TxBufSize) : 0 < b.blockSize := by
  have := b.min
  simp only [TxBufSize.blockSize, txBufNum, txMinBufSize] at *
  omega

theorem TxBufSize.blockSize_lt (b : TxBufSize) : b.blockSize < 2 ^ 16 := by
  have := b.max
  simp only [TxBufSize.blockSize, txBufNum, bufBlockMaxSize] at *
  omega

/-- In every run whose callbacks stay off the window, the HAL gets exactly what the writers gave. -/
theorem uart_write_delivers (b : TxBufSize) {s : State}
    (h : Reached (Init b.blockSize) (step b.blockSize) offWindow s) : Delivered s :=
  (tx_inv b.blockSize_pos b.blockSize_lt h).delivered b.blockSize_pos

section Example

theorem smallTx_max : 128 < bufBlockMaxSize := by decide

/-- The smallest transmit buffer, just initialized. -/
def smallTx : TxBufSize := ⟨128, by decide, smallTx_max⟩

def freshTx : State where
  node := fun _ => ⟨⟨false, 0⟩, List.replicate 32 0⟩
  r := 0
  w := 0
  append := 0
  writting := false
  hal := none
  pc := .outside
  returned := []
  handed := []

theorem freshTx_init : Init smallTx.blockSize freshTx := by
  refine ⟨fun _ => ⟨rfl, ?_⟩, rfl, rfl, rfl, rfl, rfl, rfl, rfl, rfl⟩
  rw [freshTx, List.length_replicate]
  rfl

/-- A byte is written and sent; a second one is written while the HAL is busy. -/
def twoWrites : List Event :=
  .write [1] :: List.replicate 20 .writer ++ .write [2] :: List.replicate 10 .writer

/-- The callback comes once the second write is over and starts the second byte. -/
theorem uart_write_delivers_twoWrites :
    ∃ s, exec (step smallTx.blockSize) freshTx (twoWrites ++ [.writer, .txDone]) = some s ∧
      s.handed = [1, 2] ∧ Delivered s := by
  have hsome : (exec (step smallTx.blockSize) freshTx (twoWrites ++ [.writer, .txDone])).isSome := by
    decide +kernel
  obtain ⟨s, hs⟩ := Option.isSome_iff_exists.mp hsome
  have hhanded : (exec (step smallTx.blockSize) freshTx (twoWrites ++ [.writer, .txDone])).map
      State.handed = some [1, 2] := by decide +kernel
  have halong : Along (step smallTx.blockSize) offWindow freshTx (twoWrites ++ [.writer, .txDone]) := by
    decide +kernel
  refine ⟨s, hs, ?_, uart_write_delivers smallTx ((Reached.start freshTx_init).of_exec halong hs)⟩
  simpa [hs] using hhanded

/-- The callback comes just before the second write clears `writting`: the HAL is idle, no task is
in `uart_write_to_buffer`, and the second byte stays in the buffer. -/
theorem second_write_stranded :
    ∃ s, Reached (Init smallTx.blockSize) (step smallTx.blockSize) anyStep s ∧
      s.hal = none ∧ s.pc = .outside ∧ s.handed = [1] ∧ accepted s = [1, 2] ∧ ¬ Delivered s := by
  have hsome : (exec (step smallTx.blockSize) freshTx (twoWrites ++ [.txDone, .writer])).isSome := by
    decide +kernel
  obtain ⟨s, hs⟩ := Option.isSome_iff_exists.mp hsome
  have hfinal : (exec (step smallTx.blockSize) freshTx (twoWrites ++ [.txDone, .writer])).map
      (fun s => (s.hal, s.pc, s.handed, accepted s)) = some (none, .outside, [1], [1, 2]) := by
    decide +kernel
  rw [hs, Option.map_some, Option.some.injEq, Prod.mk.injEq, Prod.mk.injEq, Prod.mk.injEq] at hfinal
  obtain ⟨hhal, hpc, hhanded, hacc⟩ := hfinal
  refine ⟨s, (Reached.start freshTx_init).of_exec (along_anyStep _ _) hs, hhal, hpc, hhanded, hacc,
    fun hdel => ?_⟩
  have hall := hdel.complete hhal (by rw [hpc]; rfl)
  rw [hhanded, hacc] at hall
  cases hall

end Example

/-- A callback between the look at a busy HAL and the end of the call strands what was written:
once the writer is gone the HAL is idle and data waits. -/
theorem stranded (b : TxBufSize) {s s' s'' : State} {c : Call}
    (h : Reached (Init b.blockSize) (step b.blockSize) offWindow s) (hpc : s.pc = .leave c)
    (hwindow : Window s) (hdone : txDone s = some s')
    (hleave : writerStep b.blockSize s' = some s'') : ¬ Delivered s'' := by
  have hinv := tx_inv b.blockSize_pos b.blockSize_lt h
  obtain ⟨hdata, hin⟩ := hwindow
  unfold Inv at hinv
  rw [hpc] at hinv hin
  obtain ⟨hq, -⟩ := hinv
  obtain ⟨t, ht⟩ : ∃ t, s.hal = some t := by
    rcases hhal : s.hal with _ | t
    · rw [txDone, hhal] at hdone
      cases hdone
    · exact ⟨t, rfl⟩
  have heq := hq.finished_eq ht
  rcases hq.txDone_cases ht hdone with ⟨hs', -⟩ | ⟨-, hw, -⟩
  · have hpc' : s'.pc = .leave c := by rw [hs', heq, hpc]
    have hs'' : s'' = { s' with
        writting := false
        returned := s'.returned ++ c.data.take c.count
        pc := afterCall c } := by
      rw [writerStep, hpc', Option.some.injEq] at hleave
      exact hleave.symm
    have hout : s''.pc.isOutside = true ∧ s''.pc.copied = [] := by
      rw [hs'']
      dsimp only [afterCall]
      split <;> exact ⟨rfl, rfl⟩
    have hacc : accepted s'' = s.returned ++ c.data.take c.count := by
      rw [accepted, hout.2, List.append_nil, hs'', hs', heq]
    have hhanded : s''.handed = s.handed := by rw [hs'', hs', heq]
    have hidle : s''.hal = none := by rw [hs'', hs', heq]
    intro hdel
    have hall := hdel.complete hidle hout.1
    rw [hhanded, hacc, hq.flow] at hall
    -- the append node still holds data
    have hnil : pending s.node s.append = [] := by simpa using hall
    rw [pending, ring_cons, List.flatMap_cons, List.append_eq_nil_iff] at hnil
    have hheld : held (s.node s.append) = (s.node s.append).status.dateSize := by
      simp [held, hq.append_free]
    have hlen := congrArg List.length hnil.1
    rw [unsent, hheld, List.length_take, hq.length, List.length_nil] at hlen
    have hroom := hq.room s.append
    omega
  · rw [hin] at hw
    cases hw

end WmIot.Uart
