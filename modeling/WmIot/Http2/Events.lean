import WmIot.Lib.CString

/-!
# The events of the HTTP/2 client

`wm_http2_get_req_idx_by_stream`, the callbacks that pass events to the user, and
`wm_http2_client_get_status_code`, of `wm_http2_client.c`. The requests are an array of `http2_reqnum` slots, of
which `WM_HTTP2_REQ_MAX_NUM` are looked at.
-/

namespace WmIot.Http2
open CString
set_option autoImplicit false

/-- `WM_HTTP2_REQ_MAX_NUM` -/
def reqMaxNum : Nat := 5

/-- `WM_ERR_FAILED` -/
def errFailed : Int := -1

/-- The fields of a `wm_http2_client_req_t` that the callbacks look at. -/
structure Request where
  streamId : BitVec 32
  status : BitVec 16
  deriving DecidableEq, Repr

/-- A request by the array it is in and its slot: arrays are replaced, and pointers into an old one stay. -/
structure ReqPtr where
  array : Nat
  idx : Nat
  deriving DecidableEq, Repr

/-- `nghttp2_stream` -/
structure Stream where
  userData : Option ReqPtr
  statusCode : BitVec 16
  deriving DecidableEq, Repr

/-- `wm_http2_client_t`: `array` counts the arrays, `http2Req` has `http2_reqnum` slots. -/
structure Http2Client where
  array : Nat
  http2Req : List Request
  eventHandler : Bool
  reqnum_lt : http2Req.length < 2 ^ 16

namespace Http2Client

def reqnum (client : Http2Client) : Nat := client.http2Req.length

/-- A slot of the array; `behind` is the memory behind it. -/
def slot (client : Http2Client) (behind : Nat → Request) (i : Nat) : Request :=
  (client.http2Req[i]?).getD (behind i)

end Http2Client

/-- The loop of `wm_http2_get_req_idx_by_stream`, `n` slots from `i` on: the slots it reads and what it finds. -/
def reqIdxLoop (slot : Nat → Request) (streamid : BitVec 32) : Nat → Nat → List Nat × Int
  | 0, _ => ([], errFailed)
  | n + 1, i =>
    if (slot i).streamId = streamid then ([i], i)
    else
      let (reads, idx) := reqIdxLoop slot streamid n (i + 1)
      (i :: reads, idx)

/-- `wm_http2_get_req_idx_by_stream` -/
def getReqIdxByStream (slot : Nat → Request) (streamid : BitVec 32) : List Nat × Int :=
  reqIdxLoop slot streamid reqMaxNum 0

inductive EventData where
  | header (name value : List Byte)
  | data (bytes : List Byte)
  deriving DecidableEq, Repr

/-- `wm_http2_event_param_t`: `streamid` has 16 bits. -/
structure Event where
  streamid : BitVec 16
  http2Data : EventData
  deriving DecidableEq, Repr

/-- What nghttp2 calls back for, with the stream of the frame. -/
inductive Frame where
  /-- `on_frame_send_callback` for `NGHTTP2_HEADERS` -/
  | headersSent (nva : List (List Byte × List Byte))
  /-- `on_header_recv_callback` -/
  | headerRecv (name value : List Byte)
  /-- `on_data_chunk_recv_callback` -/
  | dataChunkRecv (data : List Byte)
  /-- the other frames, which are logged -/
  | other
  deriving DecidableEq, Repr

/-- What the frame has to tell: an event for each. -/
def Frame.items : Frame → List EventData
  | .headersSent nva => nva.map fun nv => .header nv.1 nv.2
  | .headerRecv name value => [.header name value]
  | .dataChunkRecv data => [.data data]
  | .other => []

/-- The loop of the callbacks over the items: the slots it reads, the events it passes, and whether it gets to
the end. The index goes through the 16 bits of the event before it is compared. -/
def passEvents (client : Http2Client) (behind : Nat → Request) (streamId : BitVec 32) :
    List EventData → List Nat × List Event × Bool
  | [] => ([], [], true)
  | item :: items =>
    let (reads, idx) := getReqIdxByStream (client.slot behind) streamId
    let event : Event := ⟨BitVec.ofInt 16 idx, item⟩
    if errFailed = event.streamid.toNat then (reads, [], false)
    else
      let (more, events, found) := passEvents client behind streamId items
      (reads ++ more, (if client.eventHandler then [event] else []) ++ events, found)

/-- `req->status = stream->status_code` through the user data of the stream -/
def Http2Client.setStatus (client : Http2Client) (req : ReqPtr) (status : BitVec 16) : Http2Client :=
  if req.array = client.array then
    { client with
      http2Req := client.http2Req.modify req.idx fun r => { r with status }
      reqnum_lt := by rw [List.length_modify]; exact client.reqnum_lt }
  else client

/-- A callback for a frame: what it reads, the events, and the client after it. -/
def onFrame (client : Http2Client) (behind : Nat → Request) (streamId : BitVec 32) (stream : Option Stream)
    (frame : Frame) : Http2Client × List Nat × List Event :=
  match stream with
  | none => (client, [], [])
  | some stream =>
    match stream.userData with
    | none => (client, [], [])
    | some req =>
      let (reads, events, found) := passEvents client behind streamId frame.items
      let client :=
        match frame with
        | .dataChunkRecv _ => if found then client.setStatus req stream.statusCode else client
        | _ => client
      (client, reads, events)

/-- `wm_http2_client_get_status_code`: the slots it reads and the status -/
def getStatusCode (client : Http2Client) (behind : Nat → Request) (idx : BitVec 8) : List Nat × Int :=
  if idx.toNat ≥ reqMaxNum then ([], errFailed)
  else
    let status := (client.slot behind idx.toNat).status
    ([idx.toNat], if status = 0 then errFailed else status.toInt)

/-! ### Runs -/

/-- What happens to a client. -/
inductive Http2Call where
  /-- `wm_http2_client_update_req` with requests that are in order -/
  | updateReq (reqnum : Fin (2 ^ 16))
  /-- `wm_http2_submit_request` of a request in `wm_http2_client_perform`, with the stream it gets -/
  | submit (idx : Nat) (streamId : BitVec 32)
  | frame (behind : Nat → Request) (streamId : BitVec 32) (stream : Option Stream) (frame : Frame)
  | getStatusCode (behind : Nat → Request) (idx : BitVec 8)

/-- The requests of `wm_http2_client_add_header_from_reqlist`. -/
def newRequests (reqnum : Nat) : List Request := List.replicate reqnum ⟨-1, 0⟩

/-- `wm_http2_client_init` -/
def clientInit (reqnum : Fin (2 ^ 16)) (eventHandler : Bool) : Http2Client :=
  ⟨0, newRequests reqnum, eventHandler, by rw [newRequests, List.length_replicate]; exact reqnum.isLt⟩

def Http2Call.step (client : Http2Client) : Http2Call → Http2Client
  | .updateReq reqnum =>
    { client with
      array := client.array + 1
      http2Req := newRequests reqnum
      reqnum_lt := by rw [newRequests, List.length_replicate]; exact reqnum.isLt }
  | .submit idx streamId =>
    { client with
      http2Req := client.http2Req.modify idx fun r => { r with streamId }
      reqnum_lt := by rw [List.length_modify]; exact client.reqnum_lt }
  | .frame behind streamId stream f => (onFrame client behind streamId stream f).1
  | .getStatusCode _ _ => client

def runCalls (client : Http2Client) (calls : List Http2Call) : Http2Client := calls.foldl Http2Call.step client

/-- The slots that a call reads. -/
def Http2Call.reads (client : Http2Client) : Http2Call → List Nat
  | .frame behind streamId stream f => (onFrame client behind streamId stream f).2.1
  | .getStatusCode behind idx => (Http2.getStatusCode client behind idx).1
  | _ => []

/-- An event names a request with the stream of its frame, there is none without such a request, and no slot
behind the array is read. -/
structure Http2Call.Exact (client : Http2Client) (call : Http2Call) : Prop where
  named : ∀ behind streamId stream f, call = .frame behind streamId stream f →
    ∀ event ∈ (onFrame client behind streamId stream f).2.2,
      ∃ req, client.http2Req[event.streamid.toNat]? = some req ∧ req.streamId = streamId
  unnamed : ∀ behind streamId stream f, call = .frame behind streamId stream f →
    (∀ req ∈ client.http2Req, req.streamId ≠ streamId) → (onFrame client behind streamId stream f).2.2 = []
  inside : ∀ i ∈ call.reads client, i < client.reqnum

/-- The call has no frame to look up, or its stream is that of one of the first requests; or there is no handler
and there are slots enough. -/
def Http2Call.Found (client : Http2Client) : Http2Call → Prop
  | .frame _ streamId stream f =>
    (∀ s ∈ stream, s.userData = none) ∨ f.items = [] ∨
      (∃ req ∈ client.http2Req.take reqMaxNum, req.streamId = streamId) ∨
      (client.eventHandler = false ∧ reqMaxNum ≤ client.reqnum)
  | .getStatusCode _ idx => reqMaxNum ≤ idx.toNat ∨ idx.toNat < client.reqnum
  | _ => True

/-! ### The lookup -/

section
variable {client : Http2Client} {streamId : BitVec 32}

/-- The loop reads the slots up to the one it finds, or all. -/
theorem reqIdxLoop_spec (slot : Nat → Request) (streamid : BitVec 32) (n i : Nat) :
    (∃ j, i ≤ j ∧ j < i + n ∧ (slot j).streamId = streamid ∧ (∀ k, i ≤ k → k < j → (slot k).streamId ≠ streamid) ∧
      reqIdxLoop slot streamid n i = (List.range' i (j + 1 - i), (j : Int))) ∨
    ((∀ k, i ≤ k → k < i + n → (slot k).streamId ≠ streamid) ∧
      reqIdxLoop slot streamid n i = (List.range' i n, errFailed)) := by
  induction n generalizing i with
  | zero => exact Or.inr ⟨fun k hlo hhi => by omega, rfl⟩
  | succ n ih =>
    rw [reqIdxLoop]
    by_cases hi : (slot i).streamId = streamid
    · refine Or.inl ⟨i, Nat.le_refl i, by omega, hi, fun k hlo hhi => by omega, ?_⟩
      rw [if_pos hi, Nat.add_sub_cancel_left]
      rfl
    · rw [if_neg hi]
      rcases ih (i + 1) with ⟨j, hlo, hhi, hj, hbefore, heq⟩ | ⟨hnone, heq⟩
      · refine Or.inl ⟨j, by omega, by omega, hj, fun k hk hkj => ?_, ?_⟩
        · rcases Nat.eq_or_lt_of_le hk with rfl | hk
          · exact hi
          · exact hbefore k hk hkj
        · rw [heq]
          dsimp only
          rw [show j + 1 - i = j + 1 - (i + 1) + 1 by omega, List.range'_succ]
      · refine Or.inr ⟨fun k hk hkn => ?_, ?_⟩
        · rcases Nat.eq_or_lt_of_le hk with rfl | hk
          · exact hi
          · exact hnone k hk (by omega)
        · rw [heq]
          rfl

/-- The failure value is no longer one in 16 bits. -/
theorem errFailed_ne (idx : BitVec 16) : errFailed ≠ idx.toNat := by
  rw [errFailed]
  omega

theorem passEvents_eq (client : Http2Client) (behind : Nat → Request) (streamId : BitVec 32)
    (items : List EventData) :
    passEvents client behind streamId items =
      (items.flatMap fun _ => (getReqIdxByStream (client.slot behind) streamId).1,
        if client.eventHandler then
          items.map fun item => ⟨BitVec.ofInt 16 (getReqIdxByStream (client.slot behind) streamId).2, item⟩
        else [], true) := by
  induction items with
  | nil => rw [passEvents, List.flatMap_nil, List.map_nil, ite_self]
  | cons item items ih =>
    rw [passEvents, ih]
    dsimp only
    rw [if_neg (errFailed_ne _), List.flatMap_cons, List.map_cons]
    cases client.eventHandler <;> rfl

theorem slot_of_lt {behind : Nat → Request} {i : Nat} (h : i < client.reqnum) : client.slot behind i = client.http2Req[i] := by
  rw [Http2Client.slot, List.getElem?_eq_getElem h]
  rfl

/-- A request of the first ones is found. -/
theorem getReqIdx_found (behind : Nat → Request)
    (h : ∃ req ∈ client.http2Req.take reqMaxNum, req.streamId = streamId) :
    ∃ j, ∃ hj : j < client.reqnum, j < reqMaxNum ∧ client.http2Req[j].streamId = streamId ∧
      getReqIdxByStream (client.slot behind) streamId = (List.range' 0 (j + 1), (j : Int)) := by
  obtain ⟨req, hmem, hreq⟩ := h
  obtain ⟨k, hk, rfl⟩ := List.getElem_of_mem hmem
  rw [List.length_take] at hk
  rw [List.getElem_take] at hreq
  have hkr : k < client.reqnum := Nat.lt_of_lt_of_le hk (Nat.min_le_right _ _)
  rcases reqIdxLoop_spec (client.slot behind) streamId reqMaxNum 0 with
    ⟨j, -, hhi, hj, hbefore, heq⟩ | ⟨hnone, -⟩
  · have hjk : j ≤ k := by
      by_contra hkj
      refine hbefore k (Nat.zero_le k) (Nat.not_le.mp hkj) ?_
      rw [slot_of_lt hkr]
      exact hreq
    have hjr := Nat.lt_of_le_of_lt hjk hkr
    rw [slot_of_lt hjr] at hj
    rw [Nat.zero_add] at hhi
    exact ⟨j, hjr, hhi, hj, heq⟩
  · refine absurd ?_ (hnone k (Nat.zero_le k) (by omega))
    rw [slot_of_lt hkr]
    exact hreq

/-- Without one, the slots behind the array are read when there are too few, else nothing is found. -/
theorem getReqIdx_missing (behind : Nat → Request)
    (h : ∀ req ∈ client.http2Req.take reqMaxNum, req.streamId ≠ streamId) :
    (client.reqnum < reqMaxNum ∧
      ∃ i ∈ (getReqIdxByStream (client.slot behind) streamId).1, client.reqnum ≤ i) ∨
      (reqMaxNum ≤ client.reqnum ∧
        getReqIdxByStream (client.slot behind) streamId = (List.range' 0 reqMaxNum, errFailed)) := by
  have hfirst : ∀ k, k < reqMaxNum → (hk : k < client.reqnum) → (client.slot behind k).streamId ≠ streamId := by
    intro k hmax hk
    rw [slot_of_lt hk]
    exact h _ (List.mem_take_iff_getElem.mpr ⟨k, Nat.lt_min.mpr ⟨hmax, hk⟩, rfl⟩)
  rcases reqIdxLoop_spec (client.slot behind) streamId reqMaxNum 0 with
    ⟨j, -, hhi, hj, -, heq⟩ | ⟨-, heq⟩
  · rw [Nat.zero_add] at hhi
    have hbehind : client.reqnum ≤ j := Nat.not_lt.mp fun hlt => hfirst j hhi hlt hj
    refine Or.inl ⟨Nat.lt_of_le_of_lt hbehind hhi, j, ?_, hbehind⟩
    rw [getReqIdxByStream, heq, List.mem_range'_1]
    omega
  · rcases Nat.lt_or_ge client.reqnum reqMaxNum with hfew | henough
    · refine Or.inl ⟨hfew, client.reqnum, ?_, Nat.le_refl _⟩
      rw [getReqIdxByStream, heq, List.mem_range'_1]
      omega
    · exact Or.inr ⟨henough, heq⟩

/-- A callback for a stream with user data looks the stream up for every item. -/
theorem onFrame_eq (client : Http2Client) (behind : Nat → Request) (streamId : BitVec 32) {s : Stream} {req : ReqPtr} (hs : s.userData = some req) (f : Frame) :
    (onFrame client behind streamId (some s) f).2 =
      (f.items.flatMap fun _ => (getReqIdxByStream (client.slot behind) streamId).1,
        if client.eventHandler then
          f.items.map fun item => ⟨BitVec.ofInt 16 (getReqIdxByStream (client.slot behind) streamId).2, item⟩
        else []) := by
  rw [onFrame]
  dsimp only
  rw [hs]
  dsimp only
  rw [passEvents_eq]

end

/-! ### Calls -/

section
variable {client : Http2Client}

theorem getStatusCode_exact_iff (behind : Nat → Request) (idx : BitVec 8) :
    (Http2Call.getStatusCode behind idx).Exact client ↔ reqMaxNum ≤ idx.toNat ∨ idx.toNat < client.reqnum := by
  have hreads : (Http2Call.getStatusCode behind idx).reads client =
      if idx.toNat ≥ reqMaxNum then [] else [idx.toNat] := by
    rw [Http2Call.reads, Http2.getStatusCode]
    split <;> rfl
  constructor
  · rintro ⟨-, -, hinside⟩
    rw [hreads] at hinside
    by_cases hmax : reqMaxNum ≤ idx.toNat
    · exact Or.inl hmax
    · rw [if_neg hmax] at hinside
      exact Or.inr (hinside _ List.mem_cons_self)
  · intro h
    refine ⟨nofun, nofun, fun i hi => ?_⟩
    rw [hreads] at hi
    split at hi
    · cases hi
    next hmax =>
      rw [List.mem_singleton.mp hi]
      exact h.resolve_left hmax

/-- A callback that looks nothing up. -/
theorem frame_exact_of_silent {behind : Nat → Request} {streamId : BitVec 32} {stream : Option Stream} {f : Frame}
    (h : (onFrame client behind streamId stream f).2 = ([], [])) :
    (Http2Call.frame behind streamId stream f).Exact client := by
  refine ⟨?_, ?_, ?_⟩
  · rintro _ _ _ _ ⟨⟩ event hevent
    rw [h] at hevent
    cases hevent
  · rintro _ _ _ _ ⟨⟩ -
    rw [h]
  · intro i hi
    rw [Http2Call.reads, h] at hi
    cases hi

/-- A callback that looks its stream up, for something to tell. -/
theorem frame_exact_iff_found {behind : Nat → Request} {streamId : BitVec 32} {s : Stream} {req : ReqPtr} {f : Frame}
    (hs : s.userData = some req) (hf : f.items ≠ []) :
    (Http2Call.frame behind streamId (some s) f).Exact client ↔
      (∃ req ∈ client.http2Req.take reqMaxNum, req.streamId = streamId) ∨
        (client.eventHandler = false ∧ reqMaxNum ≤ client.reqnum) := by
  have hframe := onFrame_eq client behind streamId hs f
  have hreads : ∀ i, i ∈ (Http2Call.frame behind streamId (some s) f).reads client ↔
      i ∈ (getReqIdxByStream (client.slot behind) streamId).1 := by
    intro i
    rw [Http2Call.reads, hframe, List.mem_flatMap]
    obtain ⟨item, hitem⟩ := List.exists_mem_of_ne_nil _ hf
    exact ⟨fun ⟨_, _, h⟩ => h, fun h => ⟨item, hitem, h⟩⟩
  by_cases hfound : ∃ req ∈ client.http2Req.take reqMaxNum, req.streamId = streamId
  · refine iff_of_true ?_ (Or.inl hfound)
    obtain ⟨j, hj, hmax, hid, hlook⟩ := getReqIdx_found behind hfound
    refine ⟨?_, ?_, ?_⟩
    · rintro _ _ _ _ ⟨⟩ event hevent
      rw [hframe, hlook] at hevent
      have hidx : (BitVec.ofInt 16 (j : Int)).toNat = j := by
        rw [reqMaxNum] at hmax
        rw [BitVec.ofInt_natCast, BitVec.toNat_ofNat]
        omega
      have hstream : event.streamid.toNat = j := by
        dsimp only at hevent
        split at hevent
        · obtain ⟨item, -, rfl⟩ := List.mem_map.mp hevent
          exact hidx
        · cases hevent
      exact ⟨_, by rw [hstream]; exact List.getElem?_eq_getElem hj, hid⟩
    · rintro _ _ _ _ ⟨⟩ hnone
      exact absurd hid (hnone _ (List.getElem_mem hj))
    · intro i hi
      rw [hreads, hlook, List.mem_range'_1] at hi
      omega
  · rw [or_iff_right hfound]
    have hmissing : ∀ req ∈ client.http2Req.take reqMaxNum, req.streamId ≠ streamId :=
      fun req hmem hid => hfound ⟨req, hmem, hid⟩
    rcases getReqIdx_missing behind hmissing with ⟨hfew, i, hi, hbehind⟩ | ⟨henough, hlook⟩
    · refine iff_of_false (fun h => ?_) fun h => ?_
      · have := h.inside i ((hreads i).mpr hi)
        omega
      · omega
    · rw [hlook] at hframe
      constructor
      · intro h
        refine ⟨?_, henough⟩
        rw [← Bool.not_eq_true]
        intro hhandler
        obtain ⟨item, hitem⟩ := List.exists_mem_of_ne_nil _ hf
        have hevent : (⟨BitVec.ofInt 16 errFailed, item⟩ : Event) ∈
            (onFrame client behind streamId (some s) f).2.2 := by
          rw [hframe, hhandler]
          exact List.mem_map_of_mem hitem
        obtain ⟨found, hget, -⟩ := h.named _ _ _ _ rfl _ hevent
        obtain ⟨hlt, -⟩ := List.getElem?_eq_some_iff.mp hget
        have hidx : (BitVec.ofInt 16 errFailed).toNat = 65535 := by decide
        have := client.reqnum_lt
        dsimp only at hlt
        omega
      · rintro ⟨hhandler, -⟩
        rw [hhandler] at hframe
        refine ⟨?_, ?_, ?_⟩
        · rintro _ _ _ _ ⟨⟩ event hevent
          rw [hframe] at hevent
          cases hevent
        · rintro _ _ _ _ ⟨⟩ -
          rw [hframe]
          rfl
        · intro i hi
          rw [hreads, hlook, List.mem_range'_1] at hi
          omega

/-- A call is exact when its stream is found where it is looked up. -/
theorem call_exact_iff (client : Http2Client) (call : Http2Call) : call.Exact client ↔ call.Found client := by
  cases call with
  | updateReq reqnum => exact iff_of_true ⟨nofun, nofun, nofun⟩ trivial
  | submit idx streamId => exact iff_of_true ⟨nofun, nofun, nofun⟩ trivial
  | getStatusCode behind idx => exact getStatusCode_exact_iff behind idx
  | frame behind streamId stream f =>
    rw [Http2Call.Found]
    cases stream with
    | none => exact iff_of_true (frame_exact_of_silent rfl) (Or.inl nofun)
    | some s =>
      cases hs : s.userData with
      | none =>
        refine iff_of_true (frame_exact_of_silent ?_) (Or.inl ?_)
        · rw [onFrame]
          dsimp only
          rw [hs]
        · rintro _ ⟨⟩
          exact hs
      | some req =>
        have hsome : ¬ ∀ s' ∈ some s, s'.userData = none := by
          intro h
          rw [h s rfl] at hs
          cases hs
        rw [or_iff_right hsome]
        by_cases hf : f.items = []
        · refine iff_of_true (frame_exact_of_silent ?_) (Or.inl hf)
          rw [onFrame_eq client behind streamId hs, hf]
          split <;> rfl
        · rw [or_iff_right hf, frame_exact_iff_found hs hf]

/-- In a run from the start all calls are exact when each one's stream is found in the client before it. -/
theorem events_exact_iff (reqnum : Fin (2 ^ 16)) (eventHandler : Bool) (calls : List Http2Call) :
    (∀ done call rest, calls = done ++ call :: rest → call.Exact (runCalls (clientInit reqnum eventHandler) done)) ↔
      ∀ done call rest, calls = done ++ call :: rest →
        call.Found (runCalls (clientInit reqnum eventHandler) done) := by
  simp only [call_exact_iff]

/-- The frame of the sixth request is an event for slot 65535; a client with one request is looked at up to the
second slot. -/
theorem not_exact_sixth :
    ¬ (Http2Call.frame (fun _ => ⟨-1, 0⟩) 11 (some ⟨some ⟨0, 5⟩, 200⟩) (.dataChunkRecv [])).Exact
      (runCalls (clientInit 6 true) [.submit 0 1, .submit 1 3, .submit 2 5, .submit 3 7, .submit 4 9, .submit 5 11]) ∧
    ¬ (Http2Call.getStatusCode (fun _ => ⟨-1, 0⟩) 1).Exact (clientInit 1 true) := by
  constructor
  · intro h
    obtain ⟨req, hreq, -⟩ := h.named _ _ _ _ rfl ⟨65535, .data []⟩ (by decide)
    obtain ⟨hlt, -⟩ := List.getElem?_eq_some_iff.mp hreq
    exact absurd hlt (by decide)
  · intro h
    exact absurd (h.inside 1 (by decide)) (by decide)

end

end WmIot.Http2
