import WmIot.Lib.CString

/-!
# The body of a request

`wm_http2_data_source_read_callback` of `wm_http2_client.c`, and the copy of the content that
`wm_http2_client_add_header_from_reqlist` makes. nghttp2 calls back with one buffer after the other until the
end flag. The copy is the one of a string, and the offset is that of the request: nothing sets it back.
-/

namespace WmIot.Http2
open CString
set_option autoImplicit false

/-- `wm_http2_client_method_e` -/
inductive Method where
  | get
  | head
  | post
  | put
  | delete
  deriving DecidableEq, Repr

/-- `strdup` of the memory at a pointer; `none` is a read past it. -/
def strdup (p : List Byte) : Option (List Byte) := (strlen p).map p.take

/-- The fields of a `wm_http2_client_req_t` that are about its body; `provider` is set with the callback. -/
structure Body where
  content : List Byte
  contentLen : Nat
  contentOffset : Nat
  provider : Bool
  deriving DecidableEq, Repr

/-- The content in `wm_http2_client_add_header_from_reqlist`: `content` is the memory from the pointer on. -/
def bodyFromReqlist (method : Method) (content : Option (List Byte)) (contentLen : Nat) : Option Body :=
  match content with
  | some p =>
    if (method = .post ∨ method = .put) ∧ contentLen ≠ 0 then
      (strdup p).map fun copy => ⟨copy, copy.length, 0, true⟩
    else some ⟨[], 0, 0, false⟩
  | none => some ⟨[], 0, 0, false⟩

/-- What a call back gives: the bytes and the end flag. -/
abbrev Chunk := List Byte × Bool

namespace Body

/-- `wm_http2_data_source_read_callback` -/
def read (req : Body) (length : Nat) : Body × Chunk :=
  if req.contentOffset ≥ req.contentLen then (req, [], true)
  else
    let size := if req.contentLen - req.contentOffset > length then length else req.contentLen - req.contentOffset
    ({ req with contentOffset := req.contentOffset + size },
      (req.content.drop req.contentOffset).take size, decide (req.contentOffset + size ≥ req.contentLen))

/-- The calls back for a submission, with these buffers, up to the end flag. -/
def submission (req : Body) : List Nat → Body × List Chunk
  | [] => (req, [])
  | length :: lens =>
    let (req, chunk) := req.read length
    if chunk.2 then (req, [chunk])
    else
      let (req, chunks) := req.submission lens
      (req, chunk :: chunks)

/-- The submissions of some calls of `wm_http2_client_perform`, each with its buffers. -/
def performs (req : Body) : List (List Nat) → List (List Chunk)
  | [] => []
  | lens :: rest =>
    let (req, chunks) := if req.provider then req.submission lens else (req, [])
    chunks :: req.performs rest

end Body

/-- A request with content, and the memory behind it. -/
structure Upload where
  method : Method
  content : List Byte
  behind : List Byte
  uploads : method = .post ∨ method = .put
  content_ne : content ≠ []

/-- What the calls back of each submission give. -/
def Upload.submissions (u : Upload) (performs : List (List Nat)) : Option (List (List Chunk)) :=
  (bodyFromReqlist u.method (some (u.content ++ u.behind)) u.content.length).map (·.performs performs)

/-- The bytes are those of the content as far as the buffers go, and the end flag comes with the last byte. -/
structure Produces (content : List Byte) (lens : List Nat) (chunks : List Chunk) : Prop where
  bytes : chunks.flatMap Prod.fst = content.take lens.sum
  eof : ∀ k chunk, chunks[k]? = some chunk →
    (chunk.2 = true ↔ content.length ≤ ((chunks.take (k + 1)).flatMap Prod.fst).length)

/-- Whatever the buffers of `n` performs are, each submission produces the content. -/
def Upload.Exact (u : Upload) (n : Nat) : Prop :=
  ∀ performs : List (List Nat), performs.length = n → (∀ lens ∈ performs, ∀ l ∈ lens, 0 < l) →
    ∀ (i : Nat) (lens : List Nat), performs[i]? = some lens →
      ∃ out chunks, u.submissions performs = some out ∧ out[i]? = some chunks ∧ Produces u.content lens chunks

namespace Body
variable {req : Body} {length : Nat} {lens : List Nat}

theorem read_of_lt (h : req.contentOffset < req.contentLen) (length : Nat) :
    req.read length =
      ({ req with contentOffset := req.contentOffset + min length (req.contentLen - req.contentOffset) },
        (req.content.drop req.contentOffset).take (min length (req.contentLen - req.contentOffset)),
        decide (req.contentLen ≤ req.contentOffset + min length (req.contentLen - req.contentOffset))) := by
  have hsize : (if req.contentLen - req.contentOffset > length then length
      else req.contentLen - req.contentOffset) = min length (req.contentLen - req.contentOffset) := by
    split <;> omega
  rw [read, if_neg (Nat.not_le.mpr h), hsize]

/-- From an offset on, a submission produces the rest of the content. -/
theorem submission_produces (hlen : req.contentLen = req.content.length) (hoff : req.contentOffset < req.contentLen)
    (hpos : ∀ l ∈ lens, 0 < l) :
    Produces (req.content.drop req.contentOffset) lens (req.submission lens).2 := by
  induction lens generalizing req with
  | nil => exact ⟨rfl, nofun⟩
  | cons length lens ih =>
    have hl := hpos length List.mem_cons_self
    rw [submission, read_of_lt hoff]
    dsimp only
    have hrest : (req.content.drop req.contentOffset).length = req.contentLen - req.contentOffset := by
      rw [List.length_drop, hlen]
    by_cases hend : req.contentLen - req.contentOffset ≤ length
    · rw [Nat.min_eq_right hend, if_pos (decide_eq_true (by omega)), ← hrest, List.take_length]
      refine ⟨?_, ?_⟩
      · rw [List.flatMap_singleton, List.sum_cons, List.take_of_length_le (by omega)]
      · intro k chunk hk
        cases k with
        | zero =>
          cases hk
          rw [List.take_succ_cons, List.take_zero, List.flatMap_singleton]
          exact iff_of_true (decide_eq_true (by omega)) (Nat.le_refl _)
        | succ k => cases hk
    · have hmin : min length (req.contentLen - req.contentOffset) = length := Nat.min_eq_left (by omega)
      have hno : ¬ req.contentLen ≤ req.contentOffset + length := by omega
      rw [hmin, if_neg (by rw [decide_eq_true_eq]; exact hno)]
      have hnext := @ih { req with contentOffset := req.contentOffset + length } hlen
        (Nat.not_le.mp hno) fun l hl => hpos l (List.mem_cons_of_mem _ hl)
      dsimp only at hnext ⊢
      rw [← List.drop_drop] at hnext
      have hfirst : ((req.content.drop req.contentOffset).take length).length = length := by
        rw [List.length_take, hrest]
        omega
      refine ⟨?_, ?_⟩
      · rw [List.flatMap_cons, hnext.bytes, List.sum_cons, List.take_add]
      · intro k chunk hk
        cases k with
        | zero =>
          cases hk
          rw [List.take_succ_cons, List.take_zero, List.flatMap_singleton, hfirst, hrest, decide_eq_true_eq]
          omega
        | succ k =>
          rw [List.getElem?_cons_succ] at hk
          rw [hnext.eof k chunk hk, List.take_succ_cons, List.flatMap_cons, List.length_append, hfirst,
            List.length_drop]
          omega

theorem submission_singleton (req : Body) (length : Nat) :
    req.submission [length] = ((req.read length).1, [(req.read length).2]) := by
  rw [submission]
  rcases req.read length with ⟨req', chunk⟩
  dsimp only
  split <;> rfl

/-- A first buffer gets the content up to its length. -/
theorem read_first (hlen : req.contentLen = req.content.length) (hoff : req.contentOffset = 0) (length : Nat) :
    (req.read length).2.1 = req.content.take length ∧
      (req.read length).1 = { req with contentOffset := min length req.contentLen } := by
  by_cases h : req.contentOffset < req.contentLen
  · rw [read_of_lt h, hoff, List.drop_zero, Nat.sub_zero, Nat.zero_add]
    refine ⟨?_, rfl⟩
    dsimp only
    rw [hlen]
    exact List.take_eq_take_min.symm
  · have hnil : req.content = [] := List.eq_nil_of_length_eq_zero (by omega)
    have htake : req.content.take length = [] := by rw [hnil, List.take_nil]
    rw [read, if_pos (Nat.not_lt.mp h), htake]
    have hmin : min length req.contentLen = req.contentOffset := by omega
    rw [hmin]
    exact ⟨rfl, rfl⟩

/-- Nothing is left for a second submission. -/
theorem read_last (h : req.contentLen ≤ req.contentOffset) (length : Nat) : req.read length = (req, [], true) :=
  if_pos h

theorem performs_cons (h : req.provider = true) (lens : List Nat) (rest : List (List Nat)) :
    req.performs (lens :: rest) = (req.submission lens).2 :: (req.submission lens).1.performs rest := by
  rw [performs, if_pos h]

end Body

theorem strdup_eq_some_iff {p copy : List Byte} :
    strdup p = some copy ↔ ∃ rest, p = copy ++ 0#8 :: rest ∧ 0#8 ∉ copy := by
  rw [strdup, Option.map_eq_some_iff]
  constructor
  · rintro ⟨n, hn, rfl⟩
    obtain ⟨s, rest, rfl, hs, rfl⟩ := strlen_eq_some_iff.mp hn
    rw [List.take_left]
    exact ⟨rest, rfl, hs⟩
  · rintro ⟨rest, rfl, hcopy⟩
    exact ⟨copy.length, strlen_append hcopy rest, List.take_left⟩

namespace Upload

theorem submissions_eq (u : Upload) (performs : List (List Nat)) :
    u.submissions performs =
      (strdup (u.content ++ u.behind)).map fun copy => Body.performs ⟨copy, copy.length, 0, true⟩ performs := by
  have hlen : u.content.length ≠ 0 := mt List.eq_nil_of_length_eq_zero u.content_ne
  rw [submissions, bodyFromReqlist, if_pos ⟨u.uploads, hlen⟩, Option.map_map]
  rfl

/-- The copy is the content when no byte of it is zero and a terminator follows. -/
theorem strdup_content_iff (u : Upload) :
    strdup (u.content ++ u.behind) = some u.content ↔ 0#8 ∉ u.content ∧ u.behind.head? = some 0#8 := by
  rw [strdup_eq_some_iff, List.head?_eq_some_iff]
  constructor
  · rintro ⟨rest, heq, hno⟩
    exact ⟨hno, rest, List.append_cancel_left heq⟩
  · rintro ⟨hno, rest, heq⟩
    exact ⟨rest, congrArg _ heq, hno⟩

/-- A buffer that is too large shows the copy. -/
theorem Exact.copied {u : Upload} {n : Nat} (h : u.Exact (n + 1)) :
    strdup (u.content ++ u.behind) = some u.content := by
  have hpos : ∀ lens ∈ [u.content.length + 1] :: List.replicate n [1], ∀ l ∈ lens, 0 < l := by
    intro lens hlens l hl
    rcases List.mem_cons.mp hlens with rfl | hlens
    · rw [List.mem_singleton.mp hl]
      exact Nat.succ_pos _
    · rw [List.eq_of_mem_replicate hlens] at hl
      rw [List.mem_singleton.mp hl]
      exact Nat.one_pos
  obtain ⟨out, chunks, hout, hchunks, hprod⟩ :=
    h _ (by rw [List.length_cons, List.length_replicate]) hpos 0 _ rfl
  rw [submissions_eq] at hout
  obtain ⟨copy, hcopy, rfl⟩ := Option.map_eq_some_iff.mp hout
  rw [Body.performs_cons rfl, Body.submission_singleton, List.getElem?_cons_zero, Option.some.injEq] at hchunks
  have hbytes := hprod.bytes
  rw [← hchunks, List.flatMap_singleton, (Body.read_first rfl rfl _).1, List.sum_singleton,
    List.take_of_length_le (Nat.le_succ u.content.length)] at hbytes
  dsimp only at hbytes
  have hle : copy.length ≤ u.content.length := by
    have hlen := congrArg List.length hbytes
    rw [List.length_take] at hlen
    omega
  rw [List.take_of_length_le (by omega)] at hbytes
  rw [hcopy, hbytes]

/-- The second submission gives no bytes. -/
theorem not_exact_twice (u : Upload) (n : Nat) : ¬ u.Exact (n + 2) := by
  intro h
  have hcopy := h.copied
  have hpos : ∀ lens ∈ List.replicate (n + 2) [u.content.length], ∀ l ∈ lens, 0 < l := by
    intro lens hlens l hl
    rw [List.eq_of_mem_replicate hlens] at hl
    rw [List.mem_singleton.mp hl]
    exact List.length_pos_iff.mpr u.content_ne
  obtain ⟨out, chunks, hout, hchunks, hprod⟩ := h _ List.length_replicate hpos 1 _ rfl
  rw [submissions_eq, hcopy, Option.map_some, Option.some.injEq] at hout
  rw [← hout, List.replicate_succ, List.replicate_succ, Body.performs_cons rfl, Body.submission_singleton] at hchunks
  have hfirst := (Body.read_first (show Body.contentLen ⟨u.content, u.content.length, 0, true⟩ = _ from rfl) rfl
    u.content.length).2
  have hlast := Body.read_last (show Body.contentLen ⟨u.content, u.content.length, u.content.length, true⟩ ≤ _ from
    Nat.le_refl _) u.content.length
  dsimp only at hchunks hfirst
  rw [hfirst, Nat.min_self, Body.performs_cons rfl, Body.submission_singleton, hlast] at hchunks
  obtain rfl := Option.some.inj hchunks
  have hbytes := hprod.bytes
  rw [List.flatMap_singleton, List.sum_singleton, List.take_length] at hbytes
  exact u.content_ne hbytes.symm

/-- The body is exact for one submission of a string, or none at all. -/
theorem body_exact_iff (u : Upload) (n : Nat) :
    u.Exact n ↔ n = 0 ∨ n = 1 ∧ 0#8 ∉ u.content ∧ u.behind.head? = some 0#8 := by
  constructor
  · intro h
    match n, h with
    | 0, _ => exact Or.inl rfl
    | 1, h => exact Or.inr ⟨rfl, u.strdup_content_iff.mp h.copied⟩
    | n + 2, h => exact absurd h (u.not_exact_twice n)
  · rintro (rfl | ⟨rfl, hcontent⟩) performs hlen hpos i lens hi
    · rw [List.eq_nil_of_length_eq_zero hlen] at hi
      cases hi
    · obtain ⟨lens', rfl⟩ := List.length_eq_one_iff.mp hlen
      cases i with
      | succ i => cases hi
      | zero =>
        obtain rfl := Option.some.inj hi
        have hprod := Body.submission_produces (show Body.contentLen ⟨u.content, u.content.length, 0, true⟩ = _ from rfl)
          (List.length_pos_iff.mpr u.content_ne) (hpos lens' List.mem_cons_self)
        refine ⟨[(Body.submission ⟨u.content, u.content.length, 0, true⟩ lens').2], _, ?_, rfl, hprod⟩
        rw [submissions_eq, u.strdup_content_iff.mpr hcontent, Option.map_some, Body.performs_cons rfl]
        rfl

/-- The bytes behind a zero are lost, and a second submission is empty. -/
theorem body_not_exact :
    ¬ Exact ⟨.post, [0x61#8, 0#8, 0x62#8], [0#8], Or.inl rfl, List.cons_ne_nil _ _⟩ 1 ∧
      ¬ Exact ⟨.post, [0x61#8], [0#8], Or.inl rfl, List.cons_ne_nil _ _⟩ 2 := by
  refine ⟨fun h => ?_, not_exact_twice _ 0⟩
  exact absurd (strdup_content_iff _ |>.mp h.copied).1 (by decide)

end Upload

end WmIot.Http2
