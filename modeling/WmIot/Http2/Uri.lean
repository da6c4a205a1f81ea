import WmIot.Lib.CString

/-!
# The URI parser of the HTTP/2 client

`wm_http2_parse_uri` of `wm_http2_client.c`. A string is its characters, pointers into it are offsets. The
parser leaves the text behind a bracketed host unchecked.
-/

namespace WmIot.Http2
open CString
set_option autoImplicit false

/-- `strchr(delims, c) != NULL`: the NUL of `delims` is found too. -/
def strchr (delims : List Byte) (c : Byte) : Bool := delims.contains c || c = 0#8

inductive PathPtr where
  /-- the literal `"/"` -/
  | slash
  | uri (offset : Nat)
  deriving DecidableEq, Repr

/-- `wm_https_url_param_t`, its pointers as offsets in the URI -/
structure UrlParam where
  host : Nat
  path : PathPtr
  pathlen : Nat
  hostport : Nat
  hostlen : Nat
  hostportlen : Nat
  port : Nat
  deriving DecidableEq, Repr

/-- `for (i = offset; i < len; ++i) if (stop(uri[i])) break;` on the text at `offset`: the index it leaves -/
def scan (stop : Byte → Bool) : List Byte → Nat → Nat
  | [], i => i
  | c :: rest, i => if stop c then i else scan stop rest (i + 1)

/-- The host of the URI: `res->host`, `ipv6addr`, `res->hostlen` and the offset behind it. -/
def scanHost (uri : List Byte) : Nat × Nat × Nat × Nat :=
  if uri[8]? = some 0x5B#8 then
    let i := scan (· = 0x5D#8) (uri.drop 9) 9
    if i < uri.length then (9, 1, i - 9, i + 1) else (9, 1, 0, 9)
  else
    let i := scan (strchr (lit ":/?#")) (uri.drop 8) 8
    (8, 0, i - 8, i)

/-- The loop over the digits of the port: the index it leaves and the port. -/
def scanPort : List Byte → Nat → Nat → Option (Nat × Nat)
  | [], i, port => some (i, port)
  | c :: rest, i, port =>
    if strchr (lit "/?#") c then some (i, port)
    else if isdigit c then
      if 10 * port + (c.toNat - 0x30) > 65535 then none
      else scanPort rest (i + 1) (10 * port + (c.toNat - 0x30))
    else none

/-- The port, 443 without one, and the offset behind it. -/
def parsePort (uri : List Byte) (offset : Nat) : Option (Nat × Nat) :=
  if uri[offset]? = some 0x3A#8 then do
    let (i, port) ← scanPort (uri.drop (offset + 1)) (offset + 1) 0
    if port = 0 then none else some (i, port)
  else some (offset, 443)

/-- The path and its length, up to `'#'`. -/
def parsePath (uri : List Byte) (offset : Nat) : PathPtr × Nat :=
  let i := scan (· = 0x23#8) (uri.drop offset) offset
  if i - offset = 0 then (.slash, 1) else (.uri offset, i - offset)

/-- `wm_http2_parse_uri`; `none` is `WM_ERR_FAILED` -/
def parseUri (uri : List Byte) : Option UrlParam :=
  if uri.length < 9 || uri.take 8 ≠ lit "https://" then none
  else
    let (host, ipv6addr, hostlen, offset) := scanHost uri
    if hostlen = 0 then none
    else do
      let (offset, port) ← parsePort uri offset
      let (path, pathlen) := parsePath uri offset
      some { host, path, pathlen, hostport := 8, hostlen, hostportlen := offset + ipv6addr - host, port }

/-! ### The accepted URIs -/

/-- The parts of a URI; a host in brackets is kept without them. -/
structure Parts where
  bracketed : Bool
  host : List Byte
  port : Option (List Byte)
  tail : List Byte

namespace Parts

def hostText (p : Parts) : List Byte :=
  if p.bracketed then 0x5B#8 :: p.host ++ [0x5D#8] else p.host

def portText (p : Parts) : List Byte := p.port.elim [] (0x3A#8 :: ·)

/-- The host and the port. -/
def authority (p : Parts) : List Byte := p.hostText ++ p.portText

def text (p : Parts) : List Byte := lit "https://" ++ p.authority ++ p.tail

def portValue (p : Parts) : Nat := p.port.elim 443 value

/-- The tail up to `'#'` -/
def shown (p : Parts) : List Byte := p.tail.takeWhile (· ≠ 0x23#8)

def path (p : Parts) : List Byte := if p.shown = [] then lit "/" else p.shown

/-- A host that begins with a bracket is one in brackets. -/
structure Valid (p : Parts) : Prop where
  host_ne : p.host ≠ []
  inside : p.bracketed → 0x5D#8 ∉ p.host
  outside : ¬ p.bracketed → p.host.head? ≠ some 0x5B#8 ∧ ∀ c ∈ p.host, c ∉ lit ":/?#"
  port_digits : ∀ ds ∈ p.port, (∀ c ∈ ds, isdigit c) ∧ 1 ≤ value ds ∧ value ds ≤ 65535
  tail_head : ∀ c ∈ p.tail.head?, c ∈ lit "/?#"

end Parts

namespace UrlParam

def hostText (res : UrlParam) (uri : List Byte) : List Byte := (uri.drop res.host).take res.hostlen

def hostportText (res : UrlParam) (uri : List Byte) : List Byte := (uri.drop res.hostport).take res.hostportlen

def pathText (res : UrlParam) (uri : List Byte) : List Byte :=
  match res.path with
  | .slash => (lit "/").take res.pathlen
  | .uri offset => (uri.drop offset).take res.pathlen

/-- Every part lies in a string of `len` characters. -/
def Inside (res : UrlParam) (len : Nat) : Prop :=
  res.host + res.hostlen ≤ len ∧ res.hostport + res.hostportlen ≤ len ∧
    ∀ offset, res.path = .uri offset → offset + res.pathlen ≤ len

/-- The fields of `res` are the parts `p` of the URI. -/
def Describes (res : UrlParam) (uri : List Byte) (p : Parts) : Prop :=
  res.hostText uri = p.host ∧ res.hostportText uri = p.authority ∧ res.port = p.portValue ∧
    res.pathText uri = p.path ∧ res.Inside uri.length

end UrlParam

/-- The parser accepts `uri` when it has parts, and returns them. -/
structure ParsesExactly (uri : List Byte) : Prop where
  accepts : (parseUri uri).isSome ↔ ∃ p : Parts, p.Valid ∧ p.text = uri
  returns : ∀ res, parseUri uri = some res → ∃ p : Parts, p.Valid ∧ p.text = uri ∧ res.Describes uri p

/-- A bracketed host with a character behind it that begins no port and no path. -/
def TextAfterBracket (uri : List Byte) : Prop :=
  ∃ text c rest, uri = lit "https://" ++ 0x5B#8 :: text ++ 0x5D#8 :: c :: rest ∧ text ≠ [] ∧
    0x5D#8 ∉ text ∧ c ∉ lit ":/?#"

/-! ### The loops -/

/-- `"https://"` -/
abbrev scheme : List Byte := lit "https://"

theorem scheme_length : scheme.length = 8 := by decide

section
variable {stop : Byte → Bool} {l a b : List Byte}

theorem scan_eq (stop : Byte → Bool) (l : List Byte) (i : Nat) :
    scan stop l i = i + (l.takeWhile fun c => !stop c).length := by
  induction l generalizing i with
  | nil => rfl
  | cons c l ih =>
    rw [scan, List.takeWhile_cons]
    cases stop c with
    | true => rfl
    | false =>
      rw [if_neg Bool.false_ne_true, ih]
      simp only [Bool.not_false, if_true, List.length_cons]
      omega

theorem scan_append (ha : ∀ c ∈ a, stop c = false) (hb : ∀ c ∈ b.head?, stop c = true) (i : Nat) :
    scan stop (a ++ b) i = i + a.length := by
  have hall : ∀ c ∈ a, (!stop c) = true := fun c hc => by rw [ha c hc]; rfl
  have hnone : b.takeWhile (fun c => !stop c) = [] := by
    cases b with
    | nil => rfl
    | cons c b => rw [List.takeWhile_cons, hb c rfl]; rfl
  rw [scan_eq, List.takeWhile_append_of_pos hall, hnone, List.append_nil]

/-- A text splits where a loop over it stops. -/
theorem split_scan (stop : Byte → Bool) (l : List Byte) :
    ∃ a b, l = a ++ b ∧ (∀ c ∈ a, stop c = false) ∧ ∀ c ∈ b.head?, stop c = true := by
  induction l with
  | nil => exact ⟨[], [], rfl, nofun, nofun⟩
  | cons c l ih =>
    cases hc : stop c with
    | true => exact ⟨[], c :: l, rfl, nofun, by simpa using hc⟩
    | false =>
      obtain ⟨a, b, rfl, ha, hb⟩ := ih
      refine ⟨c :: a, b, rfl, fun d hd => ?_, hb⟩
      rcases List.mem_cons.mp hd with rfl | hd
      · exact hc
      · exact ha d hd

end

section
variable {delims ds tail l : List Byte} {c : Byte}

theorem strchr_of_mem (h : c ∈ delims) : strchr delims c = true := by
  simp [strchr, h]

theorem mem_of_strchr (hc : c ≠ 0#8) (h : strchr delims c = true) : c ∈ delims := by
  simpa [strchr, hc] using h

theorem strchr_eq_false (hc : c ≠ 0#8) (h : c ∉ delims) : strchr delims c = false := by
  rw [← Bool.not_eq_true]
  exact mt (mem_of_strchr hc) h

theorem not_mem_of_strchr (h : strchr delims c = false) : c ∉ delims := by
  intro hmem
  rw [strchr_of_mem hmem] at h
  exact absurd h.symm Bool.false_ne_true

theorem strchr_digit (h : isdigit c = true) : strchr (lit "/?#") c = false := by
  revert c
  decide

/-- A digit more does not make the number smaller. -/
theorem le_value_from (ds : List Byte) (v : Nat) :
    v ≤ ds.foldl (fun v b => 10 * v + (b.toNat - 0x30)) v := by
  induction ds generalizing v with
  | nil => exact Nat.le_refl v
  | cons c ds ih =>
    have hstep : v ≤ 10 * v + (c.toNat - 0x30) := by omega
    exact hstep.trans (ih _)

theorem scanPort_append (hds : ∀ c ∈ ds, isdigit c = true) (htail : ∀ c ∈ tail.head?, c ∈ lit "/?#") {v : Nat}
    (hv : ds.foldl (fun v b => 10 * v + (b.toNat - 0x30)) v ≤ 65535) (i : Nat) :
    scanPort (ds ++ tail) i v = some (i + ds.length, ds.foldl (fun v b => 10 * v + (b.toNat - 0x30)) v) := by
  induction ds generalizing v i with
  | nil =>
    cases tail with
    | nil => rfl
    | cons c tail => rw [List.nil_append, scanPort, if_pos (strchr_of_mem (htail c rfl))]; rfl
  | cons c ds ih =>
    have hc := hds c List.mem_cons_self
    have hle := (le_value_from ds _).trans hv
    rw [List.cons_append, scanPort, strchr_digit hc, if_neg Bool.false_ne_true, if_pos hc,
      if_neg (Nat.not_lt.mpr hle), ih (fun d hd => hds d (List.mem_cons_of_mem c hd)) hv, List.foldl_cons,
      List.length_cons, Nat.add_right_comm, Nat.add_assoc]

theorem split_of_scanPort (hnul : 0#8 ∉ l) {i v j port : Nat} (hv : v ≤ 65535)
    (h : scanPort l i v = some (j, port)) :
    ∃ ds tail, l = ds ++ tail ∧ (∀ c ∈ ds, isdigit c = true) ∧ (∀ c ∈ tail.head?, c ∈ lit "/?#") ∧
      j = i + ds.length ∧ port = ds.foldl (fun v b => 10 * v + (b.toNat - 0x30)) v ∧ port ≤ 65535 := by
  induction l generalizing i v with
  | nil =>
    obtain ⟨rfl, rfl⟩ := Prod.mk.inj (Option.some.inj h)
    exact ⟨[], [], rfl, nofun, nofun, rfl, rfl, hv⟩
  | cons c l ih =>
    have hc : c ≠ 0#8 := fun hc => hnul (hc ▸ List.mem_cons_self)
    rw [scanPort] at h
    split at h
    next hstop =>
      obtain ⟨rfl, rfl⟩ := Prod.mk.inj (Option.some.inj h)
      refine ⟨[], c :: l, rfl, nofun, ?_, rfl, rfl, hv⟩
      rintro d ⟨⟩
      exact mem_of_strchr hc hstop
    next =>
      split at h
      next hdigit =>
        split at h
        · cases h
        next hle =>
          obtain ⟨ds, tail, rfl, hds, htail, rfl, rfl, hport⟩ :=
            ih (fun hmem => hnul (List.mem_cons_of_mem c hmem)) (Nat.not_lt.mp hle) h
          refine ⟨c :: ds, tail, rfl, fun d hd => ?_, htail, ?_, rfl, hport⟩
          · rcases List.mem_cons.mp hd with rfl | hd
            · exact hdigit
            · exact hds d hd
          · rw [List.length_cons]
            omega
      next => cases h

end

/-! ### The fields -/

section
variable {uri host text rest after : List Byte} {offset : Nat}

theorem getElem?_eq_head?_drop : uri[offset]? = (uri.drop offset).head? := List.head?_drop.symm

theorem drop_scheme (rest : List Byte) : (scheme ++ rest).drop 8 = rest := List.drop_left' scheme_length

theorem drop_scheme_cons (c : Byte) (rest : List Byte) : (scheme ++ c :: rest).drop 9 = rest := by
  rw [← List.tail_drop, drop_scheme, List.tail_cons]

theorem scanHost_plain (hhead : (host ++ after).head? ≠ some 0x5B#8)
    (hhost : ∀ c ∈ host, strchr (lit ":/?#") c = false) (hafter : ∀ c ∈ after.head?, strchr (lit ":/?#") c = true) :
    scanHost (scheme ++ (host ++ after)) = (8, 0, host.length, 8 + host.length) := by
  rw [scanHost, getElem?_eq_head?_drop, drop_scheme, if_neg hhead, scan_append hhost hafter]
  dsimp only
  rw [Nat.add_sub_cancel_left]

theorem scanHost_bracket (htext : 0x5D#8 ∉ text) (after : List Byte) :
    scanHost (scheme ++ 0x5B#8 :: (text ++ 0x5D#8 :: after)) = (9, 1, text.length, 9 + text.length + 1) := by
  have hscan : scan (· = 0x5D#8) (text ++ 0x5D#8 :: after) 9 = 9 + text.length := by
    refine scan_append (fun c hc => ?_) (fun c hc => ?_) 9
    · exact decide_eq_false fun h => htext (h ▸ hc)
    · exact decide_eq_true (Option.some.inj hc).symm
  have hinside : 9 + text.length < (scheme ++ 0x5B#8 :: (text ++ 0x5D#8 :: after)).length := by
    simp only [List.length_append, List.length_cons, scheme_length]
    omega
  rw [scanHost, getElem?_eq_head?_drop, drop_scheme, drop_scheme_cons, hscan, List.head?_cons, if_pos rfl]
  dsimp only
  rw [if_pos hinside, Nat.add_sub_cancel_left]

theorem scanHost_open (hrest : 0x5D#8 ∉ rest) : scanHost (scheme ++ 0x5B#8 :: rest) = (9, 1, 0, 9) := by
  have hscan : scan (· = 0x5D#8) rest 9 = 9 + rest.length := by
    have hno : ∀ c ∈ rest, decide (c = 0x5D#8) = false := fun c hc => decide_eq_false fun h => hrest (h ▸ hc)
    have h := scan_append hno (show ∀ c ∈ ([] : List Byte).head?, decide (c = 0x5D#8) = true from nofun) 9
    rwa [List.append_nil] at h
  have hend : ¬ 9 + rest.length < (scheme ++ 0x5B#8 :: rest).length := by
    simp only [List.length_append, List.length_cons, scheme_length]
    omega
  rw [scanHost, getElem?_eq_head?_drop, drop_scheme, drop_scheme_cons, hscan, List.head?_cons, if_pos rfl]
  dsimp only
  rw [if_neg hend]

theorem parsePort_port {ds tail : List Byte} (hdrop : uri.drop offset = 0x3A#8 :: (ds ++ tail))
    (hds : ∀ c ∈ ds, isdigit c = true) (htail : ∀ c ∈ tail.head?, c ∈ lit "/?#") (hlo : 1 ≤ value ds)
    (hhi : value ds ≤ 65535) : parsePort uri offset = some (offset + 1 + ds.length, value ds) := by
  have hnext : uri.drop (offset + 1) = ds ++ tail := by rw [← List.tail_drop, hdrop, List.tail_cons]
  have hscan := scanPort_append hds htail (v := 0) hhi (offset + 1)
  rw [parsePort, getElem?_eq_head?_drop, hdrop, List.head?_cons, if_pos rfl, hnext, hscan]
  exact if_neg (Nat.ne_of_gt hlo)

theorem parsePort_default (hhead : (uri.drop offset).head? ≠ some 0x3A#8) :
    parsePort uri offset = some (offset, 443) := by
  rw [parsePort, getElem?_eq_head?_drop, if_neg hhead]

/-- What is behind the host of an accepted URI: a port or none, and the tail. -/
theorem split_of_parsePort (hnul : 0#8 ∉ uri) {j port : Nat} (h : parsePort uri offset = some (j, port)) :
    ((uri.drop offset).head? ≠ some 0x3A#8 ∧ j = offset ∧ port = 443) ∨
      ∃ ds tail, uri.drop offset = 0x3A#8 :: (ds ++ tail) ∧ (∀ c ∈ ds, isdigit c = true) ∧
        (∀ c ∈ tail.head?, c ∈ lit "/?#") ∧ 1 ≤ value ds ∧ value ds ≤ 65535 := by
  rw [parsePort, getElem?_eq_head?_drop] at h
  split at h
  next hcolon =>
    obtain ⟨⟨i, v⟩, hscan, h⟩ := Option.bind_eq_some_iff.mp h
    have hnext : 0#8 ∉ uri.drop (offset + 1) := fun hmem => hnul (List.mem_of_mem_drop hmem)
    obtain ⟨ds, tail, heq, hds, htail, -, hvalue, hhi⟩ := split_of_scanPort hnext (Nat.zero_le _) hscan
    have hvalue : v = value ds := hvalue
    obtain ⟨rest, hrest⟩ := List.head?_eq_some_iff.mp hcolon
    refine Or.inr ⟨ds, tail, ?_, hds, htail, ?_, hvalue ▸ hhi⟩
    · rw [hrest, ← heq, ← List.tail_drop, hrest, List.tail_cons]
    · dsimp only at h
      split at h
      · cases h
      next hzero => exact Nat.pos_of_ne_zero (hvalue ▸ hzero)
  next hcolon =>
    obtain ⟨rfl, rfl⟩ := Prod.mk.inj (Option.some.inj h)
    exact Or.inl ⟨hcolon, rfl, rfl⟩

theorem parsePath_eq (uri : List Byte) (offset : Nat) :
    parsePath uri offset =
      if (uri.drop offset).takeWhile (· ≠ 0x23#8) = [] then (.slash, 1)
      else (.uri offset, ((uri.drop offset).takeWhile (· ≠ 0x23#8)).length) := by
  rw [parsePath, scan_eq, Nat.add_sub_cancel_left]
  simp only [decide_not, List.length_eq_zero_iff]

/-- The parser on a host that is there and a port that is in order. -/
theorem parseUri_of_port {rest : List Byte} {first v6 hostlen j port : Nat}
    (hscan : scanHost (scheme ++ rest) = (first, v6, hostlen, offset)) (hrest : rest ≠ []) (hlen : hostlen ≠ 0)
    (hport : parsePort (scheme ++ rest) offset = some (j, port)) :
    parseUri (scheme ++ rest) = some ⟨first, (parsePath (scheme ++ rest) j).1, (parsePath (scheme ++ rest) j).2, 8,
      hostlen, j + v6 - first, port⟩ := by
  have hlong : ¬ (scheme ++ rest).length < 9 := by
    have := List.length_pos_iff.mpr hrest
    rw [List.length_append, scheme_length]
    omega
  have hscheme : (scheme ++ rest).take 8 = scheme := List.take_left' scheme_length
  rw [parseUri, if_neg (by simp only [hlong, hscheme, ne_eq, not_true_eq_false, decide_false, Bool.or_self, Bool.false_eq_true, not_false_eq_true]), hscan]
  dsimp only
  rw [if_neg hlen, hport]
  rfl

/-- Every accepted URI has the scheme, a host and a port that is in order. -/
theorem of_parseUri {res : UrlParam} (h : parseUri uri = some res) :
    ∃ rest first v6 hostlen offset j port, uri = scheme ++ rest ∧ rest ≠ [] ∧
      scanHost uri = (first, v6, hostlen, offset) ∧ hostlen ≠ 0 ∧ parsePort uri offset = some (j, port) := by
  rw [parseUri] at h
  split at h
  · cases h
  next hscheme =>
    simp only [Bool.or_eq_true, decide_eq_true_eq, not_or, ne_eq, not_not] at hscheme
    obtain ⟨hlong, hscheme⟩ := hscheme
    have huri : uri = scheme ++ uri.drop 8 := by rw [scheme, ← hscheme, List.take_append_drop]
    have hrest : uri.drop 8 ≠ [] := by
      rw [ne_eq, List.drop_eq_nil_iff]
      omega
    rcases hscan : scanHost uri with ⟨first, v6, hostlen, offset⟩
    rw [hscan] at h
    dsimp only at h
    split at h
    · cases h
    next hlen =>
      obtain ⟨⟨j, port⟩, hport, -⟩ := Option.bind_eq_some_iff.mp h
      exact ⟨_, first, v6, hostlen, offset, j, port, huri, hrest, rfl, hlen, hport⟩

end

/-! ### The parts -/

theorem mem_delims_iff {c : Byte} : c ∈ lit ":/?#" ↔ c = 0x3A#8 ∨ c ∈ lit "/?#" := List.mem_cons

namespace Parts
variable {p : Parts}

theorem text_eq (p : Parts) : p.text = scheme ++ (p.hostText ++ (p.portText ++ p.tail)) := by
  simp only [text, authority, scheme, List.append_assoc]

theorem drop_hostText (p : Parts) : p.text.drop (8 + p.hostText.length) = p.portText ++ p.tail := by
  rw [text_eq, ← List.drop_drop, drop_scheme, List.drop_left]

theorem drop_authority (p : Parts) : p.text.drop (8 + p.authority.length) = p.tail := by
  rw [text, List.append_assoc, ← List.drop_drop, drop_scheme, List.drop_left]

theorem Valid.hostText_ne (hp : p.Valid) : p.hostText ≠ [] := by
  rw [hostText]
  split
  · exact List.cons_ne_nil _ _
  · exact hp.host_ne

/-- What is behind the host begins the port or the tail. -/
theorem Valid.after_head (hp : p.Valid) : ∀ c ∈ (p.portText ++ p.tail).head?, c ∈ lit ":/?#" := by
  intro c hc
  rw [portText] at hc
  cases hport : p.port with
  | none =>
    rw [hport] at hc
    exact mem_delims_iff.mpr (Or.inr (hp.tail_head c hc))
  | some ds =>
    rw [hport] at hc
    exact mem_delims_iff.mpr (Or.inl (Option.some.inj hc).symm)

theorem Valid.scanHost_eq (hp : p.Valid) (hnul : 0#8 ∉ p.text) :
    scanHost p.text = (8 + p.bracketed.toNat, p.bracketed.toNat, p.host.length, 8 + p.hostText.length) := by
  rw [text_eq] at hnul ⊢
  rw [hostText] at hnul ⊢
  cases hb : p.bracketed with
  | true =>
    simp only [if_true, List.cons_append, List.append_assoc, List.nil_append]
    rw [scanHost_bracket (hp.inside hb)]
    have hlen : 9 + p.host.length + 1 = 8 + (0x5B#8 :: (p.host ++ [0x5D#8])).length := by
      simp only [List.length_cons, List.length_append, List.length_nil]
      omega
    rw [hlen]
    rfl
  | false =>
    obtain ⟨hhead, hhost⟩ := hp.outside (by rw [hb]; exact Bool.false_ne_true)
    rw [hb] at hnul
    simp only [Bool.false_eq_true, if_false] at hnul ⊢
    refine scanHost_plain ?_ (fun c hc => ?_) fun c hc => strchr_of_mem (hp.after_head c hc)
    · cases hh : p.host with
      | nil => exact absurd hh hp.host_ne
      | cons c host => rw [hh] at hhead; exact hhead
    · refine strchr_eq_false (fun h => hnul ?_) (hhost c hc)
      exact List.mem_append_right _ (List.mem_append_left _ (h ▸ hc))

theorem Valid.parsePort_eq (hp : p.Valid) :
    parsePort p.text (8 + p.hostText.length) = some (8 + p.authority.length, p.portValue) := by
  have hdrop := p.drop_hostText
  rw [authority, List.length_append, ← Nat.add_assoc]
  rw [portText] at hdrop ⊢
  rw [portValue]
  cases hport : p.port with
  | none =>
    rw [hport] at hdrop
    refine parsePort_default ?_
    rw [hdrop]
    intro hcolon
    exact absurd (hp.tail_head _ hcolon) (by decide)
  | some ds =>
    rw [hport] at hdrop
    obtain ⟨hds, hlo, hhi⟩ := hp.port_digits ds hport
    rw [parsePort_port hdrop hds hp.tail_head hlo hhi]
    simp only [Option.elim_some, List.length_cons, Nat.add_assoc, Nat.add_comm, Nat.add_left_comm]

/-- What the parser returns for these parts. -/
def result (p : Parts) : UrlParam where
  host := 8 + p.bracketed.toNat
  path := if p.shown = [] then .slash else .uri (8 + p.authority.length)
  pathlen := if p.shown = [] then 1 else p.shown.length
  hostport := 8
  hostlen := p.host.length
  hostportlen := p.authority.length
  port := p.portValue

theorem Valid.parseUri_eq (hp : p.Valid) (hnul : 0#8 ∉ p.text) : parseUri p.text = some p.result := by
  have hscan := hp.scanHost_eq hnul
  have hport := hp.parsePort_eq
  have hpath := parsePath_eq p.text (8 + p.authority.length)
  rw [p.drop_authority] at hpath
  rw [text_eq] at hscan hport hpath ⊢
  have hrest : p.hostText ++ (p.portText ++ p.tail) ≠ [] :=
    List.append_ne_nil_of_left_ne_nil hp.hostText_ne _
  rw [parseUri_of_port hscan hrest (mt List.eq_nil_of_length_eq_zero hp.host_ne) hport, hpath, result, shown,
    Option.some.injEq, UrlParam.mk.injEq]
  refine ⟨rfl, ?_, ?_, rfl, rfl, by omega, rfl⟩
  · split <;> rfl
  · split <;> rfl

theorem text_length (p : Parts) : p.text.length = 8 + p.authority.length + p.tail.length := by
  rw [text, List.length_append, List.length_append, scheme_length]

theorem result_hostText (p : Parts) : p.result.hostText p.text = p.host := by
  rw [UrlParam.hostText, result, text_eq, hostText]
  cases p.bracketed with
  | true =>
    simp only [if_true, List.cons_append, List.append_assoc]
    exact (congrArg (List.take _) (drop_scheme_cons _ _)).trans List.take_left
  | false =>
    simp only [Bool.false_eq_true, if_false]
    exact (congrArg (List.take _) (drop_scheme _)).trans List.take_left

theorem result_pathText (p : Parts) : p.result.pathText p.text = p.path := by
  rw [UrlParam.pathText, path, result]
  by_cases hshown : p.shown = []
  · simp only [hshown, if_true]
    rfl
  · simp only [hshown, if_false]
    rw [drop_authority]
    exact (List.prefix_iff_eq_take.mp (List.takeWhile_prefix _)).symm

theorem result_inside (p : Parts) : p.result.Inside p.text.length := by
  have hhost : p.bracketed.toNat + p.host.length ≤ p.authority.length := by
    rw [authority, hostText]
    cases p.bracketed with
    | true =>
      simp only [if_true, List.length_append, List.length_cons, List.length_nil, Bool.toNat_true]
      omega
    | false =>
      simp only [Bool.false_eq_true, if_false, List.length_append, Bool.toNat_false]
      omega
  have hshown : p.shown.length ≤ p.tail.length := (List.takeWhile_prefix _).length_le
  rw [text_length]
  refine ⟨?_, ?_, fun offset hpath => ?_⟩
  · change 8 + p.bracketed.toNat + p.host.length ≤ _
    omega
  · change 8 + p.authority.length ≤ _
    omega
  · rw [result] at hpath ⊢
    dsimp only at hpath ⊢
    split at hpath
    · cases hpath
    next h =>
      cases hpath
      rw [if_neg h]
      omega

theorem result_describes (p : Parts) : p.result.Describes p.text p := by
  refine ⟨p.result_hostText, ?_, rfl, p.result_pathText, p.result_inside⟩
  change (p.text.drop 8).take p.authority.length = p.authority
  rw [text, List.append_assoc, drop_scheme, List.take_left]

end Parts

section
variable {uri : List Byte}

/-- A port or none and a tail behind the host. -/
theorem parts_of_port (hnul : 0#8 ∉ uri) {q : Parts} (hq : q.host ≠ []) (hin : q.bracketed → 0x5D#8 ∉ q.host)
    (hout : ¬ q.bracketed → q.host.head? ≠ some 0x5B#8 ∧ ∀ c ∈ q.host, c ∉ lit ":/?#") {after : List Byte}
    (huri : uri = scheme ++ (q.hostText ++ after)) {j port : Nat}
    (hport : parsePort uri (8 + q.hostText.length) = some (j, port)) :
    (∃ p : Parts, p.Valid ∧ p.text = uri) ∨ ∃ c rest, after = c :: rest ∧ c ∉ lit ":/?#" := by
  have hdrop : uri.drop (8 + q.hostText.length) = after := by
    rw [huri, ← List.drop_drop, drop_scheme, List.drop_left]
  rcases split_of_parsePort hnul hport with ⟨hcolon, -, -⟩ | ⟨ds, tail, heq, hds, htail, hlo, hhi⟩
  · rw [hdrop] at hcolon
    by_cases htail : ∀ c ∈ after.head?, c ∈ lit "/?#"
    · refine Or.inl ⟨{ q with port := none, tail := after }, ⟨hq, hin, hout, nofun, htail⟩, ?_⟩
      rw [Parts.text_eq, huri]
      rfl
    · cases after with
      | nil => exact absurd nofun htail
      | cons c rest =>
        refine Or.inr ⟨c, rest, rfl, fun hc => htail ?_⟩
        rintro d ⟨⟩
        rcases mem_delims_iff.mp hc with rfl | hc
        · exact absurd rfl hcolon
        · exact hc
  · rw [hdrop] at heq
    refine Or.inl ⟨{ q with port := some ds, tail }, ⟨hq, hin, hout, ?_, htail⟩, ?_⟩
    · rintro _ ⟨⟩
      exact ⟨hds, hlo, hhi⟩
    · rw [Parts.text_eq, huri, heq]
      rfl

/-- What the parser accepts has parts, or text behind its bracket. -/
theorem parts_of_parseUri (hnul : 0#8 ∉ uri) {res : UrlParam} (h : parseUri uri = some res) :
    (∃ p : Parts, p.Valid ∧ p.text = uri) ∨ TextAfterBracket uri := by
  obtain ⟨rest, first, v6, hostlen, offset, j, port, rfl, hrest, hscan, hlen, hport⟩ := of_parseUri h
  by_cases hhead : rest.head? = some 0x5B#8
  · obtain ⟨rest, rfl⟩ := List.head?_eq_some_iff.mp hhead
    obtain ⟨text, b, rfl, htext, hb⟩ := split_scan (· = 0x5D#8) rest
    have htext : 0x5D#8 ∉ text := fun hmem => absurd rfl (of_decide_eq_false (htext _ hmem))
    cases b with
    | nil =>
      rw [scanHost_open (by rwa [List.append_nil])] at hscan
      cases hscan
      exact absurd rfl hlen
    | cons c after =>
      obtain rfl : c = 0x5D#8 := of_decide_eq_true (hb c rfl)
      rw [scanHost_bracket htext] at hscan
      cases hscan
      have hne : text ≠ [] := fun h => hlen (congrArg List.length h)
      have htexts : (⟨true, text, none, []⟩ : Parts).hostText = 0x5B#8 :: text ++ [0x5D#8] := rfl
      have huri : scheme ++ 0x5B#8 :: (text ++ 0x5D#8 :: after) =
          scheme ++ ((⟨true, text, none, []⟩ : Parts).hostText ++ after) := by
        rw [htexts, List.append_assoc]
        rfl
      have hoffset : 9 + text.length + 1 = 8 + (⟨true, text, none, []⟩ : Parts).hostText.length := by
        rw [htexts, List.length_append, List.length_cons, List.length_singleton]
        omega
      rw [hoffset] at hport
      refine (parts_of_port hnul hne (fun _ => htext) (fun h => absurd rfl h) huri hport).imp_right ?_
      rintro ⟨c, rest, rfl, hc⟩
      exact ⟨text, c, rest, by rw [List.append_assoc]; rfl, hne, htext, hc⟩
  · obtain ⟨host, after, rfl, hhost, hafter⟩ := split_scan (strchr (lit ":/?#")) rest
    rw [scanHost_plain hhead hhost hafter] at hscan
    cases hscan
    have hne : host ≠ [] := fun h => hlen (congrArg List.length h)
    have hout : host.head? ≠ some 0x5B#8 ∧ ∀ c ∈ host, c ∉ lit ":/?#" := by
      refine ⟨fun h => hhead ?_, fun c hc => not_mem_of_strchr (hhost c hc)⟩
      obtain ⟨host, rfl⟩ := List.head?_eq_some_iff.mp h
      rfl
    refine (parts_of_port (q := ⟨false, host, none, []⟩) hnul hne nofun (fun _ => hout) rfl hport).imp_right ?_
    rintro ⟨c, rest, rfl, hc⟩
    have hnulc : c ≠ 0#8 := by
      rintro rfl
      exact hnul (List.mem_append_right _ (List.mem_append_right _ List.mem_cons_self))
    exact absurd (mem_of_strchr hnulc (hafter c rfl)) hc

theorem TextAfterBracket.parses (h : TextAfterBracket uri) : (parseUri uri).isSome := by
  obtain ⟨text, c, rest, rfl, hne, htext, hc⟩ := h
  rw [List.append_assoc]
  have hdrop : (scheme ++ 0x5B#8 :: (text ++ 0x5D#8 :: c :: rest)).drop (9 + text.length + 1) = c :: rest := by
    rw [← List.drop_drop, ← List.drop_drop, drop_scheme_cons, List.drop_left, List.drop_one, List.tail_cons]
  have hport : parsePort (scheme ++ 0x5B#8 :: (text ++ 0x5D#8 :: c :: rest)) (9 + text.length + 1) =
      some (9 + text.length + 1, 443) := by
    refine parsePort_default ?_
    rw [hdrop]
    rintro ⟨⟩
    exact hc (mem_delims_iff.mpr (Or.inl rfl))
  have h := parseUri_of_port (scanHost_bracket htext (c :: rest)) (List.cons_ne_nil _ _)
    (mt List.eq_nil_of_length_eq_zero hne) hport
  exact Option.isSome_of_eq_some h

theorem TextAfterBracket.no_parts (h : TextAfterBracket uri) {p : Parts} (hp : p.Valid) : p.text ≠ uri := by
  obtain ⟨text, c, rest, rfl, -, htext, hc⟩ := h
  rw [Parts.text_eq, List.append_assoc, List.cons_append]
  intro heq
  have heq := List.append_cancel_left heq
  cases hb : p.bracketed with
  | false =>
    obtain ⟨hhead, -⟩ := hp.outside (by rw [hb]; exact Bool.false_ne_true)
    rw [Parts.hostText, hb, if_neg Bool.false_ne_true] at heq
    cases hhost : p.host with
    | nil => exact hp.host_ne hhost
    | cons d host =>
      rw [hhost] at heq hhead
      exact hhead (congrArg some (List.cons.inj heq).1)
  | true =>
    rw [Parts.hostText, hb, if_pos rfl, List.cons_append, List.cons_append, List.append_assoc] at heq
    have heq := (List.cons.inj heq).2
    -- both hosts end at the first bracket
    have hlen : p.host.length = text.length := by
      have hfirst := scanHost_bracket (hp.inside hb) (p.portText ++ p.tail)
      rw [show p.host ++ 0x5D#8 :: (p.portText ++ p.tail) = text ++ 0x5D#8 :: c :: rest from heq,
        scanHost_bracket htext] at hfirst
      exact (congrArg (fun r => r.2.2.1) hfirst).symm
    have hafter : p.portText ++ p.tail = c :: rest := (List.cons.inj (List.append_inj heq hlen).2).2
    exact hc (hp.after_head c (by rw [hafter]; rfl))

/-- The parser is exact on all strings but those with text behind a bracketed host. -/
theorem parseUri_exact_iff (uri : Str) : ParsesExactly uri.chars ↔ ¬ TextAfterBracket uri.chars := by
  constructor
  · intro h hafter
    obtain ⟨p, hp, htext⟩ := h.accepts.mp hafter.parses
    exact hafter.no_parts hp htext
  · intro hafter
    have hparts : ∀ res, parseUri uri.chars = some res → ∃ p : Parts, p.Valid ∧ p.text = uri.chars :=
      fun res hres => (parts_of_parseUri uri.noNul hres).resolve_right hafter
    refine ⟨⟨fun h => ?_, ?_⟩, fun res hres => ?_⟩
    · obtain ⟨res, hres⟩ := Option.isSome_iff_exists.mp h
      exact hparts res hres
    · rintro ⟨p, hp, htext⟩
      rw [← htext, hp.parseUri_eq (htext ▸ uri.noNul)]
      rfl
    · obtain ⟨p, hp, htext⟩ := hparts res hres
      refine ⟨p, hp, htext, ?_⟩
      rw [← htext, hp.parseUri_eq (htext ▸ uri.noNul)] at hres
      obtain rfl := Option.some.inj hres
      exact htext ▸ p.result_describes

/-- The text behind the bracket is taken for a path. -/
theorem not_parsesExactly : ¬ ParsesExactly (lit "https://[::1]abc") := by
  have hafter : TextAfterBracket (lit "https://[::1]abc") :=
    ⟨lit "::1", 0x61#8, lit "bc", by decide, by decide, by decide, by decide⟩
  intro h
  obtain ⟨p, hp, htext⟩ := h.accepts.mp hafter.parses
  exact hafter.no_parts hp htext

end

end WmIot.Http2
