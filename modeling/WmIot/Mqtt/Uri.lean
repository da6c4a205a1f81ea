import WmIot.Lib.CString

/-!
# The URI of the MQTT client

`uri_dup` of `wm_mqtt_client.c`, and the TLS option block of `wm_mqtt_client_init`. The scheme is compared
with the start of the URI in one place and searched in all of it in another.
-/

namespace WmIot.Mqtt
open CString
set_option autoImplicit false

abbrev uriMqtt : List Byte := lit "mqtt://"
abbrev uriMqtts : List Byte := lit "mqtts://"
abbrev uriSsl : List Byte := lit "ssl://"
abbrev uriTcp : List Byte := lit "tcp://"
abbrev uriWss : List Byte := lit "wss://"

/-- `!strncmp(uri, pfx, strlen(pfx))` -/
def startsWith (uri pfx : List Byte) : Bool := pfx.isPrefixOf uri

/-- `uri_dup`; `mem` is the result of the allocation. -/
def uriDup (mem : Bool) (uri : List Byte) : Option (List Byte) :=
  if startsWith uri uriMqtt || startsWith uri uriMqtts then do
    let (pfx, pos) ←
      match strstr uriMqtts uri with
      | some pos => some (uriSsl, pos.drop uriMqtts.length)
      | none => (strstr uriMqtt uri).map fun pos => (uriTcp, pos.drop uriMqtt.length)
    if mem then some (pfx ++ pos) else none
  else if mem then some uri
  else none

/-- `wm_mqtt_client_init` allocates `ssl_opt`. -/
def sslAllocated (uri : List Byte) : Bool :=
  startsWith uri uriSsl || startsWith uri uriWss || startsWith uri uriMqtts

/-- It fills `ssl_opt` in, by the URI of the handle. -/
def sslFilled (uri : List Byte) : Bool :=
  match uriDup true uri with
  | none => false
  | some handleUri => startsWith handleUri uriSsl || startsWith handleUri uriWss

/-- The URI for the transport: another scheme in front of the rest. -/
def mappedUri (uri : List Byte) : List Byte :=
  if uriMqtts <+: uri then uriSsl ++ uri.drop uriMqtts.length
  else if uriMqtt <+: uri then uriTcp ++ uri.drop uriMqtt.length
  else uri

/-- The copy has the scheme of the transport, and the block is there when it is filled in. -/
structure MapsScheme (uri : List Byte) : Prop where
  copied : uriDup true uri = some (mappedUri uri)
  block : sslAllocated uri = sslFilled uri

section
variable {uri pfx rest : List Byte}

theorem startsWith_iff : startsWith uri pfx = true ↔ pfx <+: uri := List.isPrefixOf_iff_prefix

theorem uriDup_mqtts (h : uriMqtts <+: uri) : uriDup true uri = some (mappedUri uri) := by
  rw [uriDup, startsWith_iff.mpr h, Bool.or_true, if_pos rfl, strstr_of_isPrefix h, mappedUri, if_pos h]
  rfl

theorem uriDup_mqtt (h : uriMqtt <+: uri) (hno : ¬ uriMqtts <:+: uri) :
    uriDup true uri = some (mappedUri uri) := by
  have hnone : strstr uriMqtts uri = none := by
    rw [← Option.not_isSome_iff_eq_none]
    exact mt strstr_isSome_iff.mp hno
  rw [uriDup, startsWith_iff.mpr h, Bool.true_or, if_pos rfl, hnone, strstr_of_isPrefix h, mappedUri,
    if_neg (mt List.IsPrefix.isInfix hno), if_pos h]
  rfl

theorem uriDup_other (h : ¬ uriMqtt <+: uri) (h' : ¬ uriMqtts <+: uri) : uriDup true uri = some uri := by
  have hor : (startsWith uri uriMqtt || startsWith uri uriMqtts) = false := by
    rw [Bool.or_eq_false_iff, ← Bool.not_eq_true, ← Bool.not_eq_true, startsWith_iff, startsWith_iff]
    exact ⟨h, h'⟩
  rw [uriDup, hor]
  rfl

/-- A scheme that is found behind the first one is taken for it. -/
theorem uriDup_later (h : uriMqtt <+: uri) (hlater : uriMqtts <:+: uri) :
    ∃ rest, uriDup true uri = some (uriSsl ++ rest) := by
  obtain ⟨pos, hpos⟩ := Option.isSome_iff_exists.mp (strstr_isSome_iff.mpr hlater)
  refine ⟨pos.drop uriMqtts.length, ?_⟩
  rw [uriDup, startsWith_iff.mpr h, Bool.true_or, if_pos rfl, hpos]
  rfl

theorem startsWith_append (pfx rest : List Byte) : startsWith (pfx ++ rest) pfx = true :=
  startsWith_iff.mpr (List.prefix_append pfx rest)

/-- The block is allocated for the schemes for which it is filled in, where the copy is right. -/
theorem block_of_copied (h : uriDup true uri = some (mappedUri uri)) : sslAllocated uri = sslFilled uri := by
  rw [sslAllocated, sslFilled, h, mappedUri]
  by_cases hmqtts : uriMqtts <+: uri
  · rw [if_pos hmqtts, startsWith_iff.mpr hmqtts, Bool.or_true]
    dsimp only
    rw [startsWith_append, Bool.true_or]
  · rw [if_neg hmqtts, Bool.eq_false_iff.mpr (mt startsWith_iff.mp hmqtts), Bool.or_false]
    by_cases hmqtt : uriMqtt <+: uri
    · rw [if_pos hmqtt]
      obtain ⟨rest, rfl⟩ := hmqtt
      rfl
    · rw [if_neg hmqtt]

/-- The copy and the block are right, but where `mqtts://` is found behind a leading `mqtt://`. -/
theorem uriDup_exact_iff (uri : Str) :
    MapsScheme uri.chars ↔ ¬ (uriMqtt <+: uri.chars ∧ uriMqtts <:+: uri.chars) := by
  constructor
  · rintro ⟨hcopied, -⟩ ⟨hmqtt, hlater⟩
    obtain ⟨rest, hdup⟩ := uriDup_later hmqtt hlater
    have hmqtts : ¬ uriMqtts <+: uri.chars := by
      intro hmqtts
      exact absurd (List.prefix_of_prefix_length_le hmqtt hmqtts (by decide)) (by decide)
    rw [hdup, mappedUri, if_neg hmqtts, if_pos hmqtt, Option.some.injEq] at hcopied
    have hhead : some 0x73#8 = some 0x74#8 := congrArg List.head? hcopied
    exact absurd hhead (by decide)
  · intro hno
    have hcopied : uriDup true uri.chars = some (mappedUri uri.chars) := by
      by_cases hmqtts : uriMqtts <+: uri.chars
      · exact uriDup_mqtts hmqtts
      · by_cases hmqtt : uriMqtt <+: uri.chars
        · exact uriDup_mqtt hmqtt fun hlater => hno ⟨hmqtt, hlater⟩
        · rw [uriDup_other hmqtt hmqtts, mappedUri, if_neg hmqtts, if_neg hmqtt]
    exact ⟨hcopied, block_of_copied hcopied⟩

/-- The broker of `mqtt://h/mqtts://x` becomes `x`, and the block that is filled in is not there. -/
theorem not_mapsScheme : ¬ MapsScheme (lit "mqtt://h/mqtts://x") := by
  rintro ⟨hcopied, -⟩
  revert hcopied
  decide

end

end WmIot.Mqtt
