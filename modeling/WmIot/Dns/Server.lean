import WmIot.Lib.CString

/-!
# The DNS server

The answers to queries for the access point's own name. Memory next to `DnsServer.DnsName` is given by
the offset from the name; `none` is a read that leaves the memory a caller allows. A pointer into a
packet is the list of the bytes behind it.
-/

namespace WmIot.Dns.Server
open CString
set_option autoImplicit false

/-- The size of `DnsName`. -/
def nameSize : Nat := 32

def dnsFlag1Response : Byte := 0x80
def dnsFlag1OpcodeStandard : Byte := 0x00
def dnsFlag2ErrNone : Byte := 0x00
def dnsFlag2ErrName : Byte := 0x03

/-- A number of two bytes in network order. -/
def word (n : Nat) : List Byte := [BitVec.ofNat 8 (n / 256), BitVec.ofNat 8 n]

def dnsRrtypeA : List Byte := word 1
def dnsRrclassIn : List Byte := word 1
def dnsDefaultTtl : Nat := 3600

section CompareName
variable (my : Int → Option Byte)

/-- The inner loop over the `n` bytes of a label: `none` inside where they differ, else the query
behind the label. -/
def compareLabel : Nat → Int → List Byte → Option (Option (List Byte))
  | 0, _, query => some (some query)
  | _ + 1, _, [] => none
  | n + 1, p, b :: query =>
    (my p).bind fun c => if c ≠ b then some none else compareLabel n (p + 1) query

/-- `*(--MyDns) == 0` -/
def atEnd (p : Int) : Option Int := (my (p - 1)).map fun c => if c = 0#8 then 0 else 1

/-- The loop over the labels, for at most `fuel` turns. -/
def compareLabels : Nat → Int → List Byte → Option Int
  | 0, _, _ => none
  | _ + 1, _, [] => none
  | fuel + 1, p, n :: query =>
    if n &&& 0xc0#8 = 0xc0#8 then atEnd my p
    else
      match compareLabel my n.toNat p query with
      | none => none
      | some none => some 1
      | some (some []) => none
      | some (some (b :: rest)) =>
        if b ≠ 0#8 then compareLabels fuel (p + n.toNat + 1) (b :: rest)
        else atEnd my (p + n.toNat + 1)

/-- `_DnsCompareName`; the difference is one of 32 bits. Every turn of the loop passes a byte of the
query. -/
def dnsCompareName (query : List Byte) : Option Int :=
  (strlen query).bind fun len =>
    if 32 < (len + 2 ^ 32 - 1) % 2 ^ 32 then some 1
    else compareLabels my query.length 0 query

end CompareName

structure Server where
  /-- the memory from `DnsName` on, and before it -/
  mem : Int → Byte
  froceLocal : Bool

/-- `HostIp` is the field behind the name. -/
def Server.hostIp (s : Server) : List Byte :=
  (List.range 4).map fun i => s.mem (nameSize + i)

section Reply

/-- `DNS_HEADER` of a reply to one question. -/
def header (transactionId : List Byte) (flag2 : Byte) (answerRR : Nat) : List Byte :=
  transactionId ++ [dnsFlag1Response, flag2] ++ word 1 ++ word answerRR ++ word 0 ++ word 0

/-- The name by its offset in the reply, and `DNS_ANSWER` with the address. -/
def answer (s : Server) : List Byte :=
  word (0xC000 + 12) ++ dnsRrtypeA ++ dnsRrclassIn ++ (word 0 ++ word dnsDefaultTtl) ++ word 4 ++
    s.hostIp

/-- `_DNSAnswerGenAndSend` -/
def dnsAnswerGen (s : Server) (dnsQuery queryName transactionId : List Byte) : List Byte :=
  header transactionId dnsFlag2ErrNone 1 ++ (queryName ++ [0#8]) ++ dnsQuery ++ answer s

/-- `_DNSNameErrGenAndSend` -/
def dnsNameErrGen (dnsQuery queryName transactionId : List Byte) : List Byte :=
  header transactionId dnsFlag2ErrName 0 ++ (queryName ++ [0#8]) ++ dnsQuery

end Reply

inductive Outcome where
  | dropped
  | proxied
  | replied (reply : List Byte)
deriving DecidableEq, Repr

/-- What the allocations give: for the copy of the packet, for a reply, for its buffer. -/
structure Memory where
  msg : Bool
  reply : Bool
  pbuf : Bool

def Memory.send (m : Memory) (reply : List Byte) : Outcome :=
  if m.reply ∧ m.pbuf then .replied reply else .dropped

/-- `DNSS_RecvCb`; `netif` is whether there is a station interface to ask upstream. -/
def recvCb (s : Server) (netif : Bool) (m : Memory) (payload : List Byte) : Option Outcome :=
  if ¬ m.msg then some .dropped
  else
    payload[2]?.bind fun flag1 =>
    if flag1 &&& dnsFlag1Response ≠ 0#8 ∨ flag1 &&& 0x78#8 ≠ dnsFlag1OpcodeStandard then
      some .dropped
    else
      let name := payload.drop 12
      (strlen name).bind fun len =>
      let query := (name.drop (len + 1)).take 4
      if query.length < 4 then none
      else if query.drop 2 ≠ dnsRrclassIn ∧ query.take 2 ≠ dnsRrtypeA then some .dropped
      else
        (dnsCompareName (fun i => some (s.mem i)) name).bind fun r =>
        let transactionId := payload.take 2
        if r ≠ 0 ∧ ¬ s.froceLocal then
          if netif then some .proxied
          else some (m.send (dnsNameErrGen query (name.take len) transactionId))
        else some (m.send (dnsAnswerGen s query (name.take len) transactionId))

/-- Labels as a name in a packet. -/
def encode (labels : List (List Byte)) : List Byte :=
  (labels.flatMap fun l => BitVec.ofNat 8 l.length :: l) ++ [0#8]

end WmIot.Dns.Server
