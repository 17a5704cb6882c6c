import Orion.Machine

/-!
# DHCP packets (`kernel/dhcp.c`, first half)

Building DISCOVER and REQUEST, and parsing a reply.  A packet that is built is a byte list; a packet
that is parsed lies at an offset of a received frame, so the parser is a traced computation over the
frame's memory.  Addresses are their byte strings.
-/

namespace Orion.Dhcp

open Orion.Traced

def dhcpPacketMin : ℕ := 300

def dhcpCookie : ℕ := 0x63825363

def orionDhcpDiscover : UInt8 := 1
def orionDhcpOffer : UInt8 := 2
def orionDhcpRequest : UInt8 := 3
def orionDhcpAck : UInt8 := 5
def orionDhcpNak : UInt8 := 6

structure OrionDhcpLease where
  messageType : UInt8
  ip : List UInt8
  netmask : List UInt8
  gateway : List UInt8
  dns : List UInt8
  server : List UInt8
  leaseSeconds : ℕ
  haveNetmask : Bool
  haveGateway : Bool
  haveDns : Bool
  haveServer : Bool
  deriving Repr, DecidableEq

/-- `dzero(lease, sizeof(*lease))`. -/
def OrionDhcpLease.zero : OrionDhcpLease :=
  ⟨0, [0, 0, 0, 0], [0, 0, 0, 0], [0, 0, 0, 0], [0, 0, 0, 0], [0, 0, 0, 0], 0, false, false, false,
    false⟩

/-! ## Building -/

/-- The first 256 bytes of a packet: the fixed part, and the options that every message has. -/
def dhcpBase (cap xid : ℕ) (mac : List UInt8) (messageType : UInt8) : Option (List UInt8) :=
  if cap < dhcpPacketMin then none
  else
    some ([1, 1, 6, 0] ++ put32 xid ++ [0, 0] ++ put16 0x8000 ++ List.replicate 16 0 ++ mac ++
      List.replicate 202 0 ++ put32 dhcpCookie ++
      [53, 1, messageType] ++ [61, 7, 1] ++ mac ++ [57, 2] ++ put16 576)

/-- Options 55 and 255, and zeros up to the fixed packet size. -/
def dhcpFinish (cap : ℕ) (packet : List UInt8) : Option (List UInt8) :=
  if cap < dhcpPacketMin ∨ packet.length + 7 > dhcpPacketMin then none
  else
    some (packet ++ [55, 4, 1, 3, 6, 51, 255] ++
      List.replicate (dhcpPacketMin - (packet.length + 7)) 0)

def dhcpBuildDiscover (cap xid : ℕ) (mac : List UInt8) : Option (List UInt8) := do
  let packet ← dhcpBase cap xid mac orionDhcpDiscover
  dhcpFinish cap packet

def dhcpBuildRequest (cap xid : ℕ) (mac requestedIp serverId : List UInt8) :
    Option (List UInt8) := do
  let packet ← dhcpBase cap xid mac orionDhcpRequest
  if packet.length + 12 > dhcpPacketMin then none
  else dhcpFinish cap (packet ++ [50, 4] ++ requestedIp ++ [54, 4] ++ serverId)

/-! ## Parsing -/

/-- What the parser does with option `code` of length `n` whose value starts at `v`. -/
def dhcpOption (mem : ℕ → UInt8) (lease : OrionDhcpLease) (code n : UInt8) (v : ℕ) :
    Traced ℕ OrionDhcpLease :=
  if code = 53 ∧ n = 1 then do
    let t ← read mem v
    pure { lease with messageType := t }
  else if code = 1 ∧ n = 4 then do
    let a ← readSpan mem v 4
    pure { lease with netmask := a, haveNetmask := true }
  else if code = 3 ∧ 4 ≤ n then do
    let a ← readSpan mem v 4
    pure { lease with gateway := a, haveGateway := true }
  else if code = 6 ∧ 4 ≤ n then do
    let a ← readSpan mem v 4
    pure { lease with dns := a, haveDns := true }
  else if code = 51 ∧ n = 4 then do
    let t ← get32 mem v
    pure { lease with leaseSeconds := t }
  else if code = 54 ∧ n = 4 then do
    let a ← readSpan mem v 4
    pure { lease with server := a, haveServer := true }
  else pure lease

/-- `while (o < len)` over the options of the packet at `p`; every turn moves `o` forward, so that
`len` turns are enough. -/
def dhcpOptions (mem : ℕ → UInt8) (p len : ℕ) :
    ℕ → ℕ → OrionDhcpLease → Traced ℕ (Option OrionDhcpLease)
  | 0, _, lease => pure (some lease)
  | fuel + 1, o, lease =>
    if o < len then do
      let code ← read mem (p + o)
      if code = 0 then dhcpOptions mem p len fuel (o + 1) lease
      else if code = 255 then pure (some lease)
      else if o + 1 ≥ len then pure none
      else do
        let n ← read mem (p + (o + 1))
        if n.toNat > len - (o + 2) then pure none
        else do
          let lease ← dhcpOption mem lease code n (p + (o + 2))
          dhcpOptions mem p len fuel (o + 2 + n.toNat) lease
    else pure (some lease)

/-- The part of `dhcp_parse_reply` behind the address checks: cookie, address and options. -/
def dhcpParseOptions (mem : ℕ → UInt8) (p len : ℕ) : Traced ℕ (Option OrionDhcpLease) := do
  let cookie ← get32 mem (p + 236)
  if cookie ≠ dhcpCookie then pure none
  else do
    let ip ← readSpan mem (p + 16) 4
    let lease ← dhcpOptions mem p len len 240 { OrionDhcpLease.zero with ip := ip }
    match lease with
    | none => pure none
    | some l => if l.messageType ≠ 0 then pure (some l) else pure none

/-- The lease, if the packet of `len` bytes at `p` is a reply to this transaction. -/
def dhcpParseReply (mem : ℕ → UInt8) (p len xid : ℕ) (mac : List UInt8) :
    Traced ℕ (Option OrionDhcpLease) :=
  if len < 240 then pure none
  else do
    let op ← read mem p
    let htype ← read mem (p + 1)
    let hlen ← read mem (p + 2)
    if op ≠ 2 ∨ htype ≠ 1 ∨ hlen ≠ 6 then pure none
    else do
      let x ← get32 mem (p + 4)
      if x ≠ xid then pure none
      else do
        let chaddr ← readSpan mem (p + 28) 6
        if chaddr ≠ mac then pure none
        else dhcpParseOptions mem p len

end Orion.Dhcp
