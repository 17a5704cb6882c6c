import Orion.Dhcp.Packet

/-!
# The DHCP client (`kernel/dhcp.c`, second half)

`dhcp_acquire` sends DISCOVER and then REQUEST, each in a loop that retransmits, polls the network
device and reads the clock; the device calls `dhcp_rx` for every frame it has, any number of times
per poll.

The state has a record of events: the frames passed to `netdev_tx`, and each reply that `dhcp_rx`
stores, with the phase it was stored in.  Nothing in the client reads the record.  A loop that is
still running after `fuel` turns has the result `none`.
-/

namespace Orion.Dhcp

open Orion.Traced

inductive Event where
  | sent (frame : List UInt8)
  | stored (phase : ℤ) (frame : Buffer) (reply : OrionDhcpLease)

/-- The static variables of `dhcp.c`, the position in the two input streams, and the record. -/
structure State where
  dhcpPhase : ℤ
  dhcpEvent : ℤ
  dhcpXid : ℕ
  dhcpMac : List UInt8
  dhcpRxLease : OrionDhcpLease
  dhcpIpId : ℕ
  clock : ℕ
  polls : ℕ
  events : List Event

def ipNonzero (ip : List UInt8) : Bool := ip.any (· ≠ 0)

/-! ## Sending -/

def dhcpChecksum16 (data : List UInt8) : ℕ := checksum16 data

/-- The IPv4 header of a broadcast, with the given checksum field. -/
def ipHeader (ipId payloadLen checksum : ℕ) : List UInt8 :=
  [0x45, 0] ++ put16 (20 + 8 + payloadLen) ++ put16 ipId ++ [0, 0] ++ [64, 17] ++ put16 checksum ++
    [0, 0, 0, 0] ++ [255, 255, 255, 255]

/-- The frame that carries a payload from port 68 of 0.0.0.0 to port 67 of 255.255.255.255. -/
def broadcastFrame (mac : List UInt8) (ipId : ℕ) (payload : List UInt8) : List UInt8 :=
  [255, 255, 255, 255, 255, 255] ++ mac ++ put16 0x0800 ++
    ipHeader ipId payload.length (dhcpChecksum16 (ipHeader ipId payload.length 0)) ++
    put16 68 ++ put16 67 ++ put16 (8 + payload.length) ++ put16 0 ++ payload

def dhcpSendBroadcast (payload : List UInt8) (s : State) : State :=
  if payload.length > 1472 then s
  else
    { s with
      dhcpIpId := (s.dhcpIpId + 1) % 2 ^ 16
      events := s.events ++ [.sent (broadcastFrame s.dhcpMac s.dhcpIpId payload)] }

/-! ## Receiving -/

/-- The reply that a frame carries, if it is a DHCP reply to this transaction: the length checks
of `dhcp_rx` on the three layers of headers, then `dhcp_parse_reply`. -/
def dhcpReply (xid : ℕ) (mac : List UInt8) (frame : Buffer) : Traced ℕ (Option OrionDhcpLease) :=
  if frame.len < 14 + 20 + 8 then pure none
  else do
    let type ← get16 frame.mem 12
    if type ≠ 0x0800 then pure none
    else do
      let ipLen := frame.len - 14
      let vhl ← read frame.mem 14
      let proto ← read frame.mem (14 + 9)
      if vhl.toNat / 16 ≠ 4 ∨ proto ≠ 17 then pure none
      else do
        let ihl := vhl.toNat % 16 * 4
        if ihl < 20 ∨ ihl > ipLen then pure none
        else do
          let total ← get16 frame.mem (14 + 2)
          if total < ihl + 8 ∨ total > ipLen then pure none
          else do
            let udp := 14 + ihl
            let udpAvail := total - ihl
            let udpLen ← get16 frame.mem (udp + 4)
            let sport ← get16 frame.mem udp
            let dport ← get16 frame.mem (udp + 2)
            if sport ≠ 67 ∨ dport ≠ 68 then pure none
            else if udpLen < 8 ∨ udpLen > udpAvail then pure none
            else dhcpParseReply frame.mem (udp + 8) (udpLen - 8) xid mac

/-- Store an accepted reply. -/
def State.store (s : State) (frame : Buffer) (reply : OrionDhcpLease) (event : ℤ) : State :=
  { s with
    dhcpRxLease := reply
    dhcpEvent := event
    events := s.events ++ [.stored s.dhcpPhase frame reply] }

def dhcpRx (frame : Buffer) (s : State) : Traced ℕ State := do
  let reply ← dhcpReply s.dhcpXid s.dhcpMac frame
  match reply with
  | none => pure s
  | some reply =>
    if reply.messageType = orionDhcpNak then pure { s with dhcpEvent := -1 }
    else if s.dhcpPhase = 1 ∧ reply.messageType = orionDhcpOffer then
      pure (s.store frame reply 2)
    else if s.dhcpPhase = 2 ∧ reply.messageType = orionDhcpAck then
      pure (s.store frame reply 5)
    else pure s

/-- `netdev_poll(dhcp_rx)`. -/
def pollRx (w : World) (s : State) : State :=
  (w.frames s.polls).foldl (fun s frame => (dhcpRx frame s).value) { s with polls := s.polls + 1 }

/-! ## Waiting -/

def dhcpNowMs (w : World) (s : State) : ℕ × State :=
  if w.hz = 0 then (0, s)
  else (w.ms s.clock, { s with clock := s.clock + 1 })

/-- The `while` loop of `dhcp_wait`. -/
def waitLoop (w : World) (packet : List UInt8) (wanted : ℤ) (timeoutMs start : ℕ) :
    ℕ → ℕ → State → Option (Bool × State)
  | 0, _, _ => none
  | fuel + 1, lastTx, s =>
    let (t, s) := dhcpNowMs w s
    if sub32 t start ≥ timeoutMs then some (false, s)
    else
      let (now, s) := dhcpNowMs w s
      let send : Bool := lastTx = 0xffffffff ∨ sub32 now lastTx ≥ 400
      let s := if send then dhcpSendBroadcast packet s else s
      let lastTx := if send then now else lastTx
      let s := pollRx w s
      if s.dhcpEvent = wanted then some (true, s)
      else if s.dhcpEvent < 0 then some (false, s)
      else waitLoop w packet wanted timeoutMs start fuel lastTx s

def dhcpWait (w : World) (fuel : ℕ) (packet : List UInt8) (phase wanted : ℤ) (timeoutMs : ℕ)
    (s : State) : Option (Bool × State) :=
  let s := { s with dhcpPhase := phase, dhcpEvent := 0 }
  let (start, s) := dhcpNowMs w s
  waitLoop w packet wanted timeoutMs start fuel 0xffffffff s

/-! ## The exchange -/

def leaseOverlay (dst src : OrionDhcpLease) : OrionDhcpLease where
  messageType := src.messageType
  ip := if ipNonzero src.ip then src.ip else dst.ip
  netmask := if src.haveNetmask then src.netmask else dst.netmask
  gateway := if src.haveGateway then src.gateway else dst.gateway
  dns := if src.haveDns then src.dns else dst.dns
  server := if src.haveServer then src.server else dst.server
  leaseSeconds := if src.leaseSeconds ≠ 0 then src.leaseSeconds else dst.leaseSeconds
  haveNetmask := if src.haveNetmask then true else dst.haveNetmask
  haveGateway := if src.haveGateway then true else dst.haveGateway
  haveDns := if src.haveDns then true else dst.haveDns
  haveServer := if src.haveServer then true else dst.haveServer

/-- `dhcp_phase = dhcp_event = 0;` -/
def State.reset (s : State) : State := { s with dhcpPhase := 0, dhcpEvent := 0 }

/-- Set up the transaction: this run's MAC and transaction id. -/
def beginExchange (w : World) (mac : List UInt8) (s : State) : State :=
  let x := u32 (0x4f520000 ^^^ u32 (w.ticks s.clock))
  { s with
    dhcpMac := mac
    dhcpXid := if x = 0 then 0x4f52494f else x
    clock := s.clock + 1 }

/-- Returns success, the caller's lease and the new state. -/
def dhcpAcquire (w : World) (fuel : ℕ) (mac : List UInt8) (timeoutMs : ℕ)
    (lease : OrionDhcpLease) (s : State) : Option (Bool × OrionDhcpLease × State) :=
  let timeoutMs := if timeoutMs < 1000 then 1000 else timeoutMs
  let phaseTimeout := timeoutMs / 2
  let s := beginExchange w mac s
  match dhcpBuildDiscover dhcpPacketMin s.dhcpXid s.dhcpMac with
  | none => some (false, lease, s.reset)
  | some packet =>
    match dhcpWait w fuel packet 1 2 phaseTimeout s with
    | none => none
    | some (false, s) => some (false, lease, s.reset)
    | some (true, s) =>
      let offer := s.dhcpRxLease
      if ipNonzero offer.ip = false ∨ offer.haveServer = false then some (false, lease, s.reset)
      else
        match dhcpBuildRequest dhcpPacketMin s.dhcpXid s.dhcpMac offer.ip offer.server with
        | none => some (false, lease, s.reset)
        | some packet =>
          match dhcpWait w fuel packet 2 5 phaseTimeout s with
          | none => none
          | some (false, s) => some (false, lease, s.reset)
          | some (true, s) =>
            let final := leaseOverlay offer s.dhcpRxLease
            if ipNonzero final.ip = false ∨ final.haveNetmask = false ∨
                final.haveGateway = false ∨ final.haveDns = false then
              some (false, lease, s.reset)
            else some (true, final, s.reset)

end Orion.Dhcp
