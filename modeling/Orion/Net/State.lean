import Orion.Machine

/-!
# The network stack: state and sending (`kernel/net.c`)

The state is the static variables of `net.c`, with `tcp_out[0 .. tcp_out_len)` as a list, and how
far the stack has come in the input of the machine: `clock` timer readings, `polls` calls of
`netdev_poll`, and the list of frames passed to `netdev_tx`.

Sending may wait for an ARP answer, and waiting polls the device, which runs the receive handlers,
which may send.  The functions below take the polling function as an argument and `Receive` ties
the knot.  `none` stands for a computation that has not ended after `fuel` turns of its loops.
-/

namespace Orion.Net

def ethIp : ℕ := 0x0800
def ethArp : ℕ := 0x0806
def ipIcmp : UInt8 := 1
def ipTcp : UInt8 := 6
def ipUdp : UInt8 := 17

structure State where
  mac : List UInt8
  ipAddr : List UInt8
  netmask : List UInt8
  gateway : List UInt8
  dnsIp : List UInt8
  gatewayMac : List UInt8
  gatewayMacValid : Bool
  ready : Bool
  rxCount : ℕ
  txCount : ℕ
  ipId : ℕ
  nextSrcPort : ℕ
  icmpReply : Bool
  icmpIdent : ℕ
  icmpSeq : ℕ
  dnsDone : ℤ
  dnsId : ℕ
  dnsPort : ℕ
  dnsAnswer : List UInt8
  tcpEvent : ℤ
  tcpPeerIp : List UInt8
  tcpLocalPort : ℕ
  tcpPeerPort : ℕ
  tcpIss : ℕ
  tcpSndNxt : ℕ
  tcpSndUna : ℕ
  tcpRcvNxt : ℕ
  tcpOut : List UInt8
  tcpOutCap : ℕ
  clock : ℕ
  polls : ℕ
  sent : List (List UInt8)
  deriving Repr, DecidableEq

/-- The static initial values. -/
def State.boot : State where
  mac := [0, 0, 0, 0, 0, 0]
  ipAddr := [10, 0, 2, 15]
  netmask := [255, 255, 255, 0]
  gateway := [10, 0, 2, 2]
  dnsIp := [10, 0, 2, 3]
  gatewayMac := [0, 0, 0, 0, 0, 0]
  gatewayMacValid := false
  ready := false
  rxCount := 0
  txCount := 0
  ipId := 1
  nextSrcPort := 49152
  icmpReply := false
  icmpIdent := 0x4f52
  icmpSeq := 0
  dnsDone := 0
  dnsId := 0
  dnsPort := 0
  dnsAnswer := [0, 0, 0, 0]
  tcpEvent := 0
  tcpPeerIp := [0, 0, 0, 0]
  tcpLocalPort := 0
  tcpPeerPort := 0
  tcpIss := 0
  tcpSndNxt := 0
  tcpSndUna := 0
  tcpRcvNxt := 0
  tcpOut := []
  tcpOutCap := 0
  clock := 0
  polls := 0
  sent := []

/-! ## Clock and device -/

/-- `timer_ticks()`. -/
def timerTicks (w : World) (s : State) : ℕ × State :=
  (u64 (w.ticks s.clock), { s with clock := s.clock + 1 })

def nowMs (w : World) (s : State) : ℕ × State :=
  if w.hz = 0 then (0, s) else (w.ms s.clock, { s with clock := s.clock + 1 })

def elapsed (w : World) (start ms : ℕ) (s : State) : Bool × State :=
  let (now, s) := nowMs w s
  (decide (sub32 now start ≥ ms), s)

def ethTx (w : World) (data : List UInt8) (s : State) : State :=
  if s.ready then
    { s with
      txCount := if w.txOk s.sent.length then u64 (s.txCount + 1) else s.txCount
      sent := s.sent ++ [data] }
  else s

def ethHeader (s : State) (dst : List UInt8) (type : ℕ) : List UInt8 := dst ++ s.mac ++ put16 type

/-- Two addresses agree under the netmask. -/
def sameSubnet (s : State) (a b : List UInt8) : Bool :=
  List.zipWith (· &&& ·) a s.netmask = List.zipWith (· &&& ·) b s.netmask

/-! ## ARP -/

/-- An ARP frame from this host. -/
def arpFrame (s : State) (dst : List UInt8) (op : ℕ) (targetMac targetIp : List UInt8) : List UInt8 :=
  ethHeader s dst ethArp ++ put16 1 ++ put16 0x0800 ++ [6, 4] ++ put16 op ++ s.mac ++ s.ipAddr ++
    targetMac ++ targetIp

def sendArpRequest (w : World) (target : List UInt8) (s : State) : State :=
  ethTx w (arpFrame s [255, 255, 255, 255, 255, 255] 1 [0, 0, 0, 0, 0, 0] target) s

def sendArpReply (w : World) (dstmac dstip : List UInt8) (s : State) : State :=
  ethTx w (arpFrame s dstmac 2 dstmac dstip) s

section

variable (w : World) (poll : State → Option State)

/-- The `while` loop of `resolve_next_hop`; `last` is the time of the last request. -/
def resolveLoop (target : List UInt8) (st : ℕ) :
    ℕ → ℕ → State → Option (Option (List UInt8) × State)
  | 0, _, _ => none
  | fuel + 1, last, s =>
    let (late, s) := elapsed w st 2500 s
    if late then some (none, s)
    else do
      let (n, s) := nowMs w s
      let ask : Bool := last = 0xffffffff ∨ sub32 n last > 500
      let s := if ask then sendArpRequest w target s else s
      let last := if ask then n else last
      let s ← poll s
      if target = s.gateway ∧ s.gatewayMacValid then some (some s.gatewayMac, s)
      else resolveLoop target st fuel last s

/-- The hardware address to send to, if it was found. -/
def resolveNextHop (fuel : ℕ) (dest : List UInt8) (s : State) :
    Option (Option (List UInt8) × State) :=
  let target := if sameSubnet s dest s.ipAddr then dest else s.gateway
  if target = s.gateway ∧ s.gatewayMacValid then some (some s.gatewayMac, s)
  else
    let (st, s) := nowMs w s
    resolveLoop w poll target st fuel 0xffffffff s

/-! ## IP, UDP, ICMP, TCP -/

/-- The IPv4 header with the given checksum field. -/
def ipv4Header (s : State) (proto : UInt8) (dst : List UInt8) (payloadLen checksum : ℕ) :
    List UInt8 :=
  [0x45, 0] ++ put16 (20 + payloadLen) ++ put16 s.ipId ++ put16 0x4000 ++ [64, proto] ++
    put16 checksum ++ s.ipAddr ++ dst

def makeIpv4 (proto : UInt8) (dst : List UInt8) (payloadLen : ℕ) (s : State) : List UInt8 × State :=
  (ipv4Header s proto dst payloadLen (checksum16 (ipv4Header s proto dst payloadLen 0)),
    { s with ipId := u16 (s.ipId + 1) })

def tcpChecksum (src dst tcp : List UInt8) : ℕ :=
  foldSum (sumWords src + sumWords dst + ipTcp.toNat + u16 tcp.length + sumWords tcp)

def sendIpPacket (fuel : ℕ) (proto : UInt8) (dest payload : List UInt8) (s : State) : Option State :=
  if payload.length > 1500 - 20 then some s
  else do
    let (hop, s) ← resolveNextHop w poll fuel dest s
    match hop with
    | none => some s
    | some nh =>
      let eth := ethHeader s nh ethIp
      let (header, s) := makeIpv4 proto dest payload.length s
      some (ethTx w (eth ++ header ++ payload) s)

/-- The echo request with the given checksum field. -/
def icmpEcho (s : State) (checksum : ℕ) : List UInt8 :=
  [8, 0] ++ put16 checksum ++ put16 s.icmpIdent ++ put16 s.icmpSeq ++ [8, 9, 10, 11, 12, 13, 14, 15]

def sendIcmpEcho (fuel : ℕ) (dest : List UInt8) (s : State) : Option State :=
  let s := { s with icmpSeq := u16 (s.icmpSeq + 1) }
  sendIpPacket w poll fuel ipIcmp dest (icmpEcho s (checksum16 (icmpEcho s 0))) s

def sendUdp (fuel : ℕ) (dest : List UInt8) (sport dport : ℕ) (data : List UInt8) (s : State) :
    Option State :=
  sendIpPacket w poll fuel ipUdp dest
    (put16 sport ++ put16 dport ++ put16 (8 + data.length) ++ put16 0 ++ data) s

/-- The window that every segment advertises. -/
def tcpWindow : ℕ := 4096

/-- The segment with the given checksum field. -/
def tcpSegment (s : State) (flags : UInt8) (data : List UInt8) (checksum : ℕ) : List UInt8 :=
  put16 s.tcpLocalPort ++ put16 s.tcpPeerPort ++ put32 s.tcpSndNxt ++ put32 s.tcpRcvNxt ++
    [0x50, flags] ++ put16 tcpWindow ++ put16 checksum ++ [0, 0] ++ data

def sendTcp (fuel : ℕ) (flags : UInt8) (data : List UInt8) (s : State) : Option State := do
  let checksum := tcpChecksum s.ipAddr s.tcpPeerIp (tcpSegment s flags data 0)
  let s ← sendIpPacket w poll fuel ipTcp s.tcpPeerIp (tcpSegment s flags data checksum) s
  let syn := if flags &&& 0x02 ≠ 0 then 1 else 0
  let fin := if flags &&& 0x01 ≠ 0 then 1 else 0
  some { s with tcpSndNxt := u32 (s.tcpSndNxt + syn + fin + data.length) }

end

end Orion.Net
