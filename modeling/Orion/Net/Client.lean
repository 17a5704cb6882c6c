import Orion.Lib.Text
import Orion.Net.Receive

/-!
# The network stack: services (`kernel/net.c`)

Start-up and configuration, DNS lookup, and the TCP client.  These functions wait in loops that poll
the device; with `fuel` they have the result `none` if a loop has not ended by then.  A function that
returns `int` returns its value with the new state, and the text that it stores in `status`, if it
stores one.
-/

namespace Orion.Net

/-! ## Start-up -/

/-- `net_init`, given the adapter that `netdev_init` finds. -/
def netInit (w : World) (adapter : Option (List UInt8)) (s : State) : Bool × State :=
  match adapter with
  | none => (false, s)
  | some mac =>
    let s := { s with mac := mac, ready := true, gatewayMacValid := false }
    (true, sendArpRequest w s.gateway s)

def netConfigure (w : World) (ip mask gw dns : List UInt8) (s : State) : State :=
  let s :=
    { s with ipAddr := ip, netmask := mask, gateway := gw, dnsIp := dns, gatewayMacValid := false }
  sendArpRequest w s.gateway s

section

variable (w : World)

/-- `while(!elapsed(st,ms) && waiting) net_poll();` -/
def pollWhile (pollFuel st ms : ℕ) (waiting : State → Bool) : ℕ → State → Option State
  | 0, _ => none
  | fuel + 1, s =>
    let (late, s) := elapsed w st ms s
    if late ∨ waiting s = false then some s
    else do
      let s ← netPoll w pollFuel s
      pollWhile pollFuel st ms waiting fuel s

/-- The loop of `net_ping_gateway`, which looks at the clock before and at the reply after a poll. -/
def pingLoop (pollFuel st ms : ℕ) : ℕ → State → Option (Bool × State)
  | 0, _ => none
  | fuel + 1, s =>
    let (late, s) := elapsed w st ms s
    if late then some (false, s)
    else do
      let s ← netPoll w pollFuel s
      if s.icmpReply then some (true, s) else pingLoop pollFuel st ms fuel s

def netPingGateway (fuel timeoutMs : ℕ) (s : State) : Option (Bool × State) :=
  if s.ready then do
    let s ← sendIcmpEcho w (netPoll w fuel) fuel s.gateway { s with icmpReply := false }
    let (st, s) := nowMs w s
    pingLoop w fuel st timeoutMs fuel s
  else some (false, s)

/-! ## DNS lookup -/

/-- `more` is the number of parts that follow this one. -/
def parseOctets : ℕ → List UInt8 → Option (List UInt8)
  | more, s =>
    match takeNumber decDigit 10 255 s 0 0 with
    | none => none
    | some (v, n, rest) =>
      if n = 0 then none
      else
        match more, rest with
        | 0, [] => some [UInt8.ofNat v]
        | more + 1, 46 :: rest => (parseOctets more rest).map (UInt8.ofNat v :: ·)
        | _, _ => none

def parseIpv4 (s : List UInt8) : Option (List UInt8) := parseOctets 3 s

/-- The bytes of a label, up to the next dot, and the rest of the name; `n` bytes of the label have
been stored before, and `o` is the offset of the next one. -/
def dnsLabel : List UInt8 → ℕ → ℕ → Option (List UInt8 × List UInt8)
  | [], _, _ => some ([], [])
  | c :: s, n, o =>
    if c = 46 then some ([], c :: s)
    else if n ≥ 63 ∨ o ≥ 500 then none
    else (dnsLabel s (n + 1) (o + 1)).map fun r => (c :: r.1, r.2)

/-- Why a name is not encoded: whether `dns_id` was reset on the way out. -/
inductive DnsRefusal where
  | idKept
  | idReset
  deriving Repr, DecidableEq

/-- The encoding of a name from offset `o` on.  Each turn consumes at least one byte of the name. -/
def dnsName : ℕ → List UInt8 → ℕ → Except DnsRefusal (List UInt8)
  | 0, _, _ => .ok []
  | _ + 1, [], _ => .ok []
  | fuel + 1, s, o =>
    if o + 1 ≥ 500 then .error .idKept
    else
      match dnsLabel s 0 (o + 1) with
      | none => .error .idReset
      | some (label, rest) =>
        if label = [] then .error .idReset
        else
          match dnsName fuel (if rest.head? = some 46 then rest.drop 1 else rest)
              (o + 1 + label.length) with
          | .error e => .error e
          | .ok more => .ok (UInt8.ofNat label.length :: label ++ more)

def dnsQuery (dnsId : ℕ) (name : List UInt8) : List UInt8 :=
  put16 dnsId ++ put16 0x0100 ++ put16 1 ++ [0, 0, 0, 0, 0, 0] ++ name ++ [0] ++ put16 1 ++ put16 1

/-- The `while` loop of `dns_lookup`. -/
def dnsLoop (pollFuel : ℕ) (query : List UInt8) (st : ℕ) :
    ℕ → ℕ → State → Option (Option (List UInt8) × State)
  | 0, _, _ => none
  | fuel + 1, last, s =>
    let (late, s) := elapsed w st 4000 s
    if late then some (none, s)
    else do
      let (now, s) := nowMs w s
      let ask : Bool := last = 0xffffffff ∨ sub32 now last > 800
      let s ← if ask then sendUdp w (netPoll w pollFuel) pollFuel s.dnsIp s.dnsPort 53 query s
        else some s
      let last := if ask then now else last
      let s ← netPoll w pollFuel s
      if s.dnsDone > 0 then some (some s.dnsAnswer, s)
      else if s.dnsDone < 0 then some (none, s)
      else dnsLoop pollFuel query st fuel last s

def dnsLookup (fuel : ℕ) (host : List UInt8) (s : State) : Option (Option (List UInt8) × State) :=
  match parseIpv4 host with
  | some a => some (some a, s)
  | none =>
    if host = [] then some (none, s)
    else
      let (ticks, s) := timerTicks w s
      let s := { s with dnsId := u16 (0x4000 + ticks % 2 ^ 14) }
      match dnsName host.length host 12 with
      | .error .idKept => some (none, s)
      | .error .idReset => some (none, { s with dnsId := 0 })
      | .ok name => do
        let (ticks, s) := timerTicks w { s with dnsDone := 0 }
        let s := { s with dnsPort := u16 (50000 + ticks % 1000) }
        let (st, s) := nowMs w s
        let (answer, s) ← dnsLoop w fuel (dnsQuery s.dnsId name) st fuel 0xffffffff s
        some (answer, { s with dnsId := 0, dnsPort := 0 })

def netDnsLookup (fuel : ℕ) (host : List UInt8) (s : State) : Option (Option (List UInt8) × State) :=
  if s.ready then dnsLookup w fuel host s else some (none, s)

/-! ## TCP client -/

/-- `sizeof(tcp_stream_buf)`. -/
def tcpStreamBuf : ℕ := 32768

/-- The connection variables as `net_tcp_connect` sets them before it sends SYN. -/
def tcpOpen (dest : List UInt8) (port : ℕ) (s : State) : State :=
  let localPort := s.nextSrcPort
  let next := u16 (s.nextSrcPort + 1)
  let (ticks, s) := timerTicks w s
  let iss := u32 (0x13570000 + u32 ticks)
  { s with
    tcpPeerIp := dest
    tcpLocalPort := localPort
    nextSrcPort := if next < 49152 then 49152 else next
    tcpPeerPort := port
    tcpIss := iss
    tcpSndNxt := iss
    tcpSndUna := iss
    tcpRcvNxt := 0
    tcpEvent := 1
    tcpOut := []
    tcpOutCap := tcpStreamBuf }

/-- Success or the text in `status`. -/
def netTcpConnect (fuel : ℕ) (host : List UInt8) (port : ℕ) (s : State) :
    Option (Except String Unit × State) :=
  if s.ready = false ∨ port = 0 then some (.error "TCP unavailable", s)
  else do
    let (dest, s) ← dnsLookup w fuel host s
    match dest with
    | none => some (.error "DNS failed", s)
    | some dest => do
      let (hop, s) ← resolveNextHop w (netPoll w fuel) fuel dest s
      match hop with
      | none => some (.error "ARP failed", s)
      | some _ => do
        let s ← sendTcp w (netPoll w fuel) fuel 0x02 [] (tcpOpen w dest port s)
        let (st, s) := nowMs w s
        let s ← pollWhile w fuel st 4000 (fun s => s.tcpEvent = 1) fuel s
        if s.tcpEvent ≠ 2 then some (.error "TCP connect failed", s) else some (.ok (), s)

/-- Hand out the first bytes of the receive buffer, at most `cap` of them, and move the rest up. -/
def tcpTake (cap : ℕ) (s : State) : List UInt8 × State :=
  (s.tcpOut.take cap, { s with tcpOut := s.tcpOut.drop cap })

/-- The `for(;;)` loop of `net_tcp_read`. -/
def tcpReadLoop (pollFuel cap st timeoutMs : ℕ) : ℕ → State → Option (Option (List UInt8) × State)
  | 0, _ => none
  | fuel + 1, s =>
    if s.tcpOut ≠ [] then
      let (data, s) := tcpTake cap s
      some (some data, s)
    else if s.tcpEvent < 0 ∨ s.tcpEvent = 4 then some (none, s)
    else
      let (late, s) := elapsed w st timeoutMs s
      if late then some (none, s)
      else do
        let s ← netPoll w pollFuel s
        tcpReadLoop pollFuel cap st timeoutMs fuel s

/-- The bytes that were read, or `none` where the code returns -1. -/
def netTcpRead (fuel cap timeoutMs : ℕ) (s : State) : Option (Option (List UInt8) × State) :=
  if cap = 0 then some (none, s)
  else
    let (st, s) := nowMs w s
    tcpReadLoop w fuel cap st timeoutMs fuel s

/-- The waiting loop of `net_tcp_write`, which looks at the acknowledgement before the clock. -/
def ackLoop (pollFuel want st timeoutMs : ℕ) : ℕ → State → Option State
  | 0, _ => none
  | fuel + 1, s =>
    if s.tcpSndUna < want then
      let (late, s) := elapsed w st timeoutMs s
      if late ∨ s.tcpEvent < 0 then some s
      else do
        let s ← netPoll w pollFuel s
        ackLoop pollFuel want st timeoutMs fuel s
    else some s

/-- One segment of up to 1200 bytes in each turn. -/
def writeLoop (pollFuel timeoutMs : ℕ) : ℕ → List UInt8 → State → Option (Bool × State)
  | 0, _, _ => none
  | fuel + 1, data, s =>
    if data = [] then some (true, s)
    else do
      let s ← sendTcp w (netPoll w pollFuel) pollFuel 0x18 (data.take 1200) s
      let want := s.tcpSndNxt
      let (st, s) := nowMs w s
      let s ← ackLoop w pollFuel want st timeoutMs pollFuel s
      if s.tcpSndUna < want then some (false, s)
      else writeLoop pollFuel timeoutMs fuel (data.drop 1200) s

def netTcpWrite (fuel : ℕ) (data : List UInt8) (timeoutMs : ℕ) (s : State) : Option (Bool × State) :=
  writeLoop w fuel timeoutMs fuel data s

def netTcpClose (fuel : ℕ) (s : State) : Option State := do
  let s ← if s.tcpEvent ≥ 2 ∧ s.tcpEvent ≠ 4 then do
      let s ← sendTcp w (netPoll w fuel) fuel 0x11 [] s
      let (st, s) := nowMs w s
      pollWhile w fuel st 300 (fun s => s.tcpEvent ≥ 0 ∧ s.tcpEvent ≠ 4) fuel s
    else some s
  some { s with tcpEvent := 0, tcpOut := [], tcpOutCap := 0 }

end

end Orion.Net
