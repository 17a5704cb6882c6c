import Orion.Net.State

/-!
# The network stack: receiving (`kernel/net.c`)

The handlers are traced computations over the memory in which the received frame lies: `p` is the
position of a handler's own header in the frame and `len` the length it was given.  A comparison of
addresses counts as reading the whole address.  No handler reads the frame again after it has sent
something, so the reads come first and the value is the state after everything else, `none` if that
has not ended.
-/

namespace Orion.Net

open Orion.Traced

/-! ## ARP and ICMP -/

def handleArp (w : World) (mem : ℕ → UInt8) (p len : ℕ) (s : State) : Traced ℕ State :=
  if len < 28 then pure s
  else do
    let htype ← get16 mem p
    let ptype ← get16 mem (p + 2)
    let hlen ← read mem (p + 4)
    let plen ← read mem (p + 5)
    if htype ≠ 1 ∨ ptype ≠ 0x0800 ∨ hlen ≠ 6 ∨ plen ≠ 4 then pure s
    else do
      let op ← get16 mem (p + 6)
      let sm ← readSpan mem (p + 8) 6
      let sip ← readSpan mem (p + 14) 4
      let tip ← readSpan mem (p + 24) 4
      let s := if sip = s.gateway then { s with gatewayMac := sm, gatewayMacValid := true } else s
      pure (if op = 1 ∧ tip = s.ipAddr then sendArpReply w sm sip s else s)

/-- The answer to an echo request: its bytes with type and checksum replaced. -/
def icmpAnswer (r : List UInt8) : List UInt8 :=
  let zeroed := [0] ++ (r.drop 1).take 1 ++ [0, 0] ++ r.drop 4
  zeroed.take 2 ++ put16 (checksum16 zeroed) ++ zeroed.drop 4

def handleIcmp (w : World) (poll : State → Option State) (fuel : ℕ) (mem : ℕ → UInt8) (p len src : ℕ)
    (s : State) : Traced ℕ (Option State) :=
  if len < 8 then pure (some s)
  else do
    let type ← read mem p
    let ident ← if type = 0 then get16 mem (p + 4) else pure 0
    if type = 0 ∧ ident = s.icmpIdent then pure (some { s with icmpReply := true })
    else if type = 8 then do
      let r ← readSpan mem p (min len 256)
      let srcip ← readSpan mem src 4
      pure (sendIpPacket w poll fuel ipIcmp srcip (icmpAnswer r) s)
    else pure (some s)

/-! ## DNS answers -/

/-- The loop of `dns_skip_name` with the number of labels that it may still read. -/
def dnsSkipLabels (mem : ℕ → UInt8) (d n : ℕ) : ℕ → ℕ → Traced ℕ ℕ
  | 0, _ => pure (n + 1)
  | labels + 1, o =>
    if o < n then do
      let z ← read mem (d + o)
      if z = 0 then pure (o + 1)
      else if z &&& 0xc0 = 0xc0 then pure (o + 2)
      else if z &&& 0xc0 ≠ 0 ∨ z > 63 ∨ o + 1 + z.toNat > n then pure (n + 1)
      else dnsSkipLabels mem d n labels (o + 1 + z.toNat)
    else pure (n + 1)

/-- The offset behind the name at `o`, or one behind `n`. -/
def dnsSkipName (mem : ℕ → UInt8) (d n o : ℕ) : Traced ℕ ℕ := dnsSkipLabels mem d n 128 o

/-- The offset behind the question section, if it is inside the message. -/
def dnsQuestions (mem : ℕ → UInt8) (d n : ℕ) : ℕ → ℕ → Traced ℕ (Option ℕ)
  | 0, o => pure (some o)
  | qd + 1, o => do
    let o ← dnsSkipName mem d n o
    if o > n ∨ o + 4 > n then pure none else dnsQuestions mem d n qd (o + 4)

/-- The first address record of the answer section. -/
def dnsAnswers (mem : ℕ → UInt8) (d n : ℕ) : ℕ → ℕ → Traced ℕ (Option (List UInt8))
  | 0, _ => pure none
  | an + 1, o => do
    let o ← dnsSkipName mem d n o
    if o > n ∨ o + 10 > n then pure none
    else do
      let typ ← get16 mem (d + o)
      let cls ← get16 mem (d + o + 2)
      let rdl ← get16 mem (d + o + 8)
      let o := o + 10
      if o + rdl > n then pure none
      else if typ = 1 ∧ cls = 1 ∧ rdl = 4 then do
        let a ← readSpan mem (d + o) 4
        pure (some a)
      else dnsAnswers mem d n an (o + rdl)

def handleUdp (mem : ℕ → UInt8) (p len : ℕ) (s : State) : Traced ℕ State :=
  if len < 8 then pure s
  else do
    let sp ← get16 mem p
    let dp ← get16 mem (p + 2)
    let ulen ← get16 mem (p + 4)
    if ulen < 8 ∨ ulen > len ∨ sp ≠ 53 ∨ s.dnsId = 0 ∨ dp ≠ s.dnsPort then pure s
    else do
      let d := p + 8
      let n := ulen - 8
      if n < 12 then pure s
      else do
        let id ← get16 mem d
        let flags ← get16 mem (d + 2)
        if id ≠ s.dnsId ∨ flags / 2 ^ 15 = 0 then pure s
        else if flags % 16 ≠ 0 then pure { s with dnsDone := -1 }
        else do
          let qd ← get16 mem (d + 4)
          let an ← get16 mem (d + 6)
          let o ← dnsQuestions mem d n qd 12
          match o with
          | none => pure { s with dnsDone := -1 }
          | some o => do
            let answer ← dnsAnswers mem d n an o
            match answer with
            | none => pure { s with dnsDone := -1 }
            | some a => pure { s with dnsAnswer := a, dnsDone := 1 }

/-! ## TCP -/

section

variable (w : World) (poll : State → Option State) (fuel : ℕ)

/-- In-order data: keep what there is room for (`data`), count all of it, acknowledge. -/
def tcpData (seq dataLen : ℕ) (data : List UInt8) (s : State) : Option State :=
  if dataLen ≠ 0 ∧ seq = s.tcpRcvNxt then do
    let s := { s with tcpOut := s.tcpOut ++ data, tcpRcvNxt := u32 (s.tcpRcvNxt + dataLen) }
    let s ← sendTcp w poll fuel 0x10 [] s
    some { s with tcpEvent := 3 }
  else some s

/-- The FIN flag.  `seq + data_len` is a sum of `size_t`. -/
def tcpFin (seq dataLen : ℕ) (flags : UInt8) (s : State) : Option State :=
  if flags &&& 0x01 ≠ 0 then do
    let s := if w.arch.size (seq + dataLen) = s.tcpRcvNxt then
      { s with tcpRcvNxt := u32 (s.tcpRcvNxt + 1) } else s
    let s ← sendTcp w poll fuel 0x10 [] s
    some { s with tcpEvent := 4 }
  else some s

/-- An acknowledgement of something that was sent and not acknowledged before. -/
def tcpAck (flags : UInt8) (ack : ℕ) (s : State) : State :=
  if flags &&& 0x10 ≠ 0 ∧ s.tcpSndUna ≤ ack ∧ ack ≤ s.tcpSndNxt then { s with tcpSndUna := ack }
  else s

/-- How many bytes of a segment's data `handle_tcp` copies. -/
def tcpCopy (seq dataLen : ℕ) (s : State) : ℕ :=
  if dataLen ≠ 0 ∧ seq = s.tcpRcvNxt then min dataLen (s.tcpOutCap - s.tcpOut.length) else 0

def handleTcp (mem : ℕ → UInt8) (p len src : ℕ) (s : State) : Traced ℕ (Option State) :=
  if len < 20 then pure (some s)
  else do
    let srcip ← readSpan mem src 4
    if srcip ≠ s.tcpPeerIp then pure (some s)
    else do
      let sp ← get16 mem p
      let dp ← get16 mem (p + 2)
      if sp ≠ s.tcpPeerPort ∨ dp ≠ s.tcpLocalPort then pure (some s)
      else do
        let seq ← get32 mem (p + 4)
        let ack ← get32 mem (p + 8)
        let off ← read mem (p + 12)
        let flags ← read mem (p + 13)
        let hlen := off.toNat / 16 * 4
        if hlen < 20 ∨ hlen > len then pure (some s)
        else do
          let s := tcpAck flags ack s
          if flags &&& 0x12 = 0x12 ∧ s.tcpEvent = 1 ∧ ack = s.tcpSndNxt then
            pure (sendTcp w poll fuel 0x10 [] { s with tcpRcvNxt := u32 (seq + 1), tcpEvent := 2 })
          else if flags &&& 0x04 ≠ 0 then pure (some { s with tcpEvent := -1 })
          else do
            let dataLen := len - hlen
            let data ← readSpan mem (p + hlen) (tcpCopy seq dataLen s)
            pure ((tcpData w poll fuel seq dataLen data s).bind (tcpFin w poll fuel seq dataLen flags))

/-! ## IP and Ethernet -/

/-- What `handle_ip` passes on to a protocol handler. -/
structure IpPayload where
  proto : UInt8
  src : ℕ
  pl : ℕ
  plen : ℕ

/-- The checks of `handle_ip`; `total - ihl` is converted to `size_t`. -/
def ipPayload (arch : Arch) (mem : ℕ → UInt8) (p len : ℕ) (s : State) :
    Traced ℕ (Option IpPayload) :=
  if len < 20 then pure none
  else do
    let vhl ← read mem p
    if vhl.toNat / 16 ≠ 4 then pure none
    else do
      let ihl := vhl.toNat % 16 * 4
      if ihl < 20 ∨ ihl > len then pure none
      else do
        let total ← get16 mem (p + 2)
        let total := if total > len then u16 len else total
        let dst ← readSpan mem (p + 16) 4
        if dst ≠ s.ipAddr then pure none
        else do
          let proto ← read mem (p + 9)
          pure (some ⟨proto, p + 12, p + ihl, arch.sizeSub total ihl⟩)

def handleIp (mem : ℕ → UInt8) (p len : ℕ) (s : State) : Traced ℕ (Option State) := do
  let payload ← ipPayload w.arch mem p len s
  match payload with
  | none => pure (some s)
  | some x =>
    if x.proto = ipIcmp then handleIcmp w poll fuel mem x.pl x.plen x.src s
    else if x.proto = ipUdp then do
      let s ← handleUdp mem x.pl x.plen s
      pure (some s)
    else if x.proto = ipTcp then handleTcp w poll fuel mem x.pl x.plen x.src s
    else pure (some s)

def handleFrame (frame : Buffer) (s : State) : Traced ℕ (Option State) :=
  if frame.len < 14 then pure (some s)
  else do
    let t ← get16 frame.mem 12
    if t = ethArp then do
      let s ← handleArp w frame.mem 14 (frame.len - 14) s
      pure (some s)
    else if t = ethIp then handleIp w poll fuel frame.mem 14 (frame.len - 14) s
    else pure (some s)

def rxDispatch (s : State) (frame : Buffer) : Option State := do
  let s ← (handleFrame w poll fuel frame s).value
  some { s with rxCount := u64 (s.rxCount + 1) }

end

/-- Polling delivers frames to the handlers, which may poll again while they wait. -/
def netPoll (w : World) : ℕ → State → Option State
  | 0, _ => none
  | fuel + 1, s =>
    if s.ready then
      (w.frames s.polls).foldlM (rxDispatch w (netPoll w fuel) fuel) { s with polls := s.polls + 1 }
    else some s

end Orion.Net
