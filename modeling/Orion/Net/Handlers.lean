import Orion.Net.Tcp

/-!
# The steps of the receive path

Everything that `net_poll` does is made of a few steps: time passes, a frame of this host is sent, or
one of the handlers for ARP, UDP and TCP runs.  A transitive relation between states that contains
these steps contains every poll (`HandleRel.netPoll`), also when a handler polls again while it waits
for an ARP answer.  `ok` says which payloads are sent.
-/

namespace Orion.Net

open Orion.Traced

theorem nowMs_eq (w : World) (s : State) : ∃ c, (nowMs w s).2 = { s with clock := c } := by
  unfold nowMs
  split
  · exact ⟨s.clock, rfl⟩
  · exact ⟨s.clock + 1, rfl⟩

/-- A relation between the states before and after a piece of code. -/
def Steps (R : State → State → Prop) (f : State → Option State) : Prop :=
  ∀ s t, f s = some t → R s t

/-- The state after an IP packet is sent to the gateway. -/
def packetSent (w : World) (proto : UInt8) (dest payload : List UInt8) (s : State) : State :=
  let (header, u) := makeIpv4 proto dest payload.length s
  ethTx w (ethHeader s s.gatewayMac ethIp ++ header ++ payload) u

theorem sendArpRequest_eq (w : World) (target : List UInt8) (s : State) : ∃ txCount sent,
    sendArpRequest w target s = { s with txCount := txCount, sent := sent } :=
  ethTx_eq w (arpFrame s [255, 255, 255, 255, 255, 255] 1 [0, 0, 0, 0, 0, 0] target) s

theorem packetSent_eq (w : World) (proto : UInt8) (dest payload : List UInt8) (s : State) :
    ∃ ipId txCount sent, packetSent w proto dest payload s =
      { s with ipId := ipId, txCount := txCount, sent := sent } := by
  obtain ⟨txCount, sent, heq⟩ := ethTx_eq w (ethHeader s s.gatewayMac ethIp ++
    (makeIpv4 proto dest payload.length s).1 ++ payload) { s with ipId := u16 (s.ipId + 1) }
  exact ⟨u16 (s.ipId + 1), txCount, sent, heq⟩

/-- What sending needs: time passes and polls are counted, ARP requests are sent, and packets whose
payload was `ok` when it was handed over. -/
structure SendRel (w : World) (ok : UInt8 → List UInt8 → List UInt8 → State → Prop)
    (R : State → State → Prop) : Prop where
  trans : ∀ {s t u}, R s t → R t u → R s u
  idle : ∀ s clock polls rxCount icmpReply,
    R s { s with clock := clock, polls := polls, rxCount := rxCount, icmpReply := icmpReply }
  request : ∀ s target, R s (sendArpRequest w target s)
  packet : ∀ {s u proto dest payload}, ok proto dest payload s → payload.length ≤ 1480 → R s u →
    R u (packetSent w proto dest payload u)

/-- What the receive path needs: the handlers for ARP and UDP, the answers to echo requests, and
`handle_tcp` if nested polls are in the relation. -/
structure HandleRel (w : World) (ok : UInt8 → List UInt8 → List UInt8 → State → Prop)
    (R : State → State → Prop) : Prop extends SendRel w ok R where
  echo : ∀ s src r, src.length = 4 → 8 ≤ r.length → r.length ≤ 256 → ok ipIcmp src (icmpAnswer r) s
  arp : ∀ {k : ℕ} {frame : Buffer} (s : State), frame ∈ w.frames k → 14 ≤ frame.len →
    R s (handleArp w frame.mem 14 (frame.len - 14) s).value
  udp : ∀ {k : ℕ} {frame : Buffer} {s : State} {y : IpPayload}, frame ∈ w.frames k →
    passedOn w.arch frame s = some y → R s (handleUdp frame.mem y.pl y.plen s).value
  tcp : ∀ {poll : State → Option State} {fuel k : ℕ} {frame : Buffer} {s t : State} {y : IpPayload},
    Steps R poll → frame ∈ w.frames k → passedOn w.arch frame s = some y →
    (handleTcp w poll fuel frame.mem y.pl y.plen y.src s).value = some t → R s t

/-! ## The handlers outside TCP -/

/-- What an ARP packet says. -/
structure ArpPacket where
  op : ℕ
  mac : List UInt8
  ip : List UInt8
  target : List UInt8
  deriving Repr, DecidableEq

/-- The ARP packet of `len` bytes at `p`, if it is one for Ethernet and IPv4. -/
def arpAt (mem : ℕ → UInt8) (p len : ℕ) : Option ArpPacket :=
  if len < 28 ∨ (get16 mem p).value ≠ 1 ∨ (get16 mem (p + 2)).value ≠ 0x0800 ∨ mem (p + 4) ≠ 6 ∨
      mem (p + 5) ≠ 4 then none
  else some ⟨(get16 mem (p + 6)).value, (readSpan mem (p + 8) 6).value, (readSpan mem (p + 14) 4).value,
    (readSpan mem (p + 24) 4).value⟩

/-- The address of the gateway is taken from every packet that it sends. -/
def learn (x : ArpPacket) (s : State) : State :=
  if x.ip = s.gateway then { s with gatewayMac := x.mac, gatewayMacValid := true } else s

def arpInput (w : World) (x : ArpPacket) (s : State) : State :=
  if x.op = 1 ∧ x.target = (learn x s).ipAddr then sendArpReply w x.mac x.ip (learn x s) else learn x s

/-- **`handle_arp` on the decoded packet.** -/
theorem handleArp_value (w : World) (mem : ℕ → UInt8) (p len : ℕ) (s : State) :
    (handleArp w mem p len s).value = (arpAt mem p len).elim s fun x => arpInput w x s := by
  unfold handleArp arpAt
  simp only [value_ite, value_bind, value_pure, value_read]
  by_cases hlen : len < 28
  · rw [if_pos hlen, if_pos (Or.inl hlen)]
    rfl
  by_cases hbad : (get16 mem p).value ≠ 1 ∨ (get16 mem (p + 2)).value ≠ 0x0800 ∨ mem (p + 4) ≠ 6 ∨
      mem (p + 5) ≠ 4
  · have hcond : len < 28 ∨ (get16 mem p).value ≠ 1 ∨ (get16 mem (p + 2)).value ≠ 0x0800 ∨
        mem (p + 4) ≠ 6 ∨ mem (p + 5) ≠ 4 := Or.inr hbad
    rw [if_neg hlen, if_pos hcond]
    exact congrArg Traced.value (if_pos hbad)
  · have hcond : ¬ (len < 28 ∨ (get16 mem p).value ≠ 1 ∨ (get16 mem (p + 2)).value ≠ 0x0800 ∨
        mem (p + 4) ≠ 6 ∨ mem (p + 5) ≠ 4) := not_or.mpr ⟨hlen, hbad⟩
    rw [if_neg hlen, if_neg hcond]
    exact congrArg Traced.value (if_neg hbad)

/-- An ARP packet is learned from and answered, and nothing else changes. -/
theorem arpInput_eq (w : World) (x : ArpPacket) (s : State) : ∃ mac valid txCount sent,
    arpInput w x s =
      { s with gatewayMac := mac, gatewayMacValid := valid, txCount := txCount, sent := sent } := by
  obtain ⟨mac, valid, hlearn⟩ : ∃ mac valid,
      learn x s = { s with gatewayMac := mac, gatewayMacValid := valid } := by
    unfold learn
    split <;> exact ⟨_, _, rfl⟩
  unfold arpInput
  split
  · obtain ⟨txCount, sent, heq⟩ := ethTx_eq w (arpFrame (learn x s) x.mac 2 x.mac x.ip) (learn x s)
    rw [sendArpReply, heq, hlearn]
    exact ⟨_, _, _, _, rfl⟩
  · rw [hlearn]
    exact ⟨_, _, _, _, rfl⟩

/-- A frame with a segment goes to `handle_tcp`. -/
theorem handleFrame_tcp {w : World} {poll : State → Option State} {fuel : ℕ} {frame : Buffer}
    {s : State} {y : IpPayload} (h : passedOn w.arch frame s = some y) (hproto : y.proto = ipTcp) :
    (handleFrame w poll fuel frame s).value =
      (handleTcp w poll fuel frame.mem y.pl y.plen y.src s).value := by
  unfold passedOn at h
  split at h
  swap
  · simp at h
  rename_i hip
  obtain ⟨hx, -⟩ := Option.filter_eq_some_iff.mp h
  have hnotArp : ¬ (get16 frame.mem 12).value = ethArp := by
    rw [hip.2]
    decide
  have hnotIcmp : ¬ y.proto = ipIcmp := by
    rw [hproto]
    decide
  have hnotUdp : ¬ y.proto = ipUdp := by
    rw [hproto]
    decide
  unfold handleFrame handleIp
  rw [if_neg (by omega), value_bind, if_neg hnotArp, if_pos hip.2, value_bind, hx]
  simp only [if_neg hnotIcmp, if_neg hnotUdp, if_pos hproto]

theorem arpAt_mac {mem : ℕ → UInt8} {p len : ℕ} {x : ArpPacket} (h : arpAt mem p len = some x) :
    x.mac.length = 6 := by
  unfold arpAt at h
  split at h
  · simp at h
  · rw [← Option.some.inj h]
    simp

/-- `handle_udp` changes nothing but the DNS answer. -/
theorem handleUdp_eq (mem : ℕ → UInt8) (p len : ℕ) (s : State) : ∃ done answer,
    (handleUdp mem p len s).value = { s with dnsDone := done, dnsAnswer := answer } := by
  unfold handleUdp
  simp only [value_ite, value_bind, value_pure]
  repeat' split
  all_goals try exact ⟨_, _, rfl⟩
  rw [value_bind]
  split <;> exact ⟨_, _, rfl⟩

section

variable {w : World} {ok : UInt8 → List UInt8 → List UInt8 → State → Prop}
  {R : State → State → Prop} {s t : State}

/-! ## Sending -/

section

variable (hR : SendRel w ok R)

include hR

theorem SendRel.refl (s : State) : R s s := hR.idle s s.clock s.polls s.rxCount s.icmpReply

theorem SendRel.nowMs (s : State) : R s (nowMs w s).2 := by
  obtain ⟨c, hc⟩ := nowMs_eq w s
  rw [hc]
  exact hR.idle s c s.polls s.rxCount s.icmpReply

theorem SendRel.bind {f g : State → Option State} (hf : Steps R f) (hg : Steps R g) :
    Steps R fun s => (f s).bind g := by
  intro s u hs
  obtain ⟨t, ht, hu⟩ := Option.bind_eq_some_iff.mp hs
  exact hR.trans (hf s t ht) (hg t u hu)

/-- One turn of the loop of `resolve_next_hop`: up to the poll. -/
theorem resolveLoop_succ (poll : State → Option State) (target : List UInt8) (st fuel last : ℕ)
    (s : State) : ∃ a b : State, ∃ last',
      resolveLoop w poll target st (fuel + 1) last s =
        (if (elapsed w st 2500 s).1 then some (none, a)
        else (poll b).bind fun u =>
          if target = u.gateway ∧ u.gatewayMacValid then some (some u.gatewayMac, u)
          else resolveLoop w poll target st fuel last' u) ∧
      R s a ∧ R s b ∧ a.gatewayMacValid = s.gatewayMacValid ∧ a.gateway = s.gateway := by
  have helapsed : R s (elapsed w st 2500 s).2 := hR.nowMs s
  have hkept : (elapsed w st 2500 s).2.gatewayMacValid = s.gatewayMacValid ∧
      (elapsed w st 2500 s).2.gateway = s.gateway := by
    obtain ⟨c, hc⟩ := nowMs_eq w s
    have hclock : (elapsed w st 2500 s).2 = { s with clock := c } := hc
    rw [hclock]
    exact ⟨rfl, rfl⟩
  generalize hr : elapsed w st 2500 s = r at helapsed hkept ⊢
  obtain ⟨late, s1⟩ := r
  have hnow := hR.trans helapsed (hR.nowMs s1)
  generalize hn : Orion.Net.nowMs w s1 = now at hnow
  obtain ⟨n, s2⟩ := now
  by_cases hask : last = 0xffffffff ∨ sub32 n last > 500
  · refine ⟨s1, sendArpRequest w target s2, n, ?_, helapsed, hR.trans hnow (hR.request s2 target),
      hkept⟩
    simp only [resolveLoop, hr, hn, decide_eq_true hask, if_true]
    rfl
  · refine ⟨s1, s2, last, ?_, helapsed, hnow, hkept⟩
    simp only [resolveLoop, hr, hn, decide_eq_false hask, Bool.false_eq_true, if_false]
    rfl

theorem SendRel.resolveLoop {poll : State → Option State} (hpoll : Steps R poll)
    {target : List UInt8} {st : ℕ} : ∀ {fuel last : ℕ} {s : State} {hop : Option (List UInt8)},
      resolveLoop w poll target st fuel last s = some (hop, t) →
      R s t ∧ ∀ nh, hop = some nh → nh = t.gatewayMac := by
  intro fuel
  induction fuel with
  | zero =>
    intro last s hop h
    simp [Orion.Net.resolveLoop] at h
  | succ fuel ih =>
    intro last s hop h
    obtain ⟨a, b, last', hturn, hsa, hsb, -⟩ := resolveLoop_succ hR poll target st fuel last s
    rw [hturn] at h
    split at h
    · obtain ⟨rfl, rfl⟩ : none = hop ∧ a = t := by simpa using h
      exact ⟨hsa, by simp⟩
    · obtain ⟨u, hu, hrest⟩ := Option.bind_eq_some_iff.mp h
      have hsu := hR.trans hsb (hpoll b u hu)
      split at hrest
      · obtain ⟨rfl, rfl⟩ : some u.gatewayMac = hop ∧ u = t := by simpa using hrest
        exact ⟨hsu, fun nh hnh => (Option.some.inj hnh).symm⟩
      · have hloop := ih hrest
        exact ⟨hR.trans hsu hloop.1, hloop.2⟩

/-- **Looking up the next hop** is a run of these steps, and what it finds is the gateway's address. -/
theorem SendRel.resolveNextHop {poll : State → Option State} (hpoll : Steps R poll) {fuel : ℕ}
    {dest : List UInt8} {hop : Option (List UInt8)}
    (h : resolveNextHop w poll fuel dest s = some (hop, t)) :
    R s t ∧ ∀ nh, hop = some nh → nh = t.gatewayMac := by
  unfold Orion.Net.resolveNextHop at h
  simp only at h
  generalize (if sameSubnet s dest s.ipAddr then dest else s.gateway) = target at h
  split at h
  · obtain ⟨rfl, rfl⟩ : some s.gatewayMac = hop ∧ s = t := by simpa using h
    exact ⟨hR.refl s, fun nh hnh => (Option.some.inj hnh).symm⟩
  · have hloop := hR.resolveLoop hpoll h
    exact ⟨hR.trans (hR.nowMs s) hloop.1, hloop.2⟩

theorem SendRel.sendIpPacket {poll : State → Option State} (hpoll : Steps R poll) {fuel : ℕ}
    {proto : UInt8} {dest payload : List UInt8} (hok : ok proto dest payload s)
    (h : sendIpPacket w poll fuel proto dest payload s = some t) : R s t := by
  unfold Orion.Net.sendIpPacket at h
  split at h
  · obtain rfl := Option.some.inj h
    exact hR.refl s
  · rename_i hlen
    obtain ⟨⟨hop, u⟩, hres, hrest⟩ := Option.bind_eq_some_iff.mp h
    obtain ⟨hsu, hmac⟩ := hR.resolveNextHop hpoll hres
    cases hop with
    | none =>
      obtain rfl := Option.some.inj hrest
      exact hsu
    | some nh =>
      obtain rfl := hmac nh rfl
      have hsent := hR.packet hok (by omega) hsu
      obtain rfl := Option.some.inj hrest
      exact hR.trans hsu hsent

end

/-! ## TCP -/

/-- What `handle_tcp` needs: the receive variables and the event change, an acknowledgement without
data is counted, and the acknowledgement number of a segment of the connection is taken. -/
structure SegmentRel (w : World) (ok : UInt8 → List UInt8 → List UInt8 → State → Prop)
    (R : State → State → Prop) : Prop extends SendRel w ok R where
  vars : ∀ s rcvNxt event out, R s { s with tcpRcvNxt := rcvNxt, tcpEvent := event, tcpOut := out }
  counted : ∀ s, R s { s with tcpSndNxt := u32 s.tcpSndNxt }
  ack : ∀ {k : ℕ} {frame : Buffer} {s : State} {y : IpPayload} {x : Segment}, frame ∈ w.frames k →
    passedOn w.arch frame s = some y → segmentAt frame.mem y.pl y.plen y.src = some x →
      x.forConn s → R s (tcpAck x.flags x.ack s)
  segment : ∀ s flags data, ok ipTcp s.tcpPeerIp
    (tcpSegment s flags data (tcpChecksum s.ipAddr s.tcpPeerIp (tcpSegment s flags data 0))) s

section

variable (hR : SegmentRel w ok R)

include hR

/-- An acknowledgement. -/
theorem SegmentRel.sendAck {poll : State → Option State} (hpoll : Steps R poll) {fuel : ℕ}
    (h : sendTcp w poll fuel 0x10 [] s = some t) : R s t := by
  unfold Orion.Net.sendTcp at h
  obtain ⟨u, hu, hrest⟩ := Option.bind_eq_some_iff.mp h
  have hsent := hR.toSendRel.sendIpPacket hpoll (hR.segment s 0x10 []) hu
  obtain rfl := Option.some.inj hrest
  exact hR.trans hsent (hR.counted u)

theorem SegmentRel.tcpData {poll : State → Option State} (hpoll : Steps R poll) {fuel seq dataLen : ℕ}
    {data : List UInt8} (h : tcpData w poll fuel seq dataLen data s = some t) : R s t := by
  unfold Orion.Net.tcpData at h
  split at h
  · obtain ⟨u, hu, hrest⟩ := Option.bind_eq_some_iff.mp h
    obtain rfl := Option.some.inj hrest
    have htaken := hR.vars s (u32 (s.tcpRcvNxt + dataLen)) s.tcpEvent (s.tcpOut ++ data)
    have hevent := hR.vars u u.tcpRcvNxt 3 u.tcpOut
    exact hR.trans (hR.trans htaken (hR.sendAck hpoll hu)) hevent
  · obtain rfl := Option.some.inj h
    exact hR.toSendRel.refl s

theorem SegmentRel.tcpFin {poll : State → Option State} (hpoll : Steps R poll) {fuel seq dataLen : ℕ}
    {flags : UInt8} (h : tcpFin w poll fuel seq dataLen flags s = some t) : R s t := by
  unfold Orion.Net.tcpFin at h
  split at h
  · obtain ⟨u, hu, hrest⟩ := Option.bind_eq_some_iff.mp h
    obtain rfl := Option.some.inj hrest
    have hcounted : R s (if w.arch.size (seq + dataLen) = s.tcpRcvNxt then
        { s with tcpRcvNxt := u32 (s.tcpRcvNxt + 1) } else s) := by
      split
      · exact hR.vars s _ s.tcpEvent s.tcpOut
      · exact hR.toSendRel.refl s
    have hevent := hR.vars u u.tcpRcvNxt 4 u.tcpOut
    exact hR.trans (hR.trans hcounted (hR.sendAck hpoll hu)) hevent
  · obtain rfl := Option.some.inj h
    exact hR.toSendRel.refl s

/-- **One segment.** -/
theorem SegmentRel.handleTcp {poll : State → Option State} (hpoll : Steps R poll) {fuel k : ℕ}
    {frame : Buffer} {y : IpPayload} (hframe : frame ∈ w.frames k)
    (hpass : passedOn w.arch frame s = some y)
    (h : (handleTcp w poll fuel frame.mem y.pl y.plen y.src s).value = some t) : R s t := by
  have hsame : some s = some t → R s t := by
    intro hst
    obtain rfl := Option.some.inj hst
    exact hR.toSendRel.refl s
  rw [handleTcp_value] at h
  split at h
  · exact hsame h
  rename_i x hx
  split at h
  swap
  · exact hsame h
  rename_i hconn
  unfold tcpInput at h
  have hack := hR.ack hframe hpass hx hconn
  generalize Orion.Net.tcpAck x.flags x.ack s = a at h hack
  simp only at h
  refine hR.trans hack ?_
  split at h
  · have hopened := hR.vars a (u32 (x.seq + 1)) 2 a.tcpOut
    exact hR.trans hopened (hR.sendAck hpoll h)
  · split at h
    · obtain rfl := Option.some.inj h
      exact hR.vars a a.tcpRcvNxt (-1) a.tcpOut
    · obtain ⟨u, hu, hrest⟩ := Option.bind_eq_some_iff.mp h
      exact hR.trans (hR.tcpData hpoll hu) (hR.tcpFin hpoll hrest)

end

/-- The relation contains every change of the connection variables, and segments are `ok`. -/
structure TcpRel (w : World) (ok : UInt8 → List UInt8 → List UInt8 → State → Prop)
    (R : State → State → Prop) : Prop extends SendRel w ok R where
  vars : ∀ s sndUna sndNxt rcvNxt event out, R s { s with
    tcpSndUna := sndUna, tcpSndNxt := sndNxt, tcpRcvNxt := rcvNxt, tcpEvent := event, tcpOut := out }
  segment : ∀ s flags data, ok ipTcp s.tcpPeerIp
    (tcpSegment s flags data (tcpChecksum s.ipAddr s.tcpPeerIp (tcpSegment s flags data 0))) s

section

variable (hR : TcpRel w ok R)

include hR

theorem TcpRel.toSegmentRel : SegmentRel w ok R where
  toSendRel := hR.toSendRel
  vars s _ _ _ := hR.vars s s.tcpSndUna s.tcpSndNxt _ _ _
  counted s := hR.vars s s.tcpSndUna _ s.tcpRcvNxt s.tcpEvent s.tcpOut
  ack := by
    intro k frame s y x _ _ _ _
    unfold tcpAck
    split
    · exact hR.vars s x.ack s.tcpSndNxt s.tcpRcvNxt s.tcpEvent s.tcpOut
    · exact hR.toSendRel.refl s
  segment := hR.segment

theorem TcpRel.sendTcp {poll : State → Option State} (hpoll : Steps R poll) {fuel : ℕ}
    {flags : UInt8} {data : List UInt8} (h : sendTcp w poll fuel flags data s = some t) : R s t := by
  unfold Orion.Net.sendTcp at h
  obtain ⟨u, hu, hrest⟩ := Option.bind_eq_some_iff.mp h
  have hsent := hR.toSendRel.sendIpPacket hpoll (hR.segment s flags data) hu
  obtain rfl := Option.some.inj hrest
  exact hR.trans hsent (hR.vars u u.tcpSndUna _ u.tcpRcvNxt u.tcpEvent u.tcpOut)

end

/-! ## Receiving -/

section

variable (hR : HandleRel w ok R)

include hR

theorem HandleRel.handleIcmp {poll : State → Option State} (hpoll : Steps R poll) {fuel : ℕ}
    {mem : ℕ → UInt8} {p len src : ℕ}
    (h : (handleIcmp w poll fuel mem p len src s).value = some t) : R s t := by
  have hsame : some s = some t → R s t := by
    intro hst
    obtain rfl := Option.some.inj hst
    exact hR.toSendRel.refl s
  have hreply : some { s with icmpReply := true } = some t → R s t := by
    intro hst
    obtain rfl := Option.some.inj hst
    exact hR.idle s s.clock s.polls s.rxCount true
  have hanswer : 8 ≤ len → sendIpPacket w poll fuel ipIcmp (readSpan mem src 4).value
      (icmpAnswer (readSpan mem p (min len 256)).value) s = some t → R s t := by
    intro hlen hst
    refine hR.toSendRel.sendIpPacket hpoll (hR.echo s _ _ ?_ ?_ ?_) hst
    · simp
    · simp only [value_readSpan, List.length_map, List.length_range]
      omega
    · simp only [value_readSpan, List.length_map, List.length_range]
      omega
  unfold Orion.Net.handleIcmp at h
  simp only [value_ite, value_bind, value_pure] at h
  split at h
  · exact hsame h
  · rename_i hlen
    have hlong : 8 ≤ len := by omega
    split at h <;> split at h
    · exact hreply h
    · split at h
      · exact hanswer hlong h
      · exact hsame h
    · exact hreply h
    · split at h
      · exact hanswer hlong h
      · exact hsame h

/-- **One frame.** -/
theorem HandleRel.rxDispatch {poll : State → Option State} (hpoll : Steps R poll) {fuel k : ℕ}
    {frame : Buffer} (hframe : frame ∈ w.frames k) :
    Steps R fun s => rxDispatch w poll fuel s frame := by
  have hcount : Steps R fun s => some { s with rxCount := u64 (s.rxCount + 1) } := by
    intro s t ht
    obtain rfl := Option.some.inj ht
    exact hR.idle s s.clock s.polls (u64 (s.rxCount + 1)) s.icmpReply
  refine hR.toSendRel.bind (f := fun s => (handleFrame w poll fuel frame s).value) ?_ hcount
  intro s t h
  have hsame : some s = some t → R s t := by
    intro hst
    obtain rfl := Option.some.inj hst
    exact hR.toSendRel.refl s
  replace h : (handleFrame w poll fuel frame s).value = some t := h
  unfold handleFrame at h
  simp only [value_ite, value_bind, value_pure] at h
  split at h
  · exact hsame h
  rename_i hlen
  split at h
  · obtain rfl := Option.some.inj h
    exact hR.arp s hframe (by omega)
  split at h
  swap
  · exact hsame h
  rename_i htype
  unfold handleIp at h
  rw [value_bind] at h
  cases hx : (ipPayload w.arch frame.mem 14 (frame.len - 14) s).value with
  | none =>
    rw [hx] at h
    exact hsame h
  | some y =>
    have hpass : Handled y.proto → passedOn w.arch frame s = some y := by
      intro hproto
      unfold passedOn
      rw [if_pos ⟨by omega, htype⟩, hx]
      exact if_pos (decide_eq_true hproto)
    rw [hx] at h
    simp only [value_ite, value_bind, value_pure] at h
    split at h
    · exact hR.handleIcmp hpoll h
    split at h
    · rename_i hudp
      obtain rfl := Option.some.inj h
      exact hR.udp hframe (hpass (.inr (.inl hudp)))
    split at h
    · rename_i htcp
      exact hR.tcp hpoll hframe (hpass (.inr (.inr htcp))) h
    · exact hsame h

/-- **Every poll is made of these steps.** -/
theorem HandleRel.netPoll : ∀ fuel, Steps R (netPoll w fuel) := by
  intro fuel
  induction fuel with
  | zero =>
    intro s t h
    simp [Orion.Net.netPoll] at h
  | succ fuel ih =>
    -- the frames of one poll, one after the other
    have hframes : ∀ (k : ℕ) (frames : List Buffer), (∀ f ∈ frames, f ∈ w.frames k) →
        Steps R fun s => frames.foldlM (Orion.Net.rxDispatch w (Orion.Net.netPoll w fuel) fuel) s := by
      intro k frames
      induction frames with
      | nil =>
        intro _ s t h
        obtain rfl := Option.some.inj h
        exact hR.toSendRel.refl s
      | cons f rest ihf =>
        intro hmem
        have hfirst := @HandleRel.rxDispatch _ _ _ hR _ ih fuel k f (hmem f List.mem_cons_self)
        have hrest := ihf fun g hg => hmem g (List.mem_cons_of_mem _ hg)
        exact hR.toSendRel.bind hfirst hrest
    intro s t h
    unfold Orion.Net.netPoll at h
    split at h
    · have hpolls := hR.idle s s.clock (s.polls + 1) s.rxCount s.icmpReply
      exact hR.trans hpolls (hframes s.polls _ (fun f hf => hf) _ t h)
    · obtain rfl := Option.some.inj h
      exact hR.toSendRel.refl s

theorem HandleRel.pollWhile {pollFuel st ms : ℕ} {waiting : State → Bool} :
    ∀ fuel, Steps R (pollWhile w pollFuel st ms waiting fuel) := by
  intro fuel
  induction fuel with
  | zero =>
    intro s t h
    simp [Orion.Net.pollWhile] at h
  | succ fuel ih =>
    intro s t h
    unfold Orion.Net.pollWhile at h
    have helapsed : R s (elapsed w st ms s).2 := hR.toSendRel.nowMs s
    generalize elapsed w st ms s = r at h helapsed
    obtain ⟨late, s1⟩ := r
    simp only at h helapsed
    split at h
    · obtain rfl := Option.some.inj h
      exact helapsed
    · exact hR.trans helapsed (hR.toSendRel.bind (hR.netPoll pollFuel) ih s1 t h)

end

end

end Orion.Net
