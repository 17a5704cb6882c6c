import Mathlib.Tactic.Cases
import Orion.Net.Bounds
import Orion.Net.Client

/-!
# The receiving half of a TCP connection

`handle_tcp` works on the bytes of a frame.  Here its effect is stated on the decoded `Segment`
(`handleTcp_value`), and for a connection whose peer is reached through a known gateway, where
sending an acknowledgement does not wait, on the receive variables alone:

* `Rx.accept` — what data and FIN of a segment do to `tcp_event`, `tcp_rcv_nxt` and the buffer;
* `tcpInput_cases` — everything a segment can do.
-/

namespace Orion.Net

open Orion.Traced

/-! ## Segments -/

structure Segment where
  srcip : List UInt8
  sp : ℕ
  dp : ℕ
  seq : ℕ
  ack : ℕ
  flags : UInt8
  data : List UInt8
  deriving Repr, DecidableEq

namespace Segment

def syn (x : Segment) : Prop := x.flags &&& 0x02 ≠ 0

def fin (x : Segment) : Prop := x.flags &&& 0x01 ≠ 0

instance (x : Segment) : Decidable x.syn := by unfold syn; infer_instance

instance (x : Segment) : Decidable x.fin := by unfold fin; infer_instance

/-- The segment belongs to the connection of `s`. -/
def forConn (x : Segment) (s : State) : Prop :=
  x.srcip = s.tcpPeerIp ∧ x.sp = s.tcpPeerPort ∧ x.dp = s.tcpLocalPort

instance (x : Segment) (s : State) : Decidable (x.forConn s) := by unfold forConn; infer_instance

end Segment

/-- The fields and the data of the segment of `len` bytes at `p`. -/
def decodeSegment (mem : ℕ → UInt8) (p len src : ℕ) : Segment where
  srcip := (readSpan mem src 4).value
  sp := (get16 mem p).value
  dp := (get16 mem (p + 2)).value
  seq := (get32 mem (p + 4)).value
  ack := (get32 mem (p + 8)).value
  flags := mem (p + 13)
  data := (readSpan mem (p + (mem (p + 12)).toNat / 16 * 4)
    (len - (mem (p + 12)).toNat / 16 * 4)).value

/-- The segment at `p`, if its header is inside it. -/
def segmentAt (mem : ℕ → UInt8) (p len src : ℕ) : Option Segment :=
  let hlen := (mem (p + 12)).toNat / 16 * 4
  if len < 20 ∨ hlen < 20 ∨ hlen > len then none else some (decodeSegment mem p len src)

/-- The prefix of a span is a shorter span. -/
theorem readSpan_take {α : Type} (mem : ℕ → α) (i : ℕ) {k n : ℕ} (h : k ≤ n) :
    (readSpan mem i k).value = ((readSpan mem i n).value).take k := by
  simp only [value_readSpan, ← List.map_take, List.take_range, Nat.min_eq_left h]

section Input

variable (w : World) (poll : State → Option State) (fuel : ℕ)

/-- `handle_tcp` after its checks. -/
def tcpInput (x : Segment) (s : State) : Option State :=
  let s := tcpAck x.flags x.ack s
  if x.flags &&& 0x12 = 0x12 ∧ s.tcpEvent = 1 ∧ x.ack = s.tcpSndNxt then
    sendTcp w poll fuel 0x10 [] { s with tcpRcvNxt := u32 (x.seq + 1), tcpEvent := 2 }
  else if x.flags &&& 0x04 ≠ 0 then some { s with tcpEvent := -1 }
  else
    (tcpData w poll fuel x.seq x.data.length
        (x.data.take (tcpCopy x.seq x.data.length s)) s).bind
      (tcpFin w poll fuel x.seq x.data.length x.flags)

/-- **`handle_tcp` on the decoded segment.** -/
theorem handleTcp_value (mem : ℕ → UInt8) (p len src : ℕ) (s : State) :
    (handleTcp w poll fuel mem p len src s).value =
      match segmentAt mem p len src with
      | none => some s
      | some x => if x.forConn s then tcpInput w poll fuel x s else some s := by
  unfold segmentAt
  by_cases hlen : len < 20
  · rw [if_pos (Or.inl hlen)]
    unfold handleTcp
    rw [if_pos hlen, value_pure]
  by_cases hhlen : (mem (p + 12)).toNat / 16 * 4 < 20 ∨ (mem (p + 12)).toNat / 16 * 4 > len
  · rw [if_pos (Or.inr hhlen)]
    unfold handleTcp
    simp only [value_ite, value_bind, value_pure]
    simp only [value_read, hlen, hhlen, if_true, ite_self]
  · rw [if_neg (not_or.mpr ⟨hlen, hhlen⟩)]
    show _ = if (decodeSegment mem p len src).forConn s then _ else _
    unfold handleTcp
    simp only [value_ite, value_bind, value_pure]
    simp only [value_read, hlen, hhlen, if_false]
    by_cases hsrc : (readSpan mem src 4).value = s.tcpPeerIp
    · by_cases hports : (get16 mem p).value = s.tcpPeerPort ∧
          (get16 mem (p + 2)).value = s.tcpLocalPort
      · rw [if_neg (not_not_intro hsrc), if_neg (by rw [not_or, not_not, not_not]; exact hports),
          if_pos ⟨hsrc, hports⟩]
        unfold tcpInput
        have hdata : (decodeSegment mem p len src).data.length
            = len - (mem (p + 12)).toNat / 16 * 4 := by simp [decodeSegment]
        rw [hdata, readSpan_take _ _ (tcpCopy_le _ _ _)]
        rfl
      · rw [if_neg (not_not_intro hsrc), if_pos (by rw [← not_and_or]; exact hports),
          if_neg (fun h => hports h.2)]
    · rw [if_pos hsrc, if_neg (fun h => hsrc h.1)]

end Input

/-! ## Sending on a routed connection -/

/-- The peer is reached through the gateway, whose hardware address is known. -/
def Routed (s : State) : Prop :=
  (if sameSubnet s s.tcpPeerIp s.ipAddr then s.tcpPeerIp else s.gateway) = s.gateway ∧
    s.gatewayMacValid = true

theorem ethTx_eq (w : World) (data : List UInt8) (s : State) :
    ∃ txCount sent, ethTx w data s = { s with txCount := txCount, sent := sent } := by
  unfold ethTx
  split
  · exact ⟨_, _, rfl⟩
  · exact ⟨s.txCount, s.sent, rfl⟩

section Send

variable (w : World) (poll : State → Option State) (fuel : ℕ)

theorem sendIpPacket_known {s : State} {dest nh : List UInt8}
    (h : resolveNextHop w poll fuel dest s = some (some nh, s)) (proto : UInt8)
    (payload : List UInt8) :
    ∃ ipId txCount sent, sendIpPacket w poll fuel proto dest payload s =
      some { s with ipId := ipId, txCount := txCount, sent := sent } := by
  unfold sendIpPacket
  split
  · exact ⟨s.ipId, s.txCount, s.sent, rfl⟩
  · rw [h]
    obtain ⟨txCount, sent, htx⟩ := ethTx_eq w (ethHeader s nh ethIp ++
      (makeIpv4 proto dest payload.length s).1 ++ payload) { s with ipId := u16 (s.ipId + 1) }
    exact ⟨u16 (s.ipId + 1), txCount, sent, congrArg some htx⟩

/-- **A segment to a routed peer is sent at once** and counted, and sending changes nothing else. -/
theorem sendTcp_sent {s : State} (h : Routed s) (flags : UInt8) (data : List UInt8) :
    ∃ ipId txCount sent, sendTcp w poll fuel flags data s = some { s with
      ipId := ipId, txCount := txCount, sent := sent
      tcpSndNxt := u32 (s.tcpSndNxt + (if flags &&& 0x02 ≠ 0 then 1 else 0) +
        (if flags &&& 0x01 ≠ 0 then 1 else 0) + data.length) } := by
  have hop : resolveNextHop w poll fuel s.tcpPeerIp s = some (some s.gatewayMac, s) := by
    unfold resolveNextHop
    exact if_pos h
  obtain ⟨ipId, txCount, sent, hsend⟩ := sendIpPacket_known w poll fuel hop ipTcp
    (tcpSegment s flags data (tcpChecksum s.ipAddr s.tcpPeerIp (tcpSegment s flags data 0)))
  unfold sendTcp
  simp only [hsend]
  exact ⟨ipId, txCount, sent, rfl⟩

theorem sendTcp_routed {s : State} (h : Routed s) (flags : UInt8) (data : List UInt8) :
    ∃ ipId txCount sent sndNxt, sendTcp w poll fuel flags data s =
      some { s with ipId := ipId, txCount := txCount, sent := sent, tcpSndNxt := sndNxt } := by
  obtain ⟨ipId, txCount, sent, hsend⟩ := sendTcp_sent w poll fuel h flags data
  exact ⟨ipId, txCount, sent, _, hsend⟩

end Send

/-! ## The receive variables -/

/-- `tcp_event`, `tcp_rcv_nxt` and the contents of the receive buffer. -/
@[ext] structure Rx where
  event : ℤ
  rcvNxt : ℕ
  out : List UInt8

def State.rx (s : State) : Rx := ⟨s.tcpEvent, s.tcpRcvNxt, s.tcpOut⟩

namespace Rx

/-- In-order data: what fits into a buffer of `cap` bytes is kept, all of it is counted. -/
def takeData (cap : ℕ) (x : Segment) (v : Rx) : Rx :=
  if x.data ≠ [] ∧ x.seq = v.rcvNxt then
    ⟨3, u32 (v.rcvNxt + x.data.length), v.out ++ x.data.take (cap - v.out.length)⟩
  else v

/-- A FIN is counted if the position behind the data is the next expected one, as sums of
`size_t`. -/
def takeFin (arch : Arch) (x : Segment) (v : Rx) : Rx :=
  if x.fin then
    ⟨4, if arch.size (x.seq + x.data.length) = v.rcvNxt then u32 (v.rcvNxt + 1) else v.rcvNxt, v.out⟩
  else v

def accept (arch : Arch) (cap : ℕ) (x : Segment) (v : Rx) : Rx := takeFin arch x (takeData cap x v)

/-- What a segment of the connection does to the receive variables: it completes the handshake, resets
the connection, or brings data and FIN. -/
def input (arch : Arch) (cap sndNxt : ℕ) (x : Segment) (v : Rx) : Rx :=
  if x.flags &&& 0x12 = 0x12 ∧ v.event = 1 ∧ x.ack = sndNxt then ⟨2, u32 (x.seq + 1), v.out⟩
  else if x.flags &&& 0x04 ≠ 0 then { v with event := -1 }
  else v.accept arch cap x

end Rx

/-- Which connection it is, how its peer is reached and how large its buffer is. -/
structure SameConn (s t : State) : Prop where
  peerIp : t.tcpPeerIp = s.tcpPeerIp
  peerPort : t.tcpPeerPort = s.tcpPeerPort
  localPort : t.tcpLocalPort = s.tcpLocalPort
  cap : t.tcpOutCap = s.tcpOutCap
  ipAddr : t.ipAddr = s.ipAddr
  netmask : t.netmask = s.netmask
  gateway : t.gateway = s.gateway
  valid : s.gatewayMacValid = true → t.gatewayMacValid = true

theorem SameConn.refl (s : State) : SameConn s s := ⟨rfl, rfl, rfl, rfl, rfl, rfl, rfl, id⟩

theorem SameConn.trans {s t u : State} (h : SameConn s t) (h' : SameConn t u) : SameConn s u :=
  ⟨h'.peerIp.trans h.peerIp, h'.peerPort.trans h.peerPort, h'.localPort.trans h.localPort,
    h'.cap.trans h.cap, h'.ipAddr.trans h.ipAddr, h'.netmask.trans h.netmask,
    h'.gateway.trans h.gateway, h'.valid ∘ h.valid⟩

theorem SameConn.routed {s t : State} (h : SameConn s t) (hs : Routed s) : Routed t := by
  refine ⟨?_, h.valid hs.2⟩
  have := hs.1
  unfold sameSubnet at *
  rwa [h.peerIp, h.ipAddr, h.netmask, h.gateway]

/-- The connection and its receive variables are as before. -/
def SameTcp (s t : State) : Prop := SameConn s t ∧ t.rx = s.rx

/-! ## One segment -/

section Step

variable {w : World} {poll : State → Option State} {fuel : ℕ} {s : State} (h : Routed s)

theorem tcpAck_sameTcp (flags : UInt8) (ack : ℕ) (s : State) : SameTcp s (tcpAck flags ack s) := by
  unfold tcpAck
  split <;> exact ⟨⟨rfl, rfl, rfl, rfl, rfl, rfl, rfl, id⟩, rfl⟩

include h

theorem tcpData_rx (x : Segment) :
    ∃ t, tcpData w poll fuel x.seq x.data.length (x.data.take (tcpCopy x.seq x.data.length s)) s
      = some t ∧ SameConn s t ∧ t.rx = s.rx.takeData s.tcpOutCap x := by
  have hne : x.data.length ≠ 0 ↔ x.data ≠ [] := by rw [ne_eq, List.length_eq_zero_iff]
  unfold tcpData tcpCopy Rx.takeData
  simp only [hne]
  show ∃ t, (if x.data ≠ [] ∧ x.seq = s.tcpRcvNxt then _ else _) = some t ∧ SameConn s t ∧
    t.rx = if x.data ≠ [] ∧ x.seq = s.tcpRcvNxt then _ else _
  split
  · have htake : x.data.take (min x.data.length (s.tcpOutCap - s.tcpOut.length))
        = x.data.take (s.tcpOutCap - s.tcpOut.length) := by
      rw [← List.take_take]
      exact List.take_of_length_le (by rw [List.length_take]; exact min_le_right _ _)
    rw [htake]
    have h' : Routed { s with tcpOut := s.tcpOut ++ x.data.take (s.tcpOutCap - s.tcpOut.length)
                              tcpRcvNxt := u32 (s.tcpRcvNxt + x.data.length) } := h
    obtain ⟨i, tc, se, sn, hsend⟩ := sendTcp_routed w poll fuel h' 0x10 []
    rw [hsend]
    exact ⟨_, rfl, ⟨rfl, rfl, rfl, rfl, rfl, rfl, rfl, id⟩, rfl⟩
  · exact ⟨s, rfl, .refl s, rfl⟩

theorem tcpFin_rx (x : Segment) :
    ∃ t, tcpFin w poll fuel x.seq x.data.length x.flags s = some t ∧ SameConn s t ∧
      t.rx = s.rx.takeFin w.arch x := by
  unfold tcpFin Rx.takeFin Segment.fin
  show ∃ t, (if x.flags &&& 1 ≠ 0 then _ else _) = some t ∧ SameConn s t ∧
    t.rx = if x.flags &&& 1 ≠ 0 then _ else _
  split
  · -- whether or not the FIN is counted, the state is as before but for `tcp_rcv_nxt`
    obtain ⟨r, hr, hs⟩ : ∃ r, (if w.arch.size (x.seq + x.data.length) = s.tcpRcvNxt then
          u32 (s.tcpRcvNxt + 1) else s.tcpRcvNxt) = r ∧
        (if w.arch.size (x.seq + x.data.length) = s.tcpRcvNxt then
          { s with tcpRcvNxt := u32 (s.tcpRcvNxt + 1) } else s) = { s with tcpRcvNxt := r } := by
      split
      · exact ⟨_, rfl, rfl⟩
      · exact ⟨_, rfl, rfl⟩
    have h' : Routed { s with tcpRcvNxt := r } := h
    obtain ⟨i, tc, se, sn, hsend⟩ := sendTcp_routed w poll fuel h' 0x10 []
    rw [hs]
    simp only [hsend]
    refine ⟨_, rfl, ⟨rfl, rfl, rfl, rfl, rfl, rfl, rfl, id⟩, ?_⟩
    show Rx.mk 4 r s.tcpOut = Rx.mk 4 (if _ = s.tcpRcvNxt then _ else s.tcpRcvNxt) s.tcpOut
    rw [← hr]
    rfl
  · exact ⟨s, rfl, .refl s, rfl⟩

/-- **What a segment of the connection does.** -/
theorem tcpInput_rx (x : Segment) :
    ∃ t, tcpInput w poll fuel x s = some t ∧ SameConn s t ∧
      t.rx = s.rx.input w.arch s.tcpOutCap s.tcpSndNxt x := by
  obtain ⟨hc, hrx⟩ := tcpAck_sameTcp x.flags x.ack s
  have hnxt : (tcpAck x.flags x.ack s).tcpSndNxt = s.tcpSndNxt := by
    unfold tcpAck
    split <;> rfl
  have hr := hc.routed h
  have hcap := hc.cap
  unfold tcpInput
  simp only
  generalize tcpAck x.flags x.ack s = a at *
  rw [← hrx, ← hnxt, Rx.input]
  show ∃ t, (if x.flags &&& 0x12 = 0x12 ∧ a.tcpEvent = 1 ∧ x.ack = a.tcpSndNxt then _ else _) = some t ∧
    SameConn s t ∧ t.rx = if x.flags &&& 0x12 = 0x12 ∧ a.tcpEvent = 1 ∧ x.ack = a.tcpSndNxt then _ else _
  split
  · have hr' : Routed { a with tcpRcvNxt := u32 (x.seq + 1), tcpEvent := 2 } := hr
    obtain ⟨i, tc, se, sn, hsend⟩ := sendTcp_routed w poll fuel hr' 0x10 []
    exact ⟨_, hsend, hc.trans ⟨rfl, rfl, rfl, rfl, rfl, rfl, rfl, id⟩, rfl⟩
  · split
    · exact ⟨_, rfl, hc.trans ⟨rfl, rfl, rfl, rfl, rfl, rfl, rfl, id⟩, rfl⟩
    · obtain ⟨t, ht, hct, hrxt⟩ := tcpData_rx hr x
      obtain ⟨u, hu, hcu, hrxu⟩ := tcpFin_rx (hct.routed hr) x
      have hbind := (congrArg (·.bind (tcpFin w poll fuel x.seq x.data.length x.flags)) ht).trans hu
      refine ⟨u, hbind, (hc.trans hct).trans hcu, ?_⟩
      rw [hrxu, hrxt, hcap]
      rfl

/-- **Everything a segment of the connection can do**: complete the handshake, reset, or bring data
and FIN. -/
theorem tcpInput_cases (x : Segment) :
    ∃ t, tcpInput w poll fuel x s = some t ∧ SameConn s t ∧
      ((x.flags &&& 0x12 = 0x12 ∧ s.tcpEvent = 1 ∧ x.ack = s.tcpSndNxt ∧
          t.rx = ⟨2, u32 (x.seq + 1), s.tcpOut⟩) ∨
        (x.flags &&& 0x04 ≠ 0 ∧ t.rx = { s.rx with event := -1 }) ∨
        (x.flags &&& 0x04 = 0 ∧ t.rx = s.rx.accept w.arch s.tcpOutCap x)) := by
  obtain ⟨t, ht, hsame, hrx⟩ := @tcpInput_rx w poll fuel s h x
  refine ⟨t, ht, hsame, ?_⟩
  unfold Rx.input at hrx
  split at hrx
  · rename_i hopen
    exact .inl ⟨hopen.1, hopen.2.1, hopen.2.2, hrx⟩
  · split at hrx
    · rename_i hrst
      exact .inr (.inl ⟨hrst, hrx⟩)
    · rename_i hrst
      exact .inr (.inr ⟨not_not.mp hrst, hrx⟩)

end Step

end Orion.Net
