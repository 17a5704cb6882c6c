import Mathlib.Data.List.GetD
import Orion.Dhcp.Client
import Orion.Dhcp.Options

/-!
# DHCP messages on the wire

The packets of the builders are option areas with the options that they were given
(`dhcpBuildRequest_options`), and the frame around a payload has lengths in its three headers that the
checks of `dhcp_rx` take apart again (`dhcpUdp_broadcast`).
-/

namespace Orion.Dhcp

open Orion.Traced

theorem length_put16 (v : ℕ) : (put16 v).length = 2 := rfl

theorem length_put32 (v : ℕ) : (put32 v).length = 4 := rfl

/-! ## Options that are written -/

def optionBytes (o : UInt8 × List UInt8) : List UInt8 := o.1 :: UInt8.ofNat o.2.length :: o.2

/-- An option that can be written. -/
def Writable (o : UInt8 × List UInt8) : Prop := o.1 ≠ 0 ∧ o.1 ≠ 255 ∧ o.2.length < 256

/-- **What is written is read back.** -/
theorem Options.of_flatMap {os : List (UInt8 × List UInt8)} {rest : List UInt8}
    (h : ∀ o ∈ os, Writable o) : Options (os.flatMap optionBytes ++ 255 :: rest) os (255 :: rest) := by
  induction os with
  | nil => exact .finish (by simp)
  | cons o os ih =>
    obtain ⟨⟨hpad, hend, hlen⟩, hos⟩ := List.forall_mem_cons.mp h
    have hopt := Options.option hpad hend hlen (ih hos)
    rwa [List.flatMap_cons, List.append_assoc, optionBytes, List.cons_append, List.cons_append]

theorem Options.flatMap_iff {os os' : List (UInt8 × List UInt8)} {rest tail : List UInt8}
    (h : ∀ o ∈ os, Writable o) :
    Options (os.flatMap optionBytes ++ 255 :: rest) os' tail ↔ os' = os ∧ tail = 255 :: rest := by
  constructor
  · exact fun h' => h'.unique (Options.of_flatMap h)
  · rintro ⟨rfl, rfl⟩
    exact Options.of_flatMap h

/-! ## The packets -/

/-- The options that both messages start with. -/
def baseOptions (mac : List UInt8) (messageType : UInt8) : List (UInt8 × List UInt8) :=
  [(53, [messageType]), (61, 1 :: mac), (57, put16 576)]

/-- The parameters that are asked for. -/
def requestedOption : UInt8 × List UInt8 := (55, [1, 3, 6, 51])

/-- A packet of 300 bytes with this transaction id, address and options, and zeros behind the end
mark. -/
structure Survives (packet : List UInt8) (xid : ℕ) (mac : List UInt8) (os : List (UInt8 × List UInt8)) :
    Prop where
  length : packet.length = 300
  xid : (packet.drop 4).take 4 = put32 xid
  chaddr : (packet.drop 28).take 6 = mac
  options : ∃ n, ∀ os' tail, Options (packet.drop 240) os' tail ↔
    os' = os ∧ tail = 255 :: List.replicate n 0

section

variable {cap xid : ℕ} {mac : List UInt8} {messageType : UInt8}

/-- The fixed part and the first options. -/
theorem dhcpBase_eq (xid : ℕ) (messageType : UInt8) (hcap : 300 ≤ cap) (hmac : mac.length = 6) :
    ∃ fixed, dhcpBase cap xid mac messageType =
        some (fixed ++ (baseOptions mac messageType).flatMap optionBytes) ∧
      fixed.length = 240 ∧ (fixed.drop 4).take 4 = put32 xid ∧ (fixed.drop 28).take 6 = mac := by
  have hbase : (baseOptions mac messageType).flatMap optionBytes =
      [53, 1, messageType] ++ [61, 7, 1] ++ mac ++ [57, 2] ++ put16 576 := by
    simp [baseOptions, optionBytes, hmac, put16]
  refine ⟨[1, 1, 6, 0] ++ put32 xid ++ [0, 0] ++ put16 0x8000 ++ List.replicate 16 0 ++ mac ++
    List.replicate 202 0 ++ put32 dhcpCookie, ?_, ?_, ?_, ?_⟩
  · rw [hbase, dhcpBase, if_neg (by rw [dhcpPacketMin]; omega)]
    simp only [List.append_assoc]
  · simp only [List.length_append, List.length_replicate, length_put16, length_put32, hmac,
      List.length_cons, List.length_nil]
  · have hfront : ([1, 1, 6, 0] : List UInt8).length = 4 := rfl
    simp only [List.append_assoc]
    rw [List.drop_left' hfront, List.take_left' (length_put32 xid)]
  · have hfront : ([1, 1, 6, 0] ++ put32 xid ++ [0, 0] ++ put16 0x8000 ++
        List.replicate 16 0).length = 28 := by
      simp only [List.length_append, List.length_replicate, length_put16, length_put32,
        List.length_cons, List.length_nil]
    rw [List.append_assoc, List.append_assoc, List.drop_left' hfront, List.take_left' hmac]

/-- A packet that is finished behind some options. -/
theorem dhcpFinish_carries {fixed : List UInt8} {os : List (UInt8 × List UInt8)} (hcap : 300 ≤ cap)
    (hfixed : fixed.length = 240) (hxid : (fixed.drop 4).take 4 = put32 xid)
    (hmac : (fixed.drop 28).take 6 = mac) (hos : ∀ o ∈ os, Writable o)
    (hlen : (os.flatMap optionBytes).length ≤ 53) :
    ∃ packet, dhcpFinish cap (fixed ++ os.flatMap optionBytes) = some packet ∧
      Survives packet xid mac (os ++ [requestedOption]) := by
  have hsize : (fixed ++ os.flatMap optionBytes).length + 7 ≤ 300 := by
    rw [List.length_append, hfixed]
    omega
  have hwritten : ∀ o ∈ os ++ [requestedOption], Writable o := by
    intro o ho
    obtain ho | ho := List.mem_append.mp ho
    · exact hos o ho
    · rw [List.mem_singleton.mp ho]
      exact ⟨by decide, by decide, by decide⟩
  have hpacket : fixed ++ os.flatMap optionBytes ++ [55, 4, 1, 3, 6, 51, 255] ++
      List.replicate (dhcpPacketMin - ((fixed ++ os.flatMap optionBytes).length + 7)) 0 =
      fixed ++ ((os ++ [requestedOption]).flatMap optionBytes ++
        255 :: List.replicate (300 - ((fixed ++ os.flatMap optionBytes).length + 7)) 0) := by
    simp only [List.flatMap_append, List.flatMap_singleton, optionBytes, requestedOption,
      List.append_assoc]
    rfl
  refine ⟨_, by rw [dhcpFinish, if_neg (by rw [dhcpPacketMin]; omega), hpacket], ?_, ?_, ?_, ?_⟩
  · rw [← hpacket, List.length_append, List.length_append, List.length_replicate, dhcpPacketMin]
    simp only [List.length_cons, List.length_nil]
    omega
  · rw [List.drop_append_of_le_length (by omega), List.take_append_of_le_length (by simp [hfixed]), hxid]
  · rw [List.drop_append_of_le_length (by omega), List.take_append_of_le_length (by simp [hfixed]), hmac]
  · refine ⟨300 - ((fixed ++ os.flatMap optionBytes).length + 7), fun os' tail => ?_⟩
    rw [List.drop_left' hfixed]
    exact Options.flatMap_iff hwritten

theorem writable_base (messageType : UInt8) (hmac : mac.length = 6) :
    ∀ o ∈ baseOptions mac messageType, Writable o := by
  intro o ho
  simp only [baseOptions, List.mem_cons, List.not_mem_nil, or_false] at ho
  obtain rfl | rfl | rfl := ho
  · exact ⟨by simp, by simp, by simp⟩
  · exact ⟨by simp, by simp, by simp [hmac]⟩
  · exact ⟨by decide, by decide, by decide⟩

theorem length_baseOptions (messageType : UInt8) (hmac : mac.length = 6) :
    ((baseOptions mac messageType).flatMap optionBytes).length = 16 := by
  simp only [baseOptions, optionBytes, List.flatMap_cons, List.flatMap_nil, List.length_append,
    List.length_cons, List.length_nil, hmac, length_put16]

/-- **A DISCOVER carries its options.** -/
theorem dhcpBuildDiscover_options (hcap : 300 ≤ cap) (hmac : mac.length = 6) :
    ∃ packet, dhcpBuildDiscover cap xid mac = some packet ∧
      Survives packet xid mac (baseOptions mac orionDhcpDiscover ++ [requestedOption]) := by
  obtain ⟨fixed, hbase, hfixed, hxid, hchaddr⟩ := dhcpBase_eq xid orionDhcpDiscover hcap hmac
  have hlen := length_baseOptions orionDhcpDiscover hmac
  obtain ⟨packet, hpacket, hcarries⟩ := dhcpFinish_carries hcap hfixed hxid hchaddr
    (writable_base orionDhcpDiscover hmac) (by omega)
  exact ⟨packet, by rw [dhcpBuildDiscover, hbase]; exact hpacket, hcarries⟩

/-- **A REQUEST carries its options**, with the address and the server that it was given. -/
theorem dhcpBuildRequest_options {ip server : List UInt8} (hcap : 300 ≤ cap) (hmac : mac.length = 6)
    (hip : ip.length = 4) (hserver : server.length = 4) :
    ∃ packet, dhcpBuildRequest cap xid mac ip server = some packet ∧
      Survives packet xid mac
        (baseOptions mac orionDhcpRequest ++ [(50, ip), (54, server)] ++ [requestedOption]) := by
  obtain ⟨fixed, hbase, hfixed, hxid, hchaddr⟩ := dhcpBase_eq xid orionDhcpRequest hcap hmac
  have hlen := length_baseOptions orionDhcpRequest hmac
  have hos : ∀ o ∈ baseOptions mac orionDhcpRequest ++ [(50, ip), (54, server)], Writable o := by
    intro o ho
    simp only [List.mem_append, List.mem_cons, List.not_mem_nil, or_false] at ho
    obtain ho | rfl | rfl := ho
    · exact writable_base orionDhcpRequest hmac o ho
    · exact ⟨by simp, by simp, by simp [hip]⟩
    · exact ⟨by simp, by simp, by simp [hserver]⟩
  have hmore : ([(50, ip), (54, server)] : List (UInt8 × List UInt8)).flatMap optionBytes =
      [50, 4] ++ ip ++ ([54, 4] ++ server) := by
    simp [optionBytes, hip, hserver]
  have hbytes : (baseOptions mac orionDhcpRequest ++ [(50, ip), (54, server)]).flatMap optionBytes =
      (baseOptions mac orionDhcpRequest).flatMap optionBytes ++ ([50, 4] ++ ip ++ ([54, 4] ++ server)) := by
    rw [List.flatMap_append, hmore]
  obtain ⟨packet, hpacket, hcarries⟩ := dhcpFinish_carries hcap hfixed hxid hchaddr hos (by
    rw [hbytes, List.length_append, hlen]
    simp only [List.length_append, List.length_cons, List.length_nil, hip, hserver]
    omega)
  refine ⟨packet, ?_, hcarries⟩
  have hroom : ¬ (fixed ++ (baseOptions mac orionDhcpRequest).flatMap optionBytes).length + 12 >
      dhcpPacketMin := by
    rw [List.length_append, hfixed, hlen, dhcpPacketMin]
    omega
  rw [hbytes] at hpacket
  rw [dhcpBuildRequest, hbase]
  show (if (fixed ++ (baseOptions mac orionDhcpRequest).flatMap optionBytes).length + 12 > dhcpPacketMin
    then none else _) = some packet
  rw [if_neg hroom]
  simpa only [List.append_assoc] using hpacket

end

/-! ## The frame -/

/-- The checks of `dhcp_rx` on the three layers of headers, for a datagram between two ports: where its
payload starts and how long it is. -/
def dhcpUdp (fromPort toPort : ℕ) (frame : Buffer) : Traced ℕ (Option (ℕ × ℕ)) :=
  if frame.len < 14 + 20 + 8 then pure none
  else do
    let type ← get16 frame.mem 12
    if type ≠ 0x0800 then pure none
    else do
      let ipLen := frame.len - 14
      let vhl ← read frame.mem 14
      let proto ← read frame.mem (14 + 9)
      if vhl.toNat / 16 ≠ 4 ∨ proto ≠ 17 then pure none
      else do
        let ihl := vhl.toNat % 16 * 4
        if ihl < 20 ∨ ihl > ipLen then pure none
        else do
          let total ← get16 frame.mem (14 + 2)
          if total < ihl + 8 ∨ total > ipLen then pure none
          else do
            let udp := 14 + ihl
            let udpAvail := total - ihl
            let udpLen ← get16 frame.mem (udp + 4)
            let sport ← get16 frame.mem udp
            let dport ← get16 frame.mem (udp + 2)
            if sport ≠ fromPort ∨ dport ≠ toPort then pure none
            else if udpLen < 8 ∨ udpLen > udpAvail then pure none
            else pure (some (udp + 8, udpLen - 8))

theorem guard_bind {α β : Type*} {c : Prop} [Decidable c] (x : Option α) (f : α → Option β) :
    (if c then none else x).bind f = if c then none else x.bind f := by
  split <;> rfl

/-- They are what `dhcp_rx` does before it parses, with a server's port and the client's. -/
theorem dhcpReply_eq (xid : ℕ) (mac : List UInt8) (frame : Buffer) :
    (dhcpReply xid mac frame).value = (dhcpUdp 67 68 frame).value.bind fun r =>
      (dhcpParseReply frame.mem r.1 r.2 xid mac).value := by
  unfold dhcpReply dhcpUdp
  simp only [value_ite, value_bind, value_pure, guard_bind, Option.bind_some]

theorem span_ofBytes (pre s : List UInt8) {n : ℕ} (h : pre.length = n) :
    span (Buffer.ofBytes (pre ++ s)).mem n s.length = s := by
  refine List.ext_getElem (length_span _ _ _) fun i hi hi' => ?_
  simp only [span, Buffer.ofBytes, List.getElem_map, List.getElem_range]
  rw [List.getD_append_right _ _ _ _ (by omega), ← h, Nat.add_sub_cancel_left,
    List.getD_eq_getElem _ _ hi']

/-- **A broadcast is taken apart into its payload.** -/
theorem dhcpUdp_broadcast {mac payload : List UInt8} (ipId : ℕ) (hmac : mac.length = 6)
    (hlen : payload.length ≤ 1472) :
    (dhcpUdp 68 67 (Buffer.ofBytes (broadcastFrame mac ipId payload))).value =
        some (42, payload.length) ∧
      span (Buffer.ofBytes (broadcastFrame mac ipId payload)).mem 42 payload.length = payload := by
  obtain ⟨a, t, rfl⟩ := List.exists_of_length_succ mac hmac
  obtain ⟨b, t, rfl⟩ := List.exists_of_length_succ t (Nat.succ.inj hmac)
  obtain ⟨c, d, e, f, rfl⟩ := List.length_eq_four.mp (Nat.succ.inj (Nat.succ.inj hmac))
  generalize hframe : broadcastFrame [a, b, c, d, e, f] ipId payload = frame
  rw [broadcastFrame, ipHeader] at hframe
  have hmem : (Buffer.ofBytes frame).mem = fun i => frame.getD i 0 := rfl
  have hsize : (Buffer.ofBytes frame).len = 42 + payload.length := by
    show frame.length = _
    rw [← hframe]
    simp only [List.length_append, List.length_cons, List.length_nil, length_put16]
  have htype : (get16 (Buffer.ofBytes frame).mem 12).value = 0x0800 := by
    rw [hmem, ← hframe]
    simp [value_get16, put16]
  have hvhl : (Buffer.ofBytes frame).mem 14 = 0x45 := by
    rw [hmem, ← hframe]
    simp [put16]
  have hproto : (Buffer.ofBytes frame).mem (14 + 9) = 17 := by
    rw [hmem, ← hframe]
    simp [put16]
  have htotal : (get16 (Buffer.ofBytes frame).mem (14 + 2)).value = 20 + 8 + payload.length := by
    refine get16_of_put16 ?_ (by omega)
    rw [hmem, ← hframe]
    simp [put16]
  have hudp : (get16 (Buffer.ofBytes frame).mem (14 + 20 + 4)).value = 8 + payload.length := by
    refine get16_of_put16 ?_ (by omega)
    rw [hmem, ← hframe]
    simp [put16]
  have hsport : (get16 (Buffer.ofBytes frame).mem (14 + 20)).value = 68 := by
    rw [hmem, ← hframe]
    simp [value_get16, put16]
  have hdport : (get16 (Buffer.ofBytes frame).mem (14 + 20 + 2)).value = 67 := by
    rw [hmem, ← hframe]
    simp [value_get16, put16]
  have hihl : (0x45 : UInt8).toNat % 16 * 4 = 20 := rfl
  constructor
  · unfold dhcpUdp
    simp only [value_ite, value_bind, value_pure, value_read, hsize, htype, hvhl, hproto, htotal, hihl,
      hudp, hsport, hdport]
    rw [if_neg (by omega), if_neg (by decide), if_neg (by decide), if_neg (by omega), if_neg (by omega),
      if_neg (by decide), if_neg (by omega)]
    rw [show 8 + payload.length - 8 = payload.length by omega]
  · rw [← hframe]
    exact span_ofBytes _ _ rfl

/-- **DHCP messages survive encapsulation and decode back.** -/
theorem dhcp_messages_survive (xid : ℕ) (mac : List UInt8) (hmac : mac.length = 6) :
    (∀ cap ip server, 300 ≤ cap → ip.length = 4 → server.length = 4 →
      ∃ packet, dhcpBuildRequest cap xid mac ip server = some packet ∧ Survives packet xid mac
        [(53, [orionDhcpRequest]), (61, 1 :: mac), (57, put16 576), (50, ip), (54, server),
          (55, [1, 3, 6, 51])]) ∧
    (∀ cap, 300 ≤ cap → ∃ packet, dhcpBuildDiscover cap xid mac = some packet ∧ Survives packet xid mac
      [(53, [orionDhcpDiscover]), (61, 1 :: mac), (57, put16 576), (55, [1, 3, 6, 51])]) ∧
    ∀ payload s, payload.length ≤ 1472 → s.dhcpMac = mac → ∃ frame p,
      (dhcpSendBroadcast payload s).events = s.events ++ [.sent frame] ∧
      (dhcpUdp 68 67 (Buffer.ofBytes frame)).value = some (p, payload.length) ∧
      span (Buffer.ofBytes frame).mem p payload.length = payload := by
  refine ⟨fun cap ip server hcap hip hserver => dhcpBuildRequest_options hcap hmac hip hserver,
    fun cap hcap => dhcpBuildDiscover_options hcap hmac, fun payload s hlen hs => ?_⟩
  refine ⟨broadcastFrame s.dhcpMac s.dhcpIpId payload, 42, ?_, dhcpUdp_broadcast _ (hs ▸ hmac) hlen⟩
  rw [dhcpSendBroadcast, if_neg (by omega)]

/-- An address whose bytes are option codes and end marks. -/
theorem dhcp_messages_survive_codes :
    ∃ packet, dhcpBuildRequest 300 7 [255, 53, 0, 61, 255, 54] [50, 255, 0, 4] [255, 255, 55, 4] =
      some packet ∧ ∃ n, Options (packet.drop 240) [(53, [3]), (61, [1, 255, 53, 0, 61, 255, 54]),
        (57, [2, 64]), (50, [50, 255, 0, 4]), (54, [255, 255, 55, 4]), (55, [1, 3, 6, 51])]
        (255 :: List.replicate n 0) := by
  obtain ⟨packet, hpacket, hcarries⟩ := (dhcp_messages_survive 7 [255, 53, 0, 61, 255, 54] rfl).1 300
    [50, 255, 0, 4] [255, 255, 55, 4] le_rfl rfl rfl
  obtain ⟨n, hn⟩ := hcarries.options
  exact ⟨packet, hpacket, n, (hn _ _).mpr ⟨rfl, rfl⟩⟩

end Orion.Dhcp
