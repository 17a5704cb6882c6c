import Orion.Lib.Logged
import Orion.Net.Handlers
import Orion.Net.Trace

/-!
# Looking up the next hop

`handle_arp` keeps one hardware address, that of the gateway.  What it holds is the address in the
last ARP packet that came from the gateway (`Heard.gateway`), and `resolve_next_hop` waits for this
address only, so it finds every destination behind the gateway and no other neighbour
(`next_hop_iff`).
-/

namespace Orion.Net

open Orion.Traced Orion.Lib

/-! ## What was heard -/

/-- Addresses and the gateway's entry are the same. -/
structure SameHop (s t : State) : Prop where
  ipAddr : t.ipAddr = s.ipAddr
  netmask : t.netmask = s.netmask
  gateway : t.gateway = s.gateway
  gatewayMac : t.gatewayMac = s.gatewayMac
  gatewayMacValid : t.gatewayMacValid = s.gatewayMacValid

theorem SameHop.refl (s : State) : SameHop s s := ⟨rfl, rfl, rfl, rfl, rfl⟩

/-- A frame with the ARP packet is handled. -/
def HandlesArp (w : World) (x : ArpPacket) (s t : State) : Prop :=
  (∃ k, ∃ frame ∈ w.frames k, arpAt frame.mem 14 (frame.len - 14) = some x) ∧ t = arpInput w x s

/-- A run with the ARP packets that are handled in it, in order. -/
def Heard (w : World) (s : State) (log : List ArpPacket) (t : State) : Prop :=
  Logged (HandlesArp w) SameHop s log t

/-- The hardware address in the last packet from an address. -/
def lastFrom (ip : List UInt8) (log : List ArpPacket) : Option (List UInt8) :=
  (log.reverse.find? fun x => x.ip = ip).map (·.mac)

theorem lastFrom_concat (ip : List UInt8) (log : List ArpPacket) (x : ArpPacket) :
    lastFrom ip (log ++ [x]) = if x.ip = ip then some x.mac else lastFrom ip log := by
  unfold lastFrom
  rw [List.reverse_append, List.reverse_singleton, List.singleton_append, List.find?_cons]
  by_cases hx : x.ip = ip
  · simp [hx]
  · simp [hx]

theorem sendArpReply_sameHop (w : World) (mac ip : List UInt8) (s : State) :
    SameHop s (sendArpReply w mac ip s) := by
  obtain ⟨txCount, sent, heq⟩ := ethTx_eq w (arpFrame s mac 2 mac ip) s
  rw [sendArpReply, heq]
  exact ⟨rfl, rfl, rfl, rfl, rfl⟩

/-- The gateway's entry. -/
def State.hop (s : State) : Option (List UInt8) :=
  if s.gatewayMacValid then some s.gatewayMac else none

theorem SameHop.hop {s t : State} (h : SameHop s t) : t.hop = s.hop := by
  unfold State.hop
  rw [h.gatewayMac, h.gatewayMacValid]

theorem arpInput_hop (w : World) (x : ArpPacket) (s : State) :
    (arpInput w x s).gateway = s.gateway ∧ (arpInput w x s).ipAddr = s.ipAddr ∧
      (arpInput w x s).netmask = s.netmask ∧
      (arpInput w x s).hop = if x.ip = s.gateway then some x.mac else s.hop := by
  have hlearn : (learn x s).gateway = s.gateway ∧ (learn x s).ipAddr = s.ipAddr ∧
      (learn x s).netmask = s.netmask ∧
      (learn x s).hop = if x.ip = s.gateway then some x.mac else s.hop := by
    unfold learn
    split
    · exact ⟨rfl, rfl, rfl, rfl⟩
    · exact ⟨rfl, rfl, rfl, rfl⟩
  unfold arpInput
  split
  · have hsame := sendArpReply_sameHop w x.mac x.ip (learn x s)
    rw [hsame.gateway, hsame.ipAddr, hsame.netmask, hsame.hop]
    exact hlearn
  · exact hlearn

/-- **The gateway's entry** is from the last packet that came from the gateway. -/
theorem Heard.gateway {w : World} {s t : State} {log : List ArpPacket} (h : Heard w s log t) :
    t.gateway = s.gateway ∧ t.hop = (lastFrom s.gateway log).or s.hop := by
  induction h with
  | start => exact ⟨rfl, rfl⟩
  | event x _ hx ih =>
    obtain ⟨hgateway, hhop⟩ := ih
    obtain ⟨-, rfl⟩ := hx
    obtain ⟨hg, -, -, hnew⟩ := arpInput_hop w x _
    refine ⟨hg.trans hgateway, ?_⟩
    rw [hnew, hgateway, hhop, lastFrom_concat]
    split <;> rfl
  | silent _ hs ih => exact ⟨hs.gateway.trans ih.1, hs.hop.trans ih.2⟩

/-! ## Every run is heard -/

theorem heard_tcpRel (w : World) :
    TcpRel w (fun _ _ _ _ => True) fun s t => ∃ log, Heard w s log t where
  trans := by
    rintro s t u ⟨log, h⟩ ⟨log', h'⟩
    exact ⟨log ++ log', h.trans h'⟩
  idle s _ _ _ _ := ⟨[], .of_silent ⟨rfl, rfl, rfl, rfl, rfl⟩⟩
  request s target := by
    obtain ⟨txCount, sent, heq⟩ := sendArpRequest_eq w target s
    rw [heq]
    exact ⟨[], .of_silent ⟨rfl, rfl, rfl, rfl, rfl⟩⟩
  packet := by
    intro s u proto dest payload _ _ _
    obtain ⟨ipId, txCount, sent, heq⟩ := packetSent_eq w proto dest payload u
    rw [heq]
    exact ⟨[], .of_silent ⟨rfl, rfl, rfl, rfl, rfl⟩⟩
  vars s _ _ _ _ _ := ⟨[], .of_silent ⟨rfl, rfl, rfl, rfl, rfl⟩⟩
  segment _ _ _ := trivial

theorem heard_handleRel (w : World) :
    HandleRel w (fun _ _ _ _ => True) fun s t => ∃ log, Heard w s log t where
  toSendRel := (heard_tcpRel w).toSendRel
  echo _ _ _ _ _ _ := trivial
  arp := by
    intro k frame s hframe _
    rw [handleArp_value]
    cases hx : arpAt frame.mem 14 (frame.len - 14) with
    | none => exact ⟨[], .start⟩
    | some x => exact ⟨[x], .of_event ⟨⟨k, frame, hframe, hx⟩, rfl⟩⟩
  udp := by
    intro k frame s y _ _
    obtain ⟨done, answer, heq⟩ := handleUdp_eq frame.mem y.pl y.plen s
    rw [heq]
    exact ⟨[], .of_silent ⟨rfl, rfl, rfl, rfl, rfl⟩⟩
  tcp hpoll hframe hpass h := (heard_tcpRel w).toSegmentRel.handleTcp hpoll hframe hpass h

theorem lastFrom_append (ip : List UInt8) (log log' : List ArpPacket) :
    lastFrom ip (log ++ log') = (lastFrom ip log').or (lastFrom ip log) := by
  unfold lastFrom
  rw [List.reverse_append, List.find?_append]
  cases log'.reverse.find? fun x => decide (x.ip = ip) <;> simp

/-! ## What is found -/

section

variable {w : World} {poll : State → Option State} {fuel : ℕ} {dest : List UInt8} {s t : State}

/-- Giving up, the loop has not seen the address of its target. -/
theorem resolveLoop_none {target : List UInt8} {st : ℕ} :
    ∀ {fuel last : ℕ} {s : State}, ¬ (target = s.gateway ∧ s.gatewayMacValid = true) →
      resolveLoop w poll target st fuel last s = some (none, t) →
      ¬ (target = t.gateway ∧ t.gatewayMacValid = true) := by
  intro fuel
  induction fuel with
  | zero =>
    intro last s _ h
    simp [resolveLoop] at h
  | succ fuel ih =>
    intro last s hs h
    obtain ⟨a, b, last', hturn, -, -, hvalid, hgateway⟩ :=
      resolveLoop_succ (heard_tcpRel w).toSendRel poll target st fuel last s
    rw [hturn] at h
    split at h
    · obtain rfl : a = t := by simpa using h
      rw [hvalid, hgateway]
      exact hs
    · obtain ⟨u, -, hrest⟩ := Option.bind_eq_some_iff.mp h
      split at hrest
      · simp at hrest
      · rename_i hnot
        exact ih hnot hrest

theorem resolveNextHop_none (h : resolveNextHop w poll fuel dest s = some (none, t))
    (hdest : dest = s.gateway) : ¬ (dest = t.gateway ∧ t.gatewayMacValid = true) := by
  unfold resolveNextHop at h
  have htarget : (if sameSubnet s dest s.ipAddr then dest else s.gateway) = dest := by
    rw [← hdest]
    exact ite_self _
  rw [htarget] at h
  simp only at h
  split at h
  · simp at h
  · rename_i hnot
    obtain ⟨c, hc⟩ := nowMs_eq w s
    rw [hc] at h
    exact resolveLoop_none (s := { s with clock := c }) hnot h

/-- What was found is the gateway's entry. -/
theorem resolveNextHop_hop {nh : List UInt8}
    (h : resolveNextHop w (netPoll w fuel) fuel dest s = some (some nh, t)) : t.hop = some nh := by
  have hmac := ((heard_tcpRel w).toSendRel.resolveNextHop
    ((heard_handleRel w).netPoll fuel) h).2 nh rfl
  rw [State.hop, (resolveNextHop_some h).2, hmac]
  rfl

end

/-! ## Turns of the loop -/

/-- A turn up to its poll: the clock, and a request when none was sent for 500 ms.  The number is the time
of the last request. -/
def ask (w : World) (target : List UInt8) (last : ℕ) (s : State) : ℕ × State :=
  let (n, s) := nowMs w s
  if last = 0xffffffff ∨ sub32 n last > 500 then (n, sendArpRequest w target s) else (last, s)

/-- The loop has gone on for `k` turns, in which the time was not up and the target was not found. -/
inductive Turns (w : World) (poll : State → Option State) (target : List UInt8) (st : ℕ) :
    ℕ → ℕ × State → ℕ × State → Prop
  | start (p : ℕ × State) : Turns w poll target st 0 p p
  | turn {k last : ℕ} {s u : State} {p : ℕ × State} (hearly : (elapsed w st 2500 s).1 = false)
      (hpoll : poll (ask w target last (elapsed w st 2500 s).2).2 = some u)
      (hunknown : ¬ (target = u.gateway ∧ u.gatewayMacValid = true))
      (hrest : Turns w poll target st k ((ask w target last (elapsed w st 2500 s).2).1, u) p) :
      Turns w poll target st (k + 1) (last, s) p

section

variable {w : World} {poll : State → Option State} {target : List UInt8} {st : ℕ}

/-- A turn in which the time is not up. -/
theorem resolveLoop_turn {last : ℕ} {s : State} (fuel : ℕ) (hearly : (elapsed w st 2500 s).1 = false) :
    resolveLoop w poll target st (fuel + 1) last s =
      (poll (ask w target last (elapsed w st 2500 s).2).2).bind fun u =>
        if target = u.gateway ∧ u.gatewayMacValid then some (some u.gatewayMac, u)
        else resolveLoop w poll target st fuel (ask w target last (elapsed w st 2500 s).2).1 u := by
  obtain ⟨late, b, helapsed⟩ : ∃ late b, elapsed w st 2500 s = (late, b) := ⟨_, _, rfl⟩
  obtain ⟨n, c, hnow⟩ : ∃ n c, nowMs w b = (n, c) := ⟨_, _, rfl⟩
  rw [helapsed] at hearly ⊢
  obtain rfl : late = false := hearly
  rw [resolveLoop, ask]
  simp only [helapsed, hnow, Bool.false_eq_true, if_false, decide_eq_true_eq]
  by_cases hask : last = 0xffffffff ∨ sub32 n last > 500
  · simp only [if_pos hask]
    rfl
  · simp only [if_neg hask]
    rfl

/-- After the turns the loop goes on from where they led. -/
theorem Turns.resolveLoop {k : ℕ} {p q : ℕ × State} (h : Turns w poll target st k p q) (fuel : ℕ) :
    resolveLoop w poll target st (k + fuel) p.1 p.2 = resolveLoop w poll target st fuel q.1 q.2 := by
  induction h with
  | start p => rw [Nat.zero_add]
  | @turn k last s u p hearly hpoll hunknown hrest ih =>
    rw [Nat.add_right_comm, resolveLoop_turn _ hearly, hpoll, Option.bind_some, if_neg hunknown]
    exact ih

end

theorem nowMs_gateway (w : World) (s : State) : (nowMs w s).2.gateway = s.gateway := by
  obtain ⟨clock, hclock⟩ := nowMs_eq w s
  rw [hclock]

theorem ask_gateway (w : World) (target : List UInt8) (st last : ℕ) (s : State) :
    (ask w target last (elapsed w st 2500 s).2).2.gateway = s.gateway := by
  have helapsed : (elapsed w st 2500 s).2 = (nowMs w s).2 := rfl
  rw [helapsed, ← nowMs_gateway w s, ← nowMs_gateway w (nowMs w s).2, ask]
  obtain ⟨n, c⟩ := nowMs w (nowMs w s).2
  show (if last = 0xffffffff ∨ sub32 n last > 500 then (n, sendArpRequest w target c) else (last, c)).2.gateway =
    c.gateway
  obtain ⟨txCount, sent, hsent⟩ := sendArpRequest_eq w target c
  rw [hsent]
  split <;> rfl

/-- The gateway is the same at the end of the turns. -/
theorem Turns.gateway {w : World} {fuel st k : ℕ} {target : List UInt8} {p q : ℕ × State}
    (h : Turns w (netPoll w fuel) target st k p q) : q.2.gateway = p.2.gateway := by
  induction h with
  | start p => rfl
  | @turn k last s u p hearly hpoll hunknown hrest ih =>
    obtain ⟨log, hlog⟩ := (heard_handleRel w).netPoll fuel _ _ hpoll
    rw [ih, hlog.gateway.1, ask_gateway]

/-! ## The whole subnet -/

/-- What looking up the next hop is for.  A destination on the subnet that sends an ARP packet during
the lookup is found, with its last address; for any other destination only the address that the
gateway announced last, since the gateway was set, is found. -/
structure NextHopWorks (s : State) (dest : List UInt8) : Prop where
  /-- When a packet from the destination is handled in the poll of a turn, the lookup returns in that turn. -/
  found : sameSubnet s dest s.ipAddr = true → ¬ (dest = s.gateway ∧ s.gatewayMacValid = true) →
    ∀ {w : World} {fuel k last : ℕ} {a u : State} {log : List ArpPacket} {mac : List UInt8},
    Turns w (netPoll w fuel) dest (nowMs w s).1 k (0xffffffff, (nowMs w s).2) (last, a) →
      (elapsed w (nowMs w s).1 2500 a).1 = false →
        netPoll w fuel (ask w dest last (elapsed w (nowMs w s).1 2500 a).2).2 = some u →
          Heard w (ask w dest last (elapsed w (nowMs w s).1 2500 a).2).2 log u → lastFrom dest log = some mac →
            ∀ n, resolveNextHop w (netPoll w fuel) (k + (n + 1)) dest s = some (some mac, u)
  near : sameSubnet s dest s.ipAddr = true → ∀ {w : World} {fuel : ℕ} {hop : Option (List UInt8)}
    {t : State} {log : List ArpPacket} {mac : List UInt8},
    resolveNextHop w (netPoll w fuel) fuel dest s = some (hop, t) → Heard w s log t →
      lastFrom dest log = some mac → hop = some mac
  far : sameSubnet s dest s.ipAddr = false → ∀ {w w₀ : World} {fuel : ℕ} {mac : List UInt8}
    {s₀ t : State} {log₀ log : List ArpPacket},
    s₀.gatewayMacValid = false → Heard w₀ s₀ log₀ s →
      resolveNextHop w (netPoll w fuel) fuel dest s = some (some mac, t) → Heard w s log t →
        lastFrom s.gateway (log₀ ++ log) = some mac

theorem nextHop_found {s : State} {dest : List UInt8} (hdest : dest = s.gateway)
    (hnear : sameSubnet s dest s.ipAddr = true) (hunknown : ¬ (dest = s.gateway ∧ s.gatewayMacValid = true))
    {w : World} {fuel k last : ℕ} {a u : State} {log : List ArpPacket} {mac : List UInt8}
    (hturns : Turns w (netPoll w fuel) dest (nowMs w s).1 k (0xffffffff, (nowMs w s).2) (last, a))
    (hearly : (elapsed w (nowMs w s).1 2500 a).1 = false)
    (hpoll : netPoll w fuel (ask w dest last (elapsed w (nowMs w s).1 2500 a).2).2 = some u)
    (hlog : Heard w (ask w dest last (elapsed w (nowMs w s).1 2500 a).2).2 log u)
    (hmac : lastFrom dest log = some mac) (n : ℕ) :
    resolveNextHop w (netPoll w fuel) (k + (n + 1)) dest s = some (some mac, u) := by
  have hgateway : a.gateway = s.gateway := hturns.gateway.trans (nowMs_gateway w s)
  obtain ⟨hkept, hhop⟩ := hlog.gateway
  rw [ask_gateway, hgateway, ← hdest] at hkept hhop
  rw [hmac, Option.some_or, State.hop] at hhop
  have hvalid : u.gatewayMacValid = true := by
    by_contra hnone
    rw [if_neg hnone] at hhop
    cases hhop
  rw [if_pos hvalid] at hhop
  have hloop : resolveLoop w (netPoll w fuel) dest (nowMs w s).1 (k + (n + 1)) 0xffffffff (nowMs w s).2 =
      some (some mac, u) := by
    rw [hturns.resolveLoop (n + 1), resolveLoop_turn n hearly, hpoll, Option.bind_some,
      if_pos ⟨hkept.symm, hvalid⟩, Option.some.inj hhop]
  unfold resolveNextHop
  simp only [hnear, if_true, if_neg hunknown]
  exact hloop

theorem nextHop_near {w : World} {fuel : ℕ} {hop : Option (List UInt8)} {s t : State}
    {log : List ArpPacket} {mac : List UInt8}
    (h : resolveNextHop w (netPoll w fuel) fuel s.gateway s = some (hop, t)) (hlog : Heard w s log t)
    (hmac : lastFrom s.gateway log = some mac) : hop = some mac := by
  obtain ⟨hgateway, hhop⟩ := hlog.gateway
  rw [hmac] at hhop
  have hentry : t.hop = some mac := hhop
  cases hop with
  | some nh => rw [← resolveNextHop_hop h, hentry]
  | none =>
    have hunknown := resolveNextHop_none h rfl
    rw [State.hop] at hentry
    split at hentry
    · rename_i hvalid
      exact absurd ⟨hgateway.symm, hvalid⟩ hunknown
    · simp at hentry

theorem nextHop_far {w w₀ : World} {fuel : ℕ} {dest mac : List UInt8} {s₀ s t : State}
    {log₀ log : List ArpPacket} (hfresh : s₀.gatewayMacValid = false) (hbefore : Heard w₀ s₀ log₀ s)
    (h : resolveNextHop w (netPoll w fuel) fuel dest s = some (some mac, t)) (hlog : Heard w s log t) :
    lastFrom s.gateway (log₀ ++ log) = some mac := by
  obtain ⟨hgateway₀, hhop₀⟩ := hbefore.gateway
  obtain ⟨-, hhop⟩ := hlog.gateway
  have hnone : s₀.hop = none := by
    rw [State.hop, hfresh]
    rfl
  rw [hnone, Option.or_none, ← hgateway₀] at hhop₀
  rw [lastFrom_append, ← hhop₀, ← hhop]
  exact resolveNextHop_hop h

/-! ## A neighbour that is not the gateway -/

/-- The ARP reply of a neighbour. -/
def arpReplyFrame (ip : List UInt8) : Buffer :=
  .ofBytes ([82, 84, 0, 18, 52, 86, 82, 84, 0, 18, 53, 3, 8, 6] ++
    [0, 1, 8, 0, 6, 4, 0, 2, 82, 84, 0, 18, 53, 3] ++ ip ++ [82, 84, 0, 18, 52, 86, 10, 0, 2, 15])

/-- The reply comes with the next poll, and then 2500 ms pass. -/
def neighbourWorld (s : State) (ip : List UInt8) : World :=
  ⟨.x86_64, 1000, fun k => if k < s.clock + 3 then 0 else 2500,
    fun k => if k = s.polls then [arpReplyFrame ip] else [], fun _ => true⟩

/-- The frame is 42 bytes long and holds the packet. -/
theorem arpReplyFrame_packet {ip : List UInt8} (h : ip.length = 4) : (arpReplyFrame ip).len = 42 ∧
    (get16 (arpReplyFrame ip).mem 12).value = ethArp ∧
      arpAt (arpReplyFrame ip).mem 14 28 =
        some ⟨2, [82, 84, 0, 18, 53, 3], ip, [10, 0, 2, 15]⟩ := by
  obtain ⟨a, b, c, d, rfl⟩ : ∃ a b c d, ip = [a, b, c, d] := by
    rcases ip with _ | ⟨a, _ | ⟨b, _ | ⟨c, _ | ⟨d, _ | ⟨e, rest⟩⟩⟩⟩⟩
    all_goals simp at h
    exact ⟨a, b, c, d, rfl⟩
  have hether : (get16 (arpReplyFrame [a, b, c, d]).mem 12).value = ethArp := by
    simp [arpReplyFrame, Buffer.ofBytes, ethArp]
  have htype : (get16 (arpReplyFrame [a, b, c, d]).mem 14).value = 1 := by
    simp [arpReplyFrame, Buffer.ofBytes]
  have hproto : (get16 (arpReplyFrame [a, b, c, d]).mem (14 + 2)).value = 0x0800 := by
    simp [arpReplyFrame, Buffer.ofBytes]
  refine ⟨rfl, hether, ?_⟩
  have hop : (get16 (arpReplyFrame [a, b, c, d]).mem (14 + 6)).value = 2 := by
    simp [arpReplyFrame, Buffer.ofBytes]
  have hlen : (arpReplyFrame [a, b, c, d]).mem (14 + 4) = 6 := rfl
  have hproto' : (arpReplyFrame [a, b, c, d]).mem (14 + 5) = 4 := rfl
  unfold arpAt
  rw [htype, hproto, hlen, hproto', if_neg (by decide), hop]
  rfl

theorem neighbourWorld_ms (s : State) (ip : List UInt8) (k : ℕ) :
    (neighbourWorld s ip).ms k = if k < s.clock + 3 then 0 else 2500 := by
  unfold World.ms neighbourWorld
  simp only
  split <;> rfl

/-- The poll that brings the reply changes no entry. -/
theorem netPoll_reply {s u : State} {ip : List UInt8} (hip : ip.length = 4) (hready : u.ready = true)
    (hpolls : u.polls = s.polls) (hne : ip ≠ u.gateway) : ∃ rxCount,
      netPoll (neighbourWorld s ip) 2 u = some { u with polls := u.polls + 1, rxCount := rxCount } := by
  obtain ⟨hlen, htype, hpacket⟩ := arpReplyFrame_packet hip
  have hframes : (neighbourWorld s ip).frames u.polls = [arpReplyFrame ip] := if_pos hpolls
  have hlearn : ∀ v : State, v.gateway = u.gateway →
      learn ⟨2, [82, 84, 0, 18, 53, 3], ip, [10, 0, 2, 15]⟩ v = v := by
    intro v hv
    exact if_neg (by rw [hv]; exact hne)
  have hinput : ∀ v : State, v.gateway = u.gateway →
      (handleArp (neighbourWorld s ip) (arpReplyFrame ip).mem 14 28 v).value = v := by
    intro v hv
    rw [handleArp_value, hpacket]
    have hnotRequest : ¬ ((2 : ℕ) = 1 ∧ [10, 0, 2, 15] = (learn ⟨2, [82, 84, 0, 18, 53, 3], ip,
        [10, 0, 2, 15]⟩ v).ipAddr) := fun h => absurd h.1 (by decide)
    rw [Option.elim_some, arpInput, if_neg hnotRequest]
    exact hlearn v hv
  have hframe : ∀ v : State, v.gateway = u.gateway → (handleFrame (neighbourWorld s ip)
      (netPoll (neighbourWorld s ip) 1) 1 (arpReplyFrame ip) v).value = some v := by
    intro v hv
    unfold handleFrame
    rw [hlen, if_neg (by decide), value_bind, htype, if_pos rfl, value_bind, hinput v hv]
    rfl
  refine ⟨u64 (u.rxCount + 1), ?_⟩
  rw [netPoll, if_pos hready, hframes, List.foldlM_cons, rxDispatch,
    hframe { u with polls := u.polls + 1 } rfl]
  rfl

/-- **Another neighbour is not found** although it answers. -/
theorem nextHop_neighbour {s : State} {dest : List UInt8} (hready : s.ready = true)
    (hdest : dest.length = 4) (hnear : sameSubnet s dest s.ipAddr = true) (hne : dest ≠ s.gateway) :
    ∃ t log, resolveNextHop (neighbourWorld s dest) (netPoll (neighbourWorld s dest) 2) 2 dest s =
      some (none, t) ∧ Heard (neighbourWorld s dest) s log t ∧
        lastFrom dest log = some [82, 84, 0, 18, 53, 3] := by
  have hhz : ¬ (neighbourWorld s dest).hz = 0 := by
    show ¬ (1000 : ℕ) = 0
    decide
  have hnow : ∀ u : State, nowMs (neighbourWorld s dest) u =
      ((neighbourWorld s dest).ms u.clock, { u with clock := u.clock + 1 }) := fun u => if_neg hhz
  have hearly : ∀ k < s.clock + 3, (neighbourWorld s dest).ms k = 0 := by
    intro k hk
    rw [neighbourWorld_ms, if_pos hk]
  have hlate : (neighbourWorld s dest).ms (s.clock + 3) = 2500 := by
    rw [neighbourWorld_ms, if_neg (by omega)]
  obtain ⟨txCount, sent, hsent⟩ := ethTx_eq (neighbourWorld s dest) (arpFrame { s with clock := s.clock + 3 }
    [255, 255, 255, 255, 255, 255] 1 [0, 0, 0, 0, 0, 0] dest) { s with clock := s.clock + 3 }
  let asked : State := { s with clock := s.clock + 3, txCount := txCount, sent := sent }
  obtain ⟨rxCount, hpoll⟩ := netPoll_reply (s := s) (u := asked) hdest hready rfl hne
  let answered : State := { asked with polls := s.polls + 1, rxCount := rxCount }
  refine ⟨{ answered with clock := s.clock + 4 }, [⟨2, [82, 84, 0, 18, 53, 3], dest, [10, 0, 2, 15]⟩],
    ?_, ?_, ?_⟩
  · have hunknown : ¬ (dest = s.gateway ∧ s.gatewayMacValid = true) := fun h => hne h.1
    have hfirst : resolveLoop (neighbourWorld s dest) (netPoll (neighbourWorld s dest) 2) dest 0 2
        0xffffffff { s with clock := s.clock + 1 } =
        resolveLoop (neighbourWorld s dest) (netPoll (neighbourWorld s dest) 2) dest 0 1 0 answered := by
      have hrequest : sendArpRequest (neighbourWorld s dest) dest { s with clock := s.clock + 3 } = asked :=
        hsent
      have hstart : decide (sub32 0 0 ≥ 2500) = false := by decide
      have hagain : ¬ (dest = answered.gateway ∧ answered.gatewayMacValid = true) := hunknown
      rw [resolveLoop]
      simp only [elapsed, hnow, hearly (s.clock + 1) (by omega), hearly (s.clock + 1 + 1) (by omega),
        hstart, Bool.false_eq_true, if_false, true_or, decide_true, if_true]
      rw [hrequest, hpoll]
      exact if_neg hagain
    have hsecond : resolveLoop (neighbourWorld s dest) (netPoll (neighbourWorld s dest) 2) dest 0 1 0
        answered = some (none, { answered with clock := s.clock + 4 }) := by
      have hclock : answered.clock = s.clock + 3 := rfl
      have hover : decide (sub32 2500 0 ≥ 2500) = true := by decide
      rw [resolveLoop]
      simp only [elapsed, hnow, hclock, hlate, hover, if_true]
    unfold resolveNextHop
    simp only [hnear, if_true, if_neg hunknown, hnow, hearly s.clock (by omega)]
    exact hfirst.trans hsecond
  · have hcalm : SameHop s asked := ⟨rfl, rfl, rfl, rfl, rfl⟩
    have hframe : arpReplyFrame dest ∈ (neighbourWorld s dest).frames s.polls := by
      have hframes : (neighbourWorld s dest).frames s.polls = [arpReplyFrame dest] := if_pos rfl
      rw [hframes]
      exact List.mem_singleton_self _
    obtain ⟨hlen, -, hpacket⟩ := arpReplyFrame_packet hdest
    have hignored : asked = arpInput (neighbourWorld s dest) ⟨2, [82, 84, 0, 18, 53, 3], dest,
        [10, 0, 2, 15]⟩ asked := by
      have hother : learn ⟨2, [82, 84, 0, 18, 53, 3], dest, [10, 0, 2, 15]⟩ asked = asked := if_neg hne
      have hnotRequest : ¬ ((2 : ℕ) = 1 ∧ [10, 0, 2, 15] = (learn ⟨2, [82, 84, 0, 18, 53, 3], dest,
          [10, 0, 2, 15]⟩ asked).ipAddr) := fun h => absurd h.1 (by decide)
      rw [arpInput, if_neg hnotRequest, hother]
    have hheard : Heard (neighbourWorld s dest) s [⟨2, [82, 84, 0, 18, 53, 3], dest, [10, 0, 2, 15]⟩]
        asked := by
      refine Logged.event _ (Logged.of_silent hcalm) ⟨⟨s.polls, _, hframe, ?_⟩, hignored⟩
      rw [hlen]
      exact hpacket
    exact .silent hheard ⟨rfl, rfl, rfl, rfl, rfl⟩
  · simp [lastFrom]

/-- **Which destinations are found.**  Every lookup is a run of the receive path, and it does what it
is for exactly if the destination is off the subnet or is the gateway. -/
theorem next_hop_iff {s : State} {dest : List UInt8} (hready : s.ready = true) (hdest : dest.length = 4) :
    (∀ {w : World} {fuel : ℕ} {hop : Option (List UInt8)} {t : State},
      resolveNextHop w (netPoll w fuel) fuel dest s = some (hop, t) → ∃ log, Heard w s log t) ∧
    (NextHopWorks s dest ↔ (sameSubnet s dest s.ipAddr = true → dest = s.gateway)) := by
  refine ⟨fun {w fuel hop t} h => ?_, fun hworks hnear => ?_, fun hgateway => ⟨?_, ?_, ?_⟩⟩
  · exact ((heard_tcpRel w).toSendRel.resolveNextHop ((heard_handleRel w).netPoll fuel) h).1
  · by_contra hne
    obtain ⟨t, log, hlookup, hheard, hlast⟩ := nextHop_neighbour hready hdest hnear hne
    have hfound := hworks.near hnear hlookup hheard hlast
    simp at hfound
  · intro hnear hunknown w fuel k last a u log mac hturns hearly hpoll hlog hmac n
    obtain rfl := hgateway hnear
    exact nextHop_found rfl hnear hunknown hturns hearly hpoll hlog hmac n
  · intro hnear w fuel hop t log mac h hlog hmac
    obtain rfl := hgateway hnear
    exact nextHop_near h hlog hmac
  · intro _ w w₀ fuel mac s₀ t log₀ log hfresh hbefore h hlog
    exact nextHop_far hfresh hbefore h hlog

/-- The stack with the static profile, before it has heard anything. -/
def freshState : State := { State.boot with mac := [82, 84, 0, 18, 52, 86], ready := true }

set_option maxRecDepth 20000 in
/-- The gateway answers in the first poll of a lookup. -/
theorem next_hop_smoke : NextHopWorks freshState [10, 0, 2, 2] ∧
    (resolveNextHop (neighbourWorld freshState [10, 0, 2, 2]) (netPoll (neighbourWorld freshState [10, 0, 2, 2]) 2)
      2 [10, 0, 2, 2] freshState).map (·.1) = some (some [82, 84, 0, 18, 53, 3]) :=
  ⟨(next_hop_iff rfl rfl).2.mpr fun _ => rfl, by decide⟩

/-- The name server of the static profile is a neighbour that is not found. -/
theorem next_hop_dns : ¬ NextHopWorks freshState [10, 0, 2, 3] := by
  intro hworks
  obtain ⟨t, log, hlookup, hheard, hlast⟩ := @nextHop_neighbour freshState
    [10, 0, 2, 3] rfl rfl (by decide) (by decide)
  have hfound := hworks.near (by decide) hlookup hheard hlast
  simp at hfound

end Orion.Net
