import Mathlib.Data.Fintype.Defs
import Orion.Dhcp.Acquire

/-!
# Agreement with several servers

Any number of servers listen to the broadcasts.  An honest server offers with its own server id, and
acknowledges an address only after a REQUEST that asks for this address and names this server.  The
network may lose, duplicate, delay and reorder its answers: an answer may be stored at any time after
the question, any number of times or never.

The client never compares the server of an ACK with the one it chose.  What keeps leases from being
mixed is that all REQUESTs of a run are one packet, so that one server at most has been asked
(`dhcp_agreement`).
-/

namespace Orion.Dhcp

open Orion.Traced

/-! ## Honest servers -/

/-- Servers, told apart by their server ids. -/
structure Servers (ι : Type*) where
  id : ι → List UInt8
  length_id : ∀ i, (id i).length = 4
  injective : Function.Injective id

/-- One of the frames carries the packet. -/
def Asked (sent : List (List UInt8)) (packet : Option (List UInt8)) : Prop :=
  ∃ f ∈ sent, ∃ p ∈ packet, p <:+ f

/-- An OFFER of the server `id` to a client that sent these frames. -/
def OffersTo (id : List UInt8) (xid : ℕ) (mac : List UInt8) (sent : List (List UInt8))
    (reply : OrionDhcpLease) : Prop :=
  reply.messageType = orionDhcpOffer ∧ reply.haveServer = true ∧ reply.server = id ∧
    Asked sent (dhcpBuildDiscover dhcpPacketMin xid mac)

/-- An ACK of the server `id`: for the address of a REQUEST that names this server. -/
def AcksTo (id : List UInt8) (xid : ℕ) (mac : List UInt8) (sent : List (List UInt8))
    (reply : OrionDhcpLease) : Prop :=
  reply.messageType = orionDhcpAck ∧ (reply.haveServer = true → reply.server = id) ∧
    Asked sent (dhcpBuildRequest dhcpPacketMin xid mac reply.ip id)

/-- Every reply of the record comes from an honest server, given the frames that were sent before it;
`sent` are those before the record. -/
def Honest {ι : Type*} (net : Servers ι) (xid : ℕ) (mac : List UInt8) :
    List (List UInt8) → List Event → Prop
  | _, [] => True
  | sent, .sent f :: rest => Honest net xid mac (sent ++ [f]) rest
  | sent, .stored _ _ reply :: rest =>
    (∃ i, OffersTo (net.id i) xid mac sent reply ∨ AcksTo (net.id i) xid mac sent reply) ∧
      Honest net xid mac sent rest

instance (sent : List (List UInt8)) (packet : Option (List UInt8)) :
    Decidable (Asked sent packet) :=
  inferInstanceAs (Decidable (∃ f ∈ sent, ∃ p ∈ packet, p <:+ f))

instance (id : List UInt8) (xid : ℕ) (mac : List UInt8) (sent : List (List UInt8))
    (reply : OrionDhcpLease) : Decidable (OffersTo id xid mac sent reply) :=
  inferInstanceAs (Decidable (_ ∧ _ ∧ _ ∧ _))

instance (id : List UInt8) (xid : ℕ) (mac : List UInt8) (sent : List (List UInt8))
    (reply : OrionDhcpLease) : Decidable (AcksTo id xid mac sent reply) :=
  inferInstanceAs (Decidable (_ ∧ _ ∧ _))

instance Honest.decidable {ι : Type*} [Fintype ι] (net : Servers ι) (xid : ℕ) (mac : List UInt8) :
    ∀ (sent : List (List UInt8)) (log : List Event), Decidable (Honest net xid mac sent log)
  | _, [] => inferInstanceAs (Decidable True)
  | sent, .sent f :: rest => Honest.decidable net xid mac (sent ++ [f]) rest
  | sent, .stored _ _ reply :: rest =>
    have := Honest.decidable net xid mac sent rest
    inferInstanceAs (Decidable ((∃ i, OffersTo (net.id i) xid mac sent reply ∨
      AcksTo (net.id i) xid mac sent reply) ∧ Honest net xid mac sent rest))

theorem Asked.mono {sent more : List (List UInt8)} {packet : Option (List UInt8)}
    (h : Asked sent packet) : Asked (sent ++ more) packet := by
  obtain ⟨f, hf, hp⟩ := h
  exact ⟨f, List.mem_append_left _ hf, hp⟩

/-- Every stored reply has a server behind it. -/
theorem Honest.of_mem {ι : Type*} {net : Servers ι} {xid : ℕ} {mac : List UInt8} {phase : ℤ}
    {frame : Buffer} {reply : OrionDhcpLease} {log : List Event} :
    ∀ {sent : List (List UInt8)}, Honest net xid mac sent log → .stored phase frame reply ∈ log →
      ∃ i, OffersTo (net.id i) xid mac (sent ++ sentFrames log) reply ∨
        AcksTo (net.id i) xid mac (sent ++ sentFrames log) reply := by
  induction log with
  | nil => simp
  | cons e rest ih =>
    intro sent h hmem
    cases e with
    | sent f =>
      obtain hmem : .stored phase frame reply ∈ rest := by simpa using hmem
      have hi := ih h hmem
      rwa [List.append_assoc] at hi
    | stored phase' frame' reply' =>
      rcases List.mem_cons.mp hmem with heq | hmem
      · obtain ⟨rfl, rfl, rfl⟩ : phase = phase' ∧ frame = frame' ∧ reply = reply' := by
          simpa using heq
        obtain ⟨i, ⟨ht, hh, hs, hask⟩ | ⟨ht, hs, hask⟩⟩ := h.1
        · exact ⟨i, .inl ⟨ht, hh, hs, hask.mono⟩⟩
        · exact ⟨i, .inr ⟨ht, hs, hask.mono⟩⟩
      · exact ih h.2 hmem

/-! ## The packets -/

/-- A DISCOVER is no REQUEST. -/
theorem discover_ne_request {cap xid : ℕ} {mac ip server p : List UInt8}
    (hd : dhcpBuildDiscover cap xid mac = some p) :
    dhcpBuildRequest cap xid mac ip server ≠ some p := by
  intro hr
  obtain ⟨b, hb, hfin⟩ := dhcpBuildDiscover_some hd
  obtain ⟨b', hb', hfin'⟩ := dhcpBuildRequest_some hr
  unfold dhcpBase at hb hb'
  split at hb
  · simp at hb
  split at hb'
  · simp at hb'
  obtain rfl := Option.some.inj hb
  obtain rfl := Option.some.inj hb'
  have heq := (dhcpFinish_some hfin).2.symm.trans (dhcpFinish_some hfin').2
  simp only [List.append_assoc, List.append_cancel_left_eq, List.cons_append, List.nil_append,
    List.cons.injEq, true_and, orionDhcpDiscover, orionDhcpRequest] at heq
  exact absurd heq.1 (by decide)

/-- A REQUEST determines the address and the server it names. -/
theorem request_injective {cap xid : ℕ} {mac ip ip' server server' p : List UInt8}
    (h : dhcpBuildRequest cap xid mac ip server = some p)
    (h' : dhcpBuildRequest cap xid mac ip' server' = some p) (hip : ip.length = ip'.length)
    (hserver : server.length = server'.length) : ip = ip' ∧ server = server' := by
  obtain ⟨b, hb, hfin⟩ := dhcpBuildRequest_some h
  obtain ⟨b', hb', hfin'⟩ := dhcpBuildRequest_some h'
  obtain rfl := Option.some.inj (hb.symm.trans hb')
  have heq := (dhcpFinish_some hfin).2.symm.trans (dhcpFinish_some hfin').2
  simp only [List.append_assoc, List.append_cancel_left_eq] at heq
  obtain ⟨hips, hrest⟩ := List.append_inj heq hip
  simp only [List.append_cancel_left_eq] at hrest
  exact ⟨hips, (List.append_inj hrest hserver).1⟩

/-- The payload of a broadcast is the packet that it carries. -/
theorem broadcastFrame_carries {mac p q : List UInt8} {ipId : ℕ}
    (h : p <:+ broadcastFrame mac ipId q) (hlen : p.length = q.length) : p = q := by
  have hq : q <:+ broadcastFrame mac ipId q := List.suffix_append _ _
  exact (List.suffix_of_suffix_length_le h hq hlen.le).eq_of_length hlen

/-! ## The address of a reply -/

theorem dhcpOption_ip (mem : ℕ → UInt8) (lease : OrionDhcpLease) (code n : UInt8) (v : ℕ) :
    (dhcpOption mem lease code n v).value.ip = lease.ip := by
  unfold dhcpOption
  repeat' split
  all_goals rfl

theorem dhcpOptions_ip {mem : ℕ → UInt8} {p len : ℕ} {reply : OrionDhcpLease} :
    ∀ {fuel o : ℕ} {lease : OrionDhcpLease},
      (dhcpOptions mem p len fuel o lease).value = some reply → reply.ip = lease.ip := by
  intro fuel
  induction fuel with
  | zero =>
    intro o lease h
    rw [← Option.some.inj h]
  | succ fuel ih =>
    intro o lease h
    rw [dhcpOptions, value_ite] at h
    split at h
    · rw [value_bind, value_ite, value_ite, value_ite] at h
      split at h
      · exact ih h
      split at h
      · rw [← Option.some.inj h]
      split at h
      · simp at h
      rw [value_bind, value_ite] at h
      split at h
      · simp at h
      exact (ih h).trans (dhcpOption_ip _ _ _ _ _)
    · rw [← Option.some.inj h]

theorem dhcpReply_ip_length {xid : ℕ} {mac : List UInt8} {frame : Buffer} {reply : OrionDhcpLease}
    (h : (dhcpReply xid mac frame).value = some reply) : reply.ip.length = 4 := by
  obtain ⟨len, hparse⟩ := dhcpReply_parse h
  unfold dhcpParseReply at hparse
  split at hparse
  · simp at hparse
  rw [value_bind, value_bind] at hparse
  obtain ⟨-, hparse⟩ := guard_some hparse
  obtain ⟨-, hparse⟩ := guard_some hparse
  obtain ⟨-, hparse⟩ := guard_some hparse
  obtain ⟨-, hparse⟩ := guard_some hparse
  rw [value_bind, value_bind] at hparse
  split at hparse
  · simp at hparse
  · next l hl =>
    rw [value_ite] at hparse
    split at hparse
    · obtain rfl := Option.some.inj hparse
      rw [dhcpOptions_ip hl]
      simp
    · simp at hparse

/-! ## Agreement -/

section

variable {ι : Type*} {net : Servers ι} {s₁ t s₂ s₃ : State} {new : OrionDhcpLease}
  {packet request : List UInt8} {log₁ log₂ : List Event}

/-- **One server at most has been asked**, and for one address. -/
theorem Exchange.asked (h : Exchange s₁ new t s₂ s₃ packet request log₁ log₂) {ip : List UInt8}
    (hip : ip.length = s₂.dhcpRxLease.ip.length) {server : List UInt8}
    (hserver : server.length = s₂.dhcpRxLease.server.length)
    (hasked : Asked (sentFrames (log₁ ++ log₂))
      (dhcpBuildRequest dhcpPacketMin s₁.dhcpXid s₁.dhcpMac ip server)) :
    ip = s₂.dhcpRxLease.ip ∧ server = s₂.dhcpRxLease.server := by
  obtain ⟨f, hf, p, hp, hsuffix⟩ := hasked
  have hlen := dhcpBuildRequest_length hp
  have hmem : .sent f ∈ log₁ ++ log₂ := by
    obtain ⟨e, he, hef⟩ := List.mem_filterMap.mp hf
    cases e with
    | sent f' => exact (Option.some.inj hef) ▸ he
    | stored _ _ _ => simp at hef
  rcases List.mem_append.mp hmem with hmem | hmem
  · -- the frames of the first wait carry the DISCOVER
    obtain ⟨ipId, rfl⟩ := h.phase₁.eventOk _ hmem
    obtain rfl := broadcastFrame_carries hsuffix
      (hlen.trans (dhcpBuildDiscover_length h.discover).symm)
    exact absurd hp (discover_ne_request h.discover)
  · obtain ⟨ipId, rfl⟩ := h.phase₂.eventOk _ hmem
    obtain rfl := broadcastFrame_carries hsuffix
      (hlen.trans (dhcpBuildRequest_length h.built).symm)
    exact request_injective hp h.built hip hserver

end

/-- **Agreement.**  When `dhcp_acquire` succeeds in a network of honest servers, the lease is made of
an OFFER and an ACK of one server; every REQUEST of the run names this server and the address of the
lease, and the server has acknowledged this address to this hardware address. -/
theorem dhcp_agreement {ι : Type*} (net : Servers ι) {w : World} {fuel : ℕ} {mac : List UInt8}
    {timeoutMs : ℕ} {lease new : OrionDhcpLease} {s t : State} {log : List Event}
    (h : dhcpAcquire w fuel mac timeoutMs lease s = some (true, new, t))
    (hlog : t.events = s.events ++ log)
    (hhonest : Honest net (beginExchange w mac s).dhcpXid mac [] log) :
    let xid := (beginExchange w mac s).dhcpXid
    ∃ i offer ack offerFrame ackFrame,
      .stored 1 offerFrame offer ∈ log ∧ Carries xid mac offerFrame ∧
      OffersTo (net.id i) xid mac (sentFrames log) offer ∧
      .stored 2 ackFrame ack ∈ log ∧ Carries xid mac ackFrame ∧
      AcksTo (net.id i) xid mac (sentFrames log) ack ∧
      new = leaseOverlay offer ack ∧ new.server = net.id i ∧ new.ip = offer.ip ∧
      new.ip = ack.ip ∧
      ∀ j ip, ip.length = 4 →
        Asked (sentFrames log) (dhcpBuildRequest dhcpPacketMin xid mac ip (net.id j)) →
        j = i ∧ ip = new.ip := by
  intro xid
  rcases dhcpAcquire_cases h with
    ⟨hfalse, -⟩ | ⟨-, -, s₂, s₃, packet, request, log₁, log₂, hex⟩
  · simp at hfalse
  have hmac : (beginExchange w mac s).dhcpMac = mac := rfl
  have hevents : t.events = s.events ++ (log₁ ++ log₂) := by
    rw [hex.final, ← List.append_assoc]
    exact hex.phase₂.events.trans (congrArg (· ++ log₂) hex.phase₁.events)
  obtain rfl : log = log₁ ++ log₂ := List.append_cancel_left (hlog.symm.trans hevents)
  obtain ⟨offerFrame, hstored₁⟩ := hex.phase₁.stored hex.event₁
  obtain ⟨-, hreply₁, htype₁⟩ := hex.phase₁.eventOk _ hstored₁
  obtain ⟨ackFrame, hstored₂⟩ := hex.phase₂.stored hex.event₂
  obtain ⟨-, hreply₂, htype₂⟩ := hex.phase₂.eventOk _ hstored₂
  rw [hex.phase₁.xid, hex.phase₁.mac] at hreply₂
  have hmem₁ := List.mem_append_left log₂ hstored₁
  have hmem₂ := List.mem_append_right log₁ hstored₂
  have hip₁ := dhcpReply_ip_length hreply₁
  have hip₂ := dhcpReply_ip_length hreply₂
  -- the server of the OFFER
  obtain ⟨i, hoffer⟩ : ∃ i, OffersTo (net.id i) xid mac (sentFrames (log₁ ++ log₂))
      s₂.dhcpRxLease := by
    obtain ⟨i, hi | hi⟩ := hhonest.of_mem hmem₁
    · exact ⟨i, hi⟩
    · exact absurd (htype₁.symm.trans hi.1) (by decide)
  have hserver : s₂.dhcpRxLease.server = net.id i := hoffer.2.2.1
  have hasked : ∀ j ip, ip.length = 4 → Asked (sentFrames (log₁ ++ log₂))
      (dhcpBuildRequest dhcpPacketMin xid mac ip (net.id j)) →
      j = i ∧ ip = s₂.dhcpRxLease.ip := by
    intro j ip hip hj
    obtain ⟨hips, hids⟩ := hex.asked (hip.trans hip₁.symm)
      (by rw [hserver, net.length_id, net.length_id]) hj
    exact ⟨net.injective (hids.trans hserver), hips⟩
  -- the server of the ACK is the same one
  obtain ⟨j, hack⟩ : ∃ j, AcksTo (net.id j) xid mac (sentFrames (log₁ ++ log₂))
      s₃.dhcpRxLease := by
    obtain ⟨j, hj | hj⟩ := hhonest.of_mem hmem₂
    · exact absurd (htype₂.symm.trans hj.1) (by decide)
    · exact ⟨j, hj⟩
  obtain ⟨rfl, hips⟩ := hasked j _ hip₂ hack.2.2
  have hnewIp : new.ip = s₂.dhcpRxLease.ip := by
    rw [hex.lease, leaseOverlay]
    simp only [hips, ite_self]
  have hnewServer : new.server = net.id j := by
    rw [hex.lease, leaseOverlay]
    simp only
    split
    · next hhave => exact hack.2.1 hhave
    · exact hserver
  exact ⟨j, s₂.dhcpRxLease, s₃.dhcpRxLease, offerFrame, ackFrame, hmem₁, dhcpReply_carries hreply₁,
    hoffer, hmem₂, dhcpReply_carries hreply₂, hack, hex.lease, hnewServer, hnewIp,
    hnewIp.trans hips.symm, fun k ip hip hk => by rw [hnewIp]; exact hasked k ip hip hk⟩

/-- Two servers, of which the first one answers in `leaseWorld`. -/
def twoServers : Servers Bool where
  id i := [10, 0, 2, if i then 3 else 2]
  length_id _ := rfl
  injective := by decide

/-- The exchange of `leaseWorld` is honest, and its lease is the first server's. -/
theorem dhcp_agreement_smoke : ∃ new t,
    dhcpAcquire leaseWorld 2 [82, 84, 0, 18, 52, 86] 1000 .zero State.idle = some (true, new, t) ∧
    Honest twoServers 0x4f520000 [82, 84, 0, 18, 52, 86] [] t.events ∧
    new.server = [10, 0, 2, 2] ∧ new.ip = [10, 0, 2, 15] ∧
    ∃ i ack, new.server = twoServers.id i ∧ new.ip = ack.ip ∧
      AcksTo (twoServers.id i) 0x4f520000 [82, 84, 0, 18, 52, 86] (sentFrames t.events) ack := by
  have hrun : (dhcpAcquire leaseWorld 2 [82, 84, 0, 18, 52, 86] 1000 .zero State.idle).map
      (fun r => (r.1, r.2.1.server, r.2.1.ip,
        decide (Honest twoServers 0x4f520000 [82, 84, 0, 18, 52, 86] [] r.2.2.events)))
      = some (true, [10, 0, 2, 2], [10, 0, 2, 15], true) := by
    decide +kernel
  obtain ⟨⟨ok, new, t⟩, hacq, hr⟩ := Option.map_eq_some_iff.mp hrun
  obtain ⟨rfl, hserver, hip, hhonest⟩ : ok = true ∧ new.server = [10, 0, 2, 2] ∧
      new.ip = [10, 0, 2, 15] ∧
      Honest twoServers 0x4f520000 [82, 84, 0, 18, 52, 86] [] t.events := by simpa using hr
  have hxid : (beginExchange leaseWorld [82, 84, 0, 18, 52, 86] State.idle).dhcpXid = 0x4f520000 := by
    decide
  obtain ⟨i, offer, ack, -, -, -, -, -, -, -, hack, -, hi, -, hacked, -⟩ :=
    dhcp_agreement twoServers hacq (show t.events = State.idle.events ++ t.events from rfl) (by rw [hxid]; exact hhonest)
  rw [hxid] at hack
  exact ⟨new, t, hacq, hhonest, hserver, hip, i, ack, hi, hacked, hack⟩

end Orion.Dhcp
