import Mathlib.Order.Monotone.Basic
import Orion.Dhcp.Client
import Orion.Net.Client

/-!
# `dhcp_acquire` is all or nothing

Every exit of `dhcp_acquire` either leaves the caller's lease alone or hands over the overlay of one
OFFER and one ACK of this exchange.  The argument is an invariant of the two wait loops (`InPhase`):
what the record gained since the wait began is transmissions of one packet and replies that were
stored in this phase, and if the event variable has the value the loop waits for, the stored lease
is one of those replies.  The device may deliver anything in any number of frames per poll; each
frame goes through `dhcpRx_cases`.

`dhcpAcquire_returns` is the other half: when the clock runs, both loops end.
-/

namespace Orion.Dhcp

open Orion.Traced

/-! ## One received frame -/

/-- Everything `dhcp_rx` can do with a frame. -/
theorem dhcpRx_cases (frame : Buffer) (s : State) :
    (dhcpRx frame s).value = s ∨
    (dhcpRx frame s).value = { s with dhcpEvent := -1 } ∨
    ∃ reply, (dhcpReply s.dhcpXid s.dhcpMac frame).value = some reply ∧
      ((s.dhcpPhase = 1 ∧ reply.messageType = orionDhcpOffer ∧
          (dhcpRx frame s).value = s.store frame reply 2) ∨
        (s.dhcpPhase = 2 ∧ reply.messageType = orionDhcpAck ∧
          (dhcpRx frame s).value = s.store frame reply 5)) := by
  unfold dhcpRx
  rw [value_bind]
  cases hr : (dhcpReply s.dhcpXid s.dhcpMac frame).value with
  | none => exact .inl rfl
  | some reply =>
    simp only [value_ite, value_pure]
    split
    · exact .inr (.inl rfl)
    · split
      · next h => exact .inr (.inr ⟨reply, rfl, .inl ⟨h.1, h.2, rfl⟩⟩)
      · split
        · next h => exact .inr (.inr ⟨reply, rfl, .inr ⟨h.1, h.2, rfl⟩⟩)
        · exact .inl rfl

/-! ## The invariant of a wait -/

/-- What a wait is for: its phase, the event it waits for and the message type that causes it. -/
inductive Goal : ℤ → ℤ → UInt8 → Prop
  | offer : Goal 1 2 orionDhcpOffer
  | ack : Goal 2 5 orionDhcpAck

/-- What a wait of the exchange `(xid, mac)` that transmits `packet` may add to the record. -/
def EventOk (xid : ℕ) (mac packet : List UInt8) (phase : ℤ) (type : UInt8) : Event → Prop
  | .sent f => ∃ ipId, f = broadcastFrame mac ipId packet
  | .stored p frame reply =>
    p = phase ∧ (dhcpReply xid mac frame).value = some reply ∧ reply.messageType = type

/-- The state of a wait that began in `s₀` and added `log` to the record. -/
structure InPhase (s₀ : State) (packet : List UInt8) (phase wanted : ℤ) (type : UInt8)
    (log : List Event) (s : State) : Prop where
  samePhase : s.dhcpPhase = phase
  xid : s.dhcpXid = s₀.dhcpXid
  mac : s.dhcpMac = s₀.dhcpMac
  events : s.events = s₀.events ++ log
  eventOk : ∀ e ∈ log, EventOk s₀.dhcpXid s₀.dhcpMac packet phase type e
  stored : s.dhcpEvent = wanted → ∃ frame, .stored phase frame s.dhcpRxLease ∈ log

section

variable {s₀ s : State} {packet : List UInt8} {phase wanted : ℤ} {type : UInt8} {log : List Event}

theorem InPhase.clock (h : InPhase s₀ packet phase wanted type log s) (n : ℕ) :
    InPhase s₀ packet phase wanted type log { s with clock := n } :=
  ⟨h.samePhase, h.xid, h.mac, h.events, h.eventOk, h.stored⟩

theorem InPhase.now (w : World) (h : InPhase s₀ packet phase wanted type log s) :
    InPhase s₀ packet phase wanted type log (dhcpNowMs w s).2 := by
  unfold dhcpNowMs
  split
  · exact h
  · exact h.clock _

/-- A transmission is recorded. -/
theorem InPhase.send (hlen : packet.length ≤ 1472)
    (h : InPhase s₀ packet phase wanted type log s) :
    ∃ f, InPhase s₀ packet phase wanted type (log ++ [.sent f]) (dhcpSendBroadcast packet s) := by
  unfold dhcpSendBroadcast
  rw [if_neg (by omega)]
  refine ⟨broadcastFrame s.dhcpMac s.dhcpIpId packet, h.samePhase, h.xid, h.mac, ?_, ?_, ?_⟩
  · simp only [h.events, List.append_assoc]
  · intro e he
    rcases List.mem_append.mp he with he | he
    · exact h.eventOk e he
    · rw [List.mem_singleton] at he
      subst he
      exact ⟨s.dhcpIpId, by rw [h.mac]⟩
  · intro hw
    obtain ⟨frame, hf⟩ := h.stored hw
    exact ⟨frame, List.mem_append_left _ hf⟩

/-- **One frame.** -/
theorem InPhase.rx (hg : Goal phase wanted type) (h : InPhase s₀ packet phase wanted type log s)
    (frame : Buffer) :
    ∃ more, InPhase s₀ packet phase wanted type (log ++ more) (dhcpRx frame s).value := by
  rcases dhcpRx_cases frame s with heq | heq | ⟨reply, hreply, hstore⟩
  · exact ⟨[], by rw [heq, List.append_nil]; exact h⟩
  · refine ⟨[], ?_⟩
    rw [heq, List.append_nil]
    refine ⟨h.samePhase, h.xid, h.mac, h.events, h.eventOk, ?_⟩
    intro hw
    cases hg <;> simp at hw
  · rw [h.xid, h.mac] at hreply
    -- the phase decides which of the two stores it is
    have hcase : ∃ ev, reply.messageType = type ∧ (dhcpRx frame s).value = s.store frame reply ev := by
      rcases hstore with ⟨hp, ht, heq⟩ | ⟨hp, ht, heq⟩
      · rw [h.samePhase] at hp
        cases hg with
        | offer => exact ⟨2, ht, heq⟩
        | ack => simp at hp
      · rw [h.samePhase] at hp
        cases hg with
        | offer => simp at hp
        | ack => exact ⟨5, ht, heq⟩
    obtain ⟨ev, ht, heq⟩ := hcase
    refine ⟨[.stored phase frame reply], ?_⟩
    rw [heq]
    refine ⟨h.samePhase, h.xid, h.mac, ?_, ?_, fun _ => ⟨frame, ?_⟩⟩
    · simp only [State.store, h.events, List.append_assoc, h.samePhase]
    · intro e he
      rcases List.mem_append.mp he with he | he
      · exact h.eventOk e he
      · rw [List.mem_singleton] at he
        subst he
        exact ⟨rfl, hreply, ht⟩
    · exact List.mem_append_right _ (List.mem_singleton.mpr rfl)

/-- **One poll**, whatever the device delivers. -/
theorem InPhase.poll (hg : Goal phase wanted type) (w : World)
    (h : InPhase s₀ packet phase wanted type log s) :
    ∃ more, InPhase s₀ packet phase wanted type (log ++ more) (pollRx w s) := by
  unfold pollRx
  have h' : InPhase s₀ packet phase wanted type log { s with polls := s.polls + 1 } :=
    ⟨h.samePhase, h.xid, h.mac, h.events, h.eventOk, h.stored⟩
  clear h
  generalize { s with polls := s.polls + 1 } = t at h'
  generalize w.frames s.polls = frames
  induction frames generalizing t log with
  | nil => exact ⟨[], by rw [List.append_nil]; exact h'⟩
  | cons frame rest ih =>
    obtain ⟨more, h1⟩ := h'.rx hg frame
    obtain ⟨more', h2⟩ := ih _ h1
    exact ⟨more ++ more', by rw [← List.append_assoc]; exact h2⟩

/-- **The wait loop.**  When it ends, the record it added starts with a transmission, and if it ends
with success the stored lease is a reply stored in this phase. -/
theorem waitLoop_inPhase (hg : Goal phase wanted type) (w : World) (hlen : packet.length ≤ 1472)
    {timeoutMs start : ℕ} : ∀ (fuel lastTx : ℕ) (log : List Event) (s : State),
    InPhase s₀ packet phase wanted type log s →
    ((log = [] ∧ lastTx = 0xffffffff) ∨ ∃ f rest, log = .sent f :: rest) →
    ∀ ok t, waitLoop w packet wanted timeoutMs start fuel lastTx s = some (ok, t) →
    ∃ log', InPhase s₀ packet phase wanted type log' t ∧
      (ok = true → t.dhcpEvent = wanted ∧ ∃ f rest, log' = .sent f :: rest) := by
  intro fuel
  induction fuel with
  | zero => intro lastTx log s _ _ ok t h; simp [waitLoop] at h
  | succ fuel ih =>
    intro lastTx log s hs hlog ok t h
    unfold waitLoop at h
    have h1 := hs.now w
    generalize dhcpNowMs w s = r1 at h h1
    obtain ⟨t1, s1⟩ := r1
    simp only at h h1
    split at h
    · obtain ⟨rfl, rfl⟩ : false = ok ∧ s1 = t := by simpa using h
      exact ⟨log, h1, by simp⟩
    · have h2 := h1.now w
      generalize dhcpNowMs w s1 = r2 at h h2
      obtain ⟨now, s2⟩ := r2
      simp only at h h2
      -- after the transmission, if any, the record starts with one
      obtain ⟨log3, h3, hhead⟩ : ∃ log3, InPhase s₀ packet phase wanted type log3
          (if decide (lastTx = 0xffffffff ∨ sub32 now lastTx ≥ 400) = true
            then dhcpSendBroadcast packet s2 else s2) ∧ ∃ f rest, log3 = .sent f :: rest := by
        split
        · obtain ⟨f, hf⟩ := h2.send hlen
          refine ⟨_, hf, ?_⟩
          rcases hlog with ⟨rfl, -⟩ | ⟨g, rest, rfl⟩
          · exact ⟨f, [], rfl⟩
          · exact ⟨g, rest ++ [.sent f], rfl⟩
        · next hno =>
          refine ⟨log, h2, hlog.resolve_left ?_⟩
          rintro ⟨-, hlast⟩
          simp [hlast] at hno
      generalize (if decide (lastTx = 0xffffffff ∨ sub32 now lastTx ≥ 400) = true
        then dhcpSendBroadcast packet s2 else s2) = s3 at h h3
      obtain ⟨more, h4⟩ := h3.poll hg w
      have hhead4 : ∃ f rest, log3 ++ more = .sent f :: rest := by
        obtain ⟨f, rest, rfl⟩ := hhead
        exact ⟨f, rest ++ more, rfl⟩
      generalize pollRx w s3 = s4 at h h4
      split at h
      · next hev =>
        obtain ⟨rfl, rfl⟩ : true = ok ∧ s4 = t := by simpa using h
        exact ⟨_, h4, fun _ => ⟨hev, hhead4⟩⟩
      · split at h
        · obtain ⟨rfl, rfl⟩ : false = ok ∧ s4 = t := by simpa using h
          exact ⟨_, h4, by simp⟩
        · exact ih _ _ _ h4 (.inr hhead4) ok t h

/-- **The wait.** -/
theorem dhcpWait_inPhase (hg : Goal phase wanted type) (w : World) (hlen : packet.length ≤ 1472)
    {timeoutMs fuel : ℕ} {ok : Bool} {t : State}
    (h : dhcpWait w fuel packet phase wanted timeoutMs s = some (ok, t)) :
    ∃ log, InPhase s packet phase wanted type log t ∧
      (ok = true → t.dhcpEvent = wanted ∧ ∃ f rest, log = .sent f :: rest) := by
  have h0 : InPhase s packet phase wanted type [] { s with dhcpPhase := phase, dhcpEvent := 0 } := by
    refine ⟨rfl, rfl, rfl, by simp, by simp, ?_⟩
    intro hw
    cases hg <;> simp at hw
  have h1 := h0.now w
  unfold dhcpWait at h
  simp only at h
  exact waitLoop_inPhase hg w hlen fuel _ [] _ h1 (.inl ⟨rfl, rfl⟩) ok t h

end

/-! ## The exchange -/

section

variable {cap xid : ℕ} {mac p : List UInt8}

/-- What `dhcp_finish` makes of a packet that it takes. -/
theorem dhcpFinish_some {q : List UInt8} (h : dhcpFinish cap p = some q) :
    p.length + 7 ≤ dhcpPacketMin ∧
      q = p ++ [55, 4, 1, 3, 6, 51, 255] ++ List.replicate (dhcpPacketMin - (p.length + 7)) 0 := by
  unfold dhcpFinish at h
  split at h
  · simp at h
  · next hno =>
    push Not at hno
    exact ⟨hno.2, (Option.some.inj h).symm⟩

theorem dhcpFinish_length {q : List UInt8} (h : dhcpFinish cap p = some q) :
    q.length = dhcpPacketMin := by
  obtain ⟨hfits, rfl⟩ := dhcpFinish_some h
  simp only [List.length_append, List.length_replicate, List.length_cons, List.length_nil]
  omega

theorem dhcpBuildDiscover_some (h : dhcpBuildDiscover cap xid mac = some p) :
    ∃ b, dhcpBase cap xid mac orionDhcpDiscover = some b ∧ dhcpFinish cap b = some p :=
  Option.bind_eq_some_iff.mp h

theorem dhcpBuildRequest_some {ip server : List UInt8}
    (h : dhcpBuildRequest cap xid mac ip server = some p) :
    ∃ b, dhcpBase cap xid mac orionDhcpRequest = some b ∧
      dhcpFinish cap (b ++ [50, 4] ++ ip ++ [54, 4] ++ server) = some p := by
  obtain ⟨b, hbase, hfin⟩ := Option.bind_eq_some_iff.mp h
  split at hfin
  · simp at hfin
  · exact ⟨b, hbase, hfin⟩

theorem dhcpBuildDiscover_length (h : dhcpBuildDiscover cap xid mac = some p) :
    p.length = dhcpPacketMin := by
  obtain ⟨b, -, hfin⟩ := dhcpBuildDiscover_some h
  exact dhcpFinish_length hfin

theorem dhcpBuildRequest_length {ip server : List UInt8}
    (h : dhcpBuildRequest cap xid mac ip server = some p) : p.length = dhcpPacketMin := by
  obtain ⟨b, -, hfin⟩ := dhcpBuildRequest_some h
  exact dhcpFinish_length hfin

end

/-- The DHCP message in a frame has the transaction id and the hardware address. -/
def Carries (xid : ℕ) (mac : List UInt8) (frame : Buffer) : Prop :=
  let p := 14 + (frame.mem 14).toNat % 16 * 4 + 8
  (get32 frame.mem (p + 4)).value = xid ∧ (readSpan frame.mem (p + 28) 6).value = mac

theorem dhcpParseReply_carries {mem : ℕ → UInt8} {p len xid : ℕ} {mac : List UInt8}
    {reply : OrionDhcpLease} (h : (dhcpParseReply mem p len xid mac).value = some reply) :
    (get32 mem (p + 4)).value = xid ∧ (readSpan mem (p + 28) 6).value = mac := by
  unfold dhcpParseReply at h
  split at h
  · simp at h
  rw [value_bind, value_bind] at h
  obtain ⟨-, h⟩ := guard_some h
  obtain ⟨hx, h⟩ := guard_some h
  obtain ⟨hmac, -⟩ := guard_some h
  exact ⟨not_not.mp hx, not_not.mp hmac⟩

/-- A reply is the parse of the payload behind the three headers. -/
theorem dhcpReply_parse {xid : ℕ} {mac : List UInt8} {frame : Buffer} {reply : OrionDhcpLease}
    (h : (dhcpReply xid mac frame).value = some reply) :
    ∃ len, (dhcpParseReply frame.mem (14 + (frame.mem 14).toNat % 16 * 4 + 8) len xid mac).value
      = some reply := by
  unfold dhcpReply at h
  split at h
  · simp at h
  obtain ⟨-, h⟩ := guard_some h
  rw [value_bind] at h
  obtain ⟨-, h⟩ := guard_some h
  rw [value_ite] at h
  split at h
  · simp at h
  obtain ⟨-, h⟩ := guard_some h
  rw [value_bind, value_bind] at h
  obtain ⟨-, h⟩ := guard_some h
  rw [value_ite] at h
  split at h
  · simp at h
  exact ⟨_, h⟩

theorem dhcpReply_carries {xid : ℕ} {mac : List UInt8} {frame : Buffer} {reply : OrionDhcpLease}
    (h : (dhcpReply xid mac frame).value = some reply) : Carries xid mac frame := by
  obtain ⟨len, hparse⟩ := dhcpReply_parse h
  exact dhcpParseReply_carries hparse

/-- The lease comes from an exchange: an OFFER of this transaction stored in phase 1, then a
REQUEST for its address and server, transmitted before anything else happens in phase 2 and never
replaced by another, then an ACK of this transaction stored in phase 2; the lease is the overlay of
the two. -/
def Acquired (xid : ℕ) (mac : List UInt8) (before after : List Event)
    (lease : OrionDhcpLease) : Prop :=
  ∃ (offer ack : OrionDhcpLease) (offerFrame ackFrame : Buffer) (request : List UInt8)
    (discovery confirmation : List Event),
    after = before ++ discovery ++ confirmation ∧
    .stored 1 offerFrame offer ∈ discovery ∧
    Carries xid mac offerFrame ∧ (dhcpReply xid mac offerFrame).value = some offer ∧
    offer.messageType = orionDhcpOffer ∧
    dhcpBuildRequest dhcpPacketMin xid mac offer.ip offer.server = some request ∧
    (∃ f rest, confirmation = .sent f :: rest) ∧
    (∀ f, .sent f ∈ confirmation → ∃ ipId, f = broadcastFrame mac ipId request) ∧
    .stored 2 ackFrame ack ∈ confirmation ∧
    Carries xid mac ackFrame ∧ (dhcpReply xid mac ackFrame).value = some ack ∧
    ack.messageType = orionDhcpAck ∧
    lease = leaseOverlay offer ack

/-- What `dhcp_acquire` promises about the lease it was given (`old`) and the one it leaves
(`new`), in a run with transaction id `xid`. -/
def AllOrNothing (xid : ℕ) (mac : List UInt8) (old new : OrionDhcpLease) (s t : State) (ok : Bool) :
    Prop :=
  (ok = false ∧ new = old) ∨
    (ok = true ∧ ipNonzero new.ip = true ∧ new.haveNetmask = true ∧ new.haveGateway = true ∧
      new.haveDns = true ∧ Acquired xid mac s.events t.events new)

/-- The two waits of a run that succeeds, from the state `s₁` in which the exchange begins. -/
structure Exchange (s₁ : State) (new : OrionDhcpLease) (t : State) (s₂ s₃ : State)
    (packet request : List UInt8) (log₁ log₂ : List Event) : Prop where
  discover : dhcpBuildDiscover dhcpPacketMin s₁.dhcpXid s₁.dhcpMac = some packet
  phase₁ : InPhase s₁ packet 1 2 orionDhcpOffer log₁ s₂
  event₁ : s₂.dhcpEvent = 2
  server : s₂.dhcpRxLease.haveServer = true
  built : dhcpBuildRequest dhcpPacketMin s₁.dhcpXid s₁.dhcpMac s₂.dhcpRxLease.ip
    s₂.dhcpRxLease.server = some request
  phase₂ : InPhase s₂ request 2 5 orionDhcpAck log₂ s₃
  event₂ : s₃.dhcpEvent = 5
  head : ∃ f rest, log₂ = .sent f :: rest
  lease : new = leaseOverlay s₂.dhcpRxLease s₃.dhcpRxLease
  final : t = s₃.reset

/-- **Every exit of `dhcp_acquire`**: a failure that leaves the lease alone, or two waits. -/
theorem dhcpAcquire_cases {w : World} {fuel : ℕ} {mac : List UInt8} {timeoutMs : ℕ}
    {lease new : OrionDhcpLease} {s t : State} {ok : Bool}
    (h : dhcpAcquire w fuel mac timeoutMs lease s = some (ok, new, t)) :
    (ok = false ∧ new = lease ∧ ∃ u : State, t = u.reset) ∨
    (ok = true ∧ (ipNonzero new.ip = true ∧ new.haveNetmask = true ∧ new.haveGateway = true ∧
        new.haveDns = true) ∧
      ∃ s₂ s₃ packet request log₁ log₂,
        Exchange (beginExchange w mac s) new t s₂ s₃ packet request log₁ log₂) := by
  have hfail : ∀ {u : State} {P : Prop}, some (false, lease, u.reset) = some (ok, new, t) →
      (ok = false ∧ new = lease ∧ ∃ u : State, t = u.reset) ∨ P := by
    intro u P hu
    obtain ⟨rfl, rfl, rfl⟩ : false = ok ∧ lease = new ∧ u.reset = t := by simpa using hu
    exact .inl ⟨rfl, rfl, u, rfl⟩
  unfold dhcpAcquire at h
  simp only at h
  generalize beginExchange w mac s = s₁ at h ⊢
  split at h
  · exact hfail h
  · next packet hbuild =>
    split at h
    · simp at h
    · exact hfail h
    · next s₂ hwait₁ =>
      obtain ⟨log₁, hphase₁, hgoal₁⟩ := dhcpWait_inPhase .offer w
        (by rw [dhcpBuildDiscover_length hbuild]; decide) hwait₁
      split at h
      · exact hfail h
      · next hoffer =>
        simp only [not_or, Bool.not_eq_false] at hoffer
        split at h
        · exact hfail h
        · next request hrequest =>
          split at h
          · simp at h
          · exact hfail h
          · next s₃ hwait₂ =>
            obtain ⟨log₂, hphase₂, hgoal₂⟩ := dhcpWait_inPhase .ack w
              (by rw [dhcpBuildRequest_length hrequest]; decide) hwait₂
            obtain ⟨hevent₂, hhead⟩ := hgoal₂ rfl
            split at h
            · exact hfail h
            · next hfull =>
              obtain ⟨rfl, rfl, rfl⟩ : true = ok ∧ leaseOverlay s₂.dhcpRxLease s₃.dhcpRxLease = new ∧
                s₃.reset = t := by simpa using h
              simp only [not_or, Bool.not_eq_false] at hfull
              rw [hphase₁.xid, hphase₁.mac] at hrequest
              exact .inr ⟨rfl, hfull, s₂, s₃, packet, request, log₁, log₂, hbuild, hphase₁,
                (hgoal₁ rfl).1, hoffer.2, hrequest, hphase₂, hevent₂, hhead, rfl, rfl⟩

theorem dhcpAcquire_exits {w : World} {fuel : ℕ} {mac : List UInt8} {timeoutMs : ℕ}
    {lease new : OrionDhcpLease} {s t : State} {ok : Bool}
    (h : dhcpAcquire w fuel mac timeoutMs lease s = some (ok, new, t)) :
    AllOrNothing (beginExchange w mac s).dhcpXid mac lease new s t ok ∧
      t.dhcpPhase = 0 ∧ t.dhcpEvent = 0 := by
  rcases dhcpAcquire_cases h with
    ⟨rfl, rfl, u, rfl⟩ | ⟨rfl, hfull, s₂, s₃, packet, request, log₁, log₂, hex⟩
  · exact ⟨.inl ⟨rfl, rfl⟩, rfl, rfl⟩
  · obtain ⟨offerFrame, hstored₁⟩ := hex.phase₁.stored hex.event₁
    obtain ⟨-, hreply₁, htype₁⟩ := hex.phase₁.eventOk _ hstored₁
    obtain ⟨ackFrame, hstored₂⟩ := hex.phase₂.stored hex.event₂
    obtain ⟨-, hreply₂, htype₂⟩ := hex.phase₂.eventOk _ hstored₂
    have hsent : ∀ f, .sent f ∈ log₂ → ∃ ipId, f = broadcastFrame mac ipId request := by
      intro f hf
      have hok := hex.phase₂.eventOk _ hf
      rwa [EventOk, hex.phase₁.mac] at hok
    rw [hex.phase₁.xid, hex.phase₁.mac] at hreply₂
    have hevents : t.events = s.events ++ log₁ ++ log₂ := by
      rw [hex.final]
      exact hex.phase₂.events.trans (congrArg (· ++ log₂) hex.phase₁.events)
    refine ⟨.inr ⟨rfl, hfull.1, hfull.2.1, hfull.2.2.1, hfull.2.2.2, ?_⟩, ?_, ?_⟩
    · exact ⟨_, _, offerFrame, ackFrame, request, log₁, log₂, hevents, hstored₁,
        dhcpReply_carries hreply₁, hreply₁, htype₁, hex.built, hex.head, hsent, hstored₂,
        dhcpReply_carries hreply₂, hreply₂, htype₂, hex.lease⟩
    · rw [hex.final]
      rfl
    · rw [hex.final]
      rfl

/-! ## The loops end -/

/-- The clock that the client sees is a 32-bit millisecond counter that keeps running and moves by at
most `2^30` ms between two readings. -/
def ClockRuns (w : World) : Prop :=
  w.hz ≠ 0 ∧ ∃ ms : ℕ → ℕ,
    (∀ k, w.ms k = ms k % 2 ^ 32) ∧ Monotone ms ∧
    (∀ k, ms (k + 1) ≤ ms k + 2 ^ 30) ∧ ∀ b, ∃ k, b ≤ ms k

theorem dhcpSendBroadcast_clock (packet : List UInt8) (s : State) :
    (dhcpSendBroadcast packet s).clock = s.clock := by
  unfold dhcpSendBroadcast
  split <;> rfl

theorem dhcpRx_clock (frame : Buffer) (s : State) : (dhcpRx frame s).value.clock = s.clock := by
  rcases dhcpRx_cases frame s with h | h | ⟨reply, -, ⟨-, -, h⟩ | ⟨-, -, h⟩⟩ <;> rw [h] <;> rfl

theorem pollRx_clock (w : World) (s : State) : (pollRx w s).clock = s.clock := by
  unfold pollRx
  have key : ∀ (frames : List Buffer) (t : State),
      (frames.foldl (fun s frame => (dhcpRx frame s).value) t).clock = t.clock := by
    intro frames
    induction frames with
    | nil => intro t; rfl
    | cons frame rest ih =>
      intro t
      rw [List.foldl_cons, ih, dhcpRx_clock]
  exact key _ _

section Clock

variable {w : World} {ms : ℕ → ℕ}

theorem dhcpNowMs_eq (hhz : w.hz ≠ 0)
    (hms : ∀ k, w.ms k = ms k % 2 ^ 32) (s : State) :
    dhcpNowMs w s = (ms s.clock % 2 ^ 32, { s with clock := s.clock + 1 }) := by
  rw [dhcpNowMs, if_neg hhz, hms]

/-- The difference of two readings less than `2^32` ms apart. -/
theorem sub32_of_le {a b : ℕ} (h : b ≤ a) (hlt : a < b + 2 ^ 32) :
    sub32 (a % 2 ^ 32) (b % 2 ^ 32) = a - b := by
  unfold sub32 u32
  omega

/-- The loop ends once the clock has passed the deadline, at the latest at reading `K`. -/
theorem waitLoop_returns (hhz : w.hz ≠ 0)
    (hms : ∀ k, w.ms k = ms k % 2 ^ 32) (hmono : Monotone ms)
    (hstep : ∀ k, ms (k + 1) ≤ ms k + 2 ^ 30) (packet : List UInt8) (wanted : ℤ)
    {timeoutMs c K : ℕ} (hT : timeoutMs ≤ 2 ^ 31) (hK : ms c + timeoutMs ≤ ms K) :
    ∀ (fuel lastTx : ℕ) (s : State), c ≤ s.clock → ms s.clock < ms c + 2 ^ 32 →
      K ≤ s.clock + fuel →
      (waitLoop w packet wanted timeoutMs (ms c % 2 ^ 32) (fuel + 1) lastTx s).isSome := by
  intro fuel
  induction fuel with
  | zero =>
    intro lastTx s hc hlt hfuel
    have hle : ms K ≤ ms s.clock := hmono hfuel
    unfold waitLoop
    simp only [dhcpNowMs_eq hhz hms]
    rw [sub32_of_le (hmono hc) hlt, if_pos (by omega)]
    rfl
  | succ fuel ih =>
    intro lastTx s hc hlt hfuel
    unfold waitLoop
    simp only [dhcpNowMs_eq hhz hms]
    rw [sub32_of_le (hmono hc) hlt]
    split
    · rfl
    · next hrun =>
      -- whether or not the packet is sent again, two readings have been taken
      have hsent : ∀ send : Bool,
          (if send = true then dhcpSendBroadcast packet { s with clock := s.clock + 1 + 1 }
            else { s with clock := s.clock + 1 + 1 }).clock = s.clock + 1 + 1 := by
        intro send
        split
        · rw [dhcpSendBroadcast_clock]
        · rfl
      specialize hsent (decide (lastTx = 0xffffffff ∨
        sub32 (ms (s.clock + 1) % 2 ^ 32) lastTx ≥ 400))
      generalize (if decide (lastTx = 0xffffffff ∨
          sub32 (ms (s.clock + 1) % 2 ^ 32) lastTx ≥ 400) = true
        then dhcpSendBroadcast packet { s with clock := s.clock + 1 + 1 }
        else { s with clock := s.clock + 1 + 1 }) = u at hsent ⊢
      have hclock : (pollRx w u).clock = s.clock + 1 + 1 := (pollRx_clock w u).trans hsent
      have h1 := hstep s.clock
      have h2 := hstep (s.clock + 1)
      split
      · rfl
      · split
        · rfl
        · refine ih _ _ ?_ ?_ ?_ <;> rw [hclock] <;> omega

/-- More fuel does not change the result of a loop that has ended. -/
theorem waitLoop_mono (packet : List UInt8) (wanted : ℤ) (timeoutMs start : ℕ) :
    ∀ (fuel more lastTx : ℕ) (s : State) (r : Bool × State),
      waitLoop w packet wanted timeoutMs start fuel lastTx s = some r →
      waitLoop w packet wanted timeoutMs start (fuel + more) lastTx s = some r := by
  intro fuel
  induction fuel with
  | zero => intro more lastTx s r h; simp [waitLoop] at h
  | succ fuel ih =>
    intro more lastTx s r h
    rw [Nat.succ_add]
    unfold waitLoop at h ⊢
    simp only at h ⊢
    split
    · next hc => rwa [if_pos hc] at h
    · next hc =>
      rw [if_neg hc] at h
      generalize pollRx w _ = u at h ⊢
      split
      · next he => rwa [if_pos he] at h
      · next he =>
        rw [if_neg he] at h
        split
        · next hn => rwa [if_pos hn] at h
        · next hn =>
          rw [if_neg hn] at h
          exact ih more _ _ r h

/-- **A wait ends when the clock runs**, with one result for all larger amounts of fuel. -/
theorem dhcpWait_returns (hw : ClockRuns w) (packet : List UInt8) (phase wanted : ℤ)
    {timeoutMs : ℕ} (hT : timeoutMs ≤ 2 ^ 31) (s : State) :
    ∃ n r, ∀ fuel ≥ n, dhcpWait w fuel packet phase wanted timeoutMs s = some r := by
  obtain ⟨hhz, ms, hms, hmono, hstep, hunb⟩ := hw
  obtain ⟨K, hK⟩ := hunb (ms s.clock + timeoutMs)
  have hsome := waitLoop_returns hhz hms hmono hstep packet wanted hT hK K 0xffffffff
    { s with dhcpPhase := phase, dhcpEvent := 0, clock := s.clock + 1 } (by simp)
    (by have := hstep s.clock; simp only; omega) (by simp only; omega)
  obtain ⟨r, hr⟩ := Option.isSome_iff_exists.mp hsome
  refine ⟨K + 1, r, fun fuel hfuel => ?_⟩
  unfold dhcpWait
  simp only [dhcpNowMs_eq hhz hms]
  obtain ⟨more, rfl⟩ := Nat.exists_eq_add_of_le hfuel
  exact waitLoop_mono packet wanted timeoutMs _ (K + 1) more _ _ r hr

/-- **`dhcp_acquire` returns when the clock runs.** -/
theorem dhcpAcquire_returns (hw : ClockRuns w) (mac : List UInt8) {timeoutMs : ℕ}
    (hT : timeoutMs < 2 ^ 32) (lease : OrionDhcpLease) (s : State) :
    ∃ n, ∀ fuel ≥ n, (dhcpAcquire w fuel mac timeoutMs lease s).isSome := by
  have hphase : (if timeoutMs < 1000 then 1000 else timeoutMs) / 2 ≤ 2 ^ 31 := by
    split <;> omega
  generalize hs1 : beginExchange w mac s = s1
  cases hd : dhcpBuildDiscover dhcpPacketMin s1.dhcpXid s1.dhcpMac with
  | none => exact ⟨0, fun fuel _ => by simp [dhcpAcquire, hs1, hd]⟩
  | some packet =>
    obtain ⟨n1, ⟨ok1, s2⟩, h1⟩ := dhcpWait_returns hw packet 1 2 hphase s1
    obtain ⟨n2, h2⟩ : ∃ n2, ∀ request, dhcpBuildRequest dhcpPacketMin s2.dhcpXid s2.dhcpMac
        s2.dhcpRxLease.ip s2.dhcpRxLease.server = some request → ∃ r, ∀ fuel ≥ n2,
        dhcpWait w fuel request 2 5 ((if timeoutMs < 1000 then 1000 else timeoutMs) / 2) s2
          = some r := by
      cases hr : dhcpBuildRequest dhcpPacketMin s2.dhcpXid s2.dhcpMac
        s2.dhcpRxLease.ip s2.dhcpRxLease.server with
      | none => exact ⟨0, by simp⟩
      | some request =>
        obtain ⟨n2, r, h⟩ := dhcpWait_returns hw request 2 5 hphase s2
        exact ⟨n2, fun q hq => ⟨r, by obtain rfl := Option.some.inj hq; exact h⟩⟩
    refine ⟨max n1 n2, fun fuel hfuel => ?_⟩
    have hf1 := h1 fuel (by omega)
    unfold dhcpAcquire
    simp only [hs1, hd, hf1]
    cases ok1 with
    | false => rfl
    | true =>
      simp only
      split
      · rfl
      · cases hr : dhcpBuildRequest dhcpPacketMin s2.dhcpXid s2.dhcpMac
          s2.dhcpRxLease.ip s2.dhcpRxLease.server with
        | none => rfl
        | some request =>
          obtain ⟨⟨ok2, s3⟩, h3⟩ := h2 request hr
          simp only [h3 fuel (by omega)]
          cases ok2 with
          | false => rfl
          | true =>
            simp only
            split <;> rfl

end Clock

/-! ## The kernel's use of it -/

/-- The frames among the events. -/
def sentFrames (events : List Event) : List (List UInt8) :=
  events.filterMap fun
    | .sent f => some f
    | .stored _ _ _ => none

/-- The network part of `kernel_main`: the result of `net_init` is `network_up`, and the lease is a
local variable of arbitrary contents. -/
def kernelMainNetwork (w : World) (fuel : ℕ) (adapter : Option (List UInt8)) (lease : OrionDhcpLease)
    (s : State) (net : Net.State) : Option Net.State :=
  match Net.netInit w adapter net with
  | (false, net) => some net
  | (true, net) => do
    let (ok, lease, t) ← dhcpAcquire w fuel net.mac 1800 lease
      { s with clock := net.clock, polls := net.polls, events := [] }
    let net :=
      { net with clock := t.clock, polls := t.polls, sent := net.sent ++ sentFrames t.events }
    if ok then some (Net.netConfigure w lease.ip lease.netmask lease.gateway lease.dns net)
    else some net

/-- The address profile of the stack. -/
def profile (net : Net.State) : List UInt8 × List UInt8 × List UInt8 × List UInt8 :=
  (net.ipAddr, net.netmask, net.gateway, net.dnsIp)

theorem ethTx_profile (w : World) (data : List UInt8) (net : Net.State) :
    profile (Net.ethTx w data net) = profile net := by
  unfold Net.ethTx
  split <;> rfl

theorem netInit_profile (w : World) (adapter : Option (List UInt8)) (net : Net.State) :
    profile (Net.netInit w adapter net).2 = profile net := by
  unfold Net.netInit
  split
  · rfl
  · exact ethTx_profile w _ _

/-- **The profile after start-up** is the static one, or a complete lease. -/
theorem kernelMainNetwork_profile {w : World} {fuel : ℕ} {adapter : Option (List UInt8)}
    {lease : OrionDhcpLease} {s : State} {net net' : Net.State}
    (h : kernelMainNetwork w fuel adapter lease s net = some net') :
    profile net' = profile net ∨ ∃ (s₀ t : State) (mac : List UInt8) (new : OrionDhcpLease),
      dhcpAcquire w fuel mac 1800 lease s₀ = some (true, new, t) ∧
      profile net' = (new.ip, new.netmask, new.gateway, new.dns) := by
  unfold kernelMainNetwork at h
  have hinit := netInit_profile w adapter net
  generalize Net.netInit w adapter net = r at h hinit
  obtain ⟨up, net1⟩ := r
  cases up with
  | false =>
    obtain rfl := Option.some.inj h
    exact .inl hinit
  | true =>
    obtain ⟨⟨ok, new, t⟩, hacq, hrest⟩ := Option.bind_eq_some_iff.mp h
    cases ok with
    | false =>
      obtain rfl := Option.some.inj hrest
      exact .inl hinit
    | true =>
      obtain rfl := Option.some.inj hrest
      refine .inr ⟨_, t, net1.mac, new, hacq, ?_⟩
      exact ethTx_profile w _ _

/-- **DHCP acquisition is all or nothing.**  Every run that returns leaves the lease alone or
completes it from one exchange, and resets phase and event; when the clock runs, every run returns;
and `kernel_main` leaves the static profile alone unless the acquisition succeeded. -/
theorem dhcp_acquire_all_or_nothing (w : World) (mac : List UInt8) (timeoutMs : ℕ)
    (lease : OrionDhcpLease) (s : State) :
    (∀ fuel ok new t, dhcpAcquire w fuel mac timeoutMs lease s = some (ok, new, t) →
      AllOrNothing (beginExchange w mac s).dhcpXid mac lease new s t ok ∧
        t.dhcpPhase = 0 ∧ t.dhcpEvent = 0) ∧
    (ClockRuns w → timeoutMs < 2 ^ 32 →
      ∃ n, ∀ fuel ≥ n, (dhcpAcquire w fuel mac timeoutMs lease s).isSome) ∧
    ∀ fuel adapter net net', kernelMainNetwork w fuel adapter lease s net = some net' →
      profile net' = profile net ∨ ∃ (s₀ t : State) (mac : List UInt8) (new : OrionDhcpLease),
        dhcpAcquire w fuel mac 1800 lease s₀ = some (true, new, t) ∧
        profile net' = (new.ip, new.netmask, new.gateway, new.dns) := by
  refine ⟨?_, ?_, ?_⟩
  · intro fuel ok new t h
    exact dhcpAcquire_exits h
  · intro hw hT
    exact dhcpAcquire_returns hw mac hT lease s
  · intro fuel adapter net net' h
    exact kernelMainNetwork_profile h

/-- A reply of the gateway that offers, or confirms, 10.0.2.15 to 52:54:00:12:34:56 in transaction
`0x4f520000`. -/
def leaseFrame (type : UInt8) : Buffer :=
  .ofBytes ([82, 84, 0, 18, 52, 86, 82, 84, 0, 18, 53, 2, 8, 0] ++
    [0x45, 0, 1, 40, 0, 1, 0, 0, 64, 17, 0, 0, 10, 0, 2, 2, 255, 255, 255, 255] ++
    [0, 67, 0, 68, 1, 20, 0, 0] ++
    [2, 1, 6, 0] ++ put32 0x4f520000 ++ List.replicate 8 0 ++ [10, 0, 2, 15] ++
    List.replicate 8 0 ++ [82, 84, 0, 18, 52, 86] ++ List.replicate 202 0 ++ put32 dhcpCookie ++
    [53, 1, type, 54, 4, 10, 0, 2, 2, 1, 4, 255, 255, 255, 0, 3, 4, 10, 0, 2, 2, 6, 4, 10, 0, 2, 3,
      255])

/-- A machine whose device delivers the OFFER at the first poll and the ACK at the second. -/
def leaseWorld : World where
  arch := .x86_64
  hz := 100
  ticks := fun k => k
  frames := fun k =>
    if k = 0 then [leaseFrame orionDhcpOffer] else if k = 1 then [leaseFrame orionDhcpAck] else []
  txOk := fun _ => true

def State.idle : State := ⟨0, 0, 0, [0, 0, 0, 0, 0, 0], .zero, 0x4f52, 0, 0, []⟩

/-- The exchange succeeds and the lease is complete. -/
theorem dhcp_acquire_smoke : ∃ new t,
    dhcpAcquire leaseWorld 2 [82, 84, 0, 18, 52, 86] 1000 .zero State.idle = some (true, new, t) ∧
    new.ip = [10, 0, 2, 15] ∧
    AllOrNothing (beginExchange leaseWorld [82, 84, 0, 18, 52, 86] State.idle).dhcpXid
      [82, 84, 0, 18, 52, 86] .zero new State.idle t true ∧ t.dhcpPhase = 0 ∧ t.dhcpEvent = 0 := by
  have hrun : (dhcpAcquire leaseWorld 2 [82, 84, 0, 18, 52, 86] 1000 .zero State.idle).map
      (fun r => (r.1, r.2.1.ip)) = some (true, [10, 0, 2, 15]) := by
    decide +kernel
  obtain ⟨⟨ok, new, t⟩, hacq, hr⟩ := Option.map_eq_some_iff.mp hrun
  obtain ⟨rfl, hip⟩ : ok = true ∧ new.ip = [10, 0, 2, 15] := by simpa using hr
  exact ⟨new, t, hacq, hip,
    (dhcp_acquire_all_or_nothing leaseWorld [82, 84, 0, 18, 52, 86] 1000 .zero State.idle).1 2 true
      new t hacq⟩

end Orion.Dhcp
