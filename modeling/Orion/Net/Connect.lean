import Orion.Net.Frames
import Orion.Net.Write

/-!
# Opening a TCP connection

`net_tcp_connect` sends SYN and polls while `tcp_event` is 1, and the segments that one poll processes
all change `tcp_event`.  A run of it is recorded with these segments (`SegmentRun`), and what they do
to the receive variables is computed from them (`SegmentRun.rx`).  The handshake is recognised exactly
if no segment but the SYN and ACK brings anything (`Calm`, `tcp_connect_recognises_iff`).
-/

namespace Orion.Net

open Orion.Traced Orion.Lib

/-! ## Segments that are processed -/

/-- What segments of the connection do, one after the other. -/
def Rx.receive (arch : Arch) (cap nxt : ℕ) (log : List Segment) (v : Rx) : Rx :=
  log.foldl (fun v x => v.input arch cap nxt x) v

/-- The connection is the same, and only acknowledgements are sent on it. -/
structure SameStream (s t : State) : Prop where
  conn : SameConn s t
  sndNxt : s.tcpSndNxt < 2 ^ 32 → t.tcpSndNxt = s.tcpSndNxt

theorem SameStream.refl (s : State) : SameStream s s := ⟨.refl s, fun _ => rfl⟩

theorem SameStream.trans {s t u : State} (h : SameStream s t) (h' : SameStream t u) :
    SameStream s u := by
  refine ⟨h.conn.trans h'.conn, fun hs => ?_⟩
  have ht := h.sndNxt hs
  rw [h'.sndNxt (by rw [ht]; exact hs), ht]

/-- A frame of the machine carries the segment to the host. -/
def Carries (w : World) (x : Segment) (s : State) : Prop :=
  ∃ k, ∃ frame ∈ w.frames k, ∃ y, passedOn w.arch frame s = some y ∧
    segmentAt frame.mem y.pl y.plen y.src = some x

/-- `handle_tcp` processes a segment of the connection. -/
structure Handles (w : World) (x : Segment) (s t : State) : Prop where
  carried : Carries w x s
  forConn : x.forConn s
  same : SameStream s t
  rx : t.rx = s.rx.input w.arch s.tcpOutCap s.tcpSndNxt x

/-- A run with the segments of the connection that are processed in it, in order. -/
def SegmentRun (w : World) (s : State) (log : List Segment) (t : State) : Prop :=
  Logged (Handles w) (fun s t => SameStream s t ∧ t.rx = s.rx) s log t

section

variable {w : World} {s t : State} {log : List Segment}

theorem SegmentRun.same (h : SegmentRun w s log t) : SameStream s t :=
  h.invariant (I := SameStream s) (fun _ _ _ hb hx => hb.trans hx.same)
    (fun _ _ hb hs => hb.trans hs.1) (.refl s)

/-- **The receive variables** after a run are computed from its segments. -/
theorem SegmentRun.rx (h : SegmentRun w s log t) (hnxt : s.tcpSndNxt < 2 ^ 32) :
    t.rx = s.rx.receive w.arch s.tcpOutCap s.tcpSndNxt log := by
  refine (h.observe (I := SameStream s) ?_ ?_ (.refl s)).2
  · intro x b c hb hx
    refine ⟨hb.trans hx.same, ?_⟩
    rw [hx.rx, hb.conn.cap, hb.sndNxt hnxt]
  · intro b c hb hs
    exact ⟨hb.trans hs.1, hs.2⟩

/-- Every segment of a run is carried by a frame to the address of the host. -/
theorem SegmentRun.carried (h : SegmentRun w s log t) :
    ∀ x ∈ log, ∃ b : State, b.ipAddr = s.ipAddr ∧ Carries w x b := by
  induction h with
  | start => simp
  | event x h hx ih =>
    intro z hz
    obtain hmem | hmem := List.mem_append.mp hz
    · exact ih z hmem
    · rw [List.mem_singleton.mp hmem]
      exact ⟨_, (SegmentRun.same h).conn.ipAddr, hx.carried⟩
  | silent _ _ ih => exact ih

theorem AckRun.sndNxt (h : AckRun w s log t) (hnxt : s.tcpSndNxt < 2 ^ 32) :
    t.tcpSndNxt = s.tcpSndNxt := by
  refine h.invariant (I := fun b => b.tcpSndNxt = s.tcpSndNxt) ?_ ?_ rfl
  · rintro x b c hb ⟨-, -, rfl⟩
    rw [← hb]
    unfold tcpAck
    split <;> rfl
  · intro b c hb hs
    rw [hs.sndNxt (by rw [hb]; exact hnxt), hb]

end

/-- What the code does outside the connection. -/
theorem SegmentRun.of_sameTcp {w : World} {s t : State} (h : SameTcp s t)
    (hnxt : t.tcpSndNxt = s.tcpSndNxt) : ∃ log, SegmentRun w s log t :=
  ⟨[], .of_silent ⟨⟨h.1, fun _ => hnxt⟩, h.2⟩⟩

/-- The runs of a routed connection.  That its acknowledgements are counted needs no route. -/
def ConnRun (w : World) (s t : State) : Prop :=
  (∃ log, AckRun w s log t) ∧ (Routed s → ∃ log, SegmentRun w s log t)

theorem connRun_handleRel (w : World) : HandleRel w (fun _ _ _ _ => True) (ConnRun w) where
  trans := by
    rintro s t u ⟨hst, hst'⟩ ⟨htu, htu'⟩
    refine ⟨(ackRun_segmentRel w).trans hst htu, fun hrouted => ?_⟩
    obtain ⟨log, h⟩ := hst' hrouted
    obtain ⟨log', h'⟩ := htu' (h.same.conn.routed hrouted)
    exact ⟨log ++ log', h.trans h'⟩
  idle s clock polls rxCount icmpReply := by
    refine ⟨(ackRun_segmentRel w).idle s clock polls rxCount icmpReply, fun _ => ?_⟩
    exact SegmentRun.of_sameTcp ⟨⟨rfl, rfl, rfl, rfl, rfl, rfl, rfl, id⟩, rfl⟩ rfl
  request s target := by
    refine ⟨(ackRun_segmentRel w).request s target, fun _ => ?_⟩
    obtain ⟨txCount, sent, heq⟩ := sendArpRequest_eq w target s
    rw [heq]
    exact SegmentRun.of_sameTcp ⟨⟨rfl, rfl, rfl, rfl, rfl, rfl, rfl, id⟩, rfl⟩ rfl
  packet := by
    intro s u proto dest payload hok hlen hsu
    refine ⟨(ackRun_segmentRel w).packet hok hlen hsu.1, fun _ => ?_⟩
    obtain ⟨ipId, txCount, sent, heq⟩ := packetSent_eq w proto dest payload u
    rw [heq]
    exact SegmentRun.of_sameTcp ⟨⟨rfl, rfl, rfl, rfl, rfl, rfl, rfl, id⟩, rfl⟩ rfl
  echo _ _ _ _ _ _ := trivial
  arp := by
    intro k frame s hframe hlen
    refine ⟨(ackRun_handleRel w).arp s hframe hlen, fun _ => ?_⟩
    refine SegmentRun.of_sameTcp (handleArp_sameTcp w frame.mem 14 (frame.len - 14) s) ?_
    rw [handleArp_value]
    cases arpAt frame.mem 14 (frame.len - 14) with
    | none => rfl
    | some x =>
      obtain ⟨mac, valid, txCount, sent, heq⟩ := arpInput_eq w x s
      rw [Option.elim_some, heq]
  udp := by
    intro k frame s y hframe hpass
    refine ⟨(ackRun_handleRel w).udp hframe hpass, fun _ => ?_⟩
    refine SegmentRun.of_sameTcp (handleUdp_sameTcp frame.mem y.pl y.plen s) ?_
    obtain ⟨done, answer, heq⟩ := handleUdp_eq frame.mem y.pl y.plen s
    rw [heq]
  tcp := by
    intro poll fuel k frame s t y hpoll hframe hpass h
    have hack := (ackRun_segmentRel w).handleTcp (fun a b hab => (hpoll a b hab).1) hframe hpass h
    refine ⟨hack, fun hrouted => ?_⟩
    obtain ⟨_, hack⟩ := hack
    rw [handleTcp_value] at h
    split at h
    · obtain rfl := Option.some.inj h
      exact SegmentRun.of_sameTcp (.refl s) rfl
    rename_i x hx
    split at h
    · rename_i hconn
      obtain ⟨u, hu, hsame, hrx⟩ := @tcpInput_rx w poll fuel s hrouted x
      rw [hu] at h
      obtain rfl := Option.some.inj h
      exact ⟨[x], .of_event ⟨⟨k, frame, hframe, y, hpass, hx⟩, hconn, ⟨hsame, hack.sndNxt⟩, hrx⟩⟩
    · obtain rfl := Option.some.inj h
      exact SegmentRun.of_sameTcp (.refl s) rfl

/-! ## What segments do to a handshake -/

namespace Segment

def rst (x : Segment) : Prop := x.flags &&& 0x04 ≠ 0

/-- SYN and ACK, for the number `nxt`. -/
def SynAck (nxt : ℕ) (x : Segment) : Prop := x.flags &&& 0x12 = 0x12 ∧ x.ack = nxt

instance (nxt : ℕ) (x : Segment) : Decidable (x.SynAck nxt) := by unfold SynAck; infer_instance

/-- The segment has neither FIN nor data at the number `r`. -/
def Quiet (r : ℕ) (x : Segment) : Prop := ¬ x.fin ∧ (x.data = [] ∨ x.seq ≠ r)

end Segment

/-- Only the first SYN and ACK for `nxt` brings anything: before it no number but 0 is expected, and
then the one behind its own. -/
def Calm (nxt : ℕ) (log : List Segment) : Prop :=
  ∃ before y after, log = before ++ y :: after ∧ y.SynAck nxt ∧
    (∀ x ∈ before, ¬ x.SynAck nxt ∧ x.Quiet 0) ∧ ∀ x ∈ after, x.Quiet (u32 (y.seq + 1))

namespace Rx

section

variable {arch : Arch} {cap nxt : ℕ} {x : Segment} {log : List Segment} {v : Rx}

@[simp] theorem receive_nil : v.receive arch cap nxt [] = v := rfl

@[simp] theorem receive_cons :
    v.receive arch cap nxt (x :: log) = (v.input arch cap nxt x).receive arch cap nxt log := rfl

theorem receive_append (before after : List Segment) :
    v.receive arch cap nxt (before ++ after) =
      (v.receive arch cap nxt before).receive arch cap nxt after :=
  List.foldl_append

theorem input_synAck (hopen : v.event = 1) (hx : x.SynAck nxt) :
    v.input arch cap nxt x = ⟨2, u32 (x.seq + 1), v.out⟩ := by
  rw [input, if_pos ⟨hx.1, hopen, hx.2⟩]

theorem input_other (h : v.event ≠ 1 ∨ ¬ x.SynAck nxt) : v.input arch cap nxt x =
    if x.flags &&& 0x04 ≠ 0 then { v with event := -1 } else v.accept arch cap x := by
  have hother : ¬ (x.flags &&& 0x12 = 0x12 ∧ v.event = 1 ∧ x.ack = nxt) := by
    rintro ⟨hflags, hopen, hack⟩
    exact h.elim (fun hclosed => hclosed hopen) (fun hnone => hnone ⟨hflags, hack⟩)
  exact if_neg hother

theorem input_accept (h : v.event ≠ 1 ∨ ¬ x.SynAck nxt) (hrst : ¬ x.rst) :
    v.input arch cap nxt x = v.accept arch cap x :=
  (input_other h).trans (if_neg hrst)

theorem accept_quiet (h : x.Quiet v.rcvNxt) : v.accept arch cap x = v := by
  have hnone : ¬ (x.data ≠ [] ∧ x.seq = v.rcvNxt) := by
    rintro ⟨hdata, hseq⟩
    exact h.2.elim hdata (fun hother => hother hseq)
  rw [accept, takeData, if_neg hnone, takeFin, if_neg h.1]

theorem accept_loud (h : ¬ x.Quiet v.rcvNxt) :
    (v.accept arch cap x).event = 3 ∨ (v.accept arch cap x).event = 4 := by
  unfold accept takeFin
  split
  · exact .inr rfl
  · rename_i hfin
    have hdata : x.data ≠ [] ∧ x.seq = v.rcvNxt := by
      by_contra hnone
      exact h ⟨hfin, (not_and_or.mp hnone).imp_left not_not.mp⟩
    rw [takeData, if_pos hdata]
    exact .inl rfl

end

section

variable {arch : Arch} {cap nxt : ℕ}

/-- The wait for the handshake does not begin again. -/
theorem receive_closed : ∀ {log : List Segment} {v : Rx}, v.event ≠ 1 →
    (v.receive arch cap nxt log).event ≠ 1 := by
  intro log
  induction log with
  | nil => exact fun h => h
  | cons x log ih =>
    intro v hv
    rw [receive_cons]
    refine ih ?_
    rw [input_other (.inl hv)]
    split
    · exact show (-1 : ℤ) ≠ 1 by decide
    · obtain hsame | hdata | hfin := accept_event arch cap x v
      · rw [hsame]
        exact hv
      · rw [hdata]
        decide
      · rw [hfin]
        decide

/-- Behind data or a FIN, no segment establishes the connection. -/
theorem receive_missed : ∀ {log : List Segment} {v : Rx}, v.event = 3 ∨ v.event = 4 →
    (∀ x ∈ log, ¬ x.rst) →
      (v.receive arch cap nxt log).event = 3 ∨ (v.receive arch cap nxt log).event = 4 := by
  intro log
  induction log with
  | nil => exact fun hv _ => hv
  | cons x log ih =>
    intro v hv hrst
    obtain ⟨hfirst, hrest⟩ := List.forall_mem_cons.mp hrst
    rw [receive_cons, input_accept (.inl (by omega)) hfirst]
    refine ih ?_ hrest
    obtain hsame | hevent := accept_event arch cap x v
    · rw [hsame]
      exact hv
    · exact hevent

/-- An established connection stays so exactly while nothing comes. -/
theorem receive_established : ∀ {log : List Segment} {v : Rx}, v.event = 2 → (∀ x ∈ log, ¬ x.rst) →
    ((v.receive arch cap nxt log).event = 2 ↔ ∀ x ∈ log, x.Quiet v.rcvNxt) := by
  intro log
  induction log with
  | nil => exact fun hv _ => ⟨fun _ => by simp, fun _ => hv⟩
  | cons x log ih =>
    intro v hv hrst
    obtain ⟨hfirst, hrest⟩ := List.forall_mem_cons.mp hrst
    rw [receive_cons, input_accept (.inl (by omega)) hfirst, List.forall_mem_cons]
    by_cases hquiet : x.Quiet v.rcvNxt
    · rw [accept_quiet hquiet, ih hv hrest]
      exact ⟨fun h => ⟨hquiet, h⟩, fun h => h.2⟩
    · have hmissed := @receive_missed arch cap nxt log _ (@accept_loud arch cap x v hquiet) hrest
      refine ⟨fun h => ?_, fun h => absurd h.1 hquiet⟩
      omega

/-- Before the SYN and ACK, segments that bring nothing change nothing. -/
theorem receive_waiting : ∀ {log : List Segment} {v : Rx}, (∀ x ∈ log, ¬ x.rst) →
    (∀ x ∈ log, ¬ x.SynAck nxt ∧ x.Quiet v.rcvNxt) → v.receive arch cap nxt log = v := by
  intro log
  induction log with
  | nil => exact fun _ _ => rfl
  | cons x log ih =>
    intro v hrst hcalm
    obtain ⟨hfirst, hrest⟩ := List.forall_mem_cons.mp hrst
    obtain ⟨⟨hother, hquiet⟩, hcalm⟩ := List.forall_mem_cons.mp hcalm
    rw [receive_cons, input_accept (.inr hother) hfirst, accept_quiet hquiet]
    exact ih hrest hcalm

/-- Before the SYN and ACK, a segment that brings something ends the wait. -/
theorem receive_early : ∀ {log : List Segment} {v : Rx}, (∀ x ∈ log, ¬ x.rst) →
    (∀ x ∈ log, ¬ x.SynAck nxt) → (¬ ∀ x ∈ log, x.Quiet v.rcvNxt) →
      (v.receive arch cap nxt log).event = 3 ∨ (v.receive arch cap nxt log).event = 4 := by
  intro log
  induction log with
  | nil =>
    intro v _ _ hloud
    exact absurd (by simp) hloud
  | cons x log ih =>
    intro v hrst hnone hloud
    obtain ⟨hfirst, hrest⟩ := List.forall_mem_cons.mp hrst
    obtain ⟨hother, hnone⟩ := List.forall_mem_cons.mp hnone
    rw [receive_cons, input_accept (.inr hother) hfirst]
    by_cases hquiet : x.Quiet v.rcvNxt
    · rw [accept_quiet hquiet]
      exact ih hrest hnone fun hall => hloud (List.forall_mem_cons.mpr ⟨hquiet, hall⟩)
    · exact receive_missed (accept_loud hquiet) hrest

end

end Rx

/-- The first SYN and ACK. -/
theorem first_synAck {nxt : ℕ} {log : List Segment} (h : ∃ x ∈ log, x.SynAck nxt) :
    ∃ before y after, log = before ++ y :: after ∧ y.SynAck nxt ∧ ∀ x ∈ before, ¬ x.SynAck nxt := by
  have hfound : (log.find? fun x => decide (x.SynAck nxt)).isSome := by simpa using h
  obtain ⟨y, hy⟩ := Option.isSome_iff_exists.mp hfound
  obtain ⟨hsyn, before, after, hlog, hnone⟩ := List.find?_eq_some_iff_append.mp hy
  exact ⟨before, y, after, hlog, of_decide_eq_true hsyn, fun x hx => by simpa using hnone x hx⟩

/-- **The handshake is seen exactly if nothing else comes**: for segments without RST, in any order,
with a SYN and ACK among them. -/
theorem Rx.receive_calm {arch : Arch} {cap nxt : ℕ} {v : Rx} (hopen : v.event = 1) (hrcv : v.rcvNxt = 0)
    {log : List Segment} (hrst : ∀ x ∈ log, ¬ x.rst) (hsyn : ∃ x ∈ log, x.SynAck nxt) :
    (v.receive arch cap nxt log).event = 2 ↔ Calm nxt log := by
  have hsplit : ∀ {before after : List Segment} {y : Segment}, log = before ++ y :: after →
      (∀ x ∈ before, ¬ x.rst) ∧ ∀ x ∈ after, ¬ x.rst := by
    rintro before after y rfl
    exact ⟨fun x hx => hrst x (List.mem_append_left _ hx),
      fun x hx => hrst x (List.mem_append_right before (List.mem_cons_of_mem y hx))⟩
  have hquiet : ∀ {before after : List Segment} {y : Segment}, log = before ++ y :: after →
      y.SynAck nxt → (∀ x ∈ before, ¬ x.SynAck nxt ∧ x.Quiet 0) →
        ((v.receive arch cap nxt log).event = 2 ↔ ∀ x ∈ after, x.Quiet (u32 (y.seq + 1))) := by
    intro before after y hlog hy hbefore
    obtain ⟨hrstBefore, hrstAfter⟩ := hsplit hlog
    rw [hlog, receive_append, receive_waiting hrstBefore (by rw [hrcv]; exact hbefore), receive_cons,
      input_synAck hopen hy]
    exact receive_established rfl hrstAfter
  constructor
  · intro hevent
    obtain ⟨before, y, after, hlog, hy, hnone⟩ := first_synAck hsyn
    obtain ⟨hrstBefore, hrstAfter⟩ := hsplit hlog
    by_cases hall : ∀ x ∈ before, x.Quiet 0
    · have hbefore := fun x hx => And.intro (hnone x hx) (hall x hx)
      exact ⟨before, y, after, hlog, hy, hbefore, (hquiet hlog hy hbefore).mp hevent⟩
    · -- the wait was over before the SYN and ACK came
      have hearly := @receive_early arch cap nxt before v hrstBefore hnone (by rw [hrcv]; exact hall)
      have hmissed := @receive_missed arch cap nxt (y :: after) _ hearly
        fun x hx => hrst x (by rw [hlog]; exact List.mem_append_right before hx)
      rw [hlog, receive_append] at hevent
      omega
  · rintro ⟨before, y, after, hlog, hy, hbefore, hafter⟩
    exact (hquiet hlog hy hbefore).mpr hafter

/-- A SYN and ACK that is processed ends the wait. -/
theorem Rx.receive_synAck {arch : Arch} {cap nxt : ℕ} {v : Rx} {log : List Segment}
    (hsyn : ∃ x ∈ log, x.SynAck nxt) : (v.receive arch cap nxt log).event ≠ 1 := by
  obtain ⟨x, hx, hsyn⟩ := hsyn
  obtain ⟨before, after, rfl⟩ := List.mem_iff_append.mp hx
  rw [receive_append, receive_cons]
  refine receive_closed ?_
  by_cases hopen : (v.receive arch cap nxt before).event = 1
  · rw [input_synAck hopen hsyn]
    exact show (2 : ℤ) ≠ 1 by decide
  · exact @receive_closed arch cap nxt [x] _ hopen

/-! ## Runs of `net_tcp_connect` -/

/-- `net_tcp_connect` has sent SYN. -/
def SynSent (w : World) (fuel : ℕ) (host : List UInt8) (port : ℕ) (s u : State) : Prop :=
  s.ready = true ∧ port ≠ 0 ∧ ∃ dest a nh b,
    dnsLookup w fuel host s = some (some dest, a) ∧
    resolveNextHop w (netPoll w fuel) fuel dest a = some (some nh, b) ∧
    sendTcp w (netPoll w fuel) fuel 0x02 [] (tcpOpen w dest port b) = some u

/-- A run of `net_tcp_connect` that sends SYN: the state behind that, the segments of the connection
that are processed until it returns, and its result. -/
structure ConnectRun (w : World) (fuel : ℕ) (host : List UInt8) (port : ℕ) (s u : State)
    (log : List Segment) (r : Except String Unit) (t : State) : Prop where
  syn : SynSent w fuel host port s u
  wait : pollWhile w fuel (nowMs w u).1 4000 (fun s => s.tcpEvent = 1) fuel (nowMs w u).2 = some t
  segments : SegmentRun w u log t
  result : r = if t.tcpEvent ≠ 2 then .error "TCP connect failed" else .ok ()

section

variable {w : World} {fuel : ℕ} {host : List UInt8} {port : ℕ} {s t u : State} {log : List Segment}
  {r : Except String Unit}

theorem SynSent.waiting (h : SynSent w fuel host port s u) :
    Routed u ∧ u.rx = ⟨1, 0, []⟩ ∧ u.tcpSndNxt < 2 ^ 32 := by
  obtain ⟨-, -, dest, a, nh, b, -, hhop, hsend⟩ := h
  have hrouted := tcpOpen_routed port hhop
  obtain ⟨ipId, txCount, sent, hsent⟩ := sendTcp_sent w (netPoll w fuel) fuel hrouted 0x02 []
  rw [hsent] at hsend
  obtain rfl := Option.some.inj hsend
  exact ⟨hrouted, rfl, u32_lt _⟩

/-- **Every call that returns is a run**, or it ends before SYN is sent. -/
theorem netTcpConnect_run (h : netTcpConnect w fuel host port s = some (r, t)) :
    r = .error "TCP unavailable" ∨ r = .error "DNS failed" ∨ r = .error "ARP failed" ∨
      ∃ u log, ConnectRun w fuel host port s u log r t := by
  unfold netTcpConnect at h
  split at h
  · exact .inl (Prod.mk.inj (Option.some.inj h)).1.symm
  rename_i hready
  obtain ⟨hready, hport⟩ := not_or.mp hready
  obtain ⟨⟨dest, a⟩, hdns, h⟩ := Option.bind_eq_some_iff.mp h
  cases dest with
  | none => exact .inr (.inl (Prod.mk.inj (Option.some.inj h)).1.symm)
  | some dest =>
  obtain ⟨⟨hop, b⟩, hhop, h⟩ := Option.bind_eq_some_iff.mp h
  cases hop with
  | none => exact .inr (.inr (.inl (Prod.mk.inj (Option.some.inj h)).1.symm))
  | some nh =>
  obtain ⟨u, hsend, h⟩ := Option.bind_eq_some_iff.mp h
  obtain ⟨v, hwait, h⟩ := Option.bind_eq_some_iff.mp h
  have hsyn : SynSent w fuel host port s u :=
    ⟨by simpa using hready, hport, dest, a, nh, b, hdns, hhop, hsend⟩
  have hrun := (connRun_handleRel w).trans ((connRun_handleRel w).toSendRel.nowMs u)
    ((connRun_handleRel w).pollWhile fuel _ _ hwait)
  obtain ⟨log, hlog⟩ := hrun.2 hsyn.waiting.1
  have hresult : r = (if v.tcpEvent ≠ 2 then .error "TCP connect failed" else .ok ()) ∧ v = t := by
    split at h
    · rename_i hevent
      rw [if_pos hevent]
      exact ⟨(Prod.mk.inj (Option.some.inj h)).1.symm, (Prod.mk.inj (Option.some.inj h)).2⟩
    · rename_i hevent
      rw [if_neg hevent]
      exact ⟨(Prod.mk.inj (Option.some.inj h)).1.symm, (Prod.mk.inj (Option.some.inj h)).2⟩
  obtain ⟨hresult, rfl⟩ := hresult
  exact .inr (.inr (.inr ⟨u, log, hsyn, hwait, hlog, hresult⟩))

/-- A run is what the call does. -/
theorem ConnectRun.netTcpConnect (h : ConnectRun w fuel host port s u log r t) :
    netTcpConnect w fuel host port s = some (r, t) := by
  obtain ⟨⟨hready, hport, dest, a, nh, b, hdns, hhop, hsend⟩, hwait, -, rfl⟩ := h
  have hcond : ¬ (s.ready = false ∨ port = 0) := by
    rw [hready]
    exact not_or.mpr ⟨by decide, hport⟩
  rw [Orion.Net.netTcpConnect, if_neg hcond, hdns]
  simp only [Option.bind_eq_bind, Option.bind_some]
  rw [hhop, Option.bind_some, hsend, Option.bind_some, hwait, Option.bind_some]
  show (if t.tcpEvent ≠ 2 then some (Except.error "TCP connect failed", t) else some (.ok (), t)) = _
  split <;> rfl

/-- A SYN and ACK that was processed ends the loop. -/
theorem pollWhile_synAck {st n : ℕ} (hnxt : u.tcpSndNxt < 2 ^ 32) (h : SegmentRun w u log t)
    (hsyn : ∃ x ∈ log, x.SynAck u.tcpSndNxt) :
    pollWhile w fuel st 4000 (fun s => s.tcpEvent = 1) (n + 1) t = some (elapsed w st 4000 t).2 := by
  have hevent : t.rx.event ≠ 1 := by
    rw [h.rx hnxt]
    exact Rx.receive_synAck hsyn
  have hover : ¬ (elapsed w st 4000 t).2.rx.event = 1 := by
    rw [(elapsed_sameTcp w st 4000 t).2]
    exact hevent
  rw [pollWhile]
  exact if_pos (.inr (decide_eq_false hover))

theorem ConnectRun.calm (h : ConnectRun w fuel host port s u log r t)
    (hsyn : ∃ x ∈ log, x.SynAck u.tcpSndNxt) (hrst : ∀ x ∈ log, ¬ x.rst) :
    r = .ok () ↔ Calm u.tcpSndNxt log := by
  obtain ⟨-, hrx, hnxt⟩ := h.syn.waiting
  have hevent : t.tcpEvent = 2 ↔ Calm u.tcpSndNxt log := by
    rw [show t.tcpEvent = t.rx.event from rfl, h.segments.rx hnxt]
    exact Rx.receive_calm (by rw [hrx]) (by rw [hrx]) hrst hsyn
  rw [h.result, ← hevent]
  split
  · rename_i hother
    exact ⟨fun h => by simp at h, fun h => absurd h hother⟩
  · rename_i hthere
    exact ⟨fun _ => not_not.mp hthere, fun _ => rfl⟩

end

/-- **`net_tcp_connect` recognises a handshake exactly if it is calm.**  Every call that returns ends
before SYN is sent or is a run, and every run is a call.  A SYN and ACK that is processed ends the
loop, and then, without RST, the result is 1 exactly if no other segment brought anything. -/
theorem tcp_connect_recognises_iff (w : World) (fuel : ℕ) (host : List UInt8) (port : ℕ) (s : State) :
    (∀ r t, netTcpConnect w fuel host port s = some (r, t) →
      r = .error "TCP unavailable" ∨ r = .error "DNS failed" ∨ r = .error "ARP failed" ∨
        ∃ u log, ConnectRun w fuel host port s u log r t) ∧
    (∀ u log v st n, SynSent w fuel host port s u → SegmentRun w u log v →
      (∃ x ∈ log, x.SynAck u.tcpSndNxt) →
        pollWhile w fuel st 4000 (fun s => s.tcpEvent = 1) (n + 1) v = some (elapsed w st 4000 v).2) ∧
    ∀ u log r t, ConnectRun w fuel host port s u log r t →
      netTcpConnect w fuel host port s = some (r, t) ∧
        ((∃ x ∈ log, x.SynAck u.tcpSndNxt) → (∀ x ∈ log, ¬ x.rst) →
          (r = .ok () ↔ Calm u.tcpSndNxt log)) :=
  ⟨fun _ _ h => netTcpConnect_run h, fun _ _ _ _ _ h hrun hsyn => pollWhile_synAck h.waiting.2.2 hrun hsyn,
    fun _ _ _ _ h => ⟨h.netTcpConnect, h.calm⟩⟩

/-! ## Segments behind the SYN and ACK -/

/-- The segments arrive in the first poll. -/
def arrivals (xs : List Segment) : World :=
  ⟨.x86_64, 100, fun k => k, fun k => if k = 0 then xs.map (segmentFrame upState.ipAddr) else [],
    fun _ => true⟩

theorem arrivals_carries {xs : List Segment} (hxs : ∀ x ∈ xs, x.WellFormed ∧ x.data.length ≤ 1460)
    {x : Segment} {s : State} (hs : s.ipAddr = upState.ipAddr) (h : Carries (arrivals xs) x s) :
    x ∈ xs := by
  obtain ⟨k, frame, hframe, y, hpass, hx⟩ := h
  obtain ⟨z, hz, rfl⟩ : ∃ z ∈ xs, segmentFrame upState.ipAddr z = frame := by
    unfold arrivals at hframe
    simp only at hframe
    split at hframe
    · exact List.mem_map.mp hframe
    · exact absurd hframe List.not_mem_nil
  obtain ⟨hwell, hlen⟩ := hxs z hz
  obtain ⟨hpass', hsegment⟩ := segmentFrame_decodes rfl hwell hlen (arrivals xs).arch hs
  rw [hpass'] at hpass
  obtain rfl := Option.some.inj hpass
  rw [hsegment] at hx
  rw [← Option.some.inj hx]
  exact hz

/-- SYN is sent to port 80 of the gateway. -/
theorem arrivals_syn {xs : List Segment} {u : State}
    (h : SynSent (arrivals xs) 3 (ascii "10.0.2.2") 80 upState u) :
    u.ipAddr = upState.ipAddr ∧ u.tcpSndNxt = 0x13570001 := by
  obtain ⟨-, -, dest, a, nh, b, hdns, hhop, hsend⟩ := h
  have hparse : parseIpv4 (ascii "10.0.2.2") = some [10, 0, 2, 2] := by decide +kernel
  rw [dnsLookup, hparse] at hdns
  obtain ⟨rfl, rfl⟩ : [10, 0, 2, 2] = dest ∧ upState = a := by simpa using hdns
  have hrouted := tcpOpen_routed 80 hhop
  unfold resolveNextHop at hhop
  rw [if_pos (by decide)] at hhop
  obtain ⟨-, rfl⟩ : some upState.gatewayMac = some nh ∧ upState = b := by simpa using hhop
  obtain ⟨ipId, txCount, sent, hsent⟩ :=
    sendTcp_sent (arrivals xs) (netPoll (arrivals xs) 3) 3 hrouted 0x02 []
  rw [hsent] at hsend
  obtain rfl := Option.some.inj hsend
  exact ⟨rfl, rfl⟩

/-- The segments of such a run are those that arrive, and the SYN and ACK is processed if the wait
ends and nothing else ends it. -/
theorem arrivals_run {xs : List Segment} (hxs : ∀ x ∈ xs, x.WellFormed ∧ x.data.length ≤ 1460)
    {r : Except String Unit} {u t : State} {log : List Segment}
    (h : ConnectRun (arrivals xs) 3 (ascii "10.0.2.2") 80 upState u log r t) (hevent : t.tcpEvent ≠ 1)
    (hquiet : ∀ x ∈ xs, ¬ x.rst ∧ (x.SynAck 0x13570001 ∨ x.Quiet 0)) :
    u.tcpSndNxt = 0x13570001 ∧ (∀ x ∈ log, x ∈ xs) ∧ ∃ x ∈ log, x.SynAck u.tcpSndNxt := by
  obtain ⟨hip, hnxt⟩ := arrivals_syn h.syn
  have hmem : ∀ x ∈ log, x ∈ xs := by
    intro x hx
    obtain ⟨b, hb, hcarried⟩ := h.segments.carried x hx
    exact arrivals_carries hxs (hb.trans hip) hcarried
  refine ⟨hnxt, hmem, ?_⟩
  by_contra hnone
  have hcalm : ∀ x ∈ log, ¬ x.SynAck u.tcpSndNxt ∧ x.Quiet u.rx.rcvNxt := by
    intro x hx
    have hother : ¬ x.SynAck u.tcpSndNxt := fun hsyn => hnone ⟨x, hx, hsyn⟩
    refine ⟨hother, ?_⟩
    rw [h.syn.waiting.2.1]
    exact (hquiet x (hmem x hx)).2.resolve_left (by rw [← hnxt]; exact hother)
  have hrx := h.segments.rx h.syn.waiting.2.2
  rw [Rx.receive_waiting (fun x hx => (hquiet x (hmem x hx)).1) hcalm, h.syn.waiting.2.1] at hrx
  exact hevent (congrArg Rx.event hrx)

theorem tcp_connect_recognises_smoke : ∃ u log t,
    ConnectRun (arrivals [serverSegment 1000 0x12 []]) 3 (ascii "10.0.2.2") 80 upState u log (.ok ()) t ∧
      Calm u.tcpSndNxt log := by
  have hresult : (netTcpConnect (arrivals [serverSegment 1000 0x12 []]) 3 (ascii "10.0.2.2") 80
      upState).map (fun y => (y.1, y.2.tcpEvent)) = some (.ok (), 2) := by
    decide +kernel
  obtain ⟨⟨r, t⟩, hcall, hrt⟩ := Option.map_eq_some_iff.mp hresult
  obtain ⟨rfl, hevent⟩ := Prod.mk.inj hrt
  obtain ⟨hruns, -, hiff⟩ := tcp_connect_recognises_iff (arrivals [serverSegment 1000 0x12 []]) 3
    (ascii "10.0.2.2") 80 upState
  obtain h | h | h | ⟨u, log, hrun⟩ := hruns _ _ hcall
  · simp at h
  · simp at h
  · simp at h
  have hwell : ∀ x ∈ [serverSegment 1000 0x12 []], x.WellFormed ∧ x.data.length ≤ 1460 := by
    intro x hx
    rw [List.mem_singleton.mp hx]
    exact ⟨serverSegment_wellFormed (by decide) _ _, by decide⟩
  have hquiet : ∀ x ∈ [serverSegment 1000 0x12 []],
      ¬ x.rst ∧ (x.SynAck 0x13570001 ∨ x.Quiet 0) := by
    intro x hx
    rw [List.mem_singleton.mp hx]
    exact ⟨not_not_intro (by decide), .inl (by decide)⟩
  obtain ⟨-, hmem, hsyn⟩ := arrivals_run hwell hrun (by rw [hevent]; decide) hquiet
  have hcalm := ((hiff u log _ t hrun).2 hsyn fun x hx => (hquiet x (hmem x hx)).1).mp rfl
  exact ⟨u, log, t, hrun, hcalm⟩

/-- The first data of the server in the same poll as its SYN and ACK. -/
theorem tcp_connect_early_data : ¬ ∀ {w : World} {fuel : ℕ} {host : List UInt8} {port : ℕ} {s u t : State}
    {log : List Segment} {r : Except String Unit}, ConnectRun w fuel host port s u log r t →
      (∃ x ∈ log, x.SynAck u.tcpSndNxt) → (∀ x ∈ log, ¬ x.rst) → r = .ok () := by
  intro hworks
  have hresult : (netTcpConnect (arrivals [serverSegment 1000 0x12 [], serverSegment 1001 0x18 [72, 105]])
      3 (ascii "10.0.2.2") 80 upState).map (fun y => (y.1, y.2.tcpEvent)) =
        some (.error "TCP connect failed", 3) := by
    decide +kernel
  obtain ⟨⟨r, t⟩, hcall, hrt⟩ := Option.map_eq_some_iff.mp hresult
  obtain ⟨rfl, hevent⟩ := Prod.mk.inj hrt
  obtain h | h | h | ⟨u, log, hrun⟩ := netTcpConnect_run hcall
  · simp at h
  · simp at h
  · simp at h
  have hwell : ∀ x ∈ [serverSegment 1000 0x12 [], serverSegment 1001 0x18 [72, 105]],
      x.WellFormed ∧ x.data.length ≤ 1460 := by
    intro x hx
    obtain rfl | hx := List.mem_cons.mp hx
    · exact ⟨serverSegment_wellFormed (by decide) _ _, by decide⟩
    · rw [List.mem_singleton.mp hx]
      exact ⟨serverSegment_wellFormed (by decide) _ _, by decide⟩
  have hquiet : ∀ x ∈ [serverSegment 1000 0x12 [], serverSegment 1001 0x18 [72, 105]],
      ¬ x.rst ∧ (x.SynAck 0x13570001 ∨ x.Quiet 0) := by
    intro x hx
    obtain rfl | hx := List.mem_cons.mp hx
    · exact ⟨not_not_intro (by decide), .inl (by decide)⟩
    · rw [List.mem_singleton.mp hx]
      exact ⟨not_not_intro (by decide), .inr ⟨not_not_intro (by decide), .inr (by decide)⟩⟩
  obtain ⟨-, hmem, hsyn⟩ := arrivals_run hwell hrun (by rw [hevent]; decide) hquiet
  have hok := hworks hrun hsyn fun x hx => (hquiet x (hmem x hx)).1
  simp at hok

end Orion.Net
