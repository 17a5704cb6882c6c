import Orion.Net.Poll

/-!
# Runs of a TCP connection

A `Trace` is a run of a connection from one moment to another: segments arrive at `handle_tcp`, the
buffer is read as `net_tcp_read` reads it, and other parts of the stack move.  It carries along what
the reader has got so far and whether a FIN arrived in order.

* `netPoll_trace`, `netTcpRead_trace` — every poll and every read of the code is such a run, also
  when a handler polls again while it waits for an ARP answer;
* `netTcpConnect_established` — the state in which `net_tcp_connect` returns 1.
-/

namespace Orion.Net

open Orion.Traced

/-- A connection with the bytes its reader has got and whether an in-order FIN was processed. -/
structure Conn where
  net : State
  delivered : List UInt8
  fin : Bool

/-- A FIN whose sequence position is the next expected one, when its own data are taken first. -/
def InOrderFin (x : Segment) (v : Rx) : Prop :=
  x.fin ∧ x.flags &&& 0x04 = 0 ∧ (x.seq = v.rcvNxt ∨ u32 (x.seq + x.data.length) = v.rcvNxt)

instance (x : Segment) (v : Rx) : Decidable (InOrderFin x v) := by
  unfold InOrderFin; infer_instance

/-- The runs from `c`, with a condition `ok` on each segment of the connection and the moment at
which it arrives. -/
inductive Trace (w : World) (ok : Conn → Segment → Prop) (c : Conn) : Conn → Prop
  | start : Trace w ok c c
  | segment {d : Conn} {poll : State → Option State} {fuel : ℕ} {mem : ℕ → UInt8} {p len src : ℕ}
      {x : Segment} {s : State} (h : Trace w ok c d) (hx : segmentAt mem p len src = some x)
      (hok : x.forConn d.net → ok d x)
      (hs : (handleTcp w poll fuel mem p len src d.net).value = some s) :
      Trace w ok c ⟨s, d.delivered, d.fin || decide (x.forConn d.net ∧ InOrderFin x d.net.rx)⟩
  | read {d : Conn} (cap : ℕ) (h : Trace w ok c d) :
      Trace w ok c ⟨(tcpTake cap d.net).2, d.delivered ++ (tcpTake cap d.net).1, d.fin⟩
  | other {d : Conn} {s : State} (h : Trace w ok c d) (hs : SameTcp d.net s) :
      Trace w ok c { d with net := s }

/-- A segment that is not for the connection changes nothing; one that is goes through
`tcpInput`. -/
theorem handleTcp_segment {w : World} {poll : State → Option State} {fuel : ℕ} {mem : ℕ → UInt8}
    {p len src : ℕ} {x : Segment} {s t : State} (hx : segmentAt mem p len src = some x)
    (h : (handleTcp w poll fuel mem p len src s).value = some t) :
    (x.forConn s ∧ tcpInput w poll fuel x s = some t) ∨ (¬ x.forConn s ∧ t = s) := by
  rw [handleTcp_value, hx] at h
  simp only at h
  split at h
  · next hf => exact .inl ⟨hf, h⟩
  · next hf => exact .inr ⟨hf, (Option.some.inj h).symm⟩

theorem Trace.sameConn {w : World} {ok : Conn → Segment → Prop} {c d : Conn}
    (hr : Routed c.net) (h : Trace w ok c d) : SameConn c.net d.net := by
  induction h with
  | start => exact .refl _
  | segment h hx hok hs ih =>
    rcases handleTcp_segment hx hs with ⟨-, hin⟩ | ⟨-, rfl⟩
    · obtain ⟨t, ht, hc, -⟩ := tcpInput_cases (ih.routed hr) _
      rw [hin] at ht
      obtain rfl := Option.some.inj ht
      exact ih.trans hc
    · exact ih
  | read cap h ih => exact ih.trans ⟨rfl, rfl, rfl, rfl, rfl, rfl, rfl, id⟩
  | other h hs ih => exact ih.trans hs.1

/-! ## Segments as memory -/

/-- The field widths of a segment. -/
structure Segment.WellFormed (x : Segment) : Prop where
  srcip : x.srcip.length = 4
  sp : x.sp < 2 ^ 16
  dp : x.dp < 2 ^ 16
  seq : x.seq < 2 ^ 32
  ack : x.ack < 2 ^ 32

/-- The source address of a segment, then its header of 20 bytes, then its data. -/
def Segment.mem (x : Segment) (i : ℕ) : UInt8 :=
  (x.srcip ++ put16 x.sp ++ put16 x.dp ++ put32 x.seq ++ put32 x.ack ++
    [0x50, x.flags, 0, 0, 0, 0, 0, 0] ++ x.data).getD i 0

/-- **Every segment can arrive**: its memory decodes to it. -/
theorem segmentAt_mem {x : Segment} (h : x.WellFormed) :
    segmentAt x.mem 4 (20 + x.data.length) 0 = some x := by
  obtain ⟨srcip, sp, dp, seq, ack, flags, data⟩ := x
  obtain ⟨hip, hsp, hdp, hseq, hack⟩ := h
  simp only at hip hsp hdp hseq hack
  obtain ⟨a, b, c, d, rfl⟩ : ∃ a b c d, srcip = [a, b, c, d] := by
    match srcip, hip with
    | [a, b, c, d], _ => exact ⟨a, b, c, d, rfl⟩
  generalize hx : Segment.mk [a, b, c, d] sp dp seq ack flags data = x
  have hoff : x.mem (4 + 12) = 0x50 := by
    rw [← hx]
    rfl
  have hhlen : (x.mem (4 + 12)).toNat / 16 * 4 = 20 := by
    rw [hoff]
    rfl
  have hdata : (readSpan x.mem (4 + 20) data.length).value = data := by
    rw [value_readSpan]
    apply List.ext_getElem
    · simp
    · intro i h1 h2
      rw [List.getElem_map, List.getElem_range, ← hx]
      show ([a, b, c, d] ++ put16 sp ++ put16 dp ++ put32 seq ++ put32 ack ++
        [0x50, flags, 0, 0, 0, 0, 0, 0] ++ data).getD (4 + 20 + i) 0 = data[i]
      rw [List.getD_eq_getElem?_getD, List.getElem?_append_right (by simp [put16, put32])]
      simp [put16, put32, List.getElem?_eq_getElem h2]
  have hlen : x.data.length = data.length := by rw [← hx]
  unfold segmentAt decodeSegment
  simp only [hhlen, hlen, Nat.add_sub_cancel_left, hdata]
  rw [if_neg (by omega), get16_of_put16 (v := sp) (by rw [← hx]; rfl) hsp,
    get16_of_put16 (v := dp) (by rw [← hx]; rfl) hdp, get32_of_put32 (v := seq) (by rw [← hx]; rfl) hseq,
    get32_of_put32 (v := ack) (by rw [← hx]; rfl) hack, ← hx]
  rfl

/-- A segment of an established connection arrives. -/
theorem Trace.arrive {w : World} {ok : Conn → Segment → Prop} {c d : Conn} {x : Segment}
    (hr : Routed c.net) (h : Trace w ok c d) (hx : x.WellFormed) (hfor : x.forConn d.net)
    (hok : ok d x) (hev : d.net.tcpEvent ≠ 1) (hrst : x.flags &&& 0x04 = 0) :
    ∃ s, Trace w ok c ⟨s, d.delivered, d.fin || decide (InOrderFin x d.net.rx)⟩ ∧
      SameConn d.net s ∧ s.rx = d.net.rx.accept w.arch d.net.tcpOutCap x := by
  obtain ⟨s, hs, hsame, hcases⟩ := @tcpInput_cases w some 0 d.net ((h.sameConn hr).routed hr) x
  have hval : (handleTcp w some 0 x.mem 4 (20 + x.data.length) 0 d.net).value = some s := by
    rw [handleTcp_value, segmentAt_mem hx]
    exact (if_pos hfor).trans hs
  refine ⟨s, ?_, hsame, ?_⟩
  · have := h.segment (segmentAt_mem hx) (fun _ => hok) hval
    simpa only [hfor, true_and] using this
  · rcases hcases with ⟨-, h1, -⟩ | ⟨h4, -⟩ | ⟨-, hrx⟩
    · exact absurd h1 hev
    · exact absurd hrst h4
    · exact hrx

/-! ## Polls are runs -/

/-- Every TCP segment that a machine delivers to address `ip` satisfies `P`. -/
def Delivers (w : World) (ip : List UInt8) (P : Segment → Prop) : Prop :=
  ∀ k, ∀ frame ∈ w.frames k, ∀ s : State, s.ipAddr = ip → ∀ y, passedOn w.arch frame s = some y →
    ∀ x, segmentAt frame.mem y.pl y.plen y.src = some x → P x

section Runs

variable {w : World} {P : Segment → Prop} {c : Conn}

/-- A run of the connection leads from `s` to `t`, and the reader gets nothing. -/
def RunsTo (w : World) (P : Segment → Prop) (c : Conn) (s t : State) : Prop :=
  ∀ d, Trace w (fun _ x => P x) c d → d.net = s →
    ∃ d', Trace w (fun _ x => P x) c d' ∧ d'.net = t ∧ d'.delivered = d.delivered

theorem runsTo_pollRel (hr : Routed c.net) (hP : Delivers w c.net.ipAddr P) :
    PollRel w (RunsTo w P c) where
  trans := by
    intro s t u hst htu d hd hds
    obtain ⟨d1, hd1, h1, hdel1⟩ := hst d hd hds
    obtain ⟨d2, hd2, h2, hdel2⟩ := htu d1 hd1 h1
    exact ⟨d2, hd2, h2, hdel2.trans hdel1⟩
  other := by
    rintro s t hst d hd rfl
    exact ⟨_, hd.other hst, rfl, rfl⟩
  tcp := by
    rintro poll fuel k frame s t y - hframe hpass hs d hd rfl
    cases hseg : segmentAt frame.mem y.pl y.plen y.src with
    | none =>
      rw [handleTcp_value, hseg] at hs
      exact ⟨d, hd, Option.some.inj hs, rfl⟩
    | some x =>
      have hPx : P x := hP k frame hframe d.net (hd.sameConn hr).ipAddr y hpass x hseg
      exact ⟨_, hd.segment hseg (fun _ => hPx) hs, rfl, rfl⟩

/-- **A poll is a run of the connection.** -/
theorem netPoll_trace (hr : Routed c.net) (hP : Delivers w c.net.ipAddr P) {fuel : ℕ} {d : Conn}
    {s : State} (hd : Trace w (fun _ x => P x) c d) (hs : netPoll w fuel d.net = some s) :
    ∃ d', Trace w (fun _ x => P x) c d' ∧ d'.net = s ∧ d'.delivered = d.delivered :=
  netPoll_rel (runsTo_pollRel hr hP) fuel d.net s hs d hd rfl

/-- **A read is a run of the connection**, and the reader gets what it returns. -/
theorem netTcpRead_trace (hr : Routed c.net) (hP : Delivers w c.net.ipAddr P)
    {fuel cap timeoutMs : ℕ} {d : Conn} {r : Option (List UInt8)} {s : State}
    (hd : Trace w (fun _ x => P x) c d) (hs : netTcpRead w fuel cap timeoutMs d.net = some (r, s)) :
    ∃ d', Trace w (fun _ x => P x) c d' ∧ d'.net = s ∧
      d'.delivered = d.delivered ++ r.getD [] := by
  have hloop : ∀ (fuel st : ℕ) (pollFuel : ℕ) (d : Conn) (r : Option (List UInt8)) (s : State),
      Trace w (fun _ x => P x) c d →
      tcpReadLoop w pollFuel cap st timeoutMs fuel d.net = some (r, s) →
      ∃ d', Trace w (fun _ x => P x) c d' ∧ d'.net = s ∧
        d'.delivered = d.delivered ++ r.getD [] := by
    intro fuel
    induction fuel with
    | zero => intro st pollFuel d r s _ hs; simp [tcpReadLoop] at hs
    | succ fuel ih =>
      intro st pollFuel d r s hd hs
      unfold tcpReadLoop at hs
      split at hs
      · obtain ⟨rfl, rfl⟩ : some (tcpTake cap d.net).1 = r ∧ (tcpTake cap d.net).2 = s := by
          simpa using hs
        exact ⟨_, hd.read cap, rfl, rfl⟩
      · split at hs
        · obtain ⟨rfl, rfl⟩ : none = r ∧ d.net = s := by simpa using hs
          exact ⟨d, hd, rfl, by simp⟩
        · have h1 := elapsed_sameTcp w st timeoutMs d.net
          generalize elapsed w st timeoutMs d.net = r1 at hs h1
          obtain ⟨late, s1⟩ := r1
          simp only at hs h1
          split at hs
          · obtain ⟨rfl, rfl⟩ : none = r ∧ s1 = s := by simpa using hs
            exact ⟨_, hd.other h1, rfl, by simp⟩
          · obtain ⟨t, ht, hrest⟩ := Option.bind_eq_some_iff.mp hs
            obtain ⟨d1, hd1, rfl, hdel⟩ := netPoll_trace hr hP (hd.other h1) ht
            obtain ⟨d2, hd2, h2, hdel2⟩ := ih st pollFuel d1 r s hd1 hrest
            exact ⟨d2, hd2, h2, by rw [hdel2, hdel]⟩
  unfold netTcpRead at hs
  split at hs
  · obtain ⟨rfl, rfl⟩ : none = r ∧ d.net = s := by simpa using hs
    exact ⟨d, hd, rfl, by simp⟩
  · exact hloop fuel _ fuel { d with net := (nowMs w d.net).2 } r s
      (hd.other (nowMs_sameTcp w d.net)) hs

end Runs

/-! ## The established state -/

/-- A connection on which nothing has been received since the handshake: the peer's initial sequence
number is `irs`. -/
structure Established (irs : ℕ) (s : State) : Prop where
  event : s.tcpEvent = 2
  rcvNxt : s.tcpRcvNxt = u32 (irs + 1)
  out : s.tcpOut = []
  cap : s.tcpOutCap = tcpStreamBuf
  routed : Routed s

/-- While `net_tcp_connect` waits: nothing has come, or the handshake is complete, or it has been
missed. -/
def Connecting (P : Segment → Prop) (v : Rx) : Prop :=
  (v.event = 1 ∧ v.out = []) ∨
    (v.event = 2 ∧ v.out = [] ∧ ∃ x, P x ∧ x.flags &&& 0x12 = 0x12 ∧ v.rcvNxt = u32 (x.seq + 1)) ∨
    (v.event ≠ 1 ∧ v.event ≠ 2)

theorem Rx.accept_event (arch : Arch) (cap : ℕ) (x : Segment) (v : Rx) :
    v.accept arch cap x = v ∨ (v.accept arch cap x).event = 3 ∨ (v.accept arch cap x).event = 4 := by
  unfold accept takeFin
  split
  · exact .inr (.inr rfl)
  · unfold takeData
    split
    · exact .inr (.inl rfl)
    · exact .inl rfl

theorem Trace.connecting {w : World} {P : Segment → Prop} {c d : Conn} (hr : Routed c.net)
    (hc : Connecting P c.net.rx) (h : Trace w (fun _ x => P x) c d) : Connecting P d.net.rx := by
  induction h with
  | start => exact hc
  | @segment d poll fuel mem p len src x s h hx hok hs ih =>
    rcases handleTcp_segment hx hs with ⟨hf, hin⟩ | ⟨-, rfl⟩
    swap
    · exact ih
    obtain ⟨t, ht, -, hcases⟩ := tcpInput_cases ((h.sameConn hr).routed hr) x
    rw [hin] at ht
    obtain rfl := Option.some.inj ht
    show Connecting P s.rx
    rcases hcases with ⟨hflags, hev, -, hrx⟩ | ⟨-, hrx⟩ | ⟨-, hrx⟩
    · -- the handshake: nothing was taken before
      have hout : d.net.tcpOut = [] := by
        rcases ih with ⟨-, ho⟩ | ⟨h2, -⟩ | ⟨h1, -⟩
        · exact ho
        · exact absurd (hev.symm.trans h2) (by decide)
        · exact absurd hev h1
      rw [hrx]
      exact .inr (.inl ⟨rfl, hout, x, hok hf, hflags, rfl⟩)
    · rw [hrx]
      exact .inr (.inr ⟨show (-1 : ℤ) ≠ 1 by decide, show (-1 : ℤ) ≠ 2 by decide⟩)
    · rw [hrx]
      rcases Rx.accept_event w.arch d.net.tcpOutCap x d.net.rx with heq | h3 | h4
      · rw [heq]
        exact ih
      · exact .inr (.inr ⟨by rw [h3]; decide, by rw [h3]; decide⟩)
      · exact .inr (.inr ⟨by rw [h4]; decide, by rw [h4]; decide⟩)
  | read cap h ih =>
    rcases ih with ⟨h1, ho⟩ | ⟨h2, ho, hx⟩ | h3
    · exact .inl ⟨h1, by simp_all [State.rx, tcpTake]⟩
    · exact .inr (.inl ⟨h2, by simp_all [State.rx, tcpTake], hx⟩)
    · exact .inr (.inr h3)
  | other h hs ih =>
    show Connecting P _
    rw [hs.2]
    exact ih

/-! ### Addresses -/

/-- The address profile of the host. -/
structure SameAddr (s t : State) : Prop where
  ipAddr : t.ipAddr = s.ipAddr
  netmask : t.netmask = s.netmask
  gateway : t.gateway = s.gateway

theorem SameAddr.trans {s t u : State} (h : SameAddr s t) (h' : SameAddr t u) : SameAddr s u :=
  ⟨h'.ipAddr.trans h.ipAddr, h'.netmask.trans h.netmask, h'.gateway.trans h.gateway⟩

theorem sameAddr_codeRel : CodeRel SameAddr where
  trans := SameAddr.trans
  other := fun h => ⟨h.1.ipAddr, h.1.netmask, h.1.gateway⟩

section Addresses

variable {w : World} {poll : State → Option State} (hpoll : Rel SameAddr poll)

include hpoll

theorem sendTcp_sameAddr (fuel : ℕ) (flags : UInt8) (data : List UInt8) :
    Rel SameAddr (sendTcp w poll fuel flags data) := by
  intro s t h
  obtain ⟨u, hu, hrest⟩ := Option.bind_eq_some_iff.mp h
  obtain rfl := Option.some.inj hrest
  have hsent := sendIpPacket_rel sameAddr_codeRel hpoll fuel _ _ _ s u hu
  exact ⟨hsent.ipAddr, hsent.netmask, hsent.gateway⟩

theorem tcpInput_sameAddr (fuel : ℕ) (x : Segment) : Rel SameAddr (tcpInput w poll fuel x) := by
  have hdata : ∀ dataLen data, Rel SameAddr (tcpData w poll fuel x.seq dataLen data) := by
    intro dataLen data s t h
    unfold tcpData at h
    split at h
    · obtain ⟨u, hu, hrest⟩ := Option.bind_eq_some_iff.mp h
      obtain rfl := Option.some.inj hrest
      have hsent := sendTcp_sameAddr hpoll fuel _ _ _ u hu
      exact ⟨hsent.ipAddr, hsent.netmask, hsent.gateway⟩
    · obtain rfl := Option.some.inj h
      exact sameAddr_codeRel.refl s
  have hfin : ∀ dataLen, Rel SameAddr (tcpFin w poll fuel x.seq dataLen x.flags) := by
    intro dataLen s t h
    unfold tcpFin at h
    split at h
    · obtain ⟨u, hu, hrest⟩ := Option.bind_eq_some_iff.mp h
      obtain rfl := Option.some.inj hrest
      have hsent := sendTcp_sameAddr hpoll fuel _ _ _ u hu
      have hcount : SameAddr s (if w.arch.size (x.seq + dataLen) = s.tcpRcvNxt then
          { s with tcpRcvNxt := u32 (s.tcpRcvNxt + 1) } else s) := by
        split <;> exact ⟨rfl, rfl, rfl⟩
      have hall := hcount.trans hsent
      exact ⟨hall.ipAddr, hall.netmask, hall.gateway⟩
    · obtain rfl := Option.some.inj h
      exact sameAddr_codeRel.refl s
  intro s t h
  unfold tcpInput at h
  have hack := sameAddr_codeRel.other (tcpAck_sameTcp x.flags x.ack s)
  generalize tcpAck x.flags x.ack s = a at h hack
  simp only at h
  refine hack.trans ?_
  split at h
  · have hsent := sendTcp_sameAddr hpoll fuel _ _ _ t h
    exact ⟨hsent.ipAddr, hsent.netmask, hsent.gateway⟩
  · split at h
    · obtain rfl := Option.some.inj h
      exact ⟨rfl, rfl, rfl⟩
    · obtain ⟨u, hu, hrest⟩ := Option.bind_eq_some_iff.mp h
      exact (hdata _ _ a u hu).trans (hfin _ u t hrest)

end Addresses

theorem sameAddr_pollRel (w : World) : PollRel w SameAddr where
  toCodeRel := sameAddr_codeRel
  tcp := by
    rintro poll fuel k frame s t y hpoll - - hs
    rw [handleTcp_value] at hs
    split at hs
    · obtain rfl := Option.some.inj hs
      exact sameAddr_codeRel.refl s
    · split at hs
      · exact tcpInput_sameAddr hpoll fuel _ s t hs
      · obtain rfl := Option.some.inj hs
        exact sameAddr_codeRel.refl s

/-- A hop that was found is the gateway's. -/
theorem resolveNextHop_some {w : World} {poll : State → Option State} {fuel : ℕ}
    {dest nh : List UInt8} {s t : State} (h : resolveNextHop w poll fuel dest s = some (some nh, t)) :
    (if sameSubnet s dest s.ipAddr then dest else s.gateway) = t.gateway ∧
      t.gatewayMacValid = true := by
  unfold resolveNextHop at h
  simp only at h
  generalize (if sameSubnet s dest s.ipAddr then dest else s.gateway) = target at h ⊢
  split at h
  · next hknown =>
    obtain ⟨-, rfl⟩ : s.gatewayMac = nh ∧ s = t := by simpa using h
    exact hknown
  · have hloop : ∀ (fuel last st : ℕ) (s : State),
        resolveLoop w poll target st fuel last s = some (some nh, t) →
        target = t.gateway ∧ t.gatewayMacValid = true := by
      intro fuel
      induction fuel with
      | zero => intro last st s h; simp [resolveLoop] at h
      | succ fuel ih =>
        intro last st s h
        unfold resolveLoop at h
        simp only at h
        split at h
        · simp at h
        · obtain ⟨u, -, hrest⟩ := Option.bind_eq_some_iff.mp h
          split at hrest
          · next hknown =>
            obtain ⟨-, rfl⟩ : u.gatewayMac = nh ∧ u = t := by simpa using hrest
            exact hknown
          · exact ih _ _ _ hrest
    exact hloop fuel _ _ _ h

/-! ### The handshake -/

/-- The machine delivers the segment to address `ip`. -/
def Delivered (w : World) (ip : List UInt8) (x : Segment) : Prop :=
  ∃ k, ∃ frame ∈ w.frames k, ∃ s : State, s.ipAddr = ip ∧ ∃ y, passedOn w.arch frame s = some y ∧
    segmentAt frame.mem y.pl y.plen y.src = some x

/-- The route that was found is the route of the connection. -/
theorem tcpOpen_routed {w : World} {fuel : ℕ} {dest nh : List UInt8} (port : ℕ) {s t : State}
    (h : resolveNextHop w (netPoll w fuel) fuel dest s = some (some nh, t)) :
    Routed (tcpOpen w dest port t) := by
  have haddr := resolveNextHop_rel sameAddr_codeRel (netPoll_rel (sameAddr_pollRel w) fuel) h
  obtain ⟨htarget, hvalid⟩ := resolveNextHop_some h
  refine ⟨?_, hvalid⟩
  show (if sameSubnet t dest t.ipAddr then dest else t.gateway) = t.gateway
  have hsub : sameSubnet t dest t.ipAddr = sameSubnet s dest s.ipAddr := by
    unfold sameSubnet
    rw [haddr.ipAddr, haddr.netmask]
  rw [hsub]
  split at htarget
  · next hin =>
    rw [if_pos hin]
    exact htarget
  · next hout => rw [if_neg hout]

/-- **When `net_tcp_connect` returns 1**, the connection is established: a SYN and ACK has come, and
nothing after it. -/
theorem netTcpConnect_established {w : World} {fuel : ℕ} {host : List UInt8} {port : ℕ}
    {s t : State} (h : netTcpConnect w fuel host port s = some (.ok (), t)) :
    ∃ x, Delivered w t.ipAddr x ∧ x.flags &&& 0x12 = 0x12 ∧ Established x.seq t := by
  unfold netTcpConnect at h
  split at h
  · simp at h
  obtain ⟨⟨dest, s1⟩, -, h⟩ := Option.bind_eq_some_iff.mp h
  cases dest with
  | none => simp at h
  | some dest =>
  obtain ⟨⟨hop, s2⟩, hres, h⟩ := Option.bind_eq_some_iff.mp h
  cases hop with
  | none => simp at h
  | some nh =>
  have hrouted : Routed (tcpOpen w dest port s2) := tcpOpen_routed port hres
  obtain ⟨s3, hsyn, h⟩ := Option.bind_eq_some_iff.mp h
  obtain ⟨i, tc, se, sn, hsend⟩ := sendTcp_routed w (netPoll w fuel) fuel hrouted 0x02 []
  rw [hsend] at hsyn
  obtain rfl := Option.some.inj hsyn
  simp only at h
  obtain ⟨s4, hpoll, h⟩ := Option.bind_eq_some_iff.mp h
  split at h
  · simp at h
  · next hevent =>
    obtain rfl : s4 = t := by simpa using h
    have hnow := nowMs_sameTcp w { tcpOpen w dest port s2 with
      ipId := i, txCount := tc, sent := se, tcpSndNxt := sn }
    generalize nowMs w _ = r at hpoll hnow
    obtain ⟨st, s5⟩ := r
    simp only at hpoll hnow
    have hr5 : Routed s5 := hnow.1.routed hrouted
    have hP : Delivers w s5.ipAddr (Delivered w s5.ipAddr) :=
      fun k frame hf s hs y hy x hx => ⟨k, frame, hf, s, hs, y, hy, hx⟩
    obtain ⟨d, hd, rfl, -⟩ := pollWhile_rel (runsTo_pollRel (c := ⟨s5, [], false⟩) hr5 hP) fuel st
      4000 _ fuel s5 s4 hpoll _ .start rfl
    have hconn := hd.connecting hr5 (.inl (by rw [hnow.2]; exact ⟨rfl, rfl⟩))
    have hsame := hd.sameConn hr5
    have hev : d.net.tcpEvent = 2 := not_not.mp hevent
    rcases hconn with ⟨h1, -⟩ | ⟨-, hout, x, hx, hflags, hseq⟩ | ⟨-, h2⟩
    · exact absurd (hev.symm.trans h1) (by decide)
    · refine ⟨x, by rw [hsame.ipAddr]; exact hx, hflags, hev, hseq, hout, ?_, hsame.routed hr5⟩
      rw [hsame.cap, hnow.1.cap]
      rfl
    · exact absurd hev h2

/-- The SYN and ACK of port 80 of the gateway, with initial sequence number `irs`. -/
def synAckFrame (irs : ℕ) : Buffer :=
  .ofBytes ([82, 84, 0, 18, 52, 86, 82, 84, 0, 18, 53, 2, 8, 0] ++
    [0x45, 0, 0, 40, 0, 1, 0, 0, 64, 6, 0, 0, 10, 0, 2, 2, 10, 0, 2, 15] ++
    [0, 80, 192, 0] ++ put32 irs ++ put32 0x13570001 ++ [0x50, 0x12, 16, 0, 0, 0, 0, 0])

def handshakeWorld (irs : ℕ) : World :=
  ⟨.x86_64, 100, fun k => k, fun k => if k = 0 then [synAckFrame irs] else [], fun _ => true⟩

/-- The stack with the static profile, when the gateway's hardware address is known. -/
def upState : State :=
  { State.boot with
    mac := [82, 84, 0, 18, 52, 86]
    ready := true
    gatewayMac := [82, 84, 0, 18, 53, 2]
    gatewayMacValid := true }

def connectedState (irs : ℕ) : State :=
  ((netTcpConnect (handshakeWorld irs) 3 (ascii "10.0.2.2") 80 upState).map Prod.snd).getD upState

theorem handshake_connects : netTcpConnect (handshakeWorld 1000) 3 (ascii "10.0.2.2") 80 upState =
    some (.ok (), connectedState 1000) := by
  decide +kernel

/-- A segment from port 80 of the gateway. -/
def serverSegment (seq : ℕ) (flags : UInt8) (data : List UInt8) : Segment :=
  ⟨[10, 0, 2, 2], 80, 49152, seq, 0x13570001, flags, data⟩

theorem serverSegment_wellFormed {seq : ℕ} (h : seq < 2 ^ 32) (flags : UInt8) (data : List UInt8) :
    (serverSegment seq flags data).WellFormed :=
  ⟨rfl, show 80 < 2 ^ 16 by decide, show 49152 < 2 ^ 16 by decide, h,
    show 0x13570001 < 2 ^ 32 by decide⟩

end Orion.Net
