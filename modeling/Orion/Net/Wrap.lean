import Orion.Net.Frames
import Orion.Net.Write

/-!
# Sequence numbers that wrap

`net_tcp_write` and the acknowledgement window of `handle_tcp` compare sequence numbers as they are,
not modulo 2^32.  Against a peer that acknowledges whenever it is asked, and only then, a write whose
numbers wrap succeeds without the acknowledgement of the segment that wraps (`polite_uncovered`), so
success means acknowledged exactly without a wrap (`write_acked_iff`).
-/

namespace Orion.Net

open Orion.Traced Orion.Lib

/-! ## The acknowledgements of the peer as frames -/

/-- The peer of the connection acknowledges `ack`. -/
def ackSegment (s : State) (ack : ℕ) : Segment :=
  ⟨s.tcpPeerIp, s.tcpPeerPort, s.tcpLocalPort, 0, ack, 0x10, []⟩

def ackFrame (s : State) (ack : ℕ) : Buffer :=
  .ofBytes ([82, 84, 0, 18, 52, 86, 82, 84, 0, 18, 53, 2, 8, 0] ++
    [0x45, 0, 0, 40, 0, 1, 0, 0, 64, 6, 0, 0] ++ s.tcpPeerIp ++ s.ipAddr ++
    put16 s.tcpPeerPort ++ put16 s.tcpLocalPort ++ put32 0 ++ put32 ack ++
    [0x50, 0x10, 16, 0, 0, 0, 0, 0])

/-- A connection whose peer is reached, which is not reset, and on which at most 2^30 bytes are sent
and not acknowledged. -/
structure Opened (s : State) : Prop where
  ready : s.ready = true
  routed : Routed s
  event : 0 ≤ s.tcpEvent
  peerIp : s.tcpPeerIp.length = 4
  ipAddr : s.ipAddr.length = 4
  peerPort : s.tcpPeerPort < 2 ^ 16
  localPort : s.tcpLocalPort < 2 ^ 16
  sndUna : s.tcpSndUna < 2 ^ 32
  sndNxt : s.tcpSndNxt < 2 ^ 32
  outstanding : sub32 s.tcpSndNxt s.tcpSndUna ≤ 2 ^ 30

theorem ackFrame_eq (s : State) (ack : ℕ) :
    ackFrame s ack = segmentFrame s.ipAddr (ackSegment s ack) := by
  unfold ackFrame segmentFrame ackSegment
  simp only [List.append_assoc, List.append_nil]
  rfl

theorem ackFrame_decodes {s : State} (hs : Opened s) {ack : ℕ} (hack : ack < 2 ^ 32) (arch : Arch)
    {u : State} (hu : u.ipAddr = s.ipAddr) :
    passedOn arch (ackFrame s ack) u = some ⟨6, 26, 34, 20⟩ ∧
      segmentAt (ackFrame s ack).mem 34 20 26 = some (ackSegment s ack) := by
  have hsegment : (ackSegment s ack).WellFormed :=
    ⟨hs.peerIp, hs.peerPort, hs.localPort, Nat.two_pow_pos 32, hack⟩
  rw [ackFrame_eq]
  exact segmentFrame_decodes hs.ipAddr hsegment (Nat.zero_le 1460) arch hu

/-- A segment that is nothing but an acknowledgement. -/
theorem tcpInput_ack (w : World) (poll : State → Option State) (fuel : ℕ) {x : Segment} (u : State)
    (hflags : x.flags = 0x10) (hdata : x.data = []) :
    tcpInput w poll fuel x u = some (tcpAck 0x10 x.ack u) := by
  have hsyn : ¬ ((0x10 : UInt8) &&& 0x12 = 0x12) := by decide
  have hrst : ¬ ((0x10 : UInt8) &&& 0x04 ≠ 0) := by decide
  have hfin : ¬ ((0x10 : UInt8) &&& 0x01 ≠ 0) := by decide
  unfold tcpInput
  rw [hflags, hdata, if_neg fun h => hsyn h.1, if_neg hrst, tcpData, if_neg fun h => h.1 rfl,
    Option.bind_some, tcpFin, if_neg hfin]

/-- **A poll that delivers an acknowledgement** of something that was sent. -/
theorem netPoll_ack {w : World} {s u : State} (hs : Opened s) {ack fuel : ℕ} (hack : ack < 2 ^ 32)
    (hready : u.ready = true) (hip : u.ipAddr = s.ipAddr) (hconn : (ackSegment s ack).forConn u)
    (hlow : u.tcpSndUna ≤ ack) (hhigh : ack ≤ u.tcpSndNxt)
    (hframes : w.frames u.polls = [ackFrame s ack]) : ∃ rxCount, netPoll w (fuel + 1) u =
      some { u with tcpSndUna := ack, polls := u.polls + 1, rxCount := rxCount } := by
  have hip' : ({ u with polls := u.polls + 1 } : State).ipAddr = s.ipAddr := hip
  obtain ⟨hpass, hsegment⟩ := ackFrame_decodes hs hack w.arch hip'
  have hconn' : (ackSegment s ack).forConn { u with polls := u.polls + 1 } := hconn
  have htaken : tcpAck 0x10 ack { u with polls := u.polls + 1 } =
      { u with polls := u.polls + 1, tcpSndUna := ack } := by
    rw [tcpAck, if_pos ⟨by decide, hlow, hhigh⟩]
  have hinput : (handleFrame w (netPoll w fuel) fuel (ackFrame s ack)
      { u with polls := u.polls + 1 }).value =
        some { u with polls := u.polls + 1, tcpSndUna := ack } := by
    rw [handleFrame_tcp hpass rfl, handleTcp_value, hsegment]
    exact (if_pos hconn').trans ((tcpInput_ack w _ _ _ rfl rfl).trans (congrArg some htaken))
  refine ⟨u64 (u.rxCount + 1), ?_⟩
  rw [netPoll, if_pos hready, hframes, List.foldlM_cons, rxDispatch, hinput]
  rfl

/-! ## A peer that acknowledges when it is asked -/

/-- The segments of a write of `len` bytes against a peer that acknowledges everything whenever it is
polled: the number behind each, and whether it is waited for. -/
def polite : ℕ → ℕ → ℕ → ℕ → List (ℕ × Bool)
  | 0, _, _, _ => []
  | n + 1, len, una, nxt =>
    if len = 0 then []
    else
      let stop := u32 (nxt + min len 1200)
      if una < stop then (stop, true) :: polite n (len - 1200) stop stop
      else (stop, false) :: polite n (len - 1200) una stop

/-- The numbers that the peer acknowledges, one in each poll. -/
def polled (segments : List (ℕ × Bool)) : List ℕ := (segments.filter (·.2)).map (·.1)

/-- No time passes, and the polls from `first` on bring the acknowledgements. -/
def politeWorld (s : State) (acks : List ℕ) : World :=
  ⟨.x86_64, 1000, fun _ => 0, fun k => (acks[k - s.polls]?).toList.map (ackFrame s), fun _ => true⟩

def asWritten (s : State) (x : ℕ × Bool) : Written := ⟨x.1, if x.2 then [ackSegment s x.1] else []⟩

/-- The connection is that of `s`, and it is still open. -/
structure Going (s u : State) : Prop where
  ready : u.ready = true
  routed : Routed u
  event : 0 ≤ u.tcpEvent
  ipAddr : u.ipAddr = s.ipAddr
  conn : ∀ ack, (ackSegment s ack).forConn u

theorem politeWorld_nowMs (s : State) (acks : List ℕ) (u : State) :
    nowMs (politeWorld s acks) u = (0, { u with clock := u.clock + 1 }) := by
  have hhz : ¬ (politeWorld s acks).hz = 0 := by
    show ¬ (1000 : ℕ) = 0
    decide
  have hms : (politeWorld s acks).ms u.clock = 0 := by
    simp [World.ms, politeWorld, u32, u64]
  rw [nowMs, if_neg hhz, hms]

section

variable {s u : State} {acks : List ℕ}

/-- The acknowledgement comes with the first poll. -/
theorem politeWorld_wait (hs : Opened s) (hu : Going s u) {fuel want : ℕ} (hwant : want < 2 ^ 32)
    (hlow : u.tcpSndUna < want) (hnxt : u.tcpSndNxt = want)
    (hframes : (politeWorld s acks).frames u.polls = [ackFrame s want]) : ∃ rxCount v,
      v = { u with clock := u.clock + 2, tcpSndUna := want, polls := u.polls + 1, rxCount := rxCount } ∧
      ackLoop (politeWorld s acks) (fuel + 2) want 0 1 (fuel + 2) { u with clock := u.clock + 1 } =
        some v ∧ AckRun (politeWorld s acks) u [ackSegment s want] v := by
  obtain ⟨rxCount, hpoll⟩ := @netPoll_ack (politeWorld s acks) s { u with clock := u.clock + 2 } hs want
    (fuel + 1) hwant hu.ready hu.ipAddr (hu.conn want) (Nat.le_of_lt hlow) (Nat.le_of_eq hnxt.symm) hframes
  refine ⟨rxCount, _, rfl, ?_, ?_⟩
  · have hagain : ¬ want < want := Nat.lt_irrefl want
    have hearly : ¬ (decide (sub32 0 0 ≥ 1) = true ∨ u.tcpEvent < 0) := by
      rintro (h | h)
      · exact absurd h (by decide)
      · exact absurd hu.event (not_le.mpr h)
    rw [ackLoop, if_pos hlow]
    simp only [elapsed, politeWorld_nowMs]
    rw [if_neg hearly, hpoll]
    exact if_neg hagain
  · obtain ⟨hpass, hsegment⟩ := @ackFrame_decodes s hs want hwant (politeWorld s acks).arch
      { u with clock := u.clock + 2, polls := u.polls + 1 } hu.ipAddr
    have htaken : ({ u with clock := u.clock + 2, tcpSndUna := want, polls := u.polls + 1 } : State) =
        tcpAck (ackSegment s want).flags (ackSegment s want).ack
          { u with clock := u.clock + 2, polls := u.polls + 1 } := by
      rw [tcpAck, if_pos ⟨show (0x10 : UInt8) &&& 0x10 ≠ 0 by decide, Nat.le_of_lt hlow, Nat.le_of_eq hnxt.symm⟩]
      rfl
    have hframe : ackFrame s want ∈ (politeWorld s acks).frames u.polls := by
      rw [hframes]
      exact List.mem_singleton_self _
    have hbefore : SameAck u { u with clock := u.clock + 2, polls := u.polls + 1 } := ⟨rfl, fun _ => rfl⟩
    exact .silent (.event _ (.of_silent hbefore)
      ⟨⟨u.polls, _, hframe, _, hpass, hsegment⟩, hu.conn want, htaken⟩) ⟨rfl, fun _ => rfl⟩

/-- **The run against the polite peer.** -/
theorem polite_run (hs : Opened s) {fuel : ℕ} : ∀ {n : ℕ} {data : List UInt8} {u : State},
    data.length ≤ n → Going s u → (∀ j, (politeWorld s acks).frames (u.polls + j) =
      ((polled (polite n data.length u.tcpSndUna u.tcpSndNxt))[j]?).toList.map (ackFrame s)) →
    ∃ t, WriteRun (politeWorld s acks) (fuel + 2) 1 data u
      ((polite n data.length u.tcpSndUna u.tcpSndNxt).map (asWritten s)) true t := by
  intro n
  induction n with
  | zero =>
    intro data u hn _ _
    obtain rfl := List.length_eq_zero_iff.mp (Nat.le_zero.mp hn)
    exact ⟨u, .done⟩
  | succ n ih =>
    intro data u hn hu hframes
    by_cases hdata : data = []
    · subst hdata
      exact ⟨u, .done⟩
    have hlen : ¬ data.length = 0 := fun h => hdata (List.length_eq_zero_iff.mp h)
    have hdrop : (data.drop 1200).length = data.length - 1200 := List.length_drop
    obtain ⟨ipId, txCount, sent, hsend⟩ := sendTcp_sent (politeWorld s acks)
      (netPoll (politeWorld s acks) (fuel + 2)) (fuel + 2) hu.routed 0x18 (data.take 1200)
    obtain ⟨v, hv⟩ : ∃ v : State, v = { u with
        ipId := ipId, txCount := txCount, sent := sent
        tcpSndNxt := u32 (u.tcpSndNxt + min data.length 1200) } := ⟨_, rfl⟩
    have hsent : sendTcp (politeWorld s acks) (netPoll (politeWorld s acks) (fuel + 2)) (fuel + 2) 0x18
        (data.take 1200) u = some v := by
      rw [hsend, hv, List.length_take, Nat.min_comm]
      rfl
    have hgoing : Going s v := by
      rw [hv]
      exact ⟨hu.ready, hu.routed, hu.event, hu.ipAddr, hu.conn⟩
    have hstop : v.tcpSndNxt = u32 (u.tcpSndNxt + min data.length 1200) := by rw [hv]
    have huna : v.tcpSndUna = u.tcpSndUna := by rw [hv]
    have hpolls : v.polls = u.polls := by rw [hv]
    have hlt : v.tcpSndNxt < 2 ^ 32 := by
      rw [hstop]
      exact u32_lt _
    rw [polite, if_neg hlen, ← hstop, ← huna] at hframes ⊢
    rw [← hpolls] at hframes
    clear hv
    simp only at hframes ⊢
    split
    · -- the segment is waited for, and the next poll brings its acknowledgement
      rename_i hwait
      rw [if_pos hwait] at hframes
      have hfirst : (politeWorld s acks).frames v.polls = [ackFrame s v.tcpSndNxt] := hframes 0
      obtain ⟨rxCount, x, hx, hloop, hheard⟩ :=
        @politeWorld_wait s v acks hs hgoing fuel v.tcpSndNxt hlt hwait rfl hfirst
      have hgoing' : Going s x := by
        rw [hx]
        exact ⟨hgoing.ready, hgoing.routed, hgoing.event, hgoing.ipAddr, hgoing.conn⟩
      have hacked : x.tcpSndUna = v.tcpSndNxt ∧ x.tcpSndNxt = v.tcpSndNxt ∧ x.polls = v.polls + 1 := by
        rw [hx]
        exact ⟨rfl, rfl, rfl⟩
      obtain ⟨t, ht⟩ := @ih (data.drop 1200) x (by omega) hgoing' fun j => by
        rw [hacked.1, hacked.2.1, hacked.2.2, hdrop, Nat.add_assoc, Nat.add_comm 1 j]
        exact hframes (j + 1)
      rw [hacked.1, hacked.2.1, hdrop] at ht
      refine ⟨t, .acked hdata hsent ?_ hheard (by rw [hacked.1]; exact Nat.lt_irrefl _) ht⟩
      rw [politeWorld_nowMs]
      exact hloop
    · rename_i hskip
      rw [if_neg hskip] at hframes
      have hgoing' : Going s { v with clock := v.clock + 1 } :=
        ⟨hgoing.ready, hgoing.routed, hgoing.event, hgoing.ipAddr, hgoing.conn⟩
      obtain ⟨t, ht⟩ := @ih (data.drop 1200) { v with clock := v.clock + 1 } (by omega) hgoing'
        fun j => by rw [hdrop]; exact hframes j
      rw [hdrop] at ht
      have hloop : ackLoop (politeWorld s acks) (fuel + 2) v.tcpSndNxt 0 1 (fuel + 2)
          { v with clock := v.clock + 1 } = some { v with clock := v.clock + 1 } := if_neg hskip
      have hheard : AckRun (politeWorld s acks) v [] { v with clock := v.clock + 1 } :=
        .of_silent ⟨rfl, fun _ => rfl⟩
      refine ⟨t, .acked hdata hsent ?_ hheard hskip ht⟩
      rw [politeWorld_nowMs]
      exact hloop

end

theorem polled_above : ∀ {n len una nxt a : ℕ}, a ∈ polled (polite n len una nxt) →
    una < a ∧ a < 2 ^ 32 := by
  intro n
  induction n with
  | zero =>
    intro len una nxt a ha
    simp [polite, polled] at ha
  | succ n ih =>
    intro len una nxt a ha
    unfold polite at ha
    split at ha
    · simp [polled] at ha
    simp only at ha
    have hlt := u32_lt (nxt + min len 1200)
    split at ha
    · rename_i hwait
      obtain rfl | hmem := List.mem_cons.mp ha
      · exact ⟨hwait, hlt⟩
      · have hrest := ih hmem
        exact ⟨hwait.trans hrest.1, hrest.2⟩
    · exact ih ha

theorem AllCovered.tail {y : Written} {written : List Written} (h : AllCovered (y :: written)) :
    AllCovered written := by
  intro before z after heq
  exact h (y :: before) z after (by rw [heq]; rfl)

/-- **Where the numbers wrap, a segment is not covered.** -/
theorem polite_uncovered (s : State) : ∀ {n len una nxt : ℕ}, 0 < len → len ≤ n → una < 2 ^ 32 →
    nxt < 2 ^ 32 → sub32 nxt una ≤ 2 ^ 30 → ¬ (una ≤ nxt ∧ nxt + len < 2 ^ 32) →
      ¬ AllCovered ((polite n len una nxt).map (asWritten s)) := by
  intro n
  induction n with
  | zero =>
    intro len una nxt hpos hn
    omega
  | succ n ih =>
    intro len una nxt hpos hn huna hnxt hlag hwrap hcovered
    have hlen : ¬ len = 0 := by omega
    rw [polite, if_neg hlen] at hcovered
    simp only at hcovered
    generalize hstop : u32 (nxt + min len 1200) = stop at hcovered
    unfold u32 at hstop
    unfold sub32 u32 at hlag
    split at hcovered
    · rename_i hwait
      have hzero : sub32 stop stop ≤ 2 ^ 30 := by
        rw [sub32, Nat.add_sub_cancel_left]
        decide
      have hstop' : stop = nxt + min len 1200 := by omega
      exact ih (by omega) (by omega) (by omega) (by omega) hzero (by omega) hcovered.tail
    · rename_i hskip
      obtain ⟨x, hx, -, hnum⟩ := hcovered [] _ _ rfl
      have hack : una < x.ack ∧ x.ack < 2 ^ 32 := by
        obtain ⟨y, hy, hmem⟩ : ∃ y ∈ (polite n (len - 1200) una stop).map (asWritten s), x ∈ y.heard := by
          simpa [asWritten] using hx
        obtain ⟨e, he, rfl⟩ := List.mem_map.mp hy
        unfold asWritten at hmem
        simp only at hmem
        split at hmem
        · rename_i hwaited
          rw [List.mem_singleton.mp hmem]
          exact polled_above (List.mem_map.mpr ⟨e, List.mem_filter.mpr ⟨he, hwaited⟩, rfl⟩)
        · simp at hmem
      unfold sub32 u32 at hnum
      simp only [asWritten] at hnum
      omega

/-! ## When success means acknowledged -/

/-- What a write is for: success means that everything is acknowledged, and it succeeds if each segment
is acknowledged in time. -/
def WriteWorks (s : State) (data : List UInt8) : Prop :=
  ∀ {w : World} {fuel timeoutMs : ℕ} {r : Bool} {t : State} {written : List Written},
    netTcpWrite w fuel data timeoutMs s = some (r, t) →
      WriteRun w fuel timeoutMs data s written r t →
        (r = true → AllCovered written) ∧ (AllAnswered written → r = true)

/-- The write against the polite peer ends with success. -/
theorem polite_write {s : State} (hs : Opened s) (data : List UInt8) : ∃ (w : World) (t : State),
    netTcpWrite w (data.length + 2) data 1 s = some (true, t) ∧ WriteRun w (data.length + 2) 1 data s
      ((polite data.length data.length s.tcpSndUna s.tcpSndNxt).map (asWritten s)) true t := by
  have hgoing : Going s s := ⟨hs.ready, hs.routed, hs.event, rfl, fun _ => ⟨rfl, rfl, rfl⟩⟩
  obtain ⟨t, ht⟩ := @polite_run s
    (polled (polite data.length data.length s.tcpSndUna s.tcpSndNxt)) hs data.length data.length data s
    (Nat.le_refl _) hgoing fun j => by
      show ((polled _)[s.polls + j - s.polls]?).toList.map (ackFrame s) = _
      rw [Nat.add_sub_cancel_left]
  exact ⟨_, t, ht.writeLoop (by omega), ht⟩

/-- **Success means acknowledged exactly while the sequence numbers do not wrap**: neither between
`tcp_snd_una` and `tcp_snd_nxt` nor in the data.  Every write is a run, and there is a peer against
which the write ends with success. -/
theorem write_acked_iff {s : State} (hs : Opened s) (data : List UInt8) :
    (∀ {w : World} {fuel timeoutMs : ℕ} {r : Bool} {t : State},
      netTcpWrite w fuel data timeoutMs s = some (r, t) →
        ∃ written, WriteRun w fuel timeoutMs data s written r t) ∧
    (∃ (w : World) (t : State) (written : List Written),
      netTcpWrite w (data.length + 2) data 1 s = some (true, t) ∧
        WriteRun w (data.length + 2) 1 data s written true t) ∧
    (WriteWorks s data ↔
      data = [] ∨ (s.tcpSndUna ≤ s.tcpSndNxt ∧ s.tcpSndNxt + data.length < 2 ^ 32)) := by
  obtain ⟨w, t, hwrite, hrun⟩ := polite_write hs data
  refine ⟨fun h => writeLoop_run h, ⟨w, t, _, hwrite, hrun⟩, fun hworks => ?_, ?_⟩
  · by_contra hwrap
    obtain ⟨hdata, hwrap⟩ := not_or.mp hwrap
    exact polite_uncovered s (List.length_pos_iff.mpr hdata) (Nat.le_refl _) hs.sndUna hs.sndNxt
      hs.outstanding hwrap ((hworks hwrite hrun).1 rfl)
  · rintro (rfl | ⟨hbelow, hfits⟩) w fuel timeoutMs r t written - hrun
    · cases hrun with
      | done => exact ⟨fun _ => fun before y after h => by simp at h, fun _ => rfl⟩
      | acked hdata => exact absurd rfl hdata
      | failed hdata => exact absurd rfl hdata
    · have hanswered := hrun.answered hbelow hfits
      exact ⟨fun hr => (hanswered.mp hr).covered, hanswered.mpr⟩

/-- The connection with port 80 of the gateway, when everything up to `nxt` is acknowledged. -/
def openState (nxt : ℕ) : State :=
  { upState with
    tcpEvent := 2
    tcpPeerIp := [10, 0, 2, 2]
    tcpPeerPort := 80
    tcpLocalPort := 49152
    tcpSndNxt := nxt
    tcpSndUna := nxt }

theorem openState_opened {nxt : ℕ} (h : nxt < 2 ^ 32) : Opened (openState nxt) where
  ready := rfl
  routed := ⟨ite_self _, rfl⟩
  event := by
    show (0 : ℤ) ≤ 2
    decide
  peerIp := rfl
  ipAddr := rfl
  peerPort := by
    show 80 < 2 ^ 16
    decide
  localPort := by
    show 49152 < 2 ^ 16
    decide
  sndUna := h
  sndNxt := h
  outstanding := by
    show sub32 nxt nxt ≤ 2 ^ 30
    rw [sub32, Nat.add_sub_cancel_left]
    decide

theorem write_acked_smoke : WriteWorks (openState 0x13570001) [72, 105] :=
  (write_acked_iff (openState_opened (by decide)) _).2.2.mpr (.inr ⟨Nat.le_refl _, by decide⟩)

/-- One byte with the last sequence number. -/
theorem write_wraps : ¬ WriteWorks (openState 0xffffffff) [0] := by
  intro hworks
  obtain ⟨w, t, hwrite, hrun⟩ := polite_write (@openState_opened 0xffffffff (by decide)) [0]
  exact polite_uncovered _ (by decide) (Nat.le_refl _) (by decide) (by decide) (by decide) (by decide)
    ((hworks hwrite hrun).1 rfl)

end Orion.Net
