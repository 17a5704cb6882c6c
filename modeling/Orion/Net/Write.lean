import Orion.Lib.Logged
import Orion.Net.Handlers

/-!
# Writing to a TCP connection

`net_tcp_write` sends a segment and polls until `tcp_snd_una` is not below `tcp_snd_nxt`.  A run of it
is recorded with the segments that are processed while it waits (`WriteRun`).  As long as the sequence
numbers do not wrap, success means that these segments acknowledge everything that was sent
(`WriteRun.answered`).
-/

namespace Orion.Net

open Orion.Traced Orion.Lib

/-! ## Acknowledgements that are processed -/

/-- The segment carries an acknowledgement number. -/
def Segment.isAck (x : Segment) : Prop := x.flags &&& 0x10 ≠ 0

/-- Nothing is sent or acknowledged. -/
structure SameAck (s t : State) : Prop where
  sndUna : t.tcpSndUna = s.tcpSndUna
  sndNxt : s.tcpSndNxt < 2 ^ 32 → t.tcpSndNxt = s.tcpSndNxt

theorem SameAck.refl (s : State) : SameAck s s := ⟨rfl, fun _ => rfl⟩

/-- `handle_tcp` takes the acknowledgement number of a segment of the connection. -/
def HandlesAck (w : World) (x : Segment) (s t : State) : Prop :=
  (∃ k, ∃ frame ∈ w.frames k, ∃ y, passedOn w.arch frame s = some y ∧
    segmentAt frame.mem y.pl y.plen y.src = some x) ∧ x.forConn s ∧ t = tcpAck x.flags x.ack s

/-- A run with the segments of the connection that are processed in it, in order. -/
def AckRun (w : World) (s : State) (log : List Segment) (t : State) : Prop :=
  Logged (HandlesAck w) SameAck s log t

theorem ackRun_segmentRel (w : World) :
    SegmentRel w (fun _ _ _ _ => True) fun s t => ∃ log, AckRun w s log t where
  trans := by
    rintro s t u ⟨log, h⟩ ⟨log', h'⟩
    exact ⟨log ++ log', h.trans h'⟩
  idle _ _ _ _ _ := ⟨[], .of_silent ⟨rfl, fun _ => rfl⟩⟩
  request s target := by
    obtain ⟨txCount, sent, heq⟩ := sendArpRequest_eq w target s
    rw [heq]
    exact ⟨[], .of_silent ⟨rfl, fun _ => rfl⟩⟩
  packet := by
    intro s u proto dest payload _ _ _
    obtain ⟨ipId, txCount, sent, heq⟩ := packetSent_eq w proto dest payload u
    rw [heq]
    exact ⟨[], .of_silent ⟨rfl, fun _ => rfl⟩⟩
  vars _ _ _ _ := ⟨[], .of_silent ⟨rfl, fun _ => rfl⟩⟩
  counted _ := ⟨[], .of_silent ⟨rfl, fun h => u32_of_lt h⟩⟩
  ack := by
    intro k frame s y x hframe hpass hx hconn
    exact ⟨[x], .of_event ⟨⟨k, frame, hframe, y, hpass, hx⟩, hconn, rfl⟩⟩
  segment _ _ _ := trivial

theorem ackRun_handleRel (w : World) :
    HandleRel w (fun _ _ _ _ => True) fun s t => ∃ log, AckRun w s log t where
  toSendRel := (ackRun_segmentRel w).toSendRel
  echo _ _ _ _ _ _ := trivial
  arp := by
    intro k frame s _ _
    rw [handleArp_value]
    cases arpAt frame.mem 14 (frame.len - 14) with
    | none => exact ⟨[], .start⟩
    | some x =>
      obtain ⟨mac, valid, txCount, sent, heq⟩ := arpInput_eq w x s
      rw [Option.elim_some, heq]
      exact ⟨[], .of_silent ⟨rfl, fun _ => rfl⟩⟩
  udp := by
    intro k frame s y _ _
    obtain ⟨done, answer, heq⟩ := handleUdp_eq frame.mem y.pl y.plen s
    rw [heq]
    exact ⟨[], .of_silent ⟨rfl, fun _ => rfl⟩⟩
  tcp hpoll hframe hpass h := (ackRun_segmentRel w).handleTcp hpoll hframe hpass h

/-- **What a run acknowledges.**  `tcp_snd_una` moves up to numbers that were processed, not above
`tcp_snd_nxt`, and it is there if the number of `tcp_snd_nxt` was processed. -/
theorem AckRun.acked {w : World} {s t : State} {log : List Segment} (h : AckRun w s log t)
    (hnxt : s.tcpSndNxt < 2 ^ 32) (huna : s.tcpSndUna ≤ s.tcpSndNxt) :
    t.tcpSndNxt = s.tcpSndNxt ∧ t.tcpSndUna ≤ s.tcpSndNxt ∧
      (t.tcpSndUna = s.tcpSndUna ∨ ∃ x ∈ log, x.isAck ∧ x.ack = t.tcpSndUna) ∧
      ((∃ x ∈ log, x.isAck ∧ x.ack = s.tcpSndNxt) → t.tcpSndUna = s.tcpSndNxt) := by
  induction h with
  | start => exact ⟨rfl, huna, .inl rfl, by simp⟩
  | @event log b c x _ hx ih =>
    obtain ⟨hb, hle, hfrom, hall⟩ := ih
    obtain ⟨-, -, rfl⟩ := hx
    have hkept : (tcpAck x.flags x.ack b).tcpSndNxt = b.tcpSndNxt := by
      unfold tcpAck
      split <;> rfl
    by_cases htaken : x.flags &&& 0x10 ≠ 0 ∧ b.tcpSndUna ≤ x.ack ∧ x.ack ≤ b.tcpSndNxt
    · have hack : (tcpAck x.flags x.ack b).tcpSndUna = x.ack := by
        rw [tcpAck, if_pos htaken]
      obtain ⟨hflag, hlow, hhigh⟩ := htaken
      rw [hack, hkept]
      refine ⟨hb, by omega, .inr ⟨x, List.mem_append_right _ (List.mem_singleton_self _), hflag, rfl⟩, ?_⟩
      rintro ⟨y, hy, hyack, hynum⟩
      obtain hmem | hmem := List.mem_append.mp hy
      · have hreached := hall ⟨y, hmem, hyack, hynum⟩
        omega
      · rw [List.mem_singleton.mp hmem] at hynum
        exact hynum
    · have hsame : tcpAck x.flags x.ack b = b := by
        rw [tcpAck, if_neg htaken]
      rw [hsame]
      refine ⟨hb, hle, hfrom.imp id ?_, ?_⟩
      · rintro ⟨y, hy, hyack⟩
        exact ⟨y, List.mem_append_left _ hy, hyack⟩
      · rintro ⟨y, hy, hyack, hynum⟩
        obtain hmem | hmem := List.mem_append.mp hy
        · exact hall ⟨y, hmem, hyack, hynum⟩
        · -- the number of `tcp_snd_nxt` is always taken
          rw [List.mem_singleton.mp hmem] at hyack hynum
          exact absurd ⟨hyack, by omega, by omega⟩ htaken
  | @silent log b c _ hs ih =>
    obtain ⟨hb, hle, hfrom, hall⟩ := ih
    rw [hs.sndUna, hs.sndNxt (by omega)]
    exact ⟨hb, hle, hfrom, hall⟩

/-! ## Runs of a write -/

/-- A segment that was written: the sequence number behind its last byte, and the segments of the
connection that were processed while `net_tcp_write` waited for its acknowledgement. -/
structure Written where
  stop : ℕ
  heard : List Segment

/-- A run of `net_tcp_write` with the segments that it writes and its result. -/
inductive WriteRun (w : World) (fuel timeoutMs : ℕ) :
    List UInt8 → State → List Written → Bool → State → Prop
  | done {s : State} : WriteRun w fuel timeoutMs [] s [] true s
  | acked {data : List UInt8} {s u v t : State} {heard : List Segment} {written : List Written}
      {r : Bool} (hdata : data ≠ [])
      (hsend : sendTcp w (netPoll w fuel) fuel 0x18 (data.take 1200) s = some u)
      (hwait : ackLoop w fuel u.tcpSndNxt (nowMs w u).1 timeoutMs fuel (nowMs w u).2 = some v)
      (hheard : AckRun w u heard v) (hack : ¬ v.tcpSndUna < u.tcpSndNxt)
      (hrest : WriteRun w fuel timeoutMs (data.drop 1200) v written r t) :
      WriteRun w fuel timeoutMs data s (⟨u.tcpSndNxt, heard⟩ :: written) r t
  | failed {data : List UInt8} {s u v : State} {heard : List Segment} (hdata : data ≠ [])
      (hsend : sendTcp w (netPoll w fuel) fuel 0x18 (data.take 1200) s = some u)
      (hwait : ackLoop w fuel u.tcpSndNxt (nowMs w u).1 timeoutMs fuel (nowMs w u).2 = some v)
      (hheard : AckRun w u heard v) (hack : v.tcpSndUna < u.tcpSndNxt) :
      WriteRun w fuel timeoutMs data s [⟨u.tcpSndNxt, heard⟩] false v

section

variable {w : World} {fuel timeoutMs : ℕ} {s t : State}

theorem ackLoop_run {want st : ℕ} : ∀ {n : ℕ} {s : State},
    ackLoop w fuel want st timeoutMs n s = some t → ∃ heard, AckRun w s heard t := by
  intro n
  induction n with
  | zero =>
    intro s h
    simp [ackLoop] at h
  | succ n ih =>
    intro s h
    unfold ackLoop at h
    split at h
    swap
    · obtain rfl := Option.some.inj h
      exact ⟨[], .start⟩
    have helapsed : ∃ heard, AckRun w s heard (elapsed w st timeoutMs s).2 :=
      (ackRun_segmentRel w).toSendRel.nowMs s
    generalize elapsed w st timeoutMs s = r at h helapsed
    obtain ⟨late, a⟩ := r
    simp only at h
    split at h
    · obtain rfl := Option.some.inj h
      exact helapsed
    · obtain ⟨b, hpoll, hloop⟩ := Option.bind_eq_some_iff.mp h
      have hpolled := (ackRun_handleRel w).netPoll fuel a b hpoll
      exact (ackRun_segmentRel w).trans helapsed ((ackRun_segmentRel w).trans hpolled (ih hloop))

/-- **Every write is a run.** -/
theorem writeLoop_run {r : Bool} : ∀ {n : ℕ} {data : List UInt8} {s : State},
    writeLoop w fuel timeoutMs n data s = some (r, t) →
      ∃ written, WriteRun w fuel timeoutMs data s written r t := by
  intro n
  induction n with
  | zero =>
    intro data s h
    simp [writeLoop] at h
  | succ n ih =>
    intro data s h
    unfold writeLoop at h
    split at h
    · rename_i hdata
      obtain ⟨rfl, rfl⟩ : true = r ∧ s = t := by simpa using h
      rw [hdata]
      exact ⟨[], .done⟩
    rename_i hdata
    obtain ⟨u, hsend, h⟩ := Option.bind_eq_some_iff.mp h
    simp only at h
    obtain ⟨v, hwait, h⟩ := Option.bind_eq_some_iff.mp h
    obtain ⟨heard, hheard⟩ : ∃ heard, AckRun w u heard v :=
      (ackRun_segmentRel w).trans ((ackRun_segmentRel w).toSendRel.nowMs u) (ackLoop_run hwait)
    split at h
    · rename_i hack
      obtain ⟨rfl, rfl⟩ : false = r ∧ v = t := by simpa using h
      exact ⟨_, .failed hdata hsend hwait hheard hack⟩
    · rename_i hack
      obtain ⟨written, hrest⟩ := ih h
      exact ⟨_, .acked hdata hsend hwait hheard hack hrest⟩

/-- A run is a write, given enough turns. -/
theorem WriteRun.writeLoop {data : List UInt8} {written : List Written} {r : Bool}
    (h : WriteRun w fuel timeoutMs data s written r t) :
    ∀ {n : ℕ}, data.length < n → writeLoop w fuel timeoutMs n data s = some (r, t) := by
  induction h with
  | done =>
    intro n hn
    obtain ⟨n, rfl⟩ := Nat.exists_eq_succ_of_ne_zero (Nat.ne_of_gt (Nat.zero_lt_of_lt hn))
    rfl
  | acked hdata hsend hwait _ hack _ ih =>
    intro n hn
    obtain ⟨n, rfl⟩ := Nat.exists_eq_succ_of_ne_zero (Nat.ne_of_gt (Nat.zero_lt_of_lt hn))
    have hpos := List.length_pos_iff.mpr hdata
    rw [Orion.Net.writeLoop, if_neg hdata, hsend]
    simp only [Option.bind_eq_bind, Option.bind_some]
    rw [hwait, Option.bind_some, if_neg hack]
    exact ih (by rw [List.length_drop]; omega)
  | failed hdata hsend hwait _ hack =>
    intro n hn
    obtain ⟨n, rfl⟩ := Nat.exists_eq_succ_of_ne_zero (Nat.ne_of_gt (Nat.zero_lt_of_lt hn))
    rw [Orion.Net.writeLoop, if_neg hdata, hsend]
    simp only [Option.bind_eq_bind, Option.bind_some]
    rw [hwait, Option.bind_some, if_pos hack]

/-- What is written is behind everything that was acknowledged before. -/
theorem sendTcp_written {data : List UInt8} {u : State} (hnxt : s.tcpSndNxt < 2 ^ 32)
    (huna : s.tcpSndUna ≤ s.tcpSndNxt)
    (h : sendTcp w (netPoll w fuel) fuel 0x18 data s = some u) :
    u.tcpSndUna ≤ s.tcpSndNxt ∧ u.tcpSndNxt = u32 (s.tcpSndNxt + data.length) := by
  unfold sendTcp at h
  obtain ⟨a, hsend, hrest⟩ := Option.bind_eq_some_iff.mp h
  obtain ⟨log, hlog⟩ := (ackRun_segmentRel w).toSendRel.sendIpPacket
    ((ackRun_handleRel w).netPoll fuel) trivial hsend
  obtain ⟨hkept, hle, -⟩ := hlog.acked hnxt huna
  obtain rfl := Option.some.inj hrest
  refine ⟨hle, ?_⟩
  show u32 (a.tcpSndNxt + 0 + 0 + data.length) = u32 (s.tcpSndNxt + data.length)
  rw [hkept, Nat.add_zero]

/-! ## When success means acknowledged -/

/-- A number covers a byte that ends at `stop`: modulo 2^32 it is not before `stop`. -/
def Covers (stop : ℕ) (x : Segment) : Prop := x.isAck ∧ sub32 x.ack stop < 2 ^ 31

/-- For each segment, an acknowledgement that covers its last byte was processed after it was sent. -/
def AllCovered (written : List Written) : Prop :=
  ∀ before y after, written = before ++ y :: after →
    ∃ x ∈ y.heard ++ after.flatMap Written.heard, Covers y.stop x

/-- Each segment was acknowledged in time: while its acknowledgement was waited for, the one for
everything sent was processed. -/
def AllAnswered (written : List Written) : Prop :=
  ∀ y ∈ written, ∃ x ∈ y.heard, x.isAck ∧ x.ack = y.stop

theorem AllAnswered.covered {written : List Written} (h : AllAnswered written) :
    AllCovered written := by
  rintro before y after rfl
  obtain ⟨x, hx, hack, hnum⟩ := h y (List.mem_append_right _ List.mem_cons_self)
  refine ⟨x, List.mem_append_left _ hx, hack, ?_⟩
  rw [hnum, sub32, Nat.add_sub_cancel_left]
  decide

/-- While the sequence numbers do not wrap, a write succeeds exactly if each segment is answered. -/
theorem WriteRun.answered {data : List UInt8} {written : List Written} {r : Bool}
    (h : WriteRun w fuel timeoutMs data s written r t) (huna : s.tcpSndUna ≤ s.tcpSndNxt)
    (hnxt : s.tcpSndNxt + data.length < 2 ^ 32) : r = true ↔ AllAnswered written := by
  induction h with
  | done => exact ⟨fun _ => by simp [AllAnswered], fun _ => rfl⟩
  | @acked data s u v t heard written r hdata hsend hwait hheard hack hrest ih =>
    obtain ⟨hbefore, hstop⟩ := sendTcp_written (by omega) huna hsend
    have hpos := List.length_pos_iff.mpr hdata
    have hlen : (data.take 1200).length = min 1200 data.length := List.length_take
    rw [u32_of_lt (by omega)] at hstop
    have hdrop : (data.drop 1200).length = data.length - 1200 := List.length_drop
    have hacked := hheard.acked (by omega) (by omega)
    have hhere : ∃ x ∈ heard, x.isAck ∧ x.ack = u.tcpSndNxt := by
      obtain ⟨-, hle, hsame | ⟨x, hx, hxack, hnum⟩, -⟩ := hacked
      · omega
      · exact ⟨x, hx, hxack, by omega⟩
    have hbelow : v.tcpSndUna ≤ v.tcpSndNxt := by
      rw [hacked.1]
      exact hacked.2.1
    have hfits : v.tcpSndNxt + (data.drop 1200).length < 2 ^ 32 := by
      rw [hacked.1, hdrop]
      clear hacked hhere
      omega
    rw [ih hbelow hfits]
    constructor
    · intro hrest y hy
      obtain rfl | hmem := List.mem_cons.mp hy
      · exact hhere
      · exact hrest y hmem
    · exact fun hall y hy => hall y (List.mem_cons_of_mem _ hy)
  | @failed data s u v heard hdata hsend hwait hheard hack =>
    obtain ⟨hbefore, hstop⟩ := sendTcp_written (by omega) huna hsend
    have hpos := List.length_pos_iff.mpr hdata
    have hlen : (data.take 1200).length = min 1200 data.length := List.length_take
    rw [u32_of_lt (by omega)] at hstop
    obtain ⟨-, -, -, hall⟩ := hheard.acked (by omega) (by omega)
    constructor
    · intro hfalse
      exact absurd hfalse (by decide)
    · intro hanswered
      have hreached := hall (hanswered _ List.mem_cons_self)
      omega

end

end Orion.Net
