import Mathlib.Data.List.Infix
import Orion.Net.Trace

/-!
# What the reader of a TCP connection gets

The peer sends one byte stream in segments, with a FIN behind the last byte; the network may
reorder, duplicate and lose segments, and the reader takes bytes out whenever it likes.
`Trace.invariant` is the induction over such runs in terms of the receive variables, and the results
about the code come from it:

* `tcp_delivers_in_order` — what the reader has got and what is buffered are bytes of the stream at
  increasing positions;
* `tcp_acknowledges_what_it_keeps` — the acknowledgement number counts exactly these bytes, as long
  as the buffer has room for every segment that is taken;
* `tcp_end_of_stream_is_complete` — the end of the stream is reported when what was kept is the
  whole stream, as long as no FIN overtakes data and the buffer has room.

The last two have a counterexample each beside them: without the condition they fail.
-/

namespace Orion.Net

open Orion.Traced

/-! ## The invariant rule -/

/-- **Runs of an established connection**, in terms of the receive variables, what was delivered and
whether a FIN came in order. -/
theorem Trace.invariant {w : World} {ok : Conn → Segment → Prop} {c d : Conn}
    {I : Rx → List UInt8 → Bool → Prop} (hr : Routed c.net)
    (start : I c.net.rx c.delivered c.fin)
    (connected : ∀ v out fin, I v out fin → v.event ≠ 1)
    (reset : ∀ v out fin, I v out fin → I { v with event := -1 } out fin)
    (accept : ∀ (d : Conn) x, I d.net.rx d.delivered d.fin → ok d x → x.flags &&& 0x04 = 0 →
      I (d.net.rx.accept w.arch d.net.tcpOutCap x) d.delivered
        (d.fin || decide (InOrderFin x d.net.rx)))
    (read : ∀ v out fin n, I v out fin → I { v with out := v.out.drop n } (out ++ v.out.take n) fin)
    (h : Trace w ok c d) : I d.net.rx d.delivered d.fin := by
  induction h with
  | start => exact start
  | @segment d poll fuel mem p len src x s h hx hok hs ih =>
    rcases handleTcp_segment hx hs with ⟨hf, hin⟩ | ⟨hf, rfl⟩
    · have hsame := h.sameConn hr
      obtain ⟨t, ht, -, hcases⟩ := tcpInput_cases (hsame.routed hr) x
      rw [hin] at ht
      obtain rfl := Option.some.inj ht
      simp only [hf, true_and]
      rcases hcases with ⟨-, hev, -⟩ | ⟨hrst, hrx⟩ | ⟨hrst, hrx⟩
      · exact absurd hev (connected _ _ _ ih)
      · have hno : ¬ InOrderFin x d.net.rx := fun hfin => hrst hfin.2.1
        rw [hrx, decide_eq_false hno, Bool.or_false]
        exact reset _ _ _ ih
      · rw [hrx]
        exact accept d x ih (hok hf) hrst
    · simpa only [hf, false_and, decide_false, Bool.or_false] using ih
  | read n h ih => exact read _ _ _ n ih
  | other h hs ih =>
    simp only [hs.2]
    exact ih

/-! ## Counting -/

theorem size_eq_imp_u32 {arch : Arch} {n m : ℕ} (h : arch.size n = m) (hm : m < 2 ^ 32) :
    u32 n = m := by
  have hdvd : 2 ^ 32 ∣ 2 ^ arch.sizeBits := pow_dvd_pow 2 arch.sizeBits_ge
  unfold Arch.size at h
  unfold u32
  rw [← Nat.mod_mod_of_dvd n hdvd, h, Nat.mod_eq_of_lt hm]

/-- The sum that the FIN branch compares does not leave the 32-bit range. -/
def FinSumFits (arch : Arch) (x : Segment) : Prop :=
  arch = .x86_64 → x.seq + x.data.length < 2 ^ 32

theorem size_eq_u32 {arch : Arch} {x : Segment} (h : FinSumFits arch x) :
    arch.size (x.seq + x.data.length) = u32 (x.seq + x.data.length) := by
  cases arch with
  | x86_64 =>
    have := h rfl
    unfold Arch.size u32
    rw [Nat.mod_eq_of_lt this, Nat.mod_eq_of_lt]
    exact this.trans (by decide)
  | i686 => rfl

/-- The position after the data of a segment has been offered to the receiver. -/
theorem Rx.takeData_rcvNxt (cap : ℕ) (x : Segment) (v : Rx) :
    (v.takeData cap x).rcvNxt = if x.data ≠ [] ∧ x.seq = v.rcvNxt then
      u32 (v.rcvNxt + x.data.length) else v.rcvNxt := by
  unfold takeData
  split <;> rfl

/-- **A FIN is in order exactly when the position behind its data is the next expected one.** -/
theorem inOrderFin_iff {x : Segment} {v : Rx} (hv : v.rcvNxt < 2 ^ 32)
    (hrst : x.flags &&& 0x04 = 0) (cap : ℕ) :
    InOrderFin x v ↔
      x.fin ∧ u32 (x.seq + x.data.length) = (v.takeData cap x).rcvNxt := by
  rw [Rx.takeData_rcvNxt]
  unfold InOrderFin
  by_cases heq : x.seq = v.rcvNxt
  · by_cases hdata : x.data = []
    · have hend : u32 v.rcvNxt = v.rcvNxt := Nat.mod_eq_of_lt hv
      simp [heq, hdata, hrst, hend]
    · simp [heq, hdata, hrst]
  · simp [heq, hrst]

/-- **A FIN that is in order and whose sum fits is counted, and no other.** -/
theorem Rx.accept_rcvNxt {arch : Arch} {x : Segment} {v : Rx} (hv : v.rcvNxt < 2 ^ 32)
    (hrst : x.flags &&& 0x04 = 0) (cap : ℕ)
    (hfit : InOrderFin x v → FinSumFits arch x) :
    (v.accept arch cap x).rcvNxt = if InOrderFin x v then u32 ((v.takeData cap x).rcvNxt + 1)
      else (v.takeData cap x).rcvNxt := by
  have hiff := inOrderFin_iff hv hrst cap
  have hlt : (v.takeData cap x).rcvNxt < 2 ^ 32 := by
    rw [takeData_rcvNxt]
    split
    · exact u32_lt _
    · exact hv
  unfold accept takeFin
  by_cases hin : InOrderFin x v
  · obtain ⟨hfin, hend⟩ := hiff.mp hin
    rw [if_pos hin, if_pos hfin]
    show (if _ then _ else _) = _
    rw [if_pos ((size_eq_u32 (hfit hin)).trans hend)]
  · rw [if_neg hin]
    split
    · next hfin =>
      show (if _ then _ else _) = _
      rw [if_neg fun hsum => hin (hiff.mpr ⟨hfin, size_eq_imp_u32 hsum hlt⟩)]
    · rfl

/-- The buffer has room for the segment, if its data are the next expected ones. -/
def RoomFor (s : State) (x : Segment) : Prop :=
  x.data ≠ [] ∧ x.seq = s.tcpRcvNxt → s.tcpOut.length + x.data.length ≤ s.tcpOutCap

/-- An in-order FIN does not make the sum leave the 32-bit range. -/
def FinCounted (arch : Arch) (s : State) (x : Segment) : Prop :=
  InOrderFin x s.rx → FinSumFits arch x

/-- The peer sends one FIN: none is in order after one was. -/
def OneFin (d : Conn) (x : Segment) : Prop := d.fin = true → ¬ InOrderFin x d.net.rx

/-- What has been acknowledged is what has been kept, plus one after an in-order FIN. -/
def AckedIsKept (irs : ℕ) (d : Conn) : Prop :=
  sub32 d.net.tcpRcvNxt (u32 (irs + 1)) =
    u32 (d.delivered.length + d.net.tcpOut.length + d.fin.toNat)

theorem Rx.accept_out (arch : Arch) (cap : ℕ) (x : Segment) (v : Rx) :
    (v.accept arch cap x).out = (v.takeData cap x).out := by
  unfold accept takeFin
  split <;> rfl

/-- A segment does not take an established connection back to the handshake. -/
theorem Rx.accept_event_ne {v : Rx} (h : v.event ≠ 1) (arch : Arch) (cap : ℕ) (x : Segment) :
    (v.accept arch cap x).event ≠ 1 := by
  rcases accept_event arch cap x v with heq | h3 | h4
  · rwa [heq]
  · rw [h3]
    decide
  · rw [h4]
    decide

/-- **The acknowledgement number counts what is kept** in every run in which the buffer has room for
every segment that is taken and no in-order FIN makes the sum wrap. -/
theorem tcp_acknowledges_what_it_keeps {w : World} {fuel : ℕ} {host : List UInt8} {port : ℕ}
    {s₀ s : State} (hconn : netTcpConnect w fuel host port s₀ = some (.ok (), s)) {irs : ℕ}
    (hirs : s.tcpRcvNxt = u32 (irs + 1)) (d : Conn)
    (h : Trace w (fun d x => OneFin d x ∧ RoomFor d.net x ∧ FinCounted w.arch d.net x)
      ⟨s, [], false⟩ d) : AckedIsKept irs d := by
  obtain ⟨synAck, -, -, hest⟩ := netTcpConnect_established hconn
  have hinv : d.net.rx.rcvNxt =
      u32 (irs + 1 + (d.delivered.length + d.net.rx.out.length + d.fin.toNat)) ∧
      d.net.rx.event ≠ 1 := by
    refine h.invariant (I := fun v out fin =>
      v.rcvNxt = u32 (irs + 1 + (out.length + v.out.length + fin.toNat)) ∧ v.event ≠ 1)
      hest.routed ?_ (fun _ _ _ hv => hv.2) (fun _ _ _ hv => ⟨hv.1, show (-1 : ℤ) ≠ 1 by decide⟩) ?_ ?_
    · show s.tcpRcvNxt = u32 (irs + 1 + (0 + s.tcpOut.length + 0)) ∧ s.tcpEvent ≠ 1
      rw [hest.out, hest.event]
      exact ⟨hirs, by decide⟩
    · rintro d x ⟨hv, hev⟩ ⟨hone, hroom, hfin⟩ hrst
      have hlt : d.net.rx.rcvNxt < 2 ^ 32 := hv ▸ u32_lt _
      -- the data
      have hdata : (d.net.rx.takeData d.net.tcpOutCap x).rcvNxt = u32 (irs + 1 + (d.delivered.length +
          (d.net.rx.takeData d.net.tcpOutCap x).out.length + d.fin.toNat)) := by
        unfold Rx.takeData
        split
        · next htaken =>
          have hlen : (x.data.take (d.net.tcpOutCap - d.net.rx.out.length)).length
              = x.data.length := by
            have : d.net.rx.out.length + x.data.length ≤ d.net.tcpOutCap := hroom htaken
            rw [List.length_take]
            omega
          simp only [List.length_append, hlen, hv]
          unfold u32
          omega
        · exact hv
      refine ⟨?_, ?_⟩
      · rw [Rx.accept_rcvNxt hlt hrst _ hfin, Rx.accept_out]
        split
        · next hin =>
          have hfirst : d.fin = false := by
            cases hd : d.fin with
            | false => rfl
            | true => exact absurd hin (hone hd)
          rw [hdata, hfirst]
          simp only [hin, decide_true, Bool.or_true, Bool.toNat_false, Bool.toNat_true]
          unfold u32
          omega
        · next hin =>
          rw [hdata]
          simp only [hin, decide_false, Bool.or_false]
      · exact Rx.accept_event_ne hev _ _ _
    · rintro v out fin n ⟨hv, hev⟩
      refine ⟨?_, hev⟩
      rw [hv]
      congr 3
      simp only [List.length_append, List.length_take, List.length_drop]
      omega
  unfold AckedIsKept
  rw [show d.net.tcpRcvNxt = _ from hinv.1]
  show sub32 _ _ = u32 (d.delivered.length + d.net.rx.out.length + d.fin.toNat)
  unfold sub32 u32
  omega

/-! ### A connection to the gateway -/

theorem connectedState_established : Established 1000 (connectedState 1000) := by
  obtain ⟨event, rcvNxt, out, cap, h1, h2⟩ : (connectedState 1000).tcpEvent = 2 ∧
      (connectedState 1000).tcpRcvNxt = u32 (1000 + 1) ∧ (connectedState 1000).tcpOut = [] ∧
      (connectedState 1000).tcpOutCap = tcpStreamBuf ∧
      (if sameSubnet (connectedState 1000) (connectedState 1000).tcpPeerIp
          (connectedState 1000).ipAddr then (connectedState 1000).tcpPeerIp
        else (connectedState 1000).gateway) = (connectedState 1000).gateway ∧
      (connectedState 1000).gatewayMacValid = true := by
    decide +kernel
  exact ⟨event, rcvNxt, out, cap, h1, h2⟩

/-- A segment of the server belongs to the connection, as long as the connection stays the same. -/
theorem serverSegment_forConn {s : State} (h : SameConn (connectedState 1000) s) (seq : ℕ)
    (flags : UInt8) (data : List UInt8) : (serverSegment seq flags data).forConn s := by
  have hport : (connectedState 1000).tcpPeerIp = [10, 0, 2, 2] ∧
      (connectedState 1000).tcpPeerPort = 80 ∧ (connectedState 1000).tcpLocalPort = 49152 := by
    decide +kernel
  exact ⟨(h.peerIp.trans hport.1).symm, (h.peerPort.trans hport.2.1).symm,
    (h.localPort.trans hport.2.2).symm⟩

/-- One segment of the server, right after the handshake. -/
theorem server_sends {ok : Conn → Segment → Prop} {seq : ℕ} {flags : UInt8} {data : List UInt8}
    (hseq : seq < 2 ^ 32) (hflags : flags &&& 0x04 = 0)
    (hok : ok ⟨connectedState 1000, [], false⟩ (serverSegment seq flags data)) :
    ∃ s, Trace (handshakeWorld 1000) ok ⟨connectedState 1000, [], false⟩
        ⟨s, [], decide (InOrderFin (serverSegment seq flags data) (connectedState 1000).rx)⟩ ∧
      s.rx = (connectedState 1000).rx.accept .x86_64 tcpStreamBuf (serverSegment seq flags data) := by
  have hest := connectedState_established
  have hev : (connectedState 1000).tcpEvent ≠ 1 := by
    rw [hest.event]
    decide
  obtain ⟨s, hs, -, hrx⟩ := Trace.arrive hest.routed (.start) (serverSegment_wellFormed hseq flags data)
    (serverSegment_forConn (.refl _) seq flags data) hok hev hflags
  refine ⟨s, ?_, ?_⟩
  · simpa only [Bool.false_or] using hs
  · rw [hrx]
    simp only [hest.cap]
    rfl

/-- Two bytes and the FIN arrive: three positions are acknowledged. -/
theorem tcp_acknowledges_what_it_keeps_smoke : ∃ d,
    Trace (handshakeWorld 1000) (fun d x => OneFin d x ∧ RoomFor d.net x ∧
      FinCounted (handshakeWorld 1000).arch d.net x) ⟨connectedState 1000, [], false⟩ d ∧
    d.net.tcpRcvNxt = 1004 ∧ AckedIsKept 1000 d := by
  have hest := connectedState_established
  obtain ⟨s, hs, hrx⟩ := @server_sends (fun d x => OneFin d x ∧ RoomFor d.net x ∧
      FinCounted (handshakeWorld 1000).arch d.net x) 1001 0x11 [65, 66] (by decide) (by decide)
    ⟨fun h => absurd h (by decide), fun _ => by
      rw [hest.out, hest.cap]
      show [].length + [65, 66].length ≤ 32768
      decide, fun _ _ => by
      show 1001 + [65, 66].length < 2 ^ 32
      decide⟩
  refine ⟨_, hs, ?_, tcp_acknowledges_what_it_keeps handshake_connects hest.rcvNxt _ hs⟩
  rw [show s.tcpRcvNxt = _ from congrArg Rx.rcvNxt hrx]
  decide +kernel

/-! ### Data that is acknowledged and not kept -/

section Overflow

/-- The segment lies in the window behind the last acknowledgement. -/
def InWindow (d : Conn) (x : Segment) : Prop :=
  sub32 x.seq d.net.tcpRcvNxt + x.data.length ≤ tcpWindow

/-- The `k`-th of the segments of 1024 bytes. -/
def fullSegment (k : ℕ) : Segment := serverSegment (1001 + 1024 * k) 0x10 (List.replicate 1024 0)

theorem fullSegment_not_fin (k : ℕ) : ¬ (fullSegment k).fin := by
  show ¬ ((0x10 : UInt8) &&& 0x01 ≠ 0)
  decide

/-- The peer sends segments of 1024 bytes, each when the one before has been acknowledged, and nobody
reads. -/
theorem unread_segments {ok : Conn → Segment → Prop} (hok : ∀ k < 33, ∀ d, d.fin = false →
      d.net.tcpRcvNxt = 1001 + 1024 * k → ok d (fullSegment k)) : ∀ k ≤ 33, ∃ d,
    Trace (handshakeWorld 1000) ok ⟨connectedState 1000, [], false⟩ d ∧
    d.delivered = [] ∧ d.fin = false ∧ d.net.tcpEvent ≠ 1 ∧
    d.net.tcpRcvNxt = 1001 + 1024 * k ∧ d.net.tcpOut.length = min (1024 * k) tcpStreamBuf := by
  have hest := connectedState_established
  intro k
  induction k with
  | zero =>
    intro _
    exact ⟨_, .start, rfl, rfl, by rw [hest.event]; decide, hest.rcvNxt, by rw [hest.out]; rfl⟩
  | succ k ih =>
    intro hk
    obtain ⟨d, hd, hdel, hfin, hev, hrcv, hlen⟩ := ih (by omega)
    have hsame := hd.sameConn hest.routed
    have hcap : d.net.tcpOutCap = tcpStreamBuf := hsame.cap.trans hest.cap
    obtain ⟨s, hs, -, hrx⟩ := hd.arrive hest.routed (serverSegment_wellFormed (by omega) _ _)
      (serverSegment_forConn hsame _ _ _) (hok k (by omega) d hfin hrcv) hev
      (show (0x10 : UInt8) &&& 0x04 = 0 by decide)
    -- the segment is the next expected one and carries no FIN
    have haccept : d.net.rx.accept .x86_64 d.net.tcpOutCap (fullSegment k) =
        ⟨3, u32 (d.net.tcpRcvNxt + 1024),
          d.net.tcpOut ++ (List.replicate 1024 0).take (d.net.tcpOutCap - d.net.tcpOut.length)⟩ := by
      unfold Rx.accept Rx.takeFin Rx.takeData
      rw [if_neg (fullSegment_not_fin k), if_pos ⟨List.cons_ne_nil _ _, hrcv.symm⟩]
      simp only [fullSegment, serverSegment, List.length_replicate]
      rfl
    replace hrx := hrx.trans haccept
    refine ⟨_, hs, hdel, ?_, ?_, ?_, ?_⟩
    · simp only [hfin, Bool.false_or, decide_eq_false_iff_not]
      exact fun h => fullSegment_not_fin k h.1
    · rw [show s.tcpEvent = 3 from congrArg Rx.event hrx]
      decide
    · rw [show s.tcpRcvNxt = u32 (d.net.tcpRcvNxt + 1024) from congrArg Rx.rcvNxt hrx, hrcv]
      unfold u32
      omega
    · rw [show s.tcpOut = _ from congrArg Rx.out hrx]
      simp only [List.length_append, List.length_take, List.length_replicate, hlen, hcap,
        tcpStreamBuf]
      omega

theorem fullSegment_inWindow {k : ℕ} {d : Conn} (h : d.net.tcpRcvNxt = 1001 + 1024 * k) :
    InWindow d (fullSegment k) := by
  show sub32 (1001 + 1024 * k) d.net.tcpRcvNxt + (List.replicate 1024 (0 : UInt8)).length ≤ 4096
  rw [h, List.length_replicate]
  unfold sub32 u32
  omega

/-- After 33 such segments the peer has been told that 33792 bytes have arrived; 32768 have been
kept. -/
theorem tcp_acknowledges_dropped_data :
    netTcpConnect (handshakeWorld 1000) 3 (ascii "10.0.2.2") 80 upState =
      some (.ok (), connectedState 1000) ∧
    (connectedState 1000).tcpRcvNxt = u32 (1000 + 1) ∧
    ∃ d, Trace (handshakeWorld 1000) (fun d x => OneFin d x ∧ InWindow d x)
      ⟨connectedState 1000, [], false⟩ d ∧ ¬ AckedIsKept 1000 d := by
  refine ⟨handshake_connects, connectedState_established.rcvNxt, ?_⟩
  obtain ⟨d, hd, hdel, hfin, -, hrcv, hlen⟩ := @unread_segments
    (fun d x => OneFin d x ∧ InWindow d x) (fun k _ d hfin hrcv =>
      ⟨fun h => absurd h (by simp [hfin]), fullSegment_inWindow hrcv⟩) 33 le_rfl
  refine ⟨d, hd, ?_⟩
  unfold AckedIsKept
  rw [hdel, hfin, hrcv, hlen]
  decide

end Overflow

/-! ## Segments of one stream -/

section Peer

variable {stream : List UInt8} {irs : ℕ}

/-- The segment carries the bytes of the stream from offset `off` on; a FIN stands behind the last
byte. -/
structure At (stream : List UInt8) (irs off : ℕ) (x : Segment) : Prop where
  seq : x.seq = u32 (irs + 1 + off)
  inside : off + x.data.length ≤ stream.length
  data : x.data <+: stream.drop off
  fin : x.fin → off + x.data.length = stream.length

/-- A segment of a peer with initial sequence number `irs`: a bare acknowledgement, or a piece of
the stream. -/
def Piece (stream : List UInt8) (irs : ℕ) (x : Segment) : Prop :=
  (x.data = [] ∧ ¬ x.fin) ∨ ∃ off, At stream irs off x

/-- Sequence numbers of a stream shorter than `2^31` bytes determine the offset. -/
theorem u32_offset_inj {a i j : ℕ} (hi : i < 2 ^ 32) (hj : j < 2 ^ 32) :
    u32 (a + i) = u32 (a + j) ↔ i = j := by
  unfold u32
  omega

namespace At

variable {off r : ℕ} {x : Segment} {v : Rx} (hN : stream.length < 2 ^ 31)
  (h : At stream irs off x) (hr : r ≤ stream.length + 1) (hv : v.rcvNxt = u32 (irs + 1 + r))

include hN h hr hv

/-- The segment is the next expected one. -/
theorem seq_eq_iff : x.seq = v.rcvNxt ↔ off = r := by
  have := h.inside
  rw [h.seq, hv, u32_offset_inj (by omega) (by omega)]

/-- The position behind the segment is the next expected one. -/
theorem end_eq_iff : u32 (x.seq + x.data.length) = v.rcvNxt ↔ off + x.data.length = r := by
  have hin := h.inside
  have : u32 (x.seq + x.data.length) = u32 (irs + 1 + (off + x.data.length)) := by
    rw [h.seq]
    unfold u32
    omega
  rw [this, hv, u32_offset_inj (by omega) (by omega)]

/-- The position behind the FIN is the next expected one. -/
theorem fin_eq_iff : u32 (x.seq + x.data.length + 1) = v.rcvNxt ↔ off + x.data.length + 1 = r := by
  have hin := h.inside
  have : u32 (x.seq + x.data.length + 1) = u32 (irs + 1 + (off + x.data.length + 1)) := by
    rw [h.seq]
    unfold u32
    omega
  rw [this, hv, u32_offset_inj (by omega) (by omega)]

/-- The data are taken when the segment is the next expected one. -/
theorem takeData_eq (cap : ℕ) :
    (v.takeData cap x).rcvNxt = u32 (irs + 1 + (r + if off = r then x.data.length else 0)) ∧
      (v.takeData cap x).out = v.out ++
        (x.data.take (if off = r then x.data.length else 0)).take (cap - v.out.length) := by
  have hiff := h.seq_eq_iff hN hr hv
  unfold Rx.takeData
  by_cases hoff : off = r
  · simp only [hiff, hoff, and_true, if_true, List.take_length]
    by_cases hdata : x.data = []
    · simp [hdata, hv]
    · rw [if_pos hdata]
      refine ⟨?_, rfl⟩
      show u32 (v.rcvNxt + x.data.length) = _
      rw [hv]
      unfold u32
      omega
  · simp only [hiff, hoff, and_false, if_false, List.take_zero, List.take_nil, List.append_nil,
      Nat.add_zero]
    exact ⟨hv, trivial⟩

/-- **One segment of the stream**: `m` bytes are counted and `k` is 1 if its FIN is. -/
theorem accept_eq (arch : Arch) (cap : ℕ) : ∃ m k,
    (v.accept arch cap x).rcvNxt = u32 (irs + 1 + (r + m + k)) ∧
    (v.accept arch cap x).out = v.out ++ (x.data.take m).take (cap - v.out.length) ∧
    m = (if off = r then x.data.length else 0) ∧
    (k = 0 ∨ (k = 1 ∧ r + m = stream.length)) := by
  obtain ⟨hrcv, hout⟩ := h.takeData_eq hN hr hv cap
  have hin := h.inside
  refine ⟨if off = r then x.data.length else 0, ?_⟩
  rw [Rx.accept_out, hout]
  generalize hm : (if off = r then x.data.length else 0) = m at hrcv
  have hbound : r + m ≤ stream.length + 1 := by
    split at hm <;> omega
  unfold Rx.accept Rx.takeFin
  by_cases hfin : x.fin
  · by_cases hsum : arch.size (x.seq + x.data.length) = (v.takeData cap x).rcvNxt
    · have hend := size_eq_imp_u32 hsum (hrcv ▸ u32_lt _)
      rw [h.end_eq_iff hN hbound hrcv] at hend
      refine ⟨1, ?_, rfl, rfl, .inr ⟨rfl, hend ▸ h.fin hfin⟩⟩
      simp only [hfin, hsum, if_true]
      rw [hrcv]
      unfold u32
      omega
    · refine ⟨0, ?_, rfl, rfl, .inl rfl⟩
      simp only [hfin, hsum, if_true, if_false]
      exact hrcv
  · refine ⟨0, ?_, rfl, rfl, .inl rfl⟩
    simp only [hfin, if_false]
    exact hrcv

end At

/-- A bare acknowledgement brings nothing. -/
theorem Rx.accept_bare {arch : Arch} {cap : ℕ} {x : Segment} {v : Rx} (hdata : x.data = [])
    (hfin : ¬ x.fin) : v.accept arch cap x = v := by
  unfold accept takeFin takeData
  rw [if_neg hfin, if_neg fun h => h.1 hdata]

/-- The bytes of a prefix of the stream from `r` on, by their positions. -/
theorem map_range_stream {kept : List UInt8} {r : ℕ} (h : kept <+: stream.drop r) :
    (List.range' r kept.length).map (fun i => stream[i]?) = kept.map some := by
  obtain ⟨rest, hrest⟩ := h
  apply List.ext_getElem?
  intro i
  simp only [List.getElem?_map]
  by_cases hi : i < kept.length
  · have hget : stream[r + i]? = some kept[i] := by
      rw [← List.getElem?_drop, ← hrest, List.getElem?_append_left hi, List.getElem?_eq_getElem hi]
    simp [hi, hget]
  · simp [hi]

/-- The bytes are bytes of the stream at strictly increasing positions. -/
def InStreamOrder (stream bytes : List UInt8) : Prop :=
  ∃ pos : List ℕ, pos.Pairwise (· < ·) ∧ pos.map (fun i => stream[i]?) = bytes.map some

/-- The invariant of the stream: the receiver expects offset `r`, and what was kept lies below
it. -/
def InOrderSoFar (stream : List UInt8) (irs : ℕ) (v : Rx) (got : List UInt8) : Prop :=
  ∃ (r : ℕ) (pos : List ℕ), r ≤ stream.length + 1 ∧ v.rcvNxt = u32 (irs + 1 + r) ∧
    pos.Pairwise (· < ·) ∧ (∀ i ∈ pos, i < r) ∧
    pos.map (fun i => stream[i]?) = (got ++ v.out).map some

/-- **One segment.**  The bytes that are kept continue the stream at `r`. -/
theorem InOrderSoFar.accept (hN : stream.length < 2 ^ 31) {v : Rx} {got : List UInt8} {x : Segment}
    (h : InOrderSoFar stream irs v got) (hx : Piece stream irs x) (arch : Arch) (cap : ℕ) :
    InOrderSoFar stream irs (v.accept arch cap x) got := by
  rcases hx with ⟨hdata, hfin⟩ | ⟨off, hat⟩
  · rwa [Rx.accept_bare hdata hfin]
  obtain ⟨r, pos, hr, hrcv, hinc, hlt, hbytes⟩ := h
  obtain ⟨m, k, hrcv', hout, hm, hk⟩ := hat.accept_eq hN hr hrcv arch cap
  have hin := hat.inside
  generalize hkept : (x.data.take m).take (cap - v.out.length) = kept at hout
  have hlen : kept.length ≤ m := by
    rw [← hkept, List.length_take, List.length_take]
    omega
  have hstart : kept <+: stream.drop r := by
    split at hm
    · next hoff =>
      subst hoff
      rw [← hkept]
      exact ((List.take_prefix _ _).trans (List.take_prefix _ _)).trans hat.data
    · rw [List.eq_nil_of_length_eq_zero (by omega : kept.length = 0)]
      exact List.nil_prefix
  refine ⟨r + m + k, pos ++ List.range' r kept.length, ?_, hrcv', ?_, ?_, ?_⟩
  · split at hm <;> omega
  · rw [List.pairwise_append]
    refine ⟨hinc, List.pairwise_lt_range', ?_⟩
    intro i hi j hj
    have := hlt i hi
    have := (List.mem_range'_1.mp hj).1
    omega
  · intro i hi
    rcases List.mem_append.mp hi with hi | hi
    · have := hlt i hi
      omega
    · have := (List.mem_range'_1.mp hi).2
      omega
  · rw [hout, List.map_append, hbytes, map_range_stream hstart, ← List.append_assoc,
      ← List.map_append]

/-- **The reader gets the stream in order and without duplication**, for every order of arrival of
its segments and every pattern of reads. -/
theorem tcp_delivers_in_order {w : World} {fuel : ℕ} {host : List UInt8} {port : ℕ} {s₀ s : State}
    (hconn : netTcpConnect w fuel host port s₀ = some (.ok (), s))
    (hirs : s.tcpRcvNxt = u32 (irs + 1)) (hN : stream.length < 2 ^ 31) (d : Conn)
    (h : Trace w (fun _ x => Piece stream irs x) ⟨s, [], false⟩ d) :
    InStreamOrder stream (d.delivered ++ d.net.tcpOut) := by
  obtain ⟨synAck, -, -, hest⟩ := netTcpConnect_established hconn
  have hinv : InOrderSoFar stream irs d.net.rx d.delivered ∧ d.net.rx.event ≠ 1 := by
    refine h.invariant (I := fun v got _ => InOrderSoFar stream irs v got ∧ v.event ≠ 1)
      hest.routed ?_ (fun _ _ _ hv => hv.2)
      (fun _ _ _ hv => ⟨hv.1, show (-1 : ℤ) ≠ 1 by decide⟩) ?_ ?_
    · refine ⟨⟨0, [], by omega, hirs, .nil, by simp, ?_⟩, ?_⟩
      · show [] = ([] ++ s.tcpOut).map some
        rw [hest.out]
        rfl
      · show s.tcpEvent ≠ 1
        rw [hest.event]
        decide
    · rintro d x ⟨hso, hev⟩ hpiece -
      exact ⟨hso.accept hN hpiece _ _, Rx.accept_event_ne hev _ _ _⟩
    · rintro v got - n ⟨⟨r, pos, hr, hrcv, hinc, hlt, hbytes⟩, hev⟩
      refine ⟨⟨r, pos, hr, hrcv, hinc, hlt, ?_⟩, hev⟩
      rw [hbytes, List.append_assoc, List.take_append_drop]
  obtain ⟨⟨r, pos, -, -, hinc, -, hbytes⟩, -⟩ := hinv
  exact ⟨pos, hinc, hbytes⟩

/-- Both bytes of a stream arrive in one segment, and one of them is read. -/
theorem tcp_delivers_in_order_smoke : ∃ d,
    Trace (handshakeWorld 1000) (fun _ x => Piece [65, 66] 1000 x) ⟨connectedState 1000, [], false⟩ d ∧
    d.delivered = [65] ∧ InStreamOrder [65, 66] (d.delivered ++ d.net.tcpOut) := by
  have hest := connectedState_established
  obtain ⟨s, hs, hrx⟩ := @server_sends (fun _ x => Piece [65, 66] 1000 x) 1001 0x10 [65, 66]
    (by decide) (by decide) (.inr ⟨0, rfl, by decide, by decide, fun _ => rfl⟩)
  refine ⟨_, hs.read 1, ?_,
    tcp_delivers_in_order handshake_connects hest.rcvNxt (by decide) _ (hs.read 1)⟩
  show [] ++ s.tcpOut.take 1 = [65]
  rw [show s.tcpOut = _ from congrArg Rx.out hrx]
  decide +kernel

/-! ## The end of the stream -/

/-- A FIN comes when the segment is the next expected one, or when everything before the FIN has
been taken. -/
def FinNotEarly (s : State) (x : Segment) : Prop :=
  x.fin → x.seq = s.tcpRcvNxt ∨ u32 (x.seq + x.data.length) = s.tcpRcvNxt ∨
    u32 (x.seq + x.data.length + 1) = s.tcpRcvNxt

/-- The invariant of the end: what was kept is the stream up to the offset that the receiver
expects, and event 4 means that this is all of it. -/
def CompleteAtEnd (stream : List UInt8) (irs : ℕ) (v : Rx) (got : List UInt8) : Prop :=
  ∃ r, r ≤ stream.length + 1 ∧ v.rcvNxt = u32 (irs + 1 + r) ∧ got ++ v.out = stream.take r ∧
    (v.event = 4 → stream.length ≤ r)

theorem Rx.accept_event_of_not_fin {arch : Arch} {cap : ℕ} {x : Segment} {v : Rx} (h : ¬ x.fin) :
    (v.accept arch cap x).event = 4 → v.event = 4 := by
  unfold accept takeFin takeData
  rw [if_neg h]
  split
  · intro h3
    exact absurd h3 (show (3 : ℤ) ≠ 4 by decide)
  · exact id

/-- The data of a segment at `off` continue the stream there. -/
theorem At.take_append {off : ℕ} {x : Segment} (h : At stream irs off x) :
    stream.take off ++ x.data = stream.take (off + x.data.length) := by
  have hdata : x.data = (stream.drop off).take x.data.length := List.prefix_iff_eq_take.mp h.data
  calc stream.take off ++ x.data
      = stream.take off ++ (stream.drop off).take x.data.length := by rw [← hdata]
    _ = stream.take (off + x.data.length) := by rw [List.take_add]

/-- **One segment**, with room for it and no FIN that overtakes data. -/
theorem CompleteAtEnd.accept (hN : stream.length < 2 ^ 31) {s : State} {got : List UInt8}
    {x : Segment} (h : CompleteAtEnd stream irs s.rx got) (hx : Piece stream irs x)
    (hearly : FinNotEarly s x) (hroom : RoomFor s x) (arch : Arch) :
    CompleteAtEnd stream irs (s.rx.accept arch s.tcpOutCap x) got := by
  rcases hx with ⟨hdata, hfin⟩ | ⟨off, hat⟩
  · rwa [Rx.accept_bare hdata hfin]
  obtain ⟨r, hr, hrcv, hkept, hend⟩ := h
  obtain ⟨m, k, hrcv', hout, hm, hk⟩ := hat.accept_eq hN hr hrcv arch s.tcpOutCap
  have hin := hat.inside
  have htake : stream.take (r + m + k) = stream.take (r + m) := by
    rcases hk with rfl | ⟨rfl, hlast⟩
    · rfl
    · rw [List.take_of_length_le (by omega), List.take_of_length_le (by omega)]
  refine ⟨r + m + k, by split at hm <;> omega, hrcv', ?_, fun hev => ?_⟩
  · rw [hout, htake, ← List.append_assoc, hkept]
    by_cases hoff : off = r
    · subst hoff
      rw [if_pos rfl] at hm
      subst hm
      -- all of the data fit
      have hfits : x.data.length ≤ s.tcpOutCap - s.rx.out.length := by
        by_cases hdata : x.data = []
        · simp [hdata]
        · have : s.rx.out.length + x.data.length ≤ s.tcpOutCap :=
            hroom ⟨hdata, (hat.seq_eq_iff hN hr hrcv).mpr rfl⟩
          omega
      rw [List.take_length, List.take_of_length_le hfits, hat.take_append]
    · rw [if_neg hoff] at hm
      subst hm
      rw [List.take_zero, List.take_nil, List.append_nil, Nat.add_zero]
  · by_cases hfin : x.fin
    · have hlast := hat.fin hfin
      rcases hearly hfin with h1 | h2 | h3
      · -- its own data are taken with it
        rw [if_pos ((hat.seq_eq_iff hN hr hrcv).mp h1)] at hm
        have := (hat.seq_eq_iff hN hr hrcv).mp h1
        omega
      · have := (hat.end_eq_iff hN hr hrcv).mp h2
        omega
      · have := (hat.fin_eq_iff hN hr hrcv).mp h3
        omega
    · have := hend (Rx.accept_event_of_not_fin hfin hev)
      omega

/-- **The end of the stream is not reported early** in runs in which every FIN comes when its
segment is expected or later and the buffer has room for the data that are taken: what was read and
what is buffered is then the whole stream.  And an in-order FIN is counted if its sum does not
wrap. -/
theorem tcp_end_of_stream_is_complete {w : World} {fuel : ℕ} {host : List UInt8} {port : ℕ}
    {s₀ s : State} (hconn : netTcpConnect w fuel host port s₀ = some (.ok (), s))
    (hirs : s.tcpRcvNxt = u32 (irs + 1)) (hN : stream.length < 2 ^ 31) (d : Conn)
    (h : Trace w (fun d x => Piece stream irs x ∧ FinNotEarly d.net x ∧ RoomFor d.net x)
      ⟨s, [], false⟩ d) :
    (d.net.tcpEvent = 4 → d.delivered ++ d.net.tcpOut = stream) ∧
      ∀ poll fuel mem p len src x, segmentAt mem p len src = some x → x.forConn d.net →
        InOrderFin x d.net.rx → FinSumFits w.arch x →
        ∃ t, (handleTcp w poll fuel mem p len src d.net).value = some t ∧
          t.tcpRcvNxt = u32 (x.seq + x.data.length + 1) := by
  obtain ⟨synAck, -, -, hest⟩ := netTcpConnect_established hconn
  have hinv : CompleteAtEnd stream irs d.net.rx d.delivered ∧ d.net.rx.event ≠ 1 := by
    refine h.invariant (I := fun v got _ => CompleteAtEnd stream irs v got ∧ v.event ≠ 1)
      hest.routed ?_ (fun _ _ _ hv => hv.2) ?_ ?_ ?_
    · refine ⟨⟨0, by omega, hirs, ?_, ?_⟩, ?_⟩
      · show [] ++ s.tcpOut = []
        rw [hest.out]
        rfl
      · show s.tcpEvent = 4 → _
        rw [hest.event]
        exact fun h => absurd h (by decide)
      · show s.tcpEvent ≠ 1
        rw [hest.event]
        decide
    · rintro v got - ⟨⟨r, hr, hrcv, hkept, -⟩, -⟩
      exact ⟨⟨r, hr, hrcv, hkept, fun h => absurd h (show (-1 : ℤ) ≠ 4 by decide)⟩,
        show (-1 : ℤ) ≠ 1 by decide⟩
    · rintro d x ⟨hc, hev⟩ ⟨hpiece, hearly, hroom⟩ -
      exact ⟨hc.accept hN hpiece hearly hroom _, Rx.accept_event_ne hev _ _ _⟩
    · rintro v got - n ⟨⟨r, hr, hrcv, hkept, hend⟩, hev⟩
      refine ⟨⟨r, hr, hrcv, ?_, hend⟩, hev⟩
      rw [← hkept, List.append_assoc, List.take_append_drop]
  obtain ⟨⟨r, hr, hrcv, hkept, hend⟩, hev⟩ := hinv
  refine ⟨fun h4 => ?_, ?_⟩
  · calc d.delivered ++ d.net.tcpOut = stream.take r := hkept
      _ = stream := List.take_of_length_le (hend h4)
  · intro poll fuel mem p len src x hx hfor hin hfit
    obtain ⟨t, ht, -, hcases⟩ := tcpInput_cases ((h.sameConn hest.routed).routed hest.routed) x
    refine ⟨t, by rw [handleTcp_value, hx]; exact (if_pos hfor).trans ht, ?_⟩
    rcases hcases with ⟨-, h1, -⟩ | ⟨hrst, -⟩ | ⟨hrst, hrx⟩
    · exact absurd h1 hev
    · exact absurd hin.2.1 hrst
    · have hlt : d.net.rx.rcvNxt < 2 ^ 32 := hrcv ▸ u32_lt _
      show t.rx.rcvNxt = _
      rw [hrx, Rx.accept_rcvNxt hlt hrst _ (fun _ => hfit), if_pos hin,
        ← ((inOrderFin_iff hlt hrst d.net.tcpOutCap).mp hin).2]
      unfold u32
      omega

/-- Both bytes of the stream come with the FIN, and the reader takes one of them. -/
theorem tcp_end_of_stream_is_complete_smoke : ∃ d,
    Trace (handshakeWorld 1000) (fun d x => Piece [65, 66] 1000 x ∧ FinNotEarly d.net x ∧
      RoomFor d.net x) ⟨connectedState 1000, [], false⟩ d ∧
    d.net.tcpEvent = 4 ∧ d.delivered = [65] ∧ d.delivered ++ d.net.tcpOut = [65, 66] := by
  have hest := connectedState_established
  obtain ⟨s, hs, hrx⟩ := @server_sends
    (fun d x => Piece [65, 66] 1000 x ∧ FinNotEarly d.net x ∧ RoomFor d.net x) 1001 0x11 [65, 66]
    (by decide) (by decide) ⟨.inr ⟨0, rfl, by decide, by decide, fun _ => rfl⟩, fun _ =>
      .inl hest.rcvNxt.symm, fun _ => by
      rw [hest.out, hest.cap]
      show [].length + [65, 66].length ≤ 32768
      decide⟩
  have hev : s.tcpEvent = 4 := by
    rw [show s.tcpEvent = _ from congrArg Rx.event hrx]
    decide +kernel
  have hlen : ([65, 66] : List UInt8).length < 2 ^ 31 := by decide
  refine ⟨_, hs.read 1, hev, ?_,
    (tcp_end_of_stream_is_complete handshake_connects hest.rcvNxt hlen _ (hs.read 1)).1 hev⟩
  show [] ++ s.tcpOut.take 1 = [65]
  rw [show s.tcpOut = _ from congrArg Rx.out hrx]
  decide +kernel

/-- A piece of a stream of zeros is such a piece by its offset and length. -/
theorem fullSegment_piece {k : ℕ} (hk : k < 33) :
    Piece (List.replicate 33792 0) 1000 (fullSegment k) := by
  refine .inr ⟨1024 * k, ?_, ?_, ?_, fun h => absurd h (fullSegment_not_fin k)⟩
  · show 1001 + 1024 * k = u32 (1000 + 1 + 1024 * k)
    unfold u32
    omega
  · show 1024 * k + (List.replicate 1024 (0 : UInt8)).length ≤ (List.replicate 33792 0).length
    rw [List.length_replicate, List.length_replicate]
    omega
  · show List.replicate 1024 (0 : UInt8) <+: (List.replicate 33792 0).drop (1024 * k)
    rw [List.drop_replicate]
    refine ⟨List.replicate (33792 - 1024 * k - 1024) 0, ?_⟩
    rw [List.replicate_append_replicate,
      show 1024 + (33792 - 1024 * k - 1024) = 33792 - 1024 * k by omega]

/-- Nobody reads, 33 full segments arrive in order, and then the FIN: the end is reported and 1024
bytes of the stream are gone. -/
theorem unread_stream_ends : ∃ d,
    Trace (handshakeWorld 1000) (fun d x => Piece (List.replicate 33792 0) 1000 x ∧
      FinNotEarly d.net x ∧ InWindow d x) ⟨connectedState 1000, [], false⟩ d ∧
    d.net.tcpEvent = 4 ∧ d.delivered = [] ∧ d.net.tcpOut.length = 32768 := by
  have hest := connectedState_established
  obtain ⟨d, hd, hdel, -, hev, hrcv, hlen⟩ := @unread_segments
    (fun d x => Piece (List.replicate 33792 0) 1000 x ∧ FinNotEarly d.net x ∧ InWindow d x)
    (fun k hk d _ hrcv => ⟨fullSegment_piece hk, fun h => absurd h (fullSegment_not_fin k),
      fullSegment_inWindow hrcv⟩) 33 le_rfl
  have hsame := hd.sameConn hest.routed
  have hpiece : Piece (List.replicate 33792 0) 1000 (serverSegment 34793 0x11 []) := by
    refine .inr ⟨33792, rfl, ?_, List.nil_prefix, fun _ => ?_⟩
    · show 33792 + 0 ≤ (List.replicate 33792 (0 : UInt8)).length
      rw [List.length_replicate]
    · show 33792 + 0 = (List.replicate 33792 (0 : UInt8)).length
      rw [List.length_replicate]
  have hwindow : InWindow d (serverSegment 34793 0x11 []) := by
    show sub32 34793 d.net.tcpRcvNxt + 0 ≤ 4096
    rw [hrcv]
    decide
  obtain ⟨s, hs, -, hrx⟩ := hd.arrive hest.routed
    (serverSegment_wellFormed (by decide : 34793 < 2 ^ 32) 0x11 []) (serverSegment_forConn hsame _ _ _)
    ⟨hpiece, fun _ => .inl hrcv.symm, hwindow⟩ hev (show (0x11 : UInt8) &&& 0x04 = 0 by decide)
  have hfin : (serverSegment 34793 0x11 []).fin := by
    show (0x11 : UInt8) &&& 0x01 ≠ 0
    decide
  refine ⟨_, hs, ?_, hdel, ?_⟩
  · show s.rx.event = 4
    rw [hrx]
    unfold Rx.accept Rx.takeFin
    rw [if_pos hfin]
  · show s.rx.out.length = 32768
    rw [hrx, Rx.accept_out]
    unfold Rx.takeData
    rw [if_neg fun h => h.1 rfl]
    exact hlen

/-- The FIN of a stream of two bytes overtakes them: the end is reported and nothing has been taken.
Where nobody reads, the end is reported although bytes have been dropped.  And a FIN behind the byte
with sequence number `0xffffffff` is not counted where `size_t` has 64 bits. -/
theorem tcp_end_of_stream_early :
    (netTcpConnect (handshakeWorld 1000) 3 (ascii "10.0.2.2") 80 upState =
        some (.ok (), connectedState 1000) ∧
      (∃ d, Trace (handshakeWorld 1000) (fun _ x => Piece [65, 66] 1000 x)
        ⟨connectedState 1000, [], false⟩ d ∧
      d.net.tcpEvent = 4 ∧ d.delivered ++ d.net.tcpOut = [] ∧
        sub32 d.net.tcpRcvNxt (u32 (1000 + 1)) = 0) ∧
      ∃ d, Trace (handshakeWorld 1000) (fun d x => Piece (List.replicate 33792 0) 1000 x ∧
        FinNotEarly d.net x ∧ InWindow d x) ⟨connectedState 1000, [], false⟩ d ∧
      d.net.tcpEvent = 4 ∧ d.delivered = [] ∧ d.net.tcpOut.length = 32768) ∧
    netTcpConnect (handshakeWorld 0xfffffffe) 3 (ascii "10.0.2.2") 80 upState =
        some (.ok (), connectedState 0xfffffffe) ∧
      ((handleTcp (handshakeWorld 0xfffffffe) some 0 (serverSegment 0xffffffff 0x11 [65]).mem 4 21 0
        (connectedState 0xfffffffe)).value.map State.tcpRcvNxt) = some 0 := by
  refine ⟨⟨handshake_connects, ?_, unread_stream_ends⟩, by decide +kernel, by decide +kernel⟩
  obtain ⟨s, hs, hrx⟩ := @server_sends (fun _ x => Piece [65, 66] 1000 x) 1003 0x11 []
    (by decide) (by decide) (.inr ⟨2, rfl, by decide, by decide, fun _ => rfl⟩)
  refine ⟨_, hs, ?_, ?_, ?_⟩
  · rw [show s.tcpEvent = _ from congrArg Rx.event hrx]
    decide +kernel
  · show [] ++ s.tcpOut = []
    rw [show s.tcpOut = _ from congrArg Rx.out hrx]
    decide +kernel
  · rw [show s.tcpRcvNxt = _ from congrArg Rx.rcvNxt hrx]
    decide +kernel

end Peer

end Orion.Net
