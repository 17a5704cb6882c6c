import Orion.Dhcp.Client
import Orion.Lib.Splice
import Orion.Net.Handlers

/-!
# The Internet checksum

The sum of the words is folded with an end-around carry.  Folding keeps a 32-bit sum modulo `2^16 - 1`
and is zero only for zero (`foldCarry_spec`), so that a checksum that is put into its zeroed field
makes the sum fold to `2^16 - 1` (`checksum16_field`).  The headers and messages that the stack makes
are of this form.
-/

namespace Orion

/-! ## Sums of words -/

theorem sumWords_append : ∀ {a : List UInt8}, 2 ∣ a.length → ∀ b : List UInt8,
    sumWords (a ++ b) = sumWords a + sumWords b := by
  intro a
  induction a using sumWords.induct with
  | case1 x y rest ih =>
    intro heven b
    have hrest : 2 ∣ rest.length := by
      simp only [List.length_cons] at heven
      omega
    simp only [List.cons_append, sumWords, ih hrest b]
    omega
  | case2 x =>
    intro heven
    simp at heven
  | case3 =>
    intro _ b
    simp [sumWords]

theorem sumWords_le (a : List UInt8) : sumWords a ≤ 65535 * ((a.length + 1) / 2) := by
  induction a using sumWords.induct with
  | case1 x y rest ih =>
    have hx := x.toNat_lt
    have hy := y.toNat_lt
    have hlen : (((x :: y :: rest).length + 1) / 2) = (rest.length + 1) / 2 + 1 := by
      simp only [List.length_cons]
      omega
    rw [hlen, sumWords]
    omega
  | case2 x =>
    have hx := x.toNat_lt
    simp only [sumWords, List.length_singleton]
    omega
  | case3 => simp [sumWords]

theorem sumWords_put16 (v : ℕ) : sumWords (put16 v) = v % 2 ^ 16 := by
  simp only [put16, sumWords, UInt8.toNat_ofNat']
  omega

/-- A buffer of at most 65535 bytes does not overflow the 32-bit sum, nor does one more word. -/
theorem sumWords_lt {a : List UInt8} (h : a.length ≤ 65535) : sumWords a + 65535 < 2 ^ 32 := by
  have hle := sumWords_le a
  have hwords : (a.length + 1) / 2 ≤ 32768 := by omega
  have hmul := Nat.mul_le_mul_left 65535 hwords
  omega

/-! ## Folding -/

/-- One turn of the folding loop. -/
theorem fold_turn (n : ℕ) : (n % 2 ^ 16 + n / 2 ^ 16) % 65535 = n % 65535 ∧
    (n % 2 ^ 16 + n / 2 ^ 16 = 0 ↔ n = 0) := by
  omega

/-- Two turns fold a 32-bit sum. -/
theorem foldCarry_spec {n : ℕ} (h : n < 2 ^ 32) : foldCarry 3 n < 2 ^ 16 ∧
    foldCarry 3 n % 65535 = n % 65535 ∧ (foldCarry 3 n = 0 ↔ n = 0) := by
  have hfirst := fold_turn n
  have hsecond := fold_turn (n % 2 ^ 16 + n / 2 ^ 16)
  unfold foldCarry foldCarry foldCarry foldCarry
  split_ifs <;> omega

/-- **A sum with its complement** folds to all ones. -/
theorem foldSum_add_foldSum {n : ℕ} (h : n + 65535 < 2 ^ 32) : foldSum (n + foldSum n) = 0 := by
  have hn := foldCarry_spec (n := n) (by omega)
  have hsmall : u32 n = n := u32_of_lt (by omega)
  have hfold : foldSum n = 65535 - foldCarry 3 n := by
    rw [foldSum, hsmall, Nat.mod_eq_of_lt hn.1]
  have hle : foldSum n ≤ 65535 := by omega
  have hsum := foldCarry_spec (n := n + foldSum n) (by omega)
  have hall : foldCarry 3 (n + foldSum n) = 65535 := by omega
  rw [foldSum, u32_of_lt (by omega), hall]
  rfl

theorem foldSum_lt (n : ℕ) : foldSum n < 2 ^ 16 := by
  unfold foldSum
  omega

/-- **The checksum in its field** makes the checksum of the whole zero. -/
theorem checksum16_field (pre post : List UInt8) (heven : 2 ∣ pre.length)
    (hlen : (pre ++ put16 0 ++ post).length ≤ 65535) :
    checksum16 (pre ++ put16 (checksum16 (pre ++ put16 0 ++ post)) ++ post) = 0 := by
  have hsum : ∀ v < 2 ^ 16, sumWords (pre ++ put16 v ++ post) = sumWords (pre ++ put16 0 ++ post) + v := by
    intro v hv
    have hpre : ∀ c, sumWords (pre ++ put16 c ++ post) = sumWords pre + c % 2 ^ 16 + sumWords post := by
      intro c
      have hfield : 2 ∣ (pre ++ put16 c).length := by
        rw [List.length_append]
        exact Nat.dvd_add heven (by simp [put16])
      rw [sumWords_append hfield, sumWords_append heven, sumWords_put16]
    rw [hpre, hpre, Nat.mod_eq_of_lt hv]
    omega
  have hc := foldSum_lt (sumWords (pre ++ put16 0 ++ post))
  have hbound := sumWords_lt hlen
  rw [checksum16, checksum16, hsum _ hc]
  exact foldSum_add_foldSum hbound

/-- The same for a buffer whose field is zeroed and then written. -/
theorem checksum16_splice {b : List UInt8} {o : ℕ} (hlen : b.length ≤ 65535) (heven : 2 ∣ o)
    (hin : o + 2 ≤ b.length) (hzero : (b.drop o).take 2 = [0, 0]) :
    checksum16 (Lib.splice b o (put16 (checksum16 b))) = 0 := by
  have hb : b = b.take o ++ put16 0 ++ b.drop (o + 2) := by
    have hfield : put16 0 = (b.drop o).take 2 := by
      rw [hzero]
      rfl
    rw [hfield, List.append_assoc, ← List.drop_drop, List.take_append_drop, List.take_append_drop]
  have hpre : 2 ∣ (b.take o).length := by
    rw [List.length_take, Nat.min_eq_left (by omega)]
    exact heven
  have hchecked := checksum16_field (b.take o) (b.drop (o + 2)) hpre (by rwa [← hb])
  rw [← hb] at hchecked
  have hsplice : Lib.splice b o (put16 (checksum16 b)) =
      b.take o ++ put16 (checksum16 b) ++ b.drop (o + 2) := by
    simp [Lib.splice, put16]
  rw [hsplice]
  exact hchecked

namespace Net

/-! ## What the stack makes -/

theorem tcpChecksum_eq {src dst : List UInt8} (seg : List UInt8) (hsrc : src.length = 4)
    (hdst : dst.length = 4) : tcpChecksum src dst seg =
      checksum16 (src ++ dst ++ [0, ipTcp] ++ put16 seg.length ++ seg) := by
  have hsum : sumWords (src ++ dst ++ [0, ipTcp] ++ put16 seg.length ++ seg) =
      sumWords src + sumWords dst + ipTcp.toNat + u16 seg.length + sumWords seg := by
    rw [sumWords_append (by simp [hsrc, hdst, put16]), sumWords_append (by simp [hsrc, hdst]),
      sumWords_append (by simp [hsrc, hdst]), sumWords_append (by simp [hsrc]), sumWords_put16]
    have hproto : sumWords [0, ipTcp] = ipTcp.toNat := by simp [sumWords]
    rw [hproto]
    rfl
  rw [checksum16, hsum]
  rfl

/-- The 32-bit sum of `tcp_checksum` does not overflow. -/
theorem tcpChecksum_fits {src dst seg : List UInt8} (hsrc : src.length = 4) (hdst : dst.length = 4)
    (hseg : seg.length < 65536) :
    sumWords src + sumWords dst + ipTcp.toNat + u16 seg.length + sumWords seg < 2 ^ 32 := by
  have h1 := sumWords_le src
  have h2 := sumWords_le dst
  have h3 := sumWords_le seg
  have hproto : ipTcp.toNat = 6 := rfl
  have hlen : u16 seg.length < 2 ^ 16 := Nat.mod_lt _ (by norm_num)
  rw [hsrc] at h1
  rw [hdst] at h2
  have hwords : (seg.length + 1) / 2 ≤ 32768 := by omega
  have hmul := Nat.mul_le_mul_left 65535 hwords
  omega

theorem ipv4Header_checksum {s : State} {proto : UInt8} {dst : List UInt8} (payloadLen : ℕ)
    (hip : s.ipAddr.length = 4) (hdst : dst.length = 4) :
    checksum16 (makeIpv4 proto dst payloadLen s).1 = 0 := by
  have hfield := checksum16_field
    ([0x45, 0] ++ put16 (20 + payloadLen) ++ put16 s.ipId ++ put16 0x4000 ++ [64, proto])
    (s.ipAddr ++ dst) (by simp [put16]) (by simp [put16, hip, hdst])
  have hheader : ∀ c, ipv4Header s proto dst payloadLen c =
      [0x45, 0] ++ put16 (20 + payloadLen) ++ put16 s.ipId ++ put16 0x4000 ++ [64, proto] ++
        put16 c ++ (s.ipAddr ++ dst) := by
    intro c
    simp [ipv4Header]
  rw [makeIpv4, hheader, hheader]
  exact hfield

theorem broadcastHeader_checksum (ipId payloadLen : ℕ) :
    checksum16 (Dhcp.ipHeader ipId payloadLen
      (Dhcp.dhcpChecksum16 (Dhcp.ipHeader ipId payloadLen 0))) = 0 := by
  have hfield := checksum16_field
    ([0x45, 0] ++ put16 (20 + 8 + payloadLen) ++ put16 ipId ++ [0, 0] ++ [64, 17])
    ([0, 0, 0, 0, 255, 255, 255, 255]) (by simp [put16]) (by simp [put16])
  have hheader : ∀ c, Dhcp.ipHeader ipId payloadLen c =
      [0x45, 0] ++ put16 (20 + 8 + payloadLen) ++ put16 ipId ++ [0, 0] ++ [64, 17] ++ put16 c ++
        [0, 0, 0, 0, 255, 255, 255, 255] := by
    intro c
    simp [Dhcp.ipHeader]
  rw [hheader, hheader]
  exact hfield

theorem icmpEcho_checksum (s : State) : checksum16 (icmpEcho s (checksum16 (icmpEcho s 0))) = 0 := by
  have hfield := checksum16_field ([8, 0])
    (put16 s.icmpIdent ++ put16 s.icmpSeq ++ [8, 9, 10, 11, 12, 13, 14, 15])
    (by simp) (by simp [put16])
  have hecho : ∀ c, icmpEcho s c = [8, 0] ++ put16 c ++
      (put16 s.icmpIdent ++ put16 s.icmpSeq ++ [8, 9, 10, 11, 12, 13, 14, 15]) := by
    intro c
    simp [icmpEcho]
  rw [hecho, hecho]
  exact hfield

theorem icmpAnswer_checksum {r : List UInt8} (hmin : 8 ≤ r.length) (hmax : r.length ≤ 65535) :
    checksum16 (icmpAnswer r) = 0 := by
  rcases r with _ | ⟨a, _ | ⟨b, _ | ⟨c, _ | ⟨d, rest⟩⟩⟩⟩
  · simp at hmin
  · simp at hmin
  · simp at hmin
  · simp at hmin
  · have hfield := checksum16_field [0, b] rest (by simp)
      (by simp only [List.length_append, List.length_cons, put16, List.length_nil] at hmax ⊢; omega)
    have hanswer : icmpAnswer (a :: b :: c :: d :: rest) =
        [0, b] ++ put16 (checksum16 ([0, b] ++ put16 0 ++ rest)) ++ rest := by
      simp [icmpAnswer, put16]
    rw [hanswer]
    exact hfield

theorem tcpSegment_length (s : State) (flags : UInt8) (data : List UInt8) (c : ℕ) :
    (tcpSegment s flags data c).length = 20 + data.length := by
  simp [tcpSegment, put16, put32]
  omega

/-- A segment with its pseudo-header. -/
def pseudo (src dst seg : List UInt8) : List UInt8 :=
  src ++ dst ++ [0, ipTcp] ++ put16 seg.length ++ seg

theorem tcpSegment_checksum {s : State} {src dst data : List UInt8} (flags : UInt8)
    (hsrc : src.length = 4) (hdst : dst.length = 4) (hdata : data.length ≤ 1460) :
    checksum16 (pseudo src dst
      (tcpSegment s flags data (tcpChecksum src dst (tcpSegment s flags data 0)))) = 0 := by
  have hlen := tcpSegment_length s flags data
  have hfield := checksum16_field
    (src ++ dst ++ [0, ipTcp] ++ put16 (20 + data.length) ++ put16 s.tcpLocalPort ++
      put16 s.tcpPeerPort ++ put32 s.tcpSndNxt ++ put32 s.tcpRcvNxt ++ [0x50, flags] ++
      put16 tcpWindow)
    ([0, 0] ++ data) (by simp [hsrc, hdst, put16, put32])
    (by simp [hsrc, hdst, put16, put32]; omega)
  have hsegment : ∀ c, pseudo src dst (tcpSegment s flags data c) =
      src ++ dst ++ [0, ipTcp] ++ put16 (20 + data.length) ++ put16 s.tcpLocalPort ++
      put16 s.tcpPeerPort ++ put32 s.tcpSndNxt ++ put32 s.tcpRcvNxt ++ [0x50, flags] ++
      put16 tcpWindow ++ put16 c ++ ([0, 0] ++ data) := by
    intro c
    rw [pseudo, hlen]
    simp [tcpSegment]
  have hsum : tcpChecksum src dst (tcpSegment s flags data 0) =
      checksum16 (pseudo src dst (tcpSegment s flags data 0)) :=
    tcpChecksum_eq _ hsrc hdst
  rw [hsum, hsegment, hsegment]
  exact hfield

/-! ## What the receiver checks -/

/-- The checksums of an Ethernet frame verify: of the IPv4 header, of an ICMP message, and of a TCP
segment with its pseudo-header. -/
def Verifies (frame : List UInt8) : Prop :=
  (frame.drop 12).take 2 = put16 ethIp →
    checksum16 ((frame.drop 14).take 20) = 0 ∧
    (frame.getD 23 0 = ipIcmp → checksum16 (frame.drop 34) = 0) ∧
    (frame.getD 23 0 = ipTcp →
      checksum16 (pseudo ((frame.drop 26).take 4) ((frame.drop 30).take 4) (frame.drop 34)) = 0)

/-- Addresses have the sizes of their arrays, and every frame that was sent verifies. -/
structure Checked (s : State) : Prop where
  mac : s.mac.length = 6
  ipAddr : s.ipAddr.length = 4
  gatewayMac : s.gatewayMac.length = 6
  tcpPeerIp : s.tcpPeerIp.length = 4
  sent : ∀ frame ∈ s.sent, Verifies frame

/-- A payload whose checksum is right if it is sent from `s`. -/
def ChecksumOk (proto : UInt8) (dest payload : List UInt8) (s : State) : Prop :=
  s.ipAddr.length = 4 → s.tcpPeerIp.length = 4 →
    dest.length = 4 ∧ (proto = ipIcmp → checksum16 payload = 0) ∧
      (proto = ipTcp → payload.length ≤ 1480 → checksum16 (pseudo s.ipAddr dest payload) = 0)

/-- The host and its peer are the same, and what was checked stays so. -/
structure KeepsChecked (s t : State) : Prop where
  ipAddr : t.ipAddr = s.ipAddr
  tcpPeerIp : t.tcpPeerIp = s.tcpPeerIp
  checked : Checked s → Checked t

section

variable {w : World} {s : State}

theorem KeepsChecked.of_same {s t : State} (hmac : t.mac = s.mac) (hip : t.ipAddr = s.ipAddr)
    (hgateway : t.gatewayMac.length = s.gatewayMac.length) (hpeer : t.tcpPeerIp = s.tcpPeerIp)
    (hsent : t.sent = s.sent) : KeepsChecked s t where
  ipAddr := hip
  tcpPeerIp := hpeer
  checked h := by
    refine ⟨?_, ?_, ?_, ?_, ?_⟩
    · rw [hmac]
      exact h.mac
    · rw [hip]
      exact h.ipAddr
    · rw [hgateway]
      exact h.gatewayMac
    · rw [hpeer]
      exact h.tcpPeerIp
    · rw [hsent]
      exact h.sent

/-- A frame that verifies is sent. -/
theorem ethTx_keepsChecked {frame : List UInt8} (h : Checked s → Verifies frame) :
    KeepsChecked s (ethTx w frame s) := by
  unfold ethTx
  split
  · refine ⟨rfl, rfl, fun hs => ⟨hs.mac, hs.ipAddr, hs.gatewayMac, hs.tcpPeerIp, ?_⟩⟩
    intro f hf
    rcases List.mem_append.mp hf with hold | hnew
    · exact hs.sent f hold
    · rw [List.mem_singleton.mp hnew]
      exact h hs
  · exact ⟨rfl, rfl, id⟩

/-- An ARP frame has no checksum. -/
theorem arpFrame_verifies {dst : List UInt8} (hmac : s.mac.length = 6) (hdst : dst.length = 6)
    (op : ℕ) (mac ip : List UInt8) : Verifies (arpFrame s dst op mac ip) := by
  intro htype
  have harp : ((arpFrame s dst op mac ip).drop 12).take 2 = put16 ethArp := by
    have hsplit : arpFrame s dst op mac ip = (dst ++ s.mac) ++ (put16 ethArp ++ (put16 1 ++
        put16 0x0800 ++ [6, 4] ++ put16 op ++ s.mac ++ s.ipAddr ++ mac ++ ip)) := by
      simp [arpFrame, ethHeader]
    rw [hsplit, List.drop_left' (by simp [hmac, hdst])]
    rfl
  rw [harp] at htype
  exact absurd htype (by decide)

theorem ipv4Header_length {proto : UInt8} {dst : List UInt8} (payloadLen c : ℕ)
    (hip : s.ipAddr.length = 4) (hdst : dst.length = 4) :
    (ipv4Header s proto dst payloadLen c).length = 20 := by
  simp [ipv4Header, put16, hip, hdst]

/-- A packet verifies if its payload does. -/
theorem ipFrame_verifies {nh dest payload : List UInt8} {proto : UInt8} (hs : Checked s)
    (hnh : nh.length = 6) (hdest : dest.length = 4) (hicmp : proto = ipIcmp → checksum16 payload = 0)
    (htcp : proto = ipTcp → checksum16 (pseudo s.ipAddr dest payload) = 0) :
    Verifies (ethHeader s nh ethIp ++ (makeIpv4 proto dest payload.length s).1 ++ payload) := by
  have hchecksum := @ipv4Header_checksum _ proto _ payload.length hs.ipAddr hdest
  have hlen := @ipv4Header_length _ proto _ payload.length
    (checksum16 (ipv4Header s proto dest payload.length 0)) hs.ipAddr hdest
  rw [makeIpv4] at hchecksum ⊢
  simp only at hchecksum ⊢
  generalize hc : checksum16 (ipv4Header s proto dest payload.length 0) = c at hchecksum hlen ⊢
  have heth : (ethHeader s nh ethIp).length = 14 := by
    simp [ethHeader, put16, hs.mac, hnh]
  have hsplit : ethHeader s nh ethIp ++ ipv4Header s proto dest payload.length c ++ payload =
      (ethHeader s nh ethIp ++ ([0x45, 0] ++ put16 (20 + payload.length) ++ put16 s.ipId ++
        put16 0x4000 ++ [64])) ++ (proto :: (put16 c ++ s.ipAddr ++ dest ++ payload)) := by
    simp [ipv4Header]
  have hproto : (ethHeader s nh ethIp ++ ipv4Header s proto dest payload.length c ++ payload).getD 23 0 =
      proto := by
    rw [hsplit, List.getD_eq_getElem?_getD,
      List.getElem?_append_right (by simp [heth, put16])]
    simp [heth, put16]
  have hpayload : (ethHeader s nh ethIp ++ ipv4Header s proto dest payload.length c ++ payload).drop 34 =
      payload := List.drop_left' (by simp [heth, hlen])
  have hsrc : ((ethHeader s nh ethIp ++ ipv4Header s proto dest payload.length c ++
      payload).drop 26).take 4 = s.ipAddr := by
    have hpre : ethHeader s nh ethIp ++ ipv4Header s proto dest payload.length c ++ payload =
        (ethHeader s nh ethIp ++ ([0x45, 0] ++ put16 (20 + payload.length) ++ put16 s.ipId ++
          put16 0x4000 ++ [64, proto] ++ put16 c)) ++ (s.ipAddr ++ (dest ++ payload)) := by
      simp [ipv4Header]
    rw [hpre, List.drop_left' (by simp [heth, put16]), List.take_left' hs.ipAddr]
  have hdst : ((ethHeader s nh ethIp ++ ipv4Header s proto dest payload.length c ++
      payload).drop 30).take 4 = dest := by
    have hpre : ethHeader s nh ethIp ++ ipv4Header s proto dest payload.length c ++ payload =
        (ethHeader s nh ethIp ++ ([0x45, 0] ++ put16 (20 + payload.length) ++ put16 s.ipId ++
          put16 0x4000 ++ [64, proto] ++ put16 c) ++ s.ipAddr) ++ (dest ++ payload) := by
      simp [ipv4Header]
    rw [hpre, List.drop_left' (by simp [heth, put16, hs.ipAddr]), List.take_left' hdest]
  intro _
  refine ⟨?_, ?_, ?_⟩
  · rw [List.append_assoc, List.drop_left' heth, List.take_left' hlen]
    exact hchecksum
  · rw [hproto, hpayload]
    exact hicmp
  · rw [hproto, hpayload, hsrc, hdst]
    exact htcp

theorem keepsChecked_tcpRel (w : World) : TcpRel w ChecksumOk KeepsChecked where
  trans h h' := ⟨h'.ipAddr.trans h.ipAddr, h'.tcpPeerIp.trans h.tcpPeerIp, h'.checked ∘ h.checked⟩
  idle s _ _ _ _ := .of_same rfl rfl rfl rfl rfl
  request s target := ethTx_keepsChecked fun hs => arpFrame_verifies hs.mac (by simp) _ _ _
  packet := by
    intro s u proto dest payload hok hlen hsu
    have hid : KeepsChecked u { u with ipId := u16 (u.ipId + 1) } := .of_same rfl rfl rfl rfl rfl
    have hsent : KeepsChecked { u with ipId := u16 (u.ipId + 1) } (packetSent w proto dest payload u) := by
      refine ethTx_keepsChecked fun hu => ?_
      have hchecked : Checked u := ⟨hu.mac, hu.ipAddr, hu.gatewayMac, hu.tcpPeerIp, hu.sent⟩
      obtain ⟨hdest, hicmp, htcp⟩ := hok (hsu.ipAddr ▸ hu.ipAddr) (hsu.tcpPeerIp ▸ hu.tcpPeerIp)
      refine ipFrame_verifies hchecked hu.gatewayMac hdest hicmp fun hproto => ?_
      rw [hsu.ipAddr]
      exact htcp hproto hlen
    exact ⟨hsent.ipAddr.trans hid.ipAddr, hsent.tcpPeerIp.trans hid.tcpPeerIp,
      hsent.checked ∘ hid.checked⟩
  vars s _ _ _ _ _ := .of_same rfl rfl rfl rfl rfl
  segment s flags data hip hpeer := by
    refine ⟨hpeer, fun h => absurd h (by decide), fun _ hlen => ?_⟩
    rw [tcpSegment_length] at hlen
    exact tcpSegment_checksum flags hip hpeer (by omega)

theorem arpInput_keepsChecked {x : ArpPacket} (hmac : x.mac.length = 6) (s : State) :
    KeepsChecked s (arpInput w x s) := by
  have hlearn : KeepsChecked s (learn x s) := by
    unfold learn
    split
    · exact ⟨rfl, rfl, fun hs => ⟨hs.mac, hs.ipAddr, hmac, hs.tcpPeerIp, hs.sent⟩⟩
    · exact .of_same rfl rfl rfl rfl rfl
  unfold arpInput
  split
  · have hreply : KeepsChecked (learn x s) (sendArpReply w x.mac x.ip (learn x s)) :=
      ethTx_keepsChecked fun ha => arpFrame_verifies ha.mac hmac _ _ _
    exact (keepsChecked_tcpRel w).trans hlearn hreply
  · exact hlearn

theorem keepsChecked_handleRel (w : World) : HandleRel w ChecksumOk KeepsChecked where
  toSendRel := (keepsChecked_tcpRel w).toSendRel
  echo s src r hsrc hmin hmax _ _ :=
    ⟨hsrc, fun _ => icmpAnswer_checksum hmin (by omega), fun h => absurd h (by decide)⟩
  arp := by
    intro k frame s _ _
    rw [handleArp_value]
    cases harp : arpAt frame.mem 14 (frame.len - 14) with
    | none => exact .of_same rfl rfl rfl rfl rfl
    | some x => exact arpInput_keepsChecked (arpAt_mac harp) s
  udp := by
    intro k frame s y _ _
    obtain ⟨done, answer, heq⟩ := handleUdp_eq frame.mem y.pl y.plen s
    rw [heq]
    exact .of_same rfl rfl rfl rfl rfl
  tcp hpoll hframe hpass h := (keepsChecked_tcpRel w).toSegmentRel.handleTcp hpoll hframe hpass h

end

/-- The frame of a DHCP broadcast has no other checksum than that of its header. -/
theorem broadcastFrame_verifies {mac : List UInt8} (hmac : mac.length = 6) (ipId : ℕ)
    (payload : List UInt8) : Verifies (Dhcp.broadcastFrame mac ipId payload) := by
  have hchecksum := broadcastHeader_checksum ipId payload.length
  have hlen : ∀ c, (Dhcp.ipHeader ipId payload.length c).length = 20 := by
    intro c
    simp [Dhcp.ipHeader, put16]
  have hsplit : ∀ c, [255, 255, 255, 255, 255, 255] ++ mac ++ put16 0x0800 ++
      Dhcp.ipHeader ipId payload.length c ++ put16 68 ++ put16 67 ++ put16 (8 + payload.length) ++
        put16 0 ++ payload =
      ([255, 255, 255, 255, 255, 255] ++ mac ++ put16 0x0800) ++ (Dhcp.ipHeader ipId payload.length c ++
        (put16 68 ++ put16 67 ++ put16 (8 + payload.length) ++ put16 0 ++ payload)) := by
    intro c
    simp
  have hproto : (Dhcp.broadcastFrame mac ipId payload).getD 23 0 = 17 := by
    rw [Dhcp.broadcastFrame, hsplit, List.getD_eq_getElem?_getD,
      List.getElem?_append_right (by simp [hmac, put16])]
    simp [hmac, Dhcp.ipHeader, put16]
  intro _
  refine ⟨?_, ?_, ?_⟩
  · rw [Dhcp.broadcastFrame, hsplit, List.drop_left' (by simp [hmac, put16]), List.take_left' (hlen _)]
    exact hchecksum
  · rw [hproto]
    exact fun h => absurd h (by decide)
  · rw [hproto]
    exact fun h => absurd h (by decide)

/-- The operations through which the stack sends IP packets. -/
inductive Sends (w : World) (fuel : ℕ) (s t : State) : Prop
  | poll (h : netPoll w fuel s = some t)
  | tcp (flags : UInt8) (data : List UInt8) (h : sendTcp w (netPoll w fuel) fuel flags data s = some t)
  | udp {dest : List UInt8} (sport dport : ℕ) (data : List UInt8) (hdest : dest.length = 4)
      (h : sendUdp w (netPoll w fuel) fuel dest sport dport data s = some t)
  | echo {dest : List UInt8} (hdest : dest.length = 4)
      (h : sendIcmpEcho w (netPoll w fuel) fuel dest s = some t)

theorem Sends.keepsChecked {w : World} {fuel : ℕ} {s t : State} (h : Sends w fuel s t) :
    KeepsChecked s t := by
  have hpoll := (keepsChecked_handleRel w).netPoll fuel
  cases h with
  | poll h => exact hpoll s t h
  | tcp flags data h => exact (keepsChecked_tcpRel w).sendTcp hpoll h
  | udp sport dport data hdest h =>
    refine (keepsChecked_handleRel w).toSendRel.sendIpPacket hpoll (fun _ _ => ⟨hdest, ?_, ?_⟩) h
    · exact fun h => absurd h (by decide)
    · exact fun h => absurd h (by decide)
  | echo hdest h =>
    have hseq : KeepsChecked s { s with icmpSeq := u16 (s.icmpSeq + 1) } := .of_same rfl rfl rfl rfl rfl
    have hsent := (keepsChecked_handleRel w).toSendRel.sendIpPacket hpoll
      (fun _ _ => ⟨hdest, fun _ => icmpEcho_checksum _, fun h => absurd h (by decide)⟩) h
    exact (keepsChecked_handleRel w).trans hseq hsent

/-- **The checksums are right.**  `tcp_checksum` is the checksum of the pseudo-header and the segment,
a checksum in its zeroed field at an even offset makes the checksum of the buffer zero, the 32-bit
sums do not overflow, and everything that the stack sends verifies at the receiver. -/
theorem checksums_verify :
    (∀ src dst seg : List UInt8, src.length = 4 → dst.length = 4 → seg.length < 65536 →
      sumWords src + sumWords dst + ipTcp.toNat + u16 seg.length + sumWords seg < 2 ^ 32 ∧
        tcpChecksum src dst seg = checksum16 (pseudo src dst seg)) ∧
    (∀ (b : List UInt8) (o : ℕ), b.length ≤ 65535 → 2 ∣ o → o + 2 ≤ b.length →
      (b.drop o).take 2 = [0, 0] → sumWords b < 2 ^ 32 ∧
        checksum16 (Lib.splice b o (put16 (checksum16 b))) = 0) ∧
    (∀ (mac : List UInt8) (ipId : ℕ) (payload : List UInt8), mac.length = 6 →
      Verifies (Dhcp.broadcastFrame mac ipId payload)) ∧
    ∀ (w : World) (fuel : ℕ) (s t : State), Checked s → Sends w fuel s t → Checked t := by
  refine ⟨fun src dst seg hsrc hdst hseg => ?_, fun b o hlen heven hin hzero => ?_,
    fun mac ipId payload hmac => broadcastFrame_verifies hmac ipId payload,
    fun w fuel s t hs h => h.keepsChecked.checked hs⟩
  · exact ⟨tcpChecksum_fits hsrc hdst hseg, tcpChecksum_eq seg hsrc hdst⟩
  · have hfits := sumWords_lt hlen
    exact ⟨by omega, checksum16_splice hlen heven hin hzero⟩

/-- An echo request from the gateway, with nine bytes behind the header of the message. -/
def echoRequestFrame : Buffer :=
  .ofBytes ([82, 84, 0, 18, 52, 86, 82, 84, 0, 18, 53, 2, 8, 0] ++
    [0x45, 0, 0, 37, 0, 1, 0, 0, 64, 1, 0, 0, 10, 0, 2, 2, 10, 0, 2, 15] ++
    [8, 0, 0, 0, 1, 2, 3, 4, 5, 6, 7, 8, 9, 10, 11, 12, 13])

/-- The stack with the static profile and a known gateway answers the request. -/
theorem checksums_verify_smoke : ∃ t, Checked t ∧ t.sent.length = 1 := by
  let w : World := ⟨.x86_64, 100, fun k => k, fun _ => [echoRequestFrame], fun _ => true⟩
  let s : State := { State.boot with ready := true, gatewayMacValid := true }
  have hs : Checked s := ⟨rfl, rfl, rfl, rfl, by simp [s, State.boot]⟩
  have hpoll : netPoll w 2 s = some ((netPoll w 2 s).getD s) := by decide +kernel
  exact ⟨_, checksums_verify.2.2.2 w 2 s _ hs (.poll hpoll), by decide +kernel⟩

end Net

end Orion
