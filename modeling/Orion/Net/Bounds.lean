import Orion.Net.Receive

/-!
# Memory bounds of the receive path

Each handler stays inside the slice it is given (`handleArp_within` to `handleTcp_within`), so the
receive path stays inside the frame when the slices do.  Every length is checked before it is used,
except one: `handle_ip` bounds the total length of a packet from above but not from below, and
`total - ihl` is converted to `size_t`.  `receive_path_in_bounds_iff` says that this is the only way
out of the frame.
-/

namespace Orion.Net

open Orion.Traced

section Handlers

variable {mem : ℕ → UInt8} {p len bound : ℕ}

theorem handleArp_within (w : World) (s : State) (h : p + len ≤ bound) :
    Within (· < bound) (handleArp w mem p len s) := by
  unfold handleArp
  simp only [within_ite, within_bind, within_pure, within_get16, within_read, within_readSpan]
  refine ⟨fun _ => trivial, fun hlen => ?_⟩
  refine ⟨⟨by omega, by omega⟩, ⟨by omega, by omega⟩, by omega, by omega, fun _ => trivial, fun _ => ?_⟩
  refine ⟨⟨by omega, by omega⟩, ?_, ?_, ?_, trivial⟩ <;> intro k hk <;> omega

theorem handleIcmp_within (w : World) (poll : State → Option State) (fuel : ℕ) {src : ℕ} (s : State)
    (h : p + len ≤ bound) (hsrc : src + 4 ≤ bound) :
    Within (· < bound) (handleIcmp w poll fuel mem p len src s) := by
  unfold handleIcmp
  simp only [within_ite, within_bind, within_pure, within_get16, within_read, within_readSpan]
  have hcopy : ∀ k < min len 256, p + k < bound := by
    intro k hk
    omega
  have haddr : ∀ k < 4, src + k < bound := by
    intro k hk
    omega
  refine ⟨fun _ => trivial, fun hlen => ⟨by omega, fun _ => ⟨⟨by omega, by omega⟩, fun _ => trivial,
    fun _ => ⟨fun _ => ⟨hcopy, haddr, trivial⟩, fun _ => trivial⟩⟩, fun _ => ⟨trivial, fun _ => trivial,
    fun _ => ⟨fun _ => ⟨hcopy, haddr, trivial⟩, fun _ => trivial⟩⟩⟩⟩

/-- At most the segment's own data is copied. -/
theorem tcpCopy_le (seq dataLen : ℕ) (s : State) : tcpCopy seq dataLen s ≤ dataLen := by
  unfold tcpCopy
  split
  · exact min_le_left _ _
  · exact Nat.zero_le _

theorem handleTcp_within (w : World) (poll : State → Option State) (fuel : ℕ) {src : ℕ} (s : State)
    (h : p + len ≤ bound) (hsrc : src + 4 ≤ bound) :
    Within (· < bound) (handleTcp w poll fuel mem p len src s) := by
  unfold handleTcp
  simp only [within_ite, within_bind, within_pure, within_get16, within_get32, within_read,
    within_readSpan]
  refine ⟨fun _ => trivial, fun hlen => ⟨fun k hk => by omega, fun _ => trivial, fun _ => ?_⟩⟩
  refine ⟨⟨by omega, by omega⟩, ⟨by omega, by omega⟩, fun _ => trivial, fun _ => ?_⟩
  refine ⟨⟨by omega, by omega, by omega, by omega⟩, ⟨by omega, by omega, by omega, by omega⟩,
    by omega, by omega, fun _ => trivial, fun hhlen => ⟨fun _ => trivial, fun _ => ⟨fun _ => trivial,
    fun _ => ⟨fun k hk => ?_, trivial⟩⟩⟩⟩
  have hcopy := lt_of_lt_of_le hk (tcpCopy_le _ _ _)
  simp only [value_read] at hhlen hcopy
  show p + (mem (p + 12)).toNat / 16 * 4 + k < bound
  omega

end Handlers

/-! ## The DNS parser -/

section Dns

variable {mem : ℕ → UInt8} {d n first bound : ℕ}

theorem dnsSkipLabels_within (hd : first ≤ d) (h : d + n ≤ bound) :
    ∀ labels o, Within (fun i => first ≤ i ∧ i < bound) (dnsSkipLabels mem d n labels o) := by
  intro labels
  induction labels with
  | zero => intro o; exact within_pure _ _
  | succ labels ih =>
    intro o
    unfold dnsSkipLabels
    simp only [within_ite, within_bind, within_pure, within_read]
    exact ⟨fun ho => ⟨by omega, fun _ => trivial, fun _ => ⟨fun _ => trivial, fun _ =>
      ⟨fun _ => trivial, fun _ => ih _⟩⟩⟩, fun _ => trivial⟩

theorem dnsSkipName_within (hd : first ≤ d) (h : d + n ≤ bound) (o : ℕ) :
    Within (fun i => first ≤ i ∧ i < bound) (dnsSkipName mem d n o) :=
  dnsSkipLabels_within hd h 128 o

theorem dnsQuestions_within (hd : first ≤ d) (h : d + n ≤ bound) :
    ∀ qd o, Within (fun i => first ≤ i ∧ i < bound) (dnsQuestions mem d n qd o) := by
  intro qd
  induction qd with
  | zero => intro o; exact within_pure _ _
  | succ qd ih =>
    intro o
    unfold dnsQuestions
    simp only [within_ite, within_bind, within_pure]
    exact ⟨dnsSkipName_within hd h o, fun _ => trivial, fun _ => ih _⟩

theorem dnsAnswers_within (hd : first ≤ d) (h : d + n ≤ bound) :
    ∀ an o, Within (fun i => first ≤ i ∧ i < bound) (dnsAnswers mem d n an o) := by
  intro an
  induction an with
  | zero => intro o; exact within_pure _ _
  | succ an ih =>
    intro o
    unfold dnsAnswers
    simp only [within_ite, within_bind, within_pure, within_get16, within_readSpan]
    refine ⟨dnsSkipName_within hd h o, fun _ => trivial, fun ho => ?_⟩
    refine ⟨⟨by omega, by omega⟩, ⟨by omega, by omega⟩, ⟨by omega, by omega⟩, fun _ => trivial,
      fun hr => ⟨fun ht => ⟨fun k hk => ?_, trivial⟩, fun _ => ih _⟩⟩
    omega

/-- `handle_udp` reads the bytes it was given and no others. -/
theorem handleUdp_inside {p len : ℕ} (s : State) (h : p + len ≤ bound) :
    Within (fun i => p ≤ i ∧ i < bound) (handleUdp mem p len s) := by
  unfold handleUdp
  simp only [within_ite, within_bind, within_pure, within_get16]
  refine ⟨fun _ => trivial, fun hlen => ⟨⟨by omega, by omega⟩, ⟨by omega, by omega⟩,
    ⟨by omega, by omega⟩, fun _ => trivial, fun hu => ⟨fun _ => trivial, fun hn => ?_⟩⟩⟩
  simp only [not_or, not_lt] at hu hn
  refine ⟨⟨by omega, by omega⟩, ⟨by omega, by omega⟩, fun _ => trivial, fun _ => ⟨fun _ => trivial,
    fun _ => ⟨⟨by omega, by omega⟩, ⟨by omega, by omega⟩, dnsQuestions_within (by omega) (by omega) _ _, ?_⟩⟩⟩
  split
  · exact within_pure _ _
  · rw [within_bind]
    refine ⟨dnsAnswers_within (by omega) (by omega) _ _, ?_⟩
    split <;> exact within_pure _ _

theorem handleUdp_within {p len : ℕ} (s : State) (h : p + len ≤ bound) :
    Within (· < bound) (handleUdp mem p len s) := fun i hi => (handleUdp_inside s h i hi).2

end Dns

/-! ## The whole path -/

/-- A protocol that `handle_ip` has a handler for. -/
def Handled (proto : UInt8) : Prop := proto = ipIcmp ∨ proto = ipUdp ∨ proto = ipTcp

instance (proto : UInt8) : Decidable (Handled proto) := by unfold Handled; infer_instance

/-- The slice of a frame that `handle_ip` passes on to a handler, if it does. -/
def passedOn (arch : Arch) (frame : Buffer) (s : State) : Option IpPayload :=
  if 14 ≤ frame.len ∧ (get16 frame.mem 12).value = ethIp then
    (ipPayload arch frame.mem 14 (frame.len - 14) s).value.filter fun x => Handled x.proto
  else none

/-- Every byte of the frame that the receive path reads lies inside the frame, and so does the slice
that `handle_ip` passes on. -/
def StaysInside (w : World) (poll : State → Option State) (fuel : ℕ) (frame : Buffer) (s : State) :
    Prop :=
  Within (· < frame.len) (handleFrame w poll fuel frame s) ∧
    ∀ x, passedOn w.arch frame s = some x → x.pl + x.plen ≤ frame.len

/-- An IPv4 packet for this host and for one of the handlers, whose total length is less than its
header length. -/
structure ShortTotal (frame : Buffer) (s : State) : Prop where
  len : 34 ≤ frame.len
  type : (get16 frame.mem 12).value = ethIp
  version : (frame.mem 14).toNat / 16 = 4
  ihl : 20 ≤ (frame.mem 14).toNat % 16 * 4
  ihlInside : 14 + (frame.mem 14).toNat % 16 * 4 ≤ frame.len
  dst : (readSpan frame.mem 30 4).value = s.ipAddr
  proto : Handled (frame.mem 23)
  short : (get16 frame.mem 16).value < (frame.mem 14).toNat % 16 * 4

/-- **What `handle_ip` passes on**, when it passes something on. -/
theorem ipPayload_some {arch : Arch} {mem : ℕ → UInt8} {p len : ℕ} {s : State} {x : IpPayload}
    (h : (ipPayload arch mem p len s).value = some x) :
    20 ≤ len ∧ (mem p).toNat / 16 = 4 ∧ 20 ≤ (mem p).toNat % 16 * 4 ∧
      (mem p).toNat % 16 * 4 ≤ len ∧ (readSpan mem (p + 16) 4).value = s.ipAddr ∧
      x = ⟨mem (p + 9), p + 12, p + (mem p).toNat % 16 * 4,
        arch.sizeSub (min (get16 mem (p + 2)).value len) ((mem p).toNat % 16 * 4)⟩ := by
  unfold ipPayload at h
  simp only [value_ite, value_bind, value_pure] at h
  split at h
  · simp at h
  · split at h
    · simp at h
    · split at h
      · simp at h
      · split at h
        · simp at h
        · next hlen hver hihl hdst =>
          simp only [value_read, not_or, not_lt, ne_eq, not_not] at hlen hver hihl hdst
          refine ⟨hlen, hver, hihl.1, hihl.2, hdst, ?_⟩
          rw [← Option.some.inj h]
          have htotal := value_get16_lt mem (p + 2)
          have hmin : (if (get16 mem (p + 2)).value > len then u16 len
              else (get16 mem (p + 2)).value) = min (get16 mem (p + 2)).value len := by
            unfold u16
            split
            · rw [Nat.mod_eq_of_lt (by omega)]
              omega
            · omega
          rw [hmin]
          rfl

/-- The checks are as many as the conditions of the slice. -/
theorem ipPayload_eq {arch : Arch} {mem : ℕ → UInt8} {p len : ℕ} {s : State} (hlen : 20 ≤ len)
    (hver : (mem p).toNat / 16 = 4) (hihl : 20 ≤ (mem p).toNat % 16 * 4)
    (hin : (mem p).toNat % 16 * 4 ≤ len) (hdst : (readSpan mem (p + 16) 4).value = s.ipAddr) :
    ∃ x, (ipPayload arch mem p len s).value = some x := by
  unfold ipPayload
  rw [if_neg (by omega)]
  simp only [value_ite, value_bind, value_pure]
  rw [if_neg (by simp [hver]), if_neg (by simp only [value_read]; omega),
    if_neg (by simp only [hdst, ne_eq, not_true, not_false_eq_true])]
  exact ⟨_, rfl⟩

theorem ipPayload_within {arch : Arch} {mem : ℕ → UInt8} {p len bound : ℕ} (s : State)
    (h : p + len ≤ bound) : Within (· < bound) (ipPayload arch mem p len s) := by
  unfold ipPayload
  simp only [within_ite, within_bind, within_pure, within_get16, within_read, within_readSpan]
  refine ⟨fun _ => trivial, fun hlen => ⟨by omega, fun _ => trivial, fun _ => ⟨fun _ => trivial,
    fun _ => ⟨⟨by omega, by omega⟩, fun k hk => by omega, fun _ => trivial, fun _ => ⟨by omega,
    trivial⟩⟩⟩⟩⟩

/-- **The receive path stays inside the frame when the slice does.** -/
theorem handleFrame_within (w : World) (poll : State → Option State) (fuel : ℕ) (frame : Buffer)
    (s : State) (h : ∀ x, passedOn w.arch frame s = some x → x.pl + x.plen ≤ frame.len) :
    Within (· < frame.len) (handleFrame w poll fuel frame s) := by
  unfold handleFrame
  simp only [within_ite, within_bind, within_pure, within_get16]
  refine ⟨fun _ => trivial, fun hlen => ⟨⟨by omega, by omega⟩, fun _ =>
    ⟨handleArp_within w s (by omega), trivial⟩, fun _ => ⟨fun htype => ?_, fun _ => trivial⟩⟩⟩
  unfold handleIp
  rw [within_bind]
  refine ⟨ipPayload_within s (by omega), ?_⟩
  cases hx : (ipPayload w.arch frame.mem 14 (frame.len - 14) s).value with
  | none => exact within_pure _ _
  | some x =>
    obtain ⟨hip, -, -, -, -, hxeq⟩ := ipPayload_some hx
    have hsrc : x.src + 4 ≤ frame.len := by
      rw [hxeq]
      show 14 + 12 + 4 ≤ frame.len
      omega
    -- a payload for one of the handlers is the slice of the hypothesis
    have hslice : Handled x.proto → x.pl + x.plen ≤ frame.len := by
      intro hp
      apply h x
      unfold passedOn
      rw [if_pos ⟨by omega, htype⟩, hx]
      simpa [Option.filter] using hp
    simp only [within_ite, within_bind, within_pure]
    exact ⟨fun hp => handleIcmp_within w poll fuel s (hslice (.inl hp)) hsrc, fun _ =>
      ⟨fun hp => ⟨handleUdp_within s (hslice (.inr (.inl hp))), trivial⟩, fun _ =>
      ⟨fun hp => handleTcp_within w poll fuel s (hslice (.inr (.inr hp))) hsrc, fun _ => trivial⟩⟩⟩

/-- The slice lies inside the frame unless the total length is short. -/
theorem passedOn_inside_iff {arch : Arch} {frame : Buffer} (s : State)
    (hsize : frame.len < 2 ^ arch.sizeBits) :
    (∀ x, passedOn arch frame s = some x → x.pl + x.plen ≤ frame.len) ↔ ¬ ShortTotal frame s := by
  constructor
  · intro h hs
    have hlen := hs.len
    have hinside := hs.ihlInside
    obtain ⟨x, hx⟩ := @ipPayload_eq arch frame.mem 14 (frame.len - 14) s (by omega) hs.version hs.ihl
      (by omega) hs.dst
    obtain ⟨-, -, -, -, -, hxeq⟩ := ipPayload_some hx
    have hpass : passedOn arch frame s = some x := by
      unfold passedOn
      rw [if_pos ⟨by omega, hs.type⟩, hx, hxeq]
      simpa [Option.filter] using hs.proto
    have hshort := hs.short
    have hmin : min (get16 frame.mem 16).value (frame.len - 14) = (get16 frame.mem 16).value := by
      omega
    have hin : 14 + (frame.mem 14).toNat % 16 * 4 +
        arch.sizeSub (min (get16 frame.mem 16).value (frame.len - 14))
          ((frame.mem 14).toNat % 16 * 4) ≤ frame.len := by
      have := h x hpass
      rwa [hxeq] at this
    rw [hmin, Arch.sizeSub_of_lt _ hshort] at hin
    omega
  · intro hs x hpass
    unfold passedOn at hpass
    split at hpass
    · next htype =>
      obtain ⟨hx, hproto⟩ := Option.filter_eq_some_iff.mp hpass
      obtain ⟨hlen, hver, hihl, hin, hdst, hxeq⟩ := ipPayload_some hx
      have hp : Handled (frame.mem 23) := by
        rw [hxeq] at hproto
        simpa using hproto
      have htotal : (frame.mem 14).toNat % 16 * 4 ≤ (get16 frame.mem 16).value := by
        by_contra hlt
        exact hs ⟨by omega, htype.2, hver, hihl, by omega, hdst, hp, by omega⟩
      have hlt := value_get16_lt frame.mem 16
      rw [hxeq]
      show 14 + (frame.mem 14).toNat % 16 * 4 +
        arch.sizeSub (min (get16 frame.mem 16).value (frame.len - 14)) _ ≤ frame.len
      rw [Arch.sizeSub_of_le _ (by omega) (by omega)]
      omega
    · simp at hpass

/-- **The receive path stays inside the frame exactly when the packet is not a short one.** -/
theorem receive_path_in_bounds_iff (w : World) (poll : State → Option State) (fuel : ℕ)
    (frame : Buffer) (s : State) (hsize : frame.len < 2 ^ w.arch.sizeBits) :
    StaysInside w poll fuel frame s ↔ ¬ ShortTotal frame s := by
  rw [← passedOn_inside_iff s hsize]
  constructor
  · exact fun h => h.2
  · exact fun h => ⟨handleFrame_within w poll fuel frame s h, h⟩

/-- An ARP request of the gateway for this host. -/
def arpRequestFrame : Buffer :=
  .ofBytes ([255, 255, 255, 255, 255, 255, 82, 84, 0, 18, 53, 2, 8, 6] ++
    [0, 1, 8, 0, 6, 4, 0, 1, 82, 84, 0, 18, 53, 2, 10, 0, 2, 2, 0, 0, 0, 0, 0, 0, 10, 0, 2, 15])

theorem receive_arp_in_bounds : StaysInside World.quiet some 0 arpRequestFrame State.boot :=
  (receive_path_in_bounds_iff World.quiet some 0 arpRequestFrame State.boot (by decide)).mpr
    fun h => absurd h.type (by decide)

/-- An IPv4 header for this host with protocol ICMP and total length 0, and nothing behind it. -/
def shortFrame : Buffer :=
  .ofBytes ([82, 84, 0, 18, 52, 86, 82, 84, 0, 18, 53, 2, 8, 0] ++
    [0x45, 0, 0, 0, 0, 1, 0, 0, 64, 1, 0, 0, 10, 0, 2, 2, 10, 0, 2, 15])

/-- The handler is given `2^64 - 20` bytes, and reads behind the frame. -/
theorem handle_ip_leaves_frame :
    (passedOn .x86_64 shortFrame State.boot).map IpPayload.plen = some (2 ^ 64 - 20) ∧
      34 ∈ (handleFrame World.quiet some 0 shortFrame State.boot).reads ∧ shortFrame.len = 34 ∧
      ¬ StaysInside World.quiet some 0 shortFrame State.boot := by
  refine ⟨by decide, by decide, rfl, fun h => ?_⟩
  exact absurd (h.1 34 (by decide)) (by decide)

end Orion.Net
