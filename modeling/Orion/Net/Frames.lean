import Mathlib.Data.List.GetD
import Orion.Net.Handlers
import Orion.Net.Trace

/-!
# Frames that carry a segment

Every segment for this host can be received: `segmentFrame` is an Ethernet frame with an IPv4 packet
that holds it, and `segmentFrame_decodes` reads it back.
-/

namespace Orion.Net

open Orion.Traced

/-- The segment in a packet for `ip`. -/
def segmentFrame (ip : List UInt8) (x : Segment) : Buffer :=
  .ofBytes ([82, 84, 0, 18, 52, 86, 82, 84, 0, 18, 53, 2, 8, 0] ++
    ([0x45, 0] ++ put16 (40 + x.data.length) ++ [0, 1, 0, 0, 64, 6, 0, 0] ++ x.srcip ++ ip) ++
    (put16 x.sp ++ put16 x.dp ++ put32 x.seq ++ put32 x.ack ++ [0x50, x.flags, 16, 0, 0, 0, 0, 0]) ++
    x.data)

set_option maxRecDepth 4000 in
theorem segmentFrame_decodes {ip : List UInt8} (hip : ip.length = 4) {x : Segment} (hx : x.WellFormed)
    (hdata : x.data.length ≤ 1460) (arch : Arch) {u : State} (hu : u.ipAddr = ip) :
    passedOn arch (segmentFrame ip x) u = some ⟨6, 26, 34, 20 + x.data.length⟩ ∧
      segmentAt (segmentFrame ip x).mem 34 (20 + x.data.length) 26 = some x := by
  obtain ⟨a, b, c, d, ha⟩ := List.length_eq_four.mp hx.srcip
  obtain ⟨e, f, g, h, rfl⟩ := List.length_eq_four.mp hip
  have hmem : segmentFrame [e, f, g, h] x = .ofBytes
      ([82, 84, 0, 18, 52, 86, 82, 84, 0, 18, 53, 2, 8, 0] ++
        ([0x45, 0] ++ put16 (40 + x.data.length) ++ [0, 1, 0, 0, 64, 6, 0, 0] ++ [a, b, c, d] ++
          [e, f, g, h]) ++
        (put16 x.sp ++ put16 x.dp ++ put32 x.seq ++ put32 x.ack ++
          [0x50, x.flags, 16, 0, 0, 0, 0, 0]) ++ x.data) := by
    unfold segmentFrame
    rw [ha]
  have hlen : (segmentFrame [e, f, g, h] x).len = 54 + x.data.length := by
    rw [hmem]
    show List.length _ = _
    rw [List.length_append]
    rfl
  have hbytes : ∀ i, (segmentFrame [e, f, g, h] x).mem (54 + i) = x.data.getD i 0 := by
    intro i
    rw [hmem]
    show List.getD (_ ++ x.data) (54 + i) 0 = _
    rw [List.getD_append_right _ _ _ _ (Nat.le_add_right 54 i)]
    exact congrArg (x.data.getD · 0) (Nat.add_sub_cancel_left 54 i)
  generalize segmentFrame [e, f, g, h] x = frame at hmem hlen hbytes ⊢
  have htype : (get16 frame.mem 12).value = ethIp := by
    have hhigh : frame.mem 12 = 8 := by
      rw [hmem]
      rfl
    have hlow : frame.mem 13 = 0 := by
      rw [hmem]
      rfl
    rw [value_get16, hhigh, hlow]
    rfl
  have hversion : frame.mem 14 = 0x45 := by
    rw [hmem]
    rfl
  have htotal : (get16 frame.mem (14 + 2)).value = 40 + x.data.length :=
    get16_of_put16 (by rw [hmem]; rfl) (by omega)
  have hproto : frame.mem (14 + 9) = ipTcp := by
    rw [hmem]
    rfl
  have hdst : (readSpan frame.mem (14 + 16) 4).value = u.ipAddr := by
    rw [hmem, hu]
    rfl
  have hsrc : (readSpan frame.mem 26 4).value = x.srcip := by
    rw [hmem, ha]
    rfl
  have hoff : frame.mem (34 + 12) = 0x50 := by
    rw [hmem]
    rfl
  have hflags : frame.mem (34 + 13) = x.flags := by
    rw [hmem]
    rfl
  have hsp : (get16 frame.mem 34).value = x.sp := get16_of_put16 (by rw [hmem]; rfl) hx.sp
  have hdp : (get16 frame.mem (34 + 2)).value = x.dp := get16_of_put16 (by rw [hmem]; rfl) hx.dp
  have hseq : (get32 frame.mem (34 + 4)).value = x.seq := get32_of_put32 (by rw [hmem]; rfl) hx.seq
  have hack : (get32 frame.mem (34 + 8)).value = x.ack := get32_of_put32 (by rw [hmem]; rfl) hx.ack
  have hpayload : (readSpan frame.mem (34 + 20) (20 + x.data.length - 20)).value = x.data := by
    rw [value_readSpan]
    refine List.ext_getElem (by simp) fun i hi hi' => ?_
    rw [List.getElem_map, List.getElem_range, hbytes, List.getD_eq_getElem _ _ hi']
  have hihl : (0x45 : UInt8).toNat % 16 * 4 = 20 := rfl
  have hhlen : (0x50 : UInt8).toNat / 16 * 4 = 20 := rfl
  constructor
  · have hfits : 54 + x.data.length - 14 = 40 + x.data.length := by omega
    obtain ⟨y, hy⟩ := @ipPayload_eq arch frame.mem 14 (40 + x.data.length) u (by omega)
      (by rw [hversion]; rfl) (by rw [hversion]; decide) (by rw [hversion, hihl]; omega) hdst
    obtain ⟨-, -, -, -, -, hfields⟩ := ipPayload_some hy
    rw [hproto, hversion, hihl, htotal, Nat.min_self, arch.sizeSub_of_le (by omega) (by omega),
      show 40 + x.data.length - 20 = 20 + x.data.length from by omega] at hfields
    unfold passedOn
    rw [if_pos ⟨by rw [hlen]; omega, htype⟩, hlen, hfits, hy, hfields]
    rfl
  · unfold segmentAt decodeSegment
    rw [hoff, hhlen, hsp, hdp, hseq, hack, hflags, hsrc, hpayload, if_neg (by omega)]

end Orion.Net
