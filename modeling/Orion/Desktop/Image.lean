import Orion.Desktop.Cursor
import Orion.Vela.Picture

/-!
# Pictures in pages (`kernel/browser_image.c`)

`gfx_image_uri` decodes what was fetched into `image_data`, at most 256 KiB, and draws it into a rectangle
of the screen: each pixel of the rectangle is given the sample of the picture at its place.  The rectangle
is cut to 640 by 480 pixels, may lie across the edge of the screen, and may begin left of it or above, at
a coordinate that has wrapped.

* `gfx_image_uri_returns` — 1 is returned exactly if the resource is decoded, and else nothing is drawn;
* `gfx_image_uri_shows` — from the bytes of the file to the cells of the screen.
-/

namespace Orion.Desktop

open Lib Graphics Traced Vela.Image

/-! ## The model -/

/-- `sizeof(image_rgb)` -/
def imageRgbCap : ℕ := 320 * 240 * 3

/-- `vela_image_probe` -/
def velaImageProbe (b : Buffer) : Option VelaImageInfo :=
  match (pb b).value with
  | some z => some z
  | none => (pp b).value.map Prod.fst

/-- The row or column of a picture of `size` for the place `d` of `n`. -/
def sourceOf (d size n : ℕ) : ℕ :=
  let s := d * size / n
  if s ≥ size then size - 1 else s

/-- The colour of the pixel that begins at `p`. -/
def rgbAt (rgb : ℕ → UInt8) (p : ℕ) : UInt32 :=
  ((rgb p).toUInt32 <<< 16) ||| ((rgb (p + 1)).toUInt32 <<< 8) ||| (rgb (p + 2)).toUInt32

section

variable (info : Option BootInfo)

/-- The loops over the rectangle. -/
def drawImage (fb : Framebuffer) (x y : UInt32) (w h : ℕ) (z : VelaImageInfo) (rgb : ℕ → UInt8) : Framebuffer :=
  (List.range h).foldl (fun fb (dy : ℕ) =>
    let sy := sourceOf dy z.height h
    (List.range w).foldl (fun fb (dx : ℕ) =>
      let sx := sourceOf dx z.width w
      gfxPixel info fb (x + .ofNat dx) (y + .ofNat dy) (rgbAt rgb ((sy * z.width + sx) * 3))) fb) fb

/-- `gfx_image_uri`: `resource` is what `vela_resource_get` has put into `image_data`, and `rgb` is what
`image_rgb` holds from before. -/
def gfxImageUri (resource : Option Buffer) (rgb : ℕ → UInt8) (fb : Framebuffer) (x y w h : UInt32) :
    Bool × Framebuffer :=
  if w = 0 ∨ h = 0 then (false, fb)
  else
    match resource with
    | none => (false, fb)
    | some b =>
      match velaImageProbe b with
      | none => (false, fb)
      | some z =>
        if z.width = 0 ∨ z.height = 0 ∨ z.width * z.height * 3 > imageRgbCap then (false, fb)
        else
          match (velaImageDecodeRgb24 b imageRgbCap).value with
          | none => (false, fb)
          | some (z, writes) =>
            let w := if w > 640 then 640 else w
            let h := if h > 480 then 480 else h
            (true, drawImage info fb x y w.toNat h.toNat z (written rgb writes))

end

/-! ## What is decoded -/

/-- What is decoded was probed, and fits. -/
theorem probe_of_decode {b : Buffer} {cap : ℕ} {z : VelaImageInfo} {writes : List Write}
    (h : (velaImageDecodeRgb24 b cap).value = some (z, writes)) :
    velaImageProbe b = some z ∧ z.width * z.height * 3 ≤ cap := by
  rw [velaImageProbe]
  cases hpb : (pb b).value with
  | some z' =>
    have hbmp : (velaImageDecodeRgb24 b cap).value = (decodeBmp b cap z').value := by
      rw [velaImageDecodeRgb24, value_bind, hpb]
    rw [hbmp, decodeBmp, value_ite] at h
    split at h
    · cases h
    · next hfits =>
      rw [value_bind, value_bind] at h
      obtain ⟨-, hrest⟩ := guard_some_iff.mp h
      rw [value_bind, value_pure] at hrest
      obtain rfl : z' = z := (Prod.ext_iff.mp (Option.some.inj hrest)).1
      exact ⟨rfl, not_lt.mp hfits⟩
  | none =>
    cases hpp : (pp b).value with
    | none =>
      have hnone : (velaImageDecodeRgb24 b cap).value = none := by
        rw [velaImageDecodeRgb24, value_bind, hpb]
        show (pp b >>= _).value = _
        rw [value_bind, hpp]
        rfl
      rw [hnone] at h
      cases h
    | some zp =>
      obtain ⟨z', p⟩ := zp
      have hppm : (velaImageDecodeRgb24 b cap).value = (decodePpm b cap z' p).value := by
        rw [velaImageDecodeRgb24, value_bind, hpb]
        show (pp b >>= _).value = _
        rw [value_bind, hpp]
      rw [hppm, decodePpm, value_ite] at h
      split at h
      · cases h
      · next hfits =>
        rw [value_bind, value_pure] at h
        obtain rfl : z' = z := (Prod.ext_iff.mp (Option.some.inj h)).1
        exact ⟨rfl, not_lt.mp hfits⟩

/-! ## What is drawn -/

/-- The place is inside the picture. -/
theorem sourceOf_eq {d size n : ℕ} (hd : d < n) (hsize : 0 < size) :
    sourceOf d size n = d * size / n ∧ d * size / n < size := by
  have hlt : d * size / n < size := by
    rw [Nat.div_lt_iff_lt_mul (Nat.lt_of_le_of_lt (Nat.zero_le d) hd), Nat.mul_comm size n]
    exact Nat.mul_lt_mul_of_pos_right hd hsize
  exact ⟨if_neg (not_le.mpr hlt), hlt⟩

section

variable {bi : BootInfo} (hbi : bi.Described) (x y : UInt32)

/-- The cell of a place in the rectangle. -/
def imageCell (bi : BootInfo) (x y : UInt32) (p : ℕ × ℕ) : Option ℕ :=
  bi.cell (x + .ofNat p.1).toNat (y + .ofNat p.2).toNat

/-- A coordinate that may wrap is still that of one place. -/
theorem add_ofNat_inj {a : UInt32} {m n : ℕ} (hm : m < 2 ^ 31) (hn : n < 2 ^ 31)
    (h : (a + .ofNat m : UInt32).toNat = (a + .ofNat n : UInt32).toNat) : m = n := by
  rw [UInt32.toNat_add, UInt32.toNat_add, toNat_coordinate hm, toNat_coordinate hn] at h
  have ha := a.toNat_lt
  omega

include hbi

/-- No two pixels have one cell. -/
theorem cell_inj {i j i' j' k : ℕ} (h : bi.cell i j = some k) (h' : bi.cell i' j' = some k) : i = i' ∧ j = j' := by
  obtain ⟨⟨-, hi, -⟩, hk⟩ := BootInfo.of_cell h
  obtain ⟨⟨-, hi', -⟩, hk'⟩ := BootInfo.of_cell h'
  have hwidth := UInt32.le_iff_toNat_le.mp hbi.width_le
  have heq : j * bi.pixelsPerScanline.toNat + i = j' * bi.pixelsPerScanline.toNat + i' := hk.symm.trans hk'
  have hj : j = j' := by
    have hdiv := congrArg (fun n => n / bi.pixelsPerScanline.toNat) heq
    simp only [Nat.mul_comm _ bi.pixelsPerScanline.toNat] at hdiv
    rwa [Nat.mul_add_div (by omega), Nat.mul_add_div (by omega), Nat.div_eq_of_lt (by omega),
      Nat.div_eq_of_lt (by omega)] at hdiv
  rw [hj] at heq
  exact ⟨Nat.add_left_cancel heq, hj⟩

theorem imageCell_inj {p q : ℕ × ℕ} {w h k : ℕ} (hw : w ≤ 640) (hh : h ≤ 480) (hp : p ∈ block w h)
    (hq : q ∈ block w h) (hpk : imageCell bi x y p = some k) (hqk : imageCell bi x y q = some k) : p = q := by
  obtain ⟨hpx, hpy⟩ := mem_block.mp hp
  obtain ⟨hqx, hqy⟩ := mem_block.mp hq
  obtain ⟨hx, hy⟩ := cell_inj hbi hpk hqk
  exact Prod.ext (add_ofNat_inj (by omega) (by omega) hx) (add_ofNat_inj (by omega) (by omega) hy)

/-- The loops store a colour for each place. -/
theorem drawImage_storing (fb : Framebuffer) (w h : ℕ) (z : VelaImageInfo) (rgb : ℕ → UInt8) :
    drawImage (some bi) fb x y w h z rgb = storing (imageCell bi x y)
      (fun p => bi.stored (bi.packPixel
        (rgbAt rgb ((sourceOf p.2 z.height h * z.width + sourceOf p.1 z.width w) * 3)))) fb (block w h) := by
  rw [storing_block, drawImage]
  refine congrArg (fun f => List.foldl f fb (List.range h)) ?_
  funext fb dy
  refine congrArg (fun f => List.foldl f fb (List.range w)) ?_
  funext fb dx
  exact gfxPixel_eq hbi fb _ _ _

/-- **Every cell of the rectangle gets its colour**, and the others keep theirs. -/
theorem drawImage_cells (fb : Framebuffer) {w h : ℕ} (hw : w ≤ 640) (hh : h ≤ 480) (z : VelaImageInfo)
    (rgb : ℕ → UInt8) (hwidth : 0 < z.width) (hheight : 0 < z.height) :
    (∀ p ∈ block w h, ∀ k, imageCell bi x y p = some k → drawImage (some bi) fb x y w h z rgb k =
      bi.stored (bi.packPixel (rgbAt rgb ((p.2 * z.height / h * z.width + p.1 * z.width / w) * 3)))) ∧
    ∀ k, (∀ p ∈ block w h, imageCell bi x y p ≠ some k) → drawImage (some bi) fb x y w h z rgb k = fb k := by
  rw [drawImage_storing hbi]
  refine ⟨fun p hp k hk => ?_, fun k hk => storing_of_not _ _ fb hk⟩
  refine storing_of_agree (fun q hq hcell => ?_) (.inr ⟨p, hp, hk⟩)
  rw [imageCell_inj hbi x y hw hh hq hp hcell hk]
  obtain ⟨hpx, hpy⟩ := mem_block.mp hp
  rw [(sourceOf_eq hpy hheight).1, (sourceOf_eq hpx hwidth).1]

end

/-! ## From the file to the screen -/

theorem clipped_toNat {n m : UInt32} : (if n > m then m else n).toNat = min n.toNat m.toNat := by
  by_cases hover : n > m
  · rw [if_pos hover, Nat.min_eq_right (Nat.le_of_lt (UInt32.lt_iff_toNat_lt.mp hover))]
  · rw [if_neg hover, Nat.min_eq_left (Nat.not_lt.mp fun hlt => hover (UInt32.lt_iff_toNat_lt.mpr hlt))]

/-- **1 is returned exactly if the resource is decoded**, and else the screen is left alone. -/
theorem gfx_image_uri_returns (info : Option BootInfo) (resource : Option Buffer) (rgb : ℕ → UInt8)
    (fb : Framebuffer) (x y w h : UInt32) :
    let r := gfxImageUri info resource rgb fb x y w h
    (r.1 = true ↔ w ≠ 0 ∧ h ≠ 0 ∧ ∃ b z writes, resource = some b ∧
      (velaImageDecodeRgb24 b imageRgbCap).value = some (z, writes) ∧ z.width ≠ 0 ∧ z.height ≠ 0) ∧
    (r.1 = false → r.2 = fb) := by
  intro r
  by_cases hsize : w = 0 ∨ h = 0
  · have hr : r = (false, fb) := if_pos hsize
    rw [hr]
    refine ⟨iff_of_false Bool.false_ne_true fun hsome => ?_, fun _ => rfl⟩
    rcases hsize with hw | hh
    · exact hsome.1 hw
    · exact hsome.2.1 hh
  · obtain ⟨hw, hh⟩ := not_or.mp hsize
    cases hres : resource with
    | none =>
      have hr : r = (false, fb) := by
        show gfxImageUri info resource rgb fb x y w h = _
        rw [hres, gfxImageUri.eq_def, if_neg hsize]
      rw [hr]
      refine ⟨iff_of_false Bool.false_ne_true ?_, fun _ => rfl⟩
      rintro ⟨-, -, b, -, -, hnone, -⟩
      cases hnone
    | some b =>
      cases hdecode : (velaImageDecodeRgb24 b imageRgbCap).value with
      | none =>
        have hr : r = (false, fb) := by
          show gfxImageUri info resource rgb fb x y w h = _
          rw [hres, gfxImageUri.eq_def, if_neg hsize]
          simp only [hdecode]
          cases velaImageProbe b with
          | none => rfl
          | some z => exact ite_self _
        rw [hr]
        refine ⟨iff_of_false Bool.false_ne_true ?_, fun _ => rfl⟩
        rintro ⟨-, -, b', z, writes, heq, hsome, -⟩
        obtain rfl := Option.some.inj heq
        rw [hdecode] at hsome
        cases hsome
      | some zw =>
        obtain ⟨z, writes⟩ := zw
        obtain ⟨hprobe, hfits⟩ := probe_of_decode hdecode
        by_cases hempty : z.width = 0 ∨ z.height = 0
        · have hr : r = (false, fb) := by
            show gfxImageUri info resource rgb fb x y w h = _
            rw [hres, gfxImageUri.eq_def, if_neg hsize]
            simp only [hprobe]
            exact if_pos (or_assoc.mp (.inl hempty))
          rw [hr]
          refine ⟨iff_of_false Bool.false_ne_true ?_, fun _ => rfl⟩
          rintro ⟨-, -, b', z', writes', heq, hsome, hwidth, hheight⟩
          obtain rfl := Option.some.inj heq
          rw [hdecode] at hsome
          obtain rfl : z = z' := (Prod.ext_iff.mp (Option.some.inj hsome)).1
          rcases hempty with hzero | hzero
          · exact hwidth hzero
          · exact hheight hzero
        · obtain ⟨hwidth, hheight⟩ := not_or.mp hempty
          have hr : r.1 = true := by
            show (gfxImageUri info resource rgb fb x y w h).1 = true
            rw [hres, gfxImageUri.eq_def, if_neg hsize]
            simp only [hprobe, hdecode]
            rw [if_neg (not_or.mpr ⟨hwidth, not_or.mpr ⟨hheight, not_lt.mpr hfits⟩⟩)]
          rw [hr]
          exact ⟨iff_of_true rfl ⟨hw, hh, b, z, writes, rfl, hdecode, hwidth, hheight⟩, fun hfalse => by cases hfalse⟩

/-- The colour of a pixel of a picture. -/
def colourAt (q : Picture) (i j : ℕ) : UInt32 := rgbAt (fun n => q.rgb.getD n 0) ((j * q.width + i) * 3)

/-- What is written to `image_rgb` is the picture. -/
theorem rgbAt_written (q : Picture) (rgb : ℕ → UInt8) {i j : ℕ} (hi : i < q.width) (hj : j < q.height) :
    rgbAt (written rgb q.writes) ((j * q.width + i) * 3) = colourAt q i j := by
  have hplace : j * q.width + i < q.width * q.height := by
    calc j * q.width + i < j * q.width + q.width := Nat.add_lt_add_left hi _
      _ = (j + 1) * q.width := (Nat.succ_mul j q.width).symm
      _ ≤ q.height * q.width := Nat.mul_le_mul_right _ hj
      _ = q.width * q.height := Nat.mul_comm _ _
  have hsample : ∀ n, n < 3 → written rgb q.writes ((j * q.width + i) * 3 + n) =
      q.rgb.getD ((j * q.width + i) * 3 + n) 0 := by
    intro n hn
    rw [Picture.writes, written_chunks, if_pos (by omega), Picture.sample]
  rw [rgbAt, colourAt, rgbAt, hsample 1 (by decide), hsample 2 (by decide), ← Nat.add_zero ((j * q.width + i) * 3),
    hsample 0 (by decide)]

/-- **From the bytes of the file to the cells of the screen.** -/
theorem gfx_image_uri_shows {bi : BootInfo} (hbi : bi.Described) (fb : Framebuffer) (rgb : ℕ → UInt8)
    (x y : UInt32) {w h : UInt32} (hw : w ≠ 0) (hh : h ≠ 0) (q : Picture) (b : Buffer)
    (hfile : (∃ f : BmpFormat, Holds b (f.encode q)) ∨ ∃ f : PpmFormat q, Holds b f.encode) :
    let shownW := min w.toNat 640
    let shownH := min h.toNat 480
    let r := gfxImageUri (some bi) (some b) rgb fb x y w h
    r.1 = true ∧
    (∀ dx dy k, dx < shownW → dy < shownH → imageCell bi x y (dx, dy) = some k →
      r.2 k = bi.stored (bi.packPixel (colourAt q (dx * q.width / shownW) (dy * q.height / shownH)))) ∧
    ∀ k, (∀ dx dy, dx < shownW → dy < shownH → imageCell bi x y (dx, dy) ≠ some k) → r.2 k = fb k := by
  intro shownW shownH r
  have hwidth := q.width_range
  have hheight := q.height_range
  have hcap : q.width * q.height * 3 ≤ imageRgbCap :=
    Nat.mul_le_mul_right 3 (Nat.mul_le_mul hwidth.2 hheight.2)
  have hdecode : (velaImageDecodeRgb24 b imageRgbCap).value = some (q.info, q.writes) := by
    rcases hfile with ⟨f, hf⟩ | ⟨f, hf⟩
    · exact BmpFormat.decode_encode hf hcap
    · exact PpmFormat.decode_encode hf hcap
  obtain ⟨hprobe, -⟩ := probe_of_decode hdecode
  have hr : r = (true, drawImage (some bi) fb x y shownW shownH q.info (written rgb q.writes)) := by
    show gfxImageUri (some bi) (some b) rgb fb x y w h = _
    rw [gfxImageUri, if_neg (not_or.mpr ⟨hw, hh⟩)]
    simp only [hprobe, hdecode, Picture.info_width, Picture.info_height, clipped_toNat]
    rw [if_neg (by omega)]
    rfl
  obtain ⟨hinside, houtside⟩ := drawImage_cells hbi x y fb (Nat.min_le_right w.toNat 640)
    (Nat.min_le_right h.toNat 480) q.info (written rgb q.writes) hwidth.1 hheight.1
  rw [hr]
  refine ⟨rfl, fun dx dy k hdx hdy hk => ?_, fun k hk => ?_⟩
  · have hcell := hinside (dx, dy) (mem_block.mpr ⟨hdx, hdy⟩) k hk
    refine hcell.trans ?_
    exact congrArg (fun c => bi.stored (bi.packPixel c))
      (rgbAt_written q rgb (sourceOf_eq hdx hwidth.1).2 (sourceOf_eq hdy hheight.1).2)
  · refine houtside k fun p hp => ?_
    obtain ⟨hpx, hpy⟩ := mem_block.mp hp
    exact hk p.1 p.2 hpx hpy

theorem holds_ofBytes (file : List UInt8) : Holds (Buffer.ofBytes file) file := by
  show (List.range file.length).map (fun i => file.getD i 0) = file
  refine List.ext_getElem (by rw [List.length_map, List.length_range]) fun i _ hi => ?_
  rw [List.getElem_map, List.getElem_range, List.getD_eq_getElem?_getD, List.getElem?_eq_getElem hi, Option.getD_some]

def onePixel : Picture := ⟨1, 1, [7, 8, 9], by decide, by decide, rfl⟩

def onePixelFormat : BmpFormat :=
  ⟨false, false, 58, 0, 40, 4, 0, 0, 0, 0, [], fun _ => 0, fun _ _ => 0, [], by decide, by decide⟩

/-- A bitmap of one pixel, drawn twice as large across the edge of a small screen. -/
theorem gfx_image_uri_shows_pixel :
    let bi : BootInfo := ⟨0x1000, 4, 4, 4, 0⟩
    let black : Framebuffer := fun _ => 0
    let r := gfxImageUri (some bi) (some (Buffer.ofBytes (onePixelFormat.encode onePixel))) (fun _ => 0) black 3 1 2 2
    r.1 = true ∧ r.2 7 = 0x090807 ∧ r.2 8 = 0 := by
  intro bi black r
  have hbi : bi.Described := ⟨by decide, by decide, by decide⟩
  obtain ⟨hone, hinside, houtside⟩ := gfx_image_uri_shows hbi black (fun _ => 0) 3 1 (by decide : (2 : UInt32) ≠ 0)
    (by decide : (2 : UInt32) ≠ 0) onePixel (Buffer.ofBytes (onePixelFormat.encode onePixel))
    (.inl ⟨onePixelFormat, holds_ofBytes _⟩)
  refine ⟨hone, (hinside 0 0 7 (by decide) (by decide) (by decide)).trans (by decide), houtside 8 fun dx dy hdx hdy => ?_⟩
  have hplaces : ∀ i < 2, ∀ j < 2, imageCell bi 3 1 (i, j) ≠ some 8 := by decide
  exact hplaces dx hdx dy hdy

end Orion.Desktop
