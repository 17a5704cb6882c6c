import Orion.Lib.Chunks
import Orion.Lib.Text
import Orion.Machine

/-!
# Images (`kernel/vela_image.c`)

The decoder of uncompressed bitmaps and binary pixmaps.  What it reads of the file is recorded by the
computation (`Traced`), what it writes to the picture is its result: a list of indices and bytes, in
order.  Nothing is written when it returns 0.  `vela_decode_safe` says that all reads are in the file and
all writes in the picture.
-/

namespace Orion.Vela.Image

open Orion.Traced

structure VelaImageInfo where
  width : ℕ
  height : ℕ
  channels : ℕ
  deriving Repr, DecidableEq

/-! ## Words and numbers -/

def le16 (mem : ℕ → UInt8) (p : ℕ) : Traced ℕ ℕ := do
  let a ← read mem p
  let b ← read mem (p + 1)
  pure (a.toNat + b.toNat * 2 ^ 8)

def le32 (mem : ℕ → UInt8) (p : ℕ) : Traced ℕ ℕ := do
  let a ← read mem p
  let b ← read mem (p + 1)
  let c ← read mem (p + 2)
  let d ← read mem (p + 3)
  pure (a.toNat + b.toNat * 2 ^ 8 + c.toNat * 2 ^ 16 + d.toNat * 2 ^ 24)

/-- `(int32_t)v` -/
def signed32 (v : ℕ) : ℤ := if v < 2 ^ 31 then v else v - 2 ^ 32

def les32 (mem : ℕ → UInt8) (p : ℕ) : Traced ℕ ℤ := do
  let v ← le32 mem p
  pure (signed32 v)

def sp (c : UInt8) : Bool := c = 32 || c = 9 || c = 13 || c = 10

def dg (c : UInt8) : Bool := isDigit c

/-- `while(*p<n&&sp(d[*p]))(*p)++;` -/
def skipSp (b : Buffer) : ℕ → ℕ → Traced ℕ ℕ
  | 0, p => pure p
  | fuel + 1, p =>
    if p < b.len then do
      let c ← read b.mem p
      if sp c then skipSp b fuel (p + 1) else pure p
    else pure p

/-- The loop over the digits of a number, which is refused from 8193 on; the value and the position. -/
def numLoop (b : Buffer) : ℕ → ℕ → ℕ → Traced ℕ (Option (ℕ × ℕ))
  | 0, p, v => pure (some (v, p))
  | fuel + 1, p, v =>
    if p < b.len then do
      let c ← read b.mem p
      if dg c then
        if v * 10 + digitVal c > 8192 then pure none
        else numLoop b fuel (p + 1) (v * 10 + digitVal c)
      else pure (some (v, p))
    else pure (some (v, p))

def num (b : Buffer) (p : ℕ) : Traced ℕ (Option (ℕ × ℕ)) := do
  let p ← skipSp b b.len p
  if p < b.len then do
    let c ← read b.mem p
    if dg c then numLoop b b.len p 0 else pure none
  else pure none

/-! ## Headers -/

/-- The header of a bitmap; a negative height says that the first row is the topmost. -/
def pb (b : Buffer) : Traced ℕ (Option VelaImageInfo) :=
  if b.len < 54 then pure none
  else do
    let c0 ← read b.mem 0
    if c0 ≠ 66 then pure none
    else do
      let c1 ← read b.mem 1
      if c1 ≠ 77 then pure none
      else do
        let size ← le32 b.mem 14
        if size < 40 then pure none
        else do
          let w ← les32 b.mem 18
          let h ← les32 b.mem 22
          let bits ← le16 b.mem 28
          if w ≤ 0 ∨ h = 0 then pure none
          else do
            let planes ← le16 b.mem 26
            if planes ≠ 1 ∨ (bits ≠ 24 ∧ bits ≠ 32) then pure none
            else do
              let compression ← le32 b.mem 30
              if compression ≠ 0 ∨ w.toNat > 320 ∨ h.natAbs > 240 then pure none
              else pure (some ⟨w.toNat, h.natAbs, 3⟩)

/-- The position behind the blank that ends the header of a pixmap. -/
def payload (b : Buffer) (p : ℕ) : Traced ℕ (Option ℕ) :=
  if p ≥ b.len then pure none
  else do
    let c ← read b.mem p
    if sp c = false then pure none
    else if c = 13 ∧ p + 1 < b.len then do
      let c ← read b.mem (p + 1)
      pure (some (if c = 10 then p + 2 else p + 1))
    else pure (some (p + 1))

/-- The header of a pixmap: the picture, and where its bytes begin. -/
def pp (b : Buffer) : Traced ℕ (Option (VelaImageInfo × ℕ)) :=
  if b.len < 3 then pure none
  else do
    let c0 ← read b.mem 0
    if c0 ≠ 80 then pure none
    else do
      let c1 ← read b.mem 1
      if c1 ≠ 54 then pure none
      else do
        let c2 ← read b.mem 2
        if sp c2 = false then pure none
        else do
          let w ← num b 2
          match w with
          | none => pure none
          | some (w, p) => do
            let h ← num b p
            match h with
            | none => pure none
            | some (h, p) => do
              let m ← num b p
              match m with
              | none => pure none
              | some (m, p) =>
                if w = 0 ∨ h = 0 ∨ w > 320 ∨ h > 240 ∨ m ≠ 255 then pure none
                else do
                  let start ← payload b p
                  match start with
                  | none => pure none
                  | some p =>
                    if p > b.len ∨ w * h * 3 > b.len - p then pure none
                    else pure (some (⟨w, h, 3⟩, p))

/-! ## Pixels -/

/-- A byte that is written to the picture. -/
abbrev Write := ℕ × UInt8

/-- A loop whose turns read and write independently of each other. -/
def gather (n : ℕ) (turn : ℕ → Traced ℕ (List Write)) : Traced ℕ (List Write) :=
  ⟨chunks n fun k => (turn k).value, chunks n fun k => (turn k).reads⟩

/-- The pixel at `s`, written to `o`. -/
def bmpPixel (mem : ℕ → UInt8) (s o : ℕ) : Traced ℕ (List Write) := do
  let red ← read mem (s + 2)
  let green ← read mem (s + 1)
  let blue ← read mem s
  pure [(o, red), (o + 1, green), (o + 2, blue)]

def bmpRow (mem : ℕ → UInt8) (width sb s o : ℕ) : Traced ℕ (List Write) :=
  gather width fun x => bmpPixel mem (s + x * sb) (o + x * 3)

def decodeBmp (b : Buffer) (cap : ℕ) (z : VelaImageInfo) :
    Traced ℕ (Option (VelaImageInfo × List Write)) :=
  if z.width * z.height * 3 > cap then pure none
  else do
    let off ← le32 b.mem 10
    let bits ← le16 b.mem 28
    let sb := bits / 8
    let row := (z.width * sb + 3) / 4 * 4
    let sh ← les32 b.mem 22
    if off > b.len ∨ row > (b.len - off) / z.height then pure none
    else do
      let writes ← gather z.height fun y =>
        bmpRow b.mem z.width sb (off + (if sh > 0 then z.height - 1 - y else y) * row) (y * z.width * 3)
      pure (some (z, writes))

def decodePpm (b : Buffer) (cap : ℕ) (z : VelaImageInfo) (p : ℕ) :
    Traced ℕ (Option (VelaImageInfo × List Write)) :=
  if z.width * z.height * 3 > cap then pure none
  else do
    let writes ← gather (z.width * z.height * 3) fun k => do
      let c ← read b.mem (p + k)
      pure [(k, c)]
    pure (some (z, writes))

/-- `none` is the result 0; otherwise it is 1, and the information and the writes to `rgb` follow. -/
def velaImageDecodeRgb24 (b : Buffer) (cap : ℕ) : Traced ℕ (Option (VelaImageInfo × List Write)) := do
  let z ← pb b
  match z with
  | some z => decodeBmp b cap z
  | none => do
    let q ← pp b
    match q with
    | some (z, p) => decodePpm b cap z p
    | none => pure none

/-- The picture after writes. -/
def written (old : ℕ → UInt8) (writes : List Write) : ℕ → UInt8 :=
  writes.foldl (fun m w => Function.update m w.1 w.2) old

/-! ## Where it reads -/

@[simp] theorem within_le16 (P : ℕ → Prop) (mem : ℕ → UInt8) (p : ℕ) :
    Within P (le16 mem p) ↔ P p ∧ P (p + 1) := by
  simp [le16]

@[simp] theorem within_le32 (P : ℕ → Prop) (mem : ℕ → UInt8) (p : ℕ) :
    Within P (le32 mem p) ↔ P p ∧ P (p + 1) ∧ P (p + 2) ∧ P (p + 3) := by
  simp [le32]

@[simp] theorem within_les32 (P : ℕ → Prop) (mem : ℕ → UInt8) (p : ℕ) :
    Within P (les32 mem p) ↔ P p ∧ P (p + 1) ∧ P (p + 2) ∧ P (p + 3) := by
  simp [les32]

@[simp] theorem within_gather (P : ℕ → Prop) (n : ℕ) (turn : ℕ → Traced ℕ (List Write)) :
    Within P (gather n turn) ↔ ∀ k < n, Within P (turn k) := by
  simp only [Within, gather, mem_chunks]
  constructor
  · exact fun h k hk i hi => h i ⟨k, hk, hi⟩
  · rintro h i ⟨k, hk, hi⟩
    exact h k hk i hi

theorem mem_gather {n : ℕ} {turn : ℕ → Traced ℕ (List Write)} {w : Write} :
    w ∈ (gather n turn).value ↔ ∃ k < n, w ∈ (turn k).value :=
  mem_chunks

section

variable (b : Buffer)

theorem within_skipSp (fuel : ℕ) : ∀ p, Within (· < b.len) (skipSp b fuel p) := by
  induction fuel with
  | zero => exact fun p => within_pure _ _
  | succ fuel ih =>
    intro p
    rw [skipSp, within_ite]
    refine ⟨fun h => ?_, fun _ => within_pure _ _⟩
    rw [within_bind, within_read, within_ite]
    exact ⟨h, fun _ => ih _, fun _ => within_pure _ _⟩

theorem within_numLoop (fuel : ℕ) : ∀ p v, Within (· < b.len) (numLoop b fuel p v) := by
  induction fuel with
  | zero => exact fun p v => within_pure _ _
  | succ fuel ih =>
    intro p v
    rw [numLoop, within_ite]
    refine ⟨fun h => ?_, fun _ => within_pure _ _⟩
    rw [within_bind, within_read, within_ite, within_ite]
    exact ⟨h, fun _ => ⟨fun _ => within_pure _ _, fun _ => ih _ _⟩, fun _ => within_pure _ _⟩

theorem within_num (p : ℕ) : Within (· < b.len) (num b p) := by
  rw [num, within_bind, within_ite]
  refine ⟨within_skipSp b _ _, fun h => ?_, fun _ => within_pure _ _⟩
  rw [within_bind, within_read, within_ite]
  exact ⟨h, fun _ => within_numLoop b _ _ _, fun _ => within_pure _ _⟩

theorem within_pb : Within (· < b.len) (pb b) := by
  rw [pb, within_ite]
  refine ⟨fun _ => within_pure _ _, fun h => ?_⟩
  have hin : ∀ i : ℕ, i < 54 → i < b.len := fun i hi => by omega
  simp only [within_bind, within_read, within_ite, within_pure, within_le32, within_les32, within_le16,
    implies_true, true_and, and_true]
  grind

theorem within_payload (p : ℕ) : Within (· < b.len) (payload b p) := by
  rw [payload, within_ite]
  refine ⟨fun _ => within_pure _ _, fun h => ?_⟩
  rw [within_bind, within_read, within_ite, within_ite]
  refine ⟨not_le.mp h, fun _ => within_pure _ _, fun _ => ⟨fun hcr => ?_, fun _ => within_pure _ _⟩⟩
  rw [within_bind, within_read]
  exact ⟨hcr.2, within_pure _ _⟩

theorem within_pp : Within (· < b.len) (pp b) := by
  rw [pp, within_ite]
  refine ⟨fun _ => within_pure _ _, fun h => ?_⟩
  have h0 : 0 < b.len := by omega
  have h1 : 1 < b.len := by omega
  have h2 : 2 < b.len := by omega
  simp only [within_bind, within_read, within_ite, within_pure, implies_true, true_and]
  refine ⟨h0, fun _ => ⟨h1, fun _ => ⟨h2, fun _ => ⟨within_num b 2, ?_⟩⟩⟩⟩
  rcases (num b 2).value with _ | ⟨w, p⟩
  · exact within_pure _ _
  show Within _ (num b p >>= _)
  rw [within_bind]
  refine ⟨within_num b p, ?_⟩
  rcases (num b p).value with _ | ⟨v, q⟩
  · exact within_pure _ _
  show Within _ (num b q >>= _)
  rw [within_bind]
  refine ⟨within_num b q, ?_⟩
  rcases (num b q).value with _ | ⟨m, r⟩
  · exact within_pure _ _
  show Within _ (ite _ _ _)
  rw [within_ite, within_bind]
  refine ⟨fun _ => within_pure _ _, fun _ => ⟨within_payload b r, ?_⟩⟩
  rcases (payload b r).value with _ | start
  · exact within_pure _ _
  show Within _ (ite _ _ _)
  rw [within_ite]
  exact ⟨fun _ => within_pure _ _, fun _ => within_pure _ _⟩

/-! ## What a header says -/

variable {b} {z : VelaImageInfo}

theorem pb_some (h : (pb b).value = some z) :
    54 ≤ b.len ∧ (0 < z.width ∧ z.width ≤ 320) ∧ (0 < z.height ∧ z.height ≤ 240) ∧
      ((le16 b.mem 28).value = 24 ∨ (le16 b.mem 28).value = 32) := by
  rw [pb, value_ite] at h
  split at h
  · cases h
  have h := (guard_some (guard_some (guard_some h).2).2).2
  rw [value_bind, value_bind] at h
  obtain ⟨hpos, h⟩ := guard_some h
  obtain ⟨hbits, h⟩ := guard_some h
  obtain ⟨hlarge, h⟩ := guard_some h
  rw [value_pure] at h
  have hz := Option.some.inj h
  rw [← hz]
  simp only
  omega

theorem pp_some {p : ℕ} (h : (pp b).value = some (z, p)) :
    p ≤ b.len ∧ z.width * z.height * 3 ≤ b.len - p := by
  rw [pp, value_ite] at h
  split at h
  · cases h
  have h := (guard_some (guard_some (guard_some h).2).2).2
  rw [value_bind] at h
  rcases hw : (num b 2).value with _ | ⟨w, q⟩
  · rw [hw] at h
    cases h
  simp only [hw, value_bind] at h
  rcases hv : (num b q).value with _ | ⟨v, r⟩
  · rw [hv] at h
    cases h
  simp only [hv, value_bind] at h
  rcases hm : (num b r).value with _ | ⟨m, s⟩
  · rw [hm] at h
    cases h
  simp only [hm, value_ite] at h
  split at h
  · cases h
  rw [value_bind] at h
  rcases hp : (payload b s).value with _ | start
  · rw [hp] at h
    cases h
  simp only [hp, value_ite] at h
  split at h
  · cases h
  next hlen =>
    cases h
    simp only
    omega

/-! ## What the pixels need -/

/-- The last byte of a pixel that is read. -/
theorem pixel_inside {len off row w h sb x y : ℕ} (hw : x < w) (hy : y < h) (hsb : 3 ≤ sb)
    (hrow : w * sb ≤ row) (hoff : off ≤ len) (hfit : row ≤ (len - off) / h) :
    off + y * row + x * sb + 2 < len := by
  have hx : (x + 1) * sb ≤ w * sb := Nat.mul_le_mul_right sb hw
  have hy' : (y + 1) * row ≤ h * row := Nat.mul_le_mul_right row hy
  have hall : h * row ≤ len - off :=
    (Nat.mul_le_mul_left h hfit).trans (Nat.mul_div_le _ _)
  rw [Nat.add_mul, Nat.one_mul] at hx hy'
  omega

theorem within_bmpPixel (s o : ℕ) (h : s + 2 < b.len) :
    Within (· < b.len) (bmpPixel b.mem s o) := by
  simp only [bmpPixel, within_bind, within_read, within_pure, and_true]
  omega

theorem decodeBmp_safe (cap : ℕ) (hz : (pb b).value = some z) :
    Within (· < b.len) (decodeBmp b cap z) := by
  obtain ⟨hlen, hw, hh, hbits⟩ := pb_some hz
  have hsb : 3 ≤ (le16 b.mem 28).value / 8 := by omega
  rw [decodeBmp, within_ite]
  refine ⟨fun _ => within_pure _ _, fun _ => ?_⟩
  simp only [within_bind, within_le32, within_le16, within_les32, within_ite, within_pure, and_true,
    bmpRow, within_gather, implies_true, true_and]
  refine ⟨by omega, by omega, by omega, fun hfit y hy x hx => within_bmpPixel _ _ ?_⟩
  rw [not_or, not_lt, not_lt] at hfit
  refine pixel_inside hx ?_ hsb ?_ hfit.1 hfit.2
  · split <;> omega
  · omega

theorem decodeBmp_writes {cap : ℕ} {z' : VelaImageInfo} {writes : List Write}
    (h : (decodeBmp b cap z).value = some (z', writes)) :
    z' = z ∧ z.width * z.height * 3 ≤ cap ∧ ∀ w ∈ writes, w.1 < z.width * z.height * 3 := by
  rw [decodeBmp, value_ite] at h
  split at h
  · cases h
  next hcap =>
    rw [value_bind, value_bind] at h
    have h := (guard_some h).2
    rw [value_bind, value_pure] at h
    have hr := Prod.mk.inj (Option.some.inj h)
    rw [← hr.2]
    refine ⟨hr.1.symm, not_lt.mp hcap, fun w hw => ?_⟩
    obtain ⟨y, hy, hw⟩ := mem_gather.mp hw
    obtain ⟨x, hx, hw⟩ := mem_gather.mp hw
    have hrow : y * z.width + z.width ≤ z.width * z.height := by
      calc y * z.width + z.width = z.width * (y + 1) := by ring
        _ ≤ z.width * z.height := Nat.mul_le_mul_left _ hy
    simp only [bmpPixel, value_bind, value_pure, List.mem_cons, List.not_mem_nil, or_false] at hw
    rcases hw with rfl | rfl | rfl <;> simp only <;> omega

theorem decodePpm_safe {p : ℕ} (cap : ℕ) (hz : (pp b).value = some (z, p)) :
    Within (· < b.len) (decodePpm b cap z p) := by
  have hlen := (pp_some hz).2
  rw [decodePpm, within_ite]
  refine ⟨fun _ => within_pure _ _, fun _ => ?_⟩
  simp only [within_bind, within_gather, within_read, within_pure, and_true]
  intro k hk
  omega

theorem decodePpm_writes {cap p : ℕ} {z' : VelaImageInfo} {writes : List Write}
    (h : (decodePpm b cap z p).value = some (z', writes)) :
    z' = z ∧ z.width * z.height * 3 ≤ cap ∧ ∀ w ∈ writes, w.1 < z.width * z.height * 3 := by
  rw [decodePpm, value_ite] at h
  split at h
  · cases h
  next hcap =>
    cases h
    refine ⟨rfl, not_lt.mp hcap, fun w hw => ?_⟩
    obtain ⟨k, hk, hw⟩ := mem_gather.mp hw
    simp only [value_bind, value_pure, List.mem_singleton] at hw
    rw [hw]
    exact hk

/-- Every byte that is read is in the file, and every byte that is written is in the picture, which has
room. -/
theorem vela_decode_safe (b : Buffer) (cap : ℕ) :
    Within (· < b.len) (velaImageDecodeRgb24 b cap) ∧
      ∀ z writes, (velaImageDecodeRgb24 b cap).value = some (z, writes) →
        z.width * z.height * 3 ≤ cap ∧ ∀ w ∈ writes, w.1 < z.width * z.height * 3 := by
  rw [velaImageDecodeRgb24, within_bind, value_bind]
  cases hz : (pb b).value with
  | some z =>
    refine ⟨⟨within_pb b, decodeBmp_safe cap hz⟩, fun z' writes h => ?_⟩
    obtain ⟨rfl, h⟩ := decodeBmp_writes h
    exact h
  | none =>
    show (Within _ (pb b) ∧ Within _ (pp b >>= _)) ∧ ∀ z writes, (pp b >>= _).value = _ → _
    rw [within_bind, value_bind]
    cases hq : (pp b).value with
    | none => exact ⟨⟨within_pb b, within_pp b, within_pure _ _⟩, fun _ _ h => nomatch h⟩
    | some q =>
      obtain ⟨z, p⟩ := q
      refine ⟨⟨within_pb b, within_pp b, decodePpm_safe cap hq⟩, fun z' writes h => ?_⟩
      obtain ⟨rfl, h⟩ := decodePpm_writes h
      exact h

end

end Orion.Vela.Image
