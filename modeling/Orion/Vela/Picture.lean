import Orion.Vela.Image

/-!
# Pictures and their files

A picture is its bytes, three a pixel, row after row from the top.  `BmpFormat.encode` writes it as an
uncompressed bitmap, with everything that a bitmap leaves open (the order of the rows, a fourth byte a
pixel, the padding of a row, what stands before and behind the pixels) as data of the format, and
`PpmFormat.encode` as a binary pixmap.  What is decoded from the files are the bytes of the picture.
-/

namespace Orion.Vela.Image

open Orion.Traced

/-! ## Pictures -/

structure Picture where
  width : ℕ
  height : ℕ
  rgb : List UInt8
  width_range : 0 < width ∧ width ≤ 320
  height_range : 0 < height ∧ height ≤ 240
  length_rgb : rgb.length = width * height * 3

namespace Picture

def info (q : Picture) : VelaImageInfo := ⟨q.width, q.height, 3⟩

@[simp] theorem info_width (q : Picture) : q.info.width = q.width := rfl

@[simp] theorem info_height (q : Picture) : q.info.height = q.height := rfl

def sample (q : Picture) (i : ℕ) : UInt8 := q.rgb.getD i 0

/-- Every byte of the picture, written to its place. -/
def writes (q : Picture) : List Write := chunks (q.width * q.height * 3) fun i => [(i, q.sample i)]

/-- The writes, pixel by pixel of every row. -/
theorem writes_eq (q : Picture) :
    q.writes = chunks q.height fun y => chunks q.width fun x => chunks 3 fun j =>
      [((y * q.width + x) * 3 + j, q.sample ((y * q.width + x) * 3 + j))] := by
  let cell : ℕ → List Write := fun i => [(i, q.sample i)]
  have hpixels := chunks_grid (fun i => chunks 3 fun j => cell (i * 3 + j)) q.height q.width
  rw [chunks_grid cell, Nat.mul_comm q.height] at hpixels
  exact hpixels.symm

end Picture

/-- Writing the first bytes in order. -/
theorem written_chunks (old g : ℕ → UInt8) (n i : ℕ) :
    written old (chunks n fun i => [(i, g i)]) i = if i < n then g i else old i := by
  induction n with
  | zero => rw [if_neg (Nat.not_lt_zero i)]; rfl
  | succ n ih =>
    have hstep : written old (chunks (n + 1) fun i => [(i, g i)]) =
        Function.update (written old (chunks n fun i => [(i, g i)])) n (g n) := by
      rw [chunks_succ, written, List.foldl_append]
      rfl
    rw [hstep]
    by_cases hi : i = n
    · rw [hi, Function.update_self, if_pos (Nat.lt_succ_self n)]
    · rw [Function.update_of_ne hi, ih]
      exact if_congr (by omega) rfl rfl

/-- The buffer holds a file. -/
def Holds (b : Buffer) (file : List UInt8) : Prop := (List.range b.len).map b.mem = file

theorem Holds.length {b : Buffer} {file : List UInt8} (h : Holds b file) : b.len = file.length := by
  rw [← h, List.length_map, List.length_range]

theorem Holds.mem {b : Buffer} {file : List UInt8} (h : Holds b file) {i : ℕ} {c : UInt8}
    (hc : file[i]? = some c) : b.mem i = c := by
  rw [← h, List.getElem?_map, Option.map_eq_some_iff] at hc
  obtain ⟨j, hj, hc⟩ := hc
  rw [List.getElem?_eq_some_iff] at hj
  obtain ⟨_, hj⟩ := hj
  rw [List.getElem_range] at hj
  rw [hj, hc]

/-- From `p` on the memory holds the bytes. -/
def At (b : Buffer) (p : ℕ) (bytes : List UInt8) : Prop :=
  ∀ i c, bytes[i]? = some c → b.mem (p + i) = c

theorem Holds.at {b : Buffer} {file : List UInt8} (h : Holds b file) : At b 0 file := by
  intro i c hc
  rw [Nat.zero_add]
  exact h.mem hc

theorem at_append {b : Buffer} {p : ℕ} {x y : List UInt8} :
    At b p (x ++ y) ↔ At b p x ∧ At b (p + x.length) y := by
  constructor
  · intro h
    refine ⟨fun i c hc => h i c ?_, fun i c hc => ?_⟩
    · rw [List.getElem?_append_left (List.getElem?_eq_some_iff.mp hc).1]
      exact hc
    · rw [Nat.add_assoc]
      apply h
      rw [List.getElem?_append_right (Nat.le_add_right _ _), Nat.add_sub_cancel_left]
      exact hc
  · rintro ⟨hx, hy⟩ i c hc
    rcases Nat.lt_or_ge i x.length with hi | hi
    · rw [List.getElem?_append_left hi] at hc
      exact hx i c hc
    · rw [List.getElem?_append_right hi] at hc
      have := hy _ c hc
      rwa [Nat.add_assoc, Nat.add_sub_cancel' hi] at this

theorem at_cons {b : Buffer} {p : ℕ} {c : UInt8} {s : List UInt8} :
    At b p (c :: s) ↔ b.mem p = c ∧ At b (p + 1) s := by
  have hone : At b p [c] ↔ b.mem p = c := by
    constructor
    · exact fun h => h 0 c rfl
    · intro h i d hd
      obtain ⟨hi, hd⟩ := List.getElem?_eq_some_iff.mp hd
      rw [List.length_singleton, Nat.lt_one_iff] at hi
      subst hi
      exact h.trans hd
  rw [← hone]
  exact at_append (x := [c])

/-- What is left of the file from `p` on. -/
structure Rest (b : Buffer) (p : ℕ) (s : List UInt8) : Prop where
  bytes : At b p s
  length : p + s.length = b.len

theorem Holds.rest {b : Buffer} {file : List UInt8} (h : Holds b file) : Rest b 0 file :=
  ⟨h.at, by rw [Nat.zero_add, h.length]⟩

theorem Rest.append {b : Buffer} {p : ℕ} {x y : List UInt8} (h : Rest b p (x ++ y)) :
    Rest b (p + x.length) y := by
  have hlen := h.length
  rw [List.length_append, ← Nat.add_assoc] at hlen
  exact ⟨(at_append.mp h.bytes).2, hlen⟩

theorem Rest.cons {b : Buffer} {p : ℕ} {c : UInt8} {s : List UInt8} (h : Rest b p (c :: s)) :
    p < b.len ∧ b.mem p = c ∧ Rest b (p + 1) s := by
  have hlen := h.length
  rw [List.length_cons] at hlen
  obtain ⟨hc, hs⟩ := at_cons.mp h.bytes
  exact ⟨by omega, hc, hs, by omega⟩

/-! ## Little-endian fields -/

def byte (n i : ℕ) : UInt8 := UInt8.ofNat (n / 2 ^ (8 * i))

def bytes16 (n : ℕ) : List UInt8 := [byte n 0, byte n 1]

def bytes32 (n : ℕ) : List UInt8 := [byte n 0, byte n 1, byte n 2, byte n 3]

theorem length_bytes16 (n : ℕ) : (bytes16 n).length = 2 := rfl

theorem length_bytes32 (n : ℕ) : (bytes32 n).length = 4 := rfl

theorem At.le16 {b : Buffer} {p n : ℕ} (h : At b p (bytes16 n)) (hn : n < 2 ^ 16) :
    (le16 b.mem p).value = n := by
  have h0 : b.mem p = _ := h 0 _ rfl
  have h1 : b.mem (p + 1) = _ := h 1 _ rfl
  simp only [Image.le16, value_bind, value_read, value_pure, h0, h1, byte, UInt8.toNat_ofNat']
  omega

theorem At.le32 {b : Buffer} {p n : ℕ} (h : At b p (bytes32 n)) (hn : n < 2 ^ 32) :
    (le32 b.mem p).value = n := by
  have h0 : b.mem p = _ := h 0 _ rfl
  have h1 : b.mem (p + 1) = _ := h 1 _ rfl
  have h2 : b.mem (p + 2) = _ := h 2 _ rfl
  have h3 : b.mem (p + 3) = _ := h 3 _ rfl
  simp only [Image.le32, value_bind, value_read, value_pure, h0, h1, h2, h3, byte, UInt8.toNat_ofNat']
  omega

theorem At.les32 {b : Buffer} {p n : ℕ} (h : At b p (bytes32 n)) (hn : n < 2 ^ 32) :
    (les32 b.mem p).value = signed32 n := by
  rw [Image.les32, value_bind, value_pure, h.le32 hn]

/-! ## Bitmaps -/

/-- What a bitmap leaves open. -/
structure BmpFormat where
  deep : Bool
  topDown : Bool
  fileSize : ℕ
  reserved : ℕ
  headerSize : ℕ
  imageSize : ℕ
  xPerMeter : ℕ
  yPerMeter : ℕ
  colors : ℕ
  important : ℕ
  /-- what stands between the header and the pixels -/
  gap : List UInt8
  alpha : ℕ → UInt8
  pad : ℕ → ℕ → UInt8
  tail : List UInt8
  headerSize_range : 40 ≤ headerSize ∧ headerSize < 2 ^ 32
  gap_lt : 54 + gap.length < 2 ^ 32

namespace BmpFormat

variable (f : BmpFormat) (q : Picture)

def size : ℕ := if f.deep then 4 else 3

/-- Rows are padded to four bytes. -/
def stride : ℕ := (q.width * f.size + 3) / 4 * 4

def offset : ℕ := 54 + f.gap.length

def heightField : ℕ := if f.topDown then 2 ^ 32 - q.height else q.height

def header : List UInt8 :=
  [66, 77] ++ bytes32 f.fileSize ++ bytes32 f.reserved ++ bytes32 f.offset ++ bytes32 f.headerSize ++
    bytes32 q.width ++ bytes32 (f.heightField q) ++ bytes16 1 ++ bytes16 (8 * f.size) ++ bytes32 0 ++
    bytes32 f.imageSize ++ bytes32 f.xPerMeter ++ bytes32 f.yPerMeter ++ bytes32 f.colors ++
    bytes32 f.important

/-- The `i`-th pixel: blue, green, red. -/
def pixel (i : ℕ) : List UInt8 :=
  [q.sample (i * 3 + 2), q.sample (i * 3 + 1), q.sample (i * 3)] ++ if f.deep then [f.alpha i] else []

/-- The row `y` of the picture. -/
def row (y : ℕ) : List UInt8 :=
  (chunks q.width fun x => f.pixel q (y * q.width + x)) ++
    (List.range (f.stride q - q.width * f.size)).map (f.pad y)

/-- The row of the picture that is the `k`-th of the file, and the other way round. -/
def flip (k : ℕ) : ℕ := if f.topDown then k else q.height - 1 - k

def rows : List UInt8 := chunks q.height fun k => f.row q (f.flip q k)

def encode : List UInt8 := f.header q ++ (f.gap ++ (f.rows q ++ f.tail))

theorem length_pixel (i : ℕ) : (f.pixel q i).length = f.size := by
  rw [pixel, size]
  split <;> rfl

theorem length_row (y : ℕ) : (f.row q y).length = f.stride q := by
  have hle : q.width * f.size ≤ f.stride q := by
    rw [stride]
    omega
  rw [row, List.length_append, length_chunks (fun x => f.length_pixel q _), List.length_map,
    List.length_range]
  omega

theorem length_rows : (f.rows q).length = q.height * f.stride q :=
  length_chunks (fun _ => f.length_row q _) _

theorem length_header : (f.header q).length = 54 := by
  simp only [header, List.length_append, length_bytes16, length_bytes32, List.length_cons, List.length_nil]

theorem length_encode : (f.encode q).length = f.offset + q.height * f.stride q + f.tail.length := by
  rw [encode, List.length_append, List.length_append, List.length_append, length_header, length_rows,
    offset]
  omega

variable {f q} {b : Buffer} (hb : Holds b (f.encode q))

include hb

theorem at_fields :
    At b 0 [66, 77] ∧ At b 10 (bytes32 f.offset) ∧ At b 14 (bytes32 f.headerSize) ∧
      At b 18 (bytes32 q.width) ∧ At b 22 (bytes32 (f.heightField q)) ∧ At b 26 (bytes16 1) ∧
      At b 28 (bytes16 (8 * f.size)) ∧ At b 30 (bytes32 0) ∧ At b f.offset (f.rows q) := by
  have h := hb.at
  simp only [encode, header, at_append, List.length_append, length_bytes16, length_bytes32,
    List.length_cons, List.length_nil, Nat.zero_add, Nat.reduceAdd] at h
  obtain ⟨⟨⟨⟨⟨⟨⟨⟨⟨⟨⟨⟨⟨⟨⟨hmagic, -⟩, -⟩, hoffset⟩, hsize⟩, hwidth⟩, hheight⟩, hplanes⟩, hbits⟩, hcompression⟩,
    -⟩, -⟩, -⟩, -⟩, -⟩, -, hrows, -⟩ := h
  exact ⟨hmagic, hoffset, hsize, hwidth, hheight, hplanes, hbits, hcompression, hrows⟩

/-- The place of a sample in the file. -/
theorem pixel_mem {y x j : ℕ} (hy : y < q.height) (hx : x < q.width) (hj : j < 3) :
    b.mem (f.offset + f.flip q y * f.stride q + x * f.size + j) =
      q.sample ((y * q.width + x) * 3 + 2 - j) := by
  obtain ⟨-, -, -, -, -, -, -, -, hrows⟩ := at_fields hb
  have hk : f.flip q y < q.height := by
    rw [flip]
    split <;> omega
  have hflip : f.flip q (f.flip q y) = y := by
    rw [flip, flip]
    split <;> omega
  have hsize : 3 ≤ f.size := by
    rw [size]
    split <;> omega
  have hin : (x + 1) * f.size ≤ q.width * f.size := Nat.mul_le_mul_right _ hx
  have hstride : q.width * f.size ≤ f.stride q := by
    rw [stride]
    omega
  rw [Nat.add_mul, Nat.one_mul] at hin
  rw [Nat.add_assoc, Nat.add_assoc]
  apply hrows
  rw [rows, getElem?_chunks (fun _ => f.length_row q _) hk (by omega), hflip, row,
    List.getElem?_append_left (by rw [length_chunks (fun x => f.length_pixel q _)]; omega),
    getElem?_chunks (fun x => f.length_pixel q _) hx (by omega), pixel]
  rcases (by omega : j = 0 ∨ j = 1 ∨ j = 2) with rfl | rfl | rfl <;> rfl

theorem value_offset : (le32 b.mem 10).value = f.offset := by
  obtain ⟨-, h, -⟩ := at_fields hb
  exact h.le32 f.gap_lt

theorem value_width : (les32 b.mem 18).value = q.width := by
  obtain ⟨-, -, -, h, -⟩ := at_fields hb
  have hw := q.width_range
  rw [h.les32 (by omega), signed32, if_pos (by omega)]

theorem value_height : (les32 b.mem 22).value = if f.topDown then -(q.height : ℤ) else q.height := by
  obtain ⟨-, -, -, -, h, -⟩ := at_fields hb
  have hh := q.height_range
  have hlt : f.heightField q < 2 ^ 32 := by
    rw [heightField]
    split <;> omega
  rw [h.les32 hlt, signed32, heightField]
  cases f.topDown <;> simp <;> omega

theorem value_bits : (le16 b.mem 28).value = 8 * f.size := by
  obtain ⟨-, -, -, -, -, -, h, -⟩ := at_fields hb
  have hsize : f.size ≤ 4 := by
    rw [size]
    split <;> omega
  exact h.le16 (by omega)

theorem value_pb : (pb b).value = some q.info := by
  have hw := q.width_range
  have hh := q.height_range
  have hheader := f.headerSize_range
  have hlen := hb.length
  rw [length_encode, offset] at hlen
  obtain ⟨hmagic, -, hsize, -, -, hplanes, -, hcompression, -⟩ := at_fields hb
  have h0 : b.mem 0 = 66 := hmagic 0 _ rfl
  have h1 : b.mem 1 = 77 := hmagic 1 _ rfl
  have hvw := value_width hb
  have hvh := value_height hb
  have hne : (les32 b.mem 22).value ≠ 0 := by
    rw [hvh]
    split <;> omega
  have habs : (les32 b.mem 22).value.natAbs = q.height := by
    rw [hvh]
    split <;> simp
  have hbits : (le16 b.mem 28).value = 24 ∨ (le16 b.mem 28).value = 32 := by
    rw [value_bits hb, size]
    split <;> omega
  rw [pb, value_ite, if_neg (by omega)]
  refine guard_some_iff.mpr ⟨not_not.mpr h0, guard_some_iff.mpr ⟨not_not.mpr h1,
    guard_some_iff.mpr ⟨?_, ?_⟩⟩⟩
  · rw [hsize.le32 hheader.2]
    omega
  rw [value_bind, value_bind]
  refine guard_some_iff.mpr ⟨?_, guard_some_iff.mpr ⟨?_, guard_some_iff.mpr ⟨?_, ?_⟩⟩⟩
  · rw [hvw, not_or]
    exact ⟨by omega, hne⟩
  · rw [hplanes.le16 (by omega), not_or]
    exact ⟨by omega, fun h => hbits.elim h.1 h.2⟩
  · rw [hcompression.le32 (by omega), hvw, habs, Int.toNat_natCast]
    clear hvw hvh hne habs hbits
    omega
  · rw [value_pure, hvw, habs, Int.toNat_natCast]
    rfl

/-- What is decoded from a bitmap. -/
theorem decode_encode {cap : ℕ} (hcap : q.width * q.height * 3 ≤ cap) :
    (velaImageDecodeRgb24 b cap).value = some (q.info, q.writes) := by
  have hh := q.height_range
  have hlen := hb.length
  rw [length_encode] at hlen
  rw [velaImageDecodeRgb24, value_bind, value_pb hb]
  show (decodeBmp b cap q.info).value = _
  rw [decodeBmp, value_ite, q.info_width, q.info_height, if_neg (not_lt.mpr hcap), value_bind, value_bind]
  refine guard_some_iff.mpr ⟨?_, ?_⟩
  · rw [value_offset hb, value_bits hb, Nat.mul_div_cancel_left _ (by decide), not_or, not_lt, not_lt,
      Nat.le_div_iff_mul_le hh.1]
    show f.offset ≤ b.len ∧ f.stride q * q.height ≤ b.len - f.offset
    rw [Nat.mul_comm]
    omega
  rw [value_bind, value_pure, value_offset hb, value_bits hb, Nat.mul_div_cancel_left _ (by decide),
    q.writes_eq]
  refine congrArg some (Prod.ext rfl (chunks_congr fun y hy => chunks_congr fun x hx => ?_))
  have hsame : (if (les32 b.mem 22).value > 0 then q.height - 1 - y else y) = f.flip q y := by
    rw [value_height hb, flip]
    cases f.topDown
    · simp [hh.1]
    · simp
  have hplace : y * q.width * 3 + x * 3 = (y * q.width + x) * 3 := by ring
  have hred := pixel_mem hb hy hx (by omega : 2 < 3)
  have hgreen := pixel_mem hb hy hx (by omega : 1 < 3)
  have hblue := pixel_mem hb hy hx (by omega : 0 < 3)
  rw [Nat.add_zero] at hblue
  rw [hsame]
  show [(y * q.width * 3 + x * 3, b.mem (f.offset + f.flip q y * f.stride q + x * f.size + 2)),
      (y * q.width * 3 + x * 3 + 1, b.mem (f.offset + f.flip q y * f.stride q + x * f.size + 1)),
      (y * q.width * 3 + x * 3 + 2, b.mem (f.offset + f.flip q y * f.stride q + x * f.size))] = _
  rw [hred, hgreen, hblue, hplace]
  rfl

end BmpFormat

/-! ## Pixmaps -/

/-- A number in the header of a pixmap, with the blanks in front of it. -/
structure Field (n : ℕ) where
  blanks : List UInt8
  digits : List UInt8
  blanks_ne : blanks ≠ []
  blanks_sp : ∀ c ∈ blanks, sp c = true
  numeral : IsNumeral decDigit 10 digits n

def Field.bytes {n : ℕ} (t : Field n) : List UInt8 := t.blanks ++ t.digits

/-- What a pixmap leaves open. -/
structure PpmFormat (q : Picture) where
  width : Field q.width
  height : Field q.height
  maxval : Field 255
  tail : List UInt8

/-- The header ends in one line feed. -/
def PpmFormat.encode {q : Picture} (f : PpmFormat q) : List UInt8 :=
  [80, 54] ++ (f.width.bytes ++ (f.height.bytes ++ (f.maxval.bytes ++ ([10] ++ (q.rgb ++ f.tail)))))

section

variable {b : Buffer}

theorem value_skipSp {s : List UInt8} : ∀ {fuel p : ℕ}, Rest b p s → s.length ≤ fuel →
    (skipSp b fuel p).value = p + (s.takeWhile sp).length := by
  induction s with
  | nil =>
    intro fuel p hs hfuel
    have hlen := hs.length
    cases fuel with
    | zero => rfl
    | succ fuel =>
      rw [skipSp, if_neg (by simp at hlen; omega)]
      rfl
  | cons c s ih =>
    intro fuel p hs hfuel
    obtain ⟨hp, hc, hrest⟩ := hs.cons
    rw [List.length_cons] at hfuel
    obtain ⟨fuel, rfl⟩ : ∃ k, fuel = k + 1 := ⟨fuel - 1, by omega⟩
    rw [skipSp, if_pos hp, value_bind, value_read, hc, List.takeWhile_cons, value_ite]
    by_cases hsp : sp c = true
    · rw [if_pos hsp, if_pos hsp, ih hrest (by omega), List.length_cons]
      omega
    · rw [if_neg hsp, if_neg hsp]
      rfl

/-- The loop over digits reads a number. -/
theorem value_numLoop {p : ℕ} {s : List UInt8} : ∀ {fuel n v : ℕ}, Rest b (p + n) s → s.length ≤ fuel →
    (numLoop b fuel (p + n) v).value =
      (takeNumber decDigit 10 8192 s v n).map fun r => (r.1, p + r.2.1) := by
  induction s with
  | nil =>
    intro fuel n v hs hfuel
    have hlen := hs.length
    cases fuel with
    | zero => rfl
    | succ fuel =>
      rw [numLoop, if_neg (by simp at hlen; omega)]
      rfl
  | cons c s ih =>
    intro fuel n v hs hfuel
    obtain ⟨hp, hc, hrest⟩ := hs.cons
    rw [List.length_cons] at hfuel
    obtain ⟨fuel, rfl⟩ : ∃ k, fuel = k + 1 := ⟨fuel - 1, by omega⟩
    rw [numLoop, if_pos hp, value_bind, value_read, hc, takeNumber, decDigit, value_ite]
    by_cases hd : isDigit c = true
    · rw [if_pos hd, if_pos (show dg c = true from hd), value_ite]
      show (if v * 10 + digitVal c > 8192 then _ else _) =
        Option.map _ (if v * 10 + digitVal c > 8192 then none else _)
      split
      · rfl
      · exact ih (n := n + 1) hrest (by omega)
    · rw [if_neg hd, if_neg (show ¬ dg c = true from hd)]
      rfl

theorem Field.digits_head {n : ℕ} (t : Field n) : ∃ c s, t.digits = c :: s ∧ isDigit c = true := by
  obtain ⟨hne, ds, hds, -⟩ := t.numeral
  cases hdigits : t.digits with
  | nil => exact absurd hdigits hne
  | cons c s =>
    rw [hdigits] at hds
    cases ds with
    | nil => cases hds
    | cons d ds =>
      rw [List.map_cons, List.map_cons, List.cons.injEq] at hds
      refine ⟨c, s, rfl, ?_⟩
      by_contra hd
      rw [decDigit, if_neg hd] at hds
      cases hds.1

theorem sp_of_isDigit {c : UInt8} (h : isDigit c = true) : sp c = false := by
  by_contra hsp
  rw [Bool.not_eq_false] at hsp
  simp only [sp, Bool.or_eq_true, decide_eq_true_eq] at hsp
  rcases hsp with ((rfl | rfl) | rfl) | rfl <;> cases h

theorem decDigit_of_sp {c : UInt8} (h : sp c = true) : decDigit c = none := by
  rw [decDigit, if_neg]
  intro hd
  rw [sp_of_isDigit hd] at h
  cases h

/-- A field begins with a blank. -/
theorem Field.head {n : ℕ} (t : Field n) (rest : List UInt8) :
    ∃ c s, t.bytes ++ rest = c :: s ∧ sp c = true := by
  obtain ⟨c, s, hblanks⟩ := List.exists_cons_of_ne_nil t.blanks_ne
  refine ⟨c, s ++ (t.digits ++ rest), ?_, t.blanks_sp c (by rw [hblanks]; exact List.mem_cons_self)⟩
  rw [Field.bytes, hblanks, List.append_assoc, List.cons_append]

theorem Field.head_digit {n : ℕ} (t : Field n) (rest : List UInt8) :
    ∀ c ∈ (t.bytes ++ rest).head?, decDigit c = none := by
  obtain ⟨c, s, hbytes, hc⟩ := t.head rest
  rw [hbytes]
  rintro d ⟨⟩
  exact decDigit_of_sp hc

theorem value_num {p n : ℕ} (t : Field n) {rest : List UInt8} (h : Rest b p (t.bytes ++ rest))
    (hn : n ≤ 8192) (hrest : ∀ c ∈ rest.head?, decDigit c = none) :
    (num b p).value = some (n, p + t.bytes.length) := by
  obtain ⟨c, s, hdigits, hc⟩ := t.digits_head
  rw [Field.bytes, List.append_assoc] at h
  have hlen := h.length
  have hskip : (skipSp b b.len p).value = p + t.blanks.length := by
    rw [value_skipSp h (by omega), takeWhile_append_stop t.blanks_sp]
    rw [hdigits]
    rintro d ⟨⟩
    exact sp_of_isDigit hc
  have hnumber := h.append
  have hlen' := hnumber.length
  have hloop := value_numLoop (p := p + t.blanks.length) (n := 0) (v := 0) hnumber
    (show _ ≤ b.len by omega)
  rw [takeNumber_numeral rest (by decide) t.numeral hn hrest, Nat.add_zero] at hloop
  rw [hdigits] at hnumber
  obtain ⟨hp, hmem, -⟩ := hnumber.cons
  rw [num, value_bind, hskip, value_ite, if_pos hp, value_bind, value_read, hmem, value_ite,
    if_pos (show dg c = true from hc), hloop, Field.bytes, List.length_append, ← Nat.add_assoc]
  rfl

theorem value_payload {p : ℕ} {rest : List UInt8} (h : Rest b p (10 :: rest)) :
    (payload b p).value = some (p + 1) := by
  obtain ⟨hp, hc, -⟩ := h.cons
  rw [payload, value_ite, if_neg (by omega), value_bind, value_read, hc]
  rfl

variable {q : Picture} {f : PpmFormat q} (hb : Holds b f.encode)

include hb

/-- The header of a pixmap is read, and its bytes begin behind the line feed. -/
theorem value_pp : ∃ p, (pp b).value = some (q.info, p) ∧ At b p q.rgb := by
  have hw := q.width_range
  have hh := q.height_range
  have hfile := hb.rest
  rw [PpmFormat.encode, List.cons_append, List.cons_append, List.nil_append] at hfile
  obtain ⟨-, h0, hmagic⟩ := hfile.cons
  obtain ⟨-, h1, hwidth⟩ := hmagic.cons
  have hheight := hwidth.append
  have hmaxval := hheight.append
  have hfeed := hmaxval.append
  have hrgb := hfeed.append
  have hlen := hrgb.length
  rw [List.length_append, q.length_rgb, List.length_singleton] at hlen
  have h2 : sp (b.mem 2) = true := by
    obtain ⟨c, s, hbytes, hc⟩ := f.width.head _
    rw [hbytes] at hwidth
    obtain ⟨-, hmem, -⟩ := hwidth.cons
    rw [hmem]
    exact hc
  have hnum1 := value_num f.width hwidth (by omega) (f.height.head_digit _)
  have hnum2 := value_num f.height hheight (by omega) (f.maxval.head_digit _)
  have hnum3 := value_num f.maxval hmaxval (by omega) fun c hc => by cases hc; rfl
  refine ⟨_, ?_, (at_append.mp hrgb.bytes).1⟩
  rw [pp, value_ite, if_neg (by omega)]
  refine guard_some_iff.mpr ⟨not_not.mpr h0, guard_some_iff.mpr ⟨not_not.mpr h1,
    guard_some_iff.mpr ⟨by rw [value_read, h2]; exact Bool.noConfusion, ?_⟩⟩⟩
  rw [value_bind, hnum1]
  show (num b _ >>= _).value = _
  rw [value_bind, hnum2]
  show (num b _ >>= _).value = _
  rw [value_bind, hnum3]
  show (ite _ _ _ : Traced ℕ _).value = _
  rw [value_ite, if_neg (by omega), value_bind, value_payload hfeed]
  show (ite _ _ _ : Traced ℕ _).value = _
  rw [value_ite, if_neg (by omega)]
  rfl

/-- What is decoded from a pixmap. -/
theorem PpmFormat.decode_encode {cap : ℕ} (hcap : q.width * q.height * 3 ≤ cap) :
    (velaImageDecodeRgb24 b cap).value = some (q.info, q.writes) := by
  obtain ⟨p, hpp, hrgb⟩ := value_pp hb
  have h0 : b.mem 0 = 80 := hb.at 0 _ rfl
  have hpb : (pb b).value = none := by
    rw [pb, value_ite, value_bind, value_read, h0]
    split <;> rfl
  rw [velaImageDecodeRgb24, value_bind, hpb]
  show (pp b >>= _).value = _
  rw [value_bind, hpp]
  show (decodePpm b cap q.info p).value = _
  rw [decodePpm, value_ite, q.info_width, q.info_height, if_neg (not_lt.mpr hcap), value_bind, value_pure]
  refine congrArg some (Prod.ext rfl (chunks_congr fun k hk => ?_))
  rw [value_bind, value_read, value_pure]
  have hk' : k < q.rgb.length := by
    rw [q.length_rgb]
    exact hk
  rw [hrgb k _ (List.getElem?_eq_getElem hk'), Picture.sample, List.getD_eq_getElem?_getD,
    List.getElem?_eq_getElem hk', Option.getD_some]

end

/-! ## The decoder -/

/-- The decoder reads the file only, writes the picture only, and gets the picture back from either kind
of file. -/
theorem vela_image_decode :
    (∀ (b : Buffer) (cap : ℕ), Within (· < b.len) (velaImageDecodeRgb24 b cap) ∧
      ∀ z writes, (velaImageDecodeRgb24 b cap).value = some (z, writes) →
        3 * z.width * z.height ≤ cap ∧ ∀ w ∈ writes, w.1 < 3 * z.width * z.height) ∧
    (∀ (q : Picture) (b : Buffer) (cap : ℕ),
      ((∃ f : BmpFormat, Holds b (f.encode q)) ∨ ∃ f : PpmFormat q, Holds b f.encode) →
      3 * q.width * q.height ≤ cap →
        ∃ writes, (velaImageDecodeRgb24 b cap).value = some (⟨q.width, q.height, 3⟩, writes) ∧
          ∀ (rgb : ℕ → UInt8) (i : ℕ),
            written rgb writes i = if i < 3 * q.width * q.height then q.rgb.getD i 0 else rgb i) := by
  have hsize : ∀ w h : ℕ, 3 * w * h = w * h * 3 := fun w h => by ring
  simp only [hsize]
  refine ⟨vela_decode_safe, fun q b cap hfile hcap => ⟨q.writes, ?_, fun rgb i => written_chunks _ _ _ _⟩⟩
  rcases hfile with ⟨f, hf⟩ | ⟨f, hf⟩
  · exact BmpFormat.decode_encode hf hcap
  · exact PpmFormat.decode_encode hf hcap

/-- Three pixels wide and two high, with the bytes from 0 on. -/
def sixPixels : Picture :=
  ⟨3, 2, (List.range 18).map UInt8.ofNat, by decide, by decide, by decide⟩

/-- The header has 52 bytes, the last twelve of which are not read.  The lower row is the first one, and
three bytes follow each row. -/
def sixPixelFile : List UInt8 :=
  [66, 77, 90, 0, 0, 0, 0, 0, 0, 0, 66, 0, 0, 0, 52, 0, 0, 0, 3, 0, 0, 0, 2, 0, 0, 0, 1, 0, 24, 0, 0, 0, 0, 0,
    24, 0, 0, 0, 0, 0, 0, 0, 0, 0, 0, 0, 0, 0, 0, 0, 0, 0, 0, 0,
    0, 0, 255, 0, 0, 255, 0, 0, 255, 0, 0, 0,
    11, 10, 9, 14, 13, 12, 17, 16, 15, 170, 170, 170,
    2, 1, 0, 5, 4, 3, 8, 7, 6, 170, 170, 170]

def sixPixelFormat : BmpFormat :=
  ⟨false, false, 90, 0, 52, 24, 0, 0, 0, 0, [0, 0, 255, 0, 0, 255, 0, 0, 255, 0, 0, 0], fun _ => 0,
    fun _ _ => 170, [], by decide, by decide⟩

theorem vela_image_decode_sixPixels :
    ∃ writes, (velaImageDecodeRgb24 (Buffer.ofBytes sixPixelFile) 18).value = some (⟨3, 2, 3⟩, writes) ∧
      ∀ (rgb : ℕ → UInt8) (i : ℕ), written rgb writes i = if i < 18 then sixPixels.rgb.getD i 0 else rgb i := by
  have hfile : Holds (Buffer.ofBytes sixPixelFile) (sixPixelFormat.encode sixPixels) := by
    unfold Holds
    decide
  exact vela_image_decode.2 sixPixels (Buffer.ofBytes sixPixelFile) 18 (.inl ⟨sixPixelFormat, hfile⟩) (by decide)

/-- A pixmap of one pixel. -/
example :
    (velaImageDecodeRgb24
      (Buffer.ofBytes ([80, 54, 10, 49, 32, 49, 10, 50, 53, 53, 10] ++ [7, 8, 9])) 3).value =
    some (⟨1, 1, 3⟩, [(0, 7), (1, 8), (2, 9)]) := by decide

end Orion.Vela.Image
