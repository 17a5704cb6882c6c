import Orion.Disk.Mkiso

/-!
# Reading the install medium

A reader of ISO 9660 discs: the volume descriptor, the directory, the files by their names, and the boot
entry of the El Torito catalog.  Numbers are stored twice, with the low byte and with the high byte first,
and the reader insists that both say the same.

* `records_dirrec` — a directory record is read back;
* `iso_round_trip` — every disc that the builder makes is read back, and it makes one of every image that
  a file of the disc can hold.
-/

namespace Orion.Disk.Iso

open Orion.Lib Orion.Disk.Mkiso
open Orion.Disk.Mkfat (packH packI ceilDiv)

/-! ## The reader -/

/-- A number with its low byte first. -/
def leNat : List UInt8 → ℕ
  | [] => 0
  | b :: bs => b.toNat + 256 * leNat bs

def slice (b : List UInt8) (off n : ℕ) : List UInt8 := (b.drop off).take n

/-- A number in both orders. -/
def both (b : List UInt8) (off n : ℕ) : Option ℕ :=
  if (slice b (off + n) n).reverse = slice b off n then some (leNat (slice b off n)) else none

def sector (disc : List UInt8) (lba : ℕ) : List UInt8 := slice disc (lba * bs) bs

structure Record where
  lba : ℕ
  size : ℕ
  flags : UInt8
  name : List UInt8
  deriving Repr, DecidableEq

/-- The records of a sector; a length of zero ends them. -/
def records : ℕ → List UInt8 → Option (List Record)
  | 0, _ => some []
  | fuel + 1, b => do
    let n := (b.getD 0 0).toNat
    let len := (b.getD 32 0).toNat
    if n = 0 then some []
    else if b.length < n ∨ n < 33 + len then none
    else
      let lba ← both b 2 4
      let size ← both b 10 4
      let rest ← records fuel (b.drop n)
      return ⟨lba, size, b.getD 25 0, slice b 33 len⟩ :: rest

/-- The root directory that the volume descriptor names, and the sectors of the volume. -/
def volume (disc : List UInt8) : Option (ℕ × Record) := do
  let v := sector disc 16
  if slice v 0 7 ≠ 1 :: cd001 ++ [1] then none
  else
    let block ← both v 128 2
    let space ← both v 80 4
    let root ← records 1 (slice v 156 34)
    match root with
    | [r] => if block = bs ∧ r.flags = 2 then some (space, r) else none
    | _ => none

/-- A directory of one sector. -/
def directory (disc : List UInt8) : Option (List Record) := do
  let (_, r) ← volume disc
  if r.size = bs then records bs (sector disc r.lba) else none

def file (disc : List UInt8) (name : List UInt8) : Option (List UInt8) := do
  let dir ← directory disc
  let r ← dir.find? fun r => r.name = name
  return slice disc (r.lba * bs) r.size

/-- The volume from the boot entry on, for the platform of the catalog. -/
def bootImage (disc : List UInt8) : Option (UInt8 × List UInt8) := do
  let (space, _) ← volume disc
  let b := sector disc 17
  if slice b 0 7 ≠ 0 :: cd001 ++ [1] ∨ slice b 7 23 ≠ ascii "EL TORITO SPECIFICATION" then none
  else
    let c := sector disc (leNat (slice b 71 4))
    if c.getD 0 0 ≠ 1 ∨ slice c 30 2 ≠ [0x55, 0xAA] ∨ sumLittle (slice c 0 32) % 65536 ≠ 0 ∨ c.getD 32 0 ≠ 0x88 then
      none
    else
      let lba := leNat (slice c 40 4)
      return (c.getD 1 0, slice disc (lba * bs) ((space - lba) * bs))

/-! ## Numbers -/

theorem leNat_packI {v : ℕ} (h : v < 2 ^ 32) : leNat (packI v) = v := by
  simp only [leNat, packI, UInt8.toNat_ofNat']
  omega

theorem leNat_packH {v : ℕ} (h : v < 2 ^ 16) : leNat (packH v) = v := by
  simp only [leNat, packH, UInt8.toNat_ofNat']
  omega

/-- What a field of both orders holds. -/
theorem both_eq {b p : List UInt8} {off n v : ℕ} (h : slice b off (n + n) = p ++ p.reverse) (hlen : p.length = n)
    (hv : leNat p = v) : both b off n = some v := by
  have hfirst : slice b off n = p := by
    have htake := congrArg (List.take n) h
    rwa [slice, List.take_take, Nat.min_eq_left (Nat.le_add_left n n), List.take_left' hlen] at htake
  have hsecond : slice b (off + n) n = p.reverse := by
    have hdrop := congrArg (List.drop n) h
    rwa [slice, List.drop_take, List.drop_drop, Nat.add_sub_cancel, List.drop_left' hlen] at hdrop
  rw [both, hfirst, hsecond, List.reverse_reverse, if_pos rfl, hv]

theorem both32_eq {v : ℕ} (h : v < 2 ^ 32) : both32 v = some (packI v ++ (packI v).reverse) := by
  rw [both32, packLittle, packBig, if_pos h, if_pos h]
  rfl

/-! ## Directory records -/

/-- The fields of a record. -/
def recordFields (n lba size : ℕ) (flags : UInt8) (fid : List UInt8) : List (ℕ × List UInt8) :=
  [(0, [UInt8.ofNat n]), (1, [0]), (2, packI lba ++ (packI lba).reverse), (10, packI size ++ (packI size).reverse),
    (18, [126, 9, 6, 16, 0, 0, 0]), (25, [flags]), (28, packH 1 ++ (packH 1).reverse), (32, [UInt8.ofNat fid.length]),
    (33, fid)]

/-- The length of a record, which is even. -/
def recordLength (fid : List UInt8) : ℕ := if (33 + fid.length) % 2 ≠ 0 then 33 + fid.length + 1 else 33 + fid.length

def recordBytes (lba size : ℕ) (flags : UInt8) (fid : List UInt8) : List UInt8 :=
  layout (zeros (recordLength fid)) (recordFields (recordLength fid) lba size flags fid)

section

variable {lba size : ℕ} {flags : UInt8} {fid : List UInt8}

theorem recordLength_ge (fid : List UInt8) : 33 + fid.length ≤ recordLength fid := by
  unfold recordLength
  split <;> omega

theorem dirrec_eq (hlba : lba < 2 ^ 32) (hsize : size < 2 ^ 32) (hn : recordLength fid < 256) :
    dirrec lba size flags fid = some (recordBytes lba size flags fid) := by
  show (if recordLength fid ≥ 256 then _ else _) = _
  rw [if_neg (Nat.not_le.mpr hn), both32_eq hlba, both32_eq hsize]
  rfl

theorem recordFields_in (n : ℕ) (hn : 33 + fid.length ≤ n) : ∀ f ∈ recordFields n lba size flags fid,
    f.1 + f.2.length ≤ (zeros n).length := by
  rw [zeros, List.length_replicate]
  simp [recordFields, packI, packH]
  omega

theorem recordFields_apart (n : ℕ) : (recordFields n lba size flags fid).Pairwise Apart := by
  simp [recordFields, packI, packH, Apart]

theorem length_recordBytes : (recordBytes lba size flags fid).length = recordLength fid := by
  rw [recordBytes, length_layout (recordFields_in _ (recordLength_ge fid)), zeros, List.length_replicate]

/-- A field of a record, whatever follows the record. -/
theorem record_slice {off : ℕ} {blob : List UInt8} (rest : List UInt8)
    (hf : (off, blob) ∈ recordFields (recordLength fid) lba size flags fid) :
    slice (recordBytes lba size flags fid ++ rest) off blob.length = blob := by
  have hin : ∀ f ∈ recordFields (recordLength fid) lba size flags fid,
      f.1 + f.2.length ≤ (zeros (recordLength fid)).length := recordFields_in _ (recordLength_ge fid)
  have hend : off + blob.length ≤ (zeros (recordLength fid)).length := hin _ hf
  rw [zeros, List.length_replicate] at hend
  rw [slice, List.drop_append_of_le_length (by rw [length_recordBytes]; omega),
    List.take_append_of_le_length (by rw [List.length_drop, length_recordBytes]; omega)]
  exact slice_layout hin (recordFields_apart _) hf

theorem record_getD {off : ℕ} {b : UInt8} (rest : List UInt8)
    (hf : (off, [b]) ∈ recordFields (recordLength fid) lba size flags fid) :
    (recordBytes lba size flags fid ++ rest).getD off 0 = b := by
  have hone := record_slice rest hf
  rw [slice, List.length_singleton, List.take_one, List.head?_drop] at hone
  rw [List.getD_eq_getElem?_getD]
  cases hget : (recordBytes lba size flags fid ++ rest)[off]? with
  | none =>
    rw [hget] at hone
    cases hone
  | some b' =>
    rw [hget] at hone
    exact List.head_eq_of_cons_eq hone

/-- **A record is read back**, and what follows it is read on. -/
theorem records_dirrec (hlba : lba < 2 ^ 32) (hsize : size < 2 ^ 32) (hn : recordLength fid < 256) (fuel : ℕ)
    (rest : List UInt8) :
    records (fuel + 1) (recordBytes lba size flags fid ++ rest) =
      (records fuel rest).map fun rs => ⟨lba, size, flags, fid⟩ :: rs := by
  have hge := recordLength_ge fid
  have hlength : ((recordBytes lba size flags fid ++ rest).getD 0 0).toNat = recordLength fid := by
    rw [record_getD (b := UInt8.ofNat (recordLength fid)) rest (by simp [recordFields]), UInt8.toNat_ofNat',
      Nat.mod_eq_of_lt hn]
  have hname : ((recordBytes lba size flags fid ++ rest).getD 32 0).toNat = fid.length := by
    rw [record_getD (b := UInt8.ofNat fid.length) rest (by simp [recordFields]), UInt8.toNat_ofNat',
      Nat.mod_eq_of_lt (by omega)]
  have hflags : (recordBytes lba size flags fid ++ rest).getD 25 0 = flags :=
    record_getD rest (by simp [recordFields])
  have h2 : (2, packI lba ++ (packI lba).reverse) ∈ recordFields (recordLength fid) lba size flags fid := by
    simp [recordFields]
  have h10 : (10, packI size ++ (packI size).reverse) ∈ recordFields (recordLength fid) lba size flags fid := by
    simp [recordFields]
  have hslice2 := record_slice rest h2
  have hslice10 := record_slice rest h10
  have hboth2 : both (recordBytes lba size flags fid ++ rest) 2 4 = some lba :=
    both_eq hslice2 rfl (leNat_packI hlba)
  have hboth10 : both (recordBytes lba size flags fid ++ rest) 10 4 = some size :=
    both_eq hslice10 rfl (leNat_packI hsize)
  have hfid : slice (recordBytes lba size flags fid ++ rest) 33 fid.length = fid :=
    record_slice rest (by simp [recordFields])
  rw [records]
  simp only [hlength, hname, hflags, hboth2, hboth10, hfid]
  rw [if_neg (by omega), if_neg (by rw [List.length_append, length_recordBytes]; omega),
    List.drop_left' length_recordBytes]
  cases records fuel rest <;> rfl

end

theorem records_zeros (fuel n : ℕ) : records fuel (zeros n) = some [] := by
  cases fuel with
  | zero => rfl
  | succ fuel =>
    have hzero : (zeros n).getD 0 0 = 0 := by
      cases n <;> rfl
    rw [records, hzero]
    rfl

theorem drop_zeros (n k : ℕ) : (zeros n).drop k = zeros (n - k) := List.drop_replicate

/-- Records that are written one behind the other are one text. -/
theorem place_eq {recs : List (List UInt8)} : ∀ {front : List UInt8} {n : ℕ},
    place (front ++ zeros n) front.length recs = front ++ recs.flatten ++ zeros (n - recs.flatten.length) := by
  induction recs with
  | nil =>
    intro front n
    rw [place, List.flatten_nil, List.append_nil, List.length_nil, Nat.sub_zero]
  | cons rec recs ih =>
    intro front n
    have hsplice : splice (front ++ zeros n) front.length rec = front ++ rec ++ zeros (n - rec.length) := by
      rw [splice, List.take_left, ← List.drop_drop, List.drop_left, drop_zeros]
    rw [place, hsplice, ← List.length_append, ih, List.flatten_cons, List.length_append, List.append_assoc,
      List.append_assoc, List.append_assoc, List.append_assoc, Nat.sub_sub]

/-! ## The descriptors -/

def pvdFields (total : ℕ) : List (ℕ × List UInt8) :=
  [(0, [1]), (1, cd001), (6, [1]), (8, ljust 32 (ascii "UN_ORION")), (40, ljust 32 (ascii "UN_ORION_INSTALL")),
    (80, packI total ++ (packI total).reverse), (120, packH 1 ++ (packH 1).reverse),
    (124, packH 1 ++ (packH 1).reverse), (128, packH bs ++ (packH bs).reverse),
    (132, packI 10 ++ (packI 10).reverse), (140, packI 19), (148, (packI 20).reverse), (156, recordBytes 21 bs 2 [0]),
    (318, ljust 128 (ascii "UN Project")), (446, ljust 128 (ascii "UN_Orion build tooling")),
    (574, ljust 128 (ascii "UN_Orion UEFI Installer")), (813, date), (830, date),
    (847, List.replicate 16 0x30 ++ [0]), (864, List.replicate 16 0x30 ++ [0]), (881, [1])]

theorem pvd_eq {total : ℕ} (h : total < 2 ^ 32) : pvd total 21 19 20 = some (layout (zeros bs) (pvdFields total)) := by
  have hroot : dirrec 21 bs 2 [0] = some (recordBytes 21 bs 2 [0]) := dirrec_eq (by decide) (by decide) (by decide)
  rw [pvd, both32_eq h, hroot]
  rfl

theorem pvdFields_shape (total : ℕ) : shape (pvdFields total) =
    [(0, 1), (1, 5), (6, 1), (8, 32), (40, 32), (80, 8), (120, 4), (124, 4), (128, 4), (132, 8), (140, 4), (148, 4),
      (156, 34), (318, 128), (446, 128), (574, 128), (813, 17), (830, 17), (847, 17), (864, 17), (881, 1)] := by
  have hzero : shape (pvdFields total) = shape (pvdFields 0) := rfl
  rw [hzero]
  decide

theorem pvdFields_in (total : ℕ) : ∀ f ∈ pvdFields total, f.1 + f.2.length ≤ (zeros bs).length := by
  refine in_of_shape ?_
  rw [pvdFields_shape, zeros, List.length_replicate]
  decide

theorem pvdFields_apart (total : ℕ) : (pvdFields total).Pairwise Apart := by
  refine apart_of_shape ?_
  rw [pvdFields_shape]
  decide

theorem pvd_slice {total off : ℕ} {blob : List UInt8} (hf : (off, blob) ∈ pvdFields total) :
    slice (layout (zeros bs) (pvdFields total)) off blob.length = blob :=
  slice_layout (pvdFields_in total) (pvdFields_apart total) hf

theorem length_pvd (total : ℕ) : (layout (zeros bs) (pvdFields total)).length = bs := by
  rw [length_layout (pvdFields_in total), zeros, List.length_replicate]

/-- `boot_record(22)` -/
def bootBytes : List UInt8 :=
  layout (zeros bs) [(0, [0]), (1, cd001), (6, [1]), (7, ljust 32 (ascii "EL TORITO SPECIFICATION")), (71, packI 22)]

/-- `catalog(24)` -/
def catalogBytes : List UInt8 :=
  layout (zeros bs)
    [(0, splice validation 28 (packH ((65536 - sumLittle validation % 65536) % 65536))),
      (32, layout (zeros 32) [(0, [0x88]), (1, [0]), (6, packH 1), (8, packI 24)])]

theorem bootBytes_reads : bootBytes.length = bs ∧ slice bootBytes 0 7 = 0 :: cd001 ++ [1] ∧
    slice bootBytes 7 23 = ascii "EL TORITO SPECIFICATION" ∧ leNat (slice bootBytes 71 4) = 22 := by
  decide +kernel

/-- The words of the validation entry add up to nothing. -/
theorem catalogBytes_reads : catalogBytes.length = bs ∧ catalogBytes.getD 0 0 = 1 ∧ catalogBytes.getD 1 0 = 0xEF ∧
    slice catalogBytes 30 2 = [0x55, 0xAA] ∧ sumLittle (slice catalogBytes 0 32) % 65536 = 0 ∧
    catalogBytes.getD 32 0 = 0x88 ∧ leNat (slice catalogBytes 40 4) = 24 := by
  decide +kernel

/-! ## The disc -/

def readmeName : List UInt8 := ascii "README.TXT;1"

def imageName : List UInt8 := ascii "ORION.IMG;1"

/-- The records of the directory. -/
def entries (size : ℕ) : List Record :=
  [⟨21, bs, 2, [0]⟩, ⟨21, bs, 2, [1]⟩, ⟨23, readme.length, 0, readmeName⟩, ⟨24, size, 0, imageName⟩]

def rootBytes (size : ℕ) : List UInt8 :=
  place (zeros bs) 0 [recordBytes 21 bs 2 [0], recordBytes 21 bs 2 [1], recordBytes 23 readme.length 0 readmeName,
    recordBytes 24 size 0 imageName]

def tableBytes (lba one : List UInt8) : List UInt8 := layout (zeros bs) [(0, [1]), (2, lba), (6, one)]

/-- The sectors of a disc in front of the image. -/
def frontFields (total size : ℕ) : List (ℕ × List UInt8) :=
  [(16 * bs, layout (zeros bs) (pvdFields total)), (17 * bs, bootBytes), (18 * bs, terminator),
    (19 * bs, tableBytes (packI 21) (packH 1)), (20 * bs, tableBytes (packI 21).reverse (packH 1).reverse),
    (21 * bs, rootBytes size), (22 * bs, catalogBytes), (23 * bs, readme)]

def discFields (total : ℕ) (img : List UInt8) : List (ℕ × List UInt8) :=
  frontFields total img.length ++ [(24 * bs, img)]

/-- The sectors of the volume. -/
def sectors (img : List UInt8) : ℕ := 24 + ceilDiv img.length bs

def disc (img : List UInt8) : List UInt8 := layout (zeros (sectors img * bs)) (discFields (sectors img) img)

theorem recordLengths : recordLength readmeName = 46 ∧ recordLength imageName = 44 := by decide

theorem length_readme : readme.length = 96 := by decide

theorem sectors_lt {img : List UInt8} (h : img.length < 2 ^ 32) : sectors img < 2 ^ 32 := by
  rw [sectors, ceilDiv, bs]
  omega

theorem bootRecord_eq : bootRecord 22 = some bootBytes := rfl

theorem catalog_eq : catalog 24 = some catalogBytes := rfl

theorem build_eq {img : List UInt8} (h : img.length < 2 ^ 32) : build img = some (disc img) := by
  have hpvd := pvd_eq (sectors_lt h)
  have hself : dirrec 21 bs 2 [0] = some (recordBytes 21 bs 2 [0]) := dirrec_eq (by decide) (by decide) (by decide)
  have hparent : dirrec 21 bs 2 [1] = some (recordBytes 21 bs 2 [1]) := dirrec_eq (by decide) (by decide) (by decide)
  have htext : dirrec 23 readme.length 0 readmeName = some (recordBytes 23 readme.length 0 readmeName) :=
    dirrec_eq (by decide) (by rw [length_readme]; decide) (by rw [recordLengths.1]; decide)
  have himage : dirrec 24 img.length 0 imageName = some (recordBytes 24 img.length 0 imageName) :=
    dirrec_eq (by decide) h (by rw [recordLengths.2]; decide)
  have htables : pathtable 21 false = some (tableBytes (packI 21) (packH 1)) ∧
      pathtable 21 true = some (tableBytes (packI 21).reverse (packH 1).reverse) := ⟨rfl, rfl⟩
  unfold build
  simp only [← sectors.eq_1, ← readmeName.eq_1, ← imageName.eq_1]
  rw [hpvd, bootRecord_eq, htables.1, htables.2, hself, hparent, htext, himage, catalog_eq]
  rfl

/-- The size of the file does not fit its record. -/
theorem build_none {img : List UInt8} (h : 2 ^ 32 ≤ img.length) : build img = none := by
  have hboth : both32 img.length = none := by
    rw [both32, packLittle, if_neg (Nat.not_lt.mpr h)]
    rfl
  have himage : dirrec 24 img.length 0 imageName = none := by
    unfold dirrec
    simp only [hboth, Option.bind_eq_bind, Option.bind_none, Option.bind_fun_none, ite_self]
  unfold build
  simp only [← imageName.eq_1]
  rw [himage]
  simp only [Option.bind_eq_bind, Option.bind_none, Option.bind_fun_none]

/-! ### The sectors -/

section

variable {img : List UInt8}

theorem frontFields_shape (total size : ℕ) : shape (frontFields total size) =
    [(16 * bs, bs), (17 * bs, bs), (18 * bs, bs), (19 * bs, bs), (20 * bs, bs), (21 * bs, (rootBytes size).length),
      (22 * bs, bs), (23 * bs, readme.length)] := by
  have hfixed : bootBytes.length = bs ∧ terminator.length = bs ∧ (tableBytes (packI 21) (packH 1)).length = bs ∧
      (tableBytes (packI 21).reverse (packH 1).reverse).length = bs ∧ catalogBytes.length = bs := by
    refine ⟨bootBytes_reads.1, ?_, ?_, ?_, catalogBytes_reads.1⟩ <;> decide +kernel
  obtain ⟨hboot, hterm, hl, hm, hcat⟩ := hfixed
  rw [shape, frontFields]
  simp only [List.map_cons, List.map_nil, length_pvd, hboot, hterm, hl, hm, hcat]

/-- The records of the directory, and nothing behind them. -/
theorem rootBytes_eq (size : ℕ) : rootBytes size =
    recordBytes 21 bs 2 [0] ++ (recordBytes 21 bs 2 [1] ++ (recordBytes 23 readme.length 0 readmeName ++
      (recordBytes 24 size 0 imageName ++ zeros 1890))) ∧ (rootBytes size).length = bs := by
  obtain ⟨hreadme, himage⟩ := recordLengths
  have hflat : rootBytes size = recordBytes 21 bs 2 [0] ++ (recordBytes 21 bs 2 [1] ++
      (recordBytes 23 readme.length 0 readmeName ++ (recordBytes 24 size 0 imageName ++ zeros 1890))) := by
    have hplace := @place_eq [recordBytes 21 bs 2 [0], recordBytes 21 bs 2 [1],
      recordBytes 23 readme.length 0 readmeName, recordBytes 24 size 0 imageName] [] bs
    simp only [List.nil_append, List.length_nil, List.flatten_cons, List.flatten_nil, List.append_nil,
      List.length_append, length_recordBytes, hreadme, himage, List.append_assoc] at hplace
    exact hplace
  refine ⟨hflat, ?_⟩
  rw [hflat]
  simp only [List.length_append, length_recordBytes, hreadme, himage, zeros, List.length_replicate]
  rfl

theorem discFields_shape (img : List UInt8) : shape (discFields (sectors img) img) =
    [(32768, 2048), (34816, 2048), (36864, 2048), (38912, 2048), (40960, 2048), (43008, 2048), (45056, 2048),
      (47104, 96), (49152, img.length)] := by
  rw [discFields, shape, List.map_append, ← shape, frontFields_shape, (rootBytes_eq img.length).2, length_readme]
  rfl

theorem sectors_ge (img : List UInt8) : 49152 + img.length ≤ sectors img * bs := by
  rw [sectors, ceilDiv, bs]
  omega

theorem discFields_in (img : List UInt8) : ∀ f ∈ discFields (sectors img) img,
    f.1 + f.2.length ≤ (zeros (sectors img * bs)).length := by
  have hge := sectors_ge img
  refine in_of_shape ?_
  rw [discFields_shape, zeros, List.length_replicate]
  simp only [List.forall_mem_cons]
  exact ⟨by omega, by omega, by omega, by omega, by omega, by omega, by omega, by omega, by omega,
    fun _ h => absurd h List.not_mem_nil⟩

theorem discFields_apart (img : List UInt8) : (discFields (sectors img) img).Pairwise Apart := by
  refine apart_of_shape ?_
  rw [discFields_shape]
  simp

/-- Every field of the disc is there. -/
theorem disc_slice {off : ℕ} {blob : List UInt8} (hf : (off, blob) ∈ discFields (sectors img) img) :
    slice (disc img) off blob.length = blob :=
  slice_layout (discFields_in img) (discFields_apart img) hf

theorem disc_sector {lba : ℕ} {blob : List UInt8} (hf : (lba * bs, blob) ∈ discFields (sectors img) img)
    (hlen : blob.length = bs) : sector (disc img) lba = blob := by
  rw [sector, ← hlen]
  nth_rewrite 1 [hlen]
  exact disc_slice hf

theorem length_disc (img : List UInt8) : (disc img).length = sectors img * bs := by
  rw [disc, length_layout (discFields_in img), zeros, List.length_replicate]

/-- What is behind the image fills its last sector. -/
theorem disc_tail (img : List UInt8) :
    (disc img).drop (24 * bs) = img ++ zeros (ceilDiv img.length bs * bs - img.length) := by
  have hfield : slice (disc img) (24 * bs) img.length = img :=
    disc_slice (List.mem_append_right _ (List.mem_singleton.mpr rfl))
  have hrest : (disc img).drop (24 * bs + img.length) = zeros (ceilDiv img.length bs * bs - img.length) := by
    rw [disc, drop_layout (discFields_in img), drop_zeros]
    · refine congrArg zeros ?_
      rw [sectors, bs]
      omega
    · refine in_of_shape ?_
      rw [discFields_shape, bs]
      simp only [List.forall_mem_cons]
      exact ⟨by omega, by omega, by omega, by omega, by omega, by omega, by omega, by omega, by omega,
        fun _ h => absurd h List.not_mem_nil⟩
  calc (disc img).drop (24 * bs)
      = slice (disc img) (24 * bs) img.length ++ (disc img).drop (24 * bs + img.length) := by
        rw [slice, ← List.drop_drop, List.take_append_drop]
    _ = img ++ zeros (ceilDiv img.length bs * bs - img.length) := by rw [hfield, hrest]

/-! ### Reading it -/

theorem slice_add (b : List UInt8) (off m n : ℕ) : slice b off (m + n) = slice b off m ++ slice b (off + m) n := by
  rw [slice, slice, slice, List.take_add, List.drop_drop]

theorem volume_disc (h : img.length < 2 ^ 32) : volume (disc img) = some (sectors img, ⟨21, bs, 2, [0]⟩) := by
  have hsector : sector (disc img) 16 = layout (zeros bs) (pvdFields (sectors img)) :=
    disc_sector (by simp [discFields, frontFields]) (length_pvd _)
  generalize hv : layout (zeros bs) (pvdFields (sectors img)) = v at hsector
  have hfield : ∀ (off : ℕ) (blob : List UInt8), (off, blob) ∈ pvdFields (sectors img) →
      slice v off blob.length = blob := by
    intro off blob hf
    rw [← hv]
    exact pvd_slice hf
  have hid : slice v 0 7 = 1 :: cd001 ++ [1] := by
    have h0 := hfield 0 [1] (by simp [pvdFields])
    have h1 := hfield 1 cd001 (by simp [pvdFields])
    have h6 := hfield 6 [1] (by simp [pvdFields])
    have hlen : cd001.length = 5 := by decide
    rw [hlen] at h1
    rw [show 7 = 1 + 5 + 1 from rfl, slice_add, slice_add]
    show slice v 0 1 ++ slice v 1 5 ++ slice v 6 1 = _
    rw [h1]
    exact congrArg₂ (fun a b => a ++ cd001 ++ b) h0 h6
  have hblock : both v 128 2 = some bs :=
    both_eq (hfield 128 (packH bs ++ (packH bs).reverse) (by simp [pvdFields])) rfl (leNat_packH (by decide))
  have hspace : both v 80 4 = some (sectors img) :=
    both_eq (hfield 80 (packI (sectors img) ++ (packI (sectors img)).reverse) (by simp [pvdFields])) rfl
      (leNat_packI (sectors_lt h))
  have hroot : records 1 (slice v 156 34) = some [⟨21, bs, 2, [0]⟩] := by
    have hrec : slice v 156 34 = recordBytes 21 bs 2 [0] ++ [] := by
      have hslice := hfield 156 (recordBytes 21 bs 2 [0]) (by simp [pvdFields])
      rw [length_recordBytes] at hslice
      rw [List.append_nil]
      exact hslice
    rw [hrec, records_dirrec (by decide) (by decide) (by decide)]
    rfl
  rw [volume]
  simp only [hsector, hid, hblock, hspace, hroot]
  rfl

theorem directory_disc (h : img.length < 2 ^ 32) : directory (disc img) = some (entries img.length) := by
  obtain ⟨hroot, hlen⟩ := rootBytes_eq img.length
  obtain ⟨hreadme, himage⟩ := recordLengths
  have hsector : sector (disc img) 21 = rootBytes img.length :=
    disc_sector (by simp [discFields, frontFields]) hlen
  have hsmall : recordLength [0] < 256 ∧ recordLength [1] < 256 := by decide
  have hrecords : records bs (rootBytes img.length) = some (entries img.length) := by
    show records (2044 + 1 + 1 + 1 + 1) (rootBytes img.length) = _
    rw [hroot, records_dirrec (by decide) (by decide) hsmall.1, records_dirrec (by decide) (by decide) hsmall.2,
      records_dirrec (by decide) (by rw [length_readme]; decide) (by rw [hreadme]; decide),
      records_dirrec (by decide) h (by rw [himage]; decide), records_zeros]
    rfl
  rw [directory, volume_disc h]
  simp only [Option.bind_eq_bind, Option.bind_some, hsector, hrecords, if_true]

theorem file_disc (h : img.length < 2 ^ 32) :
    file (disc img) imageName = some img ∧ file (disc img) readmeName = some readme := by
  have himage : slice (disc img) (24 * bs) img.length = img :=
    disc_slice (List.mem_append_right _ (List.mem_singleton.mpr rfl))
  have hreadme : slice (disc img) (23 * bs) readme.length = readme :=
    disc_slice (by simp [discFields, frontFields])
  have hfind : (entries img.length).find? (fun r => r.name = imageName) = some ⟨24, img.length, 0, imageName⟩ ∧
      (entries img.length).find? (fun r => r.name = readmeName) = some ⟨23, readme.length, 0, readmeName⟩ := by
    have hnames : ([0] : List UInt8) ≠ imageName ∧ ([1] : List UInt8) ≠ imageName ∧ readmeName ≠ imageName ∧
        ([0] : List UInt8) ≠ readmeName ∧ ([1] : List UInt8) ≠ readmeName := by decide
    obtain ⟨h0, h1, h2, h3, h4⟩ := hnames
    constructor
    · simp [entries, h0, h1, h2]
    · simp [entries, h3, h4]
  rw [file, file, directory_disc h]
  simp only [Option.bind_eq_bind, Option.bind_some, hfind.1, hfind.2]
  exact ⟨congrArg some himage, congrArg some hreadme⟩

theorem bootImage_disc (h : img.length < 2 ^ 32) : bootImage (disc img) =
    some (0xEF, img ++ zeros (ceilDiv img.length bs * bs - img.length)) := by
  obtain ⟨hblen, hid, helTorito, hcatalog⟩ := bootBytes_reads
  obtain ⟨hclen, hheader, hplatform, hkey, hsum, hboot, hlba⟩ := catalogBytes_reads
  have hb : sector (disc img) 17 = bootBytes := disc_sector (by simp [discFields, frontFields]) hblen
  have hc : sector (disc img) 22 = catalogBytes := disc_sector (by simp [discFields, frontFields]) hclen
  have himage : slice (disc img) (24 * bs) ((sectors img - 24) * bs) =
      img ++ zeros (ceilDiv img.length bs * bs - img.length) := by
    rw [slice, disc_tail, List.take_of_length_le]
    rw [List.length_append, zeros, List.length_replicate, sectors, Nat.add_sub_cancel_left]
    have hge := sectors_ge img
    rw [sectors, Nat.add_mul] at hge
    have hfront : 24 * bs = 49152 := rfl
    omega
  rw [bootImage, volume_disc h]
  simp only [hb, hid, helTorito, hcatalog, hc, hheader, hplatform, hkey, hsum, hboot, hlba]
  exact congrArg (fun l => some ((0xEF : UInt8), l)) himage

end

/-- **The round trip of the medium.** -/
theorem iso_round_trip (img : List UInt8) :
    (build img = none ∧ 2 ^ 32 ≤ img.length) ∨
      ∃ d, build img = some d ∧ directory d = some (entries img.length) ∧
        file d imageName = some img ∧ file d readmeName = some readme ∧
        (∃ space root, volume d = some (space, root) ∧ d.length = space * bs) ∧
        ∃ pad, pad < bs ∧ bootImage d = some (0xEF, img ++ zeros pad) := by
  rcases Nat.lt_or_ge img.length (2 ^ 32) with hfits | hlarge
  · obtain ⟨himage, hreadme⟩ := file_disc hfits
    refine .inr ⟨disc img, build_eq hfits, directory_disc hfits, himage, hreadme,
      ⟨sectors img, _, volume_disc hfits, length_disc img⟩, _, ?_, bootImage_disc hfits⟩
    rw [ceilDiv, bs]
    omega
  · exact .inl ⟨build_none hlarge, hlarge⟩

end Orion.Disk.Iso
