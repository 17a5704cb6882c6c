import Orion.Legacy.Stage2

/-!
# The loader finds the kernel

The address that `read_one` makes for a CHS drive denotes the sector it is for
(`chsOf_denotes`), so that on both kinds of drive it reads that sector (`readOne_serves`).  Sector by
sector the kernel comes into the staging area (`loadLoop_fill`), stays there while the video mode is
chosen, and is copied to its place.
-/

namespace Orion.Legacy

/-! ## Cylinder, head and sector -/

namespace Chs

def cylinder (c : Chs) : ℕ := c.ch.toNat + 256 * (c.cl >>> 6).toNat

def sector (c : Chs) : ℕ := (c.cl &&& 0x3f).toNat

/-- The sector that an address denotes on a drive with `s` sectors per track and `h` heads. -/
def denotes (c : Chs) (s h : ℕ) : ℕ := (c.cylinder * h + c.dh.toNat) * s + (c.sector - 1)

end Chs

/-- Six bits of sector and two bits of cylinder in one register. -/
theorem packed_cl {a b : ℕ} (ha : a < 64) (hb : b < 4) :
    ((UInt8.ofNat a ||| UInt8.ofNat b <<< 6) &&& 0x3f).toNat = a ∧
      ((UInt8.ofNat a ||| UInt8.ofNat b <<< 6) >>> 6).toNat = b := by
  have hall : ∀ a : Fin 64, ∀ b : Fin 4,
      ((UInt8.ofNat a ||| UInt8.ofNat b <<< 6) &&& 0x3f).toNat = a ∧
        ((UInt8.ofNat a ||| UInt8.ofNat b <<< 6) >>> 6).toNat = b := by
    decide +kernel
  exact hall ⟨a, ha⟩ ⟨b, hb⟩

/-- The upper bits of the cylinder in `AH`. -/
theorem cylinder_high {ax : UInt16} (h : ax.toNat < 1024) :
    (ax >>> 8).toUInt8 &&& 0x03 = UInt8.ofNat (ax.toNat / 256) := by
  apply UInt8.toNat_inj.mp
  have hshift : (ax >>> 8).toNat = ax.toNat / 256 := by
    rw [UInt16.toNat_shiftRight]
    exact Nat.shiftRight_eq_div_pow _ 8
  have hmask : (3 : UInt8).toNat = 2 ^ 2 - 1 := rfl
  rw [UInt8.toNat_and, UInt16.toNat_toUInt8, hshift, hmask, Nat.and_two_pow_sub_one_eq_mod,
    UInt8.toNat_ofNat']
  omega

section

variable {v : Vars} {s h : ℕ}

/-- **The address denotes the sector that it is for.** -/
theorem chsOf_denotes (hs : v.sectorsPerTrack.toNat = s) (hh : v.headCount.toNat = h) (hs1 : 1 ≤ s)
    (hs63 : s ≤ 63) (hh1 : 1 ≤ h) (hh256 : h ≤ 256) (hlba : v.currentLba.toNat < 1024 * h * s) :
    ∃ c, chsOf v = some c ∧ 1 ≤ c.sector ∧ c.sector ≤ s ∧ c.dh.toNat < h ∧
      c.denotes s h = v.currentLba.toNat := by
  have hspt : v.sectorsPerTrack ≠ 0 := by
    rintro h0
    rw [h0] at hs
    have hzero : (0 : UInt16).toNat = 0 := rfl
    omega
  have hhc : v.headCount ≠ 0 := by
    rintro h0
    rw [h0] at hh
    have hzero : (0 : UInt16).toNat = 0 := rfl
    omega
  have htrack : (v.currentLba / v.sectorsPerTrack).toNat = v.currentLba.toNat / s := by
    rw [UInt16.toNat_div, hs]
  have hrem : v.currentLba.toNat % s < s := Nat.mod_lt _ hs1
  have hhead : v.currentLba.toNat / s % h < h := Nat.mod_lt _ hh1
  have hcyl : v.currentLba.toNat / s / h < 1024 := by
    rw [Nat.div_div_eq_div_mul]
    refine Nat.div_lt_of_lt_mul ?_
    calc v.currentLba.toNat < 1024 * h * s := hlba
      _ = s * h * 1024 := by ring
  have hax : (v.currentLba / v.sectorsPerTrack / v.headCount).toNat = v.currentLba.toNat / s / h := by
    rw [UInt16.toNat_div, htrack, hh]
  have hsector : (v.currentLba % v.sectorsPerTrack + 1).toUInt8
      = UInt8.ofNat (v.currentLba.toNat % s + 1) := by
    apply UInt8.toNat_inj.mp
    rw [UInt16.toNat_toUInt8, UInt16.toNat_add, UInt16.toNat_mod, hs, UInt8.toNat_ofNat',
      UInt16.toNat_one]
    omega
  have hdh : ((v.currentLba / v.sectorsPerTrack) % v.headCount).toUInt8.toNat
      = v.currentLba.toNat / s % h := by
    rw [UInt16.toNat_toUInt8, UInt16.toNat_mod, htrack, hh]
    omega
  obtain ⟨hlow, hhigh⟩ := packed_cl (a := v.currentLba.toNat % s + 1)
    (b := v.currentLba.toNat / s / h / 256) (by omega) (by omega)
  refine ⟨_, if_neg (not_or.mpr ⟨hspt, hhc⟩), ?_⟩
  simp only [Chs.denotes, Chs.sector, Chs.cylinder, cylinder_high (hax ▸ hcyl), hsector, hdh, hax, hlow,
    hhigh, UInt16.toNat_toUInt8]
  refine ⟨by omega, by omega, hhead, ?_⟩
  have hcylinder : v.currentLba.toNat / s / h % 2 ^ 8 + 256 * (v.currentLba.toNat / s / h / 256)
      = v.currentLba.toNat / s / h := by
    omega
  rw [hcylinder, Nat.add_sub_cancel, Nat.div_add_mod', Nat.div_add_mod']

end

/-! ## Drives -/

/-- A sector of a disk. -/
def diskSector (disk : List UInt8) (lba : ℕ) : ℕ → UInt8 := fun i => disk.getD (lba * 512 + i) 0

/-- A drive whose BIOS has the extensions and serves them. -/
structure ServesLba (bios : Bios) (drive : UInt8) (disk : List UInt8) : Prop where
  hard : 0x80 ≤ drive
  extensions : ∃ cx, bios.checkExtensions drive = (false, 0xaa55, cx) ∧ cx &&& 1 ≠ 0
  reads : ∀ dap m, dap.count = 1 → (dap.lba + 1) * 512 ≤ disk.length →
    bios.readExtended drive dap m =
      (false, m.fill (dap.segment.toNat * 16 + dap.offset.toNat) 512 (diskSector disk dap.lba))

/-- A drive whose BIOS serves CHS reads and reports `s` sectors per track and `h` heads.  An extended
read, if it is tried, serves too, or fails and leaves anything in its buffer. -/
structure ServesChs (bios : Bios) (drive : UInt8) (disk : List UInt8) (s h : ℕ) : Prop where
  sectors : 1 ≤ s ∧ s ≤ 63
  heads : 1 ≤ h ∧ h ≤ 256
  geometry : ∃ cl dh, bios.driveParameters drive = (false, cl, dh) ∧ (cl &&& 0x3f).toNat = s ∧
    dh.toNat + 1 = h
  reads : ∀ (chs : Chs) es bx m, 1 ≤ chs.sector → chs.sector ≤ s → chs.dh.toNat < h →
    (chs.denotes s h + 1) * 512 ≤ disk.length →
    bios.readSectors drive 1 chs es bx m =
      (false, m.fill (es.toNat * 16 + bx.toNat) 512 (diskSector disk (chs.denotes s h)))
  extended : ∀ dap m, dap.count = 1 → (dap.lba + 1) * 512 ≤ disk.length →
    bios.readExtended drive dap m =
        (false, m.fill (dap.segment.toNat * 16 + dap.offset.toNat) 512 (diskSector disk dap.lba)) ∨
      ∃ junk, bios.readExtended drive dap m =
        (true, m.fill (dap.segment.toNat * 16 + dap.offset.toNat) 512 junk)

/-- A drive that the loader can read, up to the sector `last`. -/
def Serves (bios : Bios) (drive : UInt8) (disk : List UInt8) (last : ℕ) : Prop :=
  ServesLba bios drive disk ∨ ∃ s h, ServesChs bios drive disk s h ∧ last < 1024 * h * s

theorem Mem.fill_fill (m : Mem) (base len : ℕ) (f g : ℕ → UInt8) :
    (m.fill base len f).fill base len g = m.fill base len g := by
  funext a
  unfold Mem.fill
  split <;> rfl

theorem Mem.fill_out {m : Mem} {base len a : ℕ} (f : ℕ → UInt8) (h : a < base ∨ base + len ≤ a) :
    m.fill base len f a = m a := if_neg (by omega)

theorem Mem.fill_in {m : Mem} {base len i : ℕ} (f : ℕ → UInt8) (h : i < len) :
    m.fill base len f (base + i) = f i := by
  rw [Mem.fill, if_pos (by omega), Nat.add_sub_cancel_left]

/-- Two ranges that touch. -/
theorem Mem.fill_append (m : Mem) (base n k : ℕ) (f : ℕ → UInt8) :
    (m.fill base n f).fill (base + n) k (fun i => f (n + i)) = m.fill base (n + k) f := by
  funext a
  unfold Mem.fill
  by_cases hsecond : base + n ≤ a ∧ a < base + n + k
  · rw [if_pos hsecond, if_pos (by omega)]
    have hpos : n + (a - (base + n)) = a - base := by omega
    simp only [hpos]
  · rw [if_neg hsecond]
    by_cases hfirst : base ≤ a ∧ a < base + n
    · rw [if_pos hfirst, if_pos (by omega)]
    · have hboth : ¬ (base ≤ a ∧ a < base + (n + k)) := by omega
      rw [if_neg hfirst, if_neg hboth]

section

variable {bios : Bios} {drive : UInt8} {disk : List UInt8}

theorem ServesLba.eddOk (h : ServesLba bios drive disk) : (diskInit bios drive).eddOk = true := by
  obtain ⟨cx, hext, hbit⟩ := h.extensions
  have hcheck : eddCheck bios drive = true := by
    rw [eddCheck, if_neg (by exact UInt8.not_lt.mpr h.hard)]
    simp [hext, hbit]
  unfold diskInit
  simp only
  split
  · exact hcheck
  · split
    · exact hcheck
    · exact hcheck

theorem bootDrive_diskInit (bios : Bios) (drive : UInt8) : (diskInit bios drive).bootDrive = drive := by
  unfold diskInit
  simp only
  split
  · rfl
  · split <;> rfl

theorem ServesChs.geometry_diskInit {s h : ℕ} (hc : ServesChs bios drive disk s h) :
    (diskInit bios drive).sectorsPerTrack.toNat = s ∧ (diskInit bios drive).headCount.toNat = h := by
  obtain ⟨cl, dh, hgeo, hcl, hdh⟩ := hc.geometry
  have hmask : (cl.toUInt16 &&& 0x003f).toNat = s := by
    rw [← hcl, UInt16.toNat_and, UInt8.toNat_and, UInt8.toNat_toUInt16]
    rfl
  have hne : ¬ cl.toUInt16 &&& 0x003f = 0 := by
    intro h0
    rw [h0] at hmask
    have hs := hc.sectors
    have hzero : (0 : UInt16).toNat = 0 := rfl
    omega
  have hheads : (dh.toUInt16 + 1).toNat = h := by
    have hlt := dh.toNat_lt
    rw [UInt16.toNat_add, UInt8.toNat_toUInt16, UInt16.toNat_one]
    omega
  unfold diskInit
  simp only [hgeo, Bool.false_eq_true, if_false, if_neg hne]
  exact ⟨hmask, hheads⟩

/-- The variables of a drive, with any sector. -/
def ForDrive (bios : Bios) (drive : UInt8) (v : Vars) : Prop :=
  v.bootDrive = drive ∧ v.eddOk = (diskInit bios drive).eddOk ∧
    v.sectorsPerTrack = (diskInit bios drive).sectorsPerTrack ∧
    v.headCount = (diskInit bios drive).headCount

/-- **On both kinds of drive `read_one` reads the sector `current_lba` into `ES:BX`.** -/
theorem readOne_serves {last : ℕ} (hserves : Serves bios drive disk last) {v : Vars}
    (hv : ForDrive bios drive v) (hlast : v.currentLba.toNat ≤ last)
    (hdisk : (v.currentLba.toNat + 1) * 512 ≤ disk.length) (es bx : UInt16) (m : Mem) :
    readOne bios v es bx m =
      some (false, m.fill (es.toNat * 16 + bx.toNat) 512 (diskSector disk v.currentLba.toNat)) := by
  obtain ⟨hdrive, hedd, hspt, hheads⟩ := hv
  rcases hserves with hlba | ⟨s, h, hchs, hrange⟩
  · unfold readOne
    simp only [hedd, hlba.eddOk, if_true, hdrive, hlba.reads ⟨1, bx, es, v.currentLba.toNat⟩ m rfl hdisk]
  · obtain ⟨hs, hh⟩ := hchs.geometry_diskInit
    obtain ⟨chs, hof, hsec1, hsecs, hhead, hdenotes⟩ :=
      chsOf_denotes (hspt ▸ hs) (hheads ▸ hh) hchs.sectors.1 hchs.sectors.2 hchs.heads.1 hchs.heads.2
        (by omega)
    have hread : ∀ m', bios.readSectors drive 1 chs es bx m' =
        (false, m'.fill (es.toNat * 16 + bx.toNat) 512 (diskSector disk v.currentLba.toNat)) := by
      intro m'
      rw [hchs.reads chs es bx m' hsec1 hsecs hhead (by rw [hdenotes]; exact hdisk), hdenotes]
    unfold readOne
    simp only [hdrive, hof, Option.map_some]
    by_cases hext : v.eddOk = true
    · rw [if_pos hext]
      rcases hchs.extended ⟨1, bx, es, v.currentLba.toNat⟩ m rfl hdisk with hok | ⟨junk, hfail⟩
      · simp only [hok, if_true]
      · -- what the failed read left is overwritten
        simp only [hfail, hread, Mem.fill_fill, Bool.true_eq_false, if_false]
    · rw [if_neg hext]
      simp only [hread, Bool.true_eq_false, if_false]

/-! ## The kernel in the staging area -/

/-- **The load loop** puts one sector behind the other. -/
theorem loadLoop_fill {last start : ℕ} (hserves : Serves bios drive disk last) :
    ∀ (cx i : ℕ) (v : Vars) (es : UInt16) (m : Mem) (staged : List Staged),
      ForDrive bios drive v → v.currentLba.toNat = start + i → es.toNat = 0x1000 + 0x20 * i →
      i + cx ≤ 1024 → start ≤ 1024 → start + (i + cx) ≤ last + 1 → (start + (i + cx)) * 512 ≤ disk.length →
      loadLoop bios cx v es (m.fill 0x10000 (512 * i) fun j => disk.getD (start * 512 + j) 0) staged =
        .ok (m.fill 0x10000 (512 * (i + cx)) fun j => disk.getD (start * 512 + j) 0,
          staged ++ (List.range cx).map fun j => ⟨start + (i + j), 0x10000 + 512 * (i + j)⟩) := by
  intro cx
  induction cx with
  | zero =>
    intro i v es m staged _ _ _ _ _ _ _
    simp [loadLoop]
  | succ cx ih =>
    intro i v es m staged hv hlba hes hcx hstart hlast hdisk
    have hin : (v.currentLba.toNat + 1) * 512 ≤ disk.length :=
      (Nat.mul_le_mul_right 512 (by omega)).trans hdisk
    have hread := readOne_serves hserves hv (by omega) hin es 0
      (m.fill 0x10000 (512 * i) fun j => disk.getD (start * 512 + j) 0)
    have hzero : (0 : UInt16).toNat = 0 := rfl
    have haddr : es.toNat * 16 + (0 : UInt16).toNat = 0x10000 + 512 * i := by omega
    have hsector : diskSector disk v.currentLba.toNat
        = fun j => disk.getD (start * 512 + (512 * i + j)) 0 := by
      funext j
      have hpos : (start + i) * 512 + j = start * 512 + (512 * i + j) := by ring
      rw [diskSector, hlba, hpos]
    rw [haddr, hsector, Mem.fill_append _ _ _ _ fun j => disk.getD (start * 512 + j) 0] at hread
    have hnext : 512 * i + 512 = 512 * (i + 1) := by ring
    rw [hnext] at hread
    have hlba' : (v.currentLba + 1).toNat = start + (i + 1) := by
      rw [UInt16.toNat_add, UInt16.toNat_one, hlba]
      omega
    have hes' : (es + 0x20).toNat = 0x1000 + 0x20 * (i + 1) := by
      have h32 : (0x20 : UInt16).toNat = 32 := rfl
      rw [UInt16.toNat_add, h32, hes]
      omega
    have haddr' : es.toNat * 16 = 0x10000 + 512 * i := by omega
    have hassoc : i + 1 + cx = i + (cx + 1) := by omega
    have hloop := ih (i + 1) { v with currentLba := v.currentLba + 1 } (es + 0x20) m
      (staged ++ [⟨v.currentLba.toNat, es.toNat * 16⟩]) hv hlba' hes' (by omega) hstart
      (by rw [hassoc]; exact hlast) (by rw [hassoc]; exact hdisk)
    have hstaged : staged ++ [⟨v.currentLba.toNat, es.toNat * 16⟩] ++
        (List.range cx).map (fun j => (⟨start + (i + 1 + j), 0x10000 + 512 * (i + 1 + j)⟩ : Staged))
          = staged ++ (List.range (cx + 1)).map fun j => ⟨start + (i + j), 0x10000 + 512 * (i + j)⟩ := by
      have htail : ∀ j, i + 1 + j = i + (j + 1) := by
        intro j
        omega
      rw [hlba, haddr', List.range_succ_eq_map, List.map_cons, List.map_map, List.append_assoc]
      simp only [List.cons_append, List.nil_append, Nat.add_zero, htail]
      rfl
    rw [loadLoop, hread]
    simp only
    rw [hloop, hstaged, hassoc]

end

/-! ## Words of memory -/

theorem Mem.word_toNat (m : Mem) (a : ℕ) :
    (m.word a).toNat = (m a).toNat + 256 * (m (a + 1)).toNat := by
  have hlow := (m a).toNat_lt
  have hhigh := (m (a + 1)).toNat_lt
  have hshift : 2 ^ ((8 : UInt16).toNat % 16) = 256 := rfl
  rw [Mem.word, UInt16.toNat_add, UInt16.toNat_shiftLeft, UInt8.toNat_toUInt16, UInt8.toNat_toUInt16,
    Nat.shiftLeft_eq, hshift]
  omega

theorem Mem.dword_toNat (m : Mem) (a : ℕ) :
    (m.dword a).toNat = (m.word a).toNat + 65536 * (m.word (a + 2)).toNat := by
  have hlow := (m.word a).toNat_lt
  have hhigh := (m.word (a + 2)).toNat_lt
  have hshift : 2 ^ ((16 : UInt32).toNat % 32) = 65536 := rfl
  rw [Mem.dword, UInt32.toNat_add, UInt32.toNat_shiftLeft, UInt16.toNat_toUInt32, UInt16.toNat_toUInt32,
    Nat.shiftLeft_eq, hshift]
  omega

/-- A packed 16-bit value is read back. -/
theorem word_packH {m : Mem} {a v : ℕ} (hv : v < 2 ^ 16) (h0 : m a = UInt8.ofNat v)
    (h1 : m (a + 1) = UInt8.ofNat (v / 2 ^ 8)) : (m.word a).toNat = v := by
  rw [Mem.word_toNat, h0, h1, UInt8.toNat_ofNat', UInt8.toNat_ofNat']
  omega

/-- A packed 32-bit value is read back. -/
theorem dword_packI {m : Mem} {a v : ℕ} (hv : v < 2 ^ 32) (h0 : m a = UInt8.ofNat v)
    (h1 : m (a + 1) = UInt8.ofNat (v / 2 ^ 8)) (h2 : m (a + 2) = UInt8.ofNat (v / 2 ^ 16))
    (h3 : m (a + 2 + 1) = UInt8.ofNat (v / 2 ^ 24)) : (m.dword a).toNat = v := by
  rw [Mem.dword_toNat, Mem.word_toNat, Mem.word_toNat, h0, h1, h2, h3, UInt8.toNat_ofNat',
    UInt8.toNat_ofNat', UInt8.toNat_ofNat', UInt8.toNat_ofNat']
  omega

/-! ## The way to protected mode -/

theorem Mem.store_out {stores : List (ℕ × UInt32)} {a : ℕ} (m : Mem)
    (h : ∀ s ∈ stores, a < s.1 ∨ s.1 + 4 ≤ a) : m.store stores a = m a := by
  induction stores generalizing m with
  | nil => rfl
  | cons s stores ih =>
    rw [Mem.store, List.foldl_cons]
    exact (ih _ fun t ht => h t (List.mem_cons_of_mem _ ht)).trans
      (Mem.fill_out _ (h s List.mem_cons_self))

/-- The buffers of video information, memory descriptor and `OrionBootInfo`. -/
def Outside (a : ℕ) : Prop := a < vbeBuf ∨ bootinfoBuf + 64 ≤ a

section

variable {bios : Bios} {a : ℕ}

theorem tryVbe_out (ha : Outside a) (mode : UInt16) (m : Mem) : (tryVbe bios mode m).2 a = m a := by
  have hout : m.fill vbeBuf 256 (bios.vbeModeInfo mode m).2 a = m a := by
    have hbufs : vbeBuf = 0x5000 ∧ bootinfoBuf = 0x7000 := ⟨rfl, rfl⟩
    unfold Outside at ha
    exact Mem.fill_out _ (by omega)
  unfold tryVbe
  simp only
  split
  · exact hout
  · split <;> exact hout

theorem chooseMode_out (ha : Outside a) {modes : List UInt16} {m m' : Mem}
    (h : chooseMode bios modes m = some m') : m' a = m a := by
  induction modes generalizing m with
  | nil => simp [chooseMode] at h
  | cons mode modes ih =>
    have hout := @tryVbe_out bios a ha mode m
    rw [chooseMode] at h
    cases htry : tryVbe bios mode m with
    | mk carry m1 =>
      rw [htry] at h hout
      cases carry with
      | false =>
        obtain rfl := Option.some.inj h
        exact hout
      | true => exact (ih h).trans hout

/-- The BIOS describes the mode as one that the kernel can draw in, and sets it. -/
structure Accepts (bios : Bios) (mode : UInt16) : Prop where
  info : ∀ m, (bios.vbeModeInfo mode m).1 = 0x004f
  good : ∀ m : Mem, modeOk (m.fill vbeBuf 256 (bios.vbeModeInfo mode m).2) = true
  sets : bios.vbeSetMode (mode ||| 0x4000) = 0x004f

theorem Accepts.tryVbe {mode : UInt16} (h : Accepts bios mode) (m : Mem) :
    (tryVbe bios mode m).1 = false := by
  have hgood : ¬ modeOk (m.fill vbeBuf 256 (bios.vbeModeInfo mode m).2) = false := by
    rw [h.good m]
    decide
  unfold Legacy.tryVbe
  simp only [h.info m, h.sets, ne_eq, not_true_eq_false, if_false, if_neg hgood, decide_false]

/-- One accepted mode among those that are tried is enough. -/
theorem chooseMode_accepts {mode : UInt16} (h : Accepts bios mode) {modes : List UInt16}
    (hmode : mode ∈ modes) (m : Mem) : chooseMode bios modes m ≠ none := by
  induction modes generalizing m with
  | nil => exact absurd hmode List.not_mem_nil
  | cons first modes ih =>
    have haccept : first = mode → (tryVbe bios first m).1 = false := fun heq => heq ▸ h.tryVbe m
    rw [chooseMode]
    cases htry : tryVbe bios first m with
    | mk carry m1 =>
      rw [htry] at haccept
      cases carry with
      | false => exact Option.some_ne_none m1
      | true =>
        rcases List.mem_cons.mp hmode with heq | hmem
        · exact absurd (haccept heq.symm) (show true ≠ false by decide)
        · exact ih hmem m1

/-- **Nothing outside of the three buffers changes.** -/
theorem prepare_out (ha : Outside a) {m m' : Mem} (h : prepare bios m = some m') : m' a = m a := by
  obtain ⟨m1, hmode, rfl⟩ := Option.map_eq_some_iff.mp h
  have hbufs : vbeBuf = 0x5000 ∧ memdescBuf = 0x6000 ∧ bootinfoBuf = 0x7000 := ⟨rfl, rfl, rfl⟩
  unfold Outside at ha
  have hmem : ∀ s ∈ memdescStores bios, a < s.1 ∨ s.1 + 4 ≤ a := by
    have hall : ∀ s ∈ memdescStores bios, memdescBuf ≤ s.1 ∧ s.1 ≤ memdescBuf + 36 := by
      simp [memdescStores]
    intro s hs
    have := hall s hs
    omega
  have hboot : ∀ m, ∀ s ∈ bootinfoStores m, a < s.1 ∨ s.1 + 4 ≤ a := by
    have hall : ∀ m, ∀ s ∈ bootinfoStores m, bootinfoBuf ≤ s.1 ∧ s.1 ≤ bootinfoBuf + 60 := by
      simp [bootinfoStores]
    intro m s hs
    have := hall m s hs
    omega
  simp only
  rw [Mem.store_out _ (hboot _), Mem.store_out _ hmem]
  exact chooseMode_out ha hmode

end

theorem repMovsb_out : ∀ (n src dst : ℕ) (m : Mem) {a : ℕ}, a < dst ∨ dst + n ≤ a →
    repMovsb n src dst m a = m a := by
  intro n
  induction n with
  | zero => exact fun _ _ _ _ _ => rfl
  | succ n ih =>
    intro src dst m a ha
    rw [repMovsb, ih _ _ _ (by omega), Mem.fill_out _ (by omega)]

/-- **`rep movsb` to a place behind the source copies it.** -/
theorem repMovsb_copies : ∀ (n src dst : ℕ) (m : Mem), src + n ≤ dst →
    ∀ i, i < n → repMovsb n src dst m (dst + i) = m (src + i) := by
  intro n
  induction n with
  | zero => exact fun _ _ _ _ i hi => absurd hi (Nat.not_lt_zero i)
  | succ n ih =>
    intro src dst m hsrc i hi
    rw [repMovsb]
    cases i with
    | zero =>
      rw [Nat.add_zero, repMovsb_out _ _ _ _ (.inl (by omega))]
      exact Mem.fill_in (i := 0) _ (by omega)
    | succ i =>
      have h := ih (src + 1) (dst + 1) (m.fill dst 1 fun _ => m src) (by omega) i (by omega)
      have hd : dst + 1 + i = dst + (i + 1) := by omega
      have hs : src + 1 + i = src + (i + 1) := by omega
      rw [hd, hs, Mem.fill_out _ (.inl (by omega))] at h
      exact h

/-! ## The whole way -/

section

variable {boot second kernel image : List UInt8} {bios : Bios} {drive : UInt8}

/-- The header sector in memory. -/
theorem header_byte (himage : mklegacy boot second (some kernel) = .ok image) {m : Mem}
    (hm : ∀ i < 512, m (hdrBuf + i) = image.getD (headerLba * 512 + i) 0) {i : ℕ} (hi : i < 12) :
    m (hdrBuf + i) = (header kernel).getD i 0 := by
  rw [hm i (by omega), header_field himage hi]

/-- The mark and the count of the sectors, as `stage2` reads them. -/
theorem header_words (himage : mklegacy boot second (some kernel) = .ok image) {m : Mem}
    (hsector : ∀ i < 512, m (hdrBuf + i) = image.getD (headerLba * 512 + i) 0)
    (hn : Orion.Disk.Mkfat.ceilDiv kernel.length 512 < 2 ^ 16) :
    m.word hdrBuf = 0x524f ∧ m.word (hdrBuf + 2) = 0x324b ∧
      (m.word (hdrBuf + 8)).toNat = Orion.Disk.Mkfat.ceilDiv kernel.length 512 := by
  have hbyte : ∀ {i}, i < 12 → m (hdrBuf + i) = (header kernel).getD i 0 := header_byte himage hsector
  have hcount : (header kernel).getD 8 0 = UInt8.ofNat (Orion.Disk.Mkfat.ceilDiv kernel.length 512) ∧
      (header kernel).getD 9 0 = UInt8.ofNat (Orion.Disk.Mkfat.ceilDiv kernel.length 512 / 2 ^ 8) :=
    ⟨rfl, rfl⟩
  refine ⟨UInt16.toNat_inj.mp ?_, UInt16.toNat_inj.mp ?_, ?_⟩
  · exact word_packH (v := 0x524f) (by omega) (hbyte (by omega : 0 < 12)) (hbyte (by omega : 1 < 12))
  · exact word_packH (v := 0x324b) (by omega) (hbyte (by omega : 2 < 12)) (hbyte (by omega : 3 < 12))
  · exact word_packH hn ((hbyte (by omega : 8 < 12)).trans hcount.1) ((hbyte (by omega : 9 < 12)).trans hcount.2)

/-- **The loader accepts the header and stages the kernel.** -/
theorem loadKernel_stages (himage : mklegacy boot second (some kernel) = .ok image)
    (hpos : 1 ≤ kernel.length)
    (hserves : Serves bios drive image (kernelLba + Orion.Disk.Mkfat.ceilDiv kernel.length 512 - 1))
    (m : Mem) : ∃ m', loadKernel bios drive m = .ok (m',
        (List.range (Orion.Disk.Mkfat.ceilDiv kernel.length 512)).map fun j =>
          ⟨kernelLba + j, 0x10000 + 512 * j⟩) ∧
      (∀ i < 512, m' (hdrBuf + i) = image.getD (headerLba * 512 + i) 0) ∧
      (∀ i < kernel.length, m' (0x10000 + i) = kernel.getD i 0) ∧
      ∀ a, 0x90000 ≤ a → m' a = m a := by
  obtain ⟨-, -, hmax, -⟩ := mklegacy_ok himage
  have hsize : image.length = 1474560 := length_image himage
  have hlbas : headerLba = 17 ∧ kernelLba = 18 := ⟨rfl, rfl⟩
  obtain ⟨hfits, hn1, hn⟩ := ceilDiv_sectors hpos hmax
  clear hpos hmax
  have hwords := fun m hsector => @header_words boot second kernel image himage m hsector (by omega)
  generalize Orion.Disk.Mkfat.ceilDiv kernel.length 512 = n at hserves hfits hn1 hn hwords ⊢
  have hlast : headerLba ≤ kernelLba + n - 1 := by
    rw [hlbas.1, hlbas.2]
    omega
  -- the header sector
  obtain ⟨m1, hm1⟩ : ∃ m1, m1 = m.fill hdrBuf 512 (diskSector image headerLba) := ⟨_, rfl⟩
  have hread : readOne bios { diskInit bios drive with currentLba := 17 } 0x0400 0 m = some (false, m1) := by
    have hlba : (17 : UInt16).toNat = headerLba := rfl
    have haddr : (0x0400 : UInt16).toNat * 16 + (0 : UInt16).toNat = hdrBuf := rfl
    have hin : (headerLba + 1) * 512 ≤ image.length := by
      rw [hsize]
      decide
    have hread := @readOne_serves bios drive image _ hserves { diskInit bios drive with currentLba := 17 }
      ⟨bootDrive_diskInit bios drive, rfl, rfl, rfl⟩ hlast hin 0x0400 0 m
    rw [haddr, hlba] at hread
    rw [hm1]
    exact hread
  have hsector : ∀ i < 512, m1 (hdrBuf + i) = image.getD (headerLba * 512 + i) 0 := by
    intro i hi
    rw [hm1, Mem.fill_in _ hi, diskSector]
  obtain ⟨hor, hk2, hcx⟩ := hwords m1 hsector
  have hcx0 : ¬ m1.word (hdrBuf + 8) = 0 := by
    intro h0
    rw [h0] at hcx
    have hzero : (0 : UInt16).toNat = 0 := rfl
    omega
  -- the kernel
  have hloop := @loadLoop_fill bios drive image _ kernelLba hserves n 0
    { diskInit bios drive with currentLba := UInt16.ofNat kernelLba } kernelTmpSeg m1 []
    ⟨bootDrive_diskInit bios drive, rfl, rfl, rfl⟩ rfl rfl (by omega) (by decide)
    (by rw [hlbas.2]; omega) (by rw [hlbas.2, hsize]; omega)
  have hempty : m1.fill 0x10000 (512 * 0) (fun j => image.getD (kernelLba * 512 + j) 0) = m1 := by
    funext a
    exact Mem.fill_out _ (by omega)
  simp only [Nat.zero_add, List.nil_append] at hloop
  rw [hempty] at hloop
  refine ⟨m1.fill 0x10000 (512 * n) fun j => image.getD (kernelLba * 512 + j) 0, ?_, ?_, ?_, ?_⟩
  · unfold loadKernel
    simp only [hread, hor, hk2, ne_eq, not_true_eq_false, if_false, if_neg hcx0, hcx]
    exact hloop
  · intro i hi
    have hhdr : hdrBuf = 0x4000 := rfl
    rw [Mem.fill_out _ (.inl (by omega))]
    exact hsector i hi
  · intro i hi
    rw [Mem.fill_in _ (by omega)]
    exact image_kernel himage hi
  · intro a ha
    have hhdr : hdrBuf = 0x4000 := rfl
    rw [Mem.fill_out _ (by omega), hm1, Mem.fill_out _ (by omega)]

/-- The copy behind the staged kernel: what protected mode finds at `0x100000`. -/
theorem pmEntry_kernel (himage : mklegacy boot second (some kernel) = .ok image) {m : Mem}
    (hheader : ∀ i < 512, m (hdrBuf + i) = image.getD (headerLba * 512 + i) 0)
    (hstaged : ∀ i < kernel.length, m (0x10000 + i) = kernel.getD i 0) :
    (∀ i < kernel.length, pmEntry m (0x100000 + i) = kernel.getD i 0) ∧
      ∀ a, 0x100000 + kernel.length ≤ a → pmEntry m a = m a := by
  obtain ⟨-, -, hmax, -⟩ := mklegacy_ok himage
  have hmax' : kernel.length ≤ 0x80000 := hmax
  have hfield : ∀ {i}, i < 12 → m (hdrBuf + i) = (header kernel).getD i 0 := header_byte himage hheader
  have hlen : (m.dword (hdrBuf + 4)).toNat = kernel.length :=
    dword_packI (by omega) (hfield (by omega : 4 < 12)) (hfield (by omega : 5 < 12))
      (hfield (by omega : 6 < 12)) (hfield (by omega : 7 < 12))
  refine ⟨fun i hi => ?_, fun a ha => ?_⟩
  · rw [pmEntry, hlen, repMovsb_copies _ _ _ _ (by omega) i hi, hstaged i hi]
  · rw [pmEntry, hlen, repMovsb_out _ _ _ _ (.inr ha)]

/-- **The image and the loader agree.**  For every kernel that is embedded and every drive that serves
the sectors in use, through the extensions or with a geometry: on a drive with a geometry the address
of every sector denotes it; the header is accepted, and the sectors of the kernel are staged one behind
the other between `0x10000` and `0x90000`, with its bytes; the loader stops exactly if none of the video
modes is accepted, and otherwise enters the kernel with its bytes at `0x100000` and nothing written
behind them. -/
theorem legacy_boot_loads_kernel (himage : mklegacy boot second (some kernel) = .ok image)
    (hpos : 1 ≤ kernel.length)
    (hserves : Serves bios drive image (kernelLba + Orion.Disk.Mkfat.ceilDiv kernel.length 512 - 1))
    (m : Mem) :
    (∀ s h, ServesChs bios drive image s h → ∀ v : Vars, ForDrive bios drive v →
      v.currentLba.toNat < 1024 * h * s → ∃ c, chsOf v = some c ∧ 1 ≤ c.sector ∧ c.sector ≤ s ∧
        c.dh.toNat < h ∧ c.denotes s h = v.currentLba.toNat) ∧
    ∃ m' staged, loadKernel bios drive m = .ok (m', staged) ∧
      staged = (List.range (Orion.Disk.Mkfat.ceilDiv kernel.length 512)).map
        (fun j => ⟨kernelLba + j, 0x10000 + 512 * j⟩) ∧
      (∀ r ∈ staged, 0x10000 ≤ r.address ∧ r.address + 512 ≤ 0x90000) ∧
      (∀ i < kernel.length, m' (0x10000 + i) = kernel.getD i 0) ∧
      (chooseMode bios vbeModes m' = none → stage2 bios drive m = .error .vbeFail) ∧
      (chooseMode bios vbeModes m' ≠ none ∨ (∃ mode ∈ vbeModes, Accepts bios mode) →
        ∃ e, stage2 bios drive m = .ok e ∧ (∀ i < kernel.length, e (0x100000 + i) = kernel.getD i 0) ∧
          ∀ a, 0x100000 + kernel.length ≤ a → e a = m a) := by
  obtain ⟨m1, hload, hheader, hstaged, hrest⟩ := loadKernel_stages himage hpos hserves m
  obtain ⟨-, -, hmax, -⟩ := mklegacy_ok himage
  refine ⟨fun s h hchs v hv hlba => ?_, m1, _, hload, rfl, fun r hr => ?_, hstaged, fun hnone => ?_,
    fun hmode => ?_⟩
  · obtain ⟨-, -, hspt, hheads⟩ := hv
    obtain ⟨hs, hh⟩ := hchs.geometry_diskInit
    exact chsOf_denotes (hspt ▸ hs) (hheads ▸ hh) hchs.sectors.1 hchs.sectors.2 hchs.heads.1
      hchs.heads.2 hlba
  · have hn := (ceilDiv_sectors hpos hmax).2.2
    obtain ⟨j, hj, rfl⟩ := List.mem_map.mp hr
    have hlt := List.mem_range.mp hj
    simp only
    generalize Orion.Disk.Mkfat.ceilDiv kernel.length 512 = n at hn hlt
    omega
  · unfold stage2 prepare
    simp only [hload, hnone, Option.map_none]
  · have hsome : chooseMode bios vbeModes m1 ≠ none := by
      rcases hmode with h | ⟨mode, hmem, haccept⟩
      · exact h
      · exact chooseMode_accepts haccept hmem m1
    obtain ⟨m2, hprep⟩ : ∃ m2, prepare bios m1 = some m2 := by
      obtain ⟨m0, hm0⟩ := Option.ne_none_iff_exists'.mp hsome
      exact ⟨_, by rw [prepare, hm0, Option.map_some]⟩
    have hbufs : hdrBuf = 0x4000 ∧ vbeBuf = 0x5000 ∧ bootinfoBuf = 0x7000 := ⟨rfl, rfl, rfl⟩
    have hkeep : ∀ {a}, Outside a → m2 a = m1 a := fun ha => prepare_out ha hprep
    obtain ⟨hkernel, hbehind⟩ := pmEntry_kernel himage (m := m2)
      (fun i hi => (hkeep (.inl (by omega))).trans (hheader i hi))
      (fun i hi => (hkeep (.inr (by omega))).trans (hstaged i hi))
    refine ⟨pmEntry m2, ?_, hkernel, fun a ha => ?_⟩
    · unfold stage2
      simp only [hload, hprep]
    · rw [hbehind a ha, hkeep (.inr (by omega)), hrest a (by omega)]

end

/-- A BIOS with one floppy drive and a 32-bit video mode. -/
def floppyBios (disk : List UInt8) : Bios where
  checkExtensions _ := (true, 0, 0)
  driveParameters _ := (false, 18, 1)
  readExtended _ dap m := (true, m.fill (dap.segment.toNat * 16 + dap.offset.toNat) 512 fun _ => 0)
  readSectors _ _ chs es bx m :=
    (false, m.fill (es.toNat * 16 + bx.toNat) 512 (diskSector disk (chs.denotes 18 2)))
  vbeModeInfo _ _ := (0x4f, fun i => if i = 0 then 0x80 else if i = 25 then 32 else 0)
  vbeSetMode _ := 0x4f
  memorySize := (true, 0, 0, 0)

theorem floppyBios_serves (disk : List UInt8) (drive : UInt8) :
    ServesChs (floppyBios disk) drive disk 18 2 where
  sectors := ⟨by omega, by omega⟩
  heads := ⟨by omega, by omega⟩
  geometry := ⟨18, 1, rfl, by decide, by decide⟩
  reads := fun _ _ _ _ _ _ _ _ => rfl
  extended := fun _ _ _ _ => .inr ⟨_, rfl⟩

theorem floppyBios_accepts (disk : List UInt8) (mode : UInt16) : Accepts (floppyBios disk) mode where
  info := fun _ => rfl
  good := fun m => by simp [modeOk, Mem.word, Mem.fill, floppyBios]
  sets := rfl

/-- A kernel of three sectors, the last of them not full, comes from the floppy disk into its place. -/
theorem legacy_boot_loads_kernel_smoke :
    let kernel := (List.range 1300).map UInt8.ofNat
    ∃ image, mklegacy (List.replicate 510 0 ++ [0x55, 0xaa]) [] (some kernel) = .ok image ∧
      (∃ m', loadKernel (floppyBios image) 0 (fun _ => 0) =
        .ok (m', [⟨18, 0x10000⟩, ⟨19, 0x10200⟩, ⟨20, 0x10400⟩])) ∧
      ∃ e, stage2 (floppyBios image) 0 (fun _ => 0) = .ok e ∧
        (∀ i < 1300, e (0x100000 + i) = kernel.getD i 0) ∧
        ∀ a, 0x100000 + 1300 ≤ a → e a = 0 := by
  intro kernel
  have hsign : ((List.replicate 510 (0 : UInt8) ++ [0x55, 0xaa]).drop 510).take 2 = [0x55, 0xaa] := by
    rw [List.drop_left' List.length_replicate]
    rfl
  have hlen : (List.replicate 510 (0 : UInt8) ++ [0x55, 0xaa]).length = 512 := by
    rw [List.length_append, List.length_replicate]
    rfl
  have hkernel : kernel.length = 1300 := by rw [List.length_map, List.length_range]
  have hmax : kernelTmpMax = 524288 := rfl
  have himage := @mklegacy_accepts (List.replicate 510 0 ++ [0x55, 0xaa]) [] kernel hlen hsign
    (Nat.zero_le _) (by omega)
  have hsectors : Orion.Disk.Mkfat.ceilDiv kernel.length 512 = 3 := by
    rw [hkernel]
    decide
  have hlast : kernelLba + Orion.Disk.Mkfat.ceilDiv kernel.length 512 - 1 < 1024 * 2 * 18 := by
    rw [hsectors]
    decide
  obtain ⟨-, m', staged, hload, hstaged, -, -, -, henter⟩ := legacy_boot_loads_kernel himage
    (by omega) (.inr ⟨18, 2, floppyBios_serves _ 0, hlast⟩) fun _ => 0
  have hmode : (0x144 : UInt16) ∈ vbeModes := by decide
  obtain ⟨e, he, hbytes, hbehind⟩ := henter (.inr ⟨0x144, hmode, floppyBios_accepts _ _⟩)
  rw [hkernel] at hbytes hbehind
  refine ⟨_, himage, ⟨m', ?_⟩, e, he, hbytes, hbehind⟩
  rw [hload, hstaged, hsectors]
  rfl

end Orion.Legacy
