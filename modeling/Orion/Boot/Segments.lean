import Mathlib.Data.List.GetD
import Orion.Boot.Loader

/-!
# What the loader leaves in memory

The program headers are read off the file by `phdr`.  Firmware is `Lawful` if it keeps to what its
interface promises, above all that `AllocatePages` succeeds only on free pages.  Then the pages of the file
buffer and of the segments that are already loaded are never handed out again, and that is the invariant of
the loop (`Loading`): the buffer holds the file, the first `n` segments are in place, and nothing else was
written.  `load_kernel_exact` reads the result off it.
-/

namespace Orion.Boot

open Orion.Traced
open Orion.Install (Status efiSuccess efiErr efiError)

/-! ## The image that a file describes -/

/-- The little-endian number of `n` bytes at `off` in a file. -/
def field (file : List UInt8) (off n : ℕ) : ℕ :=
  ((file.drop off).take n).foldr (fun c v => c.toNat + 256 * v) 0

theorem field_lt (file : List UInt8) (off n : ℕ) : field file off n < 256 ^ n := by
  have hbytes : ∀ bytes : List UInt8,
      bytes.foldr (fun c v => c.toNat + 256 * v) 0 < 256 ^ bytes.length := by
    intro bytes
    induction bytes with
    | nil => exact Nat.one_pos
    | cons c bytes ih =>
      have hc := c.toNat_lt
      rw [List.foldr_cons, List.length_cons, Nat.pow_succ]
      omega
  exact lt_of_lt_of_le (hbytes _) (Nat.pow_le_pow_right (by decide) (List.length_take_le n _))

/-- A program header. -/
structure Phdr where
  type : ℕ
  offset : ℕ
  paddr : ℕ
  filesz : ℕ
  memsz : ℕ

def phdrAt (file : List UInt8) (o : ℕ) : Phdr :=
  ⟨field file o 4, field file (o + 8) 8, field file (o + 24) 8, field file (o + 32) 8,
    field file (o + 40) 8⟩

/-- The program header with index `i`. -/
def phdr (file : List UInt8) (i : ℕ) : Phdr := phdrAt file (field file 32 8 + 56 * i)

def phnum (file : List UInt8) : ℕ := field file 56 2

/-- The headers that are loaded: `PT_LOAD` with a size. -/
def Phdr.Loads (h : Phdr) : Prop := h.type = 1 ∧ h.memsz ≠ 0

/-- The addresses of a segment. -/
def Phdr.Covers (h : Phdr) (a : ℕ) : Prop := h.paddr ≤ a ∧ a < h.paddr + h.memsz

/-- What a segment has at offset `k`: its bytes of the file, then zeros. -/
def Phdr.content (h : Phdr) (file : List UInt8) (k : ℕ) : UInt8 :=
  if k < h.filesz then file.getD (h.offset + k) 0 else 0

instance (h : Phdr) (a : ℕ) : Decidable (h.Covers a) := inferInstanceAs (Decidable (_ ∧ _))

/-- Memory with a segment put in place. -/
def Phdr.place (h : Phdr) (file : List UInt8) (mem : Memory) : Memory := fun a =>
  if h.Covers a then h.content file (a - h.paddr) else mem a

/-- The image of a file over a memory: every loaded segment lies within the file and is in its place, and
every other address is as before. -/
structure Materialised (file : List UInt8) (before after : Memory) : Prop where
  within : ∀ i < phnum file, (phdr file i).Loads →
    (phdr file i).filesz ≤ (phdr file i).memsz ∧
      (phdr file i).offset + (phdr file i).filesz ≤ file.length
  placed : ∀ i < phnum file, (phdr file i).Loads → ∀ k < (phdr file i).memsz,
    after ((phdr file i).paddr + k) = (phdr file i).content file k
  unchanged : ∀ a, (∀ i < phnum file, (phdr file i).Loads → ¬ (phdr file i).Covers a) →
    after a = before a

/-! ## Memory that holds a file -/

def Holds (mem : Memory) (p : ℕ) (file : List UInt8) : Prop :=
  ∀ k < file.length, mem (p + k) = file.getD k 0

/-- The addresses of the file buffer. -/
def InBuffer (buffer size a : ℕ) : Prop := buffer ≤ a ∧ a < buffer + size

theorem holds_copyMem (mem : Memory) (p : ℕ) (file : List UInt8) :
    Holds (copyMem mem p file) p file := by
  intro k hk
  rw [copyMem, if_pos (by omega), Nat.add_sub_cancel_left]

section

variable {mem : Memory} {p : ℕ} {file : List UInt8}

theorem Holds.readSpan (h : Holds mem p file) {off n : ℕ} (hle : off + n ≤ file.length) :
    (Traced.readSpan mem (p + off) n).value = (file.drop off).take n := by
  rw [value_readSpan]
  refine List.ext_getElem (by simp; omega) fun k hk _ => ?_
  rw [List.length_map, List.length_range] at hk
  have hcell : mem (p + (off + k)) = file.getD (off + k) 0 := h (off + k) (by omega)
  rw [List.getElem_map, List.getElem_range, Nat.add_assoc, hcell, List.getElem_take, List.getElem_drop,
    List.getD_eq_getElem file 0 (by omega)]

theorem Holds.readLe (h : Holds mem p file) {q off n : ℕ} (hq : q = p + off)
    (hle : off + n ≤ file.length) : (Boot.readLe mem q n).value = field file off n := by
  rw [Boot.readLe, value_bind, hq, h.readSpan hle]
  rfl

theorem within_readLe (P : ℕ → Prop) (mem : Memory) (q n : ℕ) :
    Within P (Boot.readLe mem q n) ↔ ∀ k < n, P (q + k) := by
  simp [Boot.readLe]

/-- A read at an offset of the file stays within the buffer. -/
theorem inBuffer_span {q off n size : ℕ} (hq : q = p + off) (hle : off + n ≤ size) :
    ∀ k < n, InBuffer p size (q + k) := by
  intro k hk
  exact ⟨by omega, by omega⟩

end

/-! ## Putting a segment in place -/

theorem copyMem_file (mem : Memory) (dst : ℕ) {file : List UInt8} {off n : ℕ}
    (hle : off + n ≤ file.length) (a : ℕ) :
    copyMem mem dst ((file.drop off).take n) a =
      if dst ≤ a ∧ a < dst + n then file.getD (off + (a - dst)) 0 else mem a := by
  have hlen : ((file.drop off).take n).length = n := by
    rw [List.length_take, List.length_drop]
    omega
  rw [copyMem, hlen]
  by_cases ha : dst ≤ a ∧ a < dst + n
  · rw [if_pos ha, if_pos ha, List.getD_eq_getElem _ 0 (by omega), List.getElem_take, List.getElem_drop,
      List.getD_eq_getElem file 0 (by omega)]
  · rw [if_neg ha, if_neg ha]

/-- A segment that is all in the file: the copy alone puts it in place. -/
theorem Phdr.place_full (h : Phdr) (file : List UInt8) (mem : Memory) (hsize : h.memsz = h.filesz)
    (hle : h.offset + h.filesz ≤ file.length) :
    copyMem mem h.paddr ((file.drop h.offset).take h.filesz) = h.place file mem := by
  funext a
  rw [copyMem_file mem h.paddr hle, Phdr.place]
  by_cases ha : h.Covers a
  · obtain ⟨hlow, hhigh⟩ := ha
    rw [if_pos ⟨hlow, by omega⟩, if_pos ⟨hlow, hhigh⟩, Phdr.content, if_pos (by omega)]
  · have hcopy : ¬ (h.paddr ≤ a ∧ a < h.paddr + h.filesz) := by
      rw [← hsize]
      exact ha
    rw [if_neg ha, if_neg hcopy]

/-- A segment with a rest of zeros: the copy and then the filling put it in place. -/
theorem Phdr.place_zeros (h : Phdr) (file : List UInt8) (mem : Memory) (hsize : h.filesz ≤ h.memsz)
    (hle : h.offset + h.filesz ≤ file.length) :
    setMem (copyMem mem h.paddr ((file.drop h.offset).take h.filesz)) (h.paddr + h.filesz)
        (h.memsz - h.filesz) 0 = h.place file mem := by
  funext a
  rw [setMem, copyMem_file mem h.paddr hle, Phdr.place, Phdr.content]
  by_cases ha : h.Covers a
  · obtain ⟨hlow, hhigh⟩ := ha
    rw [if_pos (show h.Covers a from ⟨hlow, hhigh⟩)]
    by_cases hfile : a - h.paddr < h.filesz
    · rw [if_neg (by omega), if_pos ⟨hlow, by omega⟩, if_pos hfile]
    · rw [if_pos ⟨by omega, by omega⟩, if_neg hfile]
  · have hout : ¬ (h.paddr ≤ a ∧ a < h.paddr + h.memsz) := ha
    rw [if_neg ha, if_neg (by omega), if_neg (by omega)]

/-! ## The firmware's promises -/

theorem efiError_ne {status : Status} (h : efiError status = true) : status ≠ efiSuccess := by
  rintro rfl
  exact absurd h (by decide)

theorem efiLoadError_ne : efiLoadError ≠ efiSuccess := by decide

/-- What the firmware's interface promises: asking for the file's information without a buffer does not
succeed, what has been allocated is not free and stays so, and pages are allocated only where whole free
pages are. -/
structure Lawful {σ : Type} (fw : Firmware σ) : Prop where
  infoSize : ∀ s, (fw.infoSize s).1 ≠ efiSuccess
  allocateBuffer : ∀ s n, efiError (fw.allocateBuffer s n).1 = false →
    ∀ k < n, fw.free (fw.allocateBuffer s n).2.2 (((fw.allocateBuffer s n).2.1 + k) / 4096) = false
  readFile : ∀ s n p, fw.free s p = false → fw.free (fw.readFile s n).2.2 p = false
  keepsPages : ∀ s n addr p, fw.free s p = false → fw.free (fw.allocatePages s n addr).2 p = false
  allocatePages : ∀ s n addr, efiError (fw.allocatePages s n addr).1 = false → addr % 4096 = 0 ∧
    ∀ p, addr / 4096 ≤ p → p < addr / 4096 + n →
      fw.free s p = true ∧ fw.free (fw.allocatePages s n addr).2 p = false

section

variable {σ : Type} {fw : Firmware σ} {buffer : ℕ} {file : List UInt8} {mem : Memory} {s : σ}

/-- No page of the file buffer is free. -/
def BufferHeld (fw : Firmware σ) (buffer size : ℕ) (s : σ) : Prop :=
  ∀ k < size, fw.free s ((buffer + k) / 4096) = false

/-- The pages of a segment were free before its allocation, and are not free after it. -/
theorem Lawful.segment (hl : Lawful fw) (h : Phdr)
    (hok : efiError (fw.allocatePages s (efiSizeToPages h.memsz) h.paddr).1 = false) {a : ℕ}
    (ha : h.Covers a) : fw.free s (a / 4096) = true ∧
      fw.free (fw.allocatePages s (efiSizeToPages h.memsz) h.paddr).2 (a / 4096) = false := by
  obtain ⟨haligned, hpages⟩ := hl.allocatePages s _ _ hok
  obtain ⟨hlow, hhigh⟩ := ha
  refine hpages (a / 4096) (Nat.div_le_div_right hlow) ?_
  unfold efiSizeToPages
  split <;> omega

/-- What is put in freshly allocated pages does not touch the file buffer. -/
theorem BufferHeld.holds (hheld : BufferHeld fw buffer file.length s) (hm : Holds mem buffer file)
    {mem' : Memory} (hsame : ∀ a, fw.free s (a / 4096) = false → mem' a = mem a) :
    Holds mem' buffer file := by
  intro k hk
  rw [hsame (buffer + k) (hheld k hk), hm k hk]

/-! ## One segment -/

/-- A turn of the loop reads the file buffer only, whatever memory holds. -/
theorem loadSegment_within (fw : Firmware σ) (mem : Memory) (s : σ) {size ph o : ℕ}
    (hph : ph = buffer + o) (ho : o + 56 ≤ size) :
    Within (InBuffer buffer size) (loadSegment fw buffer size ph mem s) := by
  have hword : ∀ (m : Memory) (d n : ℕ), d + n ≤ 56 →
      Within (InBuffer buffer size) (readLe m (ph + d) n) := by
    intro m d n hd
    rw [within_readLe]
    exact inBuffer_span (show ph + d = buffer + (o + d) by omega) (by omega)
  unfold loadSegment
  refine (within_bind _ _ _).mpr ⟨hword mem 0 4 (by omega), ?_⟩
  refine (within_ite _ _ _ _).mpr ⟨fun _ => within_pure _ _, fun _ => ?_⟩
  refine (within_bind _ _ _).mpr ⟨hword mem 40 8 (by omega), ?_⟩
  refine (within_ite _ _ _ _).mpr ⟨fun _ => within_pure _ _, fun _ => ?_⟩
  refine (within_bind _ _ _).mpr ⟨hword mem 32 8 (by omega), ?_⟩
  refine (within_ite _ _ _ _).mpr ⟨fun _ => within_pure _ _, fun _ => ?_⟩
  refine (within_bind _ _ _).mpr ⟨hword mem 8 8 (by omega), ?_⟩
  refine (within_ite _ _ _ _).mpr ⟨fun _ => within_pure _ _, fun hbounds => ?_⟩
  refine (within_bind _ _ _).mpr ⟨hword mem 24 8 (by omega), ?_⟩
  refine (within_ite _ _ _ _).mpr ⟨fun _ => within_pure _ _, fun _ => ?_⟩
  refine (within_bind _ _ _).mpr ⟨?_, ?_⟩
  · rw [within_readSpan]
    exact inBuffer_span rfl (by omega)
  refine (within_bind _ _ _).mpr ⟨hword _ 40 8 (by omega), ?_⟩
  refine (within_bind _ _ _).mpr ⟨hword _ 32 8 (by omega), ?_⟩
  refine (within_ite _ _ _ _).mpr ⟨fun _ => ?_, fun _ => within_pure _ _⟩
  exact (within_bind _ _ _).mpr ⟨hword _ 24 8 (by omega), within_pure _ _⟩

/-- A turn of the loop that does not return: the header is skipped, or its segment is put in place, in
pages that were free. -/
def Turned (fw : Firmware σ) (file : List UInt8) (h : Phdr) (mem : Memory) (s : σ) (mem' : Memory)
    (s' : σ) : Prop :=
  (¬ h.Loads ∧ mem' = mem ∧ s' = s) ∨
    (h.Loads ∧ h.filesz ≤ h.memsz ∧ h.offset + h.filesz ≤ file.length ∧ mem' = h.place file mem ∧
      (∀ p, fw.free s p = false → fw.free s' p = false) ∧
      ∀ a, h.Covers a → fw.free s (a / 4096) = true ∧ fw.free s' (a / 4096) = false)

/-- A program header as the loader reads it at `ph`. -/
structure HasPhdr (mem : Memory) (ph : ℕ) (h : Phdr) : Prop where
  type : (readLe mem ph 4).value = h.type
  offset : (readLe mem (ph + 8) 8).value = h.offset
  paddr : (readLe mem (ph + 24) 8).value = h.paddr
  filesz : (readLe mem (ph + 32) 8).value = h.filesz
  memsz : (readLe mem (ph + 40) 8).value = h.memsz

theorem Holds.hasPhdr (hm : Holds mem buffer file) {ph o : ℕ} (hph : ph = buffer + o)
    (ho : o + 56 ≤ file.length) : HasPhdr mem ph (phdrAt file o) where
  type := hm.readLe (by omega) (by omega)
  offset := hm.readLe (by omega) (by omega)
  paddr := hm.readLe (by omega) (by omega)
  filesz := hm.readLe (by omega) (by omega)
  memsz := hm.readLe (by omega) (by omega)

theorem loadSegment_spec (hl : Lawful fw) (hheld : BufferHeld fw buffer file.length s)
    (hm : Holds mem buffer file) {ph : ℕ} {h : Phdr}
    (hph : ∀ m, Holds m buffer file → HasPhdr m ph h) :
    (∃ r, (loadSegment fw buffer file.length ph mem s).value = .error r ∧ r.1 ≠ efiSuccess) ∨
      ∃ mem' s', (loadSegment fw buffer file.length ph mem s).value = .ok (mem', s') ∧
        Turned fw file h mem s mem' s' := by
  have hread := hph mem hm
  unfold loadSegment
  rw [value_bind, hread.type, value_ite]
  by_cases hload : h.type ≠ ptLoad
  · rw [if_pos hload]
    exact .inr ⟨mem, s, rfl, .inl ⟨fun hl => hload hl.1, rfl, rfl⟩⟩
  rw [if_neg hload, value_bind, hread.memsz, value_ite]
  by_cases hzero : h.memsz = 0
  · rw [if_pos hzero]
    exact .inr ⟨mem, s, rfl, .inl ⟨fun hl => hl.2 hzero, rfl, rfl⟩⟩
  rw [if_neg hzero, value_bind, hread.filesz, value_ite]
  by_cases hsize : h.filesz > h.memsz
  · rw [if_pos hsize]
    exact .inl ⟨_, rfl, efiLoadError_ne⟩
  rw [if_neg hsize, value_bind, hread.offset, value_ite]
  by_cases hbounds : h.offset > file.length ∨ h.filesz > file.length - h.offset
  · rw [if_pos hbounds]
    exact .inl ⟨_, rfl, efiLoadError_ne⟩
  rw [if_neg hbounds, value_bind, hread.paddr, value_ite]
  cases hok : efiError (fw.allocatePages s (efiSizeToPages h.memsz) h.paddr).1 with
  | true =>
    rw [if_pos rfl]
    exact .inl ⟨_, rfl, efiError_ne hok⟩
  | false =>
    have hle : h.offset + h.filesz ≤ file.length := by omega
    have hpages := fun a (ha : h.Covers a) => hl.segment h hok ha
    have hkeeps := hl.keepsPages s (efiSizeToPages h.memsz) h.paddr
    have hturned : Turned fw file h mem s (h.place file mem)
        (fw.allocatePages s (efiSizeToPages h.memsz) h.paddr).2 :=
      .inr ⟨⟨not_not.mp hload, hzero⟩, by omega, hle, rfl, hkeeps, hpages⟩
    -- the copy stays out of the buffer, so the header read again is what it was
    have hcopied : Holds (copyMem mem h.paddr ((file.drop h.offset).take h.filesz)) buffer file := by
      refine hheld.holds hm fun a ha => ?_
      rw [copyMem_file mem h.paddr hle, if_neg]
      rintro ⟨hlow, hhigh⟩
      have hfree := (hpages a ⟨hlow, by omega⟩).1
      rw [ha] at hfree
      exact absurd hfree (by decide)
    have hagain := hph _ hcopied
    rw [if_neg (by decide), value_bind, hm.readSpan hle, value_bind, hagain.memsz, value_bind,
      hagain.filesz, value_ite]
    by_cases hrest : h.memsz > h.filesz
    · rw [if_pos hrest, value_bind, hagain.paddr, h.place_zeros file mem (by omega) hle]
      exact .inr ⟨_, _, rfl, hturned⟩
    · rw [if_neg hrest, h.place_full file mem (by omega) hle]
      exact .inr ⟨_, _, rfl, hturned⟩

/-! ## The loop -/

/-- **The invariant of the loop.**  The buffer holds the file, the first `n` segments are in place, all
their pages are held, and nothing else was written. -/
structure Loading (fw : Firmware σ) (buffer : ℕ) (file : List UInt8) (before : Memory) (n : ℕ)
    (mem : Memory) (s : σ) : Prop where
  held : BufferHeld fw buffer file.length s
  holds : Holds mem buffer file
  within : ∀ i < n, (phdr file i).Loads →
    (phdr file i).filesz ≤ (phdr file i).memsz ∧
      (phdr file i).offset + (phdr file i).filesz ≤ file.length
  placed : ∀ i < n, (phdr file i).Loads → ∀ k < (phdr file i).memsz,
    mem ((phdr file i).paddr + k) = (phdr file i).content file k
  pages : ∀ i < n, (phdr file i).Loads → ∀ k < (phdr file i).memsz,
    fw.free s (((phdr file i).paddr + k) / 4096) = false
  unchanged : ∀ a, (∀ i < n, (phdr file i).Loads → ¬ (phdr file i).Covers a) → mem a = before a

variable {before : Memory} {n : ℕ}

theorem Loading.turn (h : Loading fw buffer file before n mem s) {mem' : Memory} {s' : σ}
    (ht : Turned fw file (phdr file n) mem s mem' s') :
    Loading fw buffer file before (n + 1) mem' s' := by
  rcases ht with ⟨hskip, rfl, rfl⟩ | ⟨hload, hsize, hbounds, rfl, hkeeps, hpages⟩
  · -- the header is skipped, so nothing is to be said of it
    have hlt : ∀ i < n + 1, (phdr file i).Loads → i < n := by
      intro i hi hl
      rcases Nat.lt_succ_iff_lt_or_eq.mp hi with hi | rfl
      · exact hi
      · exact absurd hl hskip
    exact ⟨h.held, h.holds, fun i hi hl => h.within i (hlt i hi hl) hl,
      fun i hi hl => h.placed i (hlt i hi hl) hl, fun i hi hl => h.pages i (hlt i hi hl) hl,
      fun a ha => h.unchanged a fun i hi => ha i (by omega)⟩
  · -- what is put in free pages leaves every held page alone
    have hframe : ∀ a, fw.free s (a / 4096) = false → (phdr file n).place file mem a = mem a := by
      intro a ha
      rw [Phdr.place, if_neg]
      intro hcov
      have hfree := (hpages a hcov).1
      rw [ha] at hfree
      exact absurd hfree (by decide)
    refine ⟨fun k hk => hkeeps _ (h.held k hk), h.held.holds h.holds hframe, ?_, ?_, ?_, ?_⟩
    · intro i hi hl
      rcases Nat.lt_succ_iff_lt_or_eq.mp hi with hi | rfl
      · exact h.within i hi hl
      · exact ⟨hsize, hbounds⟩
    · intro i hi hl k hk
      rcases Nat.lt_succ_iff_lt_or_eq.mp hi with hi | rfl
      · rw [hframe _ (h.pages i hi hl k hk), h.placed i hi hl k hk]
      · rw [Phdr.place, if_pos ⟨by omega, by omega⟩, Nat.add_sub_cancel_left]
    · intro i hi hl k hk
      rcases Nat.lt_succ_iff_lt_or_eq.mp hi with hi | rfl
      · exact hkeeps _ (h.pages i hi hl k hk)
      · exact (hpages _ ⟨by omega, by omega⟩).2
    · intro a ha
      rw [Phdr.place, if_neg (ha n (by omega) hload), h.unchanged a fun i hi => ha i (by omega)]

/-- What `valid_kernel_elf` checks of the sizes in the header. -/
structure HeaderOk (file : List UInt8) : Prop where
  header : 64 ≤ file.length
  table : field file 32 8 + 56 * phnum file ≤ file.length

theorem HeaderOk.entry (hv : HeaderOk file) {i : ℕ} (hi : i < phnum file) :
    field file 32 8 + 56 * i + 56 ≤ file.length := by
  have htable := hv.table
  omega

theorem Loading.count (h : Loading fw buffer file before n mem s) (hv : HeaderOk file) :
    (readLe mem (buffer + 56) 2).value = phnum file :=
  h.holds.readLe rfl (by have hheader := hv.header; omega)

theorem Loading.segments (hl : Lawful fw) (hv : HeaderOk file) {ph : ℕ}
    (hph : ph = buffer + field file 32 8) : ∀ {fuel n : ℕ} {mem : Memory} {s : σ},
    Loading fw buffer file before n mem s → n ≤ phnum file → phnum file < n + fuel →
    Within (InBuffer buffer file.length) (loadSegments fw buffer file.length ph fuel n mem s) ∧
    ∃ r, (loadSegments fw buffer file.length ph fuel n mem s).value = some r ∧
      (r.1 = efiSuccess → Loading fw buffer file before (phnum file) r.2.1 r.2.2) := by
  intro fuel
  induction fuel with
  | zero =>
    intro n mem s _ hn hfuel
    omega
  | succ fuel ih =>
    intro n mem s h hn hfuel
    have hheader := hv.header
    have hcount : Within (InBuffer buffer file.length) (readLe mem (buffer + 56) 2) := by
      rw [within_readLe]
      exact inBuffer_span rfl (by omega)
    rw [loadSegments, within_bind, value_bind, h.count hv, value_ite, within_ite]
    by_cases hlt : n < phnum file
    · have hbounds := hv.entry hlt
      have hat : ph + phdrSize * n = buffer + (field file 32 8 + 56 * n) := by
        rw [hph, phdrSize]
        omega
      have hturn := loadSegment_within fw mem s hat hbounds
      rw [if_pos hlt, within_bind, value_bind]
      rcases loadSegment_spec hl h.held h.holds fun m hm => hm.hasPhdr hat hbounds with
        ⟨r, hr, hne⟩ | ⟨mem', s', hr, hturned⟩
      · rw [hr]
        exact ⟨⟨hcount, fun _ => ⟨hturn, within_pure _ _⟩, fun hge => absurd hlt hge⟩,
          r, rfl, fun hs => absurd hs hne⟩
      · obtain ⟨hrest, hrun⟩ := ih (h.turn hturned) hlt (by omega)
        rw [hr]
        exact ⟨⟨hcount, fun _ => ⟨hturn, hrest⟩, fun hge => absurd hlt hge⟩, hrun⟩
    · obtain rfl : n = phnum file := by omega
      rw [if_neg hlt]
      exact ⟨⟨hcount, fun hlt' => absurd hlt' hlt, fun _ => within_pure _ _⟩, _, rfl, fun _ => h⟩

/-! ## The whole loader -/

theorem within_validKernelElf (mem : Memory) (buffer size : ℕ) :
    Within (InBuffer buffer size) (validKernelElf mem buffer size) := by
  unfold validKernelElf
  refine (within_ite _ _ _ _).mpr ⟨fun _ => within_pure _ _, fun hsize => ?_⟩
  have hword : ∀ d n, d + n ≤ 64 → ∀ k < n, InBuffer buffer size (buffer + d + k) := by
    intro d n hd
    rw [ehdrSize] at hsize
    exact inBuffer_span rfl (by omega)
  simp only [within_bind, within_readLe, within_readSpan, within_ite, within_pure, implies_true, true_and,
    and_true]
  exact ⟨hword 0 6 (by omega), hword 18 2 (by omega), hword 54 2 (by omega),
    fun _ => ⟨hword 32 8 (by omega), fun _ => hword 56 2 (by omega)⟩⟩

theorem validKernelElf_ok (hm : Holds mem buffer file)
    (hvalid : (validKernelElf mem buffer file.length).value = true) : HeaderOk file := by
  unfold validKernelElf at hvalid
  rw [value_ite] at hvalid
  by_cases hsize : file.length < ehdrSize
  · rw [if_pos hsize] at hvalid
    exact absurd hvalid Bool.false_ne_true
  rw [ehdrSize] at hsize
  have hphoff : (readLe mem (buffer + 32) 8).value = field file 32 8 := hm.readLe rfl (by omega)
  have hphnum : (readLe mem (buffer + 56) 2).value = phnum file := hm.readLe rfl (by omega)
  rw [if_neg (by rw [ehdrSize]; omega), value_bind, value_bind, value_bind, value_ite] at hvalid
  split at hvalid
  · exact absurd hvalid Bool.false_ne_true
  rw [value_bind, hphoff, value_ite] at hvalid
  split at hvalid
  · exact absurd hvalid Bool.false_ne_true
  · next hoff =>
    rw [value_bind, hphnum, value_ite] at hvalid
    split at hvalid
    · exact absurd hvalid Bool.false_ne_true
    · next htable =>
      rw [phdrSize] at htable
      exact ⟨by omega, by omega⟩

theorem Loading.init (hheld : BufferHeld fw buffer file.length s) (hm : Holds mem buffer file) :
    Loading fw buffer file mem 0 mem s :=
  ⟨hheld, hm, fun i hi => absurd hi (Nat.not_lt_zero i), fun i hi => absurd hi (Nat.not_lt_zero i),
    fun i hi => absurd hi (Nat.not_lt_zero i), fun _ _ => rfl⟩

theorem Loading.materialised (h : Loading fw buffer file before (phnum file) mem s) :
    Materialised file before mem :=
  ⟨h.within, h.placed, h.unchanged⟩

/-- What a run of the loader is to be: it reads the buffer only, it ends, and if it ends well then it
leaves the image in memory and yields the entry address. -/
def Runs (buffer : ℕ) (file : List UInt8) (size : ℕ) (before : Memory)
    (run : Traced ℕ (Option (Status × Option ℕ × Memory × σ))) : Prop :=
  Within (InBuffer buffer size) run ∧ ∃ r, run.value = some r ∧
    (r.1 = efiSuccess → file.length = size ∧ r.2.1 = some (field file 24 8) ∧
      Materialised file before r.2.2.1)

/-- A run that ends at once, and not well. -/
theorem Runs.fails {size : ℕ} {r : Status × Option ℕ × Memory × σ} (h : r.1 ≠ efiSuccess) :
    Runs buffer file size before (pure (some r)) :=
  ⟨within_pure _ _, r, rfl, fun hs => absurd hs h⟩

/-- A check that ends the run if it fails. -/
theorem Runs.check {size : ℕ} {c : Prop} [Decidable c] {r : Status × Option ℕ × Memory × σ}
    {run : Traced ℕ (Option (Status × Option ℕ × Memory × σ))} (hc : c → r.1 ≠ efiSuccess)
    (h : ¬ c → Runs buffer file size before run) :
    Runs buffer file size before (if c then pure (some r) else run) := by
  split
  · next hfail => exact Runs.fails (hc hfail)
  · next hpass => exact h hpass

theorem loadImage_runs (hl : Lawful fw) (hheld : BufferHeld fw buffer file.length s)
    (hm : Holds mem buffer file) {fuel : ℕ} (hfuel : 65536 ≤ fuel) :
    Runs buffer file file.length mem (loadImage fw buffer file.length fuel mem s) := by
  have hcheck := within_validKernelElf mem buffer file.length
  unfold loadImage
  cases hvalid : (validKernelElf mem buffer file.length).value with
  | false =>
    refine ⟨?_, (efiLoadError, none, mem, s), ?_, fun hs => absurd hs efiLoadError_ne⟩
    · rw [within_bind, hvalid]
      exact ⟨hcheck, within_pure _ _⟩
    · rw [value_bind, hvalid]
      rfl
  | true =>
    have hv := validKernelElf_ok hm hvalid
    have hheader := hv.header
    have hphoff : (readLe mem (buffer + 32) 8).value = field file 32 8 := hm.readLe rfl (by omega)
    have hword : ∀ (m : Memory) (d : ℕ), d + 8 ≤ 64 →
        Within (InBuffer buffer file.length) (readLe m (buffer + d) 8) := by
      intro m d hd
      rw [within_readLe]
      exact inBuffer_span rfl (by omega)
    have hcount : phnum file < 256 ^ 2 := field_lt file 56 2
    obtain ⟨hin, r, hr, hdone⟩ := (Loading.init hheld hm).segments hl hv
      (Eq.refl (buffer + field file 32 8)) (Nat.zero_le _) (show phnum file < 0 + fuel by omega)
    obtain ⟨status, mem', s'⟩ := r
    unfold Runs
    rw [within_bind, value_bind, hvalid, if_neg (by decide), within_bind, value_bind, hphoff, within_bind,
      value_bind, hr]
    by_cases hs : status = efiSuccess
    · have hloaded := hdone hs
      have hentry : (readLe mem' (buffer + 24) 8).value = field file 24 8 :=
        hloaded.holds.readLe rfl (by omega)
      subst hs
      simp only [ne_eq, not_true_eq_false, if_false, within_bind, value_bind, hentry]
      exact ⟨⟨hcheck, hword mem 32 (by omega), hin, hword mem' 24 (by omega), within_pure _ _⟩,
        _, rfl, fun _ => ⟨trivial, rfl, hloaded.materialised⟩⟩
    · simp only [ne_eq, hs, not_false_eq_true, if_true]
      exact ⟨⟨hcheck, hword mem 32 (by omega), hin, within_pure _ _⟩, _, rfl, fun h => absurd h hs⟩

/-- The file as `load_kernel` gets it: its size, the address of the buffer, and the bytes read there. -/
structure KernelFile where
  size : ℕ
  buffer : ℕ
  bytes : List UInt8

def kernelFile (fw : Firmware σ) (s : σ) : KernelFile :=
  let opened := (fw.openKernel (fw.openVolume (fw.fileSystem (fw.loadedImage s).2).2).2).2
  let size := fw.infoSize opened
  let info := fw.fileInfo (fw.allocateInfo size.2.2 size.2.1).2 size.2.1
  let buffer := fw.allocateBuffer info.2.2 info.2.1
  ⟨info.2.1, buffer.2.1, (fw.readFile buffer.2.2 info.2.1).2.1⟩

theorem loadFile_runs (hl : Lawful fw) {fuel : ℕ} (hfuel : 65536 ≤ fuel) (mem : Memory) (s : σ)
    (size : ℕ) :
    Runs (fw.allocateBuffer s size).2.1 (fw.readFile (fw.allocateBuffer s size).2.2 size).2.1 size
      (copyMem mem (fw.allocateBuffer s size).2.1
        (fw.readFile (fw.allocateBuffer s size).2.2 size).2.1)
      (loadFile fw fuel size mem s) := by
  unfold loadFile
  refine Runs.check efiError_ne fun hok => ?_
  have hheld := hl.allocateBuffer s size (Bool.eq_false_of_not_eq_true hok)
  set buffer := (fw.allocateBuffer s size).2.1
  set s₁ := (fw.allocateBuffer s size).2.2
  refine Runs.check (fun _ => efiLoadError_ne) fun hread => ?_
  have hsize : (fw.readFile s₁ size).2.1.length = size := by tauto
  have hkept : BufferHeld fw buffer (fw.readFile s₁ size).2.1.length (fw.readFile s₁ size).2.2 := by
    intro k hk
    exact hl.readFile _ _ _ (hheld k (hsize ▸ hk))
  have hrun := loadImage_runs hl hkept (holds_copyMem mem _ _) hfuel
  rwa [hsize] at hrun

/-- **The loader puts exactly the ELF image in memory.**  It reads the buffer only below the size of the
file, and if it succeeds, then every loadable segment is at its physical address, filled up with zeros, and
nothing else is changed in the memory that holds the file in its buffer. -/
theorem load_kernel_exact (fw : Firmware σ) (hl : Lawful fw) (fuel : ℕ) (hfuel : 65536 ≤ fuel)
    (mem : Memory) (s : σ) :
    Runs (kernelFile fw s).buffer (kernelFile fw s).bytes (kernelFile fw s).size
      (copyMem mem (kernelFile fw s).buffer (kernelFile fw s).bytes) (loadKernel fw fuel mem s) := by
  unfold loadKernel kernelFile
  refine Runs.check efiError_ne fun _ => Runs.check efiError_ne fun _ => ?_
  refine Runs.check efiError_ne fun _ => Runs.check efiError_ne fun _ => ?_
  refine Runs.check (fun _ => hl.infoSize _) fun _ => ?_
  exact Runs.check efiError_ne fun _ => Runs.check efiError_ne fun _ => loadFile_runs hl hfuel mem _ _

end

/-! ## A small kernel -/

/-- One segment at 2 MiB: two bytes of the file, then two zeros. -/
def smallElf : List UInt8 :=
  elfIdent ++ List.replicate 10 0 ++ [2, 0, 62, 0, 1, 0, 0, 0] ++ [0, 0, 0x20, 0, 0, 0, 0, 0] ++
    [64, 0, 0, 0, 0, 0, 0, 0] ++ List.replicate 14 0 ++ [56, 0, 1, 0] ++ List.replicate 6 0 ++
    [1, 0, 0, 0, 5, 0, 0, 0] ++ [120, 0, 0, 0, 0, 0, 0, 0] ++ List.replicate 8 0 ++
    [0, 0, 0x20, 0, 0, 0, 0, 0] ++ [2, 0, 0, 0, 0, 0, 0, 0] ++ [4, 0, 0, 0, 0, 0, 0, 0] ++
    List.replicate 8 0 ++ [0xfa, 0xf4]

/-- Allocation of `n` pages from page `first` on, if they are free. -/
def holdPages (s : ℕ → Bool) (first n : ℕ) : Status × (ℕ → Bool) :=
  if (List.range n).all fun k => s (first + k) then
    (efiSuccess, fun p => s p && !decide (first ≤ p ∧ p < first + n))
  else (Install.efiNotFound, s)

/-- Firmware that keeps a map of the free pages, with the small kernel on its disk and room for a file at
1 MiB. -/
def smallFirmware : Firmware (ℕ → Bool) where
  free s p := s p
  loadedImage s := (efiSuccess, s)
  fileSystem s := (efiSuccess, s)
  openVolume s := (efiSuccess, s)
  openKernel s := (efiSuccess, s)
  infoSize s := (efiBufferTooSmall, 102, s)
  allocateInfo s _ := (efiSuccess, s)
  fileInfo s _ := (efiSuccess, smallElf.length, s)
  allocateBuffer s n :=
    ((holdPages s 256 (efiSizeToPages n)).1, 0x100000, (holdPages s 256 (efiSizeToPages n)).2)
  readFile s n := (efiSuccess, smallElf.take n, s)
  allocatePages s n addr :=
    if addr % 4096 = 0 then holdPages s (addr / 4096) n else (Install.efiNotFound, s)

theorem holdPages_keeps {s : ℕ → Bool} {first n p : ℕ} (h : s p = false) :
    (holdPages s first n).2 p = false := by
  unfold holdPages
  split
  · simp [h]
  · exact h

theorem holdPages_holds {s : ℕ → Bool} {first n : ℕ} (h : efiError (holdPages s first n).1 = false)
    {p : ℕ} (hlow : first ≤ p) (hhigh : p < first + n) :
    s p = true ∧ (holdPages s first n).2 p = false := by
  unfold holdPages at h ⊢
  split at h
  · next hfree =>
    have hp := List.all_eq_true.mp hfree (p - first) (List.mem_range.mpr (by omega))
    rw [Nat.add_sub_cancel' hlow] at hp
    rw [if_pos hfree]
    exact ⟨hp, by simp [hlow, hhigh]⟩
  · exact absurd (show efiError Install.efiNotFound = false from h) (by decide)

theorem smallFirmware_lawful : Lawful smallFirmware where
  infoSize _ := show efiBufferTooSmall ≠ efiSuccess by decide
  allocateBuffer s n hok k hk := by
    refine (holdPages_holds hok (p := (0x100000 + k) / 4096) (by omega) ?_).2
    unfold efiSizeToPages
    split <;> omega
  readFile _ _ _ h := h
  keepsPages s n addr p h := by
    show (if addr % 4096 = 0 then holdPages s (addr / 4096) n else (Install.efiNotFound, s)).2 p = false
    split
    · exact holdPages_keeps h
    · exact h
  allocatePages s n addr hok := by
    change efiError (if addr % 4096 = 0 then holdPages s (addr / 4096) n
      else (Install.efiNotFound, s)).1 = false at hok
    show addr % 4096 = 0 ∧ ∀ p, addr / 4096 ≤ p → p < addr / 4096 + n → s p = true ∧
      (if addr % 4096 = 0 then holdPages s (addr / 4096) n else (Install.efiNotFound, s)).2 p = false
    split at hok
    · next haligned =>
      rw [if_pos haligned]
      exact ⟨haligned, fun p hlow hhigh => holdPages_holds hok hlow hhigh⟩
    · exact absurd (show efiError Install.efiNotFound = false from hok) (by decide)

theorem load_kernel_exact_small :
    Runs 0x100000 smallElf 122 (copyMem (fun _ => 0xcc) 0x100000 smallElf)
        (loadKernel smallFirmware 65536 (fun _ => 0xcc) fun _ => true) ∧
      ((loadKernel smallFirmware 65536 (fun _ => 0xcc) fun _ => true).value.map fun r =>
        (r.1, r.2.1, (List.range 5).map fun k => r.2.2.1 (0x200000 + k))) =
        some (efiSuccess, some 0x200000, [0xfa, 0xf4, 0, 0, 0xcc]) :=
  ⟨load_kernel_exact smallFirmware smallFirmware_lawful 65536 le_rfl (fun _ => 0xcc) fun _ => true,
    by decide +kernel⟩

end Orion.Boot
