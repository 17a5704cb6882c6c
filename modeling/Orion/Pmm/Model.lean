import Mathlib.Data.List.Range
import Mathlib.Tactic.Ring

/-!
# The physical page allocator (`kernel/pmm.c`)

The allocator walks the firmware's memory map once, lazily: `scan_off` is the offset of the next
descriptor, and `scan_addr .. scan_end` is what is left of the descriptor being handed out.  Pages
that come back are kept in a bounded array and are handed out again before the walk continues.

All quantities are 64-bit in the source; they are natural numbers here and every sum or product
that the source may wrap goes through `u64`.  The recycle array is a list whose head is
`recycled[recycled_count - 1]`, so that `recycled_count` is its length.
-/

namespace Orion.Pmm

def u64 (n : ℕ) : ℕ := n % 2 ^ 64

theorem u64_of_lt {n : ℕ} (h : n < 2 ^ 64) : u64 n = n := Nat.mod_eq_of_lt h

def pageSize : ℕ := 4096

def pmmMinAddr : ℕ := 0x01000000

def pmmRecycleCap : ℕ := 1024

/-- `sizeof(EfiMemDesc)`. -/
def efiMemDescSize : ℕ := 40

/-- The fields of a memory descriptor that the allocator reads. -/
structure EfiMemDesc where
  type : ℕ
  physicalStart : ℕ
  pages : ℕ
  deriving Repr, DecidableEq

/-- The fields of the boot information block that the allocator reads, and its own address. -/
structure OrionBootInfo where
  address : ℕ
  framebufferBase : ℕ
  framebufferSize : ℕ
  memoryMap : ℕ
  memoryMapSize : ℕ
  memoryDescriptorSize : ℕ
  deriving Repr, DecidableEq

/-- What the allocator takes from the link map, the target's structure layout
(`sizeof(OrionBootInfo)`) and physical memory. -/
structure Machine where
  kernelStart : ℕ
  kernelEnd : ℕ
  bootInfoSize : ℕ
  descAt : ℕ → EfiMemDesc

/-- The static variables of `pmm.c`. -/
structure State where
  gBi : Option OrionBootInfo
  totalPagesCount : ℕ
  usedPagesCount : ℕ
  scanOff : ℕ
  scanAddr : ℕ
  scanEnd : ℕ
  recycled : List ℕ
  deriving Repr, DecidableEq

/-- `(v + a - 1) & ~(a - 1)`; every caller passes a power of two. -/
def alignUp (v a : ℕ) : ℕ := u64 (v + a - 1) / a * a

def overlap (a0 a1 b0 b1 : ℕ) : Bool := decide (a0 < b1) && decide (b0 < a1)

/-- The address ranges `[start, end)` that are never handed out. -/
def reservedRanges (m : Machine) (gBi : Option OrionBootInfo) : List (ℕ × ℕ) :=
  (m.kernelStart, m.kernelEnd) ::
    match gBi with
    | none => []
    | some bi =>
      [(bi.address, u64 (bi.address + m.bootInfoSize)),
       (bi.memoryMap, u64 (bi.memoryMap + bi.memoryMapSize)),
       (bi.framebufferBase, u64 (bi.framebufferBase + bi.framebufferSize))]

def reserved (m : Machine) (gBi : Option OrionBootInfo) (p : ℕ) : Bool :=
  (reservedRanges m gBi).any fun r => overlap p (u64 (p + pageSize)) r.1 r.2

/-- The descriptor at offset `off` of the map. -/
def descOf (m : Machine) (bi : OrionBootInfo) (off : ℕ) : EfiMemDesc :=
  m.descAt (u64 (bi.memoryMap + off))

/-- The descriptors that `for (off = 0; off + sizeof(EfiMemDesc) <= memory_map_size;
off += memory_descriptor_size)` visits from `off` on, in at most `fuel` turns. -/
def descLoop (m : Machine) (bi : OrionBootInfo) : ℕ → ℕ → List EfiMemDesc
  | 0, _ => []
  | fuel + 1, off =>
    if u64 (off + efiMemDescSize) ≤ bi.memoryMapSize then
      descOf m bi off :: descLoop m bi fuel (u64 (off + bi.memoryDescriptorSize))
    else []

/-- The whole loop: a map of `n` bytes has fewer than `n + 1` descriptors. -/
def descriptors (m : Machine) (bi : OrionBootInfo) : List EfiMemDesc :=
  descLoop m bi (bi.memoryMapSize + 1) 0

def descEnd (d : EfiMemDesc) : ℕ := u64 (d.physicalStart + u64 (d.pages * pageSize))

/-- `if(start<PMM_MIN_ADDR)start=align_up(PMM_MIN_ADDR,PAGE_SIZE);` -/
def clampStart (start : ℕ) : ℕ :=
  if start < pmmMinAddr then alignUp pmmMinAddr pageSize else start

/-- One turn of the loop of `conventional_page`. -/
def coversPage (d : EfiMemDesc) (p : ℕ) : Bool :=
  if d.type ≠ 7 ∨ d.pages = 0 then false
  else if descEnd d < d.physicalStart then false
  else
    decide (clampStart d.physicalStart ≤ p) && decide (p < u64 (p + pageSize)) &&
      decide (u64 (p + pageSize) ≤ descEnd d)

def conventionalPage (m : Machine) (gBi : Option OrionBootInfo) (p : ℕ) : Bool :=
  match gBi with
  | none => false
  | some bi =>
    if bi.memoryDescriptorSize = 0 ∨ p < pmmMinAddr ∨ p % pageSize ≠ 0 then false
    else (descriptors m bi).any fun d => coversPage d p

/-- One turn of the counting loop of `pmm_init`. -/
def countDesc (total : ℕ) (d : EfiMemDesc) : ℕ :=
  if d.type ≠ 7 ∨ d.pages = 0 then total
  else if descEnd d < d.physicalStart ∨ descEnd d ≤ pmmMinAddr then total
  else if descEnd d > clampStart d.physicalStart then
    u64 (total + (descEnd d - clampStart d.physicalStart) / pageSize)
  else total

def pmmInit (m : Machine) (bi : Option OrionBootInfo) : State :=
  let s : State := ⟨bi, 0, 0, 0, 0, 0, []⟩
  match bi with
  | none => s
  | some b =>
    if b.memoryDescriptorSize = 0 then s
    else { s with totalPagesCount := (descriptors m b).foldl countDesc 0 }

/-- `while(scan_addr&&scan_addr+PAGE_SIZE<=scan_end)`: hand out the first page of the current
descriptor that is not reserved. -/
def scanRange (m : Machine) : ℕ → State → Option ℕ × State
  | 0, s => (none, s)
  | fuel + 1, s =>
    if s.scanAddr ≠ 0 ∧ u64 (s.scanAddr + pageSize) ≤ s.scanEnd then
      let p := s.scanAddr
      let s := { s with scanAddr := u64 (p + pageSize) }
      if reserved m s.gBi p then scanRange m fuel s
      else (some p, { s with usedPagesCount := u64 (s.usedPagesCount + 1) })
    else (none, s)

/-- The `for(;;)` of `pmm_alloc_page`: finish the current descriptor, then load the next one. -/
def scanLoop (m : Machine) (bi : OrionBootInfo) : ℕ → State → ℕ × State
  | 0, s => (0, s)
  | fuel + 1, s =>
    match scanRange m (s.scanEnd / pageSize + 1) s with
    | (some p, s) => (p, s)
    | (none, s) =>
      let s := { s with scanAddr := 0, scanEnd := 0 }
      if u64 (s.scanOff + efiMemDescSize) > bi.memoryMapSize then (0, s)
      else
        let d := descOf m bi s.scanOff
        let s := { s with scanOff := u64 (s.scanOff + bi.memoryDescriptorSize) }
        if d.type ≠ 7 ∨ d.pages = 0 then scanLoop m bi fuel s
        else if descEnd d < d.physicalStart ∨ descEnd d ≤ pmmMinAddr then scanLoop m bi fuel s
        else if clampStart d.physicalStart ≥ descEnd d then scanLoop m bi fuel s
        else
          scanLoop m bi fuel
            { s with scanAddr := clampStart d.physicalStart, scanEnd := descEnd d }

/-- Returns the page, or 0, and the new state. -/
def pmmAllocPage (m : Machine) (s : State) : ℕ × State :=
  match s.recycled with
  | p :: rest => (p, { s with recycled := rest, usedPagesCount := u64 (s.usedPagesCount + 1) })
  | [] =>
    match s.gBi with
    | none => (0, s)
    | some bi =>
      if bi.memoryDescriptorSize = 0 then (0, s)
      else scanLoop m bi (bi.memoryMapSize + 2) s

/-- Returns whether the page was taken back, and the new state. -/
def pmmFreePage (m : Machine) (s : State) (page : ℕ) : Bool × State :=
  if page = 0 ∨ s.usedPagesCount = 0 ∨ conventionalPage m s.gBi page = false ∨
      reserved m s.gBi page = true ∨ s.recycled.length ≥ pmmRecycleCap then (false, s)
  else if page ∈ s.recycled then (false, s)
  else
    (true, { s with recycled := page :: s.recycled, usedPagesCount := s.usedPagesCount - 1 })

def pmmTotalPages (s : State) : ℕ := s.totalPagesCount

def pmmUsedPages (s : State) : ℕ := s.usedPagesCount

end Orion.Pmm
