import Orion.Install.Copy

/-!
# Loading the kernel (`boot/main.c`)

`load_kernel` reads `kernel.elf` into a buffer, checks its header, and puts each loadable segment at its
physical address, in pages that the firmware allocates there.  The file buffer lies in the same memory,
so everything is read back from memory each time the source reads it; the reads of memory are traced.
The firmware is a parameter, with a state of its own.
-/

namespace Orion.Boot

open Orion.Traced
open Orion.Install (Status efiSuccess efiErr efiError)

/-! ## The firmware -/

def efiLoadError : Status := efiErr 1

def efiBufferTooSmall : Status := efiErr 5

/-- Physical memory. -/
abbrev Memory := ℕ → UInt8

/-- The firmware's services as `load_kernel` calls them.  `free` tells which pages of memory are not
allocated.  A call that yields something besides its status yields it also if it fails. -/
structure Firmware (σ : Type) where
  free : σ → ℕ → Bool
  loadedImage : σ → Status × σ
  fileSystem : σ → Status × σ
  openVolume : σ → Status × σ
  openKernel : σ → Status × σ
  /-- `GetInfo` without a buffer: the size that one needs. -/
  infoSize : σ → Status × ℕ × σ
  allocateInfo : σ → ℕ → Status × σ
  /-- `GetInfo` with a buffer: the file size. -/
  fileInfo : σ → ℕ → Status × ℕ × σ
  /-- `AllocatePool` for the file: its address. -/
  allocateBuffer : σ → ℕ → Status × ℕ × σ
  /-- `Read`: the bytes that were read. -/
  readFile : σ → ℕ → Status × List UInt8 × σ
  /-- `AllocatePages` with `AllocateAddress`: number of pages and address. -/
  allocatePages : σ → ℕ → ℕ → Status × σ

/-! ## Memory -/

/-- A little-endian number of `n` bytes. -/
def readLe (mem : Memory) (p n : ℕ) : Traced ℕ ℕ := do
  let bytes ← readSpan mem p n
  pure (bytes.foldr (fun c v => c.toNat + 256 * v) 0)

/-- `CopyMem`, of bytes that have been read. -/
def copyMem (mem : Memory) (dst : ℕ) (bytes : List UInt8) : Memory := fun a =>
  if dst ≤ a ∧ a < dst + bytes.length then bytes.getD (a - dst) 0 else mem a

/-- `SetMem` -/
def setMem (mem : Memory) (dst n : ℕ) (value : UInt8) : Memory := fun a =>
  if dst ≤ a ∧ a < dst + n then value else mem a

/-- `EFI_SIZE_TO_PAGES` -/
def efiSizeToPages (size : ℕ) : ℕ := size / 4096 + if size % 4096 ≠ 0 then 1 else 0

/-! ## The ELF header -/

/-- `sizeof(Elf64_Ehdr)` -/
def ehdrSize : ℕ := 64

/-- `sizeof(Elf64_Phdr)` -/
def phdrSize : ℕ := 56

def ptLoad : ℕ := 1

/-- Magic, class and data encoding of a 64-bit little-endian file. -/
def elfIdent : List UInt8 := [0x7f, 0x45, 0x4c, 0x46, 2, 1]

def emX8664 : ℕ := 62

def validKernelElf (mem : Memory) (eh fileSize : ℕ) : Traced ℕ Bool :=
  if fileSize < ehdrSize then pure false
  else do
    let ident ← readSpan mem eh 6
    let machine ← readLe mem (eh + 18) 2
    let phentsize ← readLe mem (eh + 54) 2
    if ident ≠ elfIdent ∨ machine ≠ emX8664 ∨ phentsize ≠ phdrSize then pure false
    else do
      let phoff ← readLe mem (eh + 32) 8
      if phoff > fileSize then pure false
      else do
        let phnum ← readLe mem (eh + 56) 2
        if phnum * phdrSize > fileSize - phoff then pure false else pure true

/-! ## The segments -/

section

variable {σ : Type} (fw : Firmware σ)

/-- The body of the loop, for the program header at `ph`: it returns from the function with a status, or
goes on. -/
def loadSegment (buffer fileSize ph : ℕ) (mem : Memory) (s : σ) :
    Traced ℕ (Except (Status × Memory × σ) (Memory × σ)) := do
  let type ← readLe mem ph 4
  if type ≠ ptLoad then pure (.ok (mem, s))
  else do
    let memsz ← readLe mem (ph + 40) 8
    if memsz = 0 then pure (.ok (mem, s))
    else do
      let filesz ← readLe mem (ph + 32) 8
      if filesz > memsz then pure (.error (efiLoadError, mem, s))
      else do
        let offset ← readLe mem (ph + 8) 8
        if offset > fileSize ∨ filesz > fileSize - offset then pure (.error (efiLoadError, mem, s))
        else do
          let paddr ← readLe mem (ph + 24) 8
          let r := fw.allocatePages s (efiSizeToPages memsz) paddr
          if efiError r.1 then pure (.error (r.1, mem, r.2))
          else do
            let bytes ← readSpan mem (buffer + offset) filesz
            let mem := copyMem mem paddr bytes
            -- the header is read again, from memory as it is now
            let memsz ← readLe mem (ph + 40) 8
            let filesz ← readLe mem (ph + 32) 8
            if memsz > filesz then do
              let paddr ← readLe mem (ph + 24) 8
              pure (.ok (setMem mem (paddr + filesz) (memsz - filesz) 0, r.2))
            else pure (.ok (mem, r.2))

/-- The loop over the program headers: `none` if it is still running after `fuel` turns. -/
def loadSegments (buffer fileSize ph : ℕ) :
    ℕ → ℕ → Memory → σ → Traced ℕ (Option (Status × Memory × σ))
  | 0, _, _, _ => pure none
  | fuel + 1, i, mem, s => do
    let phnum ← readLe mem (buffer + 56) 2
    if i < phnum then do
      let r ← loadSegment fw buffer fileSize (ph + phdrSize * i) mem s
      match r with
      | .error r => pure (some r)
      | .ok (mem, s) => loadSegments buffer fileSize ph fuel (i + 1) mem s
    else pure (some (efiSuccess, mem, s))

/-- What `load_kernel` does with the file in the buffer; the result has the entry address if it is
set. -/
def loadImage (buffer fileSize fuel : ℕ) (mem : Memory) (s : σ) :
    Traced ℕ (Option (Status × Option ℕ × Memory × σ)) := do
  let valid ← validKernelElf mem buffer fileSize
  if valid = false then pure (some (efiLoadError, none, mem, s))
  else do
    let phoff ← readLe mem (buffer + 32) 8
    let r ← loadSegments fw buffer fileSize (buffer + phoff) fuel 0 mem s
    match r with
    | none => pure none
    | some (status, mem, s) =>
      if status ≠ efiSuccess then pure (some (status, none, mem, s))
      else do
        let entry ← readLe mem (buffer + 24) 8
        pure (some (efiSuccess, some entry, mem, s))

/-- The file, read into its buffer. -/
def loadFile (fuel fileSize : ℕ) (mem : Memory) (s : σ) :
    Traced ℕ (Option (Status × Option ℕ × Memory × σ)) :=
  let buffer := fw.allocateBuffer s fileSize
  if efiError buffer.1 then pure (some (buffer.1, none, mem, buffer.2.2))
  else
    let file := fw.readFile buffer.2.2 fileSize
    let mem := copyMem mem buffer.2.1 file.2.1
    if efiError file.1 ∨ file.2.1.length ≠ fileSize then
      pure (some (efiLoadError, none, mem, file.2.2))
    else loadImage fw buffer.2.1 fileSize fuel mem file.2.2

/-- `load_kernel` -/
def loadKernel (fuel : ℕ) (mem : Memory) (s : σ) :
    Traced ℕ (Option (Status × Option ℕ × Memory × σ)) :=
  let image := fw.loadedImage s
  if efiError image.1 then pure (some (image.1, none, mem, image.2))
  else
    let fs := fw.fileSystem image.2
    if efiError fs.1 then pure (some (fs.1, none, mem, fs.2))
    else
      let root := fw.openVolume fs.2
      if efiError root.1 then pure (some (root.1, none, mem, root.2))
      else
        let file := fw.openKernel root.2
        if efiError file.1 then pure (some (file.1, none, mem, file.2))
        else
          let size := fw.infoSize file.2
          if size.1 ≠ efiBufferTooSmall then pure (some (size.1, none, mem, size.2.2))
          else
            let pool := fw.allocateInfo size.2.2 size.2.1
            if efiError pool.1 then pure (some (pool.1, none, mem, pool.2))
            else
              let info := fw.fileInfo pool.2 size.2.1
              if efiError info.1 then pure (some (info.1, none, mem, info.2.2))
              else loadFile fw fuel info.2.1 mem info.2.2

end

end Orion.Boot
