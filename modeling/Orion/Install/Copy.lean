import Mathlib.Data.List.Induction
import Orion.Lib.Splice
import Orion.Machine

/-!
# The installer (`boot/main.c`)

`find_single_install_target` chooses the disk that the install medium is copied to, and
`copy_install_media` copies it, in chunks that are a multiple of both block sizes.  The firmware is a
parameter: each call of it may fail, and a write that fails leaves anything in the blocks that it
addresses.
-/

namespace Orion.Install

open Orion.Lib (splice)

/-! ## The model -/

/-- `EFI_STATUS`; errors have the highest bit set. -/
abbrev Status := ℕ

def efiSuccess : Status := 0

def efiErr (code : ℕ) : Status := 2 ^ 63 + code

def efiUnsupported : Status := efiErr 3

def efiNotFound : Status := efiErr 14

/-- `EFI_ERROR` -/
def efiError (status : Status) : Bool := 2 ^ 63 ≤ status

/-- `EFI_BLOCK_IO_MEDIA` -/
structure Media where
  mediaPresent : Bool
  readOnly : Bool
  logicalPartition : Bool
  blockSize : ℕ
  lastBlock : ℕ
  blockSize_lt : blockSize < 2 ^ 32
  lastBlock_lt : lastBlock < 2 ^ 64

/-- The number of bytes of a medium. -/
def Media.size (m : Media) : ℕ := (m.lastBlock + 1) * m.blockSize

/-- The number of bytes as the code computes it. -/
def Media.bytes (m : Media) : ℕ := u64 (u64 (m.lastBlock + 1) * m.blockSize)

/-- A block device with its contents. -/
structure Disk where
  media : Media
  data : List UInt8
  length_data : data.length = media.size

/-- What the firmware answers.  The transfers are numbered; `torn` is what the `k`-th write leaves at
each byte that it addresses if it fails. -/
structure Firmware where
  allocatePool : ℕ → Status
  readBlocks : ℕ → Status
  writeBlocks : ℕ → Status
  torn : ℕ → ℕ → UInt8
  flushBlocks : Status

/-- A call of `ReadBlocks` or `WriteBlocks`. -/
inductive Transfer where
  | read (lba bytes : ℕ)
  | write (lba bytes : ℕ)
  deriving Repr, DecidableEq

def installChunk : ℕ := 64 * 1024

/-- The search for a chunk size; `none` in the result is `EFI_UNSUPPORTED`. -/
def chooseChunk (sourceBlock targetBlock : ℕ) : ℕ → ℕ → Option (Option ℕ)
  | 0, _ => none
  | fuel + 1, chunk =>
    if chunk % sourceBlock ≠ 0 ∨ chunk % targetBlock ≠ 0 then
      if chunk + sourceBlock > 1024 * 1024 then some none
      else chooseChunk sourceBlock targetBlock fuel (chunk + sourceBlock)
    else some (some chunk)

/-- The variables of the copy loop, the contents of the target and the record of transfers. -/
structure Copy where
  sourceLba : ℕ
  targetLba : ℕ
  remaining : ℕ
  status : Status
  target : List UInt8
  log : List Transfer

section

variable (fw : Firmware) (source : List UInt8) (sourceBlock targetBlock chunk : ℕ)

/-- The copy loop; `k` counts its rounds. -/
def copyLoop : ℕ → ℕ → Copy → Option Copy
  | 0, _, _ => none
  | fuel + 1, k, c =>
    if c.remaining = 0 then some c
    else
      let bytes := if c.remaining > chunk then chunk else c.remaining
      let buffer := (source.drop (c.sourceLba * sourceBlock)).take bytes
      let c := { c with log := c.log ++ [Transfer.read c.sourceLba bytes], status := fw.readBlocks k }
      if efiError c.status then some c
      else
        let at' := c.targetLba * targetBlock
        let c := { c with log := c.log ++ [Transfer.write c.targetLba bytes], status := fw.writeBlocks k }
        if efiError c.status then
          some { c with
            target := splice c.target at' ((List.range bytes).map fun i => fw.torn k (at' + i)) }
        else
          copyLoop fuel (k + 1)
            { c with
              target := splice c.target at' buffer
              sourceLba := c.sourceLba + bytes / sourceBlock
              targetLba := c.targetLba + bytes / targetBlock
              remaining := c.remaining - bytes }

end

/-- What a call returns, the contents of the target behind it and the transfers. -/
structure Outcome where
  status : Status
  target : List UInt8
  log : List Transfer

def copyInstallMedia (fw : Firmware) (fuel : ℕ) (source target : Disk) : Option Outcome :=
  let sourceBlock := source.media.blockSize
  let targetBlock := target.media.blockSize
  if sourceBlock = 0 ∨ targetBlock = 0 then some ⟨efiUnsupported, target.data, []⟩
  else
    let sourceBytes := source.media.bytes
    if sourceBytes % targetBlock ≠ 0 then some ⟨efiUnsupported, target.data, []⟩
    else do
      let chunk ← chooseChunk sourceBlock targetBlock fuel installChunk
      match chunk with
      | none => some ⟨efiUnsupported, target.data, []⟩
      | some chunk =>
        let status := fw.allocatePool chunk
        if efiError status then some ⟨status, target.data, []⟩
        else do
          let c ← copyLoop fw source.data sourceBlock targetBlock chunk fuel 0
            ⟨0, 0, sourceBytes, status, target.data, []⟩
          some ⟨if efiError c.status then c.status else fw.flushBlocks, c.target, c.log⟩

/-! ## The target -/

/-- A handle that `LocateHandleBuffer` lists: the source's own, one without a usable protocol or
medium, or a block device. -/
inductive Handle where
  | source
  | unusable
  | disk (disk : Disk)

/-- What the loop goes on for. -/
def Media.isCandidate (m : Media) (sourceBytes : ℕ) : Bool :=
  ! (! m.mediaPresent || m.readOnly || m.logicalPartition || m.blockSize = 0) &&
    ! (m.bytes < sourceBytes) && sourceBytes % m.blockSize = 0

/-- A round of the loop, on the last candidate and the number of candidates. -/
def countCandidate (sourceBytes : ℕ) (r : Option Disk × ℕ) : Handle → Option Disk × ℕ
  | .source => r
  | .unusable => r
  | .disk disk => if disk.media.isCandidate sourceBytes then (some disk, r.2 + 1) else r

/-- `located` is what `LocateHandleBuffer` returns. -/
def findSingleInstallTarget (located : Status) (handles : List Handle) (sourceBytes : ℕ) :
    Except Status Disk :=
  if efiError located then .error located
  else
    match handles.foldl (countCandidate sourceBytes) (none, 0) with
    | (some chosen, 1) => .ok chosen
    | _ => .error efiNotFound

theorem Media.bytes_le (m : Media) : m.bytes ≤ m.size := by
  have hmod := Nat.mod_le (u64 (m.lastBlock + 1) * m.blockSize) (2 ^ 64)
  have hcount : u64 (m.lastBlock + 1) ≤ m.lastBlock + 1 := Nat.mod_le _ _
  exact hmod.trans (Nat.mul_le_mul_right _ hcount)

/-- Below `2^64` the size is computed right. -/
theorem Media.bytes_of_lt {m : Media} (hpos : 0 < m.blockSize) (h : m.size < 2 ^ 64) :
    m.bytes = m.size := by
  have hcount : m.lastBlock + 1 < 2 ^ 64 :=
    (Nat.le_mul_of_pos_right _ hpos).trans_lt h
  rw [Media.bytes, u64_of_lt hcount]
  exact u64_of_lt h

/-- What a candidate promises. -/
theorem Media.isCandidate_iff {m : Media} {sourceBytes : ℕ} :
    m.isCandidate sourceBytes = true ↔
      m.mediaPresent = true ∧ m.readOnly = false ∧ m.logicalPartition = false ∧ m.blockSize ≠ 0 ∧
        sourceBytes ≤ m.bytes ∧ sourceBytes % m.blockSize = 0 := by
  unfold Media.isCandidate
  cases m.mediaPresent <;> cases m.readOnly <;> cases m.logicalPartition <;> simp [and_assoc]

theorem foldl_countCandidate {sourceBytes : ℕ} {handles : List Handle} {chosen : Disk} {n : ℕ}
    (h : handles.foldl (countCandidate sourceBytes) (none, 0) = (some chosen, n)) :
    .disk chosen ∈ handles ∧ chosen.media.isCandidate sourceBytes = true := by
  induction handles using List.reverseRecOn generalizing n with
  | nil => simp at h
  | append_singleton handles handle ih =>
    rw [List.foldl_append, List.foldl_cons, List.foldl_nil] at h
    generalize hr : handles.foldl (countCandidate sourceBytes) (none, 0) = r at h ih
    obtain ⟨last, m⟩ := r
    have hearlier : last = some chosen →
        .disk chosen ∈ handles ++ [handle] ∧ chosen.media.isCandidate sourceBytes = true := by
      rintro rfl
      exact (ih rfl).imp_left (List.mem_append_left _)
    cases handle with
    | source => exact hearlier (congrArg Prod.fst h)
    | unusable => exact hearlier (congrArg Prod.fst h)
    | disk disk =>
      rw [countCandidate] at h
      split at h
      · rename_i hcandidate
        obtain rfl : disk = chosen := Option.some.inj (congrArg Prod.fst h)
        exact ⟨List.mem_append_right _ List.mem_cons_self, hcandidate⟩
      · exact hearlier (congrArg Prod.fst h)

/-- **The target that is chosen can hold the medium.** -/
theorem findSingleInstallTarget_fits {located : Status} {handles : List Handle} {sourceBytes : ℕ}
    {chosen : Disk} (h : findSingleInstallTarget located handles sourceBytes = .ok chosen) :
    .disk chosen ∈ handles ∧ chosen.media.readOnly = false ∧ 0 < chosen.media.blockSize ∧
      chosen.media.blockSize ∣ sourceBytes ∧ sourceBytes ≤ chosen.media.size := by
  unfold findSingleInstallTarget at h
  split at h
  · simp at h
  · split at h
    · rename_i hfold
      obtain rfl := Except.ok.inj h
      obtain ⟨hmem, hcandidate⟩ := foldl_countCandidate hfold
      obtain ⟨-, hwritable, -, hblock, hfits, hmod⟩ := Media.isCandidate_iff.mp hcandidate
      exact ⟨hmem, hwritable, Nat.pos_of_ne_zero hblock, Nat.dvd_of_mod_eq_zero hmod,
        hfits.trans (Media.bytes_le _)⟩
    · simp at h

/-! ## The chunk size -/

section

variable {sourceBlock targetBlock : ℕ}

/-- The search at a chunk size that will do. -/
theorem chooseChunk_of_dvd {fuel chunk : ℕ} (hs : sourceBlock ∣ chunk) (ht : targetBlock ∣ chunk) :
    chooseChunk sourceBlock targetBlock (fuel + 1) chunk = some (some chunk) := by
  have hs' := Nat.mod_eq_zero_of_dvd hs
  have ht' := Nat.mod_eq_zero_of_dvd ht
  rw [chooseChunk, if_neg (by omega)]

theorem chooseChunk_of_not {fuel chunk : ℕ} (h : ¬ (sourceBlock ∣ chunk ∧ targetBlock ∣ chunk)) :
    chooseChunk sourceBlock targetBlock (fuel + 1) chunk =
      if chunk + sourceBlock > 1024 * 1024 then some none
      else chooseChunk sourceBlock targetBlock fuel (chunk + sourceBlock) := by
  rw [chooseChunk, if_pos]
  by_contra hmod
  simp only [ne_eq, not_or, not_not] at hmod
  exact h ⟨Nat.dvd_of_mod_eq_zero hmod.1, Nat.dvd_of_mod_eq_zero hmod.2⟩

/-- A chunk size that will do is found with any fuel. -/
theorem chooseChunk_found {chunk : ℕ} (hpos : 0 < chunk)
    (hdvd : sourceBlock ∣ chunk ∧ targetBlock ∣ chunk) (n : ℕ) :
    ∃ r, (∀ fuel, n < fuel → chooseChunk sourceBlock targetBlock fuel chunk = some r) ∧
      ∀ c, r = some c → 0 < c ∧ sourceBlock ∣ c ∧ targetBlock ∣ c := by
  refine ⟨some chunk, fun fuel hfuel => ?_, fun c hc => ?_⟩
  · obtain ⟨fuel, rfl⟩ := Nat.exists_eq_add_of_lt hfuel
    exact chooseChunk_of_dvd hdvd.1 hdvd.2
  · obtain rfl := Option.some.inj hc
    exact ⟨hpos, hdvd⟩

/-- **The search ends**, and what it finds is a positive multiple of both block sizes. -/
theorem chooseChunk_spec (hs : 0 < sourceBlock) : ∀ n chunk : ℕ, 1024 * 1024 ≤ chunk + n → 0 < chunk →
    ∃ r, (∀ fuel, n < fuel → chooseChunk sourceBlock targetBlock fuel chunk = some r) ∧
      ∀ c, r = some c → 0 < c ∧ sourceBlock ∣ c ∧ targetBlock ∣ c := by
  intro n
  induction n with
  | zero =>
    intro chunk hn hpos
    by_cases hdvd : sourceBlock ∣ chunk ∧ targetBlock ∣ chunk
    · exact chooseChunk_found hpos hdvd 0
    · refine ⟨none, fun fuel hfuel => ?_, by simp⟩
      obtain ⟨fuel, rfl⟩ := Nat.exists_eq_add_of_lt hfuel
      rw [chooseChunk_of_not hdvd, if_pos (by omega)]
  | succ n ih =>
    intro chunk hn hpos
    by_cases hdvd : sourceBlock ∣ chunk ∧ targetBlock ∣ chunk
    · exact chooseChunk_found hpos hdvd (n + 1)
    · by_cases hlarge : chunk + sourceBlock > 1024 * 1024
      · refine ⟨none, fun fuel hfuel => ?_, by simp⟩
        obtain ⟨fuel, rfl⟩ := Nat.exists_eq_add_of_lt hfuel
        rw [chooseChunk_of_not hdvd, if_pos hlarge]
      · obtain ⟨r, hr, hspec⟩ := ih (chunk + sourceBlock) (by omega) (by omega)
        refine ⟨r, fun fuel hfuel => ?_, hspec⟩
        obtain ⟨fuel, rfl⟩ := Nat.exists_eq_add_of_lt hfuel
        rw [chooseChunk_of_not hdvd, if_neg hlarge]
        exact hr _ (by omega)

end

/-! ## The copy loop -/

/-- A transfer of a positive number of whole blocks inside its medium. -/
def Transfer.Inside (source target : Media) (t : Transfer) : Prop :=
  match t with
  | .read lba bytes => 0 < bytes ∧ source.blockSize ∣ bytes ∧ target.blockSize ∣ bytes ∧
      lba * source.blockSize + bytes ≤ source.size
  | .write lba bytes => 0 < bytes ∧ source.blockSize ∣ bytes ∧ target.blockSize ∣ bytes ∧
      lba * target.blockSize + bytes ≤ target.size

section

variable {source target : Disk}

/-- The invariant of the loop: the first `moved` bytes are copied. -/
structure Copy.Progress (source target : Disk) (c : Copy) : Prop where
  remaining_le : c.remaining ≤ source.media.size
  source_dvd : source.media.blockSize ∣ c.remaining
  target_dvd : target.media.blockSize ∣ c.remaining
  sourceLba : c.sourceLba * source.media.blockSize = source.media.size - c.remaining
  targetLba : c.targetLba * target.media.blockSize = source.media.size - c.remaining
  status : efiError c.status = false
  copied : c.target = source.data.take (source.media.size - c.remaining) ++
    target.data.drop (source.media.size - c.remaining)
  inside : ∀ t ∈ c.log, t.Inside source.media target.media

/-- What the loop leaves. -/
structure Copy.Final (source target : Disk) (c : Copy) : Prop where
  length : c.target.length = target.data.length
  rest : c.target.drop source.media.size = target.data.drop source.media.size
  copied : efiError c.status = false → c.target.take source.media.size = source.data
  inside : ∀ t ∈ c.log, t.Inside source.media target.media

/-- Before the loop, with the status of the allocation. -/
theorem Copy.Progress.start (hdvd : target.media.blockSize ∣ source.media.size) {status : Status}
    (hstatus : efiError status = false) :
    Copy.Progress source target ⟨0, 0, source.media.size, status, target.data, []⟩ where
  remaining_le := Nat.le_refl _
  source_dvd := Dvd.intro_left _ rfl
  target_dvd := hdvd
  sourceLba := by simp
  targetLba := by simp
  status := hstatus
  copied := by simp
  inside := by simp

variable {c : Copy}

theorem Copy.Progress.length (h : c.Progress source target)
    (hfits : source.media.size ≤ target.media.size) : c.target.length = target.data.length := by
  have hsource := source.length_data
  have htarget := target.length_data
  rw [h.copied, List.length_append, List.length_take, List.length_drop]
  omega

theorem Copy.Progress.rest (h : c.Progress source target) :
    c.target.drop source.media.size = target.data.drop source.media.size := by
  have hlen : (source.data.take (source.media.size - c.remaining)).length
      = source.media.size - c.remaining := by
    rw [List.length_take, source.length_data]
    omega
  rw [h.copied, List.drop_append, hlen, List.drop_of_length_le (by omega), List.nil_append,
    List.drop_drop]
  congr 1
  omega

theorem Copy.Progress.final (h : c.Progress source target)
    (hfits : source.media.size ≤ target.media.size) (hdone : c.remaining = 0) :
    c.Final source target := by
  refine ⟨h.length hfits, h.rest, fun _ => ?_, h.inside⟩
  have hcopied := h.copied
  rw [hdone, Nat.sub_zero, ← source.length_data, List.take_length] at hcopied
  rw [hcopied, ← source.length_data, List.take_left]

/-- The transfers of a round are inside. -/
theorem Copy.Progress.inside_round (h : c.Progress source target)
    (hfits : source.media.size ≤ target.media.size) {bytes : ℕ} (hpos : 0 < bytes)
    (hle : bytes ≤ c.remaining) (hs : source.media.blockSize ∣ bytes)
    (ht : target.media.blockSize ∣ bytes) :
    Transfer.Inside source.media target.media (.read c.sourceLba bytes) ∧
      Transfer.Inside source.media target.media (.write c.targetLba bytes) := by
  have hremaining := h.remaining_le
  refine ⟨⟨hpos, hs, ht, ?_⟩, ⟨hpos, hs, ht, ?_⟩⟩
  · rw [h.sourceLba]
    omega
  · rw [h.targetLba]
    omega

/-- What the write of a round leaves, whatever it writes. -/
theorem Copy.Progress.splice (h : c.Progress source target)
    (hfits : source.media.size ≤ target.media.size) {blob : List UInt8}
    (hle : blob.length ≤ c.remaining) :
    (splice c.target (c.targetLba * target.media.blockSize) blob).length = target.data.length ∧
    (splice c.target (c.targetLba * target.media.blockSize) blob).drop source.media.size
      = target.data.drop source.media.size := by
  have hlen := h.length hfits
  have htarget := target.length_data
  have hremaining := h.remaining_le
  have hin : c.targetLba * target.media.blockSize + blob.length ≤ source.media.size := by
    rw [h.targetLba]
    omega
  refine ⟨(Orion.Lib.length_splice (by omega)).trans hlen, ?_⟩
  rw [Orion.Lib.drop_splice (by omega) hin, h.rest]

/-- **A round that succeeds.** -/
theorem Copy.Progress.next (h : c.Progress source target)
    (hfits : source.media.size ≤ target.media.size) {bytes : ℕ} (hpos : 0 < bytes)
    (hle : bytes ≤ c.remaining) (hs : source.media.blockSize ∣ bytes)
    (ht : target.media.blockSize ∣ bytes) {status : Status} (hstatus : efiError status = false) :
    Copy.Progress source target
      { sourceLba := c.sourceLba + bytes / source.media.blockSize
        targetLba := c.targetLba + bytes / target.media.blockSize
        remaining := c.remaining - bytes
        status := status
        target := Orion.Lib.splice c.target (c.targetLba * target.media.blockSize)
          ((source.data.drop (c.sourceLba * source.media.blockSize)).take bytes)
        log := c.log ++ [.read c.sourceLba bytes] ++ [.write c.targetLba bytes] } := by
  have hremaining := h.remaining_le
  have hmoved : source.media.size - (c.remaining - bytes) = source.media.size - c.remaining + bytes := by
    omega
  obtain ⟨hread, hwrite⟩ := h.inside_round hfits hpos hle hs ht
  refine ⟨by simp only; omega, Nat.dvd_sub h.source_dvd hs, Nat.dvd_sub h.target_dvd ht, ?_, ?_, hstatus,
    ?_, ?_⟩
  · rw [Nat.add_mul, h.sourceLba, Nat.div_mul_cancel hs, hmoved]
  · rw [Nat.add_mul, h.targetLba, Nat.div_mul_cancel ht, hmoved]
  · -- the copied part grows by what was read
    have hlen := source.length_data
    simp only
    rw [h.sourceLba, h.targetLba, hmoved, h.copied]
    exact Orion.Lib.splice_copied (by omega)
  · intro t ht
    rw [List.append_assoc, List.mem_append] at ht
    rcases ht with ht | ht
    · exact h.inside t ht
    · rcases List.mem_cons.mp ht with rfl | ht
      · exact hread
      · rw [List.mem_singleton.mp ht]
        exact hwrite

/-- **The loop ends**, with enough fuel always in the same state. -/
theorem copyLoop_final (fw : Firmware) (hfits : source.media.size ≤ target.media.size)
    {chunk : ℕ} (hchunk : 0 < chunk) (hcs : source.media.blockSize ∣ chunk) (hct : target.media.blockSize ∣ chunk) :
    ∀ (n k : ℕ) (c : Copy), c.remaining ≤ n → c.Progress source target → ∃ out : Copy,
      (∀ fuel, n < fuel → copyLoop fw source.data source.media.blockSize target.media.blockSize chunk
        fuel k c = some out) ∧ out.Final source target := by
  intro n
  induction n with
  | zero =>
    intro k c hn h
    have hdone : c.remaining = 0 := Nat.le_zero.mp hn
    refine ⟨c, fun fuel hfuel => ?_, h.final hfits hdone⟩
    obtain ⟨fuel, rfl⟩ := Nat.exists_eq_add_of_lt hfuel
    rw [copyLoop, if_pos hdone]
  | succ n ih =>
    intro k c hn h
    by_cases hdone : c.remaining = 0
    · refine ⟨c, fun fuel hfuel => ?_, h.final hfits hdone⟩
      obtain ⟨fuel, rfl⟩ := Nat.exists_eq_add_of_lt hfuel
      rw [copyLoop, if_pos hdone]
    obtain ⟨bytes, hbytes⟩ : ∃ b, b = if c.remaining > chunk then chunk else c.remaining := ⟨_, rfl⟩
    have hround : 0 < bytes ∧ bytes ≤ c.remaining ∧ source.media.blockSize ∣ bytes ∧
        target.media.blockSize ∣ bytes := by
      rw [hbytes]
      split
      · exact ⟨hchunk, by omega, hcs, hct⟩
      · exact ⟨by omega, Nat.le_refl _, h.source_dvd, h.target_dvd⟩
    obtain ⟨hpos, hle, hs, ht⟩ := hround
    obtain ⟨hread, hwrite⟩ := h.inside_round hfits hpos hle hs ht
    have hreadLog : ∀ t ∈ c.log ++ [Transfer.read c.sourceLba bytes],
        t.Inside source.media target.media := by
      intro t hmem
      rcases List.mem_append.mp hmem with hmem | hmem
      · exact h.inside t hmem
      · rw [List.mem_singleton.mp hmem]
        exact hread
    by_cases hr : efiError (fw.readBlocks k) = true
    · -- the read fails, and nothing is written in this round
      refine ⟨{ c with log := c.log ++ [.read c.sourceLba bytes], status := fw.readBlocks k },
        fun fuel hfuel => ?_, h.length hfits, h.rest, fun hok => ?_, hreadLog⟩
      · obtain ⟨fuel, rfl⟩ := Nat.exists_eq_add_of_lt hfuel
        rw [copyLoop, if_neg hdone]
        simp only [← hbytes, hr, if_true]
      · rw [hr] at hok
        simp at hok
    · have hwriteLog : ∀ t ∈ c.log ++ [Transfer.read c.sourceLba bytes] ++
          [Transfer.write c.targetLba bytes], t.Inside source.media target.media := by
        intro t hmem
        rcases List.mem_append.mp hmem with hmem | hmem
        · exact hreadLog t hmem
        · rw [List.mem_singleton.mp hmem]
          exact hwrite
      by_cases hw : efiError (fw.writeBlocks k) = true
      · -- the write fails inside its blocks
        obtain ⟨blob, hblob⟩ : ∃ b, b = (List.range bytes).map
          fun i => fw.torn k (c.targetLba * target.media.blockSize + i) := ⟨_, rfl⟩
        have hlen : blob.length = bytes := by simp [hblob]
        obtain ⟨hlength, hrest⟩ := h.splice hfits (hlen ▸ hle)
        refine ⟨{ c with
            log := c.log ++ [.read c.sourceLba bytes] ++ [.write c.targetLba bytes]
            status := fw.writeBlocks k
            target := Orion.Lib.splice c.target (c.targetLba * target.media.blockSize) blob },
          fun fuel hfuel => ?_, hlength, hrest, fun hok => ?_, hwriteLog⟩
        · obtain ⟨fuel, rfl⟩ := Nat.exists_eq_add_of_lt hfuel
          rw [copyLoop, if_neg hdone]
          simp only [← hbytes, hr, hw, ← hblob, if_true, Bool.false_eq_true, if_false]
        · rw [hw] at hok
          simp at hok
      · obtain ⟨out, hout, hfinal⟩ := ih (k + 1) _ (by simp only; omega)
          (h.next hfits hpos hle hs ht (Bool.not_eq_true _ ▸ hw))
        refine ⟨out, fun fuel hfuel => ?_, hfinal⟩
        obtain ⟨fuel, rfl⟩ := Nat.exists_eq_add_of_lt hfuel
        rw [copyLoop, if_neg hdone]
        simp only [← hbytes, hr, hw, Bool.false_eq_true, if_false]
        exact hout _ (by omega)

end

/-! ## The whole copy -/

/-- **The installer copies the medium exactly.**  For all media of non-zero block sizes, the source
below `2^64` bytes and not larger than the target, and whatever the firmware answers: the call
returns; every transfer has a positive length that is a multiple of both block sizes and lies inside
its medium; if the call succeeds, the target begins with the source; and in any case the target
behind the length of the source is as it was. -/
theorem copy_install_media_exact (fw : Firmware) (source target : Disk)
    (hsb : 0 < source.media.blockSize) (htb : 0 < target.media.blockSize)
    (hsize : source.media.size < 2 ^ 64) (hfits : source.media.size ≤ target.media.size) :
    ∃ fuel₀ out, (∀ fuel, fuel₀ < fuel → copyInstallMedia fw fuel source target = some out) ∧
      (∀ t ∈ out.log, t.Inside source.media target.media) ∧
      (efiError out.status = false → out.target.take source.media.size = source.data) ∧
      out.target.drop source.media.size = target.data.drop source.media.size ∧
      out.target.length = target.data.length := by
  have hbytes := Media.bytes_of_lt hsb hsize
  have hpos : ¬ (source.media.blockSize = 0 ∨ target.media.blockSize = 0) := by omega
  have hunsupported : efiError efiUnsupported = true := by decide
  by_cases hdvd : target.media.blockSize ∣ source.media.size
  · have hmod := Nat.mod_eq_zero_of_dvd hdvd
    obtain ⟨r, hr, hspec⟩ := @chooseChunk_spec _ target.media.blockSize hsb (1024 * 1024) installChunk
      (by omega) (by decide)
    cases r with
    | none =>
      refine ⟨1024 * 1024, ⟨efiUnsupported, target.data, []⟩, fun fuel hfuel => ?_, by simp,
        fun hok => absurd (hunsupported.symm.trans hok) (by simp), rfl, rfl⟩
      simp only [copyInstallMedia, if_neg hpos, hbytes, hmod, ne_eq, not_true_eq_false, if_false,
        hr fuel hfuel, Option.bind_eq_bind, Option.bind_some]
    | some chunk =>
      obtain ⟨hchunk, hcs, hct⟩ := hspec chunk rfl
      by_cases hpool : efiError (fw.allocatePool chunk) = true
      · refine ⟨1024 * 1024, ⟨fw.allocatePool chunk, target.data, []⟩, fun fuel hfuel => ?_, by simp,
          fun hok => absurd (hpool.symm.trans hok) (by simp), rfl, rfl⟩
        simp only [copyInstallMedia, if_neg hpos, hbytes, hmod, ne_eq, not_true_eq_false, if_false,
          hr fuel hfuel, Option.bind_eq_bind, Option.bind_some, hpool, if_true]
      · have hstart := Copy.Progress.start hdvd (Bool.not_eq_true _ ▸ hpool)
        obtain ⟨c, hc, hfinal⟩ := copyLoop_final fw hfits hchunk hcs hct source.media.size 0 _
          (Nat.le_refl _) hstart
        refine ⟨max (1024 * 1024) source.media.size,
          ⟨if efiError c.status then c.status else fw.flushBlocks, c.target, c.log⟩,
          fun fuel hfuel => ?_, hfinal.inside, fun hok => ?_, hfinal.rest, hfinal.length⟩
        · simp only [copyInstallMedia, if_neg hpos, hbytes, hmod, ne_eq, not_true_eq_false, if_false,
            hr fuel (by omega), Option.bind_eq_bind, Option.bind_some, hpool, Bool.false_eq_true,
            hc fuel (by omega)]
        · refine hfinal.copied ?_
          by_contra herror
          simp only [Bool.not_eq_false] at herror
          simp only [herror, if_true] at hok
          exact absurd hok (by simp)
  · refine ⟨0, ⟨efiUnsupported, target.data, []⟩, fun fuel _ => ?_, by simp,
      fun hok => absurd (hunsupported.symm.trans hok) (by simp), rfl, rfl⟩
    have hmod : source.media.size % target.media.blockSize ≠ 0 :=
      fun h => hdvd (Nat.dvd_of_mod_eq_zero h)
    simp only [copyInstallMedia, if_neg hpos, hbytes, if_pos hmod]

/-- Firmware that never fails. -/
def Firmware.working : Firmware := ⟨fun _ => 0, fun _ => 0, fun _ => 0, fun _ _ => 0, 0⟩

/-- A medium of two blocks of one byte. -/
def smallSource : Disk := ⟨⟨true, true, false, 1, 1, by decide, by decide⟩, [1, 2], rfl⟩

/-- A disk of two blocks of two bytes. -/
def smallTarget : Disk := ⟨⟨true, false, false, 2, 1, by decide, by decide⟩, [3, 4, 5, 6], rfl⟩

theorem copy_install_media_smoke :
    ∃ fuel₀ out, (∀ fuel, fuel₀ < fuel →
        copyInstallMedia .working fuel smallSource smallTarget = some out) ∧
      out.status = efiSuccess ∧ out.target = [1, 2, 5, 6] := by
  obtain ⟨fuel₀, out, hout, -, hcopied, hrest, -⟩ := copy_install_media_exact .working smallSource
    smallTarget (by decide) (by decide) (by decide) (by decide)
  have hstatus : (copyInstallMedia .working (fuel₀ + 3) smallSource smallTarget).map Outcome.status =
      some efiSuccess := rfl
  rw [hout (fuel₀ + 3) (by omega)] at hstatus
  have hsuccess : out.status = efiSuccess := Option.some.inj hstatus
  have hfront : out.target.take 2 = [1, 2] := hcopied (by rw [hsuccess]; rfl)
  have hback : out.target.drop 2 = [5, 6] := hrest
  refine ⟨fuel₀, out, hout, hsuccess, ?_⟩
  rw [← List.take_append_drop 2 out.target, hfront, hback]
  rfl

end Orion.Install
