import Orion.Boot.Segments
import Orion.Pmm.Model

/-!
# Leaving the boot services (`boot/main.c`)

`exit_boot_services` asks the firmware how large its memory map is, allocates a buffer with room for
eight more descriptors, and then takes the map and leaves, again and again, as long as the key that it has
is not the one of the current map, with a larger buffer whenever the map has outgrown it.  The firmware
is a parameter with a state of its own, which may change at every call; the calls are recorded.

* `exit_boot_services_exact` — if it returns 0, the firmware has let it go with the key of its current map,
  and the boot information and the buffer hold exactly this map;
* `exit_boot_services_disciplined` — on the way it uses only live buffers with the capacity that they were
  allocated with, frees each of them once except for the last, and leaves only with a fresh key;
* `exit_boot_services_leaves` — it returns 0 after at most two turns for each change that the firmware makes
  of its own accord, and two more;
* `boot_map_reaches_pmm` — the descriptors that the page allocator walks are those of the firmware's map.
-/

namespace Orion.Boot

open Orion.Install (Status efiSuccess efiErr efiError)

/-! ## The model -/

def efiInvalidParameter : Status := efiErr 2

/-- What `GetMemoryMap` gives back: its status, the variables that it sets, and the bytes that it puts
into the buffer. -/
structure MapReply where
  status : Status
  size : ℕ
  key : ℕ
  descSize : ℕ
  descVersion : ℕ
  map : List UInt8
  deriving Repr, DecidableEq

/-- The firmware's services as `exit_boot_services` calls them. -/
structure BootServices (σ : Type) where
  /-- `GetMemoryMap` with a buffer of so many bytes. -/
  getMemoryMap : σ → ℕ → MapReply × σ
  /-- `AllocatePool`: status and address. -/
  allocatePool : σ → ℕ → Status × ℕ × σ
  freePool : σ → ℕ → σ
  exitBootServices : σ → ℕ → Status × σ

/-- The fields of `OrionBootInfo` that are written here. -/
structure MapInfo where
  memoryMap : ℕ
  memoryMapSize : ℕ
  memoryDescriptorSize : ℕ
  memoryDescriptorVersion : ℕ
  deriving Repr, DecidableEq

/-- The calls of the services: with their arguments, and of the answers what later calls depend on. -/
inductive Call where
  | getMemoryMap (buffer capacity key : ℕ)
  | allocatePool (size : ℕ) (address : Option ℕ)
  | freePool (address : ℕ)
  | exitBootServices (key : ℕ) (left : Bool)
  deriving Repr, DecidableEq

/-- The result, with the calls in order. -/
structure Outcome (σ : Type) where
  status : Status
  info : MapInfo
  mem : Memory
  state : σ
  calls : List Call

variable {σ : Type}

/-- Calls that were made before. -/
def Outcome.after (o : Outcome σ) (calls : List Call) : Outcome σ := { o with calls := calls ++ o.calls }

/-- `map_size + desc_size * 8` -/
def withRoom (size descSize : ℕ) : ℕ := u64 (size + u64 (descSize * 8))

section

variable (fw : BootServices σ)

/-- The loop, for at most `fuel` turns. -/
def exitLoop : ℕ → ℕ → ℕ → MapInfo → Memory → σ → Option (Outcome σ)
  | 0, _, _, _, _, _ => none
  | fuel + 1, map, capacity, info, mem, s =>
    let (reply, s₁) := fw.getMemoryMap s capacity
    let mem₁ := copyMem mem map reply.map
    let got := Call.getMemoryMap map capacity reply.key
    if reply.status = efiBufferTooSmall then
      let larger := withRoom reply.size reply.descSize
      let (status, address, s₂) := fw.allocatePool s₁ larger
      if efiError status then some ⟨status, info, mem₁, s₂, [got, .allocatePool larger none]⟩
      else
        (exitLoop fuel address larger info mem₁ (fw.freePool s₂ map)).map
          (·.after [got, .allocatePool larger (some address), .freePool map])
    else if efiError reply.status then some ⟨reply.status, info, mem₁, s₁, [got]⟩
    else
      let info₁ : MapInfo := ⟨map, reply.size, reply.descSize, reply.descVersion⟩
      let (status, s₂) := fw.exitBootServices s₁ reply.key
      if status = efiSuccess then
        some ⟨efiSuccess, info₁, mem₁, s₂, [got, .exitBootServices reply.key true]⟩
      else if status ≠ efiInvalidParameter then
        some ⟨status, info₁, mem₁, s₂, [got, .exitBootServices reply.key false]⟩
      else
        (exitLoop fuel map capacity info₁ mem₁ s₂).map
          (·.after [got, .exitBootServices reply.key false])

/-- `exit_boot_services`.  The first call, without a buffer, is not recorded. -/
def exitBootServices (fuel : ℕ) (info : MapInfo) (mem : Memory) (s : σ) : Option (Outcome σ) :=
  let (reply, s₁) := fw.getMemoryMap s 0
  if reply.status ≠ efiBufferTooSmall ∨ reply.descSize = 0 then
    some ⟨reply.status, info, mem, s₁, []⟩
  else
    let capacity := withRoom reply.size reply.descSize
    let (status, address, s₂) := fw.allocatePool s₁ capacity
    if efiError status then some ⟨status, info, mem, s₂, [.allocatePool capacity none]⟩
    else
      (exitLoop fw fuel address capacity info mem s₂).map
        (·.after [.allocatePool capacity (some address)])

end

/-! ## What the interface promises -/

/-- The firmware's map and what it says about it. -/
structure MapView (σ : Type) where
  map : σ → List UInt8
  key : σ → ℕ
  descSize : σ → ℕ
  descVersion : σ → ℕ

/-- Firmware that keeps to its interface: the map is not empty, an answer of `GetMemoryMap` that is no error
describes it, a buffer that is too small is not written, a key stands for one map, and
`ExitBootServices` lets go only with the key of the current map. -/
structure MapLawful (fw : BootServices σ) (v : MapView σ) : Prop where
  nonempty : ∀ s, 0 < (v.map s).length
  fits : ∀ s capacity, efiError (fw.getMemoryMap s capacity).1.status = false →
    (v.map s).length ≤ capacity ∧ (fw.getMemoryMap s capacity).1 =
      ⟨efiSuccess, (v.map s).length, v.key s, v.descSize s, v.descVersion s, v.map s⟩
  keyed : ∀ s s', v.key s = v.key s' →
    v.map s = v.map s' ∧ v.descSize s = v.descSize s' ∧ v.descVersion s = v.descVersion s'
  current : ∀ s key, (fw.exitBootServices s key).1 = efiSuccess → key = v.key s

/-- A service that lets the map grow by four descriptors at most. -/
def Grows (v : MapView σ) (s s' : σ) : Prop :=
  (v.map s').length ≤ (v.map s).length + 4 * v.descSize s ∧ v.descSize s' = v.descSize s

/-- Firmware that settles: `noise` bounds the number of calls at which the map still changes by itself.  At
all others, asking for the map does not change it, and allocating and freeing pool memory adds at most
four descriptors each.  There is pool memory, and the current key is accepted. -/
structure Settles (fw : BootServices σ) (v : MapView σ) (noise : σ → ℕ) : Prop where
  sized : ∀ s, 0 < v.descSize s ∧ (v.map s).length + 8 * v.descSize s < 2 ^ 64
  answers : ∀ s capacity, (v.map s).length ≤ capacity → (fw.getMemoryMap s capacity).1.status = efiSuccess
  refuses : ∀ s capacity, capacity < (v.map s).length →
    (fw.getMemoryMap s capacity).1.status = efiBufferTooSmall ∧
      (fw.getMemoryMap s capacity).1.size = (v.map s).length ∧
      (fw.getMemoryMap s capacity).1.descSize = v.descSize s
  asks : ∀ s capacity, noise (fw.getMemoryMap s capacity).2 < noise s ∨
    noise (fw.getMemoryMap s capacity).2 ≤ noise s ∧ v.key (fw.getMemoryMap s capacity).2 = v.key s
  allocates : ∀ s n, efiError (fw.allocatePool s n).1 = false ∧
    (noise (fw.allocatePool s n).2.2 < noise s ∨
      noise (fw.allocatePool s n).2.2 ≤ noise s ∧ Grows v s (fw.allocatePool s n).2.2)
  frees : ∀ s address, noise (fw.freePool s address) < noise s ∨
    noise (fw.freePool s address) ≤ noise s ∧ Grows v s (fw.freePool s address)
  leaves : ∀ s, (fw.exitBootServices s (v.key s)).1 = efiSuccess
  stays : ∀ s key, key ≠ v.key s → (fw.exitBootServices s key).1 = efiInvalidParameter ∧
    noise (fw.exitBootServices s key).2 ≤ noise s

/-- Firmware whose map is an array of descriptors. -/
def MapArray (v : MapView σ) : Prop :=
  ∀ s, 40 ≤ v.descSize s ∧ v.descSize s ∣ (v.map s).length

theorem efiError_efiSuccess : efiError efiSuccess = false := by decide

theorem efiBufferTooSmall_ne : efiBufferTooSmall ≠ efiSuccess := by decide

/-! ## A firmware -/

/-- The number of descriptors in the map of the firmware below. -/
def busyEntries (s : ℕ × ℕ) : ℕ := min s.1 1000 + 1

/-- The map of this firmware: descriptors of 48 bytes, all zero. -/
def busyView : MapView (ℕ × ℕ) where
  map s := List.replicate (busyEntries s * 48) 0
  key := busyEntries
  descSize _ := 48
  descVersion _ := 1

/-- A firmware whose map grows when it is asked for, as often as the second component of the state says,
and at every allocation. -/
def busyFirmware : BootServices (ℕ × ℕ) where
  getMemoryMap s capacity :=
    let size := busyEntries s * 48
    let s' := if s.2 = 0 then s else (s.1 + 1, s.2 - 1)
    if capacity < size then (⟨efiBufferTooSmall, size, 0, 48, 1, []⟩, s')
    else (⟨efiSuccess, size, busyEntries s, 48, 1, List.replicate size 0⟩, s')
  allocatePool s _ := (efiSuccess, 4096, (s.1 + 1, s.2))
  freePool s _ := s
  exitBootServices s key :=
    if key = busyEntries s then (efiSuccess, s) else (efiInvalidParameter, s)

theorem busyFirmware_lawful : MapLawful busyFirmware busyView where
  nonempty s := by
    rw [busyView, List.length_replicate, busyEntries]
    omega
  fits s capacity hok := by
    have hlen : (busyView.map s).length = busyEntries s * 48 := List.length_replicate
    rw [hlen]
    unfold busyFirmware at hok ⊢
    simp only at hok ⊢
    split
    · rename_i hsmall
      rw [if_pos hsmall] at hok
      have herror : efiError efiBufferTooSmall = true := by decide
      exact absurd (herror.symm.trans hok) (by decide)
    · rename_i hlarge
      exact ⟨Nat.le_of_not_lt hlarge, rfl⟩
  keyed s s' hkey := by
    refine ⟨?_, rfl, rfl⟩
    show List.replicate (busyEntries s * 48) 0 = List.replicate (busyEntries s' * 48) 0
    rw [show busyEntries s = busyEntries s' from hkey]
  current s key hok := by
    unfold busyFirmware at hok
    simp only at hok
    split at hok
    · assumption
    · have hinvalid : efiInvalidParameter ≠ efiSuccess := by decide
      exact absurd hok hinvalid

theorem busyEntries_grows (s : ℕ × ℕ) (n : ℕ) : Grows busyView s (s.1 + 1, n) := by
  refine ⟨?_, rfl⟩
  simp only [busyView, List.length_replicate, busyEntries]
  omega

theorem busyFirmware_settles : Settles busyFirmware busyView Prod.snd where
  sized s := by
    refine ⟨Nat.succ_pos 47, ?_⟩
    simp only [busyView, List.length_replicate, busyEntries]
    omega
  answers s capacity hlarge := by
    rw [show (busyView.map s).length = busyEntries s * 48 from List.length_replicate] at hlarge
    unfold busyFirmware
    simp only [Nat.not_lt.mpr hlarge, if_false]
  refuses s capacity hsmall := by
    rw [show (busyView.map s).length = busyEntries s * 48 from List.length_replicate] at hsmall ⊢
    unfold busyFirmware
    simp only [hsmall, if_true]
    exact ⟨trivial, trivial, rfl⟩
  asks s capacity := by
    have hstate : (busyFirmware.getMemoryMap s capacity).2 =
        if s.2 = 0 then s else (s.1 + 1, s.2 - 1) := by
      unfold busyFirmware
      simp only
      split <;> rfl
    rw [hstate]
    split
    · exact .inr ⟨Nat.le_refl _, rfl⟩
    · left
      show s.2 - 1 < s.2
      omega
  allocates s n := ⟨efiError_efiSuccess, .inr ⟨Nat.le_refl _, busyEntries_grows s s.2⟩⟩
  frees s address := .inr ⟨Nat.le_refl _, Nat.le_add_right _ _, rfl⟩
  leaves s := by
    unfold busyFirmware
    simp only [busyView, if_true]
  stays s key hkey := by
    unfold busyFirmware
    simp only [show key ≠ busyEntries s from hkey, if_false]
    exact ⟨trivial, Nat.le_refl _⟩

/-- What `exit_boot_services` does with this firmware. -/
def busyOutcome : Option (Outcome (ℕ × ℕ)) :=
  exitBootServices busyFirmware 6 ⟨0, 0, 0, 0⟩ (fun _ => 0) (5, 2)

theorem busyOutcome_isSome : busyOutcome.isSome = true := by
  decide +kernel

theorem busyView_array : MapArray busyView := by
  intro s
  refine ⟨by show 40 ≤ 48; decide, ?_⟩
  show 48 ∣ (List.replicate (busyEntries s * 48) (0 : UInt8)).length
  rw [List.length_replicate]
  exact Nat.dvd_mul_left ..

/-! ## What is handed to the kernel -/

/-- Boot information and memory describe the map of the state `s`. -/
structure Describes (v : MapView σ) (s : σ) (info : MapInfo) (mem : Memory) : Prop where
  size : info.memoryMapSize = (v.map s).length
  descSize : info.memoryDescriptorSize = v.descSize s
  descVersion : info.memoryDescriptorVersion = v.descVersion s
  map : Holds mem info.memoryMap (v.map s)

/-- The firmware has let go with the key of its current map, and this map is described. -/
def Left (fw : BootServices σ) (v : MapView σ) (o : Outcome σ) : Prop :=
  ∃ s, fw.exitBootServices s (v.key s) = (efiSuccess, o.state) ∧ Describes v s o.info o.mem

variable {fw : BootServices σ} {v : MapView σ}

theorem Left.after {o : Outcome σ} (h : Left fw v o) (calls : List Call) : Left fw v (o.after calls) := h

theorem exitLoop_left (hl : MapLawful fw v) (fuel : ℕ) :
    ∀ {map capacity : ℕ} {info : MapInfo} {mem : Memory} {s : σ} {o : Outcome σ},
      exitLoop fw fuel map capacity info mem s = some o → o.status = efiSuccess → Left fw v o := by
  induction fuel with
  | zero =>
    intro map capacity info mem s o h
    exact absurd h nofun
  | succ fuel ih =>
    intro map capacity info mem s o h hok
    rw [exitLoop] at h
    simp only at h
    split at h
    · split at h
      · rename_i herr
        obtain rfl := Option.some.inj h
        rw [show (fw.allocatePool _ _).1 = efiSuccess from hok] at herr
        exact absurd herr (by decide)
      · obtain ⟨o', ho', rfl⟩ := Option.map_eq_some_iff.mp h
        exact (ih ho' hok).after _
    · split at h
      · rename_i herr
        obtain rfl := Option.some.inj h
        rw [show (fw.getMemoryMap s capacity).1.status = efiSuccess from hok] at herr
        exact absurd herr (by decide)
      · rename_i hgot
        obtain ⟨-, hreply⟩ := hl.fits s capacity (Bool.eq_false_iff.mpr hgot)
        rw [hreply] at h
        simp only at h
        split at h
        · -- the key is that of the map in the state in which the firmware lets go
          rename_i hleft
          obtain rfl := Option.some.inj h
          have hkey := hl.current _ _ hleft
          obtain ⟨hmap, hsize, hversion⟩ := hl.keyed _ _ hkey
          refine ⟨(fw.getMemoryMap s capacity).2, ?_, ?_, hsize, hversion, ?_⟩
          · rw [← hkey]
            exact Prod.ext hleft rfl
          · rw [← hmap]
          · rw [← hmap]
            exact holds_copyMem mem map (v.map s)
        · rename_i hstay
          split at h
          · obtain rfl := Option.some.inj h
            exact absurd hok hstay
          · obtain ⟨o', ho', rfl⟩ := Option.map_eq_some_iff.mp h
            exact (ih ho' hok).after _

/-- If `exit_boot_services` returns 0, the firmware has let go, and the kernel is given the map that was the
current one then, however often the map has changed before. -/
theorem exit_boot_services_exact (fw : BootServices σ) (v : MapView σ) (hl : MapLawful fw v) (fuel : ℕ)
    (info : MapInfo) (mem : Memory) (s : σ) (o : Outcome σ)
    (h : exitBootServices fw fuel info mem s = some o) (hok : o.status = efiSuccess) : Left fw v o := by
  rw [exitBootServices] at h
  simp only at h
  split at h
  · -- an answer without a buffer is not a success
    obtain rfl := Option.some.inj h
    have hstatus : (fw.getMemoryMap s 0).1.status = efiSuccess := hok
    have hfits := (hl.fits s 0 (by rw [hstatus]; exact efiError_efiSuccess)).1
    have hpos := hl.nonempty s
    omega
  · split at h
    · rename_i herr
      obtain rfl := Option.some.inj h
      rw [show (fw.allocatePool _ _).1 = efiSuccess from hok] at herr
      exact absurd herr (by decide)
    · obtain ⟨o', ho', rfl⟩ := Option.map_eq_some_iff.mp h
      exact (exitLoop_left hl fuel ho' hok).after _

/-! ## The buffers and the keys on the way -/

/-- The calls go from the live buffers `live` to the live buffers at the end: a buffer is used with the
capacity that it was allocated with, and freed only while it is live; after leaving there is nothing. -/
inductive Uses : List (ℕ × ℕ) → List Call → List (ℕ × ℕ) → Prop where
  | nil (live : List (ℕ × ℕ)) : Uses live [] live
  | get {live last : List (ℕ × ℕ)} {buffer capacity : ℕ} (key : ℕ) {calls : List Call} :
      (buffer, capacity) ∈ live → Uses live calls last →
        Uses live (.getMemoryMap buffer capacity key :: calls) last
  | alloc {live last : List (ℕ × ℕ)} {calls : List Call} (size address : ℕ) :
      Uses ((address, size) :: live) calls last →
        Uses live (.allocatePool size (some address) :: calls) last
  | fail {live last : List (ℕ × ℕ)} {calls : List Call} (size : ℕ) :
      Uses live calls last → Uses live (.allocatePool size none :: calls) last
  | free {live last : List (ℕ × ℕ)} {calls : List Call} {address : ℕ} (size : ℕ) :
      (address, size) ∈ live → Uses (live.erase (address, size)) calls last →
        Uses live (.freePool address :: calls) last
  | stay {live last : List (ℕ × ℕ)} {calls : List Call} (key : ℕ) :
      Uses live calls last → Uses live (.exitBootServices key false :: calls) last
  | leave (live : List (ℕ × ℕ)) (key : ℕ) : Uses live [.exitBootServices key true] live

/-- Each key is the one that the call before has given. -/
def FreshKeys : List Call → Prop
  | [] => True
  | .exitBootServices _ _ :: _ => False
  | .getMemoryMap _ _ key :: .exitBootServices key' _ :: calls => key' = key ∧ FreshKeys calls
  | _ :: calls => FreshKeys calls

/-- One buffer is left at most, and if the firmware has let go, it holds the map that is handed on. -/
def OneLeft (o : Outcome σ) (live : List (ℕ × ℕ)) : Prop :=
  live.length ≤ 1 ∧ (o.status = efiSuccess →
    ∃ capacity, live = [(o.info.memoryMap, capacity)] ∧ o.info.memoryMapSize ≤ capacity)

theorem FreshKeys.realloc {calls : List Call} (h : FreshKeys calls) (buffer capacity key size : ℕ)
    (address : Option ℕ) (rest : List Call) (hrest : rest = calls ∨ ∃ a, rest = .freePool a :: calls) :
    FreshKeys (.getMemoryMap buffer capacity key :: .allocatePool size address :: rest) := by
  rcases hrest with rfl | ⟨a, rfl⟩ <;> simpa [FreshKeys] using h

/-- The old buffer is freed, the new one stays. -/
theorem erase_second (a b : ℕ × ℕ) : [a, b].erase b = [a] := by
  rw [List.erase_cons]
  split
  · rename_i heq
    rw [eq_of_beq heq]
  · rw [List.erase_cons_head]

theorem exitLoop_uses (hl : MapLawful fw v) (fuel : ℕ) :
    ∀ {map capacity : ℕ} {info : MapInfo} {mem : Memory} {s : σ} {o : Outcome σ},
      exitLoop fw fuel map capacity info mem s = some o →
      FreshKeys o.calls ∧ ∃ live, Uses [(map, capacity)] o.calls live ∧ OneLeft o live := by
  induction fuel with
  | zero =>
    intro map capacity info mem s o h
    exact absurd h nofun
  | succ fuel ih =>
    intro map capacity info mem s o h
    have hfails : ∀ {status}, efiError status = true → status ≠ efiSuccess := fun herr heq => by
      rw [heq, efiError_efiSuccess] at herr
      exact Bool.false_ne_true herr
    rw [exitLoop] at h
    simp only at h
    split at h
    · split at h
      · rename_i herr
        obtain rfl := Option.some.inj h
        exact ⟨trivial, _, .get _ List.mem_cons_self (.fail _ (.nil _)), Nat.le_refl 1,
          fun hok => absurd hok (hfails herr)⟩
      · obtain ⟨o', ho', rfl⟩ := Option.map_eq_some_iff.mp h
        obtain ⟨hkeys, live, huses, hone⟩ := ih ho'
        refine ⟨hkeys.realloc _ _ _ _ _ _ (.inr ⟨_, rfl⟩), live, ?_, hone⟩
        refine .get _ List.mem_cons_self (.alloc _ _ (.free capacity ?_ ?_))
        · exact List.mem_cons_of_mem  _ (List.mem_singleton_self (map, capacity))
        · rw [erase_second]
          exact huses
    · split at h
      · rename_i herr
        obtain rfl := Option.some.inj h
        exact ⟨trivial, _, .get _ List.mem_cons_self (.nil _), Nat.le_refl 1,
          fun hok => absurd hok (hfails herr)⟩
      · rename_i hgot
        obtain ⟨hcapacity, hreply⟩ := hl.fits s capacity (Bool.eq_false_iff.mpr hgot)
        rw [hreply] at h
        simp only at h
        split at h
        · obtain rfl := Option.some.inj h
          exact ⟨⟨rfl, trivial⟩, _, .get _ List.mem_cons_self (.leave _ _), Nat.le_refl 1,
            fun _ => ⟨capacity, rfl, hcapacity⟩⟩
        · rename_i hstay
          split at h
          · obtain rfl := Option.some.inj h
            exact ⟨⟨rfl, trivial⟩, _, .get _ List.mem_cons_self (.stay _ (.nil _)), Nat.le_refl 1,
              fun hok => absurd hok hstay⟩
          · obtain ⟨o', ho', rfl⟩ := Option.map_eq_some_iff.mp h
            obtain ⟨hkeys, live, huses, hone⟩ := ih ho'
            exact ⟨⟨rfl, hkeys⟩, live, .get _ List.mem_cons_self (.stay _ huses), hone⟩

/-- Whatever it returns: every buffer is used with the capacity that it was allocated with and freed while it
is live, at most one is left, and each key comes from the call before.  If the firmware has let go, that
was the last call, and the one buffer that is left is large enough for the map that is in it. -/
theorem exit_boot_services_disciplined (fw : BootServices σ) (v : MapView σ) (hl : MapLawful fw v)
    (fuel : ℕ) (info : MapInfo) (mem : Memory) (s : σ) (o : Outcome σ)
    (h : exitBootServices fw fuel info mem s = some o) :
    FreshKeys o.calls ∧ ∃ live, Uses [] o.calls live ∧ OneLeft o live := by
  rw [exitBootServices] at h
  simp only at h
  split at h
  · obtain rfl := Option.some.inj h
    refine ⟨trivial, [], .nil [], Nat.zero_le 1, fun hok => ?_⟩
    have hstatus : (fw.getMemoryMap s 0).1.status = efiSuccess := hok
    have hfits := (hl.fits s 0 (by rw [hstatus]; exact efiError_efiSuccess)).1
    have hpos := hl.nonempty s
    omega
  · split at h
    · rename_i herr
      obtain rfl := Option.some.inj h
      refine ⟨trivial, [], .fail _ (.nil []), Nat.zero_le 1, fun hok => ?_⟩
      rw [show (fw.allocatePool _ _).1 = efiSuccess from hok] at herr
      exact absurd herr (by decide)
    · obtain ⟨o', ho', rfl⟩ := Option.map_eq_some_iff.mp h
      obtain ⟨hkeys, live, huses, hone⟩ := exitLoop_uses hl fuel ho'
      exact ⟨hkeys, live, .alloc _ _ huses, hone⟩

theorem exit_boot_services_disciplined_busy :
    FreshKeys (busyOutcome.get busyOutcome_isSome).calls ∧
      ∃ live, Uses [] (busyOutcome.get busyOutcome_isSome).calls live ∧
        OneLeft (busyOutcome.get busyOutcome_isSome) live :=
  exit_boot_services_disciplined busyFirmware busyView busyFirmware_lawful 6 ⟨0, 0, 0, 0⟩ (fun _ => 0) (5, 2)
    _ (Option.some_get busyOutcome_isSome).symm

/-! ## Leaving at last -/

variable {noise : σ → ℕ}

theorem withRoom_eq (hs : Settles fw v noise) (s : σ) :
    withRoom (v.map s).length (v.descSize s) = (v.map s).length + 8 * v.descSize s := by
  have hsize := (hs.sized s).2
  rw [withRoom, u64_of_lt (by omega : v.descSize s * 8 < 2 ^ 64), u64_of_lt (by omega)]
  omega

/-- After a larger buffer was allocated, it is large enough, or the map has changed by itself. -/
theorem realloc_settles (hl : MapLawful fw v) (hs : Settles fw v noise) (s : σ) (capacity n map : ℕ) :
    let s' := fw.freePool (fw.allocatePool (fw.getMemoryMap s capacity).2 n).2.2 map
    noise s' < noise s ∨ noise s' ≤ noise s ∧ (v.map s').length ≤ (v.map s).length + 8 * v.descSize s := by
  intro s'
  have hasks := hs.asks s capacity
  have halloc := (hs.allocates (fw.getMemoryMap s capacity).2 n).2
  have hfree := hs.frees (fw.allocatePool (fw.getMemoryMap s capacity).2 n).2.2 map
  rcases hasks with hnoise | ⟨hquiet, hkey⟩
  · left
    show noise (fw.freePool _ map) < noise s
    omega
  · obtain ⟨hmap, hdesc, -⟩ := hl.keyed _ _ hkey
    rcases halloc with hnoise | ⟨hquiet', hgrows, hsame⟩
    · left
      show noise (fw.freePool _ map) < noise s
      omega
    · rcases hfree with hnoise | ⟨hquiet'', hgrows', -⟩
      · left
        show noise (fw.freePool _ map) < noise s
        omega
      · right
        rw [hmap, hdesc] at hgrows
        rw [hsame, hdesc] at hgrows'
        exact ⟨by show noise (fw.freePool _ map) ≤ noise s; omega,
          by show (v.map (fw.freePool _ map)).length ≤ _; omega⟩

theorem exitLoop_leaves (hl : MapLawful fw v) (hs : Settles fw v noise) (fuel : ℕ) :
    ∀ (map capacity : ℕ) (info : MapInfo) (mem : Memory) (s : σ),
      2 * noise s + (if capacity < (v.map s).length then 1 else 0) < fuel →
      ∃ o, exitLoop fw fuel map capacity info mem s = some o ∧ o.status = efiSuccess := by
  induction fuel with
  | zero =>
    intro map capacity info mem s h
    exact absurd h (Nat.not_lt_zero _)
  | succ fuel ih =>
    intro map capacity info mem s h
    rw [exitLoop]
    by_cases hsmall : capacity < (v.map s).length
    · obtain ⟨hstatus, hsize, hdesc⟩ := hs.refuses s capacity hsmall
      rw [if_pos hsmall] at h
      simp only [hstatus, if_true, hsize, hdesc, withRoom_eq hs]
      have halloc := (hs.allocates (fw.getMemoryMap s capacity).2
        ((v.map s).length + 8 * v.descSize s)).1
      have hnext := realloc_settles hl hs s capacity ((v.map s).length + 8 * v.descSize s) map
      rw [if_neg (by rw [halloc]; exact Bool.false_ne_true)]
      obtain ⟨o, ho, hok⟩ := ih (fw.allocatePool (fw.getMemoryMap s capacity).2
          ((v.map s).length + 8 * v.descSize s)).2.1 ((v.map s).length + 8 * v.descSize s) info
        (copyMem mem map (fw.getMemoryMap s capacity).1.map)
        (fw.freePool (fw.allocatePool (fw.getMemoryMap s capacity).2
          ((v.map s).length + 8 * v.descSize s)).2.2 map) (by
          rcases hnext with hnoise | ⟨hquiet, henough⟩
          · split <;> omega
          · rw [if_neg (by omega)]
            omega)
      rw [ho]
      exact ⟨_, rfl, hok⟩
    · have hstatus := hs.answers s capacity (Nat.le_of_not_lt hsmall)
      have hreply := (hl.fits s capacity (by rw [hstatus]; exact efiError_efiSuccess)).2
      have hne : efiSuccess ≠ efiBufferTooSmall := efiBufferTooSmall_ne.symm
      rw [if_neg hsmall] at h
      simp only [hreply, hne, if_false, efiError_efiSuccess, Bool.false_eq_true]
      by_cases hkey : v.key s = v.key (fw.getMemoryMap s capacity).2
      · rw [hkey, if_pos (hs.leaves _)]
        exact ⟨_, rfl, rfl⟩
      · -- the map has changed since it was taken
        obtain ⟨hstay, hquiet⟩ := hs.stays (fw.getMemoryMap s capacity).2 (v.key s) hkey
        have hnoise : noise (fw.getMemoryMap s capacity).2 < noise s :=
          (hs.asks s capacity).resolve_right fun h => hkey h.2.symm
        have hinvalid : efiInvalidParameter ≠ efiSuccess := by decide
        simp only [hstay, hinvalid, if_false, ne_eq, not_true_eq_false]
        obtain ⟨o, ho, hok⟩ := ih map capacity ⟨map, (v.map s).length, v.descSize s, v.descVersion s⟩
          (copyMem mem map (v.map s))
          (fw.exitBootServices (fw.getMemoryMap s capacity).2 (v.key s)).2 (by split <;> omega)
        rw [ho]
        exact ⟨_, rfl, hok⟩

/-- With firmware that settles, `exit_boot_services` returns 0. -/
theorem exit_boot_services_leaves (fw : BootServices σ) (v : MapView σ) (noise : σ → ℕ)
    (hl : MapLawful fw v) (hs : Settles fw v noise) (fuel : ℕ) (info : MapInfo) (mem : Memory) (s : σ)
    (hfuel : 2 * noise s + 2 ≤ fuel) :
    ∃ o, exitBootServices fw fuel info mem s = some o ∧ o.status = efiSuccess ∧ Left fw v o := by
  have hpos := hl.nonempty s
  obtain ⟨hstatus, hsize, hdesc⟩ := hs.refuses s 0 hpos
  have hsized := (hs.sized s).1
  have halloc := hs.allocates (fw.getMemoryMap s 0).2 (withRoom (v.map s).length (v.descSize s))
  have hquiet : noise (fw.allocatePool (fw.getMemoryMap s 0).2
      (withRoom (v.map s).length (v.descSize s))).2.2 ≤ noise s := by
    rcases hs.asks s 0 with h | h <;> rcases halloc.2 with h' | h' <;> omega
  have hresult : ∃ o, exitBootServices fw fuel info mem s = some o ∧ o.status = efiSuccess := by
    rw [exitBootServices]
    simp only [hstatus, hdesc, hsize, ne_eq, not_true_eq_false, false_or, Nat.ne_of_gt hsized, if_false,
      halloc.1, Bool.false_eq_true]
    obtain ⟨o, ho, hok⟩ := exitLoop_leaves hl hs fuel
      (fw.allocatePool (fw.getMemoryMap s 0).2 (withRoom (v.map s).length (v.descSize s))).2.1
      (withRoom (v.map s).length (v.descSize s)) info mem
      (fw.allocatePool (fw.getMemoryMap s 0).2 (withRoom (v.map s).length (v.descSize s))).2.2
      (by split <;> omega)
    rw [ho]
    exact ⟨_, rfl, hok⟩
  obtain ⟨o, ho, hok⟩ := hresult
  exact ⟨o, ho, hok, exit_boot_services_exact fw v hl fuel info mem s o ho hok⟩

theorem exit_boot_services_leaves_busy : ∃ o,
    exitBootServices busyFirmware 6 ⟨0, 0, 0, 0⟩ (fun _ => 0) (5, 2) = some o ∧
      o.status = efiSuccess ∧ Left busyFirmware busyView o :=
  exit_boot_services_leaves busyFirmware busyView Prod.snd busyFirmware_lawful busyFirmware_settles 6
    ⟨0, 0, 0, 0⟩ (fun _ => 0) (5, 2) (by decide)

/-! ## The map in the kernel -/

/-- The descriptor that the page allocator reads at the address `a`. -/
def descAt (mem : Memory) (a : ℕ) : Pmm.EfiMemDesc :=
  ⟨(readLe mem a 4).value, (readLe mem (a + 8) 8).value, (readLe mem (a + 24) 8).value⟩

/-- The descriptor at an offset of a map. -/
def descIn (map : List UInt8) (off : ℕ) : Pmm.EfiMemDesc :=
  ⟨field map off 4, field map (off + 8) 8, field map (off + 24) 8⟩

/-- The descriptors of the map, which stand `stride` bytes apart. -/
def mapEntries (map : List UInt8) (stride : ℕ) : List Pmm.EfiMemDesc :=
  (List.range (map.length / stride)).map fun i => descIn map (i * stride)

theorem descLoop_entries {m : Pmm.Machine} {bi : Pmm.OrionBootInfo} {mem : Memory} {map : List UInt8}
    (hdesc : m.descAt = descAt mem) (hmap : Holds mem bi.memoryMap map)
    (hsize : bi.memoryMapSize = map.length) (hstride : 40 ≤ bi.memoryDescriptorSize)
    (hend : bi.memoryMap + map.length + 40 < 2 ^ 64) {count : ℕ}
    (hcount : map.length = count * bi.memoryDescriptorSize) (n : ℕ) : ∀ {i fuel : ℕ}, i + n = count →
      n < fuel → Pmm.descLoop m bi fuel (i * bi.memoryDescriptorSize) =
        (List.range' i n).map fun k => descIn map (k * bi.memoryDescriptorSize) := by
  induction n with
  | zero =>
    intro i fuel hi hfuel
    obtain ⟨fuel, rfl⟩ := Nat.exists_eq_add_of_lt hfuel
    rw [Nat.zero_add, Pmm.descLoop, ← Nat.add_zero i, hi, ← hcount, Pmm.efiMemDescSize,
      Pmm.u64_of_lt (by omega), if_neg (by omega)]
    rfl
  | succ n ih =>
    intro i fuel hi hfuel
    obtain ⟨fuel, rfl⟩ : ∃ f, fuel = f + 1 := ⟨fuel - 1, by omega⟩
    have hnext : i * bi.memoryDescriptorSize + bi.memoryDescriptorSize ≤ map.length := by
      rw [hcount, ← Nat.succ_mul]
      exact Nat.mul_le_mul_right _ (by omega)
    have hentry : Pmm.descOf m bi (i * bi.memoryDescriptorSize) =
        descIn map (i * bi.memoryDescriptorSize) := by
      rw [Pmm.descOf, hdesc, Pmm.u64_of_lt (by omega), descAt, descIn, hmap.readLe rfl (by omega),
        hmap.readLe (Nat.add_assoc ..) (by omega), hmap.readLe (Nat.add_assoc ..) (by omega)]
    rw [Pmm.descLoop, Pmm.efiMemDescSize, Pmm.u64_of_lt (by omega), if_pos (by omega), hentry,
      Pmm.u64_of_lt (by omega), ← Nat.succ_mul, ih (by omega) (by omega), List.range'_succ, List.map_cons]

/-- The kernel is given the bytes and the measures of the map that was the current one when the firmware let
go, and the page allocator walks exactly its descriptors. -/
theorem boot_map_reaches_pmm (fw : BootServices σ) (v : MapView σ) (hl : MapLawful fw v)
    (ha : MapArray v) (fuel : ℕ) (info : MapInfo) (mem : Memory) (s : σ) (o : Outcome σ)
    (h : exitBootServices fw fuel info mem s = some o) (hok : o.status = efiSuccess)
    (hend : o.info.memoryMap + o.info.memoryMapSize + 40 < 2 ^ 64) :
    ∃ s', fw.exitBootServices s' (v.key s') = (efiSuccess, o.state) ∧ Describes v s' o.info o.mem ∧
      ∀ (m : Pmm.Machine) (bi : Pmm.OrionBootInfo), m.descAt = descAt o.mem →
        bi.memoryMap = o.info.memoryMap → bi.memoryMapSize = o.info.memoryMapSize →
        bi.memoryDescriptorSize = o.info.memoryDescriptorSize →
        Pmm.descriptors m bi = mapEntries (v.map s') (v.descSize s') := by
  obtain ⟨s', hleft, hd⟩ := exit_boot_services_exact fw v hl fuel info mem s o h hok
  refine ⟨s', hleft, hd, fun m bi hdesc hmap hsize hstride => ?_⟩
  obtain ⟨hlong, hdvd⟩ := ha s'
  rw [hd.size] at hend hsize
  rw [hd.descSize] at hstride
  have hcount : (v.map s').length = (v.map s').length / v.descSize s' * v.descSize s' :=
    (Nat.div_mul_cancel hdvd).symm
  have hholds := hd.map
  rw [← hmap] at hholds hend
  have hfew : (v.map s').length / v.descSize s' < (v.map s').length + 1 :=
    Nat.lt_succ_of_le (Nat.div_le_self ..)
  have hloop := descLoop_entries hdesc hholds hsize (by rw [hstride]; exact hlong) hend
    (by rw [hstride]; exact hcount) _ (Nat.zero_add _) hfew
  rw [Nat.zero_mul, hstride] at hloop
  rw [Pmm.descriptors, hsize, hloop, mapEntries, List.range_eq_range']

theorem boot_map_reaches_pmm_busy :
    ∃ s', busyFirmware.exitBootServices s' (busyView.key s') =
        (efiSuccess, (busyOutcome.get busyOutcome_isSome).state) ∧
      Describes busyView s' (busyOutcome.get busyOutcome_isSome).info
        (busyOutcome.get busyOutcome_isSome).mem ∧
      ∀ (m : Pmm.Machine) (bi : Pmm.OrionBootInfo),
        m.descAt = descAt (busyOutcome.get busyOutcome_isSome).mem →
        bi.memoryMap = (busyOutcome.get busyOutcome_isSome).info.memoryMap →
        bi.memoryMapSize = (busyOutcome.get busyOutcome_isSome).info.memoryMapSize →
        bi.memoryDescriptorSize = (busyOutcome.get busyOutcome_isSome).info.memoryDescriptorSize →
        Pmm.descriptors m bi = mapEntries (busyView.map s') (busyView.descSize s') :=
  boot_map_reaches_pmm busyFirmware busyView busyFirmware_lawful busyView_array 6 ⟨0, 0, 0, 0⟩ (fun _ => 0)
    (5, 2) _ (Option.some_get busyOutcome_isSome).symm (by decide +kernel) (by decide +kernel)

end Orion.Boot
