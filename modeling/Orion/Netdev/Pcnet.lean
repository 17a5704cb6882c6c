import Mathlib.Data.List.Infix
import Orion.Lib.Handoff

/-!
# Transmission through the PCnet (`kernel/netdev_pcnet.c`)

`tx` takes the next of eight descriptors, if the device does not own it, copies the frame into its
buffer byte by byte, fills the descriptor in and hands it over with the last store.  The device has an
index of its own.  It looks at its next descriptor at any time, and if it owns that one, reads the buffer
byte by byte, and gives the descriptor back.  The two sides take their steps in any order.

* `byteCount_bcnt` — the device counts the bytes that `tx` has written;
* `Transmit.run_inv` — the ring of descriptors is a queue of at most eight frames, in every run;
* `Transmit.device_drains` — left alone, the device sends everything that was posted;
* `Transmit.run_progress` — a call that finds a free descriptor posts its frame and returns 1.
-/

namespace Orion.Netdev.Pcnet

open Orion.Lib

def N : ℕ := 8

/-! ## Descriptors -/

/-- A descriptor.  Its address is given by the number of the buffer; `none` is the null of `init`. -/
structure Desc where
  addr : Option ℕ
  bcnt : UInt16
  status : UInt16
  mcnt : UInt32
  deriving Repr, DecidableEq

/-- Bit 15 of the status: the descriptor is the device's. -/
def Desc.owned (d : Desc) : Bool := d.status &&& 0x8000 != 0

/-- How `tx` writes a length: negative, below four ones. -/
def bcnt (len : ℕ) : UInt16 := 0xf000 ||| (-(UInt16.ofNat len) &&& 0x0fff)

/-- How the device reads it: as a negative number of twelve bits. -/
def byteCount (b : UInt16) : ℕ := (-b &&& 0x0fff).toNat

theorem bcnt_toNat {len : ℕ} (hpos : 0 < len) (hlt : len < 4096) : (bcnt len).toNat = 2 ^ 16 - len := by
  have hlow : (-(UInt16.ofNat len) &&& 0x0fff).toNat = 4096 - len := by
    rw [UInt16.toNat_and, UInt16.toNat_neg, UInt16.toNat_ofNat']
    show (2 ^ 16 - len % 2 ^ 16) % 2 ^ 16 &&& (2 ^ 12 - 1) = 4096 - len
    rw [Nat.and_two_pow_sub_one_eq_mod]
    omega
  rw [bcnt, UInt16.toNat_or, hlow]
  show 2 ^ 12 * 15 ||| (4096 - len) = 2 ^ 16 - len
  rw [← Nat.two_pow_add_eq_or_of_lt (by omega)]
  omega

/-- The device counts as many bytes as the frame has. -/
theorem byteCount_bcnt {len : ℕ} (hpos : 0 < len) (hlt : len < 4096) : byteCount (bcnt len) = len := by
  rw [byteCount, UInt16.toNat_and, UInt16.toNat_neg, bcnt_toNat hpos hlt]
  show (2 ^ 16 - (2 ^ 16 - len)) % 2 ^ 16 &&& (2 ^ 12 - 1) = len
  rw [Nat.and_two_pow_sub_one_eq_mod]
  omega

/-! ## The model -/

/-- Where the call of `tx` is: what it does next. -/
inductive Pc where
  | idle
  | check (data : List UInt8)
  | copy (slot : ℕ) (data : List UInt8) (k : ℕ)
  | addr (slot : ℕ) (data : List UInt8)
  | bcnt (slot : ℕ) (data : List UInt8)
  | mcnt (slot : ℕ) (data : List UInt8)
  | status (slot : ℕ) (data : List UInt8)
  | advance (slot : ℕ) (data : List UInt8)
  deriving Repr, DecidableEq

/-- What the device does: it waits, or it has read some bytes of a frame. -/
inductive Engine where
  | waiting
  | reading (bytes : List UInt8)
  deriving Repr, DecidableEq

/-- The driver's side and the device.  `next` is the device's index; `posted` records the frames whose
descriptors were handed over, `sent` those that were transmitted, `returned` the calls of `tx` and what
they returned. -/
structure Transmit where
  up : Bool
  txd : ℕ → Desc
  txb : ℕ → ℕ → UInt8
  txi : ℕ
  pc : Pc
  next : ℕ
  engine : Engine
  posted : List (List UInt8)
  sent : List (List UInt8)
  returned : List (List UInt8 × Bool)

namespace Transmit

/-- After `init`, which zeroes the descriptors, or without it. -/
def boot (up : Bool) : Transmit :=
  ⟨up, fun _ => ⟨none, 0, 0, 0⟩, fun _ _ => 0, 0, .idle, 0, .waiting, [], [], []⟩

/-- A call of `tx` returns. -/
def ret (s : Transmit) (data : List UInt8) (r : Bool) : Transmit :=
  { s with pc := .idle, returned := s.returned ++ [(data, r)] }

/-- `tx` is called; there is one thread. -/
def tx (data : List UInt8) (s : Transmit) : Transmit :=
  if s.pc = .idle then
    if s.up = false ∨ data.length < 14 ∨ 1514 < data.length then s.ret data false
    else { s with pc := .check data }
  else s

/-- A store to a descriptor. -/
def setDesc (s : Transmit) (slot : ℕ) (d : Desc) : Transmit :=
  { s with txd := Function.update s.txd slot d }

def setStatus (s : Transmit) (slot : ℕ) (st : UInt16) : Transmit :=
  s.setDesc slot { s.txd slot with status := st }

/-- The next step of the call. -/
def cpu (s : Transmit) : Transmit :=
  match s.pc with
  | .idle => s
  | .check data =>
    if (s.txd s.txi).owned then s.ret data false else { s with pc := .copy s.txi data 0 }
  | .copy slot data k =>
    if h : k < data.length then
      { s with
        txb := Function.update s.txb slot (Function.update (s.txb slot) k data[k])
        pc := .copy slot data (k + 1) }
    else { s with pc := .addr slot data }
  | .addr slot data =>
    { s.setDesc slot { s.txd slot with addr := some slot } with pc := .bcnt slot data }
  | .bcnt slot data =>
    { s.setDesc slot { s.txd slot with bcnt := Pcnet.bcnt data.length } with pc := .mcnt slot data }
  | .mcnt slot data => { s.setDesc slot { s.txd slot with mcnt := 0 } with pc := .status slot data }
  | .status slot data =>
    { s.setStatus slot 0x8300 with pc := .advance slot data, posted := s.posted ++ [data] }
  | .advance slot data => { s with txi := (slot + 1) % N }.ret data true

/-- The byte that the device reads through the descriptor `d`. -/
def byteAt (s : Transmit) (d : Desc) (k : ℕ) : UInt8 :=
  match d.addr with
  | none => 0
  | some b => s.txb b k

/-- The next step of the device.  When it has read the frame, it writes a status without bit 15. -/
def device (st : UInt16) (s : Transmit) : Transmit :=
  match s.engine with
  | .waiting => if (s.txd s.next).owned then { s with engine := .reading [] } else s
  | .reading bytes =>
    let d := s.txd s.next
    if bytes.length < byteCount d.bcnt then
      { s with engine := .reading (bytes ++ [s.byteAt d bytes.length]) }
    else
      { s.setStatus s.next (st &&& 0x7fff) with
        next := (s.next + 1) % N
        engine := .waiting
        sent := s.sent ++ [bytes] }

inductive Event where
  | tx (data : List UInt8)
  | cpu
  | device (st : UInt16)
  deriving Repr, DecidableEq

def step (s : Transmit) : Event → Transmit
  | .tx data => tx data s
  | .cpu => cpu s
  | .device st => device st s

def run (es : List Event) (s : Transmit) : Transmit := es.foldl step s

/-! ## The ring of descriptors -/

/-- Whose the descriptors are. -/
def owned (s : Transmit) : ℕ → Bool := Desc.owned ∘ s.txd

/-- What the device would read in the buffer of the slot `j`. -/
def frame (s : Transmit) (j : ℕ) : List UInt8 := (List.range (byteCount (s.txd j).bcnt)).map (s.txb j)

/-- The slot of the frame that is posted next. -/
def fill (s : Transmit) : ℕ :=
  match s.pc with
  | .advance slot _ => (slot + 1) % N
  | _ => s.txi

end Transmit

/-- The frame that is posted while its call has not returned. -/
def Pc.returning : Pc → List (List UInt8)
  | .advance _ data => [data]
  | _ => []

/-- The steps until a call returns that finds its descriptor free. -/
def Pc.left : Pc → ℕ
  | .idle => 0
  | .check data => data.length + 7
  | .copy _ data k => data.length - k + 6
  | .addr _ _ => 5
  | .bcnt _ _ => 4
  | .mcnt _ _ => 3
  | .status _ _ => 2
  | .advance _ _ => 1

namespace Transmit

theorem setDesc_self (s : Transmit) (slot : ℕ) (d : Desc) : (s.setDesc slot d).txd slot = d :=
  Function.update_self ..

@[simp] theorem owned_setDesc (s : Transmit) (slot : ℕ) (d : Desc) :
    (s.setDesc slot d).owned = Function.update s.owned slot d.owned :=
  Function.comp_update ..

theorem owned_setStatus (s : Transmit) (slot : ℕ) (st : UInt16) :
    (s.setStatus slot st).owned = Function.update s.owned slot (st &&& 0x8000 != 0) :=
  owned_setDesc ..

/-- A status says nothing about the frame and where it is. -/
theorem setStatus_txd (s : Transmit) (slot : ℕ) (st : UInt16) (j : ℕ) :
    ((s.setStatus slot st).txd j).addr = (s.txd j).addr ∧
      ((s.setStatus slot st).txd j).bcnt = (s.txd j).bcnt := by
  show (Function.update s.txd slot { s.txd slot with status := st } j).addr = (s.txd j).addr ∧
    (Function.update s.txd slot { s.txd slot with status := st } j).bcnt = (s.txd j).bcnt
  by_cases hj : j = slot
  · rw [hj, Function.update_self]
    exact ⟨rfl, rfl⟩
  · rw [Function.update_of_ne hj]
    exact ⟨rfl, rfl⟩

@[simp] theorem frame_setStatus (s : Transmit) (slot : ℕ) (st : UInt16) :
    (s.setStatus slot st).frame = s.frame := by
  funext j
  rw [frame, frame, (s.setStatus_txd slot st j).2]
  rfl

/-- The first `k` bytes of the frame are in the buffer of the next slot, which is the driver's. -/
structure Copied (s : Transmit) (slot : ℕ) (data : List UInt8) (k : ℕ) : Prop where
  slot_eq : slot = s.txi
  free : s.owned slot = false
  long : 14 ≤ data.length
  short : data.length ≤ 1514
  bytes : ∀ i, i < k → ∀ h : i < data.length, s.txb slot i = data[i]

/-- What a call has done, by what it does next. -/
def Stage (s : Transmit) : Pc → Prop
  | .idle => True
  | .check data => 14 ≤ data.length ∧ data.length ≤ 1514
  | .copy slot data k => s.Copied slot data k
  | .addr slot data => s.Copied slot data data.length
  | .bcnt slot data => s.Copied slot data data.length ∧ (s.txd slot).addr = some slot
  | .mcnt slot data | .status slot data =>
    s.Copied slot data data.length ∧ (s.txd slot).addr = some slot ∧
      (s.txd slot).bcnt = Pcnet.bcnt data.length
  | .advance slot _ => slot = s.txi

/-- What holds in every run. -/
structure Inv (s : Transmit) : Prop where
  ring : Handoff N s.owned s.frame s.fill s.next s.posted s.sent.length
  addressed : ∀ j, s.owned j = true → (s.txd j).addr = some j
  sent_prefix : s.sent <+: s.posted
  stage : s.Stage s.pc
  reading : ∀ bytes, s.engine = .reading bytes → s.owned s.next = true ∧ bytes <+: s.frame s.next
  accepted : (s.returned.filter Prod.snd).map Prod.fst ++ s.pc.returning = s.posted

theorem boot_owned (up : Bool) (j : ℕ) : (boot up).owned j = false := by
  unfold owned boot Desc.owned
  simp

theorem boot_inv (up : Bool) : Inv (boot up) where
  ring := Handoff.start (boot_owned up)
  addressed := by
    intro j hj
    rw [boot_owned] at hj
    exact absurd hj Bool.false_ne_true
  sent_prefix := List.prefix_refl _
  stage := trivial
  reading := by
    intro bytes hbytes
    exact absurd hbytes Engine.noConfusion
  accepted := rfl

/-- `t` differs from `s` at most in the call and in slots that are not the device's. -/
structure Kept (s t : Transmit) : Prop where
  owned : t.owned = s.owned
  txd : ∀ j, s.owned j = true → t.txd j = s.txd j
  txb : ∀ j, s.owned j = true → t.txb j = s.txb j
  fill : t.fill = s.fill
  next : t.next = s.next
  engine : t.engine = s.engine
  posted : t.posted = s.posted
  sent : t.sent = s.sent

namespace Inv

variable {s t : Transmit} (h : Inv s)

include h

/-- The device does not notice what the driver does in its own slots. -/
theorem of_kept (hk : Kept s t) (hstage : t.Stage t.pc)
    (haccepted : (t.returned.filter Prod.snd).map Prod.fst ++ t.pc.returning = s.posted) : Inv t := by
  have hframe : ∀ j, s.owned j = true → t.frame j = s.frame j := by
    intro j hj
    rw [frame, frame, hk.txd j hj, hk.txb j hj]
  refine ⟨?_, ?_, ?_, hstage, ?_, ?_⟩
  · rw [hk.owned, hk.fill, hk.next, hk.posted, hk.sent]
    exact h.ring.frame hframe
  · intro j hj
    rw [hk.owned] at hj
    rw [hk.txd j hj]
    exact h.addressed j hj
  · rw [hk.sent, hk.posted]
    exact h.sent_prefix
  · intro bytes hbytes
    rw [hk.engine] at hbytes
    obtain ⟨howned, hbytes⟩ := h.reading bytes hbytes
    rw [hk.owned, hk.next, hframe _ howned]
    exact ⟨howned, hbytes⟩
  · rw [haccepted, hk.posted]

end Inv

variable {s : Transmit}

theorem ret_inv (h : Inv s) {data : List UInt8} (hpc : s.pc = .idle ∨ s.pc = .check data) :
    Inv (s.ret data false) := by
  have hfill : s.fill = s.txi ∧ s.pc.returning = [] := by
    rcases hpc with hpc | hpc <;> rw [fill, hpc] <;> exact ⟨rfl, rfl⟩
  refine h.of_kept ⟨rfl, fun _ _ => rfl, fun _ _ => rfl, hfill.1.symm, rfl, rfl, rfl, rfl⟩ trivial ?_
  have haccepted := h.accepted
  rw [hfill.2] at haccepted
  rw [← haccepted]
  simp [ret, Pc.returning]

theorem tx_inv (h : Inv s) (data : List UInt8) : Inv (tx data s) := by
  unfold tx
  split
  · rename_i hpc
    split
    · exact ret_inv h (.inl hpc)
    · rename_i hvalid
      rw [not_or, not_or] at hvalid
      refine h.of_kept ⟨rfl, fun _ _ => rfl, fun _ _ => rfl, ?_, rfl, rfl, rfl, rfl⟩ ?_ ?_
      · rw [fill, fill, hpc]
      · exact ⟨Nat.le_of_not_lt hvalid.2.1, Nat.le_of_not_lt hvalid.2.2⟩
      · have haccepted := h.accepted
        rw [hpc] at haccepted
        exact haccepted
  · exact h

/-- A byte goes into the buffer of a slot that is the driver's. -/
theorem Copied.byte {slot k : ℕ} {data : List UInt8} (hc : s.Copied slot data k) (hk : k < data.length) :
    Copied { s with
      txb := Function.update s.txb slot (Function.update (s.txb slot) k data[k])
      pc := .copy slot data (k + 1) } slot data (k + 1) := by
  refine ⟨hc.slot_eq, hc.free, hc.long, hc.short, ?_⟩
  intro i hi hlt
  show Function.update s.txb slot (Function.update (s.txb slot) k data[k]) slot i = data[i]
  rw [Function.update_self]
  rcases Nat.lt_succ_iff_lt_or_eq.mp hi with hbefore | rfl
  · rw [Function.update_of_ne (Nat.ne_of_lt hbefore), hc.bytes i hbefore hlt]
  · rw [Function.update_self]

/-- A store to the descriptor of a slot that is the driver's, except for the one that hands it over. -/
theorem Copied.kept {slot k : ℕ} {data : List UInt8} (hc : s.Copied slot data k) (d : Desc)
    (hd : d.status = (s.txd slot).status) {pc : Pc} (hfill : s.fill = s.txi)
    (hpc : ({ s.setDesc slot d with pc := pc } : Transmit).fill = s.txi) :
    Kept s { s.setDesc slot d with pc := pc } := by
  have howned : (s.setDesc slot d).owned = s.owned := by
    rw [owned_setDesc, Desc.owned, hd]
    exact Function.update_eq_self _ _
  refine ⟨howned, ?_, fun _ _ => rfl, hpc.trans hfill.symm, rfl, rfl, rfl, rfl⟩
  intro j hj
  refine Function.update_of_ne ?_ _ _
  rintro rfl
  rw [hc.free] at hj
  exact Bool.false_ne_true hj

theorem Copied.setDesc {slot k : ℕ} {data : List UInt8} (hc : s.Copied slot data k) (d : Desc)
    (hd : d.status = (s.txd slot).status) (pc : Pc) :
    Copied { s.setDesc slot d with pc := pc } slot data k := by
  refine ⟨hc.slot_eq, ?_, hc.long, hc.short, hc.bytes⟩
  show (s.setDesc slot d).owned slot = false
  rw [owned_setDesc, Function.update_self, Desc.owned, hd]
  exact hc.free

/-- The buffer and the descriptor hold the frame. -/
theorem Copied.frame_eq {slot : ℕ} {data : List UInt8} (hc : s.Copied slot data data.length)
    (hb : (s.txd slot).bcnt = Pcnet.bcnt data.length) : s.frame slot = data := by
  have hlong := hc.long
  have hshort := hc.short
  rw [frame, hb, byteCount_bcnt (by omega) (by omega)]
  apply List.ext_getElem
  · rw [List.length_map, List.length_range]
  · intro i hi hi'
    rw [List.getElem_map, List.getElem_range]
    exact hc.bytes i hi' hi'

/-- What the device does to statuses does not undo what the call has done. -/
theorem Stage.of_status {t : Transmit} {pc : Pc} (hstage : s.Stage pc) (htxi : t.txi = s.txi)
    (htxb : t.txb = s.txb)
    (htxd : ∀ j, (t.txd j).addr = (s.txd j).addr ∧ (t.txd j).bcnt = (s.txd j).bcnt)
    (hfree : ∀ j, s.owned j = false → t.owned j = false) : t.Stage pc := by
  have hcopied : ∀ {slot data k}, s.Copied slot data k → t.Copied slot data k := by
    intro slot data k hc
    refine ⟨hc.slot_eq.trans htxi.symm, hfree slot hc.free, hc.long, hc.short, ?_⟩
    rw [htxb]
    exact hc.bytes
  cases pc with
  | idle => trivial
  | check data => exact hstage
  | copy slot data k => exact hcopied hstage
  | addr slot data => exact hcopied hstage
  | bcnt slot data => exact ⟨hcopied hstage.1, (htxd slot).1.trans hstage.2⟩
  | mcnt slot data | status slot data =>
    exact ⟨hcopied hstage.1, (htxd slot).1.trans hstage.2.1, (htxd slot).2.trans hstage.2.2⟩
  | advance slot data => exact Eq.trans hstage htxi.symm

/-- The last store of a call hands the descriptor over. -/
theorem post_inv (h : Inv s) {slot : ℕ} {data : List UInt8} (hpc : s.pc = .status slot data) :
    Inv { s.setStatus slot 0x8300 with pc := .advance slot data, posted := s.posted ++ [data] } := by
  have hstage := h.stage
  have haccepted := h.accepted
  rw [hpc] at hstage haccepted
  obtain ⟨hcopied, haddr, hbcnt⟩ := hstage
  have hfill : s.fill = slot := by rw [fill, hpc, hcopied.slot_eq]
  have howned : (s.setStatus slot 0x8300).owned = Function.update s.owned slot true := by
    rw [owned_setStatus]
    rfl
  have hring := h.ring
  rw [hfill] at hring
  refine ⟨?_, ?_, h.sent_prefix.trans (List.prefix_append _ _), hcopied.slot_eq, ?_, ?_⟩
  · have hgiven := hring.give (x := data) (by decide) hcopied.free (hcopied.frame_eq hbcnt)
    rw [← howned, ← frame_setStatus s slot 0x8300] at hgiven
    exact hgiven
  · intro j hj
    refine (s.setStatus_txd slot 0x8300 j).1.trans ?_
    by_cases hslot : j = slot
    · rw [hslot, haddr]
    · refine h.addressed j ?_
      rw [← Function.update_of_ne hslot true s.owned, ← howned]
      exact hj
  · intro bytes hbytes
    obtain ⟨hready, hread⟩ := h.reading bytes hbytes
    have hne : s.next ≠ slot := by
      intro heq
      rw [heq, hcopied.free] at hready
      exact Bool.false_ne_true hready
    refine ⟨?_, ?_⟩
    · show (s.setStatus slot 0x8300).owned s.next = true
      rw [howned, Function.update_of_ne hne, hready]
    · show bytes <+: (s.setStatus slot 0x8300).frame s.next
      rw [frame_setStatus]
      exact hread
  · refine congrArg (· ++ [data]) ?_
    rw [← haccepted]
    exact (List.append_nil _).symm

/-- The device reads the next byte of the frame. -/
theorem read_prefix (h : Inv s) (howned : s.owned s.next = true) {bytes : List UInt8}
    (hread : bytes <+: s.frame s.next) (hlt : bytes.length < byteCount (s.txd s.next).bcnt) :
    bytes ++ [s.byteAt (s.txd s.next) bytes.length] <+: s.frame s.next := by
  have hlen : bytes.length < (s.frame s.next).length := by
    rw [frame, List.length_map, List.length_range]
    exact hlt
  have hbyte : s.byteAt (s.txd s.next) bytes.length = (s.frame s.next)[bytes.length] := by
    unfold byteAt
    rw [h.addressed _ howned]
    simp only [frame, List.getElem_map, List.getElem_range]
  rw [hbyte]
  exact List.concat_get_prefix hread hlen

/-- The device has read all bytes and gives the descriptor back. -/
theorem complete_inv (h : Inv s) {st : UInt16} (howned : s.owned s.next = true) {bytes : List UInt8}
    (hread : bytes <+: s.frame s.next) (hge : ¬ bytes.length < byteCount (s.txd s.next).bcnt) :
    Inv { s.setStatus s.next (st &&& 0x7fff) with
      next := (s.next + 1) % N
      engine := .waiting
      sent := s.sent ++ [bytes] } := by
  have howned' : (s.setStatus s.next (st &&& 0x7fff)).owned = Function.update s.owned s.next false := by
    have hclear : (st &&& 0x7fff &&& 0x8000 != 0) = false := by
      rw [UInt16.and_assoc]
      show (st &&& 0 != 0) = false
      rw [UInt16.and_zero]
      rfl
    rw [owned_setStatus, hclear]
  have hlt : s.sent.length < s.posted.length := (h.ring.full_iff (by decide)).mp howned
  -- the whole frame was read, and it is the oldest one that is posted
  have hwhole : bytes = s.posted[s.sent.length] := by
    rw [← h.ring.oldest hlt]
    refine hread.eq_of_length_le ?_
    rw [frame, List.length_map, List.length_range]
    exact Nat.le_of_not_lt hge
  refine ⟨?_, ?_, ?_, ?_, ?_, h.accepted⟩
  · have htaken := h.ring.take (by decide) howned
    have hlen : (s.sent ++ [bytes]).length = s.sent.length + 1 := List.length_append
    rw [← howned', ← frame_setStatus s s.next (st &&& 0x7fff), ← hlen] at htaken
    exact htaken
  · intro j hj
    refine (s.setStatus_txd s.next (st &&& 0x7fff) j).1.trans (h.addressed j ?_)
    by_cases hnext : j = s.next
    · rw [hnext, howned]
    · rw [← Function.update_of_ne hnext false s.owned, ← howned']
      exact hj
  · show s.sent ++ [bytes] <+: s.posted
    rw [hwhole]
    exact List.concat_get_prefix h.sent_prefix hlt
  · refine h.stage.of_status rfl rfl (s.setStatus_txd s.next (st &&& 0x7fff)) ?_
    intro j hj
    show (s.setStatus s.next (st &&& 0x7fff)).owned j = false
    rw [howned']
    by_cases hnext : j = s.next
    · rw [hnext, Function.update_self]
    · rw [Function.update_of_ne hnext, hj]
  · intro bytes' hbytes
    exact absurd hbytes Engine.noConfusion

/-- The call finds its descriptor free, or returns 0. -/
theorem check_inv (h : Inv s) {data : List UInt8} (hpc : s.pc = .check data) : Inv s.cpu := by
  have hstage := h.stage
  have haccepted := h.accepted
  rw [hpc] at hstage haccepted
  simp only [cpu, hpc]
  split
  · exact ret_inv h (.inr hpc)
  · rename_i hfree
    refine h.of_kept ⟨rfl, fun _ _ => rfl, fun _ _ => rfl, ?_, rfl, rfl, rfl, rfl⟩ ?_ haccepted
    · rw [fill, fill, hpc]
    · refine ⟨rfl, Bool.eq_false_iff.mpr hfree, hstage.1, hstage.2, ?_⟩
      exact fun i hi => absurd hi (Nat.not_lt_zero i)

theorem copy_inv (h : Inv s) {slot k : ℕ} {data : List UInt8} (hpc : s.pc = .copy slot data k) :
    Inv s.cpu := by
  have hstage := h.stage
  have haccepted := h.accepted
  rw [hpc] at hstage haccepted
  simp only [cpu, hpc]
  split
  · rename_i hk
    refine h.of_kept ⟨rfl, fun _ _ => rfl, ?_, ?_, rfl, rfl, rfl, rfl⟩ (hstage.byte hk) haccepted
    · intro j hj
      refine Function.update_of_ne ?_ _ _
      rintro rfl
      rw [hstage.free] at hj
      exact Bool.false_ne_true hj
    · rw [fill, fill, hpc]
  · rename_i hk
    refine h.of_kept ⟨rfl, fun _ _ => rfl, fun _ _ => rfl, ?_, rfl, rfl, rfl, rfl⟩ ?_ haccepted
    · rw [fill, fill, hpc]
    · refine ⟨hstage.slot_eq, hstage.free, hstage.long, hstage.short, ?_⟩
      exact fun i hi hlt => hstage.bytes i (by omega) hlt

theorem addr_inv (h : Inv s) {slot : ℕ} {data : List UInt8} (hpc : s.pc = .addr slot data) :
    Inv s.cpu := by
  have hstage := h.stage
  have haccepted := h.accepted
  rw [hpc] at hstage haccepted
  have hfill : s.fill = s.txi := by rw [fill, hpc]
  simp only [cpu, hpc]
  refine h.of_kept (hstage.kept _ (by rfl) hfill rfl) ⟨hstage.setDesc _ (by rfl) _, ?_⟩ haccepted
  show ((s.setDesc slot _).txd slot).addr = some slot
  rw [setDesc_self]

theorem bcnt_inv (h : Inv s) {slot : ℕ} {data : List UInt8} (hpc : s.pc = .bcnt slot data) :
    Inv s.cpu := by
  have hstage := h.stage
  have haccepted := h.accepted
  rw [hpc] at hstage haccepted
  have hfill : s.fill = s.txi := by rw [fill, hpc]
  simp only [cpu, hpc]
  refine h.of_kept (hstage.1.kept _ (by rfl) hfill rfl) ⟨hstage.1.setDesc _ (by rfl) _, ?_, ?_⟩ haccepted
  · show ((s.setDesc slot _).txd slot).addr = some slot
    rw [setDesc_self, hstage.2]
  · show ((s.setDesc slot _).txd slot).bcnt = Pcnet.bcnt data.length
    rw [setDesc_self]

theorem mcnt_inv (h : Inv s) {slot : ℕ} {data : List UInt8} (hpc : s.pc = .mcnt slot data) :
    Inv s.cpu := by
  have hstage := h.stage
  have haccepted := h.accepted
  rw [hpc] at hstage haccepted
  have hfill : s.fill = s.txi := by rw [fill, hpc]
  simp only [cpu, hpc]
  refine h.of_kept (hstage.1.kept _ (by rfl) hfill rfl) ⟨hstage.1.setDesc _ (by rfl) _, ?_, ?_⟩ haccepted
  · show ((s.setDesc slot _).txd slot).addr = some slot
    rw [setDesc_self, hstage.2.1]
  · show ((s.setDesc slot _).txd slot).bcnt = Pcnet.bcnt data.length
    rw [setDesc_self, hstage.2.2]

theorem advance_inv (h : Inv s) {slot : ℕ} {data : List UInt8} (hpc : s.pc = .advance slot data) :
    Inv s.cpu := by
  have hstage := h.stage
  have haccepted := h.accepted
  rw [hpc] at hstage haccepted
  have hfill : s.fill = (slot + 1) % N := by rw [fill, hpc]
  simp only [cpu, hpc]
  refine h.of_kept ⟨rfl, fun _ _ => rfl, fun _ _ => rfl, hfill.symm, rfl, rfl, rfl, rfl⟩ trivial ?_
  rw [← haccepted]
  simp [ret, Pc.returning]

theorem cpu_inv (h : Inv s) : Inv s.cpu := by
  cases hpc : s.pc with
  | idle =>
    rw [cpu, hpc]
    exact h
  | check data => exact check_inv h hpc
  | copy slot data k => exact copy_inv h hpc
  | addr slot data => exact addr_inv h hpc
  | bcnt slot data => exact bcnt_inv h hpc
  | mcnt slot data => exact mcnt_inv h hpc
  | status slot data =>
    rw [cpu, hpc]
    exact post_inv h hpc
  | advance slot data => exact advance_inv h hpc

theorem device_inv (h : Inv s) (st : UInt16) : Inv (device st s) := by
  have hstage : ∀ engine, Stage { s with engine := engine } s.pc :=
    fun engine => h.stage.of_status rfl rfl (fun _ => ⟨rfl, rfl⟩) fun _ hj => hj
  unfold device
  cases hengine : s.engine with
  | waiting =>
    simp only
    split
    · rename_i howned
      refine ⟨h.ring, h.addressed, h.sent_prefix, hstage _, ?_, h.accepted⟩
      intro bytes hbytes
      obtain rfl := Engine.reading.inj hbytes
      exact ⟨howned, List.nil_prefix⟩
    · exact h
  | reading bytes =>
    obtain ⟨howned, hread⟩ := h.reading bytes hengine
    simp only
    split
    · rename_i hlt
      refine ⟨h.ring, h.addressed, h.sent_prefix, hstage _, ?_, h.accepted⟩
      intro bytes' hbytes
      obtain rfl := Engine.reading.inj hbytes
      exact ⟨howned, read_prefix h howned hread hlt⟩
    · rename_i hge
      exact complete_inv h howned hread hge

theorem step_inv (h : Inv s) (e : Event) : Inv (step s e) := by
  cases e with
  | tx data => exact tx_inv h data
  | cpu => exact cpu_inv h
  | device st => exact device_inv h st

theorem run_inv (es : List Event) : ∀ {s : Transmit}, Inv s → Inv (run es s) := by
  induction es with
  | nil => exact fun h => h
  | cons e es ih => exact fun h => ih (step_inv h e)

/-! ## What follows for the wire -/

/-- The steps that the device needs for what is posted. -/
def work (s : Transmit) : ℕ :=
  ((s.posted.drop s.sent.length).map fun f => f.length + 2).sum -
    match s.engine with
    | .waiting => 0
    | .reading bytes => bytes.length + 1

theorem device_posted (st : UInt16) : (device st s).posted = s.posted := by
  unfold device
  split
  · split <;> rfl
  · simp only
    split <;> rfl

theorem device_sent_le (st : UInt16) : s.sent.length ≤ (device st s).sent.length := by
  unfold device
  split
  · split <;> exact Nat.le_refl _
  · simp only
    split
    · exact Nat.le_refl _
    · exact (List.length_append.symm ▸ Nat.le_add_right _ _ : _ ≤ (s.sent ++ [_]).length)

/-- While a frame is posted, each step of the device is one that is needed. -/
theorem device_work (h : Inv s) (st : UInt16) (hlt : s.sent.length < s.posted.length) :
    (device st s).work + 1 = s.work := by
  have hready : s.owned s.next = true := (h.ring.full_iff (by decide)).mpr hlt
  have hcount : byteCount (s.txd s.next).bcnt = s.posted[s.sent.length].length := by
    rw [← h.ring.oldest hlt, frame, List.length_map, List.length_range]
  have hsum : ((s.posted.drop s.sent.length).map fun f => f.length + 2).sum =
      s.posted[s.sent.length].length + 2 +
        ((s.posted.drop (s.sent.length + 1)).map fun f => f.length + 2).sum := by
    rw [List.drop_eq_getElem_cons hlt, List.map_cons, List.sum_cons]
  unfold device
  cases hengine : s.engine with
  | waiting =>
    have howned : (s.txd s.next).owned = true := hready
    simp only [howned, if_true, work, hengine, hsum, List.length_nil]
    omega
  | reading bytes =>
    obtain ⟨-, hread⟩ := h.reading bytes hengine
    have hle := hread.length_le
    rw [frame, List.length_map, List.length_range, hcount] at hle
    simp only [hcount]
    split
    · simp only [work, hengine, hsum, List.length_append, List.length_singleton]
      omega
    · rename_i hge
      have hposted : (s.setStatus s.next (st &&& 0x7fff)).posted = s.posted := rfl
      simp only [work, hengine, hsum, List.length_append, List.length_singleton, hposted]
      omega

/-- Left alone for as long as it needs, the device sends everything that is posted. -/
theorem device_drains (sts : List UInt16) : ∀ {s : Transmit}, Inv s → s.work ≤ sts.length →
    (run (sts.map .device) s).sent = s.posted := by
  have hdone : ∀ {s : Transmit}, Inv s → ¬ s.sent.length < s.posted.length → s.sent = s.posted :=
    fun h hge => h.sent_prefix.eq_of_length_le (Nat.le_of_not_lt hge)
  induction sts with
  | nil =>
    intro s h hwork
    apply hdone h
    intro hlt
    have hstep := device_work h 0 hlt
    rw [List.length_nil] at hwork
    omega
  | cons st sts ih =>
    intro s h hwork
    rw [← device_posted st]
    refine ih (device_inv h st) ?_
    show (device st s).work ≤ sts.length
    rw [List.length_cons] at hwork
    by_cases hlt : s.sent.length < s.posted.length
    · have hstep := device_work h st hlt
      omega
    · have hall : (device st s).posted.drop (device st s).sent.length = [] := by
        apply List.drop_eq_nil_of_le
        rw [device_posted]
        exact (Nat.le_of_not_lt hlt).trans (device_sent_le st)
      rw [work, hall, List.map_nil, List.sum_nil, Nat.zero_sub]
      exact Nat.zero_le _

/-- A call finds no free descriptor exactly when eight frames wait for the device. -/
theorem check_iff (h : Inv s) {data : List UInt8} (hpc : s.pc = .check data) :
    s.cpu.returned = s.returned ++ [(data, false)] ↔ s.posted.length = s.sent.length + N := by
  have hfits := h.ring.fits
  have hfill : s.fill = s.txi := by rw [fill, hpc]
  have hfree : (s.txd s.txi).owned = false ↔ s.posted.length < s.sent.length + N := by
    rw [← hfill]
    exact h.ring.not_full_iff (by decide)
  unfold cpu
  simp only [hpc]
  split
  · rename_i howned
    have hroom := hfree.not.mp (by rw [howned]; exact Bool.noConfusion)
    exact iff_of_true rfl (by omega)
  · rename_i howned
    have hroom := hfree.mp (Bool.eq_false_iff.mpr howned)
    exact iff_of_false (fun heq => List.cons_ne_nil _ _ (List.self_eq_append_right.mp heq)) (by omega)

/-! ## What follows for a call -/

theorem step_up (e : Event) : (step s e).up = s.up := by
  cases e with
  | tx data =>
    show (tx data s).up = s.up
    unfold tx
    split
    · split <;> rfl
    · rfl
  | cpu =>
    show s.cpu.up = s.up
    unfold cpu
    split
    · rfl
    · split <;> rfl
    · split <;> rfl
    all_goals rfl
  | device st =>
    show (device st s).up = s.up
    unfold device
    split
    · split <;> rfl
    · simp only
      split <;> rfl

theorem run_up (es : List Event) : ∀ s : Transmit, (run es s).up = s.up := by
  induction es with
  | nil => exact fun _ => rfl
  | cons e es ih => exact fun s => (ih (step s e)).trans (step_up e)

/-- How far a call with `data` that began in the state `s` has come, by what it does next. -/
def Progress (s : Transmit) (data : List UInt8) (t : Transmit) : Pc → Prop
  | .idle => t.posted = s.posted ++ [data] ∧ t.returned = s.returned ++ [(data, true)]
  | .check d => d = data ∧ t.posted = s.posted ∧ t.returned = s.returned ∧
      t.posted.length < t.sent.length + N
  | .copy _ d _ | .addr _ d | .bcnt _ d | .mcnt _ d | .status _ d =>
    d = data ∧ t.posted = s.posted ∧ t.returned = s.returned
  | .advance _ d => d = data ∧ t.posted = s.posted ++ [data] ∧ t.returned = s.returned

/-- Each step of the call is one that is needed. -/
theorem cpu_progress {t : Transmit} {data : List UInt8} (h : Inv t) (hp : Progress s data t t.pc)
    (hbusy : t.pc ≠ .idle) : Progress s data t.cpu t.cpu.pc ∧ t.cpu.pc.left + 1 = t.pc.left := by
  unfold cpu
  cases hpc : t.pc with
  | idle => exact absurd hpc hbusy
  | check d =>
    rw [hpc] at hp
    obtain ⟨rfl, hposted, hreturned, hroom⟩ := hp
    have hfill : t.fill = t.txi := by rw [fill, hpc]
    have hfree : (t.txd t.txi).owned = false := by
      rw [← hfill]
      exact (h.ring.not_full_iff (by decide)).mpr hroom
    simp only [hfree, Bool.false_eq_true, if_false]
    exact ⟨⟨rfl, hposted, hreturned⟩, rfl⟩
  | copy slot d k =>
    rw [hpc] at hp
    simp only
    split
    · refine ⟨hp, ?_⟩
      simp only [Pc.left]
      omega
    · refine ⟨hp, ?_⟩
      simp only [Pc.left]
      omega
  | addr slot d | bcnt slot d | mcnt slot d =>
    rw [hpc] at hp
    exact ⟨hp, rfl⟩
  | status slot d =>
    rw [hpc] at hp
    obtain ⟨rfl, hposted, hreturned⟩ := hp
    exact ⟨⟨rfl, congrArg (· ++ [d]) hposted, hreturned⟩, rfl⟩
  | advance slot d =>
    rw [hpc] at hp
    obtain ⟨rfl, hposted, hreturned⟩ := hp
    exact ⟨⟨hposted, congrArg (· ++ [(d, true)]) hreturned⟩, rfl⟩

/-- The device does not hinder a call, and what it sends makes room. -/
theorem device_progress {t : Transmit} {data : List UInt8} (st : UInt16)
    (hp : Progress s data t t.pc) :
    Progress s data (device st t) (device st t).pc ∧ (device st t).pc = t.pc := by
  have hpc : (device st t).pc = t.pc := by
    unfold device
    split
    · split <;> rfl
    · simp only
      split <;> rfl
  have hreturned : (device st t).returned = t.returned := by
    unfold device
    split
    · split <;> rfl
    · simp only
      split <;> rfl
  have hsent := device_sent_le (s := t) st
  refine ⟨?_, hpc⟩
  rw [hpc]
  cases hcall : t.pc with
  | check d =>
    rw [hcall] at hp
    obtain ⟨hd, hposted, hold, hroom⟩ := hp
    rw [Progress, device_posted, hreturned]
    exact ⟨hd, hposted, hold, by omega⟩
  | idle | copy slot d k | addr slot d | bcnt slot d | mcnt slot d | status slot d | advance slot d =>
    rw [hcall] at hp
    rw [Progress, device_posted, hreturned]
    exact hp

/-- A call returns 1 after its own steps, whatever the device does between them. -/
theorem run_progress {data : List UInt8} (es : List Event) : ∀ {t : Transmit}, Inv t →
    Progress s data t t.pc → (∀ d, .tx d ∉ es) → es.count .cpu = t.pc.left →
      (run es t).pc = .idle ∧ (run es t).returned = s.returned ++ [(data, true)] ∧
        (run es t).posted = s.posted ++ [data] := by
  induction es with
  | nil =>
    intro t _ hp _ hcount
    have hidle : t.pc = .idle := by
      cases hpc : t.pc with
      | idle => rfl
      | check | copy | addr | bcnt | mcnt | status | advance =>
        rw [hpc, List.count_nil, Pc.left] at hcount
        omega
    rw [hidle] at hp
    exact ⟨hidle, hp.2, hp.1⟩
  | cons e es ih =>
    intro t h hp htx hcount
    have hrest : ∀ d, .tx d ∉ es := fun d hd => htx d (List.mem_cons_of_mem _ hd)
    cases e with
    | tx d => exact absurd List.mem_cons_self (htx d)
    | cpu =>
      rw [List.count_cons_self] at hcount
      have hbusy : t.pc ≠ .idle := by
        intro hidle
        rw [hidle, Pc.left] at hcount
        omega
      obtain ⟨hp', hleft⟩ := cpu_progress h hp hbusy
      exact ih (cpu_inv h) hp' hrest (by show es.count .cpu = t.cpu.pc.left; omega)
    | device st =>
      obtain ⟨hp', hpc⟩ := device_progress st hp
      rw [List.count_cons_of_ne (by simp), ← hpc] at hcount
      exact ih (device_inv h st) hp' hrest hcount

/-- The ring of descriptors is a queue, in every order of the steps of the driver and of the device: the
frames on the wire are, whole and in order, the first ones of those that `tx` has accepted, at most
eight behind; `tx` refuses a frame for want of a descriptor exactly when it is eight behind, and otherwise
posts it and returns 1, whatever the device does meanwhile; and the device, left alone, sends the
rest. -/
theorem pcnet_transmit_queue (up : Bool) (es : List Event) :
    let s := run es (boot up)
    s.sent <+: s.posted ∧ s.posted.length ≤ s.sent.length + N ∧
      (s.returned.filter Prod.snd).map Prod.fst ++ s.pc.returning = s.posted ∧
      (∀ data, s.pc = .check data →
        (s.cpu.returned = s.returned ++ [(data, false)] ↔ s.posted.length = s.sent.length + N)) ∧
      (∀ data, up = true → s.pc = .idle → 14 ≤ data.length → data.length ≤ 1514 →
        s.posted.length < s.sent.length + N → ∀ call : List Event, (∀ d, .tx d ∉ call) →
          call.count .cpu = data.length + 7 →
            (run (.tx data :: call) s).pc = .idle ∧
            (run (.tx data :: call) s).returned = s.returned ++ [(data, true)] ∧
            (run (.tx data :: call) s).posted = s.posted ++ [data]) ∧
      ∃ n, ∀ sts : List UInt16, n ≤ sts.length → (run (sts.map .device) s).sent = s.posted := by
  have h := run_inv es (boot_inv up)
  refine ⟨h.sent_prefix, h.ring.fits, h.accepted, fun data hpc => check_iff h hpc, ?_, _,
    fun sts hsts => device_drains sts h hsts⟩
  intro data hup hidle hlong hshort hroom call htx hcount
  have hlive : (run es (boot up)).up = true := by rw [run_up, ← hup]; rfl
  have hcall : tx data (run es (boot up)) = { run es (boot up) with pc := .check data } := by
    rw [tx, if_pos hidle, if_neg (by rw [hlive]; simp; omega)]
  rw [run, List.foldl_cons, step, hcall]
  refine run_progress call ?_ ⟨rfl, rfl, rfl, hroom⟩ htx hcount
  rw [← hcall]
  exact tx_inv h data

end Transmit

end Orion.Netdev.Pcnet
