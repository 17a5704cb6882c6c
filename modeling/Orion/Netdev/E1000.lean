import Mathlib.Data.List.Infix
import Orion.Lib.Handoff

/-!
# Transmission through the e1000 (`kernel/netdev_e1000.c`)

`tx` waits until the next of 32 descriptors is done, copies the frame byte by byte, fills the descriptor
in, and hands it over by its last store, which is to the register TDT.  The device works while TDH and
TDT differ: it reads the buffer byte by byte, marks the descriptor as done and goes on to the next one.

`tx` may hand all 32 descriptors over.  Then TDT has come round to TDH, and to a device that has not
begun with the oldest frame the ring looks empty.

* `Transmit.e1000_transmit_queue` — in every run the frames on the wire are the posted ones, whole and in
  order, at most 32 behind;
* `Transmit.device_drains` — left alone, the device sends everything, unless it waits with 32 frames posted;
* `Transmit.wedged_iff`, `Transmit.wedged_reached` — in exactly those states nothing is ever sent again,
  and 32 calls of `tx` that are faster than the device lead there.
-/

namespace Orion.Netdev.E1000

open Orion.Lib

def N : ℕ := 32

def waitPolls : ℕ := 100000

/-! ## The model -/

/-- A descriptor.  Its address is given by the number of the buffer; `none` is the null of `init`. -/
structure TxD where
  addr : Option ℕ
  len : UInt16
  cmd : UInt8
  status : UInt8
  deriving Repr, DecidableEq

/-- Bit 0 of the status. -/
def TxD.done (d : TxD) : Bool := d.status &&& 1 != 0

theorem done_or_one (d : TxD) : TxD.done { d with status := d.status ||| 1 } = true := by
  have hor : (d.status.toNat ||| 1) % 2 = 1 := by
    rw [show (2 : ℕ) = 2 ^ 1 from rfl, Nat.or_mod_two_pow]
    rcases Nat.mod_two_eq_zero_or_one d.status.toNat with hbit | hbit <;> rw [pow_one, hbit]
    all_goals rfl
  unfold TxD.done
  rw [bne_iff_ne]
  intro hzero
  have hnat := congrArg UInt8.toNat hzero
  rw [UInt8.toNat_and, UInt8.toNat_or] at hnat
  have hone : (d.status.toNat ||| 1) &&& 1 = 0 := hnat
  rw [Nat.and_one_is_mod] at hone
  omega

/-- Bit 3 of the command: the device reports when it is done. -/
def TxD.reports (d : TxD) : Bool := d.cmd &&& 8 != 0

/-- Where the call of `tx` is: what it does next. -/
inductive Pc where
  | idle
  | check (data : List UInt8)
  | wait (slot : ℕ) (data : List UInt8) (k : ℕ)
  | recheck (slot : ℕ) (data : List UInt8)
  | copy (slot : ℕ) (data : List UInt8) (k : ℕ)
  | addr (slot : ℕ) (data : List UInt8)
  | len (slot : ℕ) (data : List UInt8)
  | cmd (slot : ℕ) (data : List UInt8)
  | status (slot : ℕ) (data : List UInt8)
  | index (slot : ℕ) (data : List UInt8)
  | tail (slot : ℕ) (data : List UInt8)
  deriving Repr, DecidableEq

/-- What the device does: it waits, or it has read some bytes of a frame. -/
inductive Engine where
  | waiting
  | reading (bytes : List UInt8)
  deriving Repr, DecidableEq

/-- The driver's side and the device.  `posted` records the frames that TDT has passed, `sent` those that
were transmitted, `returned` the calls of `tx` and what they returned. -/
structure Transmit where
  up : Bool
  txd : ℕ → TxD
  txb : ℕ → ℕ → UInt8
  txi : ℕ
  pc : Pc
  tdh : ℕ
  tdt : ℕ
  engine : Engine
  posted : List (List UInt8)
  sent : List (List UInt8)
  returned : List (List UInt8 × Bool)

namespace Transmit

/-- After `init`, which marks all descriptors as done. -/
def boot : Transmit :=
  ⟨true, fun _ => ⟨none, 0, 0, 1⟩, fun _ _ => 0, 0, .idle, 0, 0, .waiting, [], [], []⟩

/-- A call of `tx` returns. -/
def ret (s : Transmit) (data : List UInt8) (r : Bool) : Transmit :=
  { s with pc := .idle, returned := s.returned ++ [(data, r)] }

/-- `tx` is called; there is one thread. -/
def tx (data : List UInt8) (s : Transmit) : Transmit :=
  if s.pc = .idle then
    if s.up = false ∨ data.length < 14 ∨ 1514 < data.length then s.ret data false
    else { s with pc := .check data }
  else s

/-- A store to a descriptor. -/
def setDesc (s : Transmit) (slot : ℕ) (d : TxD) : Transmit :=
  { s with txd := Function.update s.txd slot d }

def setStatus (s : Transmit) (slot : ℕ) (st : UInt8) : Transmit :=
  s.setDesc slot { s.txd slot with status := st }

/-- The next step of the call. -/
def cpu (s : Transmit) : Transmit :=
  match s.pc with
  | .idle => s
  | .check data =>
    if (s.txd s.txi).done then { s with pc := .copy s.txi data 0 }
    else { s with pc := .wait s.txi data 0 }
  | .wait slot data k =>
    if k < waitPolls ∧ (s.txd slot).done = false then { s with pc := .wait slot data (k + 1) }
    else { s with pc := .recheck slot data }
  | .recheck slot data =>
    if (s.txd slot).done then { s with pc := .copy slot data 0 } else s.ret data false
  | .copy slot data k =>
    if h : k < data.length then
      { s with
        txb := Function.update s.txb slot (Function.update (s.txb slot) k data[k])
        pc := .copy slot data (k + 1) }
    else { s with pc := .addr slot data }
  | .addr slot data => { s.setDesc slot { s.txd slot with addr := some slot } with pc := .len slot data }
  | .len slot data =>
    { s.setDesc slot { s.txd slot with len := UInt16.ofNat data.length } with pc := .cmd slot data }
  | .cmd slot data => { s.setDesc slot { s.txd slot with cmd := 0x0b } with pc := .status slot data }
  | .status slot data => { s.setStatus slot 0 with pc := .index slot data }
  | .index slot data => { s with txi := (slot + 1) % N, pc := .tail slot data }
  | .tail _ data => { s with tdt := s.txi, posted := s.posted ++ [data] }.ret data true

/-- The byte that the device reads through the descriptor `d`. -/
def byteAt (s : Transmit) (d : TxD) (k : ℕ) : UInt8 :=
  match d.addr with
  | none => 0
  | some b => s.txb b k

/-- The next step of the device. -/
def device (s : Transmit) : Transmit :=
  match s.engine with
  | .waiting => if s.tdh ≠ s.tdt then { s with engine := .reading [] } else s
  | .reading bytes =>
    let d := s.txd s.tdh
    if bytes.length < d.len.toNat then
      { s with engine := .reading (bytes ++ [s.byteAt d bytes.length]) }
    else
      { s.setStatus s.tdh (if d.reports then d.status ||| 1 else d.status) with
        tdh := (s.tdh + 1) % N
        engine := .waiting
        sent := s.sent ++ [bytes] }

inductive Event where
  | tx (data : List UInt8)
  | cpu
  | device
  deriving Repr, DecidableEq

def step (s : Transmit) : Event → Transmit
  | .tx data => tx data s
  | .cpu => cpu s
  | .device => device s

def run (es : List Event) (s : Transmit) : Transmit := es.foldl step s

/-! ## The ring of descriptors -/

/-- The slot that is marked as not done and is not posted yet. -/
def filling (s : Transmit) : Option ℕ :=
  match s.pc with
  | .index slot _ | .tail slot _ => some slot
  | _ => none

/-- The slots that are posted. -/
def busy (s : Transmit) (j : ℕ) : Bool := !(s.txd j).done && decide (s.filling ≠ some j)

/-- What the device would read in the buffer of the slot `j`. -/
def frame (s : Transmit) (j : ℕ) : List UInt8 := (List.range (s.txd j).len.toNat).map (s.txb j)

/-- The slot of the frame that is posted next. -/
def fill (s : Transmit) : ℕ :=
  match s.pc with
  | .tail slot _ => slot
  | _ => s.txi

/-- The first `k` bytes of the frame are in the buffer of the next slot, which is done. -/
structure Copied (s : Transmit) (slot : ℕ) (data : List UInt8) (k : ℕ) : Prop where
  slot_eq : slot = s.txi
  free : (s.txd slot).done = true
  short : data.length ≤ 1514
  bytes : ∀ i, i < k → ∀ h : i < data.length, s.txb slot i = data[i]

/-- The next slot is ready to be posted. -/
structure Filled (s : Transmit) (slot : ℕ) (data : List UInt8) : Prop where
  status : (s.txd slot).done = false
  addr : (s.txd slot).addr = some slot
  reports : (s.txd slot).reports = true
  frame : s.frame slot = data

/-- What a call has done, by what it does next. -/
def Stage (s : Transmit) : Pc → Prop
  | .idle => True
  | .check data => data.length ≤ 1514
  | .wait slot data _ | .recheck slot data => slot = s.txi ∧ data.length ≤ 1514
  | .copy slot data k => s.Copied slot data k
  | .addr slot data => s.Copied slot data data.length
  | .len slot data => s.Copied slot data data.length ∧ (s.txd slot).addr = some slot
  | .cmd slot data =>
    s.Copied slot data data.length ∧ (s.txd slot).addr = some slot ∧ s.frame slot = data
  | .status slot data =>
    s.Copied slot data data.length ∧ (s.txd slot).addr = some slot ∧ s.frame slot = data ∧
      (s.txd slot).reports = true
  | .index slot data => slot = s.txi ∧ s.Filled slot data
  | .tail slot data => s.txi = (slot + 1) % N ∧ s.Filled slot data

/-- What holds in every run. -/
structure Inv (s : Transmit) : Prop where
  ring : Handoff N s.busy s.frame s.fill s.tdh s.posted s.sent.length
  tail : s.tdt = s.fill
  described : ∀ j, s.busy j = true → (s.txd j).addr = some j ∧ (s.txd j).reports = true
  sent_prefix : s.sent <+: s.posted
  stage : s.Stage s.pc
  reading : ∀ bytes, s.engine = .reading bytes →
    s.sent.length < s.posted.length ∧ bytes <+: s.frame s.tdh
  accepted : (s.returned.filter Prod.snd).map Prod.fst = s.posted

theorem boot_inv : Inv boot where
  ring := by
    refine Handoff.start fun j => ?_
    have hdone : TxD.done ⟨none, 0, 0, 1⟩ = true := by simp [TxD.done]
    show (!TxD.done ⟨none, 0, 0, 1⟩ && _) = false
    rw [hdone]
    rfl
  tail := rfl
  described := by
    intro j hj
    have hdone : TxD.done ⟨none, 0, 0, 1⟩ = true := by simp [TxD.done]
    have hbusy : (!TxD.done ⟨none, 0, 0, 1⟩ && decide (boot.filling ≠ some j)) = true := hj
    rw [hdone] at hbusy
    exact absurd hbusy Bool.false_ne_true
  sent_prefix := List.prefix_refl _
  stage := trivial
  reading := nofun
  accepted := rfl

theorem setDesc_self (s : Transmit) (slot : ℕ) (d : TxD) : (s.setDesc slot d).txd slot = d :=
  Function.update_self ..

theorem setDesc_of_ne (s : Transmit) {slot j : ℕ} (d : TxD) (hj : j ≠ slot) :
    (s.setDesc slot d).txd j = s.txd j :=
  Function.update_of_ne hj ..

variable {s t : Transmit}

theorem busy_iff {j : ℕ} : s.busy j = true ↔ (s.txd j).done = false ∧ s.filling ≠ some j := by
  rw [busy, Bool.and_eq_true, Bool.not_eq_true', decide_eq_true_iff]

theorem busy_of_done {j : ℕ} (hj : (s.txd j).done = true) : s.busy j = false := by
  rw [busy, hj]
  rfl

theorem busy_of_filling {j : ℕ} (hj : s.filling = some j) : s.busy j = false := by
  rw [busy, hj]
  exact Bool.and_eq_false_iff.mpr (.inr (decide_eq_false fun hne => hne rfl))

/-- Where the descriptors are as they were, it is the same slots that are posted. -/
theorem busy_congr (hfilling : t.filling = s.filling) {j : ℕ} (htxd : (t.txd j).done = (s.txd j).done) :
    t.busy j = s.busy j := by
  rw [busy, busy, hfilling, htxd]

/-- `t` differs from `s` at most in the call and in the slots that are not posted. -/
structure Kept (s t : Transmit) : Prop where
  busy : ∀ j, t.busy j = s.busy j
  txd : ∀ j, s.busy j = true → t.txd j = s.txd j
  txb : ∀ j, s.busy j = true → t.txb j = s.txb j
  fill : t.fill = s.fill
  tdh : t.tdh = s.tdh
  tdt : t.tdt = s.tdt
  engine : t.engine = s.engine
  posted : t.posted = s.posted
  sent : t.sent = s.sent

theorem Inv.next_busy (h : Inv s) (hlt : s.sent.length < s.posted.length) : s.busy s.tdh = true :=
  (h.ring.full_iff (by decide)).mpr hlt

/-- The device does not notice what the driver does in its own slots. -/
theorem Inv.of_kept (h : Inv s) (hk : Kept s t) (hstage : t.Stage t.pc)
    (haccepted : (t.returned.filter Prod.snd).map Prod.fst = s.posted) : Inv t := by
  have hframe : ∀ j, s.busy j = true → t.frame j = s.frame j := by
    intro j hj
    rw [frame, frame, hk.txd j hj, hk.txb j hj]
  refine ⟨?_, ?_, ?_, ?_, hstage, ?_, ?_⟩
  · rw [funext hk.busy, hk.fill, hk.tdh, hk.posted, hk.sent]
    exact h.ring.frame hframe
  · rw [hk.tdt, hk.fill, h.tail]
  · intro j hj
    rw [hk.busy] at hj
    rw [hk.txd j hj]
    exact h.described j hj
  · rw [hk.sent, hk.posted]
    exact h.sent_prefix
  · intro bytes hbytes
    rw [hk.engine] at hbytes
    obtain ⟨hlt, hbytes⟩ := h.reading bytes hbytes
    rw [hk.sent, hk.posted, hk.tdh, hframe _ (h.next_busy hlt)]
    exact ⟨hlt, hbytes⟩
  · rw [haccepted, hk.posted]

/-- A step that only goes on in the call. -/
theorem kept_of_pc {pc : Pc} (hfilling : filling { s with pc := pc } = s.filling)
    (hfill : fill { s with pc := pc } = s.fill) : Kept s { s with pc := pc } :=
  ⟨fun _ => busy_congr hfilling rfl, fun _ _ => rfl, fun _ _ => rfl, hfill, rfl, rfl, rfl, rfl, rfl⟩

/-- A store to the descriptor of a slot that is not posted and stays so. -/
theorem kept_of_desc {slot : ℕ} {d : TxD} {pc : Pc} (hslot : s.busy slot = false)
    (hslot' : busy { s.setDesc slot d with pc := pc } slot = false)
    (hfilling : ∀ j, j ≠ slot → (filling { s.setDesc slot d with pc := pc } = some j ↔ s.filling = some j))
    (hfill : fill { s.setDesc slot d with pc := pc } = s.fill) :
    Kept s { s.setDesc slot d with pc := pc } := by
  have hne : ∀ j, s.busy j = true → j ≠ slot := by
    rintro j hj rfl
    rw [hslot] at hj
    exact Bool.false_ne_true hj
  refine ⟨?_, fun j hj => s.setDesc_of_ne d (hne j hj), fun _ _ => rfl, hfill, rfl, rfl, rfl, rfl, rfl⟩
  intro j
  by_cases hj : j = slot
  · rw [hj, hslot, hslot']
  · rw [busy, busy]
    refine (congrArg (fun d => !d.done && _) (s.setDesc_of_ne d hj)).trans (congrArg _ ?_)
    exact decide_eq_decide.mpr (not_congr (hfilling j hj))

theorem ret_inv (h : Inv s) {data : List UInt8} (hfilling : s.filling = none) (hfill : s.fill = s.txi) :
    Inv (s.ret data false) := by
  have hkept : (s.ret data false).filling = s.filling := hfilling.symm
  refine h.of_kept ⟨fun _ => busy_congr hkept rfl, fun _ _ => rfl, fun _ _ => rfl, hfill.symm,
    rfl, rfl, rfl, rfl, rfl⟩ trivial ?_
  rw [← h.accepted]
  simp [ret]

theorem tx_inv (h : Inv s) (data : List UInt8) : Inv (tx data s) := by
  unfold tx
  split
  · rename_i hpc
    have hfilling : s.filling = none := by rw [filling, hpc]
    have hfill : s.fill = s.txi := by rw [fill, hpc]
    split
    · exact ret_inv h hfilling hfill
    · rename_i hvalid
      rw [not_or, not_or] at hvalid
      exact h.of_kept (kept_of_pc hfilling.symm hfill.symm) (Nat.le_of_not_lt hvalid.2.2) h.accepted
  · exact h

theorem Copied.byte {slot k : ℕ} {data : List UInt8} (hc : s.Copied slot data k) (hk : k < data.length) :
    Copied { s with
      txb := Function.update s.txb slot (Function.update (s.txb slot) k data[k])
      pc := .copy slot data (k + 1) } slot data (k + 1) := by
  refine ⟨hc.slot_eq, hc.free, hc.short, ?_⟩
  intro i hi hlt
  show Function.update s.txb slot (Function.update (s.txb slot) k data[k]) slot i = data[i]
  rw [Function.update_self]
  rcases Nat.lt_succ_iff_lt_or_eq.mp hi with hbefore | rfl
  · rw [Function.update_of_ne (Nat.ne_of_lt hbefore), hc.bytes i hbefore hlt]
  · rw [Function.update_self]

theorem Copied.setDesc {slot k : ℕ} {data : List UInt8} (hc : s.Copied slot data k) {d : TxD}
    (hd : d.status = (s.txd slot).status) (pc : Pc) :
    Copied { s.setDesc slot d with pc := pc } slot data k := by
  refine ⟨hc.slot_eq, ?_, hc.short, hc.bytes⟩
  show ((s.setDesc slot d).txd slot).done = true
  rw [setDesc_self, TxD.done, hd]
  exact hc.free

/-- The buffer and the descriptor hold the frame. -/
theorem Copied.frame_eq {slot : ℕ} {data : List UInt8} (hc : s.Copied slot data data.length)
    (hlen : (s.txd slot).len = UInt16.ofNat data.length) : s.frame slot = data := by
  have hshort := hc.short
  rw [frame, hlen, UInt16.toNat_ofNat', Nat.mod_eq_of_lt (by omega)]
  apply List.ext_getElem
  · rw [List.length_map, List.length_range]
  · intro i hi hi'
    rw [List.getElem_map, List.getElem_range]
    exact hc.bytes i hi' hi'

/-- The last store of a call, to TDT, posts the frame. -/
theorem tail_inv (h : Inv s) {slot : ℕ} {data : List UInt8} (hpc : s.pc = .tail slot data) :
    Inv ({ s with tdt := s.txi, posted := s.posted ++ [data] }.ret data true) := by
  have hstage := h.stage
  rw [hpc] at hstage
  obtain ⟨htxi, hfilled⟩ := hstage
  have hfilling : s.filling = some slot := by rw [filling, hpc]
  have hfill : s.fill = slot := by rw [fill, hpc]
  have hbusy : busy ({ s with tdt := s.txi, posted := s.posted ++ [data] }.ret data true)
      = Function.update s.busy slot true := by
    funext j
    by_cases hj : j = slot
    · rw [hj, Function.update_self]
      exact busy_iff.mpr ⟨hfilled.status, nofun⟩
    · rw [Function.update_of_ne hj, busy, busy, hfilling]
      refine congrArg _ (decide_eq_decide.mpr (iff_of_true nofun ?_))
      exact fun heq => hj (Option.some.inj heq).symm
  have hring := h.ring
  rw [hfill] at hring
  refine ⟨?_, rfl, ?_, h.sent_prefix.trans (List.prefix_append _ _), trivial, ?_, ?_⟩
  · have hgiven := hring.give (by decide) (busy_of_filling hfilling) hfilled.frame
    rw [← hbusy, ← htxi] at hgiven
    exact hgiven
  · intro j hj
    rw [hbusy] at hj
    by_cases hslot : j = slot
    · rw [hslot]
      exact ⟨hfilled.addr, hfilled.reports⟩
    · rw [Function.update_of_ne hslot] at hj
      exact h.described j hj
  · intro bytes hbytes
    obtain ⟨hlt, hread⟩ := h.reading bytes hbytes
    refine ⟨?_, hread⟩
    show s.sent.length < (s.posted ++ [data]).length
    rw [List.length_append]
    omega
  · show ((s.returned ++ [(data, true)]).filter Prod.snd).map Prod.fst = s.posted ++ [data]
    rw [List.filter_append, List.map_append, h.accepted]
    rfl

/-- The call finds its descriptor free, or begins to wait. -/
theorem check_inv (h : Inv s) {data : List UInt8} (hpc : s.pc = .check data) : Inv s.cpu := by
  have hstage := h.stage
  rw [hpc] at hstage
  have hfilling : s.filling = none := by rw [filling, hpc]
  have hfill : s.fill = s.txi := by rw [fill, hpc]
  simp only [cpu, hpc]
  split
  · rename_i hdone
    exact h.of_kept (kept_of_pc hfilling.symm hfill.symm)
      ⟨rfl, hdone, hstage, fun i hi => absurd hi (Nat.not_lt_zero i)⟩ h.accepted
  · exact h.of_kept (kept_of_pc hfilling.symm hfill.symm) ⟨rfl, hstage⟩ h.accepted

theorem wait_inv (h : Inv s) {slot k : ℕ} {data : List UInt8} (hpc : s.pc = .wait slot data k) :
    Inv s.cpu := by
  have hstage := h.stage
  rw [hpc] at hstage
  have hfilling : s.filling = none := by rw [filling, hpc]
  have hfill : s.fill = s.txi := by rw [fill, hpc]
  simp only [cpu, hpc]
  split
  · exact h.of_kept (kept_of_pc hfilling.symm hfill.symm) hstage h.accepted
  · exact h.of_kept (kept_of_pc hfilling.symm hfill.symm) hstage h.accepted

/-- The call goes on or gives up. -/
theorem recheck_inv (h : Inv s) {slot : ℕ} {data : List UInt8} (hpc : s.pc = .recheck slot data) :
    Inv s.cpu := by
  have hstage := h.stage
  rw [hpc] at hstage
  have hfilling : s.filling = none := by rw [filling, hpc]
  have hfill : s.fill = s.txi := by rw [fill, hpc]
  simp only [cpu, hpc]
  split
  · rename_i hdone
    exact h.of_kept (kept_of_pc hfilling.symm hfill.symm)
      ⟨hstage.1, hdone, hstage.2, fun i hi => absurd hi (Nat.not_lt_zero i)⟩ h.accepted
  · exact ret_inv h hfilling hfill

theorem copy_inv (h : Inv s) {slot k : ℕ} {data : List UInt8} (hpc : s.pc = .copy slot data k) :
    Inv s.cpu := by
  have hstage := h.stage
  rw [hpc] at hstage
  have hfilling : s.filling = none := by rw [filling, hpc]
  have hfill : s.fill = s.txi := by rw [fill, hpc]
  simp only [cpu, hpc]
  split
  · rename_i hk
    refine h.of_kept ⟨fun _ => ?_, fun _ _ => rfl, ?_, hfill.symm, rfl, rfl, rfl, rfl, rfl⟩
      (hstage.byte hk) h.accepted
    · rw [busy, busy, hfilling]
      rfl
    · intro j hj
      refine Function.update_of_ne ?_ _ _
      rintro rfl
      rw [busy_of_done hstage.free] at hj
      exact Bool.false_ne_true hj
  · rename_i hk
    refine h.of_kept (kept_of_pc hfilling.symm hfill.symm)
      ⟨hstage.slot_eq, hstage.free, hstage.short, ?_⟩ h.accepted
    exact fun i hi hlt => hstage.bytes i (by omega) hlt

theorem addr_inv (h : Inv s) {slot : ℕ} {data : List UInt8} (hpc : s.pc = .addr slot data) :
    Inv s.cpu := by
  have hstage := h.stage
  rw [hpc] at hstage
  have hfilling : s.filling = none := by rw [filling, hpc]
  have hfill : s.fill = s.txi := by rw [fill, hpc]
  simp only [cpu, hpc]
  have hcopied := hstage.setDesc (d := { s.txd slot with addr := some slot }) rfl (.len slot data)
  refine h.of_kept (kept_of_desc (busy_of_done hstage.free) (busy_of_done hcopied.free)
    (fun j _ => by rw [hfilling]; exact Iff.rfl) hfill.symm) ⟨hcopied, ?_⟩ h.accepted
  show ((s.setDesc slot _).txd slot).addr = some slot
  rw [setDesc_self]

theorem len_inv (h : Inv s) {slot : ℕ} {data : List UInt8} (hpc : s.pc = .len slot data) :
    Inv s.cpu := by
  have hstage := h.stage
  rw [hpc] at hstage
  have hfilling : s.filling = none := by rw [filling, hpc]
  have hfill : s.fill = s.txi := by rw [fill, hpc]
  simp only [cpu, hpc]
  have hcopied := hstage.1.setDesc (d := { s.txd slot with len := UInt16.ofNat data.length }) rfl
    (.cmd slot data)
  refine h.of_kept (kept_of_desc (busy_of_done hstage.1.free) (busy_of_done hcopied.free)
    (fun j _ => by rw [hfilling]; exact Iff.rfl) hfill.symm) ⟨hcopied, ?_, ?_⟩ h.accepted
  · show ((s.setDesc slot _).txd slot).addr = some slot
    rw [setDesc_self, hstage.2]
  · refine hcopied.frame_eq ?_
    show ((s.setDesc slot _).txd slot).len = UInt16.ofNat data.length
    rw [setDesc_self]

theorem cmd_inv (h : Inv s) {slot : ℕ} {data : List UInt8} (hpc : s.pc = .cmd slot data) :
    Inv s.cpu := by
  have hstage := h.stage
  rw [hpc] at hstage
  obtain ⟨hold, haddr, hframe⟩ := hstage
  have hfilling : s.filling = none := by rw [filling, hpc]
  have hfill : s.fill = s.txi := by rw [fill, hpc]
  simp only [cpu, hpc]
  have hcopied := hold.setDesc (d := { s.txd slot with cmd := 0x0b }) rfl (.status slot data)
  refine h.of_kept (kept_of_desc (busy_of_done hold.free) (busy_of_done hcopied.free)
    (fun j _ => by rw [hfilling]; exact Iff.rfl) hfill.symm) ⟨hcopied, ?_, ?_, ?_⟩ h.accepted
  · show ((s.setDesc slot _).txd slot).addr = some slot
    rw [setDesc_self, haddr]
  · rw [← hframe, frame, frame]
    show (List.range ((s.setDesc slot _).txd slot).len.toNat).map _ = _
    rw [setDesc_self]
    rfl
  · show ((s.setDesc slot _).txd slot).reports = true
    rw [setDesc_self]
    exact (by decide : (0x0b &&& 8 != (0 : UInt8)) = true)

/-- The descriptor is now busy, and the driver's own until TDT is written. -/
theorem status_inv (h : Inv s) {slot : ℕ} {data : List UInt8} (hpc : s.pc = .status slot data) :
    Inv s.cpu := by
  have hstage := h.stage
  rw [hpc] at hstage
  obtain ⟨hold, haddr, hframe, hreports⟩ := hstage
  have hfilling : s.filling = none := by rw [filling, hpc]
  have hfill : s.fill = s.txi := by rw [fill, hpc]
  simp only [cpu, hpc]
  have hself : (s.setStatus slot 0).txd slot = { s.txd slot with status := 0 } := s.setDesc_self slot _
  refine h.of_kept (kept_of_desc (busy_of_done hold.free) (busy_of_filling rfl) ?_ hfill.symm)
    ⟨hold.slot_eq, ?_, ?_, ?_, ?_⟩ h.accepted
  · intro j hj
    rw [hfilling]
    exact iff_of_false (fun heq => hj (Option.some.inj heq).symm) nofun
  · show ((s.setStatus slot 0).txd slot).done = false
    rw [hself]
    simp [TxD.done]
  · show ((s.setStatus slot 0).txd slot).addr = some slot
    rw [hself]
    exact haddr
  · show ((s.setStatus slot 0).txd slot).reports = true
    rw [hself]
    exact hreports
  · rw [← hframe, frame, frame]
    show (List.range ((s.setStatus slot 0).txd slot).len.toNat).map _ = _
    rw [hself]
    rfl

theorem index_inv (h : Inv s) {slot : ℕ} {data : List UInt8} (hpc : s.pc = .index slot data) :
    Inv s.cpu := by
  have hstage := h.stage
  rw [hpc] at hstage
  obtain ⟨hslot, hfilled⟩ := hstage
  have hfilling : s.filling = some slot := by rw [filling, hpc]
  have hfill : s.fill = slot := by rw [fill, hpc, hslot]
  simp only [cpu, hpc]
  refine h.of_kept ⟨fun j => ?_, fun _ _ => rfl, fun _ _ => rfl, hfill.symm, rfl, rfl, rfl, rfl, rfl⟩
    ⟨rfl, hfilled.status, hfilled.addr, hfilled.reports, hfilled.frame⟩ h.accepted
  rw [busy, busy, hfilling]
  rfl

theorem cpu_inv (h : Inv s) : Inv s.cpu := by
  cases hpc : s.pc with
  | idle =>
    rw [cpu, hpc]
    exact h
  | check data => exact check_inv h hpc
  | wait slot data k => exact wait_inv h hpc
  | recheck slot data => exact recheck_inv h hpc
  | copy slot data k => exact copy_inv h hpc
  | addr slot data => exact addr_inv h hpc
  | len slot data => exact len_inv h hpc
  | cmd slot data => exact cmd_inv h hpc
  | status slot data => exact status_inv h hpc
  | index slot data => exact index_inv h hpc
  | tail slot data =>
    rw [cpu, hpc]
    exact tail_inv h hpc

/-! ### The device -/

/-- What the device does to statuses does not undo what the call has done. -/
theorem Stage.of_status {pc : Pc} (hstage : s.Stage pc) (htxi : t.txi = s.txi) (htxb : t.txb = s.txb)
    (hkept : ∀ j, s.busy j = false → t.txd j = s.txd j)
    (hfilling : ∀ slot data, pc = .index slot data ∨ pc = .tail slot data → s.busy slot = false) :
    t.Stage pc := by
  have hcopied : ∀ {slot data k}, s.Copied slot data k → t.Copied slot data k := by
    intro slot data k hc
    refine ⟨hc.slot_eq.trans htxi.symm, ?_, hc.short, ?_⟩
    · rw [hkept slot (busy_of_done hc.free)]
      exact hc.free
    · rw [htxb]
      exact hc.bytes
  have hfilled : ∀ {slot data}, s.Filled slot data → s.busy slot = false → t.Filled slot data := by
    intro slot data hf hslot
    have htxd := hkept slot hslot
    refine ⟨?_, ?_, ?_, ?_⟩
    · rw [htxd, hf.status]
    · rw [htxd, hf.addr]
    · rw [htxd, hf.reports]
    · rw [frame, htxd, htxb]
      exact hf.frame
  cases pc with
  | idle => trivial
  | check data => exact hstage
  | wait slot data k | recheck slot data => exact ⟨hstage.1.trans htxi.symm, hstage.2⟩
  | copy slot data k | addr slot data => exact hcopied hstage
  | len slot data =>
    have htxd := hkept slot (busy_of_done hstage.1.free)
    refine ⟨hcopied hstage.1, ?_⟩
    rw [htxd]
    exact hstage.2
  | cmd slot data =>
    have htxd := hkept slot (busy_of_done hstage.1.free)
    refine ⟨hcopied hstage.1, ?_⟩
    rw [frame, htxd, htxb]
    exact hstage.2
  | status slot data =>
    have htxd := hkept slot (busy_of_done hstage.1.free)
    refine ⟨hcopied hstage.1, ?_⟩
    rw [frame, htxd, htxb]
    exact hstage.2
  | index slot data => exact ⟨hstage.1.trans htxi.symm, hfilled hstage.2 (hfilling _ _ (.inl rfl))⟩
  | tail slot data => exact ⟨htxi.trans hstage.1, hfilled hstage.2 (hfilling _ _ (.inr rfl))⟩

theorem filling_not_busy {slot : ℕ} {data : List UInt8}
    (hpc : s.pc = .index slot data ∨ s.pc = .tail slot data) : s.busy slot = false := by
  apply busy_of_filling
  rcases hpc with hpc | hpc <;> rw [filling, hpc]

/-- TDH and TDT differ exactly while something is posted that does not fill the ring. -/
theorem Inv.differ_iff (h : Inv s) :
    s.tdh ≠ s.tdt ↔ s.sent.length < s.posted.length ∧ s.posted.length ≠ s.sent.length + N := by
  have hle := h.ring.taken_le
  have hfits := h.ring.fits
  have htail := h.tail
  have hhead := h.ring.drain_eq
  rw [h.ring.fill_eq] at htail
  unfold N at *
  omega

/-- The device reads the next byte of the frame. -/
theorem read_prefix (h : Inv s) (hlt : s.sent.length < s.posted.length) {bytes : List UInt8}
    (hread : bytes <+: s.frame s.tdh) (hbytes : bytes.length < (s.txd s.tdh).len.toNat) :
    bytes ++ [s.byteAt (s.txd s.tdh) bytes.length] <+: s.frame s.tdh := by
  have hlen : bytes.length < (s.frame s.tdh).length := by
    rw [frame, List.length_map, List.length_range]
    exact hbytes
  have hbyte : s.byteAt (s.txd s.tdh) bytes.length = (s.frame s.tdh)[bytes.length] := by
    unfold byteAt
    rw [(h.described _ (h.next_busy hlt)).1]
    simp only [frame, List.getElem_map, List.getElem_range]
  rw [hbyte]
  exact List.concat_get_prefix hread hlen

/-- The device has read all bytes and marks the descriptor as done. -/
theorem complete_inv (h : Inv s) (hlt : s.sent.length < s.posted.length) {bytes : List UInt8}
    (hread : bytes <+: s.frame s.tdh) (hge : ¬ bytes.length < (s.txd s.tdh).len.toNat) :
    Inv { s.setStatus s.tdh
        (if (s.txd s.tdh).reports then (s.txd s.tdh).status ||| 1 else (s.txd s.tdh).status) with
      tdh := (s.tdh + 1) % N
      engine := .waiting
      sent := s.sent ++ [bytes] } := by
  have hready := h.next_busy hlt
  obtain ⟨-, hreports⟩ := h.described _ hready
  rw [hreports, if_pos rfl]
  have hself : (s.setStatus s.tdh ((s.txd s.tdh).status ||| 1)).txd s.tdh
      = { s.txd s.tdh with status := (s.txd s.tdh).status ||| 1 } := s.setDesc_self s.tdh _
  have hother : ∀ j, j ≠ s.tdh → (s.setStatus s.tdh ((s.txd s.tdh).status ||| 1)).txd j = s.txd j :=
    fun j hj => s.setDesc_of_ne _ hj
  have hframe : frame (s.setStatus s.tdh ((s.txd s.tdh).status ||| 1)) = s.frame := by
    funext j
    rw [frame, frame]
    by_cases hj : j = s.tdh
    · rw [hj, hself]
      rfl
    · rw [hother j hj]
      rfl
  have hbusy : busy (s.setStatus s.tdh ((s.txd s.tdh).status ||| 1)) = Function.update s.busy s.tdh false := by
    funext j
    by_cases hj : j = s.tdh
    · rw [hj, Function.update_self]
      apply busy_of_done
      rw [hself]
      exact done_or_one _
    · rw [Function.update_of_ne hj]
      rw [busy, busy, hother j hj]
      rfl
  -- the whole frame was read, and it is the oldest one that is posted
  have hwhole : bytes = s.posted[s.sent.length] := by
    rw [← h.ring.oldest hlt]
    refine hread.eq_of_length_le ?_
    rw [frame, List.length_map, List.length_range]
    exact Nat.le_of_not_lt hge
  refine ⟨?_, h.tail, ?_, ?_, ?_, nofun, h.accepted⟩
  · have htaken := h.ring.take (by decide) hready
    have hlen : (s.sent ++ [bytes]).length = s.sent.length + 1 := List.length_append
    rw [← hbusy, ← hframe, ← hlen] at htaken
    exact htaken
  · intro j hj
    have hupdate : Function.update s.busy s.tdh false j = true := by
      rw [← hbusy]
      exact hj
    have hne : j ≠ s.tdh := by
      rintro rfl
      rw [Function.update_self] at hupdate
      exact Bool.false_ne_true hupdate
    rw [Function.update_of_ne hne] at hupdate
    show ((s.setStatus s.tdh ((s.txd s.tdh).status ||| 1)).txd j).addr = some j ∧
      ((s.setStatus s.tdh ((s.txd s.tdh).status ||| 1)).txd j).reports = true
    rw [hother j hne]
    exact h.described j hupdate
  · show s.sent ++ [bytes] <+: s.posted
    rw [hwhole]
    exact List.concat_get_prefix h.sent_prefix hlt
  · refine h.stage.of_status rfl rfl (fun j hj => hother j ?_) fun _ _ => filling_not_busy
    rintro rfl
    rw [hready] at hj
    exact Bool.false_ne_true hj.symm

theorem device_inv (h : Inv s) : Inv s.device := by
  have hstage : ∀ engine, Stage { s with engine := engine } s.pc := fun engine =>
    h.stage.of_status rfl rfl (fun _ _ => rfl) fun _ _ => filling_not_busy
  unfold device
  cases hengine : s.engine with
  | waiting =>
    simp only
    split
    · rename_i hdiffer
      refine ⟨h.ring, h.tail, h.described, h.sent_prefix, hstage _, ?_, h.accepted⟩
      intro bytes hbytes
      obtain rfl := Engine.reading.inj hbytes
      exact ⟨(h.differ_iff.mp hdiffer).1, List.nil_prefix⟩
    · exact h
  | reading bytes =>
    obtain ⟨hlt, hread⟩ := h.reading bytes hengine
    simp only
    split
    · rename_i hbytes
      refine ⟨h.ring, h.tail, h.described, h.sent_prefix, hstage _, ?_, h.accepted⟩
      intro bytes' hbytes'
      obtain rfl := Engine.reading.inj hbytes'
      exact ⟨hlt, read_prefix h hlt hread hbytes⟩
    · rename_i hge
      exact complete_inv h hlt hread hge

theorem step_inv (h : Inv s) (e : Event) : Inv (step s e) := by
  cases e with
  | tx data => exact tx_inv h data
  | cpu => exact cpu_inv h
  | device => exact device_inv h

theorem run_inv (es : List Event) : ∀ {s : Transmit}, Inv s → Inv (run es s) := by
  induction es with
  | nil => exact fun h => h
  | cons e es ih => exact fun h => ih (step_inv h e)

/-! ## What the device sends -/

/-- The ring is full, and the device has not begun with the oldest frame. -/
def Wedged (s : Transmit) : Prop := s.posted.length = s.sent.length + N ∧ s.engine = .waiting

theorem device_posted (s : Transmit) : s.device.posted = s.posted := by
  unfold device
  split
  · split <;> rfl
  · simp only
    split <;> rfl

/-- The steps that the device needs for what is posted. -/
def work (s : Transmit) : ℕ :=
  ((s.posted.drop s.sent.length).map fun f => f.length + 2).sum -
    match s.engine with
    | .waiting => 0
    | .reading bytes => bytes.length + 1

/-- While a frame is posted and the device is not wedged, its step is one that is needed, and does not
wedge it. -/
theorem device_work (h : Inv s) (hlt : s.sent.length < s.posted.length) (hfree : ¬ s.Wedged) :
    s.device.work + 1 = s.work ∧ ¬ s.device.Wedged := by
  have hfits := h.ring.fits
  have hcount : (s.txd s.tdh).len.toNat = s.posted[s.sent.length].length := by
    rw [← h.ring.oldest hlt, frame, List.length_map, List.length_range]
  have hsum : ((s.posted.drop s.sent.length).map fun f => f.length + 2).sum =
      s.posted[s.sent.length].length + 2 +
        ((s.posted.drop (s.sent.length + 1)).map fun f => f.length + 2).sum := by
    rw [List.drop_eq_getElem_cons hlt, List.map_cons, List.sum_cons]
  cases hengine : s.engine with
  | waiting =>
    have hdiffer := h.differ_iff.mpr ⟨hlt, fun hfull => hfree ⟨hfull, hengine⟩⟩
    have hdevice : s.device = { s with engine := .reading [] } := by
      unfold device
      rw [hengine]
      exact if_pos hdiffer
    rw [hdevice]
    refine ⟨?_, fun hw => absurd hw.2 nofun⟩
    simp only [work, hengine, hsum, List.length_nil]
    omega
  | reading bytes =>
    obtain ⟨-, hread⟩ := h.reading bytes hengine
    have hle := hread.length_le
    rw [frame, List.length_map, List.length_range, hcount] at hle
    unfold device
    rw [hengine]
    simp only [hcount]
    split
    · refine ⟨?_, fun hw => absurd hw.2 nofun⟩
      simp only [work, hengine, hsum, List.length_append, List.length_singleton]
      omega
    · rename_i hge
      constructor
      · simp only [work, hengine, hsum, List.length_append, List.length_singleton, setStatus, setDesc]
        omega
      · intro hw
        have hfull : s.posted.length = (s.sent ++ [bytes]).length + N := hw.1
        rw [List.length_append, List.length_singleton] at hfull
        omega

/-- Unless it is wedged, the device sends everything that is posted when it is left alone. -/
theorem device_drains (k : ℕ) : ∀ {s : Transmit}, Inv s → ¬ s.Wedged → s.work = k →
    ∃ n, (device^[n] s).sent = s.posted := by
  have hdone : ∀ {s : Transmit}, Inv s → ¬ s.sent.length < s.posted.length → s.sent = s.posted :=
    fun h hge => h.sent_prefix.eq_of_length_le (Nat.le_of_not_lt hge)
  induction k with
  | zero =>
    intro s h hfree hwork
    refine ⟨0, hdone h fun hlt => ?_⟩
    have hstep := (device_work h hlt hfree).1
    omega
  | succ k ih =>
    intro s h hfree hwork
    by_cases hlt : s.sent.length < s.posted.length
    · obtain ⟨hstep, hstill⟩ := device_work h hlt hfree
      obtain ⟨n, hn⟩ := ih (device_inv h) hstill (by omega)
      refine ⟨n + 1, ?_⟩
      rw [Function.iterate_succ_apply, hn, device_posted]
    · exact ⟨0, hdone h hlt⟩

/-- The frame of a call is not posted by a step before its last. -/
theorem cpu_posted (hpc : ∀ slot data, s.pc ≠ .tail slot data) :
    s.cpu.posted = s.posted ∧ s.cpu.sent = s.sent ∧ s.cpu.engine = s.engine := by
  unfold cpu
  cases hs : s.pc with
  | idle => exact ⟨rfl, rfl, rfl⟩
  | check data | wait slot data k | recheck slot data | copy slot data k =>
    simp only
    split <;> exact ⟨rfl, rfl, rfl⟩
  | addr slot data | len slot data | cmd slot data | status slot data | index slot data =>
    exact ⟨rfl, rfl, rfl⟩
  | tail slot data => exact absurd hs (hpc slot data)

/-- A wedged device stays wedged, and `tx` posts nothing more. -/
theorem wedged_step (h : Inv s) (hw : s.Wedged) (e : Event) :
    (step s e).Wedged ∧ (step s e).posted = s.posted ∧ (step s e).sent = s.sent := by
  cases e with
  | tx data =>
    show (tx data s).Wedged ∧ (tx data s).posted = s.posted ∧ (tx data s).sent = s.sent
    unfold tx
    split
    · split <;> exact ⟨hw, rfl, rfl⟩
    · exact ⟨hw, rfl, rfl⟩
  | cpu =>
    have hpc : ∀ slot data, s.pc ≠ .tail slot data := by
      intro slot data hpc
      have hfill : s.busy s.fill = false := by
        apply busy_of_filling
        rw [filling, fill, hpc]
      have hroom := (h.ring.not_full_iff (by decide)).mp hfill
      rw [hw.1] at hroom
      exact Nat.lt_irrefl _ hroom
    obtain ⟨hposted, hsent, hengine⟩ := cpu_posted hpc
    refine ⟨⟨?_, hengine.trans hw.2⟩, hposted, hsent⟩
    show s.cpu.posted.length = s.cpu.sent.length + N
    rw [hposted, hsent, hw.1]
  | device =>
    have hequal : ¬ s.tdh ≠ s.tdt := fun hdiffer => (h.differ_iff.mp hdiffer).2 hw.1
    have hdevice : s.device = s := by
      unfold device
      rw [hw.2]
      exact if_neg hequal
    show s.device.Wedged ∧ s.device.posted = s.posted ∧ s.device.sent = s.sent
    rw [hdevice]
    exact ⟨hw, rfl, rfl⟩

theorem wedged_run (es : List Event) : ∀ {s : Transmit}, Inv s → s.Wedged →
    (run es s).Wedged ∧ (run es s).posted = s.posted ∧ (run es s).sent = s.sent := by
  induction es with
  | nil => exact fun _ hw => ⟨hw, rfl, rfl⟩
  | cons e es ih =>
    intro s h hw
    obtain ⟨hstill, hposted, hsent⟩ := wedged_step h hw e
    obtain ⟨hrun, hposted', hsent'⟩ := ih (step_inv h e) hstill
    exact ⟨hrun, hposted'.trans hposted, hsent'.trans hsent⟩

theorem run_device (k : ℕ) : ∀ s : Transmit, run (List.replicate k .device) s = device^[k] s := by
  induction k with
  | zero => exact fun _ => rfl
  | succ k ih => exact fun s => ih s.device

/-- The ring of descriptors is a queue, in every order of the steps of the driver and of the device: the
frames on the wire are, whole and in order, the first ones of those that `tx` has accepted, at most 32
behind; and `tx` gives up waiting for a descriptor only when it is 32 behind. -/
theorem e1000_transmit_queue (es : List Event) :
    let s := run es boot
    s.sent <+: s.posted ∧ s.posted.length ≤ s.sent.length + N ∧
      (s.returned.filter Prod.snd).map Prod.fst = s.posted ∧
      ∀ slot data, s.pc = .recheck slot data →
        (s.cpu.pc = .idle ↔ s.posted.length = s.sent.length + N) := by
  have h := run_inv es boot_inv
  refine ⟨h.sent_prefix, h.ring.fits, h.accepted, fun slot data hpc => ?_⟩
  have hstage := h.stage
  rw [hpc] at hstage
  have hfits := h.ring.fits
  have hfill : (run es boot).fill = slot := by rw [fill, hpc, hstage.1]
  have hbusy : (run es boot).busy slot = !((run es boot).txd slot).done := by
    rw [busy, filling, hpc]
    exact Bool.and_true _
  have hroom := h.ring.not_full_iff (by decide)
  rw [hfill, hbusy, Bool.not_eq_false'] at hroom
  unfold cpu
  simp only [hpc]
  split
  · rename_i hdone
    have hlt := hroom.mp hdone
    exact iff_of_false nofun (by omega)
  · rename_i hdone
    have hge := hroom.not.mp hdone
    exact iff_of_true rfl (by omega)

/-- In every state that is reached: the device, left alone, sends everything exactly if it is not wedged;
and it is wedged exactly if something is posted and nothing will ever be sent, whatever follows.  Then
no call of `tx` succeeds any more. -/
theorem wedged_iff (es : List Event) :
    let s := run es boot
    ((∃ n, (run (List.replicate n .device) s).sent = s.posted) ↔ ¬ s.Wedged) ∧
      (s.Wedged ↔ s.sent.length < s.posted.length ∧ ∀ es', (run es' s).sent = s.sent) ∧
      (s.Wedged → ∀ es', (run es' s).posted = s.posted) := by
  intro s
  have h : Inv s := run_inv es boot_inv
  have hpending : s.Wedged → s.sent.length < s.posted.length := by
    intro hw
    rw [hw.1]
    exact Nat.lt_add_of_pos_right (by decide)
  have hdrains : ¬ s.Wedged → ∃ n, (run (List.replicate n .device) s).sent = s.posted := by
    intro hfree
    obtain ⟨n, hn⟩ := device_drains s.work h hfree rfl
    exact ⟨n, (congrArg Transmit.sent (run_device n s)).trans hn⟩
  refine ⟨⟨?_, hdrains⟩, ⟨?_, ?_⟩, fun hw es' => (wedged_run es' h hw).2.1⟩
  · rintro ⟨n, hn⟩ hw
    have hlt := hpending hw
    rw [(wedged_run _ h hw).2.2] at hn
    rw [hn] at hlt
    exact Nat.lt_irrefl _ hlt
  · exact fun hw => ⟨hpending hw, fun es' => (wedged_run es' h hw).2.2⟩
  · rintro ⟨hlt, hnever⟩
    by_contra hfree
    obtain ⟨n, hn⟩ := hdrains hfree
    rw [hnever] at hn
    rw [hn] at hlt
    exact Nat.lt_irrefl _ hlt

/-! ## How the device gets wedged -/

/-- The call goes on to its end by itself, and posts its frame. -/
def Finishes (s : Transmit) (data : List UInt8) : Prop :=
  ∃ k, let t := run (List.replicate k .cpu) s
    t.pc = .idle ∧ t.up = s.up ∧ t.posted = s.posted ++ [data] ∧ t.sent = s.sent ∧ t.engine = s.engine

theorem Finishes.of_cpu {data : List UInt8} (hup : s.cpu.up = s.up)
    (hpc : ∀ slot data, s.pc ≠ .tail slot data) (hrest : Finishes s.cpu data) : Finishes s data := by
  obtain ⟨k, hidle, hup', hposted, hsent, hengine⟩ := hrest
  obtain ⟨hposted', hsent', hengine'⟩ := cpu_posted hpc
  rw [hup] at hup'
  rw [hposted'] at hposted
  rw [hsent'] at hsent
  rw [hengine'] at hengine
  exact ⟨k + 1, hidle, hup', hposted, hsent, hengine⟩

theorem finishes_addr {slot : ℕ} {data : List UInt8} (hpc : s.pc = .addr slot data) :
    Finishes s data := by
  refine ⟨6, ?_⟩
  show (s.cpu.cpu.cpu.cpu.cpu.cpu).pc = .idle ∧ _
  have hrun : run (List.replicate 6 .cpu) s = s.cpu.cpu.cpu.cpu.cpu.cpu := rfl
  rw [hrun]
  have hcpu : s.cpu = { s.setDesc slot { s.txd slot with addr := some slot } with pc := .len slot data } := by
    unfold cpu
    rw [hpc]
  rw [hcpu]
  exact ⟨rfl, rfl, rfl, rfl, rfl⟩

theorem finishes_copy {slot : ℕ} {data : List UInt8} (d : ℕ) : ∀ {s : Transmit} {k : ℕ},
    s.pc = .copy slot data k → k + d = data.length → Finishes s data := by
  induction d with
  | zero =>
    intro s k hpc hk
    have hcpu : s.cpu = { s with pc := .addr slot data } := by
      unfold cpu
      rw [hpc]
      exact dif_neg (by omega)
    refine .of_cpu (by rw [hcpu]) (by rw [hpc]; exact nofun) ?_
    rw [hcpu]
    exact finishes_addr rfl
  | succ d ih =>
    intro s k hpc hk
    have hcpu : s.cpu = { s with
        txb := Function.update s.txb slot (Function.update (s.txb slot) k data[k])
        pc := .copy slot data (k + 1) } := by
      unfold cpu
      rw [hpc]
      exact dif_pos (by omega)
    refine .of_cpu (by rw [hcpu]) (by rw [hpc]; exact nofun) ?_
    rw [hcpu]
    exact ih rfl (by omega)

theorem tx_accepts (hup : s.up = true) (hidle : s.pc = .idle) {data : List UInt8}
    (hlong : 14 ≤ data.length) (hshort : data.length ≤ 1514) : tx data s = { s with pc := .check data } := by
  unfold tx
  rw [if_pos hidle, if_neg]
  rintro (hdown | hlen | hlen)
  · rw [hup] at hdown
    exact Bool.noConfusion hdown
  · omega
  · omega

/-- While there is room, a call of `tx` posts its frame without a step of the device. -/
theorem tx_finishes (h : Inv s) (hup : s.up = true) (hidle : s.pc = .idle) {data : List UInt8}
    (hlong : 14 ≤ data.length) (hshort : data.length ≤ 1514)
    (hroom : s.posted.length < s.sent.length + N) :
    Finishes (tx data s) data := by
  have hfree := (h.ring.not_full_iff (by decide)).mpr hroom
  rw [fill, hidle, busy, filling, hidle] at hfree
  have hdone : (s.txd s.txi).done = true := by simpa using hfree
  rw [tx_accepts hup hidle hlong hshort]
  have hcpu : cpu { s with pc := .check data } = { s with pc := .copy s.txi data 0 } := if_pos hdone
  refine .of_cpu (by rw [hcpu]) nofun ?_
  rw [hcpu]
  exact finishes_copy data.length rfl (Nat.zero_add _)

/-- As long as there is room, calls of `tx` post their frames without a step of the device. -/
theorem posts_all (frames : List (List UInt8)) (hframes : ∀ f ∈ frames, 14 ≤ f.length ∧ f.length ≤ 1514) :
    ∀ {s : Transmit}, Inv s → s.up = true → s.pc = .idle →
      s.posted.length + frames.length ≤ s.sent.length + N →
      ∃ es, .device ∉ es ∧ (run es s).posted = s.posted ++ frames ∧ (run es s).sent = s.sent ∧
        (run es s).engine = s.engine := by
  induction frames with
  | nil =>
    intro s _ _ _ _
    exact ⟨[], nofun, (List.append_nil _).symm, rfl, rfl⟩
  | cons f frames ih =>
    intro s h hup hidle hroom
    rw [List.length_cons] at hroom
    obtain ⟨hlong, hshort⟩ := hframes f List.mem_cons_self
    obtain ⟨k, hpc, hup', hposted, hsent, hengine⟩ := tx_finishes h hup hidle hlong hshort (by omega)
    have hstart := tx_accepts hup hidle hlong hshort
    rw [hstart] at hup' hposted hsent hengine
    obtain ⟨es, hes, hposted', hsent', hengine'⟩ := ih (fun g hg => hframes g (List.mem_cons_of_mem _ hg))
      (s := run (List.replicate k .cpu) (tx f s))
      (run_inv (List.replicate k .cpu) (tx_inv h f)) (by rw [hstart, hup', hup]) hpc (by
        rw [hstart, hposted, hsent, List.length_append, List.length_singleton]
        show s.posted.length + 1 + frames.length ≤ s.sent.length + N
        omega)
    rw [hstart] at hposted' hsent' hengine'
    have hrun : run (.tx f :: (List.replicate k .cpu ++ es)) s =
        run es (run (List.replicate k .cpu) { s with pc := .check f }) := by
      rw [← hstart]
      exact List.foldl_append
    refine ⟨.tx f :: (List.replicate k .cpu ++ es), ?_, ?_, ?_, ?_⟩
    · rw [List.mem_cons, List.mem_append, List.mem_replicate]
      rintro (heq | heq | hmem)
      · exact Event.noConfusion heq
      · exact Event.noConfusion heq.2
      · exact hes hmem
    all_goals rw [hrun]
    · rw [hposted', hposted, List.append_assoc]
      rfl
    · exact hsent'.trans hsent
    · exact hengine'.trans hengine

/-- 32 calls of `tx`, if the device takes no step meanwhile, all succeed and wedge it. -/
theorem wedged_reached (frames : List (List UInt8)) (hcount : frames.length = N)
    (hframes : ∀ f ∈ frames, 14 ≤ f.length ∧ f.length ≤ 1514) :
    ∃ es, .device ∉ es ∧ (run es boot).posted = frames ∧ (run es boot).Wedged := by
  obtain ⟨es, hes, hposted, hsent, hengine⟩ := posts_all frames hframes boot_inv rfl rfl (by
    rw [hcount]
    exact Nat.le_refl _)
  refine ⟨es, hes, hposted, ?_, hengine⟩
  rw [hposted, hsent]
  exact hcount

theorem wedged_reached_zeros :
    ∃ es, .device ∉ es ∧ (run es boot).posted = List.replicate 32 (List.replicate 14 0) ∧
      (run es boot).Wedged :=
  wedged_reached (List.replicate 32 (List.replicate 14 0)) (List.length_replicate ..) fun f hf => by
    rw [(List.mem_replicate.mp hf).2, List.length_replicate]
    exact ⟨Nat.le_refl _, by decide⟩

end Transmit

end Orion.Netdev.E1000
