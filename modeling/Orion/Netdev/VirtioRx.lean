import Mathlib.Data.List.Induction
import Mathlib.Data.List.Nodup
import Mathlib.Data.List.Perm.Basic
import Orion.Lib.Sliding

/-!
# Reception through virtio-net (`kernel/netdev_virtio.c`)

All buffers circulate: the driver posts their numbers in one ring, the device fetches them, writes to the
buffers that it has fetched, and completes them in any order in another ring.  `poll` passes what is in a
completed buffer to its callback and posts the buffer again.  The counters of both rings are 16 bits wide
and run on.  Device and `poll` take their steps in any order.

* `virtio_receive_queue` — without inner calls what was completed is delivered once, whole and in
  order, and every buffer is in one place;
* `virtio_poll_empties` — one call of `poll` delivers what is there and gives all buffers back;
* `virtio_nested_overrun` — an inner call puts the counter of the outer one beyond that of the device.
-/

namespace Orion.Netdev.VirtioRx

open Orion.Lib

def qMax : ℕ := 256

def bufSize : ℕ := 2048

/-! ## The model -/

structure VUsed where
  id : UInt32
  len : UInt32
  deriving Repr, DecidableEq

/-- What the device has put in a buffer, with the length that it gives for it. -/
structure Completion where
  id : UInt16
  len : UInt32
  bytes : ℕ → UInt8

def Completion.entry (c : Completion) : VUsed := ⟨c.id.toUInt32, c.len⟩

/-- The length that `poll` accepts. -/
def fits (len : UInt32) : Bool := decide (24 ≤ len.toNat) && decide (len.toNat ≤ bufSize + 10)

/-- The frame behind the header. -/
def Completion.payload (c : Completion) : Option (List UInt8) :=
  if fits c.len then some ((List.range (c.len.toNat - 10)).map fun k => c.bytes (10 + k)) else none

/-- What an activation of `poll` does next; in `rx` its callback has read `read`. -/
inductive Pc where
  | check
  | entry
  | test (id : UInt16) (len : UInt32)
  | rx (id : UInt16) (len : UInt32) (read : List UInt8)
  | post (id : UInt16)
  | publish (id : UInt16)
  | next
  deriving Repr, DecidableEq

/-- The driver's side and the device.  `calls` are the activations of `poll`, innermost first.  The device
has fetched `pending` and not completed it; for `writing` it has not moved its counter yet.  `posted`,
`completed` and `delivered` record what went in the two rings and to the callbacks. -/
structure Rx where
  up : Bool
  availRing : ℕ → UInt16
  availIdx : UInt16
  usedRing : ℕ → VUsed
  usedIdx : UInt16
  rxb : UInt16 → ℕ → UInt8
  seen : UInt16
  calls : List Pc
  lastAvail : UInt16
  pending : List UInt16
  writing : Option Completion
  posted : List UInt16
  completed : List Completion
  delivered : List (List UInt8)

namespace Rx

-- the size of the queue
variable (n : ℕ)

/-- After `init`, which zeroes the rings and posts all buffers. -/
def boot : Rx where
  up := true
  availRing := UInt16.ofNat
  availIdx := .ofNat n
  usedRing := fun _ => ⟨0, 0⟩
  usedIdx := 0
  rxb := fun _ _ => 0
  seen := 0
  calls := []
  lastAvail := 0
  pending := []
  writing := none
  posted := (List.range n).map UInt16.ofNat
  completed := []
  delivered := []

/-- The next step of the innermost activation; `calls` are the others. -/
def tick (s : Rx) (pc : Pc) (calls : List Pc) : Rx :=
  match pc with
  | .check => if s.seen ≠ s.usedIdx then { s with calls := .entry :: calls } else { s with calls := calls }
  | .entry =>
    let e := s.usedRing (s.seen.toNat % n)
    { s with calls := .test e.id.toUInt16 e.len :: calls }
  | .test id len =>
    if id.toNat < n ∧ fits len then { s with calls := .rx id len [] :: calls }
    else { s with calls := .post id :: calls }
  | .rx id len read =>
    if read.length < len.toNat - 10 then
      { s with calls := .rx id len (read ++ [s.rxb id (10 + read.length)]) :: calls }
    else { s with calls := .post id :: calls, delivered := s.delivered ++ [read] }
  | .post id =>
    { s with
      calls := .publish id :: calls
      availRing := Function.update s.availRing (s.availIdx.toNat % n) id }
  | .publish id =>
    { s with calls := .next :: calls, availIdx := s.availIdx + 1, posted := s.posted ++ [id] }
  | .next => { s with calls := .check :: calls, seen := s.seen + 1 }

def cpu (s : Rx) : Rx :=
  match s.calls with
  | [] => s
  | pc :: calls => s.tick n pc calls

/-- The kernel calls `poll`. -/
def poll (s : Rx) : Rx := if s.up = true ∧ s.calls = [] then { s with calls := [.check] } else s

/-- The callback calls `poll`. -/
def nested (s : Rx) : Rx :=
  match s.calls with
  | .rx _ _ _ :: _ => { s with calls := .check :: s.calls }
  | _ => s

/-- The device fetches the next buffer. -/
def fetch (s : Rx) : Rx :=
  if s.lastAvail ≠ s.availIdx then
    { s with lastAvail := s.lastAvail + 1, pending := s.pending ++ [s.availRing (s.lastAvail.toNat % n)] }
  else s

/-- The device writes a byte to a buffer that it has fetched. -/
def dma (id : UInt16) (k : ℕ) (b : UInt8) (s : Rx) : Rx :=
  if id ∈ s.pending ∧ k < bufSize + 10 then
    { s with rxb := Function.update s.rxb id (Function.update (s.rxb id) k b) }
  else s

/-- The device writes the entry for one of its buffers. -/
def complete (i : ℕ) (len : UInt32) (s : Rx) : Rx :=
  match s.writing, s.pending[i]? with
  | none, some id =>
    { s with
      pending := s.pending.eraseIdx i
      usedRing := Function.update s.usedRing (s.usedIdx.toNat % n) ⟨id.toUInt32, len⟩
      writing := some ⟨id, len, s.rxb id⟩ }
  | _, _ => s

/-- The device moves its counter. -/
def publish (s : Rx) : Rx :=
  match s.writing with
  | none => s
  | some c => { s with usedIdx := s.usedIdx + 1, writing := none, completed := s.completed ++ [c] }

inductive Event where
  | poll
  | nested
  | cpu
  | fetch
  | dma (id : UInt16) (k : ℕ) (b : UInt8)
  | complete (i : ℕ) (len : UInt32)
  | publish
  deriving Repr, DecidableEq

def step (s : Rx) : Event → Rx
  | .poll => s.poll
  | .nested => s.nested
  | .cpu => s.cpu n
  | .fetch => s.fetch n
  | .dma id k b => s.dma id k b
  | .complete i len => s.complete n i len
  | .publish => s.publish

def run (es : List Event) (s : Rx) : Rx := es.foldl (step n) s

/-! ## Where the buffers are -/

/-- The entry that `poll` has taken and not counted yet. -/
def gone (s : Rx) : ℕ :=
  match s.calls with
  | [.next] => 1
  | _ => 0

/-- The entry that the callback is through with. -/
def done (s : Rx) : ℕ :=
  match s.calls with
  | [.post _] | [.publish _] | [.next] => 1
  | _ => 0

/-- The buffers: posted, fetched, about to be completed, and completed, after `fetched` and `taken` of them. -/
def places (s : Rx) (fetched taken : ℕ) : List UInt16 :=
  s.posted.drop fetched ++ s.pending ++ s.writing.toList.map Completion.id ++
    (s.completed.drop taken).map Completion.id

/-- What the only activation of `poll` knows, when it has counted `count` entries. -/
def Polling (s : Rx) (count : ℕ) : List Pc → Prop
  | [] => True
  | [pc] =>
    match pc with
    | .check => True
    | .entry => count < s.completed.length
    | .test id len => ∃ c, s.completed[count]? = some c ∧ id = c.id ∧ len = c.len
    | .rx id len read => ∃ c, s.completed[count]? = some c ∧ id = c.id ∧ len = c.len ∧ fits len = true ∧
        read.length ≤ len.toNat - 10 ∧ read = (List.range read.length).map fun k => c.bytes (10 + k)
    | .post id => ∃ c, s.completed[count]? = some c ∧ id = c.id
    | .publish id => (∃ c, s.completed[count]? = some c ∧ id = c.id) ∧
        s.availRing (s.posted.length % n) = id
    | .next => count < s.completed.length
  | _ => False

/-- What holds in every run without inner calls, when the device has fetched `fetched` buffers and `poll`
has counted `count` entries. -/
structure Inv (s : Rx) (fetched count : ℕ) : Prop where
  avail : Sliding n s.availRing s.posted fetched
  used : Sliding n s.usedRing (s.completed.map Completion.entry) (count + s.gone)
  availIdx : s.availIdx = .ofNat s.posted.length
  usedIdx : s.usedIdx = .ofNat s.completed.length
  lastAvail : s.lastAvail = .ofNat fetched
  seen : s.seen = .ofNat count
  places : (s.places fetched (count + s.gone)).Perm ((List.range n).map UInt16.ofNat)
  kept : ∀ i, count + s.done ≤ i → ∀ h : i < s.completed.length, s.rxb s.completed[i].id = s.completed[i].bytes
  writing : ∀ c, s.writing = some c →
    s.usedRing (s.completed.length % n) = c.entry ∧ s.rxb c.id = c.bytes
  delivered : s.delivered = (s.completed.take (count + s.done)).filterMap Completion.payload
  polling : s.Polling n count s.calls

/-- What the code and the device say about the size of the queue. -/
structure Size (n : ℕ) : Prop where
  pos : 0 < n
  le : n ≤ qMax
  dvd : n ∣ 65536

variable {n : ℕ} {s : Rx} {fetched count : ℕ}

theorem ids_nodup (hn : Size n) : ((List.range n).map UInt16.ofNat).Nodup := by
  refine List.Nodup.map_on (fun i hi j hj heq => ?_) List.nodup_range
  have hle : n ≤ 65536 := hn.le.trans (by decide)
  have hi' := (List.mem_range.mp hi).trans_le hle
  have hj' := (List.mem_range.mp hj).trans_le hle
  have hnat := congrArg UInt16.toNat heq
  rwa [UInt16.toNat_ofNat', UInt16.toNat_ofNat', Nat.mod_eq_of_lt hi', Nat.mod_eq_of_lt hj'] at hnat

theorem boot_avail (n : ℕ) : Sliding n UInt16.ofNat ((List.range n).map UInt16.ofNat) 0 where
  taken_le := Nat.zero_le _
  fits := by rw [List.length_map, List.length_range, Nat.zero_add]
  slot := by
    intro i _ hlt
    have hi : i < n := by rwa [List.length_map, List.length_range] at hlt
    rw [Nat.mod_eq_of_lt hi, List.getElem_map, List.getElem_range]

theorem boot_inv : Inv n (boot n) 0 0 where
  avail := boot_avail n
  used := Sliding.start
  availIdx := by
    show UInt16.ofNat n = UInt16.ofNat ((List.range n).map UInt16.ofNat).length
    rw [List.length_map, List.length_range]
  usedIdx := rfl
  lastAvail := rfl
  seen := rfl
  places := by
    show ((List.range n).map UInt16.ofNat ++ [] ++ [] ++ []).Perm _
    simp only [List.append_nil]
    exact List.Perm.refl _
  kept := nofun
  writing := nofun
  delivered := rfl
  polling := trivial

/-- The buffers add up. -/
theorem Inv.total (h : Inv n s fetched count) : s.posted.length - fetched + s.pending.length +
    s.writing.toList.length + (s.completed.length - (count + s.gone)) = n := by
  have hlen := h.places.length_eq
  simpa only [Rx.places, List.length_append, List.length_drop, List.length_map, List.length_range] using hlen

theorem Inv.nodup (h : Inv n s fetched count) (hn : Size n) : (s.places fetched (count + s.gone)).Nodup :=
  h.places.nodup_iff.mpr (ids_nodup hn)

theorem Inv.count_le (h : Inv n s fetched count) : count + s.gone ≤ s.completed.length := by
  have hle := h.used.taken_le
  rwa [List.length_map] at hle

theorem getElem?_lt {α : Type*} {l : List α} {i : ℕ} {c : α} (h : l[i]? = some c) : i < l.length :=
  (List.getElem?_eq_some_iff.mp h).1

/-! ### Steps of `poll` -/

/-- A step that only goes on in `poll`. -/
theorem Inv.of_calls (h : Inv n s fetched count) {calls : List Pc}
    (hgone : gone { s with calls := calls } = s.gone) (hdone : done { s with calls := calls } = s.done)
    (hpolling : s.Polling n count calls) : Inv n { s with calls := calls } fetched count where
  avail := h.avail
  used := by
    rw [hgone]
    exact h.used
  availIdx := h.availIdx
  usedIdx := h.usedIdx
  lastAvail := h.lastAvail
  seen := h.seen
  places := by
    rw [hgone]
    exact h.places
  kept := by
    rw [hdone]
    exact h.kept
  writing := h.writing
  delivered := by
    rw [hdone]
    exact h.delivered
  polling := hpolling

/-- The callback is through with an entry, or `poll` has left it out. -/
theorem Inv.finish (h : Inv n s fetched count) {id : UInt16} {c : Completion} {delivered : List (List UInt8)}
    (hgone : s.gone = 0) (hdone : s.done = 0) (hc : s.completed[count]? = some c) (hid : id = c.id)
    (hdelivered : delivered = s.delivered ++ c.payload.toList) :
    Inv n { s with calls := [.post id], delivered := delivered } fetched count where
  avail := h.avail
  used := by
    have hused := h.used
    rw [hgone] at hused
    exact hused
  availIdx := h.availIdx
  usedIdx := h.usedIdx
  lastAvail := h.lastAvail
  seen := h.seen
  places := by
    have hplaces := h.places
    rw [hgone] at hplaces
    exact hplaces
  kept := by
    intro i hi
    refine h.kept i ?_
    rw [hdone]
    exact Nat.le_of_succ_le hi
  writing := h.writing
  delivered := by
    obtain ⟨hlt, hget⟩ := List.getElem?_eq_some_iff.mp hc
    show delivered = (s.completed.take (count + 1)).filterMap Completion.payload
    rw [hdelivered, h.delivered, hdone, Nat.add_zero, List.take_succ_eq_append_getElem hlt, hget,
      List.filterMap_append]
    refine congrArg _ ?_
    cases hx : c.payload <;> simp [hx]
  polling := ⟨c, hc, hid⟩

theorem Inv.post (h : Inv n s fetched count) (hn : Size n) {id : UInt16} (hcalls : s.calls = [.post id]) :
    Inv n { s with
      calls := [.publish id]
      availRing := Function.update s.availRing (s.availIdx.toNat % n) id } fetched count := by
  have hgone : s.gone = 0 := by rw [gone, hcalls]
  have hdone : s.done = 1 := by rw [done, hcalls]
  have hpolling := h.polling
  rw [hcalls] at hpolling
  obtain ⟨c, hc, hid⟩ := hpolling
  have hlt := getElem?_lt hc
  have hroom : s.posted.length < fetched + n := by
    have htotal := h.total
    have hle := h.avail.taken_le
    rw [hgone] at htotal
    omega
  have hslot : s.availIdx.toNat % n = s.posted.length % n := by
    rw [h.availIdx, counter_slot hn.dvd]
  have hused := h.used
  have hplaces := h.places
  have hkept := h.kept
  have hdelivered := h.delivered
  rw [hgone] at hused hplaces
  rw [hdone] at hkept hdelivered
  refine ⟨?_, hused, h.availIdx, h.usedIdx, h.lastAvail, h.seen, hplaces, hkept, h.writing, hdelivered,
    ⟨c, hc, hid⟩, ?_⟩
  · rw [hslot]
    exact h.avail.update hroom id
  · show Function.update s.availRing (s.availIdx.toNat % n) id (s.posted.length % n) = id
    rw [hslot, Function.update_self]

/-- The buffer is the device's again. -/
theorem Inv.publish (h : Inv n s fetched count) {id : UInt16} (hcalls : s.calls = [.publish id]) :
    Inv n { s with calls := [.next], availIdx := s.availIdx + 1, posted := s.posted ++ [id] } fetched count := by
  have hgone : s.gone = 0 := by rw [gone, hcalls]
  have hdone : s.done = 1 := by rw [done, hcalls]
  have hpolling := h.polling
  rw [hcalls] at hpolling
  obtain ⟨⟨c, hc, rfl⟩, hslot⟩ := hpolling
  obtain ⟨hlt, hget⟩ := List.getElem?_eq_some_iff.mp hc
  have hle := h.avail.taken_le
  have hroom : s.posted.length < fetched + n := by
    have htotal := h.total
    rw [hgone] at htotal
    omega
  have hused := h.used
  have hkept := h.kept
  have hdelivered := h.delivered
  rw [hgone] at hused
  rw [hdone] at hkept hdelivered
  refine ⟨h.avail.push hroom hslot, hused.pop ?_, ?_, h.usedIdx, h.lastAvail, h.seen, ?_, hkept, h.writing,
    hdelivered, hlt⟩
  · rwa [List.length_map]
  · show s.availIdx + 1 = _
    rw [h.availIdx, counter_succ, List.length_append, List.length_singleton]
  · have hplaces := h.places
    rw [hgone] at hplaces
    refine List.Perm.trans ?_ hplaces
    show ((s.posted ++ [c.id]).drop fetched ++ s.pending ++ s.writing.toList.map Completion.id ++
      (s.completed.drop (count + 1)).map Completion.id).Perm (s.posted.drop fetched ++ s.pending ++
        s.writing.toList.map Completion.id ++ (s.completed.drop count).map Completion.id)
    rw [List.drop_append_of_le_length hle, List.drop_eq_getElem_cons hlt, hget, List.map_cons]
    refine List.perm_iff_count.mpr fun a => ?_
    simp only [List.count_append, List.count_cons, List.count_nil]
    omega

theorem Inv.next (h : Inv n s fetched count) (hcalls : s.calls = [.next]) :
    Inv n { s with calls := [.check], seen := s.seen + 1 } fetched (count + 1) := by
  have hgone : s.gone = 1 := by rw [gone, hcalls]
  have hdone : s.done = 1 := by rw [done, hcalls]
  have hused := h.used
  have hplaces := h.places
  have hkept := h.kept
  have hdelivered := h.delivered
  rw [hgone] at hused hplaces
  rw [hdone] at hkept hdelivered
  refine ⟨h.avail, hused, h.availIdx, h.usedIdx, h.lastAvail, ?_, hplaces, hkept, h.writing, hdelivered,
    trivial⟩
  show s.seen + 1 = _
  rw [h.seen, counter_succ]

/-- The number of a completed buffer is one of those that were posted. -/
theorem Inv.id_lt (h : Inv n s fetched count) {i : ℕ} {c : Completion} (hi : count + s.gone ≤ i)
    (hc : s.completed[i]? = some c) : c.id.toNat < n := by
  obtain ⟨hlt, hget⟩ := List.getElem?_eq_some_iff.mp hc
  have hmem : c.id ∈ s.places fetched (count + s.gone) := by
    refine List.mem_append_right _ (List.mem_map_of_mem ?_)
    rw [← hget]
    exact List.mem_drop_iff_getElem.mpr ⟨i - (count + s.gone), by omega, by congr 1; omega⟩
  obtain ⟨j, hj, hid⟩ := List.mem_map.mp (h.places.mem_iff.mp hmem)
  have hlt := List.mem_range.mp hj
  rw [← hid, UInt16.toNat_ofNat']
  exact (Nat.mod_le _ _).trans_lt hlt

theorem Inv.check (h : Inv n s fetched count) (hn : Size n) (hcalls : s.calls = [.check]) :
    Inv n (s.cpu n) fetched count := by
  have hgone : s.gone = 0 := by rw [gone, hcalls]
  have hdone : s.done = 0 := by rw [done, hcalls]
  have hle := h.count_le
  have htotal := h.total
  have hmax : n ≤ 256 := hn.le
  rw [cpu, hcalls]
  show Inv n (if s.seen ≠ s.usedIdx then { s with calls := [.entry] } else { s with calls := [] }) fetched count
  split
  · next hmore =>
    refine h.of_calls hgone.symm hdone.symm ?_
    rw [h.seen, h.usedIdx, ne_eq, counter_eq_iff (by omega) (by omega)] at hmore
    show count < s.completed.length
    omega
  · exact h.of_calls hgone.symm hdone.symm trivial

theorem Inv.entry (h : Inv n s fetched count) (hn : Size n) (hcalls : s.calls = [.entry]) :
    Inv n (s.cpu n) fetched count := by
  have hgone : s.gone = 0 := by rw [gone, hcalls]
  have hdone : s.done = 0 := by rw [done, hcalls]
  have hlt : count < s.completed.length := by
    have hpolling := h.polling
    rw [hcalls] at hpolling
    exact hpolling
  have hentry : s.usedRing (s.seen.toNat % n) = s.completed[count].entry := by
    have hused := h.used
    rw [hgone, Nat.add_zero] at hused
    rw [h.seen, counter_slot hn.dvd, hused.oldest (by rwa [List.length_map]), List.getElem_map]
  rw [cpu, hcalls]
  refine h.of_calls hgone.symm hdone.symm ⟨s.completed[count], List.getElem?_eq_getElem hlt, ?_, ?_⟩
  · rw [hentry]
    exact UInt16.toUInt16_toUInt32 _
  · rw [hentry]
    rfl

theorem Inv.test (h : Inv n s fetched count) {id : UInt16} {len : UInt32}
    (hcalls : s.calls = [.test id len]) : Inv n (s.cpu n) fetched count := by
  have hgone : s.gone = 0 := by rw [gone, hcalls]
  have hdone : s.done = 0 := by rw [done, hcalls]
  have hpolling := h.polling
  rw [hcalls] at hpolling
  obtain ⟨c, hc, rfl, rfl⟩ := hpolling
  have hid := h.id_lt (Nat.le_of_eq (by rw [hgone, Nat.add_zero])) hc
  rw [cpu, hcalls]
  show Inv n (if c.id.toNat < n ∧ fits c.len = true then { s with calls := [.rx c.id c.len []] }
    else { s with calls := [.post c.id] }) fetched count
  split
  · next hgood =>
    exact h.of_calls hgone.symm hdone.symm ⟨c, hc, rfl, rfl, hgood.2, Nat.zero_le _, rfl⟩
  · next hbad =>
    refine h.finish hgone hdone hc rfl ?_
    have hnone : c.payload = none := if_neg fun hfits => hbad ⟨hid, hfits⟩
    rw [hnone]
    exact (List.append_nil _).symm

theorem Inv.rx (h : Inv n s fetched count) {id : UInt16} {len : UInt32} {read : List UInt8}
    (hcalls : s.calls = [.rx id len read]) : Inv n (s.cpu n) fetched count := by
  have hgone : s.gone = 0 := by rw [gone, hcalls]
  have hdone : s.done = 0 := by rw [done, hcalls]
  have hpolling := h.polling
  rw [hcalls] at hpolling
  obtain ⟨c, hc, rfl, rfl, hfits, hle, hread⟩ := hpolling
  obtain ⟨hlt, hget⟩ := List.getElem?_eq_some_iff.mp hc
  rw [cpu, hcalls]
  show Inv n (if read.length < c.len.toNat - 10 then
    { s with calls := [.rx c.id c.len (read ++ [s.rxb c.id (10 + read.length)])] }
    else { s with calls := [.post c.id], delivered := s.delivered ++ [read] }) fetched count
  split
  · next hmore =>
    refine h.of_calls hgone.symm hdone.symm ⟨c, hc, rfl, rfl, hfits, ?_, ?_⟩
    · rw [List.length_append, List.length_singleton]
      exact hmore
    · have hbytes := h.kept count (Nat.le_of_eq (by rw [hdone, Nat.add_zero])) hlt
      rw [hget] at hbytes
      rw [List.length_append, List.length_singleton, List.range_succ, List.map_append, ← hread, hbytes]
      rfl
  · next hall =>
    refine h.finish hgone hdone hc rfl ?_
    have hlen : read.length = c.len.toNat - 10 := by omega
    have hsome : c.payload = some read := by
      rw [Completion.payload, if_pos hfits, ← hlen, ← hread]
    rw [hsome]
    rfl

/-- A step of `poll`. -/
theorem Inv.cpu (h : Inv n s fetched count) (hn : Size n) : Inv n (s.cpu n) fetched (count + s.gone) := by
  cases hcalls : s.calls with
  | nil =>
    rw [gone, Rx.cpu, hcalls]
    exact h
  | cons pc calls =>
    cases calls with
    | cons pc' calls =>
      have hpolling := h.polling
      rw [hcalls] at hpolling
      exact hpolling.elim
    | nil =>
      rw [gone, hcalls]
      cases pc with
      | check => exact h.check hn hcalls
      | entry => exact h.entry hn hcalls
      | test id len => exact h.test hcalls
      | rx id len read => exact h.rx hcalls
      | post id =>
        rw [Rx.cpu, hcalls]
        exact h.post hn hcalls
      | publish id =>
        rw [Rx.cpu, hcalls]
        exact h.publish hcalls
      | next =>
        rw [Rx.cpu, hcalls]
        exact h.next hcalls

theorem Inv.poll (h : Inv n s fetched count) : Inv n s.poll fetched count := by
  unfold Rx.poll
  split
  · next hidle =>
    have hgone : s.gone = 0 := by rw [gone, hidle.2]
    have hdone : s.done = 0 := by rw [done, hidle.2]
    exact h.of_calls hgone.symm hdone.symm trivial
  · exact h

/-! ### Steps of the device -/

theorem Inv.fetch (h : Inv n s fetched count) (hn : Size n) : ∃ fetched', Inv n (s.fetch n) fetched' count := by
  unfold Rx.fetch
  split
  · next hmore =>
    have hle := h.avail.taken_le
    have hfits := h.avail.fits
    have hmax : n ≤ 256 := hn.le
    rw [h.lastAvail, h.availIdx, ne_eq, counter_eq_iff hle (by omega)] at hmore
    have hlt : fetched < s.posted.length := by omega
    have hid : s.availRing (s.lastAvail.toNat % n) = s.posted[fetched] := by
      rw [h.lastAvail, counter_slot hn.dvd, h.avail.oldest hlt]
    refine ⟨fetched + 1, h.avail.pop hlt, h.used, h.availIdx, h.usedIdx, ?_, h.seen, ?_, h.kept, h.writing,
      h.delivered, h.polling⟩
    · show s.lastAvail + 1 = _
      rw [h.lastAvail, counter_succ]
    · refine List.Perm.trans ?_ h.places
      show (s.posted.drop (fetched + 1) ++ (s.pending ++ [s.availRing (s.lastAvail.toNat % n)]) ++
        s.writing.toList.map Completion.id ++ (s.completed.drop (count + s.gone)).map Completion.id).Perm
          (s.places fetched (count + s.gone))
      rw [hid, Rx.places, List.drop_eq_getElem_cons hlt]
      refine List.perm_iff_count.mpr fun a => ?_
      simp only [List.count_append, List.count_cons, List.count_nil]
      omega
  · exact ⟨fetched, h⟩

/-- The device has none of the buffers that it has completed. -/
theorem Inv.pending_ne (h : Inv n s fetched count) (hn : Size n) {id : UInt16} (hid : id ∈ s.pending) :
    (∀ c, s.writing = some c → c.id ≠ id) ∧
      ∀ i, count + s.gone ≤ i → ∀ hi : i < s.completed.length, s.completed[i].id ≠ id := by
  have hnodup := h.nodup hn
  rw [Rx.places, List.append_assoc, List.nodup_append] at hnodup
  have hdisjoint := hnodup.2.2 id (List.mem_append_right _ hid)
  refine ⟨fun c hc heq => ?_, fun i hi hlt heq => ?_⟩
  · refine hdisjoint id (List.mem_append_left _ ?_) rfl
    rw [hc, ← heq]
    exact List.mem_singleton.mpr rfl
  · refine hdisjoint id (List.mem_append_right _ ?_) rfl
    rw [← heq]
    exact List.mem_map_of_mem (List.mem_drop_iff_getElem.mpr ⟨i - (count + s.gone), by omega, by congr 1; omega⟩)

theorem done_cases (s : Rx) : s.done = 0 ∨ s.done = 1 ∧
    ((∃ id, s.calls = [.post id]) ∨ (∃ id, s.calls = [.publish id]) ∨ s.calls = [.next]) := by
  rw [done]
  cases s.calls with
  | nil => exact .inl rfl
  | cons pc calls =>
    cases calls with
    | cons pc' calls => cases pc <;> exact .inl rfl
    | nil =>
      cases pc with
      | check => exact .inl rfl
      | entry => exact .inl rfl
      | test id len => exact .inl rfl
      | rx id len read => exact .inl rfl
      | post id => exact .inr ⟨rfl, .inl ⟨id, rfl⟩⟩
      | publish id => exact .inr ⟨rfl, .inr (.inl ⟨id, rfl⟩)⟩
      | next => exact .inr ⟨rfl, .inr (.inr rfl)⟩

theorem Inv.done_le (h : Inv n s fetched count) : count + s.done ≤ s.completed.length := by
  have hcount := h.count_le
  have hpolling := h.polling
  obtain hdone | ⟨hdone, ⟨id, hcalls⟩ | ⟨id, hcalls⟩ | hcalls⟩ := s.done_cases
  · omega
  · rw [hcalls] at hpolling
    obtain ⟨c, hc, -⟩ := hpolling
    rw [hdone]
    exact getElem?_lt hc
  · rw [hcalls] at hpolling
    obtain ⟨⟨c, hc, -⟩, -⟩ := hpolling
    rw [hdone]
    exact getElem?_lt hc
  · rw [hcalls] at hpolling
    rw [hdone]
    exact hpolling

/-- What `poll` knows is not changed by one more completion. -/
theorem Polling.append {calls : List Pc} (h : s.Polling n count calls) (c : Completion) :
    Polling n { s with usedIdx := s.usedIdx + 1, writing := none, completed := s.completed ++ [c] } count
      calls := by
  have hold : ∀ {x}, s.completed[count]? = some x → (s.completed ++ [c])[count]? = some x := fun hx =>
    (List.getElem?_append_left (getElem?_lt hx)).trans hx
  have hlt : count < s.completed.length → count < (s.completed ++ [c]).length := fun hlt => by
    rw [List.length_append]
    exact Nat.lt_add_right _ hlt
  cases calls with
  | nil => trivial
  | cons pc calls =>
    cases calls with
    | cons _ _ => exact h.elim
    | nil =>
      cases pc with
      | check => trivial
      | entry => exact hlt h
      | test id len => exact h.imp fun x hx => ⟨hold hx.1, hx.2⟩
      | rx id len read => exact h.imp fun x hx => ⟨hold hx.1, hx.2⟩
      | post id => exact h.imp fun x hx => ⟨hold hx.1, hx.2⟩
      | publish id => exact ⟨h.1.imp fun x hx => ⟨hold hx.1, hx.2⟩, h.2⟩
      | next => exact hlt h

theorem gone_le_done (s : Rx) : s.gone ≤ s.done := by
  unfold gone done
  split
  · next hcalls => rw [hcalls]
  · exact Nat.zero_le _

theorem Inv.dma (h : Inv n s fetched count) (hn : Size n) (id : UInt16) (k : ℕ) (b : UInt8) :
    Inv n (s.dma id k b) fetched count := by
  unfold Rx.dma
  split
  · next hmine =>
    obtain ⟨hwriting, hcompleted⟩ := h.pending_ne hn hmine.1
    refine ⟨h.avail, h.used, h.availIdx, h.usedIdx, h.lastAvail, h.seen, h.places, fun i hi hlt => ?_,
      fun c hc => ?_, h.delivered, h.polling⟩
    · have hdone := gone_le_done s
      have hi' : count + s.done ≤ i := hi
      show Function.update s.rxb id _ s.completed[i].id = _
      rw [Function.update_of_ne (hcompleted i (by omega) hlt)]
      exact h.kept i hi hlt
    · refine ⟨(h.writing c hc).1, ?_⟩
      show Function.update s.rxb id _ c.id = _
      rw [Function.update_of_ne (hwriting c hc)]
      exact (h.writing c hc).2
  · exact h

theorem Inv.complete (h : Inv n s fetched count) (hn : Size n) (i : ℕ) (len : UInt32) :
    Inv n (s.complete n i len) fetched count := by
  unfold Rx.complete
  split
  · next id hnone hid =>
    obtain ⟨hlt, hget⟩ := List.getElem?_eq_some_iff.mp hid
    have htotal := h.total
    have hcount := h.count_le
    have hle : (s.completed.map Completion.entry).length < count + s.gone + n := by
      rw [List.length_map]
      omega
    have hslot : s.usedIdx.toNat % n = (s.completed.map Completion.entry).length % n := by
      rw [h.usedIdx, counter_slot hn.dvd, List.length_map]
    refine ⟨h.avail, ?_, h.availIdx, h.usedIdx, h.lastAvail, h.seen, ?_, h.kept, ?_, h.delivered, h.polling⟩
    · show Sliding n (Function.update s.usedRing (s.usedIdx.toNat % n) _) _ (count + s.gone)
      rw [hslot]
      exact h.used.update hle _
    · refine List.Perm.trans ?_ h.places
      have hmoved := List.getElem_cons_eraseIdx_perm hlt
      rw [hget] at hmoved
      show (s.posted.drop fetched ++ s.pending.eraseIdx i ++ [id] ++
        (s.completed.drop (count + s.gone)).map Completion.id).Perm (s.places fetched (count + s.gone))
      rw [Rx.places, hnone]
      refine List.perm_iff_count.mpr fun a => ?_
      have hsame := List.perm_iff_count.mp hmoved a
      simp only [List.count_append, List.count_cons, List.count_nil, Option.toList_none, List.map_nil] at hsame ⊢
      omega
    · rintro c rfl_c
      obtain rfl := Option.some.inj rfl_c
      refine ⟨?_, rfl⟩
      show Function.update s.usedRing (s.usedIdx.toNat % n) _ (s.completed.length % n) = _
      rw [hslot, List.length_map, Function.update_self]
      rfl
  · exact h

theorem Inv.publish_used (h : Inv n s fetched count) : Inv n s.publish fetched count := by
  unfold Rx.publish
  split
  · exact h
  · next c hc =>
    obtain ⟨hentry, hbytes⟩ := h.writing c hc
    have hcount := h.count_le
    have htotal := h.total
    rw [hc] at htotal
    have hroom : (s.completed.map Completion.entry).length < count + s.gone + n := by
      have hone : (some c).toList.length = 1 := rfl
      rw [List.length_map]
      omega
    refine ⟨h.avail, ?_, h.availIdx, ?_, h.lastAvail, h.seen, ?_, ?_, nofun, ?_, ?_⟩
    · show Sliding n s.usedRing ((s.completed ++ [c]).map Completion.entry) (count + s.gone)
      rw [List.map_append]
      refine h.used.push hroom ?_
      rw [List.length_map]
      exact hentry
    · show s.usedIdx + 1 = _
      rw [h.usedIdx, counter_succ, List.length_append, List.length_singleton]
    · refine List.Perm.trans ?_ h.places
      show (s.posted.drop fetched ++ s.pending ++ [] ++
        ((s.completed ++ [c]).drop (count + s.gone)).map Completion.id).Perm (s.places fetched (count + s.gone))
      rw [Rx.places, hc, List.drop_append_of_le_length hcount, List.map_append]
      refine List.perm_iff_count.mpr fun a => ?_
      simp only [List.count_append, List.count_nil, Option.toList_some, List.map_cons, List.map_nil]
      omega
    · intro i hi hlt
      rw [List.length_append, List.length_singleton] at hlt
      rcases Nat.lt_succ_iff_lt_or_eq.mp hlt with hold | rfl
      · show s.rxb ((s.completed ++ [c])[i]).id = ((s.completed ++ [c])[i]).bytes
        rw [List.getElem_append_left hold]
        exact h.kept i hi hold
      · show s.rxb ((s.completed ++ [c])[s.completed.length]).id = ((s.completed ++ [c])[s.completed.length]).bytes
        rw [List.getElem_concat_length rfl]
        exact hbytes
    · show s.delivered = ((s.completed ++ [c]).take (count + s.done)).filterMap Completion.payload
      rw [List.take_append_of_le_length h.done_le]
      exact h.delivered
    · exact Polling.append h.polling c

/-! ### Every run -/

theorem step_inv (hn : Size n) (h : Inv n s fetched count) {e : Event} (he : e ≠ .nested) :
    ∃ fetched' count', Inv n (step n s e) fetched' count' := by
  cases e with
  | poll => exact ⟨fetched, count, h.poll⟩
  | nested => exact absurd rfl he
  | cpu => exact ⟨fetched, count + s.gone, h.cpu hn⟩
  | fetch =>
    obtain ⟨fetched', h'⟩ := h.fetch hn
    exact ⟨fetched', count, h'⟩
  | dma id k b => exact ⟨fetched, count, h.dma hn id k b⟩
  | complete i len => exact ⟨fetched, count, h.complete hn i len⟩
  | publish => exact ⟨fetched, count, h.publish_used⟩

theorem run_inv (hn : Size n) (es : List Event) (hserial : Event.nested ∉ es) :
    ∃ fetched count, Inv n (run n es (boot n)) fetched count := by
  induction es using List.reverseRecOn with
  | nil => exact ⟨0, 0, boot_inv⟩
  | append_singleton es e ih =>
    obtain ⟨fetched, count, h⟩ := ih fun hmem => hserial (List.mem_append_left _ hmem)
    have hrun : run n (es ++ [e]) (boot n) = step n (run n es (boot n)) e := List.foldl_append ..
    rw [hrun]
    refine step_inv hn h fun heq => hserial ?_
    rw [heq]
    exact List.mem_append_right _ List.mem_cons_self

/-- **Reception.**  The callbacks have seen the good ones of what was completed, each once, in the order of
the completions and as it was then; and each buffer is in one place. -/
theorem virtio_receive_queue (hn : Size n) (es : List Event) (hserial : Event.nested ∉ es) :
    let s := run n es (boot n)
    ∃ fetched taken delivered, s.delivered = (s.completed.take delivered).filterMap Completion.payload ∧
      taken ≤ delivered ∧ delivered ≤ taken + 1 ∧ delivered ≤ s.completed.length ∧
      (s.places fetched taken).Perm ((List.range n).map UInt16.ofNat) ∧
      s.lastAvail = .ofNat fetched ∧ s.availIdx = .ofNat s.posted.length ∧
      s.usedIdx = .ofNat s.completed.length := by
  intro s
  obtain ⟨fetched, count, h⟩ := run_inv hn es hserial
  have hdone := h.done_le
  have hle := gone_le_done s
  have hone : s.done ≤ 1 := by
    obtain hdone | ⟨hdone, -⟩ := s.done_cases
    · omega
    · omega
  exact ⟨fetched, count + s.gone, count + s.done, h.delivered, by omega, by omega, hdone, h.places, h.lastAvail,
    h.availIdx, h.usedIdx⟩

theorem size_four : Size 4 := ⟨by decide, by decide, by decide⟩

/-- The device puts a frame of 14 bytes in the first buffer, and `poll` comes to its callback. -/
def oneFrame : List Event :=
  [.fetch, .dma 0 10 0x45, .complete 0 24, .publish, .poll, .cpu, .cpu, .cpu]

theorem virtio_receive_queue_one :
    let s := run 4 oneFrame (boot 4)
    ∃ fetched taken delivered, s.delivered = (s.completed.take delivered).filterMap Completion.payload ∧
      taken ≤ delivered ∧ delivered ≤ taken + 1 ∧ delivered ≤ s.completed.length ∧
      (s.places fetched taken).Perm ((List.range 4).map UInt16.ofNat) ∧
      s.lastAvail = .ofNat fetched ∧ s.availIdx = .ofNat s.posted.length ∧
      s.usedIdx = .ofNat s.completed.length :=
  virtio_receive_queue size_four oneFrame (by simp [oneFrame])

/-! ## One call of `poll`, left alone by the device -/

end Rx

/-- The steps that are left for one entry, at most. -/
def Pc.rank : Pc → ℕ
  | .check => bufSize + 6
  | .entry => bufSize + 5
  | .test _ _ => bufSize + 4
  | .rx _ len read => 3 + (len.toNat - 10 - read.length)
  | .post _ => 2
  | .publish _ => 1
  | .next => 0

namespace Rx

variable {n : ℕ} {s : Rx} {fetched count : ℕ}

/-- The outer activations wait. -/
theorem tick_under (s : Rx) (pc : Pc) (calls : List Pc) :
    s.tick n pc calls = { s.tick n pc [] with calls := (s.tick n pc []).calls ++ calls } := by
  cases pc with
  | check =>
    unfold tick
    simp only
    split <;> rfl
  | test id len =>
    unfold tick
    simp only
    split <;> rfl
  | rx id len read =>
    unfold tick
    simp only
    split <;> rfl
  | entry => rfl
  | post id => rfl
  | publish id => rfl
  | next => rfl

/-- What the driver leaves to the device. -/
structure SameDevice (s t : Rx) : Prop where
  completed : t.completed = s.completed
  usedIdx : t.usedIdx = s.usedIdx
  pending : t.pending = s.pending
  writing : t.writing = s.writing
  rxb : t.rxb = s.rxb

theorem SameDevice.trans {s t u : Rx} (h : SameDevice s t) (h' : SameDevice t u) : SameDevice s u :=
  ⟨h'.completed.trans h.completed, h'.usedIdx.trans h.usedIdx, h'.pending.trans h.pending,
    h'.writing.trans h.writing, h'.rxb.trans h.rxb⟩

theorem tick_device (s : Rx) (pc : Pc) (calls : List Pc) : SameDevice s (s.tick n pc calls) := by
  cases pc with
  | check =>
    unfold tick
    simp only
    split <;> exact ⟨rfl, rfl, rfl, rfl, rfl⟩
  | test id len =>
    unfold tick
    simp only
    split <;> exact ⟨rfl, rfl, rfl, rfl, rfl⟩
  | rx id len read =>
    unfold tick
    simp only
    split <;> exact ⟨rfl, rfl, rfl, rfl, rfl⟩
  | entry => exact ⟨rfl, rfl, rfl, rfl, rfl⟩
  | post id => exact ⟨rfl, rfl, rfl, rfl, rfl⟩
  | publish id => exact ⟨rfl, rfl, rfl, rfl, rfl⟩
  | next => exact ⟨rfl, rfl, rfl, rfl, rfl⟩

/-- The steps that are left until everything is delivered, at most. -/
def fuel (s : Rx) (count : ℕ) (pc : Pc) : ℕ := (s.completed.length - count) * (bufSize + 7) + pc.rank

/-- A step of `poll` ends it or brings it nearer to its end. -/
theorem tick_cases (h : Inv n s fetched count) (hn : Size n) {pc : Pc} (hcalls : s.calls = [pc]) :
    ((s.tick n pc []).calls = [] ∧ count + s.gone = s.completed.length) ∨
      ∃ pc', (s.tick n pc []).calls = [pc'] ∧ s.fuel (count + s.gone) pc' < s.fuel count pc := by
  have hpolling := h.polling
  rw [hcalls] at hpolling
  rw [gone, hcalls]
  cases pc with
  | check =>
    have hgone : s.gone = 0 := by rw [gone, hcalls]
    have hle := h.count_le
    have htotal := h.total
    have hmax : n ≤ 256 := hn.le
    rw [hgone] at hle htotal
    unfold tick
    simp only
    split
    · exact .inr ⟨_, rfl, Nat.add_lt_add_left (Nat.lt_succ_self _) _⟩
    · next hsame =>
      refine .inl ⟨rfl, ?_⟩
      rw [not_not, h.seen, h.usedIdx, counter_eq_iff (by omega) (by omega)] at hsame
      exact hsame
  | entry => exact .inr ⟨_, rfl, Nat.add_lt_add_left (Nat.lt_succ_self _) _⟩
  | test id len =>
    unfold tick
    simp only
    split
    · next hgood =>
      refine .inr ⟨_, rfl, Nat.add_lt_add_left ?_ _⟩
      have hlen : len.toNat ≤ bufSize + 10 := of_decide_eq_true (Bool.and_eq_true_iff.mp hgood.2).2
      show 3 + (len.toNat - 10 - 0) < bufSize + 4
      omega
    · exact .inr ⟨_, rfl, Nat.add_lt_add_left (by show 2 < bufSize + 4; omega) _⟩
  | rx id len read =>
    unfold tick
    simp only
    split
    · next hmore =>
      refine .inr ⟨_, rfl, Nat.add_lt_add_left ?_ _⟩
      show 3 + (len.toNat - 10 - (read ++ [_]).length) < 3 + (len.toNat - 10 - read.length)
      rw [List.length_append, List.length_singleton]
      omega
    · exact .inr ⟨_, rfl, Nat.add_lt_add_left (Nat.lt_add_right _ (Nat.lt_succ_self 2)) _⟩
  | post id => exact .inr ⟨_, rfl, Nat.add_lt_add_left (Nat.lt_succ_self _) _⟩
  | publish id => exact .inr ⟨_, rfl, Nat.add_lt_add_left (Nat.lt_succ_self _) _⟩
  | next =>
    refine .inr ⟨_, rfl, ?_⟩
    have hlt : count < s.completed.length := hpolling
    obtain ⟨d, hd⟩ := Nat.exists_eq_add_of_lt hlt
    show (s.completed.length - (count + 1)) * (bufSize + 7) + (bufSize + 6) <
      (s.completed.length - count) * (bufSize + 7) + 0
    rw [hd, (by omega : count + d + 1 - (count + 1) = d), (by omega : count + d + 1 - count = d + 1), Nat.add_mul]
    omega

/-- `poll`, as far as it has come, goes on until all entries are counted; the outer activations wait. -/
theorem poll_ends (hn : Size n) {pc : Pc} (h : Inv n s fetched count) (hcalls : s.calls = [pc])
    (calls : List Pc) :
    ∃ k t, (cpu n)^[k] { s with calls := pc :: calls } = { t with calls := calls } ∧ t.calls = [] ∧
      SameDevice s t ∧ Inv n t fetched s.completed.length := by
  induction hf : s.fuel count pc using Nat.strong_induction_on generalizing s count pc with
  | _ f ih =>
    have hcpu : s.cpu n = s.tick n pc [] := by rw [cpu, hcalls]
    have hnext := h.cpu hn
    rw [hcpu] at hnext
    have hdevice := tick_device (n := n) s pc []
    have hstep : cpu n { s with calls := pc :: calls } =
        { s.tick n pc [] with calls := (s.tick n pc []).calls ++ calls } := tick_under s pc calls
    rcases tick_cases h hn hcalls with ⟨hend, hall⟩ | ⟨pc', hpc', hfuel⟩
    · refine ⟨1, s.tick n pc [], ?_, hend, hdevice, ?_⟩
      · rw [Function.iterate_one, hstep, hend]
        rfl
      · rw [← hall]
        exact hnext
    · have hfuel' : (s.tick n pc []).fuel (count + s.gone) pc' < f := by
        rw [fuel, hdevice.completed, ← hf]
        exact hfuel
      obtain ⟨k, t, hrun, ht, hsame, hinv⟩ := ih _ hfuel' hnext hpc' rfl
      rw [hdevice.completed] at hinv
      refine ⟨k + 1, t, ?_, ht, hdevice.trans hsame, hinv⟩
      rw [Function.iterate_succ_apply, hstep, hpc']
      exact hrun

theorem run_append (es es' : List Event) (s : Rx) : run n (es ++ es') s = run n es' (run n es s) :=
  List.foldl_append ..

theorem run_cpu (k : ℕ) : ∀ s : Rx, run n (List.replicate k .cpu) s = (cpu n)^[k] s := by
  induction k with
  | zero => exact fun _ => rfl
  | succ k ih => exact fun s => ih (s.cpu n)

theorem step_up (s : Rx) (e : Event) : (step n s e).up = s.up := by
  cases e with
  | poll =>
    show s.poll.up = s.up
    unfold poll
    split <;> rfl
  | nested =>
    show s.nested.up = s.up
    unfold nested
    split <;> rfl
  | cpu =>
    show (s.cpu n).up = s.up
    unfold cpu
    split
    · rfl
    · unfold tick
      split <;> (try split) <;> rfl
  | fetch =>
    show (s.fetch n).up = s.up
    unfold fetch
    split <;> rfl
  | dma id k b =>
    show (s.dma id k b).up = s.up
    unfold dma
    split <;> rfl
  | complete i len =>
    show (s.complete n i len).up = s.up
    unfold complete
    split <;> rfl
  | publish =>
    show s.publish.up = s.up
    unfold publish
    split <;> rfl

theorem run_up (es : List Event) : ∀ s : Rx, (run n es s).up = s.up := by
  induction es with
  | nil => exact fun _ => rfl
  | cons e es ih => exact fun s => (ih (step n s e)).trans (step_up s e)

/-- **One call of `poll`**, left alone by the device, returns, has delivered everything that was completed
and has given all those buffers back. -/
theorem virtio_poll_empties (hn : Size n) (es : List Event) (hserial : Event.nested ∉ es)
    (hidle : (run n es (boot n)).calls = []) :
    let s := run n es (boot n)
    ∃ k, let t := run n (.poll :: List.replicate k .cpu) s
      t.calls = [] ∧ t.delivered = s.completed.filterMap Completion.payload ∧
        ∃ fetched, t.lastAvail = .ofNat fetched ∧ (t.posted.drop fetched ++ s.pending ++
          s.writing.toList.map Completion.id).Perm ((List.range n).map UInt16.ofNat) := by
  intro s
  obtain ⟨fetched, count, h⟩ := run_inv hn es hserial
  have hpoll : s.poll = { s with calls := [.check] } := by
    unfold poll
    rw [if_pos ⟨run_up es (boot n), hidle⟩]
  have hstart := h.poll
  rw [hpoll] at hstart
  obtain ⟨k, t, hrun, ht, hsame, hinv⟩ := poll_ends hn hstart rfl []
  have hend : run n (.poll :: List.replicate k .cpu) s = t := by
    have hclosed : { t with calls := [] } = t := by rw [← ht]
    rw [← hclosed, ← hrun, ← run_cpu, ← hpoll]
    rfl
  have hgone : t.gone = 0 := by rw [gone, ht]
  have hdone : t.done = 0 := by rw [done, ht]
  refine ⟨k, ?_⟩
  intro t'
  rw [show t' = t from hend]
  refine ⟨ht, ?_, fetched, hinv.lastAvail, ?_⟩
  · rw [hinv.delivered, hdone, Nat.add_zero, hsame.completed, List.take_length]
  · have hplaces := hinv.places
    rw [places, hgone, Nat.add_zero, hsame.completed, hsame.pending, hsame.writing, List.drop_length, List.map_nil,
      List.append_nil] at hplaces
    exact hplaces

theorem virtio_poll_empties_one :
    let s := run 4 (oneFrame.take 4) (boot 4)
    ∃ k, let t := run 4 (.poll :: List.replicate k .cpu) s
      t.calls = [] ∧ t.delivered = s.completed.filterMap Completion.payload ∧
        ∃ fetched, t.lastAvail = .ofNat fetched ∧ (t.posted.drop fetched ++ s.pending ++
          s.writing.toList.map Completion.id).Perm ((List.range 4).map UInt16.ofNat) :=
  virtio_poll_empties size_four (oneFrame.take 4) (by simp [oneFrame]) (by decide +kernel)

/-! ## Inner calls of `poll` -/

/-- The callback reads the frame to its end. -/
theorem callback_reads {id : UInt16} {len : UInt32} {calls : List Pc} (d : ℕ) :
    ∀ {s : Rx} {read : List UInt8}, s.calls = .rx id len read :: calls →
      read = (List.range read.length).map (fun k => s.rxb id (10 + k)) → read.length + d = len.toNat - 10 →
      (cpu n)^[d + 1] s = { s with
        calls := .post id :: calls
        delivered := s.delivered ++ [(List.range (len.toNat - 10)).map fun k => s.rxb id (10 + k)] } := by
  induction d with
  | zero =>
    intro s read hcalls hread hlen
    show s.cpu n = _
    unfold cpu
    rw [hcalls]
    unfold tick
    simp only
    rw [if_neg (by omega), hread, (by omega : read.length = len.toNat - 10)]
  | succ d ih =>
    intro s read hcalls hread hlen
    have hstep : s.cpu n = { s with calls := .rx id len (read ++ [s.rxb id (10 + read.length)]) :: calls } := by
      unfold cpu
      rw [hcalls]
      exact if_pos (by omega)
    rw [Function.iterate_succ_apply, hstep]
    refine ih (s := { s with calls := .rx id len (read ++ [s.rxb id (10 + read.length)]) :: calls }) rfl ?_ ?_
    · rw [List.length_append, List.length_singleton, List.range_succ, List.map_append, ← hread]
      rfl
    · rw [List.length_append, List.length_singleton]
      omega

/-- `poll` runs on its own from `start`, and has gone `turns` entries beyond. -/
structure Beyond (start s : Rx) (turns : ℕ) : Prop where
  seen : s.seen = start.seen + .ofNat turns
  usedIdx : s.usedIdx = start.usedIdx
  posted : start.posted.length + turns + s.gone ≤ s.posted.length
  ended : s.calls = [] → s.seen = s.usedIdx
  alone : s.calls.length ≤ 1

theorem Beyond.cpu {start s : Rx} {turns : ℕ} (h : Beyond start s turns) : ∃ turns', Beyond start (s.cpu n) turns' := by
  cases hcalls : s.calls with
  | nil =>
    refine ⟨turns, ?_⟩
    rw [Rx.cpu, hcalls]
    exact h
  | cons pc calls =>
    have halone := h.alone
    rw [hcalls] at halone
    obtain rfl : calls = [] := List.length_eq_zero_iff.mp (by simpa using halone)
    have hposted := h.posted
    rw [gone, hcalls] at hposted
    rw [Rx.cpu, hcalls]
    cases pc with
    | check =>
      refine ⟨turns, ?_⟩
      show Beyond start (if s.seen ≠ s.usedIdx then { s with calls := [.entry] } else { s with calls := [] }) turns
      split
      · exact ⟨h.seen, h.usedIdx, hposted, nofun, Nat.le_refl 1⟩
      · next hsame => exact ⟨h.seen, h.usedIdx, hposted, fun _ => not_not.mp hsame, Nat.zero_le 1⟩
    | entry => exact ⟨turns, h.seen, h.usedIdx, hposted, nofun, Nat.le_refl 1⟩
    | test id len =>
      refine ⟨turns, ?_⟩
      show Beyond start (if id.toNat < n ∧ fits len then { s with calls := [.rx id len []] }
        else { s with calls := [.post id] }) turns
      split <;> exact ⟨h.seen, h.usedIdx, hposted, nofun, Nat.le_refl 1⟩
    | rx id len read =>
      refine ⟨turns, ?_⟩
      show Beyond start (if read.length < len.toNat - 10 then
        { s with calls := [.rx id len (read ++ [s.rxb id (10 + read.length)])] }
        else { s with calls := [.post id], delivered := s.delivered ++ [read] }) turns
      split <;> exact ⟨h.seen, h.usedIdx, hposted, nofun, Nat.le_refl 1⟩
    | post id => exact ⟨turns, h.seen, h.usedIdx, hposted, nofun, Nat.le_refl 1⟩
    | publish id =>
      refine ⟨turns, h.seen, h.usedIdx, ?_, nofun, Nat.le_refl 1⟩
      show start.posted.length + turns + 1 ≤ (s.posted ++ [id]).length
      rw [List.length_append, List.length_singleton]
      exact Nat.succ_le_succ hposted
    | next =>
      refine ⟨turns + 1, ?_, h.usedIdx, hposted, nofun, Nat.le_refl 1⟩
      show s.seen + 1 = _
      rw [h.seen, UInt16.add_assoc, counter_succ]

/-- One entry too far, `poll` does not return before it has gone round all 16 bits. -/
theorem overrun (hcalls : s.calls = [.check]) (hseen : s.seen = s.usedIdx + 1) (m : ℕ)
    (hend : ((cpu n)^[m] s).calls = []) : s.posted.length + 65535 ≤ ((cpu n)^[m] s).posted.length := by
  have hbeyond : ∃ turns, Beyond s ((cpu n)^[m] s) turns := by
    clear hend
    induction m with
    | zero =>
      refine ⟨0, (UInt16.add_zero _).symm, rfl, ?_, ?_, ?_⟩
      · have hgone : s.gone = 0 := by rw [gone, hcalls]
        rw [Function.iterate_zero, id, hgone]
        exact Nat.le_refl _
      · intro hnone
        rw [Function.iterate_zero, id, hcalls] at hnone
        cases hnone
      · rw [Function.iterate_zero, id, hcalls]
        exact Nat.le_refl 1
    | succ m ih =>
      obtain ⟨turns, h⟩ := ih
      rw [Function.iterate_succ_apply']
      exact h.cpu
  obtain ⟨turns, h⟩ := hbeyond
  have hround := h.ended hend
  rw [h.seen, h.usedIdx, hseen] at hround
  have hnat := congrArg UInt16.toNat hround
  rw [UInt16.toNat_add, UInt16.toNat_add, UInt16.toNat_ofNat'] at hnat
  have hone : (1 : UInt16).toNat = 1 := rfl
  have hlt := s.usedIdx.toNat_lt
  have hposted := h.posted
  omega

/-- The callback calls `poll`: that delivers the frame of the callback and what is behind it, and the outer
call comes back to a counter that it moves once more. -/
theorem nested_returns (hn : Size n) (h : Inv n s fetched count) {id : UInt16} {len : UInt32} {read : List UInt8}
    (hcalls : s.calls = [.rx id len read]) :
    ∃ k v f rest, (cpu n)^[k] s.nested = v ∧ v.calls = [.check] ∧ v.seen = v.usedIdx + 1 ∧
      v.completed = s.completed ∧ v.delivered = s.delivered ++ f :: rest ++ [f] ∧
      v.lastAvail = .ofNat fetched ∧ v.availIdx = .ofNat v.posted.length ∧
      2 ≤ (v.posted.drop fetched).count id := by
  have hgone : s.gone = 0 := by rw [gone, hcalls]
  have hdone : s.done = 0 := by rw [done, hcalls]
  have hpolling := h.polling
  rw [hcalls] at hpolling
  obtain ⟨c, hc, rfl, rfl, hfits, hle, hread⟩ := hpolling
  obtain ⟨hlt, hget⟩ := List.getElem?_eq_some_iff.mp hc
  have hbytes : s.rxb c.id = c.bytes := by
    have hkept := h.kept count (Nat.le_of_eq (by rw [hdone, Nat.add_zero])) hlt
    rwa [hget] at hkept
  have hpayload : c.payload = some ((List.range (c.len.toNat - 10)).map fun k => c.bytes (10 + k)) := if_pos hfits
  -- the inner call
  have hstart : Inv n { s with calls := [.check] } fetched count := h.of_calls hgone.symm hdone.symm trivial
  obtain ⟨k, t, hinner, ht, hsame, hinv⟩ := poll_ends hn hstart rfl [.rx c.id c.len read]
  have htgone : t.gone = 0 := by rw [gone, ht]
  have htdone : t.done = 0 := by rw [done, ht]
  -- the rest of the outer callback
  have htbytes : t.rxb c.id = c.bytes := by rw [hsame.rxb, hbytes]
  have houter := @callback_reads n c.id c.len [] (c.len.toNat - 10 - read.length)
    { t with calls := [.rx c.id c.len read] } read rfl (by simp only [htbytes]; exact hread) (by omega)
  simp only [htbytes] at houter
  have hnested : s.nested = { s with calls := .check :: [.rx c.id c.len read] } := by
    unfold nested
    rw [hcalls]
  refine ⟨c.len.toNat - 10 - read.length + 1 + k + 3, { t with
    calls := [.check]
    delivered := t.delivered ++ [(List.range (c.len.toNat - 10)).map fun k => c.bytes (10 + k)]
    availRing := Function.update t.availRing (t.availIdx.toNat % n) c.id
    availIdx := t.availIdx + 1
    posted := t.posted ++ [c.id]
    seen := t.seen + 1 }, (List.range (c.len.toNat - 10)).map (fun k => c.bytes (10 + k)),
    (s.completed.drop (count + 1)).filterMap Completion.payload, ?_, rfl, ?_, hsame.completed, ?_, hinv.lastAvail, ?_,
    ?_⟩
  · rw [Nat.add_comm _ 3, Function.iterate_add_apply, Function.iterate_add_apply, hnested, hinner, houter]
    rfl
  · show t.seen + 1 = t.usedIdx + 1
    rw [hinv.seen, hinv.usedIdx, hsame.completed]
  · show t.delivered ++ [_] = _
    have hfirst : s.completed.filterMap Completion.payload = s.delivered ++
        (List.range (c.len.toNat - 10)).map (fun k => c.bytes (10 + k)) ::
          (s.completed.drop (count + 1)).filterMap Completion.payload := by
      have hsplit := List.take_append_drop count s.completed
      rw [List.drop_eq_getElem_cons hlt, hget] at hsplit
      rw [h.delivered, hdone, Nat.add_zero]
      conv_lhs => rw [← hsplit]
      rw [List.filterMap_append, List.filterMap_cons, hpayload]
    rw [hinv.delivered, htdone, Nat.add_zero, hsame.completed, List.take_length, hfirst]
  · show t.availIdx + 1 = .ofNat (t.posted ++ [c.id]).length
    rw [hinv.availIdx, counter_succ, List.length_append, List.length_singleton]
  · -- the buffer was given back by the inner call already
    have hmine : c.id ∉ s.pending ∧ c.id ∉ s.writing.toList.map Completion.id := by
      constructor
      · intro hmem
        refine (h.pending_ne hn hmem).2 count (Nat.le_of_eq (by rw [hgone, Nat.add_zero])) hlt ?_
        rw [hget]
      · intro hmem
        have hnodup := h.nodup hn
        rw [Rx.places, List.nodup_append] at hnodup
        refine hnodup.2.2 c.id (List.mem_append_right _ hmem) c.id ?_ rfl
        refine List.mem_map_of_mem (List.mem_drop_iff_getElem.mpr ⟨0, by omega, ?_⟩)
        rw [← hget]
        congr 1
        omega
    have hplace : c.id ∈ t.places fetched (s.completed.length + t.gone) := by
      rw [hinv.places.mem_iff, ← h.places.mem_iff]
      refine List.mem_append_right _ (List.mem_map_of_mem (List.mem_drop_iff_getElem.mpr ⟨0, by omega, ?_⟩))
      rw [← hget]
      congr 1
      omega
    rw [places, htgone, Nat.add_zero, hsame.completed, hsame.pending, hsame.writing, List.drop_length, List.map_nil,
      List.append_nil, List.mem_append, List.mem_append] at hplace
    have hposted := (hplace.resolve_right hmine.2).resolve_right hmine.1
    show 2 ≤ ((t.posted ++ [c.id]).drop fetched).count c.id
    rw [List.drop_append_of_le_length hinv.avail.taken_le, List.count_append, List.count_singleton_self]
    exact Nat.succ_le_succ (List.one_le_count_iff.mpr hposted)

/-- **An inner call of `poll`.**  The frame of the outer callback is delivered twice, its buffer is posted
twice, and the counter of the outer call is one beyond that of the device: without the device it only
returns after it has posted 65535 more buffers. -/
theorem virtio_nested_overrun (hn : Size n) (es : List Event) (hserial : Event.nested ∉ es) {id : UInt16}
    {len : UInt32} {read : List UInt8} (hcalls : (run n es (boot n)).calls = [.rx id len read]) :
    let s := run n es (boot n)
    ∃ k, let v := run n (.nested :: List.replicate k .cpu) s
      (∃ f rest, v.delivered = s.delivered ++ f :: rest ++ [f]) ∧
      (∃ fetched, v.lastAvail = .ofNat fetched ∧ v.availIdx = .ofNat v.posted.length ∧
        2 ≤ (v.posted.drop fetched).count id) ∧
      v.calls = [.check] ∧ v.seen = v.usedIdx + 1 ∧
      ∀ m, ((cpu n)^[m] v).calls = [] → v.posted.length + 65535 ≤ ((cpu n)^[m] v).posted.length := by
  intro s
  obtain ⟨fetched, count, h⟩ := run_inv hn es hserial
  obtain ⟨k, v, f, rest, hrun, hcheck, hseen, -, hdelivered, hlast, havail, htwice⟩ := nested_returns hn h hcalls
  have hrun' : run n (.nested :: List.replicate k .cpu) s = v := by
    rw [← hrun, ← run_cpu]
    rfl
  refine ⟨k, ?_⟩
  intro v'
  rw [show v' = v from hrun']
  exact ⟨⟨f, rest, hdelivered⟩, ⟨fetched, hlast, havail, htwice⟩, hcheck, hseen, overrun hcheck hseen⟩

theorem virtio_nested_overrun_one :
    let s := run 4 oneFrame (boot 4)
    ∃ k, let v := run 4 (.nested :: List.replicate k .cpu) s
      (∃ f rest, v.delivered = s.delivered ++ f :: rest ++ [f]) ∧
      (∃ fetched, v.lastAvail = .ofNat fetched ∧ v.availIdx = .ofNat v.posted.length ∧
        2 ≤ (v.posted.drop fetched).count 0) ∧
      v.calls = [.check] ∧ v.seen = v.usedIdx + 1 ∧
      ∀ m, ((cpu 4)^[m] v).calls = [] → v.posted.length + 65535 ≤ ((cpu 4)^[m] v).posted.length :=
  virtio_nested_overrun size_four oneFrame (by simp [oneFrame])
    (show (run 4 oneFrame (boot 4)).calls = [.rx 0 24 []] by decide +kernel)

end Rx

end Orion.Netdev.VirtioRx
