import Mathlib.Data.List.GetD
import Mathlib.Data.List.Induction
import Orion.Lib.Ring

/-!
# Reception through the RTL8139 (`kernel/netdev_rtl8139.c`)

`init` selects the ring of 8 KiB and sets WRAP, so the device stores a packet in one piece, also behind
the end of the ring, and goes on at the aligned end of the packet modulo 8192.  `poll` reads every byte
modulo 8192.  Packets arrive between any two steps of a poll, and the callback of `poll` may call
`poll` again before it returns.
-/

namespace Orion.Netdev.Rtl8139

/-! ## The device -/

def ringSize : ℕ := 8192

/-- A good frame as it comes from the wire, with the status word that the device gives it. -/
structure Arrival where
  status : ℕ
  frame : List UInt8
  crc : List UInt8
  status_ok : status % 2 = 1 ∧ status < 2 ^ 16
  frame_ok : 14 ≤ frame.length ∧ frame.length ≤ 1514
  crc_ok : crc.length = 4

/-- The device writes its words with the low byte first. -/
def le16 (v : ℕ) : List UInt8 := [UInt8.ofNat v, UInt8.ofNat (v / 256)]

/-- Status, length with the checksum, frame, checksum. -/
def Arrival.packet (x : Arrival) : List UInt8 :=
  le16 x.status ++ le16 (x.frame.length + 4) ++ x.frame ++ x.crc

/-- What a frame of `n` bytes takes in the ring: header and checksum, up to a multiple of four. -/
def room (n : ℕ) : ℕ := (n + 8 + 3) / 4 * 4

/-- Bytes stored from `p` on. -/
def store (mem : ℕ → UInt8) (p : ℕ) (bytes : List UInt8) (i : ℕ) : UInt8 :=
  if p ≤ i then bytes.getD (i - p) (mem i) else mem i

/-! ## The driver -/

/-- Where an activation of `poll` is; in `rx`, its callback is running. -/
inductive Pc where
  | check
  | status
  | length (st : ℕ)
  | copy (len : ℕ) (pkt : List UInt8)
  | rx (len : ℕ)
  deriving Repr, DecidableEq

/-- An activation of `poll` with its variables `guard` and `off`. -/
structure Activation where
  guard : ℕ
  off : ℕ
  pc : Pc
  deriving Repr, DecidableEq

/-- Receive buffer, registers and driver.  `cbr` is where the device stores next, `calls` are the
activations of `poll`, innermost first; `received` and `delivered` record the frames that were stored
and those that were passed to the callback. -/
structure Rtl where
  rxbuf : ℕ → UInt8
  cbr : ℕ
  capr : ℕ
  cur : ℕ
  calls : List Activation
  received : List (List UInt8)
  delivered : List (List UInt8)

/-- After `init`: the buffer is zeroed, and the reset has set CAPR. -/
def boot : Rtl := ⟨fun _ => 0, 0, 0xfff0, 0, [], [], []⟩

/-- A 16-bit read on a little-endian machine. -/
def word (mem : ℕ → UInt8) (p : ℕ) : ℕ := (mem p).toNat + (mem (p + 1)).toNat * 256

namespace Rtl

variable (s : Rtl)

/-- Where the driver has told the device that it reads next. -/
def tail : ℕ := (s.capr + 16) % ringSize

/-- Bit 0 of the command register: the buffer is empty. -/
def bufe : Bool := decide (s.tail = s.cbr)

/-- The bytes of the ring that the driver has not given back. -/
def pending : ℕ := (s.cbr + ringSize - s.tail) % ringSize

/-- The device stores a packet.  If it does not leave the ring short of full, it is an overrun. -/
def arrive (x : Arrival) : Option Rtl :=
  if s.pending + room x.frame.length < ringSize then
    some { s with
      rxbuf := store s.rxbuf s.cbr x.packet
      cbr := (s.cbr + room x.frame.length) % ringSize
      received := s.received ++ [x.frame] }
  else none

/-- The next step of the innermost activation `a`; `calls` are the others. -/
def tick (a : Activation) (calls : List Activation) : Rtl :=
  match a.pc with
  | .check =>
    if a.guard = 0 ∨ s.bufe then { s with calls := calls }
    else { s with calls := { a with guard := a.guard - 1, pc := .status } :: calls }
  | .status =>
    let off := s.cur % ringSize
    { s with calls := { a with off := off, pc := .length (word s.rxbuf off) } :: calls }
  | .length st =>
    let len := word s.rxbuf (a.off + 2)
    if st % 2 = 0 ∨ len < 4 ∨ len > 1600 then { s with cur := 0, capr := 0xfff0, calls := calls }
    else { s with calls := { a with pc := .copy len [] } :: calls }
  | .copy len pkt =>
    if pkt.length < len - 4 then
      let byte := s.rxbuf ((a.off + 4 + pkt.length) % ringSize)
      { s with calls := { a with pc := .copy len (pkt ++ [byte]) } :: calls }
    else { s with delivered := s.delivered ++ [pkt], calls := { a with pc := .rx len } :: calls }
  | .rx len =>
    let cur := (s.cur + len + 4 + 3) / 4 * 4 % 2 ^ 16
    { s with
      cur := cur
      capr := (cur + 2 ^ 16 - 16) % 2 ^ 16
      calls := { a with pc := .check } :: calls }

/-- `poll` is called by the kernel while it is not active, and by its callback. -/
def callable : Bool :=
  match s.calls with
  | [] => true
  | a :: _ =>
    match a.pc with
    | .rx _ => true
    | _ => false

end Rtl

inductive Event where
  | arrive (x : Arrival)
  | call
  | tick

/-- One step, if it is possible. -/
def step (s : Rtl) : Event → Option Rtl
  | .arrive x => s.arrive x
  | .call => if s.callable then some { s with calls := ⟨32, 0, .check⟩ :: s.calls } else none
  | .tick =>
    match s.calls with
    | [] => none
    | a :: calls => some (s.tick a calls)

/-- The runs without overrun. -/
def run (events : List Event) (s : Rtl) : Option Rtl := events.foldlM step s

theorem run_append (xs ys : List Event) (s : Rtl) : run (xs ++ ys) s = (run xs s).bind (run ys) :=
  List.foldlM_append

theorem run_cons (e : Event) (es : List Event) (s : Rtl) : run (e :: es) s = (step s e).bind (run es) :=
  List.foldlM_cons

/-! ## What the ring shows -/

/-- A frame that was stored, with the bytes that the ring shows from its header to its aligned end. -/
structure Entry where
  frame : List UInt8
  shown : List UInt8

/-- The frame as it is read modulo 8192. -/
def Entry.seen (e : Entry) : List UInt8 := (e.shown.drop 4).take e.frame.length

/-- The header says a good frame of this length. -/
structure Entry.Good (e : Entry) : Prop where
  frame_ok : 14 ≤ e.frame.length ∧ e.frame.length ≤ 1514
  room : e.shown.length = room e.frame.length
  status : word (fun i => e.shown.getD i 0) 0 % 2 = 1
  length : word (fun i => e.shown.getD i 0) 2 = e.frame.length + 4

/-- What lies behind the end of the ring is what the start of the ring holds. -/
def Rtl.Fits (s : Rtl) (frame : List UInt8) : Prop :=
  ∀ i < frame.length, ringSize ≤ s.cbr + 4 + i →
    frame[i]? = some (s.rxbuf (s.cbr + 4 + i - ringSize))

/-- The entry of a packet that arrives. -/
def Rtl.entry (s : Rtl) (x : Arrival) : Entry :=
  ⟨x.frame, (List.range (room x.frame.length)).map fun j =>
    store s.rxbuf s.cbr x.packet ((s.cbr + j) % ringSize)⟩

theorem room_spec (n : ℕ) : room n % 4 = 0 ∧ n + 8 ≤ room n ∧ room n ≤ n + 11 := by
  unfold room
  omega

theorem word_le16 {mem : ℕ → UInt8} {p v : ℕ} (h : [mem p, mem (p + 1)] = le16 v) (hv : v < 2 ^ 16) :
    word mem p = v := by
  simp only [le16, List.cons.injEq, and_true] at h
  rw [word, h.1, h.2, UInt8.toNat_ofNat', UInt8.toNat_ofNat']
  omega

section

variable {s : Rtl} {x : Arrival}

theorem store_at {mem : ℕ → UInt8} {p i : ℕ} {bytes : List UInt8} (hi : i < bytes.length) :
    store mem p bytes (p + i) = bytes[i] := by
  rw [store, if_pos (Nat.le_add_right p i), Nat.add_sub_cancel_left, List.getD_eq_getElem _ _ hi]

theorem store_below {mem : ℕ → UInt8} {p i : ℕ} {bytes : List UInt8} (hi : i < p) :
    store mem p bytes i = mem i := by
  rw [store, if_neg (by omega)]

theorem store_above {mem : ℕ → UInt8} {p i : ℕ} {bytes : List UInt8} (hi : p + bytes.length ≤ i) :
    store mem p bytes i = mem i := by
  rw [store, if_pos (by omega), List.getD_eq_default _ _ (by omega)]

theorem Arrival.packet_length (x : Arrival) : x.packet.length = x.frame.length + 8 := by
  simp only [Arrival.packet, le16, List.length_append, List.length_cons, List.length_nil, x.crc_ok]
  omega

theorem Arrival.packet_frame (x : Arrival) {i : ℕ} (hi : i < x.frame.length) :
    x.packet[4 + i]? = some x.frame[i] := by
  have hhead : (le16 x.status ++ le16 (x.frame.length + 4)).length = 4 := rfl
  rw [Arrival.packet, List.append_assoc, List.getElem?_append_right (by omega), hhead,
    Nat.add_sub_cancel_left, List.getElem?_append_left hi, List.getElem?_eq_getElem hi]

theorem entry_length (s : Rtl) (x : Arrival) : (s.entry x).shown.length = room x.frame.length := by
  simp [Rtl.entry]

theorem entry_getElem? (s : Rtl) (x : Arrival) {j : ℕ} (hj : j < room x.frame.length) :
    (s.entry x).shown[j]? = some (store s.rxbuf s.cbr x.packet ((s.cbr + j) % ringSize)) := by
  simp [Rtl.entry, hj]

/-- The header is not split, and it is the one of the packet. -/
theorem entry_header (hcbr : s.cbr < ringSize) (halign : s.cbr % 4 = 0) {j : ℕ} (hj : j < 4) :
    (s.entry x).shown[j]? = x.packet[j]? := by
  have hroom := (room_spec x.frame.length).2.1
  have hlen := x.packet_length
  have hnowrap : (s.cbr + j) % ringSize = s.cbr + j := by
    refine Nat.mod_eq_of_lt ?_
    unfold ringSize at hcbr ⊢
    omega
  rw [entry_getElem? s x (by omega), hnowrap, store_at (by omega), List.getElem?_eq_getElem (by omega)]

theorem entry_good (hcbr : s.cbr < ringSize) (halign : s.cbr % 4 = 0) : (s.entry x).Good := by
  have hbyte : ∀ {j : ℕ}, j < 4 → (s.entry x).shown.getD j 0 = x.packet.getD j 0 := by
    intro j hj
    rw [List.getD_eq_getElem?_getD, List.getD_eq_getElem?_getD, entry_header hcbr halign hj]
  have hstatus : word (fun i => (s.entry x).shown.getD i 0) 0 = x.status := by
    refine word_le16 ?_ x.status_ok.2
    show [(s.entry x).shown.getD 0 0, (s.entry x).shown.getD 1 0] = le16 x.status
    rw [hbyte (by omega), hbyte (by omega)]
    rfl
  have hlength : word (fun i => (s.entry x).shown.getD i 0) 2 = x.frame.length + 4 := by
    have hframe := x.frame_ok
    refine word_le16 ?_ (by omega)
    show [(s.entry x).shown.getD 2 0, (s.entry x).shown.getD 3 0] = le16 (x.frame.length + 4)
    rw [hbyte (by omega), hbyte (by omega)]
    rfl
  exact ⟨x.frame_ok, entry_length s x, by rw [hstatus]; exact x.status_ok.1, hlength⟩

/-- **A frame is shown as it is exactly if it fits.** -/
theorem entry_seen (hcbr : s.cbr < ringSize) : (s.entry x).seen = x.frame ↔ s.Fits x.frame := by
  have hroom := (room_spec x.frame.length).2.1
  have hframe := x.frame_ok
  have hlen := x.packet_length
  have hseen : ∀ i < x.frame.length, (s.entry x).seen[i]? =
      some (store s.rxbuf s.cbr x.packet ((s.cbr + 4 + i) % ringSize)) := by
    intro i hi
    have hi' : i < (s.entry x).frame.length := hi
    rw [Entry.seen, List.getElem?_take_of_lt hi', List.getElem?_drop, entry_getElem? s x (by omega),
      Nat.add_assoc]
  have hinside : ∀ i < x.frame.length, s.cbr + 4 + i < ringSize →
      store s.rxbuf s.cbr x.packet ((s.cbr + 4 + i) % ringSize) = x.frame[i]?.getD 0 := by
    intro i hi hend
    rw [Nat.mod_eq_of_lt hend, Nat.add_assoc, store_at (by omega), List.getElem?_eq_getElem hi]
    exact Option.some.inj ((List.getElem?_eq_getElem (by omega)).symm.trans (x.packet_frame hi))
  have hbehind : ∀ i < x.frame.length, ringSize ≤ s.cbr + 4 + i →
      store s.rxbuf s.cbr x.packet ((s.cbr + 4 + i) % ringSize) =
        s.rxbuf (s.cbr + 4 + i - ringSize) := by
    intro i hi hend
    unfold ringSize at hcbr hend ⊢
    rw [Nat.mod_eq_sub_mod hend, Nat.mod_eq_of_lt (by omega), store_below (by omega)]
  constructor
  · intro heq i hi hend
    rw [← hbehind i hi hend, ← hseen i hi, heq]
  · intro hfits
    refine List.ext_getElem? fun i => ?_
    rcases Nat.lt_or_ge i x.frame.length with hi | hi
    · rw [hseen i hi]
      rcases Nat.lt_or_ge (s.cbr + 4 + i) ringSize with hend | hend
      · rw [hinside i hi hend, List.getElem?_eq_getElem hi]
        rfl
      · rw [hbehind i hi hend, hfits i hi hend]
    · have hshort : (s.entry x).seen.length ≤ x.frame.length := by
        rw [Entry.seen, List.length_take]
        exact Nat.min_le_left _ _
      rw [List.getElem?_eq_none (by omega), List.getElem?_eq_none hi]

end

/-! ## The ring against the history -/

/-- All bytes that the ring has shown, from header to header. -/
def shownBytes (log : List Entry) : List UInt8 := log.flatMap Entry.shown

theorem shownBytes_take_succ {log : List Entry} {m : ℕ} {e : Entry} (he : log[m]? = some e) :
    shownBytes (log.take (m + 1)) = shownBytes (log.take m) ++ e.shown := by
  rw [shownBytes, List.take_add_one, he, List.flatMap_append]
  simp [shownBytes]

theorem shownBytes_split {log : List Entry} {m : ℕ} {e : Entry} (he : log[m]? = some e) :
    shownBytes log = shownBytes (log.take m) ++ (e.shown ++ shownBytes (log.drop (m + 1))) := by
  rw [← List.append_assoc, ← shownBytes_take_succ he, shownBytes, shownBytes, shownBytes,
    ← List.flatMap_append, List.take_append_drop]

theorem shownBytes_aligned {log : List Entry} (h : ∀ e ∈ log, e.Good) :
    (shownBytes log).length % 4 = 0 := by
  induction log with
  | nil => rfl
  | cons e log ih =>
    obtain ⟨he, hrest⟩ := List.forall_mem_cons.mp h
    have hroom := (room_spec e.frame.length).1
    have hlen := he.room
    have htail := ih hrest
    rw [shownBytes, List.flatMap_cons, List.length_append]
    rw [shownBytes] at htail
    omega

theorem Entry.Good.pos {e : Entry} (h : e.Good) : 22 ≤ e.shown.length := by
  have hroom := (room_spec e.frame.length).2.1
  have hframe := h.frame_ok
  rw [h.room]
  omega

/-- The first `m` frames of the log have been given back to the device. -/
structure Ready (s : Rtl) (log : List Entry) (m : ℕ) : Prop where
  received : s.received = log.map Entry.frame
  good : ∀ e ∈ log, e.Good
  taken : m ≤ log.length
  ring : Ring.Holds ringSize s.rxbuf s.cbr s.tail (shownBytes log) (shownBytes (log.take m)).length
  cur : s.cur < 2 ^ 16
  capr : s.capr = (s.cur + 2 ^ 16 - 16) % 2 ^ 16

section

variable {s : Rtl} {log : List Entry} {m : ℕ} {e : Entry}

theorem Ready.tail (h : Ready s log m) : s.tail = s.cur % ringSize := by
  have hcapr := h.capr
  unfold Rtl.tail ringSize
  omega

theorem Ready.cur_aligned (h : Ready s log m) : s.cur % 4 = 0 := by
  have htail := h.ring.tail_eq
  have haligned : (shownBytes (log.take m)).length % 4 = 0 :=
    shownBytes_aligned fun e he => h.good e (List.mem_of_mem_take he)
  rw [h.tail] at htail
  unfold ringSize at htail
  omega

theorem Ready.cbr (h : Ready s log m) : s.cbr < ringSize ∧ s.cbr % 4 = 0 := by
  have hhead := h.ring.head_eq
  have haligned := shownBytes_aligned h.good
  refine ⟨h.ring.head_lt, ?_⟩
  unfold ringSize at hhead
  omega

theorem Ready.pending (h : Ready s log m) :
    s.pending = (shownBytes log).length - (shownBytes (log.take m)).length := by
  have hhead := h.ring.head_eq
  have htail := h.ring.tail_eq
  have hle := h.ring.released_le
  have hfits := h.ring.fits
  unfold Rtl.pending
  unfold ringSize at hhead htail hfits ⊢
  omega

/-- **The buffer is empty exactly if every frame was given back.** -/
theorem Ready.bufe_iff (h : Ready s log m) : s.bufe = true ↔ m = log.length := by
  rw [Rtl.bufe, decide_eq_true_iff, h.ring.empty_iff]
  constructor
  · intro hall
    by_contra hne
    have hlt : m < log.length := Nat.lt_of_le_of_ne h.taken hne
    have he := List.getElem?_eq_getElem hlt
    have hpos := (h.good _ (List.getElem_mem hlt)).pos
    have hlen := congrArg List.length (shownBytes_split he)
    simp only [List.length_append] at hlen
    omega
  · rintro rfl
    rw [List.take_length]

/-- **The next frame stands at `cur`**, as the ring shows it. -/
theorem Ready.byte (h : Ready s log m) (he : log[m]? = some e) {j : ℕ} (hj : j < e.shown.length) :
    s.rxbuf ((s.cur % ringSize + j) % ringSize) = e.shown[j] := by
  have hsplit := shownBytes_split he
  have hlen := congrArg List.length hsplit
  simp only [List.length_append] at hlen
  have hslot := h.ring.slot ((shownBytes (log.take m)).length + j) (Nat.le_add_right _ j) (by omega)
  have hindex : (s.cur % ringSize + j) % ringSize =
      ((shownBytes (log.take m)).length + j) % ringSize := by
    rw [← h.tail, h.ring.tail_eq, Nat.mod_add_mod]
  rw [hindex, hslot]
  simp only [hsplit]
  rw [List.getElem_append_right (Nat.le_add_right _ j)]
  simp only [Nat.add_sub_cancel_left]
  rw [List.getElem_append_left hj]

theorem Ready.word (h : Ready s log m) (he : log[m]? = some e) {j : ℕ} (hj : j + 1 < 4) :
    word s.rxbuf (s.cur % ringSize + j) = word (fun i => e.shown.getD i 0) j := by
  have hpos := (h.good e (List.mem_of_getElem? he)).pos
  have haligned := h.cur_aligned
  have hbyte : ∀ i < 4, s.rxbuf (s.cur % ringSize + i) = e.shown.getD i 0 := by
    intro i hi
    have hnowrap : (s.cur % ringSize + i) % ringSize = s.cur % ringSize + i := by
      unfold ringSize
      omega
    rw [List.getD_eq_getElem _ _ (by omega), ← h.byte he (by omega), hnowrap]
  rw [Rtl8139.word, Rtl8139.word, Nat.add_assoc, hbyte j (by omega), hbyte (j + 1) hj]

/-- Where the activations are and what they have passed on does not matter. -/
theorem Ready.anywhere (h : Ready s log m) (calls : List Activation) (delivered : List (List UInt8)) :
    Ready { s with calls := calls, delivered := delivered } log m :=
  ⟨h.received, h.good, h.taken, h.ring, h.cur, h.capr⟩

/-- A packet arrives. -/
theorem Ready.arrive (h : Ready s log m) {x : Arrival} {t : Rtl} (ht : s.arrive x = some t) :
    Ready t (log ++ [s.entry x]) m := by
  unfold Rtl.arrive at ht
  split at ht
  swap
  · simp at ht
  rename_i hroom
  obtain rfl := Option.some.inj ht
  obtain ⟨hcbr, halign⟩ := h.cbr
  have hlen := entry_length s x
  have htake : (log ++ [s.entry x]).take m = log.take m := List.take_append_of_le_length h.taken
  have hbytes : shownBytes (log ++ [s.entry x]) = shownBytes log ++ (s.entry x).shown := by
    simp [shownBytes]
  have hfree : (shownBytes log).length + (s.entry x).shown.length <
      (shownBytes (log.take m)).length + ringSize := by
    have hpending := h.pending
    have hle := h.ring.released_le
    omega
  refine ⟨?_, ?_, ?_, ?_, h.cur, h.capr⟩
  · rw [List.map_append, ← h.received]
    rfl
  · intro e he
    obtain hmem | hmem := List.mem_append.mp he
    · exact h.good e hmem
    · rw [List.mem_singleton.mp hmem]
      exact entry_good hcbr halign
  · rw [List.length_append]
    exact Nat.le_add_right_of_le h.taken
  · rw [htake, hbytes, ← hlen]
    refine h.ring.extend hfree ?_ ?_
    · intro j hj
      have hshown := entry_getElem? s x (by rw [← hlen]; exact hj)
      rw [List.getElem?_eq_getElem hj] at hshown
      have hindex : (s.cbr + j) % ringSize = ((shownBytes log).length + j) % ringSize := by
        rw [h.ring.head_eq, Nat.mod_add_mod]
      rw [Option.some.inj hshown, hindex]
    · -- what is pending lies before the packet or behind it
      intro i hi hold
      have hpacket := x.packet_length
      have hspace := (room_spec x.frame.length).2.1
      rcases Nat.lt_or_ge (i % ringSize) s.cbr with hbelow | habove
      · exact store_below hbelow
      · obtain ⟨j, hj⟩ := Nat.exists_eq_add_of_le habove
        have hmod : i % ringSize < ringSize := Nat.mod_lt _ (by decide)
        rw [hj]
        refine store_above ?_
        by_contra hinside
        refine Ring.Holds.wrapped_ne hi hold hfree (by omega : j ≤ (s.entry x).shown.length) ?_
        rw [← Nat.mod_add_mod, ← h.ring.head_eq, ← hj, Nat.mod_mod]

end

end Orion.Netdev.Rtl8139
