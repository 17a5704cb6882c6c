import Orion.Netdev.Pcnet

/-!
# Reception through the PCnet (`kernel/netdev_pcnet.c`)

The device stores what arrives in the buffer of its next descriptor, byte by byte, and hands the
descriptor over with its last store.  `poll` takes up to eight descriptors that are the driver's; the
callback reads the frame in the buffer, and then the descriptor goes back to the device.  Device and
`poll` take their steps in any order.

A callback may call `poll` again: an answer to an echo request resolves its next hop, and that polls.
The descriptor is given back behind the callback, so the inner `poll` begins with the frame that the
outer one is about to finish.

* `Receive.receive_queue` — without inner calls every good frame is delivered once, whole and in order;
* `Receive.poll_empties` — one call of `poll` delivers everything that is there;
* `Receive.nested_again` — an inner call comes to the callback for the same frame, to any depth.
-/

namespace Orion.Netdev.Pcnet

open Orion.Lib

def bufSize : ℕ := 2048

/-! ## The model -/

/-- The length that the driver takes from `mcnt`. -/
def length (mcnt : UInt32) : ℕ := (mcnt &&& 0x0fff).toNat

/-- The test of `poll`: no error, begin and end of a packet, and a length that makes sense. -/
def good (st : UInt16) (len : ℕ) : Bool :=
  st &&& 0x4000 == 0 && st &&& 0x0300 == 0x0300 && decide (18 ≤ len) && decide (len ≤ bufSize)

/-- What the device stores in one descriptor.  If status and length pass the test of `poll`, the length
is that of the frame with its checksum. -/
structure Arrival where
  status : UInt16
  mcnt : UInt32
  bytes : List UInt8
  status_ok : status &&& 0x8000 = 0
  fits : bytes.length ≤ byteCount (bcnt bufSize)
  whole : good status (length mcnt) = true → length mcnt = bytes.length

/-- The frame without its checksum, if it is a good one. -/
def Arrival.payload (x : Arrival) : Option (List UInt8) :=
  if good x.status (length x.mcnt) then some (x.bytes.take (x.bytes.length - 4)) else none

/-- What an activation of `poll` does next.  `slot` is its pointer `d`; in `rx` its callback has read
`seen` in the buffer `buf`. -/
inductive PollPc where
  | check
  | status (slot : ℕ)
  | mcnt (slot : ℕ) (st : UInt16)
  | test (slot : ℕ) (st : UInt16) (len : ℕ)
  | rx (slot buf len : ℕ) (seen : List UInt8)
  | clear (slot : ℕ)
  | give (slot : ℕ)
  | advance
  deriving Repr, DecidableEq

structure Activation where
  guard : ℕ
  pc : PollPc
  deriving Repr, DecidableEq

/-- What the device does. -/
inductive Store where
  | waiting
  | bytes (x : Arrival) (k : ℕ)
  | mcnt (x : Arrival)
  | status (x : Arrival)

/-- The driver's side and the device.  `calls` are the activations of `poll`, innermost first, and `next`
is the device's index; `stored` records what the device has handed over, `delivered` what the callbacks
have read. -/
structure Receive where
  up : Bool
  rx : ℕ → Desc
  rxb : ℕ → ℕ → UInt8
  rxi : ℕ
  calls : List Activation
  next : ℕ
  store : Store
  stored : List Arrival
  delivered : List (List UInt8)

namespace Receive

/-- After `init`, which gives all descriptors to the device. -/
def boot : Receive :=
  ⟨true, fun i => ⟨some i, bcnt bufSize, 0x8000, 0⟩, fun _ _ => 0, 0, [], 0, .waiting, [], []⟩

/-- A store to a descriptor. -/
def setDesc (s : Receive) (slot : ℕ) (d : Desc) : Receive :=
  { s with rx := Function.update s.rx slot d }

/-- The next step of the innermost activation `a`; `calls` are the others. -/
def tick (s : Receive) (a : Activation) (calls : List Activation) : Receive :=
  match a.pc with
  | .check =>
    if a.guard < N ∧ (s.rx s.rxi).owned = false then
      { s with calls := { a with pc := .status s.rxi } :: calls }
    else { s with calls := calls }
  | .status slot => { s with calls := { a with pc := .mcnt slot (s.rx slot).status } :: calls }
  | .mcnt slot st =>
    { s with calls := { a with pc := .test slot st (length (s.rx slot).mcnt) } :: calls }
  | .test slot st len =>
    if good st len then { s with calls := { a with pc := .rx slot s.rxi len [] } :: calls }
    else { s with calls := { a with pc := .clear slot } :: calls }
  | .rx slot buf len seen =>
    if seen.length < len - 4 then
      { s with calls := { a with pc := .rx slot buf len (seen ++ [s.rxb buf seen.length]) } :: calls }
    else
      { s with
        calls := { a with pc := .clear slot } :: calls
        delivered := s.delivered ++ [seen] }
  | .clear slot =>
    { s.setDesc slot { s.rx slot with mcnt := 0 } with calls := { a with pc := .give slot } :: calls }
  | .give slot =>
    { s.setDesc slot { s.rx slot with status := 0x8000 } with
      calls := { a with pc := .advance } :: calls }
  | .advance => { s with rxi := (s.rxi + 1) % N, calls := ⟨a.guard + 1, .check⟩ :: calls }

def cpu (s : Receive) : Receive :=
  match s.calls with
  | [] => s
  | a :: calls => s.tick a calls

/-- The kernel calls `poll`. -/
def poll (s : Receive) : Receive :=
  if s.up = true ∧ s.calls = [] then { s with calls := [⟨0, .check⟩] } else s

/-- The callback calls `poll`. -/
def nested (s : Receive) : Receive :=
  match s.calls with
  | ⟨_, .rx _ _ _ _⟩ :: _ => { s with calls := ⟨0, .check⟩ :: s.calls }
  | _ => s

/-- Something arrives.  While the next descriptor is not the device's, it is lost. -/
def arrive (x : Arrival) (s : Receive) : Receive :=
  match s.store with
  | .waiting => if (s.rx s.next).owned then { s with store := .bytes x 0 } else s
  | _ => s

/-- A byte goes to the buffer of the descriptor `d`. -/
def setByte (s : Receive) (d : Desc) (k : ℕ) (b : UInt8) : Receive :=
  match d.addr with
  | none => s
  | some buf => { s with rxb := Function.update s.rxb buf (Function.update (s.rxb buf) k b) }

/-- The next step of the device. -/
def device (s : Receive) : Receive :=
  match s.store with
  | .waiting => s
  | .bytes x k =>
    if h : k < x.bytes.length then
      { s.setByte (s.rx s.next) k x.bytes[k] with store := .bytes x (k + 1) }
    else { s with store := .mcnt x }
  | .mcnt x =>
    { s.setDesc s.next { s.rx s.next with mcnt := x.mcnt } with store := .status x }
  | .status x =>
    { s.setDesc s.next { s.rx s.next with status := x.status } with
      next := (s.next + 1) % N
      store := .waiting
      stored := s.stored ++ [x] }

inductive Event where
  | poll
  | nested
  | cpu
  | arrive (x : Arrival)
  | device

def step (s : Receive) : Event → Receive
  | .poll => s.poll
  | .nested => s.nested
  | .cpu => s.cpu
  | .arrive x => s.arrive x
  | .device => s.device

def run (es : List Event) (s : Receive) : Receive := es.foldl step s

/-! ## The ring of descriptors, without inner calls -/

/-- The descriptor that was delivered and is not given back yet. -/
def spent (s : Receive) : Option ℕ :=
  match s.calls with
  | [⟨_, .clear slot⟩] | [⟨_, .give slot⟩] => some slot
  | _ => none

/-- The descriptor that is delivered next. -/
def drain (s : Receive) : ℕ :=
  match s.calls with
  | [⟨_, .clear _⟩] | [⟨_, .give _⟩] | [⟨_, .advance⟩] => (s.rxi + 1) % N
  | _ => s.rxi

/-- The descriptors that are to be delivered. -/
def held (s : Receive) (j : ℕ) : Bool := !(s.rx j).owned && decide (s.spent ≠ some j)

/-- What `poll` would deliver from the descriptor `j`. -/
def payloadAt (s : Receive) (j : ℕ) : Option (List UInt8) :=
  if good (s.rx j).status (length (s.rx j).mcnt) then
    some ((List.range (length (s.rx j).mcnt - 4)).map (s.rxb j))
  else none

/-- The activation is busy with the next descriptor, which is the driver's. -/
def Busy (s : Receive) (slot : ℕ) : Prop := slot = s.rxi ∧ (s.rx slot).owned = false

/-- What the only activation of `poll` has done, by what it does next. -/
def Polling (s : Receive) : List Activation → Prop
  | [] => True
  | [a] =>
    match a.pc with
    | .check | .advance => True
    | .status slot => s.Busy slot
    | .mcnt slot st => s.Busy slot ∧ st = (s.rx slot).status
    | .test slot st len => s.Busy slot ∧ st = (s.rx slot).status ∧ len = length (s.rx slot).mcnt
    | .rx slot buf len seen =>
      s.Busy slot ∧ buf = slot ∧ len = length (s.rx slot).mcnt ∧
        good (s.rx slot).status len = true ∧ seen.length ≤ len - 4 ∧
        seen = (List.range seen.length).map (s.rxb slot)
    | .clear slot | .give slot => s.Busy slot
  | _ => False

/-- What the device has stored of an arrival, in the descriptor that it owns. -/
def Storing (s : Receive) : Store → Prop
  | .waiting => True
  | .bytes x k =>
    (s.rx s.next).owned = true ∧ ∀ i, i < k → ∀ h : i < x.bytes.length, s.rxb s.next i = x.bytes[i]
  | .mcnt x =>
    (s.rx s.next).owned = true ∧ ∀ i, ∀ h : i < x.bytes.length, s.rxb s.next i = x.bytes[i]
  | .status x =>
    (s.rx s.next).owned = true ∧ (∀ i, ∀ h : i < x.bytes.length, s.rxb s.next i = x.bytes[i]) ∧
      (s.rx s.next).mcnt = x.mcnt

/-- What holds in every run without inner calls, after `n` descriptors were delivered. -/
structure Inv (s : Receive) (n : ℕ) : Prop where
  ring : Handoff N s.held s.payloadAt s.next s.drain (s.stored.map Arrival.payload) n
  delivered : s.delivered = (s.stored.take n).filterMap Arrival.payload
  addressed : ∀ j, (s.rx j).addr = some j
  polling : s.Polling s.calls
  storing : s.Storing s.store

theorem boot_inv : Inv boot 0 where
  ring := by
    refine Handoff.start fun i => ?_
    have howned : Desc.owned ⟨some i, bcnt bufSize, 0x8000, 0⟩ = true := by
      simp [Desc.owned]
    show (!Desc.owned ⟨some i, bcnt bufSize, 0x8000, 0⟩ && _) = false
    rw [howned]
    rfl
  delivered := rfl
  addressed := fun _ => rfl
  polling := trivial
  storing := trivial

theorem setDesc_self (s : Receive) (slot : ℕ) (d : Desc) : (s.setDesc slot d).rx slot = d :=
  Function.update_self ..

variable {s : Receive} {n : ℕ}

theorem held_iff {j : ℕ} : s.held j = true ↔ (s.rx j).owned = false ∧ s.spent ≠ some j := by
  rw [held, Bool.and_eq_true, Bool.not_eq_true', decide_eq_true_iff]

/-- The descriptor that the device fills is none of those that are to be delivered. -/
theorem held_ne {j : ℕ} (hj : s.held j = true) (howned : (s.rx s.next).owned = true) : j ≠ s.next := by
  rintro rfl
  rw [(held_iff.mp hj).1] at howned
  exact Bool.false_ne_true howned

/-! ### Steps of `poll` -/

/-- A step that only goes on in `poll`. -/
theorem Inv.of_calls (h : Inv s n) {rxi : ℕ} {calls : List Activation}
    (hspent : spent { s with rxi := rxi, calls := calls } = s.spent)
    (hdrain : drain { s with rxi := rxi, calls := calls } = s.drain)
    (hpolling : Polling { s with rxi := rxi, calls := calls } calls) : Inv { s with rxi := rxi, calls := calls } n := by
  have hheld : held { s with rxi := rxi, calls := calls } = s.held := by
    funext j
    rw [held, held, hspent]
  have hring := h.ring
  rw [← hheld, ← hdrain] at hring
  refine ⟨hring, h.delivered, h.addressed, hpolling, ?_⟩
  have hstoring := h.storing
  cases hstore : s.store with
  | waiting => trivial
  | bytes x k | mcnt x | status x =>
    rw [hstore] at hstoring
    exact hstoring

/-- The callback is through with the next descriptor, or `poll` has left it out. -/
theorem Inv.consume (h : Inv s n) {slot guard : ℕ} (hbusy : s.Busy slot) (hspent : s.spent = none)
    (hdrain : s.drain = s.rxi) {delivered : List (List UInt8)}
    (hdelivered : delivered = s.delivered ++ (s.payloadAt slot).toList) :
    Inv { s with calls := [⟨guard, .clear slot⟩], delivered := delivered } (n + 1) := by
  obtain ⟨rfl, howned⟩ := hbusy
  have hheld : held { s with calls := [⟨guard, .clear s.rxi⟩], delivered := delivered }
      = Function.update s.held s.rxi false := by
    funext j
    by_cases hj : j = s.rxi
    · rw [hj, Function.update_self, held]
      exact Bool.and_eq_false_iff.mpr (.inr (decide_eq_false fun hne => hne rfl))
    · rw [Function.update_of_ne hj, held, held, hspent]
      refine congrArg _ (decide_eq_decide.mpr (iff_of_true ?_ nofun))
      exact fun heq => hj (Option.some.inj heq).symm
  have hready : s.held s.rxi = true := held_iff.mpr ⟨howned, hspent ▸ nofun⟩
  have hring := h.ring
  rw [hdrain] at hring
  have hlt : n < (s.stored.map Arrival.payload).length := (hring.full_iff (by decide)).mp hready
  have holdest := hring.oldest hlt
  refine ⟨?_, ?_, h.addressed, ⟨rfl, howned⟩, ?_⟩
  · have htaken := hring.take (by decide) hready
    rw [← hheld] at htaken
    exact htaken
  · rw [List.length_map] at hlt
    rw [List.getElem_map] at holdest
    show delivered = _
    rw [hdelivered, h.delivered, holdest, List.take_succ_eq_append_getElem hlt, List.filterMap_append]
    refine congrArg _ ?_
    cases hx : s.stored[n].payload <;> simp [hx]
  · have hstoring := h.storing
    cases hstore : s.store with
    | waiting => trivial
    | bytes x k | mcnt x | status x =>
      rw [hstore] at hstoring
      exact hstoring

/-- A store of `poll` to the descriptor that it has delivered. -/
theorem Inv.setDesc (h : Inv s n) {slot : ℕ} {d : Desc} {calls : List Activation}
    (hspent : s.spent = some slot) (howned : (s.rx slot).owned = false)
    (haddr : d.addr = (s.rx slot).addr)
    (hkept : d.owned = true ∧ spent { s.setDesc slot d with calls := calls } = none ∨
      d.owned = false ∧ spent { s.setDesc slot d with calls := calls } = some slot)
    (hdrain : drain { s.setDesc slot d with calls := calls } = s.drain)
    (hpolling : Polling { s.setDesc slot d with calls := calls } calls) :
    Inv { s.setDesc slot d with calls := calls } n := by
  have hself := s.setDesc_self slot d
  have hother : ∀ j, j ≠ slot → (s.setDesc slot d).rx j = s.rx j := fun j hj => Function.update_of_ne hj _ _
  have hnot : s.held slot = false := by
    rw [held, hspent]
    exact Bool.and_eq_false_iff.mpr (.inr (decide_eq_false fun hne => hne rfl))
  have hheld : held { s.setDesc slot d with calls := calls } = s.held := by
    funext j
    by_cases hj : j = slot
    · rw [hj, hnot, held]
      refine Bool.and_eq_false_iff.mpr ?_
      rcases hkept with ⟨hd, -⟩ | ⟨-, hstill⟩
      · exact .inl ((congrArg (fun d => !d.owned) hself).trans (congrArg not hd))
      · exact .inr (decide_eq_false fun hne => hne hstill)
    · have hne : some slot ≠ some j := fun heq => hj (Option.some.inj heq).symm
      rw [held, held, hspent, decide_eq_true hne]
      refine (congrArg (fun d => !d.owned && _) (hother j hj)).trans (congrArg _ ?_)
      rcases hkept with ⟨-, hstill⟩ | ⟨-, hstill⟩ <;> rw [hstill]
      · exact decide_eq_true nofun
      · exact decide_eq_true hne
  have hpayload : ∀ j, s.held j = true →
      payloadAt { s.setDesc slot d with calls := calls } j = s.payloadAt j := by
    intro j hj
    have hne : j ≠ slot := by
      rintro rfl
      rw [hnot] at hj
      exact Bool.false_ne_true hj
    show (if good ((s.setDesc slot d).rx j).status (length ((s.setDesc slot d).rx j).mcnt) then _ else _) = _
    rw [hother j hne]
    rfl
  refine ⟨?_, h.delivered, ?_, hpolling, ?_⟩
  · have hring := h.ring.frame hpayload
    rw [← hheld, ← hdrain] at hring
    exact hring
  · intro j
    show ((s.setDesc slot d).rx j).addr = some j
    by_cases hj : j = slot
    · rw [hj, hself, haddr, h.addressed]
    · rw [hother j hj, h.addressed]
  · have hstoring := h.storing
    have hnext : (s.rx s.next).owned = true → (s.setDesc slot d).rx s.next = s.rx s.next := by
      intro hready
      apply hother
      rintro rfl
      rw [howned] at hready
      exact Bool.false_ne_true hready
    show Storing _ s.store
    cases hstore : s.store with
    | waiting => trivial
    | bytes x k | mcnt x =>
      rw [hstore] at hstoring
      exact ⟨(congrArg Desc.owned (hnext hstoring.1)).trans hstoring.1, hstoring.2⟩
    | status x =>
      rw [hstore] at hstoring
      have hrx := hnext hstoring.1
      exact ⟨(congrArg Desc.owned hrx).trans hstoring.1, hstoring.2.1,
        (congrArg Desc.mcnt hrx).trans hstoring.2.2⟩

/-- The number of descriptors that the next step of `poll` is through with. -/
def consumed (s : Receive) : ℕ :=
  match s.calls with
  | [⟨_, .test _ st len⟩] => if good st len then 0 else 1
  | [⟨_, .rx _ _ len seen⟩] => if seen.length < len - 4 then 0 else 1
  | _ => 0

theorem cpu_inv (h : Inv s n) : Inv s.cpu (n + s.consumed) := by
  have hpolling := h.polling
  unfold cpu consumed
  cases hcalls : s.calls with
  | nil => exact h
  | cons a calls =>
    rw [hcalls] at hpolling
    cases calls with
    | cons b calls => exact absurd hpolling id
    | nil =>
      obtain ⟨guard, pc⟩ := a
      have hspent : s.spent = spent { s with calls := [⟨guard, pc⟩] } := by rw [← hcalls]
      have hdrain : s.drain = drain { s with calls := [⟨guard, pc⟩] } := by rw [← hcalls]
      unfold tick
      cases pc with
      | check =>
        simp only
        split
        · rename_i hnext
          exact h.of_calls hspent.symm hdrain.symm ⟨rfl, hnext.2⟩
        · exact h.of_calls hspent.symm hdrain.symm trivial
      | status slot => exact h.of_calls hspent.symm hdrain.symm ⟨hpolling, rfl⟩
      | mcnt slot st => exact h.of_calls hspent.symm hdrain.symm ⟨hpolling.1, hpolling.2, rfl⟩
      | test slot st len =>
        obtain ⟨hbusy, hst, hlen⟩ := hpolling
        simp only
        split
        · rename_i hgood
          rw [hst] at hgood
          exact h.of_calls hspent.symm hdrain.symm ⟨hbusy, hbusy.1.symm, hlen, hgood, Nat.zero_le _, rfl⟩
        · rename_i hbad
          refine h.consume hbusy hspent hdrain ?_
          rw [payloadAt, ← hst, ← hlen, if_neg hbad]
          exact (List.append_nil _).symm
      | rx slot buf len seen =>
        obtain ⟨hbusy, rfl, hlen, hgood, hle, hseen⟩ := hpolling
        simp only
        split
        · rename_i hlt
          refine h.of_calls hspent.symm hdrain.symm ⟨hbusy, rfl, hlen, hgood, ?_, ?_⟩
          · rw [List.length_append]
            exact hlt
          · rw [List.length_append, List.length_singleton, List.range_succ, List.map_append, ← hseen]
            rfl
        · rename_i hge
          refine h.consume hbusy hspent hdrain ?_
          rw [payloadAt, ← hlen, if_pos hgood, (by omega : len - 4 = seen.length), ← hseen]
          rfl
      | clear slot =>
        have hkept : ((s.setDesc slot { s.rx slot with mcnt := 0 }).rx slot).owned = (s.rx slot).owned := by
          rw [setDesc_self]
          rfl
        exact h.setDesc hspent hpolling.2 rfl (.inr ⟨hpolling.2, rfl⟩) hdrain.symm
          ⟨hpolling.1, hkept.trans hpolling.2⟩
      | give slot =>
        exact h.setDesc hspent hpolling.2 rfl (.inl ⟨by simp [Desc.owned], rfl⟩) hdrain.symm trivial
      | advance => exact h.of_calls hspent.symm hdrain.symm trivial

/-! ### Steps of the device -/

/-- What the device writes is not what `poll` looks at. -/
theorem Polling.of_device {t : Receive} {calls : List Activation} (hpolling : s.Polling calls)
    (hrxi : t.rxi = s.rxi)
    (hkept : ∀ j, (s.rx j).owned = false → t.rx j = s.rx j ∧ t.rxb j = s.rxb j) : t.Polling calls := by
  have hbusy : ∀ {slot}, s.Busy slot → t.Busy slot := by
    intro slot hb
    exact ⟨hb.1.trans hrxi.symm, (congrArg Desc.owned (hkept slot hb.2).1).trans hb.2⟩
  rcases calls with _ | ⟨⟨guard, pc⟩, _ | ⟨b, calls⟩⟩
  · trivial
  · cases pc with
    | check | advance => trivial
    | status slot | clear slot | give slot => exact hbusy hpolling
    | mcnt slot st =>
      obtain ⟨hb, hst⟩ := hpolling
      refine ⟨hbusy hb, ?_⟩
      rw [(hkept slot hb.2).1, hst]
    | test slot st len =>
      obtain ⟨hb, hst, hlen⟩ := hpolling
      refine ⟨hbusy hb, ?_⟩
      rw [(hkept slot hb.2).1]
      exact ⟨hst, hlen⟩
    | rx slot buf len seen =>
      obtain ⟨hb, hbuf, hrest⟩ := hpolling
      refine ⟨hbusy hb, hbuf, ?_⟩
      rw [(hkept slot hb.2).1, (hkept slot hb.2).2]
      exact hrest
  · exact absurd hpolling id

/-- What the device does in a descriptor that it owns and in its buffer. -/
theorem Inv.of_device (h : Inv s n) (hready : (s.rx s.next).owned = true) {t : Receive}
    (hrx : ∀ j, j ≠ s.next → t.rx j = s.rx j) (hown : (t.rx s.next).owned = true)
    (haddr : (t.rx s.next).addr = some s.next) (hrxb : ∀ j, j ≠ s.next → t.rxb j = s.rxb j)
    (hrxi : t.rxi = s.rxi) (hcalls : t.calls = s.calls) (hnext : t.next = s.next)
    (hstored : t.stored = s.stored) (hdelivered : t.delivered = s.delivered)
    (hstoring : t.Storing t.store) : Inv t n := by
  have hspent : t.spent = s.spent := by rw [spent, spent, hcalls]
  have hdrain : t.drain = s.drain := by rw [drain, drain, hcalls, hrxi]
  have hheld : t.held = s.held := by
    funext j
    rw [held, held, hspent]
    by_cases hj : j = s.next
    · rw [hj, hown, hready]
    · rw [hrx j hj]
  refine ⟨?_, ?_, ?_, ?_, hstoring⟩
  · rw [hheld, hnext, hdrain, hstored]
    refine h.ring.frame fun j hj => ?_
    have hne := held_ne hj hready
    rw [payloadAt, payloadAt, hrx j hne, hrxb j hne]
  · rw [hdelivered, hstored, h.delivered]
  · intro j
    by_cases hj : j = s.next
    · rw [hj, haddr]
    · rw [hrx j hj, h.addressed]
  · rw [hcalls]
    refine h.polling.of_device hrxi fun j hj => ?_
    have hne : j ≠ s.next := by
      rintro rfl
      rw [hready] at hj
      exact Bool.false_ne_true hj.symm
    exact ⟨hrx j hne, hrxb j hne⟩

/-- The buffer and the descriptor hold what was stored. -/
theorem payloadAt_eq {j : ℕ} {x : Arrival} (hbytes : ∀ i, ∀ h : i < x.bytes.length, s.rxb j i = x.bytes[i])
    (hmcnt : (s.rx j).mcnt = x.mcnt) (hstatus : (s.rx j).status = x.status) :
    s.payloadAt j = x.payload := by
  rw [payloadAt, Arrival.payload, hmcnt, hstatus]
  split
  · rename_i hgood
    rw [x.whole hgood]
    refine congrArg some ?_
    apply List.ext_getElem
    · rw [List.length_map, List.length_range, List.length_take]
      omega
    · intro i hi hi'
      rw [List.length_take] at hi'
      rw [List.getElem_map, List.getElem_range, List.getElem_take]
      exact hbytes i (by omega)
  · rfl

/-- The last store of the device hands the descriptor over. -/
theorem status_inv (h : Inv s n) {x : Arrival} (hready : (s.rx s.next).owned = true)
    (hbytes : ∀ i, ∀ h : i < x.bytes.length, s.rxb s.next i = x.bytes[i])
    (hmcnt : (s.rx s.next).mcnt = x.mcnt) :
    Inv { s.setDesc s.next { s.rx s.next with status := x.status } with
      next := (s.next + 1) % N
      store := .waiting
      stored := s.stored ++ [x] } n := by
  have hself := s.setDesc_self s.next { s.rx s.next with status := x.status }
  have hother : ∀ j, j ≠ s.next → (s.setDesc s.next { s.rx s.next with status := x.status }).rx j = s.rx j :=
    fun j hj => Function.update_of_ne hj _ _
  have hnotowned : ((s.setDesc s.next { s.rx s.next with status := x.status }).rx s.next).owned = false := by
    rw [hself]
    show (x.status &&& 0x8000 != 0) = false
    rw [x.status_ok]
    rfl
  have hfree : s.held s.next = false := by
    rw [held, hready]
    rfl
  -- the descriptor that is not given back yet is not the device's
  have hspent : s.spent ≠ some s.next := by
    intro heq
    have hpolling := h.polling
    unfold spent at heq
    split at heq
    · rename_i hcalls
      rw [hcalls] at hpolling
      rw [← Option.some.inj heq, hpolling.2] at hready
      exact Bool.false_ne_true hready
    · rename_i hcalls
      rw [hcalls] at hpolling
      rw [← Option.some.inj heq, hpolling.2] at hready
      exact Bool.false_ne_true hready
    · exact absurd heq nofun
  have hheld : held { s.setDesc s.next { s.rx s.next with status := x.status } with
      next := (s.next + 1) % N, store := .waiting, stored := s.stored ++ [x] }
      = Function.update s.held s.next true := by
    funext j
    by_cases hj : j = s.next
    · rw [hj, Function.update_self]
      exact held_iff.mpr ⟨hnotowned, hspent⟩
    · rw [Function.update_of_ne hj]
      exact congrArg (fun d => !d.owned && _) (hother j hj)
  have hpayload : ∀ j, s.held j = true →
      payloadAt (s.setDesc s.next { s.rx s.next with status := x.status }) j = s.payloadAt j := by
    intro j hj
    have hne := held_ne hj hready
    rw [payloadAt, payloadAt, hother j hne]
    rfl
  refine ⟨?_, ?_, ?_, ?_, trivial⟩
  · have hgiven := (h.ring.frame hpayload).give (by decide) hfree
      (payloadAt_eq (s := s.setDesc s.next { s.rx s.next with status := x.status }) hbytes
        ((congrArg Desc.mcnt hself).trans hmcnt) (congrArg Desc.status hself))
    have hmap : (s.stored ++ [x]).map Arrival.payload = s.stored.map Arrival.payload ++ [x.payload] :=
      List.map_append
    rw [← hheld, ← hmap] at hgiven
    exact hgiven
  · have hle := h.ring.taken_le
    rw [List.length_map] at hle
    show s.delivered = ((s.stored ++ [x]).take n).filterMap Arrival.payload
    rw [List.take_append_of_le_length hle, h.delivered]
  · intro j
    show ((s.setDesc s.next { s.rx s.next with status := x.status }).rx j).addr = some j
    by_cases hj : j = s.next
    · rw [hj, hself]
      exact h.addressed _
    · rw [hother j hj, h.addressed]
  · refine h.polling.of_device rfl fun j hj => ⟨hother j ?_, rfl⟩
    rintro rfl
    rw [hready] at hj
    exact Bool.false_ne_true hj.symm

theorem arrive_inv (h : Inv s n) (x : Arrival) : Inv (s.arrive x) n := by
  unfold arrive
  split
  · split
    · rename_i hready
      exact ⟨h.ring, h.delivered, h.addressed, h.polling, hready, fun i hi => absurd hi (Nat.not_lt_zero i)⟩
    · exact h
  · exact h

theorem device_inv (h : Inv s n) : Inv s.device n := by
  have hstoring := h.storing
  unfold device
  cases hstore : s.store with
  | waiting => exact h
  | bytes x k =>
    rw [hstore] at hstoring
    obtain ⟨hready, hbytes⟩ := hstoring
    simp only
    split
    · rename_i hk
      unfold setByte
      rw [h.addressed s.next]
      refine h.of_device hready (fun _ _ => rfl) hready (h.addressed _)
        (fun j hj => Function.update_of_ne hj _ _) rfl rfl rfl rfl rfl ⟨hready, ?_⟩
      intro i hi hlt
      show Function.update s.rxb s.next (Function.update (s.rxb s.next) k x.bytes[k]) s.next i = _
      rw [Function.update_self]
      rcases Nat.lt_succ_iff_lt_or_eq.mp hi with hbefore | rfl
      · rw [Function.update_of_ne (Nat.ne_of_lt hbefore), hbytes i hbefore hlt]
      · rw [Function.update_self]
    · rename_i hk
      refine h.of_device hready (fun _ _ => rfl) hready (h.addressed _) (fun _ _ => rfl) rfl rfl rfl rfl rfl
        ⟨hready, ?_⟩
      exact fun i hlt => hbytes i (by omega) hlt
  | mcnt x =>
    rw [hstore] at hstoring
    obtain ⟨hready, hbytes⟩ := hstoring
    have hself := s.setDesc_self s.next { s.rx s.next with mcnt := x.mcnt }
    have hown : ((s.setDesc s.next { s.rx s.next with mcnt := x.mcnt }).rx s.next).owned = true :=
      (congrArg Desc.owned hself).trans hready
    exact h.of_device hready (fun j hj => Function.update_of_ne hj _ _) hown
      ((congrArg Desc.addr hself).trans (h.addressed _)) (fun _ _ => rfl) rfl rfl rfl rfl rfl
      ⟨hown, hbytes, congrArg Desc.mcnt hself⟩
  | status x =>
    rw [hstore] at hstoring
    exact status_inv h hstoring.1 hstoring.2.1 hstoring.2.2

theorem poll_inv (h : Inv s n) : Inv s.poll n := by
  unfold poll
  split
  · rename_i hidle
    refine h.of_calls ?_ ?_ trivial
    · rw [spent, spent, hidle.2]
    · rw [drain, drain, hidle.2]
  · exact h

theorem run_inv (es : List Event) (hserial : Event.nested ∉ es) : ∀ {s : Receive} {n : ℕ}, Inv s n →
    ∃ m, Inv (run es s) m := by
  induction es with
  | nil => exact fun h => ⟨_, h⟩
  | cons e es ih =>
    intro s n h
    have hrest := fun {m} => ih (List.not_mem_of_not_mem_cons hserial) (s := step s e) (n := m)
    cases e with
    | poll => exact hrest (poll_inv h)
    | nested => exact absurd List.mem_cons_self hserial
    | cpu => exact hrest (cpu_inv h)
    | arrive x => exact hrest (arrive_inv h x)
    | device => exact hrest (device_inv h)

/-! ## What is delivered -/

/-- The device finds no descriptor only while all others wait for `poll`. -/
theorem lost_full (h : Inv s n) (hlost : (s.rx s.next).owned = false) :
    n + N ≤ s.stored.length + 1 := by
  have hle := h.ring.taken_le
  have hfits := h.ring.fits
  have hnext := h.ring.fill_eq
  have hdrain := h.ring.drain_eq
  have hroom := h.ring.not_full_iff (by decide)
  rw [List.length_map] at hle hfits hnext hroom
  by_cases hheld : s.held s.next = true
  · rw [hheld] at hroom
    have hfull := hroom.not.mp Bool.noConfusion
    omega
  · have hspent : s.spent = some s.next := by
      by_contra hne
      exact hheld (held_iff.mpr ⟨hlost, hne⟩)
    have hlast : s.next = s.rxi ∧ s.drain = (s.rxi + 1) % N := by
      have hpolling := h.polling
      unfold spent at hspent
      unfold drain
      split at hspent
      · rename_i hcalls
        rw [hcalls] at hpolling ⊢
        exact ⟨(Option.some.inj hspent).symm.trans hpolling.1, rfl⟩
      · rename_i hcalls
        rw [hcalls] at hpolling ⊢
        exact ⟨(Option.some.inj hspent).symm.trans hpolling.1, rfl⟩
      · exact absurd hspent nofun
    rw [hlast.2, ← hlast.1, hnext, Nat.mod_add_mod] at hdrain
    unfold N at hdrain hfits ⊢
    omega

/-- Without inner calls of `poll`, and whatever the order of the steps of `poll` and of the device: the
good frames among the first `n` stored ones were delivered, once each, whole and in order; at most eight
are behind them; and what arrives is lost only while seven or eight are. -/
theorem receive_queue (es : List Event) (hserial : Event.nested ∉ es) :
    let s := run es boot
    ∃ n, n ≤ s.stored.length ∧ s.stored.length ≤ n + N ∧
      s.delivered = (s.stored.take n).filterMap Arrival.payload ∧
      ∀ x, s.store = .waiting → (s.arrive x).store = .waiting → n + N ≤ s.stored.length + 1 := by
  obtain ⟨n, h⟩ := run_inv es hserial boot_inv
  have hle := h.ring.taken_le
  have hfits := h.ring.fits
  rw [List.length_map] at hle hfits
  refine ⟨n, hle, hfits, h.delivered, fun x hwaiting hlost => lost_full h ?_⟩
  unfold arrive at hlost
  rw [hwaiting] at hlost
  simp only at hlost
  split at hlost
  · exact absurd hlost nofun
  · exact Bool.eq_false_iff.mpr ‹_›

/-- A frame of fourteen bytes arrives with its checksum. -/
def echoStored : List Event :=
  .arrive ⟨0x0300, 18, List.replicate 18 1, by decide, by decide, fun _ => by decide⟩ ::
    List.replicate 21 .device

theorem receive_queue_echo :
    let s := run echoStored boot
    ∃ n, n ≤ s.stored.length ∧ s.stored.length ≤ n + N ∧
      s.delivered = (s.stored.take n).filterMap Arrival.payload ∧
      ∀ x, s.store = .waiting → (s.arrive x).store = .waiting → n + N ≤ s.stored.length + 1 :=
  receive_queue echoStored (by simp [echoStored])

/-! ## One call of `poll` -/

end Receive

/-- The number of descriptors that the activation is through with. -/
def Activation.progress (a : Activation) : ℕ :=
  match a.pc with
  | .clear _ | .give _ | .advance => a.guard + 1
  | _ => a.guard

/-- The steps that are left for one descriptor, at most. -/
def PollPc.rank : PollPc → ℕ
  | .check => bufSize + 7
  | .status _ => bufSize + 6
  | .mcnt _ _ => bufSize + 5
  | .test _ _ _ => bufSize + 4
  | .rx _ _ len seen => 3 + (len - 4 - seen.length)
  | .clear _ => 2
  | .give _ => 1
  | .advance => 0

/-- The steps that are left for the activation, at most. -/
def Activation.fuel (a : Activation) : ℕ := (N - a.guard) * (bufSize + 8) + a.pc.rank

/-- The loop variable is in bounds in the body of the loop. -/
def Activation.Guarded (a : Activation) : Prop := a.pc = .check ∨ a.guard < N

namespace Receive

variable {s : Receive} {n : ℕ}

/-- A step of `poll` ends it or brings it nearer to its end. -/
theorem cpu_cases {a : Activation} (hcalls : s.calls = [a]) (hguard : a.Guarded) :
    (s.cpu.calls = [] ∧ s.consumed = 0 ∧ a.pc = .check ∧ (N ≤ a.progress ∨ (s.rx s.rxi).owned = true)) ∨
      ∃ b, s.cpu.calls = [b] ∧ b.Guarded ∧ b.fuel < a.fuel ∧ b.progress = a.progress + s.consumed := by
  obtain ⟨guard, pc⟩ := a
  unfold cpu consumed
  rw [hcalls]
  cases pc with
  | check =>
    unfold tick
    simp only
    split
    · rename_i hnext
      exact .inr ⟨_, rfl, .inr hnext.1, Nat.add_lt_add_left (Nat.lt_succ_self _) _, rfl⟩
    · rename_i hend
      refine .inl ⟨rfl, trivial, trivial, ?_⟩
      rw [not_and_or, Bool.not_eq_false] at hend
      exact hend.imp_left Nat.le_of_not_lt
  | status slot =>
    exact .inr ⟨_, rfl, .inr (hguard.resolve_left nofun), Nat.add_lt_add_left (Nat.lt_succ_self _) _, rfl⟩
  | mcnt slot st =>
    exact .inr ⟨_, rfl, .inr (hguard.resolve_left nofun), Nat.add_lt_add_left (Nat.lt_succ_self _) _, rfl⟩
  | test slot st len =>
    have hlt := hguard.resolve_left nofun
    unfold tick
    simp only
    split
    · rename_i hgood
      refine .inr ⟨_, rfl, .inr hlt, Nat.add_lt_add_left ?_ _, rfl⟩
      have hlen : len ≤ bufSize := by
        simp only [good, Bool.and_eq_true, decide_eq_true_iff] at hgood
        exact hgood.2
      show 3 + (len - 4 - 0) < bufSize + 4
      omega
    · exact .inr ⟨_, rfl, .inr hlt, Nat.add_lt_add_left (by show 2 < bufSize + 4; omega) _, rfl⟩
  | rx slot buf len seen =>
    have hlt := hguard.resolve_left nofun
    unfold tick
    simp only
    split
    · rename_i hmore
      refine .inr ⟨_, rfl, .inr hlt, Nat.add_lt_add_left ?_ _, rfl⟩
      show 3 + (len - 4 - (seen ++ [_]).length) < 3 + (len - 4 - seen.length)
      rw [List.length_append, List.length_singleton]
      omega
    · exact .inr ⟨_, rfl, .inr hlt, Nat.add_lt_add_left (Nat.lt_add_right _ (Nat.lt_succ_self 2)) _, rfl⟩
  | clear slot =>
    exact .inr ⟨_, rfl, .inr (hguard.resolve_left nofun), Nat.add_lt_add_left (Nat.lt_succ_self _) _, rfl⟩
  | give slot =>
    exact .inr ⟨_, rfl, .inr (hguard.resolve_left nofun), Nat.add_lt_add_left (Nat.lt_succ_self _) _, rfl⟩
  | advance =>
    have hlt := hguard.resolve_left nofun
    refine .inr ⟨_, rfl, .inl rfl, ?_, rfl⟩
    show (N - (guard + 1)) * (bufSize + 8) + (bufSize + 7) < (N - guard) * (bufSize + 8) + 0
    obtain ⟨d, hd⟩ := Nat.exists_eq_add_of_lt (show guard < N from hlt)
    rw [hd, (by omega : guard + d + 1 - (guard + 1) = d), (by omega : guard + d + 1 - guard = d + 1),
      Nat.add_mul]
    omega

theorem cpu_stored : s.cpu.stored = s.stored := by
  unfold cpu
  split
  · rfl
  · unfold tick
    split <;> (try split) <;> rfl

/-- `poll`, as far as it has come, delivers what the ring holds, if its loop is long enough for it. -/
theorem poll_ends {a : Activation} (h : Inv s n) (hcalls : s.calls = [a]) (hguard : a.Guarded)
    (henough : s.stored.length + a.progress ≤ n + N) :
    ∃ k, (cpu^[k] s).calls = [] ∧ (cpu^[k] s).stored = s.stored ∧
      (cpu^[k] s).delivered = s.stored.filterMap Arrival.payload := by
  induction hf : a.fuel using Nat.strong_induction_on generalizing s n a with
  | _ f ih =>
    have hnext := cpu_inv h
    rcases cpu_cases hcalls hguard with ⟨hend, hzero, hcheck, hwhy⟩ | ⟨b, hb, hbguard, hfuel, hprogress⟩
    · refine ⟨1, hend, cpu_stored, ?_⟩
      rw [hzero] at hnext
      have hall : n = s.stored.length := by
        have hle := h.ring.taken_le
        rw [List.length_map] at hle
        rcases hwhy with hmany | hempty
        · omega
        · obtain ⟨guard, pc⟩ := a
          subst hcheck
          have hdrain : s.drain = s.rxi := by rw [drain, hcalls]
          have hnone : s.held s.drain = false := by
            rw [hdrain, held, hempty]
            rfl
          have hdone := (h.ring.full_iff (by decide)).not.mp (by rw [hnone]; exact Bool.noConfusion)
          rw [List.length_map] at hdone
          omega
      have hdelivered := hnext.delivered
      rw [cpu_stored, Nat.add_zero, hall, List.take_length] at hdelivered
      exact hdelivered
    · obtain ⟨k, hk⟩ := ih b.fuel (hf ▸ hfuel) hnext hb hbguard (by rw [cpu_stored]; omega) rfl
      refine ⟨k + 1, ?_⟩
      rw [Function.iterate_succ_apply, ← cpu_stored (s := s)]
      exact hk

theorem run_append (es es' : List Event) (s : Receive) : run (es ++ es') s = run es' (run es s) :=
  List.foldl_append ..

theorem run_cpu (k : ℕ) : ∀ s : Receive, run (List.replicate k .cpu) s = cpu^[k] s := by
  induction k with
  | zero => exact fun _ => rfl
  | succ k ih => exact fun s => ih s.cpu

theorem step_up (s : Receive) (e : Event) : (step s e).up = s.up := by
  cases e with
  | poll =>
    show s.poll.up = s.up
    unfold poll
    split <;> rfl
  | nested =>
    show s.nested.up = s.up
    unfold nested
    split <;> rfl
  | cpu =>
    show s.cpu.up = s.up
    unfold cpu
    split
    · rfl
    · unfold tick
      split <;> (try split) <;> rfl
  | arrive x =>
    show (s.arrive x).up = s.up
    unfold arrive
    split
    · split <;> rfl
    · rfl
  | device =>
    show s.device.up = s.up
    unfold device
    split
    · rfl
    · split
      · unfold setByte
        split <;> rfl
      · rfl
    · rfl
    · rfl

theorem run_up (es : List Event) : ∀ s : Receive, (run es s).up = s.up := by
  induction es with
  | nil => exact fun _ => rfl
  | cons e es ih => exact fun s => (ih (step s e)).trans (step_up s e)

/-- One call of `poll`, left alone by the device, returns and has delivered every good frame that was
stored before. -/
theorem poll_empties (es : List Event) (hserial : Event.nested ∉ es) (hidle : (run es boot).calls = []) :
    let s := run es boot
    ∃ k, let t := run (.poll :: List.replicate k .cpu) s
      t.calls = [] ∧ t.delivered = s.stored.filterMap Arrival.payload := by
  obtain ⟨n, h⟩ := run_inv es hserial boot_inv
  have hfits := h.ring.fits
  rw [List.length_map] at hfits
  have hpoll : (run es boot).poll = { run es boot with calls := [⟨0, .check⟩] } := by
    unfold poll
    rw [if_pos ⟨run_up es boot, hidle⟩]
  have hstart := poll_inv h
  rw [hpoll] at hstart
  obtain ⟨k, hcalls, -, hdelivered⟩ := poll_ends hstart rfl (.inl rfl) hfits
  have hrun : run (.poll :: List.replicate k .cpu) (run es boot) =
      cpu^[k] { run es boot with calls := [⟨0, .check⟩] } := by
    rw [← run_cpu, ← hpoll]
    rfl
  refine ⟨k, ?_⟩
  rw [hrun]
  exact ⟨hcalls, hdelivered⟩

theorem poll_empties_echo :
    let s := run echoStored boot
    ∃ k, let t := run (.poll :: List.replicate k .cpu) s
      t.calls = [] ∧ t.delivered = s.stored.filterMap Arrival.payload :=
  poll_empties echoStored (by simp [echoStored]) (by decide +kernel)

/-! ## Inner calls of `poll` -/

/-- The callback runs for a good frame in the descriptor `slot`. -/
def Calling (s : Receive) (slot : ℕ) (a : Activation) : Prop :=
  slot = s.rxi ∧ (s.rx slot).owned = false ∧ good (s.rx slot).status (length (s.rx slot).mcnt) = true ∧
    ∃ seen, a.pc = .rx slot slot (length (s.rx slot).mcnt) seen

/-- The inner `poll` comes to the callback of the outer one. -/
theorem nested_calls {slot : ℕ} {a : Activation} {calls : List Activation} (hcalls : s.calls = a :: calls)
    (hcalling : s.Calling slot a) :
    run [.nested, .cpu, .cpu, .cpu, .cpu] s =
      { s with calls := ⟨0, .rx slot slot (length (s.rx slot).mcnt) []⟩ :: s.calls } := by
  obtain ⟨guard, pc⟩ := a
  obtain ⟨rfl, howned, hgood, seen, rfl⟩ := hcalling
  have hnested : s.nested = { s with calls := ⟨0, .check⟩ :: s.calls } := by
    unfold nested
    rw [hcalls]
  show s.nested.cpu.cpu.cpu.cpu = _
  rw [hnested]
  have hcheck : cpu { s with calls := ⟨0, .check⟩ :: s.calls } =
      { s with calls := ⟨0, .status s.rxi⟩ :: s.calls } :=
    if_pos ⟨by decide, howned⟩
  rw [hcheck]
  exact if_pos hgood

/-- With each inner call there is one more callback for the same frame, and nothing else has changed. -/
theorem nested_deep {slot : ℕ} (d : ℕ) : ∀ {s : Receive} {a : Activation} {calls : List Activation},
    s.calls = a :: calls → s.Calling slot a →
      ∃ es, (∀ e ∈ es, e = .nested ∨ e = .cpu) ∧ ∃ inner, inner.length = d ∧
        (∀ b ∈ inner, s.Calling slot b) ∧ run es s = { s with calls := inner ++ s.calls } := by
  induction d with
  | zero =>
    intro s a calls _ _
    exact ⟨[], nofun, [], rfl, nofun, rfl⟩
  | succ d ih =>
    intro s a calls hcalls hcalling
    have hstart := nested_calls hcalls hcalling
    have hinner : s.Calling slot ⟨0, .rx slot slot (length (s.rx slot).mcnt) []⟩ :=
      ⟨hcalling.1, hcalling.2.1, hcalling.2.2.1, [], rfl⟩
    obtain ⟨es, hes, inner, hlen, hinners, hrun⟩ :=
      ih (s := { s with calls := ⟨0, .rx slot slot (length (s.rx slot).mcnt) []⟩ :: s.calls }) rfl hinner
    refine ⟨[.nested, .cpu, .cpu, .cpu, .cpu] ++ es, ?_,
      inner ++ [⟨0, .rx slot slot (length (s.rx slot).mcnt) []⟩], ?_, ?_, ?_⟩
    · intro e he
      rcases List.mem_append.mp he with he | he
      · simp only [List.mem_cons, List.not_mem_nil, or_false, or_self] at he
        exact he
      · exact hes e he
    · rw [List.length_append, hlen, List.length_singleton]
    · intro b hb
      rcases List.mem_append.mp hb with hb | hb
      · exact hinners b hb
      · rw [List.mem_singleton.mp hb]
        exact hinner
    · rw [run_append, hstart, hrun, List.append_assoc]
      rfl

/-- The callback reads the frame to its end. -/
theorem callback_reads {slot guard len : ℕ} {calls : List Activation} (d : ℕ) :
    ∀ {s : Receive} {seen : List UInt8}, s.calls = ⟨guard, .rx slot slot len seen⟩ :: calls →
      seen = (List.range seen.length).map (s.rxb slot) → seen.length + d = len - 4 →
      cpu^[d + 1] s = { s with
        calls := ⟨guard, .clear slot⟩ :: calls
        delivered := s.delivered ++ [(List.range (len - 4)).map (s.rxb slot)] } := by
  induction d with
  | zero =>
    intro s seen hcalls hseen hlen
    show s.cpu = _
    unfold cpu
    rw [hcalls]
    unfold tick
    simp only
    rw [if_neg (by omega), hseen, (by omega : seen.length = len - 4)]
  | succ d ih =>
    intro s seen hcalls hseen hlen
    have hstep : s.cpu = { s with
        calls := ⟨guard, .rx slot slot len (seen ++ [s.rxb slot seen.length])⟩ :: calls } := by
      unfold cpu
      rw [hcalls]
      exact if_pos (by omega)
    rw [Function.iterate_succ_apply, hstep]
    refine ih (s := { s with
        calls := ⟨guard, .rx slot slot len (seen ++ [s.rxb slot seen.length])⟩ :: calls }) rfl ?_ ?_
    · rw [List.length_append, List.length_singleton, List.range_succ, List.map_append, ← hseen]
      rfl
    · rw [List.length_append, List.length_singleton]
      omega

/-- If the callback calls `poll`, it comes to itself for the same frame, to any depth `d`; and an inner
callback that reads on delivers the frame while the outer ones have not returned.  Nothing of this
takes a step of the device. -/
theorem nested_again (es : List Event) (hserial : Event.nested ∉ es) {slot buf len guard : ℕ}
    {seen : List UInt8} (hcalls : (run es boot).calls = [⟨guard, .rx slot buf len seen⟩]) (d : ℕ) :
    let s := run es boot
    ∃ es', (∀ e ∈ es', e = .nested ∨ e = .cpu) ∧ ∃ inner, inner.length = d + 1 ∧
      (∀ b ∈ inner, s.Calling slot b) ∧ run es' s = { s with calls := inner ++ s.calls } ∧
      ∃ k f, s.payloadAt slot = some f ∧ (cpu^[k] (run es' s)).delivered = s.delivered ++ [f] ∧
        (cpu^[k] (run es' s)).calls.tail = (run es' s).calls.tail := by
  intro s
  obtain ⟨n, h⟩ := run_inv es hserial boot_inv
  have hpolling := h.polling
  rw [hcalls] at hpolling
  obtain ⟨hbusy, rfl, hlen, hgood, -⟩ := hpolling
  rw [hlen] at hgood hcalls
  have hcalling : s.Calling buf ⟨guard, .rx buf buf (length (s.rx buf).mcnt) seen⟩ :=
    ⟨hbusy.1, hbusy.2, hgood, seen, rfl⟩
  obtain ⟨es', hes', inner, hinner, hall, hrun⟩ := nested_deep d hcalls hcalling
  -- one more call, whose callback reads the frame from its begin
  obtain ⟨a, calls, htop⟩ : ∃ a calls, inner ++ s.calls = a :: calls := by
    cases inner with
    | nil => exact ⟨_, _, hcalls⟩
    | cons a inner => exact ⟨a, inner ++ s.calls, rfl⟩
  have htopcalling : Calling { s with calls := inner ++ s.calls } buf a := by
    cases inner with
    | nil =>
      rw [List.nil_append, hcalls] at htop
      rw [← (List.cons.inj htop).1]
      exact hcalling
    | cons b inner =>
      rw [← (List.cons.inj htop).1]
      exact hall b List.mem_cons_self
  have hnested := nested_calls (s := { s with calls := inner ++ s.calls }) htop htopcalling
  rw [← hrun, ← run_append] at hnested
  refine ⟨es' ++ [.nested, .cpu, .cpu, .cpu, .cpu], ?_,
    ⟨0, .rx buf buf (length (s.rx buf).mcnt) []⟩ :: inner, ?_, ?_, ?_, ?_⟩
  · intro e he
    rcases List.mem_append.mp he with he | he
    · exact hes' e he
    · simp only [List.mem_cons, List.not_mem_nil, or_false, or_self] at he
      exact he
  · rw [List.length_cons, hinner]
  · intro b hb
    rcases List.mem_cons.mp hb with rfl | hb
    · exact ⟨hbusy.1, hbusy.2, hgood, [], rfl⟩
    · exact hall b hb
  · rw [hnested, hrun]
    rfl
  · have hnone : ([] : List UInt8) = (List.range ([] : List UInt8).length).map (s.rxb buf) := rfl
    have hreads := callback_reads (length (s.rx buf).mcnt - 4)
      (s := { s with calls := ⟨0, .rx buf buf (length (s.rx buf).mcnt) []⟩ :: (inner ++ s.calls) })
      rfl hnone (Nat.zero_add _)
    refine ⟨length (s.rx buf).mcnt - 4 + 1, _, if_pos hgood, ?_, ?_⟩
    · rw [hnested, hrun]
      exact congrArg Receive.delivered hreads
    · rw [hnested, hrun]
      exact congrArg (fun t => t.calls.tail) hreads

/-- The callback begins to read the frame. -/
def echoRun : List Event := echoStored ++ .poll :: List.replicate 4 .cpu

theorem echoRun_calls : (run echoRun boot).calls = [⟨0, .rx 0 0 18 []⟩] := by
  decide +kernel

theorem nested_again_echo :
    let s := run echoRun boot
    ∃ es', (∀ e ∈ es', e = .nested ∨ e = .cpu) ∧ ∃ inner, inner.length = 2 + 1 ∧
      (∀ b ∈ inner, s.Calling 0 b) ∧ run es' s = { s with calls := inner ++ s.calls } ∧
      ∃ k f, s.payloadAt 0 = some f ∧ (cpu^[k] (run es' s)).delivered = s.delivered ++ [f] ∧
        (cpu^[k] (run es' s)).calls.tail = (run es' s).calls.tail :=
  nested_again echoRun (by simp [echoRun, echoStored]) echoRun_calls 2

end Receive

end Orion.Netdev.Pcnet
