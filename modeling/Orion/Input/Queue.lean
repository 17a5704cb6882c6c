import Mathlib.Data.List.Induction
import Orion.Lib.Ring

/-!
# The keyboard and mouse queues (`kernel/interrupts.c`)

`keyboard_isr` and `mouse_isr` put bytes into two rings with 8-bit indices, `keyboard_pop_scancode`
and `mouse_pop_byte` take them out.  An interrupt handler runs as a whole; it may come between any two
of the steps of a consumer: the test, the read and the update of the tail.
-/

namespace Orion.Input

/-! ## The model -/

/-- Where a consumer is: outside, behind a test that found a byte, or behind the read of it. -/
inductive Consumer where
  | idle
  | tested
  | got (byte : UInt8)
  deriving Repr, DecidableEq

/-- A queue with its consumer.  `accepted` and `popped` record the bytes that a handler put in and the
bytes that the consumer returned. -/
structure Queue where
  slots : ℕ → UInt8
  head : UInt8
  tail : UInt8
  consumer : Consumer
  accepted : List UInt8
  popped : List UInt8

/-- The queues are zero when the kernel starts. -/
def Queue.boot : Queue := ⟨fun _ => 0, 0, 0, .idle, [], []⟩

/-- `(uint8_t)(i+1)&mask` -/
def advance (mask i : UInt8) : UInt8 := (i + 1) &&& mask

/-- The handler: a byte for which there is no slot is dropped. -/
def isr (mask s : UInt8) (q : Queue) : Queue :=
  let next := advance mask q.head
  if next ≠ q.tail then
    { q with
      slots := Function.update q.slots q.head.toNat s
      head := next
      accepted := q.accepted ++ [s] }
  else q

/-- The next step of the consumer. -/
def pop (mask : UInt8) (q : Queue) : Queue :=
  match q.consumer with
  | .idle => if q.tail = q.head then q else { q with consumer := .tested }
  | .tested => { q with consumer := .got (q.slots q.tail.toNat) }
  | .got byte =>
    { q with tail := advance mask q.tail, consumer := .idle, popped := q.popped ++ [byte] }

def keyMask : UInt8 := 63

def mouseMask : UInt8 := 127

structure Queues where
  keyq : Queue
  mouseq : Queue

def Queues.boot : Queues := ⟨.boot, .boot⟩

/-- What may happen next. -/
inductive Event where
  | keyboardIsr (s : UInt8)
  | mouseIsr (b : UInt8)
  | keyboardPopScancode
  | mousePopByte
  deriving Repr, DecidableEq

def step (q : Queues) : Event → Queues
  | .keyboardIsr s => { q with keyq := isr keyMask s q.keyq }
  | .mouseIsr b => { q with mouseq := isr mouseMask b q.mouseq }
  | .keyboardPopScancode => { q with keyq := pop keyMask q.keyq }
  | .mousePopByte => { q with mouseq := pop mouseMask q.mouseq }

/-- The queues after the events. -/
def after (events : List Event) : Queues := events.foldl step .boot

/-! ## One step -/

/-- The mask of a ring whose size is a power of two. -/
theorem advance_toNat {mask : UInt8} {k : ℕ} (hk : k ≤ 8) (hmask : mask.toNat = 2 ^ k - 1) (i : UInt8) :
    (advance mask i).toNat = (i.toNat + 1) % 2 ^ k := by
  have hdvd : 2 ^ k ∣ 2 ^ 8 := Nat.pow_dvd_pow 2 hk
  rw [advance, UInt8.toNat_and, hmask, Nat.and_two_pow_sub_one_eq_mod, UInt8.toNat_add]
  exact Nat.mod_mod_of_dvd _ hdvd

/-- The invariant of a queue of `n` slots: the ring holds what is not released, the consumer is past
the test only if there is a byte, and what it read is the next byte. -/
structure Queue.Ok (n : ℕ) (q : Queue) : Prop where
  ring : Ring.Holds n q.slots q.head.toNat q.tail.toNat q.accepted q.popped.length
  popped : q.popped <+: q.accepted
  tested : q.consumer = .tested → q.popped.length < q.accepted.length
  got : ∀ byte, q.consumer = .got byte → q.popped ++ [byte] <+: q.accepted

theorem Queue.boot_ok {n : ℕ} (hn : 0 < n) : Queue.boot.Ok n where
  ring := Ring.Holds.start hn
  popped := List.nil_prefix
  tested := by simp [Queue.boot]
  got := by simp [Queue.boot]

/-- What was returned, with the next byte in order. -/
theorem prefix_concat {l m : List UInt8} (h : l <+: m) (hlt : l.length < m.length) :
    l ++ [m[l.length]] <+: m := by
  obtain ⟨t, rfl⟩ := h
  cases t with
  | nil => simp at hlt
  | cons c t =>
    refine ⟨t, ?_⟩
    simp

section

variable {n : ℕ} {mask : UInt8} {q : Queue}

/-- **The handler keeps a byte unless `n - 1` bytes are not released.** -/
theorem isr_accepted (hadv : ∀ i, (advance mask i).toNat = (i.toNat + 1) % n) (h : q.Ok n) (s : UInt8) :
    (isr mask s q).accepted =
      if q.accepted.length = q.popped.length + (n - 1) then q.accepted else q.accepted ++ [s] := by
  have hfull : advance mask q.head = q.tail ↔ q.accepted.length = q.popped.length + (n - 1) := by
    rw [← h.ring.full_iff, ← hadv, UInt8.toNat_inj]
  unfold isr
  by_cases hroom : advance mask q.head = q.tail
  · rw [if_pos (hfull.mp hroom)]
    simp only [hroom, ne_eq, not_true_eq_false, if_false]
  · rw [if_neg (hfull.not.mp hroom)]
    simp only [ne_eq, hroom, not_false_eq_true, if_true]

theorem isr_ok (hadv : ∀ i, (advance mask i).toNat = (i.toNat + 1) % n) (h : q.Ok n) (s : UInt8) :
    (isr mask s q).Ok n := by
  unfold isr
  by_cases hroom : advance mask q.head = q.tail
  · simp only [hroom, ne_eq, not_true_eq_false, if_false]
    exact h
  · simp only [ne_eq, hroom, not_false_eq_true, if_true]
    have hne : (q.head.toNat + 1) % n ≠ q.tail.toNat := by
      rw [← hadv]
      exact fun heq => hroom (UInt8.toNat_inj.mp heq)
    have hlonger := List.prefix_append q.accepted [s]
    refine ⟨?_, h.popped.trans hlonger, fun ht => ?_, fun byte hb => (h.got byte hb).trans hlonger⟩
    · simpa only [hadv] using h.ring.push hne s
    · show q.popped.length < (q.accepted ++ [s]).length
      rw [List.length_append]
      exact Nat.lt_add_right _ (h.tested ht)

theorem pop_ok (hadv : ∀ i, (advance mask i).toNat = (i.toNat + 1) % n) (h : q.Ok n) :
    (pop mask q).Ok n := by
  unfold pop
  cases hc : q.consumer with
  | idle =>
    simp only
    split
    · exact h
    · rename_i hne
      refine ⟨h.ring, h.popped, fun _ => ?_, by simp⟩
      have hle := h.ring.released_le
      have hempty := h.ring.empty_iff.not.mp (UInt8.toNat_inj.not.mpr hne)
      show q.popped.length < q.accepted.length
      omega
  | tested =>
    have hlt := h.tested hc
    refine ⟨h.ring, h.popped, by simp, fun byte hb => ?_⟩
    obtain rfl := Consumer.got.inj hb
    rw [h.ring.oldest hlt]
    exact prefix_concat h.popped hlt
  | got byte =>
    have hgot := h.got byte hc
    have hlt : q.popped.length < q.accepted.length := by
      have hle := hgot.length_le
      rw [List.length_append, List.length_singleton] at hle
      omega
    refine ⟨?_, hgot, by simp, by simp⟩
    simpa only [hadv, List.length_append, List.length_singleton] using h.ring.pop hlt

end

/-! ## Every interleaving -/

theorem keyMask_advance (i : UInt8) : (advance keyMask i).toNat = (i.toNat + 1) % 64 :=
  advance_toNat (k := 6) (by omega) rfl i

theorem mouseMask_advance (i : UInt8) : (advance mouseMask i).toNat = (i.toNat + 1) % 128 :=
  advance_toNat (k := 7) (by omega) rfl i

theorem after_concat (events : List Event) (e : Event) : after (events ++ [e]) = step (after events) e := by
  rw [after, List.foldl_append]
  rfl

theorem after_ok (events : List Event) :
    (after events).keyq.Ok 64 ∧ (after events).mouseq.Ok 128 := by
  induction events using List.reverseRecOn with
  | nil => exact ⟨Queue.boot_ok (by omega), Queue.boot_ok (by omega)⟩
  | append_singleton events e ih =>
    obtain ⟨hkey, hmouse⟩ := ih
    rw [after_concat]
    cases e with
    | keyboardIsr s => exact ⟨isr_ok keyMask_advance hkey s, hmouse⟩
    | mouseIsr b => exact ⟨hkey, isr_ok mouseMask_advance hmouse b⟩
    | keyboardPopScancode => exact ⟨pop_ok keyMask_advance hkey, hmouse⟩
    | mousePopByte => exact ⟨hkey, pop_ok mouseMask_advance hmouse⟩

def keyboardByte : Event → Option UInt8
  | .keyboardIsr s => some s
  | _ => none

def mouseByte : Event → Option UInt8
  | .mouseIsr b => some b
  | _ => none

theorem isr_accepted_cases (mask s : UInt8) (q : Queue) :
    (isr mask s q).accepted = q.accepted ∨ (isr mask s q).accepted = q.accepted ++ [s] := by
  unfold isr
  by_cases hroom : advance mask q.head = q.tail
  · left
    simp [hroom]
  · right
    simp [hroom]

theorem pop_accepted (mask : UInt8) (q : Queue) : (pop mask q).accepted = q.accepted := by
  unfold pop
  cases q.consumer with
  | idle =>
    simp only
    split <;> rfl
  | tested => rfl
  | got byte => rfl

/-- The accepted bytes are bytes that came, in their order. -/
theorem after_sublist (events : List Event) :
    (after events).keyq.accepted.Sublist (events.filterMap keyboardByte) ∧
      (after events).mouseq.accepted.Sublist (events.filterMap mouseByte) := by
  induction events using List.reverseRecOn with
  | nil => exact ⟨List.nil_sublist _, List.nil_sublist _⟩
  | append_singleton events e ih =>
    obtain ⟨hkey, hmouse⟩ := ih
    have hisr : ∀ {mask s q} {l : List UInt8}, q.accepted.Sublist l →
        (isr mask s q).accepted.Sublist (l ++ [s]) := by
      intro mask s q l hsub
      rcases isr_accepted_cases mask s q with hsame | hlonger
      · rw [hsame]
        exact hsub.trans (List.sublist_append_left _ _)
      · rw [hlonger]
        exact hsub.append (List.Sublist.refl _)
    rw [after_concat, List.filterMap_append, List.filterMap_append]
    have hkey' := hkey.trans (List.sublist_append_left _ ([e].filterMap keyboardByte))
    have hmouse' := hmouse.trans (List.sublist_append_left _ ([e].filterMap mouseByte))
    cases e with
    | keyboardIsr s => exact ⟨hisr hkey, hmouse'⟩
    | mouseIsr b => exact ⟨hkey', hisr hmouse⟩
    | keyboardPopScancode =>
      refine ⟨?_, hmouse'⟩
      rw [step, pop_accepted]
      exact hkey'
    | mousePopByte =>
      refine ⟨hkey', ?_⟩
      rw [step, pop_accepted]
      exact hmouse'

/-! ## A call of the consumer -/

/-- The handler runs once for each of the bytes. -/
def interrupted (mask : UInt8) (bytes : List UInt8) (q : Queue) : Queue := bytes.foldl (fun q s => isr mask s q) q

/-- The handler does not move the consumer. -/
theorem isr_consumer (mask s : UInt8) (q : Queue) :
    (isr mask s q).consumer = q.consumer ∧ (isr mask s q).popped = q.popped := by
  unfold isr
  by_cases hroom : advance mask q.head = q.tail <;> simp [hroom]

section

variable {n : ℕ} {mask : UInt8} {q : Queue}

/-- The next byte for the consumer is `b`, and it has come to `c`. -/
structure Queue.Next (n : ℕ) (b : UInt8) (popped : List UInt8) (c : Consumer) (q : Queue) : Prop where
  ok : q.Ok n
  next : q.accepted[q.popped.length]? = some b
  popped : q.popped = popped
  consumer : q.consumer = c

theorem Queue.Next.isr {b : UInt8} {popped : List UInt8} {c : Consumer}
    (hadv : ∀ i, (advance mask i).toNat = (i.toNat + 1) % n) (h : q.Next n b popped c) (s : UInt8) :
    (isr mask s q).Next n b popped c := by
  obtain ⟨hconsumer, hpopped⟩ := isr_consumer mask s q
  refine ⟨isr_ok hadv h.ok s, ?_, hpopped.trans h.popped, hconsumer.trans h.consumer⟩
  rw [hpopped]
  rcases isr_accepted_cases mask s q with hsame | hlonger
  · rw [hsame]
    exact h.next
  · obtain ⟨hlt, -⟩ := List.getElem?_eq_some_iff.mp h.next
    rw [hlonger, List.getElem?_append_left hlt]
    exact h.next

/-- Interrupts between two steps of the consumer change nothing for it. -/
theorem Queue.Next.interrupted {b : UInt8} {popped : List UInt8} {c : Consumer}
    (hadv : ∀ i, (advance mask i).toNat = (i.toNat + 1) % n) (h : q.Next n b popped c) (bytes : List UInt8) :
    (interrupted mask bytes q).Next n b popped c := by
  induction bytes generalizing q with
  | nil => exact h
  | cons s bytes ih => exact ih (h.isr hadv s)

theorem Queue.Next.lt {b : UInt8} {popped : List UInt8} {c : Consumer} (h : q.Next n b popped c) :
    q.popped.length < q.accepted.length :=
  (List.getElem?_eq_some_iff.mp h.next).1

/-- The test finds the byte. -/
theorem Queue.Next.test {b : UInt8} {popped : List UInt8} (hadv : ∀ i, (advance mask i).toNat = (i.toNat + 1) % n)
    (h : q.Next n b popped .idle) : (pop mask q).Next n b popped .tested := by
  have hempty : ¬ q.tail = q.head := by
    rw [← UInt8.toNat_inj, h.ok.ring.empty_iff]
    have hlt := h.lt
    omega
  have hpop : pop mask q = { q with consumer := .tested } := by
    unfold pop
    rw [h.consumer]
    exact if_neg hempty
  have hok := pop_ok hadv h.ok
  rw [hpop] at hok ⊢
  exact ⟨hok, h.next, h.popped, rfl⟩

/-- The read takes it. -/
theorem Queue.Next.read {b : UInt8} {popped : List UInt8} (hadv : ∀ i, (advance mask i).toNat = (i.toNat + 1) % n)
    (h : q.Next n b popped .tested) : (pop mask q).Next n b popped (.got b) := by
  have hpop : pop mask q = { q with consumer := .got (q.slots q.tail.toNat) } := by
    unfold pop
    rw [h.consumer]
  have hb : q.slots q.tail.toNat = b := by
    obtain ⟨hlt, hget⟩ := List.getElem?_eq_some_iff.mp h.next
    rw [h.ok.ring.oldest hlt]
    exact hget
  have hok := pop_ok hadv h.ok
  rw [hpop, hb] at hok ⊢
  exact ⟨hok, h.next, h.popped, rfl⟩

/-- The update of the tail releases it, and the call returns it. -/
theorem Queue.Next.release {b : UInt8} {popped : List UInt8} (h : q.Next n b popped (.got b)) :
    (pop mask q).popped = popped ++ [b] ∧ (pop mask q).consumer = .idle := by
  unfold pop
  rw [h.consumer, ← h.popped]
  exact ⟨rfl, rfl⟩

/-- **A call of the consumer returns the oldest byte** that is not released, whatever comes between its steps. -/
theorem pop_returns (hadv : ∀ i, (advance mask i).toNat = (i.toNat + 1) % n) (h : q.Ok n)
    (hidle : q.consumer = .idle) {b : UInt8} (hb : q.accepted[q.popped.length]? = some b) (bytes bytes' : List UInt8) :
    let r := pop mask (interrupted mask bytes' (pop mask (interrupted mask bytes (pop mask q))))
    r.popped = q.popped ++ [b] ∧ r.consumer = .idle := by
  have hstart : q.Next n b q.popped .idle := ⟨h, hb, rfl, hidle⟩
  have htested := (hstart.test hadv).interrupted hadv bytes
  have hgot := (htested.read hadv).interrupted hadv bytes'
  exact hgot.release

end

/-- A lossless queue of `n` slots, into which the bytes `came` were to be put. -/
structure Queue.Fifo (n : ℕ) (mask : UInt8) (came : List UInt8) (q : Queue) : Prop where
  head_lt : q.head.toNat < n
  tail_lt : q.tail.toNat < n
  in_order : q.accepted.Sublist came
  popped : q.popped <+: q.accepted
  nothing_left : q.tail = q.head ↔ q.popped = q.accepted
  dropped : ∀ s, (isr mask s q).accepted =
    if q.accepted.length = q.popped.length + (n - 1) then q.accepted else q.accepted ++ [s]
  /-- A call that begins with a byte in the queue returns the next one, with any bytes coming between its steps. -/
  returns : q.consumer = .idle → ∀ b, q.accepted[q.popped.length]? = some b → ∀ bytes bytes' : List UInt8,
    let r := pop mask (interrupted mask bytes' (pop mask (interrupted mask bytes (pop mask q))))
    r.popped = q.popped ++ [b] ∧ r.consumer = .idle
  /-- A call that begins with an empty queue returns 0. -/
  empty : q.consumer = .idle → q.popped = q.accepted → pop mask q = q

theorem Queue.Ok.fifo {n : ℕ} {mask : UInt8} {came : List UInt8} {q : Queue} (h : q.Ok n)
    (hadv : ∀ i, (advance mask i).toNat = (i.toNat + 1) % n) (hcame : q.accepted.Sublist came) :
    q.Fifo n mask came where
  head_lt := h.ring.head_lt
  tail_lt := h.ring.tail_lt
  in_order := hcame
  popped := h.popped
  nothing_left := by
    rw [← UInt8.toNat_inj, h.ring.empty_iff]
    exact ⟨h.popped.eq_of_length, congrArg List.length⟩
  dropped := isr_accepted hadv h
  returns hidle b hb bytes bytes' := pop_returns hadv h hidle hb bytes bytes'
  empty hidle hall := by
    have hempty : q.tail = q.head := by
      rw [← UInt8.toNat_inj, h.ring.empty_iff, hall]
    unfold pop
    rw [hidle]
    exact if_pos hempty

/-- **Both queues are lossless up to their capacity.**  After every sequence of interrupts and
consumer steps the indices are inside the arrays, the bytes that were returned are the first of the
accepted ones, in the order in which they came, a call of the consumer returns the next of them, and the
next byte is dropped only if 63, or 127, accepted bytes are not released. -/
theorem input_queues_fifo (events : List Event) :
    (after events).keyq.Fifo 64 keyMask (events.filterMap keyboardByte) ∧
      (after events).mouseq.Fifo 128 mouseMask (events.filterMap mouseByte) :=
  ⟨(after_ok events).1.fifo keyMask_advance (after_sublist events).1,
    (after_ok events).2.fifo mouseMask_advance (after_sublist events).2⟩

end Orion.Input
