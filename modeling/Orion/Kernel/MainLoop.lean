import Mathlib.Data.List.Infix
import Orion.Desktop.Steps
import Orion.Input.Queue
import Orion.Lib.Interrupted

/-!
# The kernel's loop (`kernel_main` in `kernel/main.c`)

The loop takes the bytes out of both queues and hands each to the desktop, polls the network, lets the
clock tick and sleeps until the next interrupt.  The handlers of the keyboard, the mouse and the timer
come between any two of its steps, except after the shutdown, which has turned interrupts off.  A call
of the desktop is one step: the handlers touch nothing that it reads.

* `run_queues` — a run of the kernel is a run of the queues;
* `loop_handles` — the desktop is what the accepted bytes make of it, each once and in order;
* `loop_serves` — what was accepted before a turn of the loop is handled when the loop goes to sleep;
* `sleeps_on_key` — a byte that comes before `hlt` waits for another interrupt.
-/

namespace Orion.Kernel

/-! ## The timer -/

def pitBaseHz : ℕ := 1193182

/-- The divisor of `pit_program`. -/
def pitDivisor (hz : ℕ) : ℕ :=
  let hz := if hz < 19 then 19 else hz
  let hz := if hz > 1000 then 1000 else hz
  let divisor := pitBaseHz / hz
  let divisor := if divisor = 0 then 1 else divisor
  if divisor > 65535 then 65535 else divisor

/-- `g_pit_hz` -/
def pitHz (hz : ℕ) : ℕ := pitBaseHz / pitDivisor hz

/-- `interrupts_init(100)` has set the frequency. -/
def timerFrequency : ℕ := pitHz 100

/-- The second that `desktop_tick` computes. -/
def second (ticks : UInt64) : ℕ := if timerFrequency = 0 then 0 else ticks.toNat / timerFrequency

/-! ## The loop -/

/-- Where the loop is: in one of its two inner loops, at a call of the desktop, behind them, at the
`hlt`, asleep in it, or in the `hlt` of the shutdown. -/
inductive Pc where
  | keys
  | key (b : UInt8)
  | bytes
  | byte (b : UInt8)
  | netPoll
  | tick
  | hlt
  | asleep
  | off
  deriving Repr, DecidableEq

/-- A byte that is popped and not handled yet. -/
def Pc.keyInHand : Pc → List UInt8
  | .key b => [b]
  | _ => []

def Pc.byteInHand : Pc → List UInt8
  | .byte b => [b]
  | _ => []

/-- The state of the kernel, with the events that the desktop was given. -/
structure State where
  queues : Input.Queues
  ticks : UInt64
  desk : Desktop.State
  pc : Pc
  trace : List Desktop.Event

/-- The loop begins. -/
def State.boot : State := ⟨.boot, 0, Desktop.init, .keys, []⟩

/-- What may happen next: an interrupt, or a step of the loop. -/
inductive Event where
  | keyboardIsr (b : UInt8)
  | mouseIsr (b : UInt8)
  | pitIsr
  | cpu
  deriving Repr, DecidableEq

/-- What the next step of a consumer returns: nothing yet, 0, or 1 and a byte. -/
def returns (q : Input.Queue) : Option (Option UInt8) :=
  match q.consumer with
  | .idle => if q.tail = q.head then some none else none
  | .tested => none
  | .got b => some (some b)

/-- Where a `while` loop goes on. -/
def whileNext (result : Option (Option UInt8)) (here : Pc) (body : UInt8 → Pc) (behind : Pc) : Pc :=
  match result with
  | none => here
  | some none => behind
  | some (some b) => body b

section

variable (scr : Desktop.Platform)

/-- A call of the desktop, which does not return from a shutdown. -/
def State.handle (s : State) (e : Desktop.Event) (next : Pc) : State :=
  { s with
    desk := Desktop.step scr s.desk e
    trace := s.trace ++ [e]
    pc := if (Desktop.step scr s.desk e).halted then .off else next }

/-- The next step of the loop. -/
def State.cpu (s : State) : State :=
  match s.pc with
  | .keys =>
    { s with
      queues := Input.step s.queues .keyboardPopScancode
      pc := whileNext (returns s.queues.keyq) .keys .key .bytes }
  | .key b => s.handle scr (.key b) .keys
  | .bytes =>
    { s with
      queues := Input.step s.queues .mousePopByte
      pc := whileNext (returns s.queues.mouseq) .bytes .byte .netPoll }
  | .byte b => s.handle scr (.mouse b) .bytes
  | .netPoll => { s with pc := .tick }
  | .tick => s.handle scr (.tick (second s.ticks)) .hlt
  | .hlt => { s with pc := .asleep }
  | .asleep => s
  | .off => s

/-- An interrupt ends the sleep, and the loop starts again. -/
def State.wake (s : State) : State :=
  { s with pc := if s.pc = .asleep then .keys else s.pc }

def step (s : State) : Event → State
  | .keyboardIsr b =>
    if s.pc = .off then s else { s with queues := Input.step s.queues (.keyboardIsr b) }.wake
  | .mouseIsr b => if s.pc = .off then s else { s with queues := Input.step s.queues (.mouseIsr b) }.wake
  | .pitIsr => if s.pc = .off then s else { s with ticks := s.ticks + 1 }.wake
  | .cpu => s.cpu scr

/-- The kernel after the events. -/
def run (events : List Event) : State := events.foldl (step scr) .boot

end

def keyOf : Desktop.Event → Option UInt8
  | .key b => some b
  | _ => none

def byteOf : Desktop.Event → Option UInt8
  | .mouse b => some b
  | _ => none

namespace State

variable (s : State)

/-- The scan codes and the bytes that the desktop has handled. -/
def handledKeys : List UInt8 := s.trace.filterMap keyOf

def handledBytes : List UInt8 := s.trace.filterMap byteOf

end State

/-! ## The queues of a run -/

def keyCame : Event → Option UInt8
  | .keyboardIsr b => some b
  | _ => none

def byteCame : Event → Option UInt8
  | .mouseIsr b => some b
  | _ => none

variable {scr : Desktop.Platform}

theorem run_concat (events : List Event) (e : Event) :
    run scr (events ++ [e]) = step scr (run scr events) e := by
  rw [run, List.foldl_append]
  rfl

/-- After the shutdown nothing happens. -/
theorem step_off {s : State} (h : s.pc = .off) (e : Event) : step scr s e = s := by
  cases e with
  | cpu =>
    show s.cpu scr = s
    rw [State.cpu, h]
  | _ => exact if_pos h

section

variable {s : State} (h : s.pc ≠ .off)

include h

theorem step_keyboardIsr (b : UInt8) :
    step scr s (.keyboardIsr b) = { s with queues := Input.step s.queues (.keyboardIsr b) }.wake := if_neg h

theorem step_mouseIsr (b : UInt8) :
    step scr s (.mouseIsr b) = { s with queues := Input.step s.queues (.mouseIsr b) }.wake := if_neg h

theorem step_pitIsr : step scr s .pitIsr = { s with ticks := s.ticks + 1 }.wake := if_neg h

end

/-- One step is at most one step of the queues. -/
theorem step_queues (s : State) (e : Event) :
    (step scr s e).queues = s.queues ∨
      ∃ ie, (step scr s e).queues = Input.step s.queues ie ∧
        Input.keyboardByte ie = keyCame e ∧ Input.mouseByte ie = byteCame e := by
  by_cases hoff : s.pc = .off
  · exact .inl (congrArg State.queues (step_off hoff e))
  · cases e with
    | keyboardIsr b => exact .inr ⟨.keyboardIsr b, congrArg State.queues (step_keyboardIsr hoff b), rfl, rfl⟩
    | mouseIsr b => exact .inr ⟨.mouseIsr b, congrArg State.queues (step_mouseIsr hoff b), rfl, rfl⟩
    | pitIsr =>
      left
      rw [step_pitIsr hoff]
      rfl
    | cpu =>
      unfold step State.cpu
      cases s.pc with
      | keys => exact .inr ⟨.keyboardPopScancode, rfl, rfl, rfl⟩
      | bytes => exact .inr ⟨.mousePopByte, rfl, rfl, rfl⟩
      | _ => exact .inl rfl

/-- **A run of the kernel is a run of the queues**, with the bytes that came. -/
theorem run_queues (events : List Event) : ∃ is, (run scr events).queues = Input.after is ∧
    (is.filterMap Input.keyboardByte).Sublist (events.filterMap keyCame) ∧
    (is.filterMap Input.mouseByte).Sublist (events.filterMap byteCame) := by
  induction events using List.reverseRecOn with
  | nil => exact ⟨[], rfl, List.nil_sublist _, List.nil_sublist _⟩
  | append_singleton events e ih =>
    obtain ⟨is, hqueues, hkeys, hbytes⟩ := ih
    rw [run_concat, List.filterMap_append, List.filterMap_append]
    rcases step_queues (run scr events) e with hsame | ⟨ie, hstep, hkey, hbyte⟩
    · exact ⟨is, hsame.trans hqueues, hkeys.trans (List.sublist_append_left _ _),
        hbytes.trans (List.sublist_append_left _ _)⟩
    · refine ⟨is ++ [ie], ?_, ?_, ?_⟩
      · rw [hstep, hqueues, Input.after_concat]
      · rw [List.filterMap_append]
        refine hkeys.append ?_
        rw [List.filterMap_cons, List.filterMap_cons, hkey]
        exact List.Sublist.refl _
      · rw [List.filterMap_append]
        refine hbytes.append ?_
        rw [List.filterMap_cons, List.filterMap_cons, hbyte]
        exact List.Sublist.refl _

/-! ## The invariant -/

/-- The steps that a consumer has taken for the next byte. -/
def taken (q : Input.Queue) : ℕ :=
  match q.consumer with
  | .idle => 0
  | .tested => 1
  | .got _ => 2

/-- A step of a consumer goes on, finds the queue empty, or returns a byte. -/
theorem pop_cases (mask : UInt8) (q : Input.Queue) :
    (returns q = none ∧ (Input.pop mask q).popped = q.popped ∧ taken (Input.pop mask q) = taken q + 1) ∨
    (returns q = some none ∧ Input.pop mask q = q ∧ q.consumer = .idle ∧ q.tail = q.head) ∨
    ∃ b, returns q = some (some b) ∧ (Input.pop mask q).popped = q.popped ++ [b] ∧
      (Input.pop mask q).consumer = .idle ∧ taken q = 2 := by
  unfold returns Input.pop taken
  cases hc : q.consumer with
  | idle =>
    by_cases hempty : q.tail = q.head
    · simp [hempty, hc]
    · simp [hempty]
  | tested => simp
  | got b => simp

theorem isr_popped (mask b : UInt8) (q : Input.Queue) : (Input.isr mask b q).popped = q.popped := by
  unfold Input.isr
  simp only
  split <;> rfl

theorem isr_consumer (mask b : UInt8) (q : Input.Queue) : (Input.isr mask b q).consumer = q.consumer := by
  unfold Input.isr
  simp only
  split <;> rfl

/-- What is popped is handled or in hand; outside its loop a consumer is idle. -/
structure Inv (scr : Desktop.Platform) (s : State) : Prop where
  keyQueue : s.queues.keyq.Ok 64
  byteQueue : s.queues.mouseq.Ok 128
  keys : s.handledKeys ++ s.pc.keyInHand = s.queues.keyq.popped
  bytes : s.handledBytes ++ s.pc.byteInHand = s.queues.mouseq.popped
  keyIdle : s.pc ≠ .keys → s.queues.keyq.consumer = .idle
  byteIdle : s.pc ≠ .bytes → s.queues.mouseq.consumer = .idle
  desk : s.desk = Desktop.after scr s.trace
  off : s.pc = .off ↔ s.desk.halted = true

theorem boot_inv : Inv scr .boot where
  keyQueue := Input.Queue.boot_ok (by decide)
  byteQueue := Input.Queue.boot_ok (by decide)
  keys := rfl
  bytes := rfl
  keyIdle := fun h => absurd rfl h
  byteIdle := fun _ => rfl
  desk := rfl
  off := by decide

section

variable {s : State} (h : Inv scr s)

include h

/-- An interrupt leaves the consumers alone. -/
theorem Inv.interrupted {queues : Input.Queues} (ticks : UInt64)
    (hkeyOk : queues.keyq.Ok 64) (hbyteOk : queues.mouseq.Ok 128)
    (hkey : queues.keyq.popped = s.queues.keyq.popped ∧ queues.keyq.consumer = s.queues.keyq.consumer)
    (hbyte : queues.mouseq.popped = s.queues.mouseq.popped ∧
      queues.mouseq.consumer = s.queues.mouseq.consumer) :
    Inv scr { s with queues := queues, ticks := ticks }.wake := by
  have hkeys := h.keys
  have hbytes := h.bytes
  have hhalted := h.off
  unfold State.wake
  by_cases hasleep : s.pc = .asleep
  · simp only [State.handledKeys, Pc.keyInHand, State.handledBytes, Pc.byteInHand, hasleep] at hkeys hbytes
    simp only [hasleep, if_true]
    refine ⟨hkeyOk, hbyteOk, ?_, ?_, fun hne => absurd rfl hne, fun _ => ?_, h.desk, ?_⟩
    · rw [hkey.1]
      exact hkeys
    · rw [hbyte.1]
      exact hbytes
    · rw [hbyte.2]
      exact h.byteIdle (by rw [hasleep]; decide)
    · rw [hasleep] at hhalted
      exact iff_of_false nofun fun hon => nomatch hhalted.mpr hon
  · simp only [hasleep, if_false]
    refine ⟨hkeyOk, hbyteOk, ?_, ?_, fun hne => ?_, fun hne => ?_, h.desk, hhalted⟩
    · rw [hkey.1]
      exact hkeys
    · rw [hbyte.1]
      exact hbytes
    · rw [hkey.2]
      exact h.keyIdle hne
    · rw [hbyte.2]
      exact h.byteIdle hne

/-- The desktop handles what is in hand. -/
theorem Inv.handle {e : Desktop.Event} {next : Pc} (hkey : s.pc.keyInHand = (keyOf e).toList)
    (hbyte : s.pc.byteInHand = (byteOf e).toList) (hkeyIdle : s.pc ≠ .keys) (hbyteIdle : s.pc ≠ .bytes)
    (hnext : next = .keys ∨ next = .bytes ∨ next = .hlt) : Inv scr (s.handle scr e next) := by
  have hdesk : Desktop.step scr s.desk e = Desktop.after scr (s.trace ++ [e]) := by
    rw [h.desk, Desktop.after, Desktop.after, List.foldl_append]
    rfl
  have hhands : (s.handle scr e next).pc.keyInHand = [] ∧ (s.handle scr e next).pc.byteInHand = [] := by
    have hpc : (s.handle scr e next).pc = if (Desktop.step scr s.desk e).halted then .off else next := rfl
    rw [hpc]
    cases (Desktop.step scr s.desk e).halted with
    | true => exact ⟨rfl, rfl⟩
    | false => rcases hnext with rfl | rfl | rfl <;> exact ⟨rfl, rfl⟩
  refine ⟨h.keyQueue, h.byteQueue, ?_, ?_, fun _ => h.keyIdle hkeyIdle, fun _ => h.byteIdle hbyteIdle, hdesk, ?_⟩
  · rw [hhands.1, List.append_nil]
    show (s.trace ++ [e]).filterMap keyOf = s.queues.keyq.popped
    rw [← h.keys, hkey, List.filterMap_append, List.filterMap_cons]
    cases keyOf e with
    | none => rfl
    | some b => rfl
  · rw [hhands.2, List.append_nil]
    show (s.trace ++ [e]).filterMap byteOf = s.queues.mouseq.popped
    rw [← h.bytes, hbyte, List.filterMap_append, List.filterMap_cons]
    cases byteOf e with
    | none => rfl
    | some b => rfl
  · unfold State.handle
    simp only
    cases (Desktop.step scr s.desk e).halted with
    | true => exact iff_of_true rfl rfl
    | false => rcases hnext with rfl | rfl | rfl <;> exact iff_of_false (by decide) (by decide)

theorem Inv.interrupt {e : Event} (hoff : s.pc ≠ .off) (he : e ≠ .cpu) : Inv scr (step scr s e) := by
  cases e with
  | keyboardIsr b =>
    rw [step_keyboardIsr hoff]
    exact h.interrupted _ (Input.isr_ok Input.keyMask_advance h.keyQueue b) h.byteQueue
      ⟨isr_popped _ _ _, isr_consumer _ _ _⟩ ⟨rfl, rfl⟩
  | mouseIsr b =>
    rw [step_mouseIsr hoff]
    exact h.interrupted _ h.keyQueue (Input.isr_ok Input.mouseMask_advance h.byteQueue b) ⟨rfl, rfl⟩
      ⟨isr_popped _ _ _, isr_consumer _ _ _⟩
  | pitIsr =>
    rw [step_pitIsr hoff]
    exact h.interrupted _ h.keyQueue h.byteQueue ⟨rfl, rfl⟩ ⟨rfl, rfl⟩
  | cpu => exact absurd rfl he

/-- A step in the loop over the scan codes. -/
theorem Inv.popKey (hpc : s.pc = .keys) : Inv scr (s.cpu scr) := by
  have hok := Input.pop_ok Input.keyMask_advance h.keyQueue
  have hkeys := h.keys
  have hbytes := h.bytes
  have hruns : ¬ s.desk.halted = true := by
    rw [← h.off, hpc]
    exact nofun
  have hbyteIdle := h.byteIdle (by rw [hpc]; exact nofun)
  rw [hpc] at hkeys hbytes
  unfold State.cpu
  rw [hpc]
  simp only
  rcases pop_cases Input.keyMask s.queues.keyq with ⟨hret, hpop, -⟩ | ⟨hret, hpop, hidle, -⟩ | ⟨b, hret, hpop, hidle, -⟩
  · rw [hret]
    refine ⟨hok, h.byteQueue, hkeys.trans hpop.symm, hbytes, fun hne => absurd rfl hne, fun _ => hbyteIdle, h.desk,
      iff_of_false nofun hruns⟩
  · rw [hret]
    refine ⟨hok, h.byteQueue, ?_, hbytes, fun _ => ?_, fun _ => hbyteIdle, h.desk, iff_of_false nofun hruns⟩
    · show s.handledKeys ++ [] = (Input.pop Input.keyMask s.queues.keyq).popped
      rw [hpop]
      exact hkeys
    · show (Input.pop Input.keyMask s.queues.keyq).consumer = .idle
      rw [hpop]
      exact hidle
  · rw [hret]
    refine ⟨hok, h.byteQueue, ?_, hbytes, fun _ => hidle, fun _ => hbyteIdle, h.desk, iff_of_false nofun hruns⟩
    show s.handledKeys ++ [b] = (Input.pop Input.keyMask s.queues.keyq).popped
    rw [hpop, ← hkeys]
    exact congrArg (fun l => l ++ [b]) (List.append_nil s.handledKeys).symm

/-- A step in the loop over the mouse's bytes. -/
theorem Inv.popByte (hpc : s.pc = .bytes) : Inv scr (s.cpu scr) := by
  have hok := Input.pop_ok Input.mouseMask_advance h.byteQueue
  have hkeys := h.keys
  have hbytes := h.bytes
  have hruns : ¬ s.desk.halted = true := by
    rw [← h.off, hpc]
    exact nofun
  have hkeyIdle := h.keyIdle (by rw [hpc]; exact nofun)
  rw [hpc] at hkeys hbytes
  unfold State.cpu
  rw [hpc]
  simp only
  rcases pop_cases Input.mouseMask s.queues.mouseq with ⟨hret, hpop, -⟩ | ⟨hret, hpop, hidle, -⟩ |
    ⟨b, hret, hpop, hidle, -⟩
  · rw [hret]
    refine ⟨h.keyQueue, hok, hkeys, hbytes.trans hpop.symm, fun _ => hkeyIdle, fun hne => absurd rfl hne, h.desk,
      iff_of_false nofun hruns⟩
  · rw [hret]
    refine ⟨h.keyQueue, hok, hkeys, ?_, fun _ => hkeyIdle, fun _ => ?_, h.desk, iff_of_false nofun hruns⟩
    · show s.handledBytes ++ [] = (Input.pop Input.mouseMask s.queues.mouseq).popped
      rw [hpop]
      exact hbytes
    · show (Input.pop Input.mouseMask s.queues.mouseq).consumer = .idle
      rw [hpop]
      exact hidle
  · rw [hret]
    refine ⟨h.keyQueue, hok, hkeys, ?_, fun _ => hkeyIdle, fun _ => hidle, h.desk, iff_of_false nofun hruns⟩
    show s.handledBytes ++ [b] = (Input.pop Input.mouseMask s.queues.mouseq).popped
    rw [hpop, ← hbytes]
    exact congrArg (fun l => l ++ [b]) (List.append_nil s.handledBytes).symm

/-- A step that only moves on. -/
theorem Inv.move {pc : Pc} (hhere : s.pc = .netPoll ∨ s.pc = .hlt) (hthere : pc = .tick ∨ pc = .asleep) :
    Inv scr { s with pc := pc } := by
  have hruns : ¬ s.desk.halted = true := by
    rw [← h.off]
    rcases hhere with hpc | hpc <;> rw [hpc] <;> exact nofun
  have hkeyIdle := h.keyIdle (by rcases hhere with hpc | hpc <;> rw [hpc] <;> exact nofun)
  have hbyteIdle := h.byteIdle (by rcases hhere with hpc | hpc <;> rw [hpc] <;> exact nofun)
  have hkeys : s.handledKeys ++ [] = s.queues.keyq.popped := by
    rw [← h.keys]
    rcases hhere with hpc | hpc <;> rw [hpc] <;> rfl
  have hbytes : s.handledBytes ++ [] = s.queues.mouseq.popped := by
    rw [← h.bytes]
    rcases hhere with hpc | hpc <;> rw [hpc] <;> rfl
  rcases hthere with rfl | rfl
  · exact ⟨h.keyQueue, h.byteQueue, hkeys, hbytes, fun _ => hkeyIdle, fun _ => hbyteIdle, h.desk,
      iff_of_false nofun hruns⟩
  · exact ⟨h.keyQueue, h.byteQueue, hkeys, hbytes, fun _ => hkeyIdle, fun _ => hbyteIdle, h.desk,
      iff_of_false nofun hruns⟩

theorem Inv.cpu : Inv scr (s.cpu scr) := by
  cases hpc : s.pc with
  | keys => exact h.popKey hpc
  | bytes => exact h.popByte hpc
  | key b =>
    have hstep : s.cpu scr = s.handle scr (.key b) .keys := by rw [State.cpu, hpc]
    rw [hstep]
    refine h.handle ?_ ?_ ?_ ?_ (.inl rfl) <;> rw [hpc]
    · rfl
    · rfl
    · exact nofun
    · exact nofun
  | byte b =>
    have hstep : s.cpu scr = s.handle scr (.mouse b) .bytes := by rw [State.cpu, hpc]
    rw [hstep]
    refine h.handle ?_ ?_ ?_ ?_ (.inr (.inl rfl)) <;> rw [hpc]
    · rfl
    · rfl
    · exact nofun
    · exact nofun
  | tick =>
    have hstep : s.cpu scr = s.handle scr (.tick (second s.ticks)) .hlt := by rw [State.cpu, hpc]
    rw [hstep]
    refine h.handle ?_ ?_ ?_ ?_ (.inr (.inr rfl)) <;> rw [hpc]
    · rfl
    · rfl
    · exact nofun
    · exact nofun
  | netPoll =>
    have hstep : s.cpu scr = { s with pc := .tick } := by rw [State.cpu, hpc]
    rw [hstep]
    exact h.move (.inl hpc) (.inl rfl)
  | hlt =>
    have hstep : s.cpu scr = { s with pc := .asleep } := by rw [State.cpu, hpc]
    rw [hstep]
    exact h.move (.inr hpc) (.inr rfl)
  | asleep =>
    have hstep : s.cpu scr = s := by rw [State.cpu, hpc]
    rw [hstep]
    exact h
  | off =>
    have hstep : s.cpu scr = s := by rw [State.cpu, hpc]
    rw [hstep]
    exact h

theorem Inv.step (e : Event) : Inv scr (step scr s e) := by
  by_cases hoff : s.pc = .off
  · rw [step_off hoff]
    exact h
  · by_cases hcpu : e = .cpu
    · rw [hcpu]
      exact h.cpu
    · exact h.interrupt hoff hcpu

end

theorem run_inv (events : List Event) : Inv scr (run scr events) := by
  induction events using List.reverseRecOn with
  | nil => exact boot_inv
  | append_singleton events e ih =>
    rw [run_concat]
    exact ih.step e

/-! ## What the desktop has handled -/

/-- What the loop has done with a queue of `n` slots into which the bytes `came` were to be put: `handled`
went to the desktop, `inHand` is popped. -/
structure Served (n : ℕ) (mask : UInt8) (came handled inHand : List UInt8) (q : Input.Queue) : Prop where
  in_order : handled ++ inHand <+: q.accepted
  accepted : q.accepted.Sublist came
  dropped : ∀ b, (Input.isr mask b q).accepted =
    if q.accepted.length = (handled ++ inHand).length + (n - 1) then q.accepted else q.accepted ++ [b]

/-- **The desktop is what the accepted bytes make of it**, each handled once and in order. -/
theorem loop_handles (events : List Event) :
    let s := run scr events
    s.desk = Desktop.after scr s.trace ∧ (s.pc = .off ↔ s.desk.halted = true) ∧
      Served 64 Input.keyMask (events.filterMap keyCame) s.handledKeys s.pc.keyInHand s.queues.keyq ∧
      Served 128 Input.mouseMask (events.filterMap byteCame) s.handledBytes s.pc.byteInHand s.queues.mouseq := by
  intro s
  have h : Inv scr s := run_inv events
  obtain ⟨is, hqueues, hkeys, hbytes⟩ := @run_queues scr events
  have hsub := Input.after_sublist is
  rw [← hqueues] at hsub
  refine ⟨h.desk, h.off, ⟨?_, hsub.1.trans hkeys, fun b => ?_⟩, ⟨?_, hsub.2.trans hbytes, fun b => ?_⟩⟩
  · rw [h.keys]
    exact h.keyQueue.popped
  · rw [h.keys]
    exact Input.isr_accepted Input.keyMask_advance h.keyQueue b
  · rw [h.bytes]
    exact h.byteQueue.popped
  · rw [h.bytes]
    exact Input.isr_accepted Input.mouseMask_advance h.byteQueue b

/-! ## A turn of the loop -/

/-- The bytes that are accepted and not popped. -/
def pending (q : Input.Queue) : ℕ := q.accepted.length - q.popped.length

/-- The steps until the loop sleeps, if nothing comes: a byte is tested, read, taken out and handled. -/
def workAt (q : Input.Queues) : Pc → ℕ
  | .keys => 4 * pending q.keyq + 4 * pending q.mouseq + 5 - taken q.keyq
  | .key _ => 4 * pending q.keyq + 4 * pending q.mouseq + 6
  | .bytes => 4 * pending q.mouseq + 4 - taken q.mouseq
  | .byte _ => 4 * pending q.mouseq + 5
  | .netPoll => 3
  | .tick => 2
  | .hlt => 1
  | .asleep => 0
  | .off => 0

def State.work (s : State) : ℕ := workAt s.queues s.pc

/-- The loop is asleep, or the machine is off. -/
def State.Resting (s : State) : Prop := s.pc = .asleep ∨ s.pc = .off

/-- The steps of the loop. -/
def own : Event → Bool
  | .cpu => true
  | _ => false

/-- The interrupts that bring a byte. -/
def brings : Event → Bool
  | .keyboardIsr _ | .mouseIsr _ => true
  | _ => false

theorem taken_le (q : Input.Queue) : taken q ≤ 2 := by
  unfold taken
  cases q.consumer with
  | idle => exact Nat.zero_le 2
  | tested => exact Nat.le_succ 1
  | got b => exact Nat.le_refl 2

theorem taken_idle {q : Input.Queue} (h : q.consumer = .idle) : taken q = 0 := by rw [taken, h]

/-- A step of a consumer that returns a byte finds one. -/
theorem pending_pop {n : ℕ} {mask b : UInt8} {q : Input.Queue} (hok : (Input.pop mask q).Ok n)
    (hpop : (Input.pop mask q).popped = q.popped ++ [b]) : pending (Input.pop mask q) + 1 = pending q := by
  have hle := hok.popped.length_le
  unfold pending
  rw [hpop, Input.pop_accepted, List.length_append, List.length_singleton] at hle ⊢
  omega

theorem pending_of_popped {mask : UInt8} {q : Input.Queue} (hpop : (Input.pop mask q).popped = q.popped) :
    pending (Input.pop mask q) = pending q := by
  rw [pending, pending, hpop, Input.pop_accepted]

/-- An interrupt brings one byte at most. -/
theorem pending_isr (mask b : UInt8) (q : Input.Queue) :
    pending (Input.isr mask b q) ≤ pending q + 1 ∧ taken (Input.isr mask b q) = taken q := by
  constructor
  · rw [pending, pending, isr_popped]
    rcases Input.isr_accepted_cases mask b q with hsame | hlonger
    · rw [hsame]
      omega
    · rw [hlonger, List.length_append, List.length_singleton]
      omega
  · rw [taken, taken, isr_consumer]

section

variable {s : State} (h : Inv scr s)

include h

theorem Inv.work_popKey (hpc : s.pc = .keys) : (s.cpu scr).work + 1 ≤ s.work := by
  have hok := Input.pop_ok Input.keyMask_advance h.keyQueue
  have htaken := taken_le (Input.pop Input.keyMask s.queues.keyq)
  have hcpu : (s.cpu scr).work = workAt (Input.step s.queues .keyboardPopScancode)
      (whileNext (returns s.queues.keyq) .keys .key .bytes) := by
    rw [State.work, State.cpu, hpc]
  rw [hcpu, State.work, hpc]
  rcases pop_cases Input.keyMask s.queues.keyq with ⟨hret, hpop, hone⟩ | ⟨hret, -, hidle, -⟩ | ⟨b, hret, hpop, -, htwo⟩
  · rw [hret]
    have hsame := pending_of_popped hpop
    show 4 * pending (Input.pop Input.keyMask s.queues.keyq) + 4 * pending s.queues.mouseq + 5 -
        taken (Input.pop Input.keyMask s.queues.keyq) + 1 ≤
      4 * pending s.queues.keyq + 4 * pending s.queues.mouseq + 5 - taken s.queues.keyq
    omega
  · rw [hret]
    show 4 * pending s.queues.mouseq + 4 - taken s.queues.mouseq + 1 ≤
      4 * pending s.queues.keyq + 4 * pending s.queues.mouseq + 5 - taken s.queues.keyq
    rw [taken_idle hidle]
    omega
  · rw [hret]
    have hless := pending_pop hok hpop
    show 4 * pending (Input.pop Input.keyMask s.queues.keyq) + 4 * pending s.queues.mouseq + 6 + 1 ≤
      4 * pending s.queues.keyq + 4 * pending s.queues.mouseq + 5 - taken s.queues.keyq
    omega

theorem Inv.work_popByte (hpc : s.pc = .bytes) : (s.cpu scr).work + 1 ≤ s.work := by
  have hok := Input.pop_ok Input.mouseMask_advance h.byteQueue
  have htaken := taken_le (Input.pop Input.mouseMask s.queues.mouseq)
  have hcpu : (s.cpu scr).work = workAt (Input.step s.queues .mousePopByte)
      (whileNext (returns s.queues.mouseq) .bytes .byte .netPoll) := by
    rw [State.work, State.cpu, hpc]
  rw [hcpu, State.work, hpc]
  rcases pop_cases Input.mouseMask s.queues.mouseq with ⟨hret, hpop, hone⟩ | ⟨hret, -, hidle, -⟩ |
    ⟨b, hret, hpop, -, htwo⟩
  · rw [hret]
    have hsame := pending_of_popped hpop
    show 4 * pending (Input.pop Input.mouseMask s.queues.mouseq) + 4 -
        taken (Input.pop Input.mouseMask s.queues.mouseq) + 1 ≤
      4 * pending s.queues.mouseq + 4 - taken s.queues.mouseq
    omega
  · rw [hret]
    show 3 + 1 ≤ 4 * pending s.queues.mouseq + 4 - taken s.queues.mouseq
    rw [taken_idle hidle]
    omega
  · rw [hret]
    have hless := pending_pop hok hpop
    show 4 * pending (Input.pop Input.mouseMask s.queues.mouseq) + 5 + 1 ≤
      4 * pending s.queues.mouseq + 4 - taken s.queues.mouseq
    omega

end

/-- A call of the desktop leaves the work behind it, or none. -/
theorem work_handle (s : State) (e : Desktop.Event) (next : Pc) :
    (s.handle scr e next).work ≤ workAt s.queues next := by
  show workAt s.queues (if (Desktop.step scr s.desk e).halted then .off else next) ≤ workAt s.queues next
  cases (Desktop.step scr s.desk e).halted with
  | true => exact Nat.zero_le _
  | false => exact Nat.le_refl _

/-- **A step of the loop takes one off the work.** -/
theorem Inv.work_cpu {s : State} (h : Inv scr s) (hrest : ¬ s.Resting) : (s.cpu scr).work + 1 ≤ s.work := by
  cases hpc : s.pc with
  | keys => exact h.work_popKey hpc
  | bytes => exact h.work_popByte hpc
  | key b =>
    have hcpu : s.cpu scr = s.handle scr (.key b) .keys := by rw [State.cpu, hpc]
    have hle : (s.cpu scr).work ≤ workAt s.queues .keys := by
      rw [hcpu]
      exact work_handle s (.key b) .keys
    rw [State.work.eq_def s, hpc]
    refine Nat.le_trans (Nat.succ_le_succ hle) ?_
    exact Nat.succ_le_succ (Nat.sub_le _ _)
  | byte b =>
    have hcpu : s.cpu scr = s.handle scr (.mouse b) .bytes := by rw [State.cpu, hpc]
    have hle : (s.cpu scr).work ≤ workAt s.queues .bytes := by
      rw [hcpu]
      exact work_handle s (.mouse b) .bytes
    rw [State.work.eq_def s, hpc]
    refine Nat.le_trans (Nat.succ_le_succ hle) ?_
    exact Nat.succ_le_succ (Nat.sub_le _ _)
  | tick =>
    have hcpu : s.cpu scr = s.handle scr (.tick (second s.ticks)) .hlt := by rw [State.cpu, hpc]
    have hle : (s.cpu scr).work ≤ workAt s.queues .hlt := by
      rw [hcpu]
      exact work_handle s (.tick (second s.ticks)) .hlt
    rw [State.work.eq_def s, hpc]
    exact Nat.succ_le_succ hle
  | netPoll =>
    have hcpu : (s.cpu scr).work = 2 := by rw [State.work, State.cpu, hpc]; rfl
    rw [hcpu, State.work, hpc]
    exact Nat.le_refl 3
  | hlt =>
    have hcpu : (s.cpu scr).work = 0 := by rw [State.work, State.cpu, hpc]; rfl
    rw [hcpu, State.work, hpc]
    exact Nat.le_refl 1
  | asleep => exact absurd (.inl hpc) hrest
  | off => exact absurd (.inr hpc) hrest

/-- An interrupt adds the steps for one byte. -/
theorem work_interrupt {s : State} (hrest : ¬ s.Resting) {e : Event} (he : e ≠ .cpu) :
    (step scr s e).work ≤ s.work + if brings e = true then 4 else 0 := by
  have hoff : s.pc ≠ .off := fun hpc => hrest (.inr hpc)
  have hasleep : s.pc ≠ .asleep := fun hpc => hrest (.inl hpc)
  cases e with
  | keyboardIsr b =>
    obtain ⟨hmore, hsame⟩ := pending_isr Input.keyMask b s.queues.keyq
    rw [step_keyboardIsr hoff]
    show workAt (Input.step s.queues (.keyboardIsr b)) (if s.pc = .asleep then .keys else s.pc) ≤
      workAt s.queues s.pc + 4
    rw [if_neg hasleep]
    cases s.pc <;> simp only [workAt, Input.step, hsame] <;> omega
  | mouseIsr b =>
    obtain ⟨hmore, hsame⟩ := pending_isr Input.mouseMask b s.queues.mouseq
    rw [step_mouseIsr hoff]
    show workAt (Input.step s.queues (.mouseIsr b)) (if s.pc = .asleep then .keys else s.pc) ≤
      workAt s.queues s.pc + 4
    rw [if_neg hasleep]
    cases s.pc <;> simp only [workAt, Input.step, hsame] <;> omega
  | pitIsr =>
    rw [step_pitIsr hoff]
    show workAt s.queues (if s.pc = .asleep then .keys else s.pc) ≤ workAt s.queues s.pc
    rw [if_neg hasleep]
  | cpu => exact absurd rfl he

/-! ### What was there before -/

/-- A queue later on. -/
structure Grown (q q' : Input.Queue) : Prop where
  accepted : q.accepted <+: q'.accepted
  popped : q.popped.length ≤ q'.popped.length

theorem Grown.refl (q : Input.Queue) : Grown q q := ⟨List.prefix_refl _, Nat.le_refl _⟩

theorem isr_grown (mask b : UInt8) (q : Input.Queue) : Grown q (Input.isr mask b q) where
  accepted := by
    rcases Input.isr_accepted_cases mask b q with hsame | hlonger
    · rw [hsame]
    · rw [hlonger]
      exact List.prefix_append _ _
  popped := by rw [isr_popped]

theorem pop_grown (mask : UInt8) (q : Input.Queue) : Grown q (Input.pop mask q) where
  accepted := by rw [Input.pop_accepted]
  popped := by
    rcases pop_cases mask q with ⟨-, hpop, -⟩ | ⟨-, hpop, -⟩ | ⟨b, -, hpop, -⟩
    · rw [hpop]
    · rw [hpop]
    · rw [hpop, List.length_append]
      exact Nat.le_add_right _ _

theorem step_grown (s : State) (e : Event) :
    Grown s.queues.keyq (step scr s e).queues.keyq ∧ Grown s.queues.mouseq (step scr s e).queues.mouseq := by
  rcases @step_queues scr s e with hsame | ⟨ie, hstep, -⟩
  · rw [hsame]
    exact ⟨Grown.refl _, Grown.refl _⟩
  · rw [hstep]
    cases ie with
    | keyboardIsr b => exact ⟨isr_grown _ _ _, Grown.refl _⟩
    | mouseIsr b => exact ⟨Grown.refl _, isr_grown _ _ _⟩
    | keyboardPopScancode => exact ⟨pop_grown _ _, Grown.refl _⟩
    | mousePopByte => exact ⟨Grown.refl _, pop_grown _ _⟩

/-- The loop over the scan codes is not behind. -/
def Pc.owesKeys : Pc → Bool
  | .keys | .key _ | .off => true
  | _ => false

/-- The loop over the mouse's bytes is not behind. -/
def Pc.owesBytes : Pc → Bool
  | .netPoll | .tick | .hlt | .asleep => false
  | _ => true

/-- What was accepted at `s0` is popped when the loops are behind. -/
structure Since (scr : Desktop.Platform) (s0 s : State) : Prop where
  inv : Inv scr s
  keys : s0.queues.keyq.accepted <+: s.queues.keyq.accepted
  bytes : s0.queues.mouseq.accepted <+: s.queues.mouseq.accepted
  keysPopped : s.pc.owesKeys = false → s0.queues.keyq.accepted.length ≤ s.queues.keyq.popped.length
  bytesPopped : s.pc.owesBytes = false → s0.queues.mouseq.accepted.length ≤ s.queues.mouseq.popped.length

/-- An interrupt while the loop runs does not move it. -/
theorem step_pc {s : State} (hrest : ¬ s.Resting) {e : Event} (he : e ≠ .cpu) : (step scr s e).pc = s.pc := by
  have hoff : s.pc ≠ .off := fun hpc => hrest (.inr hpc)
  have hasleep : s.pc ≠ .asleep := fun hpc => hrest (.inl hpc)
  cases e with
  | keyboardIsr b =>
    rw [step_keyboardIsr hoff]
    exact if_neg hasleep
  | mouseIsr b =>
    rw [step_mouseIsr hoff]
    exact if_neg hasleep
  | pitIsr =>
    rw [step_pitIsr hoff]
    exact if_neg hasleep
  | cpu => exact absurd rfl he

theorem handle_pc (s : State) (e : Desktop.Event) (next : Pc) :
    (s.handle scr e next).pc = .off ∨ (s.handle scr e next).pc = next := by
  show (if (Desktop.step scr s.desk e).halted then Pc.off else next) = .off ∨
    (if (Desktop.step scr s.desk e).halted then Pc.off else next) = next
  cases (Desktop.step scr s.desk e).halted with
  | true => exact .inl rfl
  | false => exact .inr rfl

/-- A queue that a consumer finds empty. -/
theorem popped_of_empty {n : ℕ} {q : Input.Queue} (hok : q.Ok n) (hempty : q.tail = q.head) :
    q.popped.length = q.accepted.length :=
  hok.ring.empty_iff.mp (congrArg UInt8.toNat hempty)

section

variable {s0 s : State} (h : Since scr s0 s)

include h

theorem Since.keysPopped_cpu (hpast : (s.cpu scr).pc.owesKeys = false) :
    s0.queues.keyq.accepted.length ≤ (s.cpu scr).queues.keyq.popped.length := by
  have hgrown : Grown s.queues.keyq (s.cpu scr).queues.keyq := (@step_grown scr s .cpu).1
  by_cases howes : s.pc.owesKeys = false
  · exact (h.keysPopped howes).trans hgrown.popped
  · cases hpc : s.pc with
    | keys =>
      have hcpu : (s.cpu scr).pc = whileNext (returns s.queues.keyq) .keys .key .bytes := by rw [State.cpu, hpc]
      rw [hcpu] at hpast
      rcases pop_cases Input.keyMask s.queues.keyq with ⟨hret, -⟩ | ⟨-, -, -, hempty⟩ | ⟨b, hret, -⟩
      · rw [hret] at hpast
        cases hpast
      · refine Nat.le_trans ?_ hgrown.popped
        rw [popped_of_empty h.inv.keyQueue hempty]
        exact h.keys.length_le
      · rw [hret] at hpast
        cases hpast
    | key b =>
      have hcpu : s.cpu scr = s.handle scr (.key b) .keys := by rw [State.cpu, hpc]
      rw [hcpu] at hpast
      rcases @handle_pc scr s (.key b) .keys with hnext | hnext <;> rw [hnext] at hpast <;>
        exact absurd hpast nofun
    | off =>
      have hcpu : s.cpu scr = s := by rw [State.cpu, hpc]
      rw [hcpu] at hpast
      exact absurd hpast howes
    | _ => exact absurd (by rw [hpc]; rfl) howes

theorem Since.bytesPopped_cpu (hpast : (s.cpu scr).pc.owesBytes = false) :
    s0.queues.mouseq.accepted.length ≤ (s.cpu scr).queues.mouseq.popped.length := by
  have hgrown : Grown s.queues.mouseq (s.cpu scr).queues.mouseq := (@step_grown scr s .cpu).2
  by_cases howes : s.pc.owesBytes = false
  · exact (h.bytesPopped howes).trans hgrown.popped
  · cases hpc : s.pc with
    | keys =>
      have hcpu : (s.cpu scr).pc = whileNext (returns s.queues.keyq) .keys .key .bytes := by rw [State.cpu, hpc]
      rw [hcpu] at hpast
      rcases pop_cases Input.keyMask s.queues.keyq with ⟨hret, -⟩ | ⟨hret, -⟩ | ⟨b, hret, -⟩ <;>
        rw [hret] at hpast <;> cases hpast
    | key b =>
      have hcpu : s.cpu scr = s.handle scr (.key b) .keys := by rw [State.cpu, hpc]
      rw [hcpu] at hpast
      rcases @handle_pc scr s (.key b) .keys with hnext | hnext <;> rw [hnext] at hpast <;>
        exact absurd hpast nofun
    | bytes =>
      have hcpu : (s.cpu scr).pc = whileNext (returns s.queues.mouseq) .bytes .byte .netPoll := by rw [State.cpu, hpc]
      rw [hcpu] at hpast
      rcases pop_cases Input.mouseMask s.queues.mouseq with ⟨hret, -⟩ | ⟨-, -, -, hempty⟩ | ⟨b, hret, -⟩
      · rw [hret] at hpast
        cases hpast
      · refine Nat.le_trans ?_ hgrown.popped
        rw [popped_of_empty h.inv.byteQueue hempty]
        exact h.bytes.length_le
      · rw [hret] at hpast
        cases hpast
    | byte b =>
      have hcpu : s.cpu scr = s.handle scr (.mouse b) .bytes := by rw [State.cpu, hpc]
      rw [hcpu] at hpast
      rcases @handle_pc scr s (.mouse b) .bytes with hnext | hnext <;> rw [hnext] at hpast <;>
        exact absurd hpast nofun
    | off =>
      have hcpu : s.cpu scr = s := by rw [State.cpu, hpc]
      rw [hcpu] at hpast
      exact absurd hpast howes
    | _ => exact absurd (by rw [hpc]; rfl) howes

theorem Since.step (hrest : ¬ s.Resting) (e : Event) : Since scr s0 (step scr s e) := by
  obtain ⟨hkeys, hbytes⟩ := @step_grown scr s e
  by_cases hcpu : e = .cpu
  · rw [hcpu] at hkeys hbytes ⊢
    exact ⟨h.inv.step .cpu, h.keys.trans hkeys.accepted, h.bytes.trans hbytes.accepted, h.keysPopped_cpu,
      h.bytesPopped_cpu⟩
  · have hpc := @step_pc scr s hrest e hcpu
    refine ⟨h.inv.step e, h.keys.trans hkeys.accepted, h.bytes.trans hbytes.accepted, fun hpast => ?_, fun hpast => ?_⟩
    · rw [hpc] at hpast
      exact (h.keysPopped hpast).trans hkeys.popped
    · rw [hpc] at hpast
      exact (h.bytesPopped hpast).trans hbytes.popped

end

/-! ### The turn -/

theorem State.resting_of_work {s : State} (hzero : s.work = 0) : s.Resting := by
  have hkeys := taken_le s.queues.keyq
  have hbytes := taken_le s.queues.mouseq
  rw [State.work] at hzero
  cases hpc : s.pc with
  | asleep => exact .inl hpc
  | off => exact .inr hpc
  | _ =>
    rw [hpc] at hzero
    simp only [workAt] at hzero
    omega

/-- The loop works, and the interrupts disturb it. -/
theorem working (s0 : State) : Lib.Working (step scr) own brings 4 (Since scr s0) State.Resting State.work where
  keeps := by
    intro s e h hrest
    exact h.step hrest e
  works := by
    intro s e h hrest hown
    cases e with
    | cpu => exact h.inv.work_cpu hrest
    | _ => cases hown
  disturbs := by
    intro s e h hrest hown
    refine work_interrupt hrest fun hcpu => ?_
    rw [hcpu] at hown
    cases hown
  finished := by
    intro s h hzero
    exact State.resting_of_work hzero

/-- A turn starts with full queues at most. -/
theorem Inv.work_keys {s : State} (h : Inv scr s) (hpc : s.pc = .keys) : s.work ≤ 765 := by
  have hkeys := h.keyQueue.ring.fits
  have hbytes := h.byteQueue.ring.fits
  rw [State.work, hpc]
  simp only [workAt, pending]
  omega

theorem Inv.handledKeys_eq {s : State} (h : Inv scr s) (hempty : s.pc.keyInHand = []) :
    s.handledKeys = s.queues.keyq.popped := by
  rw [← h.keys, hempty, List.append_nil]

theorem Inv.handledBytes_eq {s : State} (h : Inv scr s) (hempty : s.pc.byteInHand = []) :
    s.handledBytes = s.queues.mouseq.popped := by
  rw [← h.bytes, hempty, List.append_nil]

/-- **A turn of the loop.**  It goes to sleep, or the machine is off, after at most 765 steps and 4 more for
each byte that comes meanwhile, and has then handled what was accepted before. -/
theorem loop_serves (events later : List Event) (hkeys : (run scr events).pc = .keys)
    (henough : 765 + 4 * later.countP brings ≤ later.countP own) :
    ∃ pre, pre <+: later ∧
      let s := run scr events
      let t := run scr (events ++ pre)
      t.pc = .off ∨ t.pc = .asleep ∧ s.queues.keyq.accepted <+: t.handledKeys ∧
        s.queues.mouseq.accepted <+: t.handledBytes := by
  have hinv : Inv scr (run scr events) := run_inv events
  have hstart : Since scr (run scr events) (run scr events) := by
    refine ⟨hinv, List.prefix_refl _, List.prefix_refl _, fun hpast => ?_, fun hpast => ?_⟩ <;>
      rw [hkeys] at hpast <;> cases hpast
  have hwork := hinv.work_keys hkeys
  obtain ⟨pre, hpre, hrest, hsince⟩ := (working (run scr events)).arrives hstart later (by omega)
  have hrun : run scr (events ++ pre) = pre.foldl (step scr) (run scr events) := List.foldl_append
  rw [← hrun] at hrest hsince
  refine ⟨pre, hpre, ?_⟩
  rcases hrest with hasleep | hoff
  · right
    have hpopped := hsince.keysPopped (by rw [hasleep]; rfl)
    have hpopped' := hsince.bytesPopped (by rw [hasleep]; rfl)
    refine ⟨hasleep, ?_, ?_⟩
    · rw [hsince.inv.handledKeys_eq (by rw [hasleep]; rfl)]
      exact List.prefix_of_prefix_length_le hsince.keys hsince.inv.keyQueue.popped hpopped
    · rw [hsince.inv.handledBytes_eq (by rw [hasleep]; rfl)]
      exact List.prefix_of_prefix_length_le hsince.bytes hsince.inv.byteQueue.popped hpopped'
  · exact .inl hoff

/-- A scan code that came before the first turn. -/
theorem loop_serves_one :
    ∃ pre, pre <+: List.replicate 765 Event.cpu ∧
      let s := run ⟨1024, 768, 3⟩ [.keyboardIsr 0x1e]
      let t := run ⟨1024, 768, 3⟩ ([.keyboardIsr 0x1e] ++ pre)
      t.pc = .off ∨ t.pc = .asleep ∧ s.queues.keyq.accepted <+: t.handledKeys ∧
        s.queues.mouseq.accepted <+: t.handledBytes :=
  loop_serves [.keyboardIsr 0x1e] (List.replicate 765 .cpu) rfl (by
    rw [List.countP_replicate, List.countP_replicate]
    decide)

/-! ## Sleeping on a byte -/

theorem asleep_stays {s : State} (h : s.pc = .asleep) (n : ℕ) :
    (List.replicate n Event.cpu).foldl (step scr) s = s := by
  have hstep : step scr s .cpu = s := by
    show s.cpu scr = s
    rw [State.cpu, h]
  induction n with
  | zero => rfl
  | succ n ih => rw [List.replicate_succ, List.foldl_cons, hstep, ih]

/-- **A byte that comes before `hlt` waits.**  The loop goes to sleep on it, and however long the
processor waits nothing happens until the next interrupt, which starts a turn. -/
theorem sleeps_on_key (events : List Event) (hpc : (run scr events).pc = .hlt) (b : UInt8)
    (hroom : (run scr events).queues.keyq.accepted.length < (run scr events).handledKeys.length + 63) (n : ℕ) :
    let s := run scr events
    let t := run scr (events ++ .keyboardIsr b :: List.replicate (n + 1) .cpu)
    t.pc = .asleep ∧ t.queues.keyq.accepted = s.queues.keyq.accepted ++ [b] ∧ t.handledKeys = s.handledKeys ∧
      (step scr t .pitIsr).pc = .keys := by
  intro s t
  have hinv : Inv scr s := run_inv events
  have hpopped := hinv.handledKeys_eq (by rw [hpc]; rfl)
  have haccepted : (Input.isr Input.keyMask b s.queues.keyq).accepted = s.queues.keyq.accepted ++ [b] := by
    rw [Input.isr_accepted Input.keyMask_advance hinv.keyQueue, if_neg]
    rw [← hpopped]
    exact Nat.ne_of_lt hroom
  have hhere : s.pc = .hlt := hpc
  have hoff : s.pc ≠ .off := by
    rw [hhere]
    exact nofun
  have hmid : step scr s (.keyboardIsr b) = { s with queues := Input.step s.queues (.keyboardIsr b) } := by
    rw [step_keyboardIsr hoff, State.wake, if_neg (by rw [hhere]; exact nofun)]
  have hslept : step scr (step scr s (.keyboardIsr b)) .cpu =
      { s with queues := Input.step s.queues (.keyboardIsr b), pc := .asleep } := by
    rw [hmid]
    show State.cpu scr _ = _
    unfold State.cpu
    simp only [hhere]
  have ht : t = { s with queues := Input.step s.queues (.keyboardIsr b), pc := .asleep } := by
    show List.foldl (step scr) .boot (events ++ .keyboardIsr b :: List.replicate (n + 1) .cpu) = _
    rw [List.foldl_append, List.foldl_cons, List.replicate_succ, List.foldl_cons]
    show (List.replicate n Event.cpu).foldl (step scr) (step scr (step scr s (.keyboardIsr b)) .cpu) = _
    rw [hslept]
    exact asleep_stays rfl n
  rw [ht]
  exact ⟨rfl, haccepted, rfl, rfl⟩

/-- The first turn finds nothing, and then a key is pressed. -/
theorem sleeps_on_key_first :
    let s := run ⟨1024, 768, 3⟩ [.cpu, .cpu, .cpu, .cpu]
    let t := run ⟨1024, 768, 3⟩ ([.cpu, .cpu, .cpu, .cpu] ++ .keyboardIsr 0x1e :: List.replicate 8 .cpu)
    t.pc = .asleep ∧ t.queues.keyq.accepted = s.queues.keyq.accepted ++ [0x1e] ∧ t.handledKeys = s.handledKeys ∧
      (step ⟨1024, 768, 3⟩ t .pitIsr).pc = .keys :=
  sleeps_on_key [.cpu, .cpu, .cpu, .cpu] rfl 0x1e (by decide) 7

end Orion.Kernel
