import Mathlib.Data.List.Induction
import Orion.Netdev.Rtl8139

/-!
# What `poll` passes to its callback (`kernel/netdev_rtl8139.c`)

As long as the callback does not call `poll`, one activation walks from header to header, and what it
passes on is what the ring shows modulo 8192.  The spill area behind the ring is never read.

* `poll_intact_iff` — the frames arrive intact exactly if each of them fits;
* `poll_not_intact` — five frames that reach the end of the ring, and a sixth behind it.
-/

namespace Orion.Netdev.Rtl8139

/-! ## One activation -/

/-- Where the activation of `poll` is while the next header is the one of frame `m`.  So far `d` frames
were passed on, and the activation may pass on `left` more. -/
inductive Phase (log : List Entry) (cur m : ℕ) : List Activation → ℕ → ℕ → Prop
  | idle {left} : Phase log cur m [] m left
  | check {g off} : Phase log cur m [⟨g, off, .check⟩] m g
  | status {g off} : m < log.length → Phase log cur m [⟨g, off, .status⟩] m (g + 1)
  | length {g st} : m < log.length → st % 2 = 1 →
      Phase log cur m [⟨g, cur % ringSize, .length st⟩] m (g + 1)
  | copy {g n e} : log[m]? = some e → n ≤ e.frame.length →
      Phase log cur m [⟨g, cur % ringSize, .copy (e.frame.length + 4) (e.seen.take n)⟩] m (g + 1)
  | rx {g off e} : log[m]? = some e →
      Phase log cur m [⟨g, off, .rx (e.frame.length + 4)⟩] (m + 1) g

/-- The invariant of the runs without nested calls. -/
structure Inv (s : Rtl) (log : List Entry) (m d left : ℕ) : Prop where
  ready : Ready s log m
  phase : Phase log s.cur m s.calls d left
  delivered : s.delivered = (log.take d).map Entry.seen

theorem inv_boot (left : ℕ) : Inv boot [] 0 0 left where
  ready :=
    { received := rfl
      good := by simp
      taken := Nat.le_refl 0
      ring := Ring.Holds.start (by decide)
      cur := by decide
      capr := by decide }
  phase := .idle
  delivered := rfl

/-- The driver writes neither the ring nor what the device keeps. -/
theorem Rtl.tick_device (s : Rtl) (a : Activation) (calls : List Activation) :
    (s.tick a calls).rxbuf = s.rxbuf ∧ (s.tick a calls).cbr = s.cbr ∧
      (s.tick a calls).received = s.received := by
  obtain ⟨guard, off, pc⟩ := a
  cases pc with
  | check =>
    simp only [Rtl.tick]
    split
    · exact ⟨rfl, rfl, rfl⟩
    · exact ⟨rfl, rfl, rfl⟩
  | status => exact ⟨rfl, rfl, rfl⟩
  | length st =>
    simp only [Rtl.tick]
    split
    · exact ⟨rfl, rfl, rfl⟩
    · exact ⟨rfl, rfl, rfl⟩
  | copy len pkt =>
    simp only [Rtl.tick]
    split
    · exact ⟨rfl, rfl, rfl⟩
    · exact ⟨rfl, rfl, rfl⟩
  | rx len =>
    obtain ⟨cur, capr, h⟩ : ∃ cur capr, s.tick ⟨guard, off, .rx len⟩ calls =
        { s with cur := cur, capr := capr, calls := ⟨guard, off, .check⟩ :: calls } := ⟨_, _, rfl⟩
    rw [h]
    exact ⟨rfl, rfl, rfl⟩

section

variable {s t : Rtl} {log : List Entry} {m d left : ℕ} {e : Entry}

theorem Phase.extend {cur : ℕ} {calls : List Activation} (h : Phase log cur m calls d left)
    (e : Entry) : Phase (log ++ [e]) cur m calls d left := by
  have hlen : (log ++ [e]).length = log.length + 1 := List.length_append
  have hsame : ∀ {e'}, log[m]? = some e' → (log ++ [e])[m]? = some e' := by
    intro e' he
    rw [List.getElem?_append_left (List.getElem?_eq_some_iff.mp he).1, he]
  cases h with
  | idle => exact .idle
  | check => exact .check
  | status hlt => exact .status (by omega)
  | length hlt hst => exact .length (by omega) hst
  | copy he hn => exact .copy (hsame he) hn
  | rx he => exact .rx (hsame he)

theorem Inv.passed (h : Inv s log m d left) : d ≤ log.length := by
  have hm := h.ready.taken
  have hphase := h.phase
  generalize s.calls = calls at hphase
  cases hphase with
  | idle => exact hm
  | check => exact hm
  | status _ => exact hm
  | length _ _ => exact hm
  | copy _ _ => exact hm
  | rx he => exact (List.getElem?_eq_some_iff.mp he).1

theorem Inv.arrive (h : Inv s log m d left) {x : Arrival} (ht : s.arrive x = some t) :
    Inv t (log ++ [s.entry x]) m d left := by
  have hready := h.ready.arrive ht
  have hphase := h.phase.extend (s.entry x)
  have htake : (log ++ [s.entry x]).take d = log.take d := List.take_append_of_le_length h.passed
  have hdelivered := h.delivered
  rw [← htake] at hdelivered
  unfold Rtl.arrive at ht
  split at ht
  · obtain rfl := Option.some.inj ht
    exact ⟨hready, hphase, hdelivered⟩
  · simp at ht

/-- The kernel calls `poll`. -/
theorem Inv.call (h : Inv s log m d left) (hidle : s.calls = []) (ht : step s .call = some t) :
    d = m ∧ t.calls = [⟨32, 0, .check⟩] ∧ Inv t log m m 32 := by
  have hcallable : s.callable = true := by
    rw [Rtl.callable, hidle]
  have hd : d = m := by
    have hphase := h.phase
    rw [hidle] at hphase
    cases hphase
    rfl
  rw [step, if_pos hcallable] at ht
  obtain rfl := Option.some.inj ht
  refine ⟨hd, by rw [hidle], h.ready.anywhere _ _, ?_, by rw [← hd]; exact h.delivered⟩
  show Phase log s.cur m (⟨32, 0, .check⟩ :: s.calls) m 32
  rw [hidle]
  exact .check

theorem Entry.Good.seen_length (h : e.Good) : e.seen.length = e.frame.length := by
  have hroom := (room_spec e.frame.length).2.1
  rw [Entry.seen, List.length_take, List.length_drop, h.room]
  omega

/-- The header is accepted. -/
theorem Ready.tick_length (h : Ready s log m) (he : log[m]? = some e) {g st : ℕ} (hst : st % 2 = 1) :
    s.tick ⟨g, s.cur % ringSize, .length st⟩ [] =
      { s with calls := [⟨g, s.cur % ringSize, .copy (e.frame.length + 4) []⟩] } := by
  have hgood := h.good e (List.mem_of_getElem? he)
  have hframe := hgood.frame_ok
  have hlen : Rtl8139.word s.rxbuf (s.cur % ringSize + 2) = e.frame.length + 4 := by
    rw [h.word he (by omega), hgood.length]
  have haccept : ¬(st % 2 = 0 ∨ e.frame.length + 4 < 4 ∨ e.frame.length + 4 > 1600) := by omega
  simp only [Rtl.tick, hlen, if_neg haccept]

/-- One more byte is copied. -/
theorem Ready.tick_copy (h : Ready s log m) (he : log[m]? = some e) {g n : ℕ}
    (hn : n < e.frame.length) :
    s.tick ⟨g, s.cur % ringSize, .copy (e.frame.length + 4) (e.seen.take n)⟩ [] =
      { s with calls :=
          [⟨g, s.cur % ringSize, .copy (e.frame.length + 4) (e.seen.take (n + 1))⟩] } := by
  have hgood := h.good e (List.mem_of_getElem? he)
  have hseen := hgood.seen_length
  have hroom := (room_spec e.frame.length).2.1
  have hshown := hgood.room
  have htaken : (e.seen.take n).length = n := List.length_take_of_le (by omega)
  have hmore : n < e.frame.length + 4 - 4 := by omega
  have hlt : n < e.seen.length := by omega
  have hbyte : s.rxbuf ((s.cur % ringSize + 4 + n) % ringSize) = e.seen[n] := by
    rw [Nat.add_assoc, h.byte he (by omega)]
    simp only [Entry.seen, List.getElem_take, List.getElem_drop]
  simp only [Rtl.tick, htaken, if_pos hmore, hbyte]
  rw [List.take_append_getElem]

/-- The frame is complete. -/
theorem Ready.tick_complete (h : Ready s log m) (he : log[m]? = some e) {g off : ℕ} :
    s.tick ⟨g, off, .copy (e.frame.length + 4) (e.seen.take e.frame.length)⟩ [] =
      { s with
        delivered := s.delivered ++ [e.seen]
        calls := [⟨g, off, .rx (e.frame.length + 4)⟩] } := by
  have hseen := (h.good e (List.mem_of_getElem? he)).seen_length
  have hall : e.seen.take e.frame.length = e.seen := List.take_of_length_le (by omega)
  have hdone : ¬e.seen.length < e.frame.length + 4 - 4 := by omega
  simp only [Rtl.tick, hall, if_neg hdone]

/-- The callback has returned, and the room of the frame is given back. -/
theorem Ready.tick_rx (h : Ready s log m) (he : log[m]? = some e) (g off : ℕ) :
    ∃ t, s.tick ⟨g, off, .rx (e.frame.length + 4)⟩ [] = t ∧ Ready t log (m + 1) ∧
      t.delivered = s.delivered ∧ t.calls = [⟨g, off, .check⟩] := by
  obtain ⟨hm, -⟩ := List.getElem?_eq_some_iff.mp he
  have hgood := h.good e (List.mem_of_getElem? he)
  have haligned := h.cur_aligned
  have hnext : (s.cur + (e.frame.length + 4) + 4 + 3) / 4 * 4 = s.cur + e.shown.length := by
    rw [hgood.room, room]
    omega
  have hcount : (shownBytes (log.take (m + 1))).length =
      (shownBytes (log.take m)).length + e.shown.length := by
    rw [shownBytes_take_succ he, List.length_append]
  have hall := congrArg List.length (shownBytes_split he)
  simp only [List.length_append] at hall
  have hring := h.ring.release (k := e.shown.length) (by omega)
  rw [← hcount, h.tail] at hring
  have htail : (((s.cur + e.shown.length) % 2 ^ 16 + 2 ^ 16 - 16) % 2 ^ 16 + 16) % ringSize =
      (s.cur % ringSize + e.shown.length) % ringSize := by
    unfold ringSize
    omega
  have hbound : (s.cur + e.shown.length) % 2 ^ 16 < 2 ^ 16 := Nat.mod_lt _ (by decide)
  refine ⟨_, rfl, ?_⟩
  simp only [Rtl.tick, hnext]
  generalize (s.cur + e.shown.length) % 2 ^ 16 = cur at htail hbound ⊢
  rw [← htail] at hring
  exact ⟨⟨h.received, h.good, hm, hring, hbound, rfl⟩, trivial, trivial⟩

/-- Only `calls` change. -/
theorem Inv.goto {d' left' : ℕ} (h : Inv s log m d left) {calls : List Activation}
    (hphase : Phase log s.cur m calls d' left') (hd : d' = d) :
    Inv { s with calls := calls } log m d' left' :=
  ⟨h.ready.anywhere _ _, hphase, by rw [hd]; exact h.delivered⟩

/-- A step of the activation.  What it has passed on and what it may still pass on keep their sum, and
it ends when it may pass on nothing or nothing is there. -/
theorem Inv.tick (h : Inv s log m d left) {a : Activation} {calls : List Activation}
    (hcalls : s.calls = a :: calls) :
    calls = [] ∧ ∃ m' d' left', d' + left' = d + left ∧
      Inv (s.tick a []) log m' d' left' ∧
      ((s.tick a []).calls = [] → left' = 0 ∨ m' = log.length) := by
  have hready := h.ready
  have hphase := h.phase
  rw [hcalls] at hphase
  cases hphase with
  | check =>
    rename_i off
    refine ⟨rfl, ?_⟩
    by_cases hstop : left = 0 ∨ s.bufe = true
    · have htick : s.tick ⟨left, off, .check⟩ [] = { s with calls := [] } := by
        simp only [Rtl.tick, if_pos hstop]
      rw [htick]
      exact ⟨m, m, left, rfl, h.goto .idle rfl, fun _ => hstop.imp_right hready.bufe_iff.mp⟩
    · have htick : s.tick ⟨left, off, .check⟩ [] =
          { s with calls := [⟨left - 1, off, .status⟩] } := by
        simp only [Rtl.tick, if_neg hstop]
      obtain ⟨hleft, hbufe⟩ := not_or.mp hstop
      have hmore : m < log.length :=
        Nat.lt_of_le_of_ne hready.taken fun hall => hbufe (hready.bufe_iff.mpr hall)
      rw [htick]
      exact ⟨m, m, left - 1 + 1, by omega, h.goto (.status hmore) rfl, by simp⟩
  | status hmore =>
    rename_i g off
    have he := List.getElem?_eq_getElem hmore
    have hst : word s.rxbuf (s.cur % ringSize) % 2 = 1 := by
      rw [← Nat.add_zero (s.cur % ringSize), hready.word he (by omega)]
      exact (hready.good _ (List.getElem_mem hmore)).status
    exact ⟨rfl, m, m, g + 1, rfl, h.goto (.length hmore hst) rfl, by simp [Rtl.tick]⟩
  | length hmore hst =>
    rename_i g st
    have he := List.getElem?_eq_getElem hmore
    rw [hready.tick_length he hst]
    exact ⟨rfl, m, m, g + 1, rfl, h.goto (.copy he (Nat.zero_le _)) rfl, by simp⟩
  | copy he hn =>
    rename_i g n e
    rcases Nat.lt_or_eq_of_le hn with hn | rfl
    · rw [hready.tick_copy he hn]
      exact ⟨rfl, m, m, g + 1, rfl, h.goto (.copy he hn) rfl, by simp⟩
    · rw [hready.tick_complete he]
      refine ⟨rfl, m, m + 1, g, by omega, ⟨hready.anywhere _ _, .rx he, ?_⟩, by simp⟩
      rw [List.take_add_one, he, List.map_append, ← h.delivered]
      rfl
  | rx he =>
    rename_i off e
    obtain ⟨t, ht, hready', hdelivered, hcalls'⟩ := hready.tick_rx he left off
    rw [ht]
    refine ⟨rfl, m + 1, m + 1, left, rfl, ⟨hready', ?_, ?_⟩, by simp [hcalls']⟩
    · rw [hcalls']
      exact .check
    · rw [hdelivered]
      exact h.delivered

/-! ## The end of an activation -/

/-- How many steps an activation still takes at most, if its callback does not call `poll`. -/
def Activation.rank (a : Activation) : ℕ :=
  2000 * a.guard +
    match a.pc with
    | .check => 0
    | .status => 1701
    | .length _ => 1700
    | .copy len pkt => 2 + (len - 4 - pkt.length)
    | .rx _ => 1

/-- Each step ends the activation or brings it nearer to its end. -/
theorem Rtl.tick_rank (s : Rtl) (a : Activation) :
    (s.tick a []).calls = [] ∨ ∃ b, (s.tick a []).calls = [b] ∧ b.rank < a.rank := by
  obtain ⟨guard, off, pc⟩ := a
  cases pc with
  | check =>
    by_cases hstop : guard = 0 ∨ s.bufe = true
    · exact .inl (by simp only [Rtl.tick, if_pos hstop])
    · refine .inr ⟨⟨guard - 1, off, .status⟩, by simp only [Rtl.tick, if_neg hstop], ?_⟩
      have hguard := (not_or.mp hstop).1
      simp only [Activation.rank]
      omega
  | status => exact .inr ⟨_, rfl, by simp [Activation.rank]⟩
  | length st =>
    by_cases hbad : st % 2 = 0 ∨ word s.rxbuf (off + 2) < 4 ∨ word s.rxbuf (off + 2) > 1600
    · exact .inl (by simp only [Rtl.tick, if_pos hbad])
    · refine .inr ⟨_, by simp only [Rtl.tick, if_neg hbad]; rfl, ?_⟩
      simp only [Activation.rank, List.length_nil]
      omega
  | copy len pkt =>
    by_cases hmore : pkt.length < len - 4
    · refine .inr ⟨_, by simp only [Rtl.tick, if_pos hmore]; rfl, ?_⟩
      simp only [Activation.rank, List.length_append, List.length_singleton]
      omega
    · refine .inr ⟨_, by simp only [Rtl.tick, if_neg hmore]; rfl, ?_⟩
      simp only [Activation.rank]
      omega
  | rx len => exact .inr ⟨_, rfl, by simp [Activation.rank]⟩

/-- **An activation ends**, and only because it may pass on nothing more or nothing is there. -/
theorem Inv.finish {s : Rtl} {log : List Entry} {m d left : ℕ} {a : Activation}
    (h : Inv s log m d left) (hcalls : s.calls = [a]) :
    ∃ ticks t m' left', run (List.replicate ticks .tick) s = some t ∧ t.calls = [] ∧
      (t.rxbuf = s.rxbuf ∧ t.cbr = s.cbr ∧ t.received = s.received) ∧ Inv t log m' m' left' ∧
      m' + left' = d + left ∧ (left' = 0 ∨ m' = log.length) := by
  induction hrank : a.rank using Nat.strong_induction_on generalizing s m d left a with
  | _ rank ih =>
    obtain ⟨-, m', d', left', hsum, hinv, hend⟩ := h.tick hcalls
    have hstep : step s .tick = some (s.tick a []) := by
      simp only [step, hcalls]
    have hdevice := s.tick_device a []
    obtain hdone | ⟨b, hb, hless⟩ := s.tick_rank a
    · have hd : d' = m' := by
        have hphase := hinv.phase
        rw [hdone] at hphase
        cases hphase
        rfl
      subst hd
      refine ⟨1, s.tick a [], d', left', ?_, hdone, hdevice, hinv, hsum, hend hdone⟩
      rw [List.replicate_one, run_cons, hstep]
      rfl
    · obtain ⟨ticks, t, m'', left'', hrun, hidle, hdevice', hinv', hsum', hend'⟩ :=
        ih b.rank (by omega) hinv hb rfl
      rw [hdevice.1, hdevice.2.1, hdevice.2.2] at hdevice'
      refine ⟨ticks + 1, t, m'', left'', ?_, hidle, hdevice', hinv', by omega, hend'⟩
      rw [List.replicate_succ, run_cons, hstep]
      exact hrun

/-- **A whole poll** passes on 32 more frames, or all that are there. -/
theorem Inv.poll {s : Rtl} {log : List Entry} {m d left : ℕ} (h : Inv s log m d left)
    (hidle : s.calls = []) :
    ∃ ticks t left', run (.call :: List.replicate ticks .tick) s = some t ∧ t.calls = [] ∧
      (t.rxbuf = s.rxbuf ∧ t.cbr = s.cbr ∧ t.received = s.received) ∧
      Inv t log (min (d + 32) log.length) (min (d + 32) log.length) left' := by
  have hcallable : s.callable = true := by
    rw [Rtl.callable, hidle]
  have hstep : step s .call = some { s with calls := ⟨32, 0, .check⟩ :: s.calls } := by
    rw [step, if_pos hcallable]
  obtain ⟨rfl, hcalls, hinv⟩ := h.call hidle hstep
  obtain ⟨ticks, t, m', left', hticks, hend, hdevice, hinv', hsum, hstop⟩ := hinv.finish hcalls
  have htaken := hinv'.ready.taken
  have hm : m' = min (d + 32) log.length := by omega
  rw [hm] at hinv'
  refine ⟨ticks, t, left', ?_, hend, hdevice, hinv'⟩
  rw [run_cons, hstep]
  exact hticks

end

/-! ## Whole runs -/

/-- `P` holds before each event of a run. -/
def Along (P : Rtl → Event → Prop) (events : List Event) : Prop :=
  ∀ before event after u, events = before ++ event :: after → run before boot = some u → P u event

/-- The callback does not call `poll`. -/
def Flat (events : List Event) : Prop := Along (fun u event => event = .call → u.calls = []) events

/-- Each of the first `n` frames fits when it arrives. -/
def AllFit (events : List Event) (n : ℕ) : Prop :=
  Along (fun u event => ∀ x, event = .arrive x → u.received.length < n → u.Fits x.frame) events

theorem along_nil (P : Rtl → Event → Prop) : Along P [] := by
  intro before event after u hsplit
  simp at hsplit

theorem along_concat {P : Rtl → Event → Prop} {events : List Event} {event : Event} {u : Rtl}
    (hrun : run events boot = some u) :
    Along P (events ++ [event]) ↔ Along P events ∧ P u event := by
  constructor
  · intro h
    refine ⟨?_, h events event [] u rfl hrun⟩
    intro before e after v hsplit hv
    refine h before e (after ++ [event]) v ?_ hv
    rw [hsplit, List.append_assoc, List.cons_append]
  · rintro ⟨h, hlast⟩ before e after v hsplit hv
    rcases List.eq_nil_or_concat after with rfl | ⟨after', e', rfl⟩
    · obtain ⟨rfl, hevent⟩ := List.append_inj' hsplit rfl
      obtain rfl := Option.some.inj (hrun.symm.trans hv)
      rw [← List.head_eq_of_cons_eq hevent]
      exact hlast
    · refine h before e after' v ?_ hv
      rw [List.concat_eq_append, ← List.cons_append, ← List.append_assoc] at hsplit
      exact (List.append_inj' hsplit rfl).1

/-- Events that `P` holds before in every state. -/
theorem Along.append {P : Rtl → Event → Prop} {events others : List Event} (h : Along P events)
    (hothers : ∀ event ∈ others, ∀ u, P u event) : Along P (events ++ others) := by
  intro before event after u hsplit hu
  rcases List.append_eq_append_iff.mp hsplit with ⟨rest, rfl, hrest⟩ | ⟨rest, hrest, hcut⟩
  · exact hothers event (by rw [hrest]; simp) u
  · rcases rest with - | ⟨e, rest⟩
    · rw [List.nil_append] at hcut
      exact hothers event (by rw [← hcut]; exact List.mem_cons_self) u
    · obtain ⟨rfl, -⟩ := List.cons.inj hcut
      exact h before event rest u hrest hu

theorem Along.of_append {P : Rtl → Event → Prop} {events others : List Event}
    (h : Along P (events ++ others)) : Along P events := by
  intro before event after u hsplit hu
  exact h before event (after ++ others) u (by rw [hsplit]; simp) hu

/-- **What holds after every run without nested calls.**  A frame fits exactly if the ring shows it. -/
theorem inv_run {events : List Event} {s : Rtl} (hrun : run events boot = some s) (hflat : Flat events) :
    ∃ log m d left, Inv s log m d left ∧
      ∀ n, AllFit events n ↔ ∀ i e, log[i]? = some e → i < n → e.seen = e.frame := by
  induction events using List.reverseRecOn generalizing s with
  | nil =>
    obtain rfl := Option.some.inj hrun
    exact ⟨[], 0, 0, 0, inv_boot 0, fun n => ⟨fun _ i e he => by simp at he, fun _ => along_nil _⟩⟩
  | append_singleton events event ih =>
    rw [run_append] at hrun
    obtain ⟨u, hu, hlast⟩ := Option.bind_eq_some_iff.mp hrun
    rw [run_cons] at hlast
    obtain ⟨t, ht, hts⟩ := Option.bind_eq_some_iff.mp hlast
    obtain rfl := Option.some.inj hts
    obtain ⟨hflat, hcall⟩ := (along_concat hu).mp hflat
    obtain ⟨log, m, d, left, hinv, hfit⟩ := ih hu hflat
    have hcount : u.received.length = log.length := by
      rw [hinv.ready.received, List.length_map]
    have hother : (∀ x, event ≠ .arrive x) → ∀ n, AllFit (events ++ [event]) n ↔ AllFit events n :=
      fun hne n => (along_concat hu).trans (and_iff_left fun x hx => absurd hx (hne x))
    cases event with
    | arrive x =>
      refine ⟨log ++ [u.entry x], m, d, left, hinv.arrive ht, fun n => ?_⟩
      have hseen := entry_seen (x := x) hinv.ready.cbr.1
      refine (along_concat hu).trans (((hfit n).and Iff.rfl).trans ?_)
      rw [hcount]
      constructor
      · rintro ⟨hold, hnew⟩ i e he hi
        obtain hlt | rfl | hgt := Nat.lt_trichotomy i log.length
        · rw [List.getElem?_append_left hlt] at he
          exact hold i e he hi
        · rw [List.getElem?_concat_length] at he
          obtain rfl := Option.some.inj he
          exact hseen.mpr (hnew x rfl hi)
        · rw [List.getElem?_eq_none (by rw [List.length_append, List.length_singleton]; omega)] at he
          simp at he
      · intro hall
        refine ⟨fun i e he hi => hall i e ?_ hi, fun y hy hlt => ?_⟩
        · rw [List.getElem?_append_left (List.getElem?_eq_some_iff.mp he).1, he]
        · obtain rfl := Event.arrive.inj hy
          exact hseen.mp (hall log.length _ List.getElem?_concat_length hlt)
    | call =>
      obtain ⟨rfl, -, hinv'⟩ := hinv.call (hcall rfl) ht
      refine ⟨log, d, d, 32, hinv', fun n => (hother (by simp) n).trans (hfit n)⟩
    | tick =>
      rcases hcalls : u.calls with - | ⟨a, calls⟩
      · simp [step, hcalls] at ht
      · obtain ⟨rfl, m', d', left', -, hinv', -⟩ := hinv.tick hcalls
        simp only [step, hcalls, Option.some.injEq] at ht
        subst ht
        exact ⟨log, m', d', left', hinv', fun n => (hother (by simp) n).trans (hfit n)⟩

theorem seen_prefix_iff {log : List Entry} {d : ℕ} (hd : d ≤ log.length) :
    (log.take d).map Entry.seen <+: log.map Entry.frame ↔
      ∀ i e, log[i]? = some e → i < d → e.seen = e.frame := by
  have hlen : ((log.take d).map Entry.seen).length = d := by
    rw [List.length_map, List.length_take_of_le hd]
  rw [List.prefix_iff_getElem?]
  constructor
  · intro h i e he hi
    have hseen := h i (by omega)
    rw [List.getElem?_map, he, List.getElem_map, List.getElem_take] at hseen
    rw [List.getElem?_eq_getElem (by omega)] at he
    obtain rfl := Option.some.inj he
    exact (Option.some.inj hseen).symm
  · intro h i hi
    have he := List.getElem?_eq_getElem (show i < log.length by omega)
    rw [List.getElem?_map, he, List.getElem_map, List.getElem_take, h i _ he (by omega)]
    rfl

/-- A frame of one byte repeated. -/
def plain (n : ℕ) (b : UInt8) (hn : 14 ≤ n ∧ n ≤ 1514) : Arrival where
  status := 1
  frame := List.replicate n b
  crc := [0, 0, 0, 0]
  status_ok := by decide
  frame_ok := by rw [List.length_replicate]; exact hn
  crc_ok := rfl

theorem plain_frame {n : ℕ} {b : UInt8} (hn : 14 ≤ n ∧ n ≤ 1514) :
    (plain n b hn).frame = List.replicate n b := rfl

theorem Inv.intact_iff {events : List Event} {s : Rtl} {log : List Entry} {m d left : ℕ}
    (h : Inv s log m d left)
    (hfit : ∀ n, AllFit events n ↔ ∀ i e, log[i]? = some e → i < n → e.seen = e.frame) :
    s.delivered <+: s.received ↔ AllFit events s.delivered.length := by
  have hdelivered : s.delivered.length = d := by
    rw [h.delivered, List.length_map, List.length_take_of_le h.passed]
  rw [hfit, hdelivered, h.delivered, h.ready.received]
  exact seen_prefix_iff h.passed

/-- Five frames of 1514 zeros, and a poll. -/
def fiveFrames (ticks : ℕ) : List Event :=
  List.replicate 5 (.arrive (plain 1514 0 (by decide))) ++ .call :: List.replicate ticks .tick

/-- Another frame behind them, and another poll. -/
def sixFrames (x : Arrival) (ticks ticks' : ℕ) : List Event :=
  fiveFrames ticks ++ .arrive x :: .call :: List.replicate ticks' .tick

/-- The five frames end at offset 7620 of the ring. -/
theorem run_five {k : ℕ} (hk : k ≤ 5) :
    ∃ s, run (List.replicate k (.arrive (plain 1514 0 (by decide)))) boot = some s ∧
      (s.cbr = 1524 * k ∧ s.capr = 0xfff0 ∧ s.calls = []) ∧ (0 < k → s.rxbuf 0 = 1) ∧
      s.received = List.replicate k (List.replicate 1514 0) ∧
      AllFit (List.replicate k (.arrive (plain 1514 0 (by decide)))) 6 := by
  induction k with
  | zero => exact ⟨boot, rfl, ⟨rfl, rfl, rfl⟩, by simp, rfl, along_nil _⟩
  | succ k ih =>
    obtain ⟨s, hrun, ⟨hcbr, hcapr, hcalls⟩, hstatus, hreceived, hfit⟩ := ih (by omega)
    have htail : s.tail = 0 := by
      rw [Rtl.tail, hcapr]
      rfl
    have hroom : s.pending + room (List.replicate 1514 (0 : UInt8)).length < ringSize := by
      rw [Rtl.pending, htail, hcbr, List.length_replicate]
      show (1524 * k + 8192) % 8192 + 1524 < 8192
      rw [Nat.add_mod_right, Nat.mod_eq_of_lt (by omega)]
      omega
    obtain ⟨t, hstep, hcbr', hrxbuf', hreceived', hcapr', hcalls'⟩ :
        ∃ t, step s (.arrive (plain 1514 0 (by decide))) = some t ∧
          t.cbr = (s.cbr + room (List.replicate 1514 (0 : UInt8)).length) % ringSize ∧
          t.rxbuf = store s.rxbuf s.cbr (plain 1514 0 (by decide)).packet ∧
          t.received = s.received ++ [List.replicate 1514 0] ∧ t.capr = s.capr ∧ t.calls = s.calls := by
      rw [step, Rtl.arrive, plain_frame, if_pos hroom]
      exact ⟨_, rfl, rfl, rfl, rfl, rfl, rfl⟩
    rw [List.replicate_succ']
    refine ⟨t, ?_, ⟨?_, hcapr'.trans hcapr, hcalls'.trans hcalls⟩, fun _ => ?_, ?_,
      (along_concat hrun).mpr ⟨hfit, ?_⟩⟩
    · rw [run_append, hrun, Option.bind_some, run_cons, hstep]
      rfl
    · rw [hcbr', hcbr, List.length_replicate]
      show (1524 * k + 1524) % 8192 = 1524 * (k + 1)
      rw [Nat.mod_eq_of_lt (by omega)]
      omega
    · rw [hrxbuf', hcbr]
      rcases Nat.eq_zero_or_pos k with rfl | hpos
      · rfl
      · rw [store, if_neg (by omega), hstatus hpos]
    · rw [hreceived', hreceived]
      exact List.replicate_succ'.symm
    · -- it ends before the end of the ring
      rintro x hx - i hi hbehind
      obtain rfl := Event.arrive.inj hx
      rw [plain_frame, List.length_replicate] at hi
      rw [hcbr, ringSize] at hbehind
      omega

/-- The first poll passes on all five. -/
theorem run_fiveFrames :
    ∃ (ticks : ℕ) (s : Rtl) (log : List Entry) (left : ℕ), run (fiveFrames ticks) boot = some s ∧
      (s.cbr = 7620 ∧ s.rxbuf 0 = 1 ∧ s.calls = []) ∧
      s.received = List.replicate 5 (List.replicate 1514 0) ∧ Inv s log log.length log.length left ∧
      Flat (fiveFrames ticks) ∧ AllFit (fiveFrames ticks) 6 := by
  obtain ⟨s, hrun, ⟨hcbr, -, hidle⟩, hstatus, hreceived, hfit⟩ := run_five (Nat.le_refl 5)
  have hnocall : ∀ event ∈ List.replicate 5 (Event.arrive (plain 1514 0 (by decide))), ∀ u : Rtl,
      event = .call → u.calls = [] := by
    intro event hevent u hcall
    rw [List.eq_of_mem_replicate hevent] at hcall
    cases hcall
  have hflat : Flat (List.replicate 5 (.arrive (plain 1514 0 (by decide)))) :=
    Along.append (along_nil _) hnocall
  obtain ⟨log, m, d, left, hinv, -⟩ := inv_run hrun hflat
  have hlog : log.length = 5 := by
    have hcount := congrArg List.length hinv.ready.received
    rw [hreceived, List.length_map] at hcount
    exact hcount.symm
  obtain ⟨ticks, t, left', hpoll, hidle', ⟨hrxbuf', hcbr', hreceived'⟩, hinv'⟩ := hinv.poll hidle
  rw [Nat.min_eq_right (by omega)] at hinv'
  refine ⟨ticks, t, log, left', ?_, ⟨?_, ?_, hidle'⟩, ?_, hinv', ?_, Along.append hfit (by simp)⟩
  · rw [fiveFrames, run_append, hrun, Option.bind_some, hpoll]
  · rw [hcbr', hcbr]
  · rw [hrxbuf', hstatus (by omega)]
  · rw [hreceived', hreceived]
  · rw [fiveFrames, List.append_cons]
    exact Along.append ((along_concat hrun).mpr ⟨hflat, fun _ => hidle⟩) (by simp)

/-- All six are passed on, and they fit if the sixth fits behind the five. -/
theorem run_sixFrames (x : Arrival) :
    ∃ (ticks ticks' : ℕ) (u s : Rtl), (u.cbr = 7620 ∧ u.rxbuf 0 = 1) ∧
      run (sixFrames x ticks ticks') boot = some s ∧ s.calls = [] ∧ s.bufe = true ∧
      s.received = List.replicate 5 (List.replicate 1514 0) ++ [x.frame] ∧ s.delivered.length = 6 ∧
      Flat (sixFrames x ticks ticks') ∧ (AllFit (sixFrames x ticks ticks') 6 ↔ u.Fits x.frame) := by
  obtain ⟨ticks, u, log, left, hrun, ⟨hcbr, hstatus, hidle⟩, hreceived, hinv, hflat, hfit⟩ := run_fiveFrames
  have hlog : log.length = 5 := by
    have hcount := congrArg List.length hinv.ready.received
    rw [hreceived, List.length_map] at hcount
    exact hcount.symm
  have hroom : u.pending + room x.frame.length < ringSize := by
    rw [hinv.ready.pending, List.take_length, Nat.sub_self]
    have := room_spec x.frame.length
    have := x.frame_ok
    unfold ringSize
    omega
  obtain ⟨t, harrive, hidle', hreceived'⟩ :
      ∃ t, u.arrive x = some t ∧ t.calls = [] ∧ t.received = u.received ++ [x.frame] := by
    rw [Rtl.arrive, if_pos hroom]
    exact ⟨_, rfl, hidle, rfl⟩
  have hinv' := hinv.arrive harrive
  obtain ⟨ticks', s, left', hpoll, hend, ⟨-, -, hreceived''⟩, hinv''⟩ := hinv'.poll hidle'
  have hlog' : (log ++ [u.entry x]).length = 6 := by
    rw [List.length_append, hlog, List.length_singleton]
  rw [Nat.min_eq_right (by omega)] at hinv''
  have harrived : run (fiveFrames ticks ++ [.arrive x]) boot = some t := by
    rw [run_append, hrun, Option.bind_some, run_cons, step, harrive]
    rfl
  have hsplit : sixFrames x ticks ticks' =
      fiveFrames ticks ++ [.arrive x] ++ [.call] ++ List.replicate ticks' .tick := by
    simp [sixFrames]
  have hsixth : AllFit (fiveFrames ticks ++ [.arrive x]) 6 ↔ u.Fits x.frame := by
    refine (along_concat hrun).trans ⟨fun h => h.2 x rfl ?_, fun h => ⟨hfit, ?_⟩⟩
    · rw [hreceived, List.length_replicate]
      decide
    · rintro y hy -
      obtain rfl := Event.arrive.inj hy
      exact h
  refine ⟨ticks, ticks', u, s, ⟨hcbr, hstatus⟩, ?_, hend, hinv''.ready.bufe_iff.mpr rfl, ?_, ?_, ?_, ?_⟩
  · rw [sixFrames, run_append, hrun, Option.bind_some, run_cons, step, harrive, Option.bind_some]
    exact hpoll
  · rw [hreceived'', hreceived', hreceived]
  · rw [hinv''.delivered, List.length_map, List.take_length, hlog']
  · rw [hsplit]
    exact Along.append ((along_concat harrived).mpr ⟨Along.append hflat (by simp), fun _ => hidle'⟩) (by simp)
  · rw [← hsixth, hsplit, List.append_assoc _ [_]]
    exact ⟨Along.of_append, fun h => Along.append h (by simp)⟩

/-- **The frames that `poll` passes on are the first that were received, byte for byte, exactly if each
of them fits.**  None is left behind: when the buffer is empty all have been passed on, and every poll
ends after it has passed on 32 frames or all. -/
theorem poll_intact_iff {events : List Event} {s : Rtl} (hrun : run events boot = some s)
    (hflat : Flat events) :
    (s.delivered <+: s.received ↔ AllFit events s.delivered.length) ∧
    s.delivered.length ≤ s.received.length ∧
    (s.calls = [] → s.bufe = true → s.delivered.length = s.received.length) ∧
    (s.calls = [] → ∃ ticks t, run (.call :: List.replicate ticks .tick) s = some t ∧ t.calls = [] ∧
      t.received = s.received ∧
      t.delivered.length = min (s.delivered.length + 32) s.received.length) := by
  obtain ⟨log, m, d, left, hinv, hfit⟩ := inv_run hrun hflat
  have hpassed := hinv.passed
  have hreceived : s.received.length = log.length := by
    rw [hinv.ready.received, List.length_map]
  have hdelivered : s.delivered.length = d := by
    rw [hinv.delivered, List.length_map, List.length_take_of_le hpassed]
  refine ⟨?_, by omega, ?_, ?_⟩
  · exact hinv.intact_iff hfit
  · intro hidle hempty
    have hall := hinv.ready.bufe_iff.mp hempty
    have hphase := hinv.phase
    rw [hidle] at hphase
    cases hphase
    omega
  · intro hidle
    obtain ⟨ticks, t, left', hpoll, hend, hdevice, hinv'⟩ := hinv.poll hidle
    refine ⟨ticks, t, hpoll, hend, hdevice.2.2, ?_⟩
    rw [hinv'.delivered, List.length_map, List.length_take_of_le hinv'.ready.taken, hdelivered, hreceived]

/-- A frame whose last byte is stored behind the end of the ring: it is the byte that the ring starts
with. -/
def across : Arrival where
  status := 1
  frame := List.replicate 568 0xff ++ [1]
  crc := [0, 0, 0, 0]
  status_ok := by decide
  frame_ok := by rw [List.length_append, List.length_replicate, List.length_singleton]; decide
  crc_ok := rfl

theorem poll_intact_smoke :
    ∃ ticks ticks' s, run (sixFrames across ticks ticks') boot = some s ∧
      AllFit (sixFrames across ticks ticks') 6 ∧ s.delivered = s.received ∧
      s.received = List.replicate 5 (List.replicate 1514 0) ++ [List.replicate 568 0xff ++ [1]] := by
  obtain ⟨ticks, ticks', u, s, ⟨hcbr, hstatus⟩, hrun, hidle, hempty, hreceived, hsix, hflat, hfit⟩ :=
    run_sixFrames across
  have hall : AllFit (sixFrames across ticks ticks') 6 := by
    refine hfit.mpr fun i hi hbehind => ?_
    have hlast : i = 568 := by
      rw [across, List.length_append, List.length_replicate, List.length_singleton] at hi
      rw [hcbr, ringSize] at hbehind
      omega
    subst hlast
    rw [hcbr]
    show across.frame[568]? = some (u.rxbuf 0)
    rw [hstatus, across, List.getElem?_append_right (by rw [List.length_replicate]),
      List.length_replicate]
    rfl
  obtain ⟨hiff, -, hcount, -⟩ := poll_intact_iff hrun hflat
  rw [hsix] at hiff
  have hprefix := hiff.mpr hall
  exact ⟨ticks, ticks', s, hrun, hall, hprefix.eq_of_length (hcount hidle hempty), hreceived⟩

/-- Five frames of 1514 bytes and a poll; then a sixth frame, which ends behind the end of the ring, and
another poll.  The callback gets the start of the ring for the end of the sixth frame.  And a callback
that calls `poll` gets its frame again. -/
theorem poll_not_intact :
    (∃ ticks ticks' s,
      run (List.replicate 5 (.arrive (plain 1514 0 (by decide))) ++ .call :: List.replicate ticks .tick ++
        .arrive (plain 1514 0xff (by decide)) :: .call :: List.replicate ticks' .tick) boot = some s ∧
      s.calls = [] ∧ s.bufe = true ∧ ¬s.delivered <+: s.received) ∧
    (run (.arrive (plain 14 0 (by decide)) :: .call :: List.replicate 18 .tick ++
        .call :: List.replicate 18 .tick) boot).map (fun s => (s.delivered.length, s.received.length)) =
      some (2, 1) := by
  constructor
  · obtain ⟨ticks, ticks', u, s, ⟨hcbr, hstatus⟩, hrun, hidle, hempty, -, hsix, hflat, hfit⟩ :=
      run_sixFrames (plain 1514 0xff (by decide))
    refine ⟨ticks, ticks', s, hrun, hidle, hempty, fun hprefix => ?_⟩
    obtain ⟨log, m, d, left, hinv, hall⟩ := inv_run hrun hflat
    have hsame := (hinv.intact_iff hall).mp hprefix
    rw [hsix, hfit, plain_frame] at hsame
    -- what lies behind the end is the status word of the first frame
    have hbyte := hsame 568 (by rw [List.length_replicate]; omega) (by rw [hcbr]; decide)
    have hstart : 7620 + 4 + 568 - ringSize = 0 := rfl
    rw [hcbr, hstart, hstatus, List.getElem?_replicate_of_lt (by omega)] at hbyte
    simp at hbyte
  · decide +kernel

end Orion.Netdev.Rtl8139
