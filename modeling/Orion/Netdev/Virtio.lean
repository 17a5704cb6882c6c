import Mathlib.Data.List.Induction
import Mathlib.Logic.Function.Iterate

/-!
# Transmission through virtio-net (`kernel/netdev_virtio.c`)

`tx` has one buffer and one descriptor.  It waits for the completion of the call before, writes the
buffer, posts the descriptor and waits for its completion, which it takes from the used index alone:
`tx_used_seen + 1` is the value it waits for.  The device completes what is posted in order, at any
time.  The counts of posted and completed descriptors are not bounded; the indices are their last
16 bits.
-/

namespace Orion.Netdev

/-! ## The model -/

def bufSize : ℕ := 2048

def drainPolls : ℕ := 200000

def waitPolls : ℕ := 1000000

/-- Where a call of `tx` is. -/
inductive Pc where
  | idle
  | drain (data : List UInt8) (k : ℕ)
  | post (data : List UInt8)
  | wait (k : ℕ)
  deriving Repr, DecidableEq

/-- The driver's side of the queue and the device.  `posted` and `returned` record for each call what
it posted and whether it returned 1, `sent` what the device transmitted. -/
structure Virtio where
  up : Bool
  txb : List UInt8
  descLen : ℕ
  availIdx : UInt16
  usedIdx : UInt16
  txUsedSeen : UInt16
  pc : Pc
  posted : List (List UInt8)
  sent : List (List UInt8)
  returned : List Bool

/-- After `init`, which zeroes the ring. -/
def boot (up : Bool) : Virtio := ⟨up, List.replicate (bufSize + 10) 0, 0, 0, 0, 0, .idle, [], [], []⟩

/-- The bytes of a frame behind its header. -/
def framed (data : List UInt8) : List UInt8 := List.replicate 10 0 ++ data

/-- `tx` takes the frame. -/
def Accepts (s : Virtio) (data : List UInt8) : Prop :=
  s.up = true ∧ s.pc = .idle ∧ 14 ≤ data.length ∧ data.length ≤ bufSize

instance (s : Virtio) (data : List UInt8) : Decidable (Accepts s data) :=
  inferInstanceAs (Decidable (_ ∧ _))

/-- A call of `tx`; a frame that is not taken is answered with 0 at once. -/
def tx (data : List UInt8) (s : Virtio) : Virtio :=
  if Accepts s data then { s with pc := .drain data 0 } else s

/-- The next step of the call: a poll, the writing of buffer and descriptor, or the posting. -/
def cpu (s : Virtio) : Virtio :=
  match s.pc with
  | .idle => s
  | .drain data k =>
    if k < drainPolls ∧ s.usedIdx ≠ s.txUsedSeen then { s with pc := .drain data (k + 1) }
    else
      { s with
        txb := framed data ++ s.txb.drop (data.length + 10)
        descLen := data.length + 10
        pc := .post data }
  | .post data =>
    { s with availIdx := s.availIdx + 1, posted := s.posted ++ [framed data], pc := .wait 0 }
  | .wait k =>
    if k < waitPolls then
      if s.usedIdx = s.txUsedSeen + 1 then
        { s with txUsedSeen := s.txUsedSeen + 1, returned := s.returned ++ [true], pc := .idle }
      else { s with pc := .wait (k + 1) }
    else { s with returned := s.returned ++ [false], pc := .idle }

/-- The device transmits what the next posted descriptor points at and completes it. -/
def device (s : Virtio) : Virtio :=
  if s.sent.length < s.posted.length then
    { s with usedIdx := s.usedIdx + 1, sent := s.sent ++ [s.txb.take s.descLen] }
  else s

inductive Event where
  | tx (data : List UInt8)
  | cpu
  | device
  deriving Repr, DecidableEq

def step (s : Virtio) : Event → Virtio
  | .tx data => tx data s
  | .cpu => cpu s
  | .device => device s

def run (events : List Event) (s : Virtio) : Virtio := events.foldl step s

theorem run_append (xs ys : List Event) (s : Virtio) : run (xs ++ ys) s = run ys (run xs s) :=
  List.foldl_append

theorem run_singleton (e : Event) (s : Virtio) : run [e] s = step s e := rfl

/-- Each call that returned 1 had its own descriptor completed, with its own frame in the buffer. -/
def OwnCompletions (s : Virtio) : Prop :=
  ∀ d : ℕ, s.returned[d]? = some true → d < s.sent.length ∧ s.sent[d]? = s.posted[d]?

/-- The value that the next call will wait for is not one that the used index has, or takes by the
descriptors that are still pending. -/
def Recovered (s : Virtio) : Prop :=
  ∀ c, s.sent.length ≤ c → c ≤ s.posted.length → UInt16.ofNat c ≠ s.txUsedSeen + 1

/-! ## What always holds -/

/-- The number of descriptors whose call has not returned. -/
def Pc.outstanding : Pc → ℕ
  | .wait _ => 1
  | _ => 0

/-- The indices are the last 16 bits of the counts, and the calls are numbered by what they posted. -/
structure Counted (s : Virtio) : Prop where
  seen : s.txUsedSeen = UInt16.ofNat (s.returned.count true)
  used : s.usedIdx = UInt16.ofNat s.sent.length
  avail : s.availIdx = UInt16.ofNat s.posted.length
  sent_le : s.sent.length ≤ s.posted.length
  numbered : s.posted.length = s.returned.length + s.pc.outstanding

theorem boot_counted (up : Bool) : Counted (boot up) := ⟨rfl, rfl, rfl, Nat.le_refl _, rfl⟩

theorem tx_counted {s : Virtio} (h : Counted s) (data : List UInt8) : Counted (tx data s) := by
  unfold tx
  split
  · rename_i hacc
    refine ⟨h.seen, h.used, h.avail, h.sent_le, ?_⟩
    have hnum := h.numbered
    rw [hacc.2.1] at hnum
    exact hnum
  · exact h

theorem device_counted {s : Virtio} (h : Counted s) : Counted (device s) := by
  unfold device
  split
  · rename_i hlt
    refine ⟨h.seen, ?_, h.avail, ?_, h.numbered⟩
    · simp only [List.length_append, List.length_singleton, h.used, UInt16.ofNat_add]
      rfl
    · simp only [List.length_append, List.length_singleton]
      exact hlt
  · exact h

theorem cpu_counted {s : Virtio} (h : Counted s) : Counted (cpu s) := by
  have hnum := h.numbered
  unfold cpu
  cases hpc : s.pc with
  | idle => exact h
  | drain data k =>
    rw [hpc] at hnum
    simp only
    split
    · exact ⟨h.seen, h.used, h.avail, h.sent_le, hnum⟩
    · exact ⟨h.seen, h.used, h.avail, h.sent_le, hnum⟩
  | post data =>
    rw [hpc] at hnum
    refine ⟨h.seen, h.used, ?_, ?_, ?_⟩
    · simp only [List.length_append, List.length_singleton, h.avail, UInt16.ofNat_add]
      rfl
    · simp only [List.length_append]
      exact Nat.le_add_right_of_le h.sent_le
    · simp only [List.length_append, List.length_singleton, hnum]
      rfl
  | wait k =>
    rw [hpc] at hnum
    have hdone : ∀ b, s.posted.length = (s.returned ++ [b]).length + Pc.idle.outstanding := by
      intro b
      rw [List.length_append, hnum]
      rfl
    simp only
    split
    · split
      · refine ⟨?_, h.used, h.avail, h.sent_le, hdone true⟩
        simp only [h.seen, List.count_append, List.count_singleton_self, UInt16.ofNat_add]
        rfl
      · exact ⟨h.seen, h.used, h.avail, h.sent_le, hnum⟩
    · refine ⟨?_, h.used, h.avail, h.sent_le, hdone false⟩
      simpa using h.seen

theorem step_counted {s : Virtio} (h : Counted s) (e : Event) : Counted (step s e) := by
  cases e with
  | tx data => exact tx_counted h data
  | cpu => exact cpu_counted h
  | device => exact device_counted h

theorem run_counted (events : List Event) {s : Virtio} (h : Counted s) : Counted (run events s) := by
  induction events generalizing s with
  | nil => exact h
  | cons e events ih => exact ih (step_counted h e)

/-! ## Calls that start well -/

/-- The invariant of a run whose calls start well: while a call waits, no earlier descriptor can give
it the value that it waits for, and the buffer holds its frame until that is sent. -/
structure Safe (s : Virtio) : Prop where
  counted : Counted s
  draining : ∀ data k, s.pc = .drain data k → Recovered s
  written : ∀ data, s.pc = .post data → Recovered s ∧ s.txb.take s.descLen = framed data
  waiting : ∀ k, s.pc = .wait k →
    (∀ c, s.sent.length ≤ c → c < s.posted.length → UInt16.ofNat c ≠ s.txUsedSeen + 1) ∧
    (s.sent.length < s.posted.length → s.posted[s.returned.length]? = some (s.txb.take s.descLen)) ∧
    (s.sent.length = s.posted.length → s.sent[s.returned.length]? = s.posted[s.returned.length]?)
  own : OwnCompletions s

theorem boot_safe (up : Bool) : Safe (boot up) where
  counted := boot_counted up
  draining := by simp [boot]
  written := by simp [boot]
  waiting := by simp [boot]
  own := by
    intro d hd
    simp [boot] at hd

theorem tx_safe {s : Virtio} (h : Safe s) {data : List UInt8} (hstart : Accepts s data → Recovered s) :
    Safe (tx data s) := by
  have hcounted := tx_counted h.counted data
  unfold tx at hcounted ⊢
  split
  · rename_i hacc
    rw [if_pos hacc] at hcounted
    exact ⟨hcounted, fun _ _ _ => hstart hacc, by simp, by simp, h.own⟩
  · exact h

/-- What is recorded of earlier calls stays true when something is sent or posted. -/
theorem OwnCompletions.extend {s t : Virtio} (h : OwnCompletions s) (hle : s.sent.length ≤ s.posted.length)
    (hreturned : t.returned = s.returned) (hsent : s.sent <+: t.sent) (hposted : s.posted <+: t.posted) :
    OwnCompletions t := by
  intro d hd
  rw [hreturned] at hd
  obtain ⟨hlt, heq⟩ := h d hd
  obtain ⟨x, hx⟩ := hsent
  obtain ⟨y, hy⟩ := hposted
  rw [← hx, ← hy, List.length_append, List.getElem?_append_left hlt,
    List.getElem?_append_left (by omega)]
  exact ⟨by omega, heq⟩

/-- A call returns; the calls before it have returned already. -/
theorem OwnCompletions.concat {s : Virtio} (h : OwnCompletions s) {b : Bool}
    (hb : b = true → s.returned.length < s.sent.length ∧
      s.sent[s.returned.length]? = s.posted[s.returned.length]?) :
    ∀ d : ℕ, (s.returned ++ [b])[d]? = some true → d < s.sent.length ∧ s.sent[d]? = s.posted[d]? := by
  intro d hd
  rcases Nat.lt_trichotomy d s.returned.length with hlt | rfl | hgt
  · rw [List.getElem?_append_left hlt] at hd
    exact h d hd
  · rw [List.getElem?_concat_length] at hd
    exact hb (Option.some.inj hd)
  · rw [List.getElem?_eq_none (by rw [List.length_append, List.length_singleton]; omega)] at hd
    simp at hd

theorem device_safe {s : Virtio} (h : Safe s) : Safe (device s) := by
  have hcounted := device_counted h.counted
  unfold device at hcounted ⊢
  split
  · rename_i hlt
    rw [if_pos hlt] at hcounted
    have hlater : ∀ {c}, (s.sent ++ [s.txb.take s.descLen]).length ≤ c → s.sent.length ≤ c := by
      intro c hc
      rw [List.length_append] at hc
      omega
    have hrecovered : Recovered s → Recovered
        { s with usedIdx := s.usedIdx + 1, sent := s.sent ++ [s.txb.take s.descLen] } :=
      fun hr c hc => hr c (hlater hc)
    refine ⟨hcounted, fun data k hpc => hrecovered (h.draining data k hpc), fun data hpc => ?_,
      fun k hpc => ?_, h.own.extend h.counted.sent_le rfl (List.prefix_append _ _) (List.prefix_refl _)⟩
    · exact (h.written data hpc).imp_left hrecovered
    · obtain ⟨hfree, hbuffer, -⟩ := h.waiting k hpc
      refine ⟨fun c hc => hfree c (hlater hc), fun _ => hbuffer hlt, fun heq => ?_⟩
      -- the last pending descriptor is the one of this call
      have hnum := h.counted.numbered
      rw [hpc] at hnum
      simp only [List.length_append, List.length_singleton, Pc.outstanding] at heq hnum ⊢
      have hlast : s.returned.length = s.sent.length := by omega
      rw [hbuffer hlt, hlast, List.getElem?_concat_length]
  · exact h

theorem cpu_safe {s : Virtio} (h : Safe s) : Safe (cpu s) := by
  have hcounted := cpu_counted h.counted
  have hnum := h.counted.numbered
  unfold cpu at hcounted ⊢
  cases hpc : s.pc with
  | idle => exact h
  | drain data k =>
    simp only [hpc] at hcounted ⊢
    have hrecovered := h.draining data k hpc
    split
    · rename_i hpoll
      rw [if_pos hpoll] at hcounted
      exact ⟨hcounted, fun _ _ _ => hrecovered, by simp, by simp, h.own⟩
    · rename_i hpoll
      rw [if_neg hpoll] at hcounted
      refine ⟨hcounted, by simp, fun data' hpost => ⟨hrecovered, ?_⟩, by simp, h.own⟩
      obtain rfl := Pc.post.inj hpost
      have hlen : data.length + 10 = (framed data).length := by
        rw [framed, List.length_append, List.length_replicate, Nat.add_comm]
      show List.take (data.length + 10) _ = _
      rw [hlen, List.take_left]
  | post data =>
    simp only [hpc] at hcounted ⊢
    obtain ⟨hrecovered, hbuffer⟩ := h.written data hpc
    have hle := h.counted.sent_le
    rw [hpc] at hnum
    have hlast : s.returned.length = s.posted.length := hnum.symm
    refine ⟨hcounted, by simp, by simp, fun k _ => ⟨fun c hc hlt => ?_, fun _ => ?_, fun heq => ?_⟩,
      h.own.extend hle rfl (List.prefix_refl _) (List.prefix_append _ _)⟩
    · simp only [List.length_append, List.length_singleton] at hlt
      exact hrecovered c hc (by omega)
    · simp only
      rw [hlast, List.getElem?_concat_length, hbuffer]
    · simp only [List.length_append, List.length_singleton] at heq
      omega
  | wait k =>
    simp only [hpc] at hcounted ⊢
    obtain ⟨hfree, hbuffer, hown⟩ := h.waiting k hpc
    have hle := h.counted.sent_le
    rw [hpc] at hnum
    have hlast : s.posted.length = s.returned.length + 1 := hnum
    split
    · rename_i hpoll
      rw [if_pos hpoll] at hcounted
      split
      · rename_i hused
        rw [if_pos hused] at hcounted
        -- the value seen is not one of an earlier descriptor, so this call's is completed
        have hall : s.sent.length = s.posted.length := by
          by_contra hne
          exact hfree s.sent.length (Nat.le_refl _) (by omega) (h.counted.used.symm.trans hused)
        exact ⟨hcounted, by simp, by simp, by simp, h.own.concat fun _ => ⟨by omega, hown hall⟩⟩
      · rename_i hused
        rw [if_neg hused] at hcounted
        exact ⟨hcounted, by simp, by simp, fun _ _ => ⟨hfree, hbuffer, hown⟩, h.own⟩
    · rename_i hpoll
      rw [if_neg hpoll] at hcounted
      exact ⟨hcounted, by simp, by simp, by simp, h.own.concat (by simp)⟩

/-- Every call of the run that is taken starts in a state that is `Recovered`. -/
def StartsWell (up : Bool) (events : List Event) : Prop :=
  ∀ before data rest, events = before ++ .tx data :: rest →
    Accepts (run before (boot up)) data → Recovered (run before (boot up))

theorem run_safe {up : Bool} {events : List Event} (h : StartsWell up events) :
    Safe (run events (boot up)) := by
  induction events using List.reverseRecOn with
  | nil => exact boot_safe up
  | append_singleton events e ih =>
    have hbefore : StartsWell up events := by
      intro before data rest heq
      exact h before data (rest ++ [e]) (by rw [heq, List.append_assoc]; rfl)
    have hsafe := ih hbefore
    rw [run_append]
    cases e with
    | tx data => exact tx_safe hsafe (h events data [] rfl)
    | cpu => exact cpu_safe hsafe
    | device => exact device_safe hsafe

/-! ## Calls that do not -/

theorem run_replicate_succ (n : ℕ) (e : Event) (s : Virtio) :
    run (List.replicate (n + 1) e) s = run (List.replicate n e) (step s e) := rfl

/-- The wait for the call before ends. -/
theorem drain_ends (data : List UInt8) : ∀ (n k : ℕ) (s : Virtio), s.pc = .drain data k →
    k + n = drainPolls → ∃ m, run (List.replicate m .cpu) s =
      { s with
        txb := framed data ++ s.txb.drop (data.length + 10)
        descLen := data.length + 10
        pc := .post data } := by
  intro n
  induction n with
  | zero =>
    intro k s hpc hk
    refine ⟨1, ?_⟩
    show cpu s = _
    rw [cpu, hpc]
    exact if_neg fun hpoll => by omega
  | succ n ih =>
    intro k s hpc hk
    by_cases hpoll : k < drainPolls ∧ s.usedIdx ≠ s.txUsedSeen
    · obtain ⟨m, hm⟩ := ih (k + 1) { s with pc := .drain data (k + 1) } rfl (by omega)
      refine ⟨m + 1, ?_⟩
      have hstep : step s .cpu = { s with pc := .drain data (k + 1) } := by
        rw [step, cpu, hpc]
        exact if_pos hpoll
      rw [run_replicate_succ, hstep, hm]
    · refine ⟨1, ?_⟩
      show cpu s = _
      rw [cpu, hpc]
      exact if_neg hpoll

/-- The device works off some of the pending descriptors. -/
theorem devices (m : ℕ) : ∀ s : Virtio, s.sent.length + m ≤ s.posted.length → ∃ used sent,
    run (List.replicate m .device) s = { s with usedIdx := used, sent := sent } ∧
      sent.length = s.sent.length + m := by
  induction m with
  | zero => exact fun s _ => ⟨s.usedIdx, s.sent, rfl, rfl⟩
  | succ m ih =>
    intro s hm
    have hstep : step s .device
        = { s with usedIdx := s.usedIdx + 1, sent := s.sent ++ [s.txb.take s.descLen] } :=
      if_pos (by omega)
    obtain ⟨used, sent, hrun, hlen⟩ := ih (step s .device) (by
      rw [hstep]
      simp only [List.length_append, List.length_singleton]
      omega)
    refine ⟨used, sent, ?_, ?_⟩
    · rw [run_replicate_succ, hrun, hstep]
    · rw [hlen, hstep]
      simp only [List.length_append, List.length_singleton]
      omega

/-- **A call that starts badly can return 1 for an earlier descriptor.** -/
theorem tx_misreports {s : Virtio} (h : Counted s) {data : List UInt8} (hacc : Accepts s data)
    (hbad : ¬ Recovered s) :
    ∃ more, (∀ data', .tx data' ∉ more) ∧ ¬ OwnCompletions (run (.tx data :: more) s) := by
  obtain ⟨c, hlow, hhigh, hc⟩ : ∃ c, s.sent.length ≤ c ∧ c ≤ s.posted.length ∧
      UInt16.ofNat c = s.txUsedSeen + 1 := by
    unfold Recovered at hbad
    push Not at hbad
    exact hbad
  have hnum := h.numbered
  rw [hacc.2.1] at hnum
  have hstart : tx data s = { s with pc := .drain data 0 } := if_pos hacc
  obtain ⟨m, hdrain⟩ := drain_ends data drainPolls 0 { s with pc := .drain data 0 } rfl (Nat.zero_add _)
  obtain ⟨used, sent, hdevices, hlen⟩ := devices (c - s.sent.length)
    { s with
      txb := framed data ++ s.txb.drop (data.length + 10)
      descLen := data.length + 10
      availIdx := s.availIdx + 1
      posted := s.posted ++ [framed data]
      pc := .wait 0 } (by
        simp only [List.length_append]
        omega)
  refine ⟨List.replicate m .cpu ++ [.cpu] ++ List.replicate (c - s.sent.length) .device ++ [.cpu],
    ?_, ?_⟩
  · intro data' hmem
    simp [List.mem_replicate] at hmem
  -- the last poll finds the completion of an earlier descriptor
  have hreach : run (.tx data :: (List.replicate m .cpu ++ [.cpu] ++
      List.replicate (c - s.sent.length) .device)) s =
        { s with
          txb := framed data ++ s.txb.drop (data.length + 10)
          descLen := data.length + 10
          availIdx := s.availIdx + 1
          posted := s.posted ++ [framed data]
          pc := .wait 0
          usedIdx := used
          sent := sent } := by
    show run _ (tx data s) = _
    rw [hstart, run_append, run_append, hdrain]
    exact hdevices
  have hused : used = UInt16.ofNat sent.length := by
    have hcounted := (run_counted (.tx data :: (List.replicate m .cpu ++ [.cpu] ++
      List.replicate (c - s.sent.length) .device)) h).used
    rwa [hreach] at hcounted
  have hsent : sent.length = c := by
    rw [hlen]
    exact Nat.add_sub_cancel' hlow
  have hlast : run (.tx data :: (List.replicate m .cpu ++ [.cpu] ++
      List.replicate (c - s.sent.length) .device ++ [.cpu])) s =
        { s with
          txb := framed data ++ s.txb.drop (data.length + 10)
          descLen := data.length + 10
          availIdx := s.availIdx + 1
          posted := s.posted ++ [framed data]
          usedIdx := used
          sent := sent
          txUsedSeen := s.txUsedSeen + 1
          returned := s.returned ++ [true]
          pc := .idle } := by
    have hfound : used = s.txUsedSeen + 1 := by
      rw [hused, hsent]
      exact hc
    have hmore : 0 < waitPolls := by decide
    rw [← List.cons_append, run_append, hreach]
    rw [run_singleton, step]
    simp only [cpu, if_pos hmore, if_pos hfound]
  intro hown
  rw [hlast] at hown
  have hlt := (hown s.returned.length List.getElem?_concat_length).1
  simp only [Pc.outstanding, hsent] at hlt hnum
  omega

/-- **When `tx` reports only its own completions.**  In every run whose calls start in a state that is
`Recovered`, each call that returned 1 had its own descriptor completed, while the buffer held its
frame; and a call that starts in another state can return 1 without. -/
theorem tx_own_completions_iff (up : Bool) (events : List Event) :
    (StartsWell up events → OwnCompletions (run events (boot up))) ∧
    ∀ data, Accepts (run events (boot up)) data → ¬ Recovered (run events (boot up)) →
      ∃ more, (∀ data', .tx data' ∉ more) ∧
        ¬ OwnCompletions (run (events ++ .tx data :: more) (boot up)) := by
  refine ⟨fun h => (run_safe h).own, fun data hacc hbad => ?_⟩
  obtain ⟨more, hno, hwrong⟩ := tx_misreports (run_counted events (boot_counted up)) hacc hbad
  refine ⟨more, hno, ?_⟩
  rwa [run_append]

theorem tx_own_completions_smoke :
    OwnCompletions (run [.tx (List.replicate 14 0), .cpu, .cpu, .device, .cpu] (boot true)) := by
  refine (tx_own_completions_iff true _).1 fun before data rest heq hacc c hlow hhigh => ?_
  cases before with
  | nil =>
    obtain rfl : c = 0 := Nat.le_zero.mp hhigh
    decide
  | cons e before =>
    -- no other call is made
    have hmem : Event.tx data ∈ [Event.cpu, .cpu, .device, .cpu] := by
      rw [(List.cons.inj heq).2]
      exact List.mem_append_right _ List.mem_cons_self
    simp at hmem

/-- A wait without a completion ends with 0. -/
theorem wait_gives_up : ∀ (n k : ℕ) (s : Virtio), s.pc = .wait k → s.usedIdx ≠ s.txUsedSeen + 1 →
    k + n = waitPolls → run (List.replicate (n + 1) .cpu) s =
      { s with returned := s.returned ++ [false], pc := .idle } := by
  intro n
  induction n with
  | zero =>
    intro k s hpc hused hk
    show cpu s = _
    rw [cpu, hpc]
    exact if_neg (by omega)
  | succ n ih =>
    intro k s hpc hused hk
    have hstep : step s .cpu = { s with pc := .wait (k + 1) } := by
      rw [step, cpu, hpc]
      exact (if_pos (by omega)).trans (if_neg hused)
    rw [run_replicate_succ, hstep, ih (k + 1) { s with pc := .wait (k + 1) } rfl hused (by omega)]

/-- The completion of a call that gave up is taken for the one of the next call. -/
theorem tx_reports_late_completion :
    ¬ OwnCompletions (run ([.tx (List.replicate 14 1), .cpu, .cpu] ++
      List.replicate (waitPolls + 1) .cpu ++
        [.tx (List.replicate 14 2), .cpu, .cpu, .device, .cpu]) (boot true)) := by
  have hlast : (run ([.tx (List.replicate 14 1), .cpu, .cpu] ++ List.replicate (waitPolls + 1) .cpu ++
      [.tx (List.replicate 14 2), .cpu, .cpu, .device, .cpu]) (boot true)).returned = [false, true] ∧
      (run ([.tx (List.replicate 14 1), .cpu, .cpu] ++ List.replicate (waitPolls + 1) .cpu ++
        [.tx (List.replicate 14 2), .cpu, .cpu, .device, .cpu]) (boot true)).sent.length = 1 := by
    rw [run_append, run_append, wait_gives_up waitPolls 0 _ rfl (by decide) (Nat.zero_add _)]
    exact ⟨rfl, rfl⟩
  intro hown
  have hlt := (hown 1 (by rw [hlast.1]; rfl)).1
  rw [hlast.2] at hlt
  omega

/-! ## Calls that give up -/

theorem returned_grows (s : Virtio) (e : Event) : s.returned <+: (step s e).returned := by
  cases e with
  | tx data =>
    rw [step, tx]
    split <;> exact List.prefix_refl _
  | device =>
    rw [step, device]
    split <;> exact List.prefix_refl _
  | cpu =>
    rw [step, cpu]
    cases s.pc with
    | idle => exact List.prefix_refl _
    | drain data k =>
      simp only
      split <;> exact List.prefix_refl _
    | post data => exact List.prefix_refl _
    | wait k =>
      simp only
      split
      · split
        · exact List.prefix_append _ _
        · exact List.prefix_refl _
      · exact List.prefix_append _ _

theorem recovered_of_returned {s : Virtio} (h : Safe s) (hidle : s.pc = .idle)
    (hall : ∀ b ∈ s.returned, b = true) : Recovered s := by
  have hnum := h.counted.numbered
  rw [hidle] at hnum
  have hlen : s.posted.length = s.returned.length := hnum
  have hcount : s.returned.count true = s.returned.length := by
    rw [List.count_eq_length]
    exact fun b hb => (hall b hb).symm
  have hsent : s.returned.length ≤ s.sent.length := by
    by_contra hlt
    have hmem : s.sent.length < s.returned.length := Nat.not_le.mp hlt
    have htrue : s.returned[s.sent.length]? = some true := by
      rw [List.getElem?_eq_getElem hmem, hall _ (List.getElem_mem hmem)]
    exact absurd (h.own _ htrue).1 (Nat.lt_irrefl _)
  intro c hlow hhigh
  obtain rfl : c = s.returned.length := by omega
  rw [h.counted.seen, hcount]
  intro heq
  simp at heq

/-- **As long as every call has returned 1, all calls start well.** -/
theorem startsWell_of_returned (up : Bool) (events : List Event)
    (hall : ∀ b ∈ (run events (boot up)).returned, b = true) : StartsWell up events := by
  induction events using List.reverseRecOn with
  | nil =>
    intro before data rest heq
    simp at heq
  | append_singleton events e ih =>
    rw [run_append, run_singleton] at hall
    have hbefore := ih fun b hb => hall b ((returned_grows _ e).subset hb)
    intro before data rest heq hacc
    rcases List.eq_nil_or_concat rest with rfl | ⟨rest', e', rfl⟩
    · obtain ⟨rfl, -⟩ := List.append_inj' heq rfl
      exact recovered_of_returned (run_safe hbefore) hacc.2.1
        fun b hb => hall b ((returned_grows _ e).subset hb)
    · have hsplit : events ++ [e] = (before ++ .tx data :: rest') ++ [e'] := by
        rw [heq, List.concat_eq_append, List.append_assoc]
        rfl
      exact hbefore before data rest' (List.append_inj' hsplit rfl).1 hacc

/-- **The call after the first that gave up starts badly.** -/
theorem not_recovered_of_timeout (up : Bool) {events : List Event} {earlier : List Bool}
    (hidle : (run events (boot up)).pc = .idle)
    (hreturned : (run events (boot up)).returned = earlier ++ [false])
    (hall : ∀ b ∈ earlier, b = true) : ¬ Recovered (run events (boot up)) := by
  have h := run_counted events (boot_counted up)
  have hnum := h.numbered
  have hseen := h.seen
  have hcount : earlier.count true = earlier.length := by
    rw [List.count_eq_length]
    exact fun b hb => (hall b hb).symm
  rw [hidle, hreturned] at hnum
  rw [hreturned, List.count_append, hcount] at hseen
  have hposted : (run events (boot up)).posted.length = earlier.length + 1 := by
    rw [hnum, List.length_append]
    rfl
  intro hrec
  refine hrec (earlier.length + 1) (hposted ▸ h.sent_le) (Nat.le_of_eq hposted.symm) ?_
  rw [hseen, UInt16.ofNat_add]
  rfl

end Orion.Netdev
