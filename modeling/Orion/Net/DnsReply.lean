import Mathlib.Data.List.DropRight
import Orion.Net.DnsWire

/-!
# Answers to DNS queries

`handle_udp` on the bytes of a datagram: the message of a datagram for the outstanding query
(`forQuery`) and the address in it (`addressIn`) decide what happens to `dns_done` and `dns_answer`
(`handleUdp_value`), and both together are the grammar (`answersQuery_iff`).
-/

namespace Orion.Net

open Orion.Traced

/-! ## Bytes of the memory -/

section

variable (mem : ℕ → UInt8)

/-- `n` bytes from `d` on. -/
def span (d n : ℕ) : List UInt8 := (List.range n).map fun k => mem (d + k)

@[simp] theorem span_length (d n : ℕ) : (span mem d n).length = n := by
  simp [span]

theorem span_succ (d n : ℕ) : span mem d (n + 1) = mem d :: span mem (d + 1) n := by
  unfold span
  rw [List.range_succ_eq_map, List.map_cons, List.map_map]
  refine congrArg (mem d :: ·) (List.map_congr_left fun k _ => ?_)
  show mem (d + (k + 1)) = mem (d + 1 + k)
  rw [Nat.add_right_comm, Nat.add_assoc]

theorem span_take {d k n : ℕ} (h : k ≤ n) : (span mem d n).take k = span mem d k := by
  unfold span
  rw [← List.map_take, List.take_range, Nat.min_eq_left h]

/-- An offset is the rest of the bytes behind it. -/
theorem span_drop {d : ℕ} : ∀ {k n : ℕ}, k ≤ n → (span mem d n).drop k = span mem (d + k) (n - k) := by
  intro k n h
  refine List.ext_getElem (by simp) fun i hi _ => ?_
  simp only [span, List.getElem_drop, List.getElem_map, List.getElem_range]
  rw [Nat.add_assoc]

theorem word_span {d i n : ℕ} (h : i + 2 ≤ n) : word (span mem d n) i = (get16 mem (d + i)).value := by
  have hget : ∀ j < n, (span mem d n).getD j 0 = mem (d + j) := by
    intro j hj
    rw [List.getD_eq_getElem _ _ (by simpa using hj)]
    simp [span]
  rw [word, hget i (by omega), hget (i + 1) (by omega), value_get16, Nat.add_assoc]

end

/-! ## The loops on the rest of the message -/

section

variable {mem : ℕ → UInt8} {d n : ℕ}

theorem and_c0_eq (z : UInt8) : z &&& 0xc0 = 0xc0 ↔ 192 ≤ z.toNat := by
  have hall : ∀ v : Fin 256, UInt8.ofNat v.val &&& 0xc0 = 0xc0 ↔ 192 ≤ v.val := by decide +kernel
  have hz := hall ⟨z.toNat, z.toNat_lt⟩
  rw [UInt8.ofNat_toNat] at hz
  exact hz

theorem and_c0_ne (z : UInt8) : z &&& 0xc0 ≠ 0 ↔ 63 < z.toNat := by
  have hall : ∀ v : Fin 256, UInt8.ofNat v.val &&& 0xc0 ≠ 0 ↔ 63 < v.val := by decide +kernel
  have hz := hall ⟨z.toNat, z.toNat_lt⟩
  rw [UInt8.ofNat_toNat] at hz
  exact hz

theorem dnsSkipLabels_succ (labels o : ℕ) : (dnsSkipLabels mem d n (labels + 1) o).value =
    if o < n then
      if mem (d + o) = 0 then o + 1
      else if mem (d + o) &&& 0xc0 = 0xc0 then o + 2
      else if mem (d + o) &&& 0xc0 ≠ 0 ∨ mem (d + o) > 63 ∨ o + 1 + (mem (d + o)).toNat > n then n + 1
      else (dnsSkipLabels mem d n labels (o + 1 + (mem (d + o)).toNat)).value
    else n + 1 := by
  rw [dnsSkipLabels, value_ite, value_bind, value_ite, value_ite, value_ite]
  rfl

/-- An error is an offset behind the end of the message. -/
theorem dnsSkipLabels_value : ∀ {labels o : ℕ}, o ≤ n →
    (skipLabels labels (span mem (d + o) (n - o)) = none ∧
      n < (dnsSkipLabels mem d n labels o).value) ∨
    ∃ o' ≤ n, (dnsSkipLabels mem d n labels o).value = o' ∧
      skipLabels labels (span mem (d + o) (n - o)) = some (span mem (d + o') (n - o')) := by
  intro labels
  induction labels with
  | zero =>
    intro o _
    exact .inl ⟨rfl, Nat.lt_succ_self n⟩
  | succ labels ih =>
    intro o ho
    rw [dnsSkipLabels_succ]
    by_cases hin : o < n
    swap
    · have hend : n - o = 0 := by omega
      rw [if_neg hin, hend]
      exact .inl ⟨rfl, Nat.lt_succ_self n⟩
    have hcons : span mem (d + o) (n - o) = mem (d + o) :: span mem (d + (o + 1)) (n - (o + 1)) := by
      rw [show n - o = n - (o + 1) + 1 from by omega, span_succ, Nat.add_assoc]
    have hlen := span_length mem (d + (o + 1)) (n - (o + 1))
    have hdrop : ∀ k, o + 1 + k ≤ n → (span mem (d + (o + 1)) (n - (o + 1))).drop k =
        span mem (d + (o + 1 + k)) (n - (o + 1 + k)) := by
      intro k hk
      rw [span_drop mem (by omega), Nat.add_assoc, Nat.sub_sub]
    rw [if_pos hin, hcons, skipLabels]
    by_cases hzero : mem (d + o) = 0
    · rw [if_pos hzero, if_pos hzero]
      exact .inr ⟨o + 1, hin, rfl, rfl⟩
    rw [if_neg hzero, if_neg hzero]
    by_cases hpointer : 192 ≤ (mem (d + o)).toNat
    · rw [if_pos ((and_c0_eq _).mpr hpointer), if_pos hpointer]
      by_cases hcut : o + 2 ≤ n
      · have hne : span mem (d + (o + 1)) (n - (o + 1)) ≠ [] := by
          intro hnil
          rw [hnil] at hlen
          simp only [List.length_nil] at hlen
          omega
        rw [if_neg hne, hdrop 1 (by omega)]
        exact .inr ⟨o + 2, hcut, rfl, rfl⟩
      · have hnil : span mem (d + (o + 1)) (n - (o + 1)) = [] :=
          List.eq_nil_of_length_eq_zero (by rw [hlen]; omega)
        rw [if_pos hnil]
        exact .inl ⟨rfl, by omega⟩
    rw [if_neg fun h => hpointer ((and_c0_eq _).mp h), if_neg hpointer]
    by_cases hbad : 63 < (mem (d + o)).toNat ∨ o + 1 + (mem (d + o)).toNat > n
    · have hcode : mem (d + o) &&& 0xc0 ≠ 0 ∨ mem (d + o) > 63 ∨ o + 1 + (mem (d + o)).toNat > n :=
        hbad.imp (and_c0_ne _).mpr .inr
      rw [if_pos hcode, if_pos (hbad.imp id fun h => by rw [hlen]; omega)]
      exact .inl ⟨rfl, Nat.lt_succ_self n⟩
    · have hcode : ¬ (mem (d + o) &&& 0xc0 ≠ 0 ∨ mem (d + o) > 63 ∨ o + 1 + (mem (d + o)).toNat > n) := by
        rintro (h | h | h)
        · exact hbad (.inl ((and_c0_ne _).mp h))
        · exact hbad (.inl (UInt8.lt_iff_toNat_lt.mp h))
        · exact hbad (.inr h)
      rw [if_neg hcode, if_neg (fun h => hbad (h.imp id fun h => by rw [hlen] at h; omega)),
        hdrop _ (by omega)]
      exact ih (by omega)

theorem dnsQuestions_value : ∀ {qd o : ℕ}, o ≤ n →
    ((dnsQuestions mem d n qd o).value = none ∧
      skipQuestions qd (span mem (d + o) (n - o)) = none) ∨
    ∃ o' ≤ n, (dnsQuestions mem d n qd o).value = some o' ∧
      skipQuestions qd (span mem (d + o) (n - o)) = some (span mem (d + o') (n - o')) := by
  intro qd
  induction qd with
  | zero =>
    intro o ho
    exact .inr ⟨o, ho, rfl, rfl⟩
  | succ qd ih =>
    intro o ho
    unfold dnsQuestions skipQuestions
    simp only [value_bind, value_ite, value_pure]
    obtain ⟨hnone, hover⟩ | ⟨o', ho', hvalue, hsome⟩ := @dnsSkipLabels_value mem d n 128 o ho
    · rw [hnone, dnsSkipName, if_pos (.inl hover)]
      exact .inl ⟨rfl, rfl⟩
    · rw [hsome, dnsSkipName, hvalue, Option.bind_some, span_length]
      by_cases hfits : o' + 4 ≤ n
      · rw [if_neg (by omega), if_neg (by omega), span_drop mem (by omega), Nat.add_assoc, Nat.sub_sub]
        exact ih hfits
      · rw [if_pos (by omega), if_pos (by omega)]
        exact .inl ⟨rfl, rfl⟩

theorem dnsAnswers_value : ∀ {an o : ℕ}, o ≤ n →
    (dnsAnswers mem d n an o).value = firstAddress an (span mem (d + o) (n - o)) := by
  intro an
  induction an with
  | zero =>
    intro o _
    rfl
  | succ an ih =>
    intro o ho
    unfold dnsAnswers firstAddress
    simp only [value_bind, value_ite, value_pure]
    obtain ⟨hnone, hover⟩ | ⟨o', ho', hvalue, hsome⟩ := @dnsSkipLabels_value mem d n 128 o ho
    · rw [hnone, dnsSkipName, if_pos (.inl hover)]
      rfl
    · rw [hsome, dnsSkipName, hvalue, Option.bind_some, span_length]
      have hword : ∀ i, o' + i + 2 ≤ n →
          word (span mem (d + o') (n - o')) i = (get16 mem (d + o' + i)).value :=
        fun i hi => word_span mem (by omega)
      by_cases hfixed : o' + 10 ≤ n
      swap
      · rw [if_pos (by omega), if_pos (by omega)]
      have htype : word (span mem (d + o') (n - o')) 0 = (get16 mem (d + o')).value :=
        hword 0 (by omega)
      rw [htype, hword 2 (by omega), hword 8 (by omega)]
      generalize (get16 mem (d + o' + 8)).value = rdl
      by_cases hdata : o' + 10 + rdl ≤ n
      swap
      · rw [if_neg (by omega), if_pos (show o' + 10 + rdl > n from by omega),
          if_pos (show n - o' < 10 + rdl from by omega)]
      rw [if_neg (by omega), if_neg (show ¬ o' + 10 + rdl > n from by omega),
        if_neg (show ¬ n - o' < 10 + rdl from by omega), span_drop mem (by omega),
        span_drop mem (by omega)]
      by_cases haddress : (get16 mem (d + o')).value = 1 ∧ (get16 mem (d + o' + 2)).value = 1 ∧ rdl = 4
      · rw [if_pos haddress, if_pos haddress, span_take mem (by omega)]
        rfl
      · rw [if_neg haddress, if_neg haddress, ih hdata]
        congr 2 <;> omega

end

/-! ## The datagram -/

/-- The message of a datagram that is for the outstanding query. -/
def forQuery (s : State) (b : List UInt8) : Option (List UInt8) :=
  if b.length < 8 ∨ word b 4 < 8 ∨ word b 4 > b.length ∨ word b 0 ≠ 53 ∨ s.dnsId = 0 ∨
      word b 2 ≠ s.dnsPort then none
  else
    let m := (b.drop 8).take (word b 4 - 8)
    if m.length < 12 ∨ word m 0 ≠ s.dnsId ∨ word m 2 / 2 ^ 15 = 0 then none else some m

/-- The address in a message, if it is without error. -/
def addressIn (m : List UInt8) : Option (List UInt8) :=
  if word m 2 % 16 ≠ 0 then none
  else (skipQuestions (word m 4) (m.drop 12)).bind (firstAddress (word m 6))

/-- **`handle_udp` on the bytes of the datagram.** -/
theorem handleUdp_value (mem : ℕ → UInt8) (p len : ℕ) (s : State) :
    (handleUdp mem p len s).value = (forQuery s (span mem p len)).elim s fun m =>
      (addressIn m).elim { s with dnsDone := -1 } fun a => { s with dnsAnswer := a, dnsDone := 1 } := by
  unfold handleUdp forQuery
  rw [span_length]
  by_cases hlen : len < 8
  · rw [if_pos hlen, if_pos (.inl hlen)]
    rfl
  have hword : ∀ i, i + 2 ≤ 8 → word (span mem p len) i = (get16 mem (p + i)).value :=
    fun i hi => word_span mem (by omega)
  have hport : word (span mem p len) 0 = (get16 mem p).value := hword 0 (by omega)
  rw [if_neg hlen, hport, hword 2 (by omega), hword 4 (by omega)]
  simp only [value_bind]
  generalize hulen : (get16 mem (p + 4)).value = ulen
  by_cases hother : ulen < 8 ∨ ulen > len ∨ (get16 mem p).value ≠ 53 ∨ s.dnsId = 0 ∨
      (get16 mem (p + 2)).value ≠ s.dnsPort
  · rw [if_pos hother, if_pos (.inr hother)]
    rfl
  have hhere : ¬ (len < 8 ∨ ulen < 8 ∨ ulen > len ∨ (get16 mem p).value ≠ 53 ∨ s.dnsId = 0 ∨
      (get16 mem (p + 2)).value ≠ s.dnsPort) := not_or.mpr ⟨hlen, hother⟩
  have hmessage : ((span mem p len).drop 8).take (ulen - 8) = span mem (p + 8) (ulen - 8) := by
    rw [span_drop mem (by omega), span_take mem (by omega)]
  rw [if_neg hother, if_neg hhere, hmessage]
  generalize ulen - 8 = n
  simp only [span_length]
  by_cases hshort : n < 12
  · rw [if_pos hshort, if_pos (.inl hshort)]
    rfl
  have hfield : ∀ i, i + 2 ≤ 12 →
      word (span mem (p + 8) n) i = (get16 mem (p + 8 + i)).value :=
    fun i hi => word_span mem (by omega)
  have hid : word (span mem (p + 8) n) 0 = (get16 mem (p + 8)).value := hfield 0 (by omega)
  rw [if_neg hshort, hid, hfield 2 (by omega), value_bind, value_bind]
  by_cases hquery : (get16 mem (p + 8)).value ≠ s.dnsId ∨ (get16 mem (p + 8 + 2)).value / 2 ^ 15 = 0
  · rw [if_pos hquery, if_pos (.inr hquery)]
    rfl
  have haccepted : ¬ (n < 12 ∨ (get16 mem (p + 8)).value ≠ s.dnsId ∨
      (get16 mem (p + 8 + 2)).value / 2 ^ 15 = 0) := not_or.mpr ⟨hshort, hquery⟩
  rw [if_neg hquery, if_neg haccepted, Option.elim_some, addressIn, hfield 2 (by omega),
    hfield 4 (by omega), hfield 6 (by omega), span_drop mem (by omega)]
  by_cases herror : (get16 mem (p + 8 + 2)).value % 16 ≠ 0
  · rw [if_pos herror, if_pos herror]
    rfl
  rw [if_neg herror, if_neg herror, value_bind, value_bind, value_bind]
  obtain ⟨hnone, hskip⟩ | ⟨o, ho, hsome, hskip⟩ :=
    @dnsQuestions_value mem (p + 8) n (get16 mem (p + 8 + 4)).value 12 (by omega)
  · rw [hnone, hskip]
    rfl
  · rw [hsome, hskip, Option.bind_some, ← dnsAnswers_value ho]
    simp only [value_bind]
    cases (dnsAnswers mem (p + 8) n (get16 mem (p + 8 + 6)).value o).value with
    | none => rfl
    | some a => rfl

theorem AddressMessage.word_bytes (x : AddressMessage) {i : ℕ} (hi : i + 2 ≤ 12) :
    word x.bytes i = word x.header i := by
  have hheader := x.header_length
  rw [AddressMessage.bytes]
  simp only [List.append_assoc]
  exact word_append (by omega) _

theorem addressIn_iff {m a : List UInt8} (hlen : 12 ≤ m.length) : addressIn m = some a ↔
    word m 2 % 16 = 0 ∧ ∃ x : AddressMessage, m = x.bytes ∧ x.answer.rdata = a := by
  have hword : ∀ i, i + 2 ≤ 12 → word (m.take 12) i = word m i := fun i hi => word_take hi hlen
  unfold addressIn
  constructor
  · intro h
    split at h
    · simp at h
    rename_i herror
    obtain ⟨body, hskip, hanswers⟩ := Option.bind_eq_some_iff.mp h
    obtain ⟨questions, hquestions, hbody⟩ := skipQuestions_iff.mp hskip
    obtain ⟨leading, answer, rest, hleading, hother, haddress, hdata, rfl⟩ := firstAddress_iff.mp hanswers
    refine ⟨not_not.mp herror, ⟨m.take 12, questions, leading, answer, rest, List.length_take_of_le hlen,
      by rw [hword 4 (by omega), hquestions], by rw [hword 6 (by omega)]; exact hleading, hother,
      haddress⟩, ?_, hdata⟩
    rw [AddressMessage.bytes]
    simp only [List.append_assoc] at hbody ⊢
    rw [← hbody, List.take_append_drop]
  · rintro ⟨herror, x, rfl, hdata⟩
    have hdrop : x.bytes.drop 12 = x.questions.flatMap Question.bytes ++
        (x.leading.flatMap ResourceRecord.bytes ++ x.answer.bytes ++ x.rest) := by
      rw [AddressMessage.bytes]
      simp only [List.append_assoc]
      exact List.drop_left' x.header_length
    rw [x.word_bytes (by omega)] at herror
    rw [x.word_bytes (by omega), if_neg (not_not.mpr herror), hdrop, x.word_bytes (by omega),
      x.word_bytes (by omega), skipQuestions_iff.mpr ⟨x.questions, x.questions_length, rfl⟩, Option.bind_some]
    exact firstAddress_iff.mpr ⟨x.leading, x.answer, x.rest, x.leading_length, x.leading_other,
      x.answer_address, hdata, rfl⟩

/-- **Which datagrams have an answer.** -/
theorem answersQuery_iff {s : State} {b a : List UInt8} :
    AnswersQuery s b a ↔ (forQuery s b).bind addressIn = some a := by
  constructor
  · rintro ⟨hid, x, udp, padding, hudp, hsource, hport, hlength, rfl, ⟨hquery, hresponse, herror⟩, hdata⟩
    have hheader := x.header_length
    have hlen : 12 ≤ x.bytes.length := by
      rw [AddressMessage.bytes]
      simp only [List.length_append]
      omega
    have hword : ∀ i, i + 2 ≤ 8 → word (udp ++ x.bytes ++ padding) i = word udp i := by
      intro i hi
      rw [List.append_assoc]
      exact word_append (by omega) _
    have hmessage : ((udp ++ x.bytes ++ padding).drop 8).take (word udp 4 - 8) = x.bytes := by
      rw [List.append_assoc, List.drop_left' hudp, hlength, Nat.add_sub_cancel_left, List.take_left]
    have hfits : ¬ ((udp ++ x.bytes ++ padding).length < 8 ∨ word udp 4 < 8 ∨
        word udp 4 > (udp ++ x.bytes ++ padding).length ∨ word udp 0 ≠ 53 ∨ s.dnsId = 0 ∨
        word udp 2 ≠ s.dnsPort) := by
      simp only [List.length_append]
      omega
    have hanswer : ¬ (x.bytes.length < 12 ∨ word x.header 0 ≠ s.dnsId ∨
        word x.header 2 / 2 ^ 15 = 0) := by
      omega
    rw [forQuery, hword 4 (by omega), hword 0 (by omega), hword 2 (by omega), if_neg hfits, hmessage]
    show (if x.bytes.length < 12 ∨ word x.bytes 0 ≠ s.dnsId ∨ word x.bytes 2 / 2 ^ 15 = 0 then none
      else some x.bytes).bind addressIn = some a
    rw [x.word_bytes (by omega), x.word_bytes (by omega), if_neg hanswer, Option.bind_some]
    exact (addressIn_iff hlen).mpr ⟨by rw [x.word_bytes (by omega)]; exact herror, x, rfl, hdata⟩
  · intro h
    obtain ⟨m, hm, haddress⟩ := Option.bind_eq_some_iff.mp h
    unfold forQuery at hm
    split at hm
    · simp at hm
    rename_i hfits
    simp only at hm
    split at hm
    · simp at hm
    rename_i hanswer
    obtain rfl := Option.some.inj hm
    obtain ⟨herror, x, hx, hdata⟩ := (addressIn_iff (by omega)).mp haddress
    have hfield : ∀ i, i + 2 ≤ 12 → word ((b.drop 8).take (word b 4 - 8)) i = word x.header i := by
      intro i hi
      rw [hx, x.word_bytes hi]
    have hword : ∀ i, i + 2 ≤ 8 → word (b.take 8) i = word b i := fun i hi => word_take hi (by omega)
    have hlength : x.bytes.length = word b 4 - 8 := by
      rw [← hx, List.length_take, List.length_drop]
      omega
    rw [hfield 0 (by omega), hfield 2 (by omega)] at hanswer
    rw [hfield 2 (by omega)] at herror
    refine ⟨by omega, x, b.take 8, (b.drop 8).drop (word b 4 - 8), ?_, ?_, ?_, ?_, ?_,
      ⟨by omega, by omega, herror⟩, hdata⟩
    · rw [List.length_take]
      omega
    · rw [hword 0 (by omega)]
      omega
    · rw [hword 2 (by omega)]
      omega
    · rw [hword 4 (by omega), hlength]
      omega
    · rw [← hx, List.append_assoc, List.take_append_drop, List.take_append_drop]

/-- The reply for `a.bcd`, whose answer refers to the name in the question. -/
example : AnswersQuery { State.boot with dnsId := 0x4001, dnsPort := 50000 }
    ([0, 53, 195, 80, 0, 47, 0, 0] ++ [64, 1, 129, 128, 0, 1, 0, 1, 0, 0, 0, 0] ++
      [1, 97, 3, 98, 99, 100, 0, 0, 1, 0, 1] ++ [192, 12, 0, 1, 0, 1, 0, 0, 1, 0, 0, 4, 10, 20, 30, 40])
    [10, 20, 30, 40] := answersQuery_iff.mpr (by decide)

/-- **DNS replies are decoded exactly.**  Reading only inside the datagram, `handle_udp` stores the
address if the datagram answers the query and never changes `dns_answer` otherwise. -/
theorem dns_reply_decoded (mem : ℕ → UInt8) (p len : ℕ) (s : State) :
    Within (fun i => p ≤ i ∧ i < p + len) (handleUdp mem p len s) ∧
    (∀ a, AnswersQuery s (span mem p len) a →
      (handleUdp mem p len s).value = { s with dnsAnswer := a, dnsDone := 1 }) ∧
    ((∀ a, ¬ AnswersQuery s (span mem p len) a) →
      (handleUdp mem p len s).value = s ∨ (handleUdp mem p len s).value = { s with dnsDone := -1 }) ∧
    (s.dnsDone ≠ 1 → ∀ a, ((handleUdp mem p len s).value.dnsDone = 1 ∧
      (handleUdp mem p len s).value.dnsAnswer = a ↔ AnswersQuery s (span mem p len) a)) := by
  have hstored : ∀ a, AnswersQuery s (span mem p len) a →
      (handleUdp mem p len s).value = { s with dnsAnswer := a, dnsDone := 1 } := by
    intro a ha
    obtain ⟨m, hm, haddress⟩ := Option.bind_eq_some_iff.mp (answersQuery_iff.mp ha)
    rw [handleUdp_value, hm, Option.elim_some, haddress]
    rfl
  have hkept : (∀ a, ¬ AnswersQuery s (span mem p len) a) →
      (handleUdp mem p len s).value = s ∨ (handleUdp mem p len s).value = { s with dnsDone := -1 } := by
    intro hnone
    rw [handleUdp_value]
    cases hm : forQuery s (span mem p len) with
    | none => exact .inl rfl
    | some m =>
      rw [Option.elim_some]
      cases haddress : addressIn m with
      | none => exact .inr rfl
      | some a => exact absurd (answersQuery_iff.mpr (by rw [hm, Option.bind_some, haddress])) (hnone a)
  refine ⟨handleUdp_inside s (Nat.le_refl _), hstored, hkept, fun hwaiting a => ⟨?_, fun ha => ?_⟩⟩
  · rintro ⟨hdone, hanswer⟩
    by_contra hother
    by_cases hsome : ∃ a', AnswersQuery s (span mem p len) a'
    · obtain ⟨a', ha'⟩ := hsome
      rw [hstored a' ha'] at hanswer
      exact hother (hanswer ▸ ha')
    · obtain hs | hs := hkept (not_exists.mp hsome)
      · rw [hs] at hdone
        exact hwaiting hdone
      · rw [hs] at hdone
        have hminus : (-1 : ℤ) = 1 := hdone
        exact absurd hminus (by decide)
  · rw [hstored a ha]
    exact ⟨rfl, rfl⟩

end Orion.Net
