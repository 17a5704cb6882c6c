import Orion.Net.Client
import Orion.Net.DnsReply

/-!
# DNS queries

The encoder of `dns_lookup` against the labels of the host name (`hostLabels`): which names it
encodes (`dnsName_ok`), with which of its refusals `dns_id` stays set (`dnsName_idKept`), and the
query that is made of an encoded name.
-/

namespace Orion.Net

open Orion.Traced

/-! ## The labels of a host name -/

/-- The parts between the dots, without an empty part behind the last dot. -/
def hostLabels (host : List UInt8) : List (List UInt8) :=
  if (host.splitOn 46).getLast? = some [] then (host.splitOn 46).dropLast else host.splitOn 46

def firstLabel (s : List UInt8) : List UInt8 := s.takeWhile (· ≠ 46)

/-- What is behind the first label and its dot. -/
def afterLabel (s : List UInt8) : List UInt8 := (s.dropWhile (· ≠ 46)).drop 1

theorem firstLabel_noDot (s : List UInt8) : 46 ∉ firstLabel s := by
  intro hmem
  have hne := List.mem_takeWhile_imp hmem
  simp at hne

/-- A name is its first label, or it goes on behind a dot. -/
theorem firstLabel_cases (s : List UInt8) :
    (s = firstLabel s ∧ afterLabel s = []) ∨ s = firstLabel s ++ 46 :: afterLabel s := by
  have hsplit := @List.takeWhile_append_dropWhile _ (· ≠ (46 : UInt8)) s
  unfold firstLabel afterLabel
  cases hrest : s.dropWhile (· ≠ (46 : UInt8)) with
  | nil =>
    rw [hrest, List.append_nil] at hsplit
    exact .inl ⟨hsplit.symm, rfl⟩
  | cons c rest =>
    have hdot := List.head?_dropWhile_not (· ≠ (46 : UInt8)) s
    rw [hrest] at hdot hsplit
    obtain rfl : c = 46 := by simpa using hdot
    exact .inr hsplit.symm

theorem afterLabel_length {s : List UInt8} (hs : s ≠ []) : (afterLabel s).length < s.length := by
  have hpos := List.length_pos_iff.mpr hs
  obtain ⟨-, hnil⟩ | hsplit := firstLabel_cases s
  · rw [hnil]
    exact hpos
  · have hlen := congrArg List.length hsplit
    rw [List.length_append, List.length_cons] at hlen
    omega

theorem hostLabels_nil : hostLabels [] = [] := rfl

theorem hostLabels_cons {s : List UInt8} (hs : s ≠ []) :
    hostLabels s = firstLabel s :: hostLabels (afterLabel s) := by
  obtain ⟨hall, hnil⟩ | hsplit := firstLabel_cases s
  · have hsingle : s.splitOn 46 = [s] := by
      refine List.splitOn_eq_singleton ?_
      rw [hall]
      exact firstLabel_noDot s
    rw [hnil, hostLabels_nil, ← hall, hostLabels, hsingle]
    simp [hs]
  · have hparts : s.splitOn 46 = firstLabel s :: (afterLabel s).splitOn 46 := by
      conv_lhs => rw [hsplit]
      exact List.splitOn_append_cons_self_of_not_mem (firstLabel_noDot s) _
    have hne := List.splitOn_ne_nil 46 (afterLabel s)
    have hlast : (s.splitOn 46).getLast? = ((afterLabel s).splitOn 46).getLast? := by
      rw [hparts, List.getLast?_cons_of_ne_nil hne]
    unfold hostLabels
    rw [hlast]
    split
    · rw [hparts, List.dropLast_cons_of_ne_nil hne]
    · exact hparts

/-! ## The encoder -/

/-- The inner loop copies the first label if there is room. -/
theorem dnsLabel_eq : ∀ {s : List UInt8} {n o : ℕ}, n ≤ 63 → o ≤ 500 → dnsLabel s n o =
    if n + (firstLabel s).length ≤ 63 ∧ o + (firstLabel s).length ≤ 500 then
      some (firstLabel s, s.dropWhile (· ≠ 46))
    else none := by
  intro s
  induction s with
  | nil =>
    intro n o hn ho
    exact (if_pos ⟨hn, ho⟩).symm
  | cons c s ih =>
    intro n o hn ho
    unfold dnsLabel
    by_cases hdot : c = 46
    · subst hdot
      rw [if_pos rfl, firstLabel, List.takeWhile_cons_of_neg (by simp),
        List.dropWhile_cons_of_neg (by simp)]
      exact (if_pos ⟨hn, ho⟩).symm
    · have hfirst : firstLabel (c :: s) = c :: firstLabel s := List.takeWhile_cons_of_pos (by simpa)
      rw [if_neg hdot, hfirst, List.dropWhile_cons_of_pos (by simpa), List.length_cons]
      by_cases hfull : n ≥ 63 ∨ o ≥ 500
      · rw [if_pos hfull, if_neg (by omega)]
      · rw [if_neg hfull, ih (by omega) (by omega)]
        by_cases hfits : n + 1 + (firstLabel s).length ≤ 63 ∧ o + 1 + (firstLabel s).length ≤ 500
        · rw [if_pos hfits, if_pos (by omega)]
          rfl
        · rw [if_neg hfits, if_neg (by omega)]
          rfl

/-- One turn of the outer loop. -/
theorem dnsName_succ {s : List UInt8} (hs : s ≠ []) (fuel o : ℕ) : dnsName (fuel + 1) s o =
    if o + 1 ≥ 500 then .error .idKept
    else if IsLabel (firstLabel s) ∧ o + 1 + (firstLabel s).length ≤ 500 then
      (dnsName fuel (afterLabel s) (o + 1 + (firstLabel s).length)).map (wireLabel (firstLabel s) ++ ·)
    else .error .idReset := by
  have hrest : (if (s.dropWhile (· ≠ 46)).head? = some 46 then (s.dropWhile (· ≠ 46)).drop 1
      else s.dropWhile (· ≠ 46)) = afterLabel s := by
    unfold afterLabel
    cases hdrop : s.dropWhile (· ≠ (46 : UInt8)) with
    | nil => rfl
    | cons c rest =>
      have hdot := List.head?_dropWhile_not (· ≠ (46 : UInt8)) s
      rw [hdrop] at hdot
      obtain rfl : c = 46 := by simpa using hdot
      rfl
  rw [dnsName]
  swap
  · exact hs
  by_cases hend : o + 1 ≥ 500
  · rw [if_pos hend, if_pos hend]
  rw [if_neg hend, if_neg hend, dnsLabel_eq (by omega) (by omega), Nat.zero_add]
  by_cases hfits : (firstLabel s).length ≤ 63 ∧ o + 1 + (firstLabel s).length ≤ 500
  · rw [if_pos hfits]
    simp only [hrest]
    by_cases hempty : firstLabel s = []
    · have hnot : ¬ (IsLabel (firstLabel s) ∧ o + 1 + (firstLabel s).length ≤ 500) := by
        rw [hempty]
        rintro ⟨⟨hpos, -⟩, -⟩
        exact absurd hpos (by decide)
      rw [if_pos hempty, if_neg hnot]
    · have hpos := List.length_pos_iff.mpr hempty
      have hlabel : IsLabel (firstLabel s) ∧ o + 1 + (firstLabel s).length ≤ 500 :=
        ⟨⟨hpos, hfits.1⟩, hfits.2⟩
      rw [if_neg hempty, if_pos hlabel]
      cases dnsName fuel (afterLabel s) (o + 1 + (firstLabel s).length) with
      | error e => rfl
      | ok more => rfl
  · have hnot : ¬ (IsLabel (firstLabel s) ∧ o + 1 + (firstLabel s).length ≤ 500) :=
      fun h => hfits ⟨h.1.2, h.2⟩
    rw [if_neg hfits, if_neg hnot]

/-- **Which names are encoded**, and how. -/
theorem dnsName_ok {name : List UInt8} : ∀ {fuel : ℕ} {s : List UInt8} {o : ℕ}, s.length ≤ fuel →
    o ≤ 500 → (dnsName fuel s o = .ok name ↔ (∀ l ∈ hostLabels s, IsLabel l) ∧
      o + (wireLabels (hostLabels s)).length ≤ 500 ∧ name = wireLabels (hostLabels s)) := by
  intro fuel
  induction fuel generalizing name with
  | zero =>
    intro s o hs ho
    obtain rfl := List.length_eq_zero_iff.mp (Nat.le_zero.mp hs)
    rw [hostLabels_nil]
    simp [dnsName, wireLabels, ho, eq_comm]
  | succ fuel ih =>
    intro s o hs ho
    by_cases hnil : s = []
    · subst hnil
      rw [hostLabels_nil]
      simp [dnsName, wireLabels, ho, eq_comm]
    have hafter := afterLabel_length hnil
    have hlen : (wireLabels (hostLabels s)).length =
        1 + (firstLabel s).length + (wireLabels (hostLabels (afterLabel s))).length := by
      rw [hostLabels_cons hnil, wireLabels_cons, wireLabel, List.length_append, List.length_cons]
      omega
    rw [dnsName_succ hnil, hlen]
    by_cases hend : o + 1 ≥ 500
    · rw [if_pos hend]
      constructor
      · intro h
        simp at h
      · rintro ⟨hlabels, hfits, -⟩
        have hfirst := hlabels (firstLabel s) (by rw [hostLabels_cons hnil]; exact List.mem_cons_self)
        have hpos := hfirst.1
        omega
    rw [if_neg hend]
    by_cases hlabel : IsLabel (firstLabel s) ∧ o + 1 + (firstLabel s).length ≤ 500
    · rw [if_pos hlabel]
      constructor
      · intro h
        cases hmore : dnsName fuel (afterLabel s) (o + 1 + (firstLabel s).length) with
        | error e =>
          rw [hmore] at h
          simp [Except.map] at h
        | ok more =>
          rw [hmore] at h
          obtain ⟨hlabels, hfits, rfl⟩ := (ih (by omega) hlabel.2).mp hmore
          refine ⟨?_, by omega, ?_⟩
          · rw [hostLabels_cons hnil]
            intro l hl
            obtain rfl | hmem := List.mem_cons.mp hl
            · exact hlabel.1
            · exact hlabels l hmem
          · rw [hostLabels_cons hnil, wireLabels_cons]
            exact (Except.ok.inj h).symm
      · rintro ⟨hlabels, hfits, rfl⟩
        rw [hostLabels_cons hnil] at hlabels
        have hmore := (ih (by omega) hlabel.2).mpr
          ⟨fun l hl => hlabels l (List.mem_cons_of_mem _ hl), by omega, rfl⟩
        rw [hmore, hostLabels_cons hnil, wireLabels_cons]
        rfl
    · rw [if_neg hlabel]
      constructor
      · intro h
        simp at h
      · rintro ⟨hlabels, hfits, -⟩
        have hfirst := hlabels (firstLabel s) (by rw [hostLabels_cons hnil]; exact List.mem_cons_self)
        exact absurd ⟨hfirst, by omega⟩ hlabel

/-- Labels with a dot behind each. -/
def dotted (labels : List (List UInt8)) : List UInt8 := labels.flatMap (· ++ [46])

theorem dotted_cons (l : List UInt8) (labels : List (List UInt8)) (rest : List UInt8) :
    dotted (l :: labels) ++ rest = l ++ 46 :: (dotted labels ++ rest) := by
  simp [dotted]

theorem firstLabel_append {l : List UInt8} (h : 46 ∉ l) (rest : List UInt8) :
    firstLabel (l ++ 46 :: rest) = l ∧ afterLabel (l ++ 46 :: rest) = rest := by
  have hall : ∀ c ∈ l, decide (c ≠ (46 : UInt8)) = true := by
    intro c hc
    refine decide_eq_true ?_
    rintro rfl
    exact h hc
  unfold firstLabel afterLabel
  rw [List.takeWhile_append_of_pos hall, List.dropWhile_append_of_pos hall]
  simp

/-- **For which names `dns_id` stays set**: those that go on behind labels that fill the buffer. -/
theorem dnsName_idKept : ∀ {fuel : ℕ} {s : List UInt8} {o : ℕ}, s.length ≤ fuel → o ≤ 500 →
    (dnsName fuel s o = .error .idKept ↔ ∃ labels rest, (∀ l ∈ labels, IsLabel l ∧ 46 ∉ l) ∧
      s = dotted labels ++ rest ∧ rest ≠ [] ∧ 499 ≤ o + (dotted labels).length ∧
        o + (dotted labels).length ≤ 500) := by
  intro fuel
  induction fuel with
  | zero =>
    intro s o hs ho
    obtain rfl := List.length_eq_zero_iff.mp (Nat.le_zero.mp hs)
    constructor
    · intro h
      simp [dnsName] at h
    · rintro ⟨labels, rest, -, hnil, hrest, -⟩
      exact absurd (List.append_eq_nil_iff.mp hnil.symm).2 hrest
  | succ fuel ih =>
    intro s o hs ho
    by_cases hnil : s = []
    · subst hnil
      constructor
      · intro h
        simp [dnsName] at h
      · rintro ⟨labels, rest, -, hnil, hrest, -⟩
        exact absurd (List.append_eq_nil_iff.mp hnil.symm).2 hrest
    have hafter := afterLabel_length hnil
    rw [dnsName_succ hnil]
    by_cases hend : o + 1 ≥ 500
    · rw [if_pos hend]
      refine ⟨fun _ => ⟨[], s, by simp, rfl, hnil, ?_, ?_⟩, fun _ => rfl⟩
      · show 499 ≤ o + 0
        omega
      · show o + 0 ≤ 500
        omega
    rw [if_neg hend]
    constructor
    · intro h
      split at h
      · rename_i hlabel
        have hmore : dnsName fuel (afterLabel s) (o + 1 + (firstLabel s).length) = .error .idKept := by
          cases hmore : dnsName fuel (afterLabel s) (o + 1 + (firstLabel s).length) with
          | error e =>
            rw [hmore] at h
            exact h
          | ok more =>
            rw [hmore] at h
            simp [Except.map] at h
        obtain ⟨labels, rest, hlabels, hs', hrest, hlow, hhigh⟩ := (ih (by omega) hlabel.2).mp hmore
        have hdot : s = firstLabel s ++ 46 :: afterLabel s := by
          obtain ⟨-, hend'⟩ | hsplit := firstLabel_cases s
          · rw [hend'] at hs'
            exact absurd (List.append_eq_nil_iff.mp hs'.symm).2 hrest
          · exact hsplit
        have hlen : (dotted (firstLabel s :: labels)).length =
            (firstLabel s).length + 1 + (dotted labels).length := by
          simp [dotted]
          omega
        refine ⟨firstLabel s :: labels, rest, ?_, ?_, hrest, by omega, by omega⟩
        · intro l hl
          obtain rfl | hmem := List.mem_cons.mp hl
          · exact ⟨hlabel.1, firstLabel_noDot s⟩
          · exact hlabels l hmem
        · rw [dotted_cons, ← hs']
          exact hdot
      · simp at h
    · rintro ⟨labels, rest, hlabels, rfl, hrest, hlow, hhigh⟩
      cases labels with
      | nil =>
        have hzero : (dotted []).length = 0 := rfl
        omega
      | cons l labels =>
        obtain ⟨hl, hnodot⟩ := hlabels l List.mem_cons_self
        have hlen : (dotted (l :: labels)).length = l.length + 1 + (dotted labels).length := by
          simp [dotted]
          omega
        rw [dotted_cons] at hs hafter ⊢
        obtain ⟨hfirst, hrest'⟩ := firstLabel_append hnodot (dotted labels ++ rest)
        rw [hrest'] at hafter
        have hmore := (@ih (dotted labels ++ rest) (o + 1 + l.length) (by omega) (by omega)).mpr
          ⟨labels, rest, fun l' hl' => hlabels l' (List.mem_cons_of_mem _ hl'), rfl, hrest, by omega,
            by omega⟩
        rw [hfirst, hrest', if_pos ⟨hl, by omega⟩, hmore]
        rfl

/-! ## The query -/

/-- The labels of the name at the start of `b`, of which there are fewer than `n`. -/
def readLabels : ℕ → List UInt8 → Option (List (List UInt8))
  | 0, _ => none
  | _ + 1, [] => none
  | n + 1, z :: b =>
    if z = 0 then some []
    else if 63 < z.toNat ∨ b.length < z.toNat then none
    else (readLabels n (b.drop z.toNat)).map (b.take z.toNat :: ·)

theorem readLabels_append (rest : List UInt8) : ∀ {labels : List (List UInt8)} {n : ℕ},
    labels.length < n → (∀ l ∈ labels, IsLabel l) →
      readLabels n (wireLabels labels ++ 0 :: rest) = some labels := by
  intro labels
  induction labels with
  | nil =>
    intro n hn _
    cases n with
    | zero => exact absurd hn (Nat.not_lt_zero _)
    | succ n => rfl
  | cons l labels ih =>
    intro n hn hlabels
    cases n with
    | zero => exact absurd hn (Nat.not_lt_zero _)
    | succ n =>
      have hl := hlabels l List.mem_cons_self
      have hlen := toNat_wireLabel hl
      obtain ⟨hpos, hmax⟩ := hl
      have hne : UInt8.ofNat l.length ≠ 0 := by
        intro h0
        rw [h0] at hlen
        simp at hlen
        omega
      have hfits : ¬ (63 < l.length ∨ (l ++ (wireLabels labels ++ 0 :: rest)).length < l.length) := by
        rw [List.length_append]
        omega
      have hrest := ih (Nat.lt_of_succ_lt_succ hn) fun l' hl' => hlabels l' (List.mem_cons_of_mem _ hl')
      rw [wireLabels_cons, wireLabel, List.append_assoc, List.cons_append, readLabels, hlen, if_neg hne,
        if_neg hfits, List.drop_left, List.take_left, hrest]
      rfl

/-- The host names that are refused before anything is sent. -/
def Refused (host : List UInt8) : Prop :=
  host = [] ∨ (∃ l ∈ hostLabels host, ¬ IsLabel l) ∨ 500 < 12 + (wireLabels (hostLabels host)).length

instance (host : List UInt8) : Decidable (Refused host) := inferInstanceAs (Decidable (_ ∨ _ ∨ _))

/-- The query for a host name: one question, of type A and class IN, for the name with the labels of
the host.  `dns_skip_name` finds the end of a name of at most 127 labels. -/
structure QueryFor (host : List UInt8) (dnsId : ℕ) (query : List UInt8) : Prop where
  length_le : query.length ≤ 512
  header : query.take 12 = put16 dnsId ++ [1, 0, 0, 1, 0, 0, 0, 0, 0, 0]
  labels : readLabels query.length (query.drop 12) = some (hostLabels host)
  fixed : query.drop (12 + (wireLabels (hostLabels host)).length + 1) = [0, 1, 0, 1]
  skip : (hostLabels host).length ≤ 127 → ∀ mem d, span mem d query.length = query →
    (dnsSkipName mem d query.length 12).value = 12 + (wireLabels (hostLabels host)).length + 1

theorem wireLabels_length (labels : List (List UInt8)) :
    labels.length ≤ (wireLabels labels).length := by
  induction labels with
  | nil => exact Nat.le_refl _
  | cons l labels ih =>
    rw [wireLabels_cons, wireLabel, List.length_append, List.length_cons, List.length_cons]
    omega

theorem queryFor {host : List UInt8} (h : ¬ Refused host) (dnsId : ℕ) :
    QueryFor host dnsId (dnsQuery dnsId (wireLabels (hostLabels host))) := by
  have hlabels : ∀ l ∈ hostLabels host, IsLabel l := by
    intro l hl
    by_contra hbad
    exact h (.inr (.inl ⟨l, hl, hbad⟩))
  have hfits : 12 + (wireLabels (hostLabels host)).length ≤ 500 := by
    by_contra hbig
    exact h (.inr (.inr (by omega)))
  have hcount := wireLabels_length (hostLabels host)
  have hsplit : dnsQuery dnsId (wireLabels (hostLabels host)) =
      (put16 dnsId ++ [1, 0, 0, 1, 0, 0, 0, 0, 0, 0]) ++
        (wireLabels (hostLabels host) ++ [0] ++ [0, 1, 0, 1]) := by
    simp [dnsQuery, put16]
  have hheader : (put16 dnsId ++ [1, 0, 0, 1, 0, 0, 0, 0, 0, 0] : List UInt8).length = 12 := rfl
  have hlen : (dnsQuery dnsId (wireLabels (hostLabels host))).length =
      12 + (wireLabels (hostLabels host)).length + 1 + 4 := by
    rw [hsplit]
    simp only [List.length_append, hheader, List.length_cons, List.length_nil]
    omega
  have hbody : (dnsQuery dnsId (wireLabels (hostLabels host))).drop 12 =
      wireLabels (hostLabels host) ++ [0] ++ [0, 1, 0, 1] := by
    rw [hsplit, List.drop_left' hheader]
  have hfixed : (dnsQuery dnsId (wireLabels (hostLabels host))).drop
      (12 + (wireLabels (hostLabels host)).length + 1) = [0, 1, 0, 1] := by
    rw [Nat.add_assoc, ← List.drop_drop, hbody]
    exact List.drop_left' (by rw [List.length_append]; rfl)
  refine ⟨by omega, ?_, ?_, hfixed, ?_⟩
  · rw [hsplit, List.take_left' hheader]
  · rw [hbody, List.append_assoc]
    exact readLabels_append _ (by omega) hlabels
  · intro hmany mem d hspan
    have hskip := @skipLabels_append [0] (.inl rfl) [0, 1, 0, 1] (hostLabels host) 127 hmany hlabels
    have hrest : span mem (d + 12) ((dnsQuery dnsId (wireLabels (hostLabels host))).length - 12) =
        wireLabels (hostLabels host) ++ [0] ++ [0, 1, 0, 1] := by
      rw [← span_drop mem (by omega), hspan, hbody]
    have hvalue := @dnsSkipLabels_value mem d
      (dnsQuery dnsId (wireLabels (hostLabels host))).length 128 12 (by omega)
    rw [hrest, hskip] at hvalue
    obtain ⟨hnone, -⟩ | ⟨o, ho, hoffset, hsome⟩ := hvalue
    · simp at hnone
    · have hend := congrArg List.length (Option.some.inj hsome)
      rw [span_length] at hend
      simp only [List.length_cons, List.length_nil] at hend
      rw [dnsSkipName, hoffset]
      omega

/-! ## The lookup -/

section

variable (w : World)

/-- The time and the state in which the loop of `dns_lookup` starts. -/
def dnsStart (s : State) : ℕ × State :=
  let (ticks, s) := timerTicks w s
  let s := { s with dnsId := u16 (0x4000 + ticks % 2 ^ 14) }
  let (ticks, s) := timerTicks w { s with dnsDone := 0 }
  nowMs w { s with dnsPort := u16 (50000 + ticks % 1000) }

/-- What a turn of the loop does after `send_udp`. -/
def dnsWait (pollFuel : ℕ) (query : List UInt8) (st fuel last : ℕ) (s : State) :
    Option (Option (List UInt8) × State) := do
  let s ← netPoll w pollFuel s
  if s.dnsDone > 0 then some (some s.dnsAnswer, s)
  else if s.dnsDone < 0 then some (none, s)
  else dnsLoop w pollFuel query st fuel last s

/-- The end of `dns_lookup`. -/
def dnsClose (r : Option (List UInt8) × State) : Option (List UInt8) × State :=
  (r.1, { r.2 with dnsId := 0, dnsPort := 0 })

variable {w : World}

theorem dnsName_refused {host : List UInt8} (hne : host ≠ []) (h : Refused host) :
    ∃ e, dnsName host.length host 12 = .error e := by
  cases hname : dnsName host.length host 12 with
  | error e => exact ⟨e, rfl⟩
  | ok name =>
    obtain ⟨hlabels, hfits, -⟩ := (dnsName_ok (Nat.le_refl _) (by decide)).mp hname
    obtain hempty | ⟨l, hl, hbad⟩ | hbig := h
    · exact absurd hempty hne
    · exact absurd (hlabels l hl) hbad
    · omega

theorem dnsName_accepted {host : List UInt8} (h : ¬ Refused host) :
    host ≠ [] ∧ dnsName host.length host 12 = .ok (wireLabels (hostLabels host)) := by
  refine ⟨fun hempty => h (.inl hempty), (dnsName_ok (Nat.le_refl _) (by decide)).mpr ⟨?_, ?_, rfl⟩⟩
  · intro l hl
    by_contra hbad
    exact h (.inr (.inl ⟨l, hl, hbad⟩))
  · by_contra hbig
    exact h (.inr (.inr (by omega)))

/-- A name that is encoded is looked up with its query. -/
theorem dnsLookup_ok {host name : List UInt8} (hlit : parseIpv4 host = none) (hne : host ≠ [])
    (hname : dnsName host.length host 12 = .ok name) (fuel : ℕ) (s : State) :
    dnsLookup w fuel host s = (dnsLoop w fuel (dnsQuery (dnsStart w s).2.dnsId name) (dnsStart w s).1
      fuel 0xffffffff (dnsStart w s).2).map dnsClose := by
  unfold dnsLookup dnsStart
  simp only [hlit, if_neg hne, hname]
  exact (Option.map_eq_bind).symm

/-- **DNS queries encode the host exactly.**  A host that is refused is refused before anything is
sent.  For any other host the query is built, and the first turn of the loop hands it to `send_udp`
unless 4000 ms are over at once. -/
theorem dns_query_encoded {host : List UInt8} (hlit : parseIpv4 host = none) (w : World) (fuel : ℕ)
    (s : State) :
    (Refused host → ∃ t, dnsLookup w fuel host s = some (none, t) ∧ t.sent = s.sent ∧
      t.polls = s.polls) ∧
    (¬ Refused host → ∃ query, QueryFor host (dnsStart w s).2.dnsId query ∧
      let late := elapsed w (dnsStart w s).1 4000 (dnsStart w s).2
      let now := nowMs w late.2
      dnsLookup w (fuel + 1) host s =
        if late.1 then some (dnsClose (none, late.2))
        else (sendUdp w (netPoll w (fuel + 1)) (fuel + 1) now.2.dnsIp now.2.dnsPort 53 query now.2).bind
          fun u => (dnsWait w (fuel + 1) query (dnsStart w s).1 fuel now.1 u).map dnsClose) := by
  constructor
  · intro hrefused
    unfold dnsLookup
    rw [hlit]
    by_cases hempty : host = []
    · exact ⟨s, if_pos hempty, rfl, rfl⟩
    · obtain ⟨e, he⟩ := dnsName_refused hempty hrefused
      simp only [if_neg hempty, he]
      cases e with
      | idKept => exact ⟨_, rfl, rfl, rfl⟩
      | idReset => exact ⟨_, rfl, rfl, rfl⟩
  · intro haccepted
    obtain ⟨hne, hname⟩ := dnsName_accepted haccepted
    refine ⟨_, queryFor haccepted _, ?_⟩
    rw [dnsLookup_ok hlit hne hname]
    generalize dnsStart w s = start
    obtain ⟨st, u⟩ := start
    rw [dnsLoop]
    simp only
    generalize elapsed w st 4000 u = late
    obtain ⟨over', v⟩ := late
    simp only
    cases over' with
    | true => rfl
    | false =>
      generalize nowMs w v = now
      obtain ⟨now, u'⟩ := now
      simp only [Bool.false_eq_true, if_false, true_or, decide_true, if_true]
      rw [Option.bind_eq_bind, Option.map_bind]
      rfl

theorem dns_query_encoded_smoke :
    ∃ query, QueryFor [117, 112, 46, 110, 101, 116, 46] 0x4000 query := by
  obtain ⟨query, hquery, -⟩ := (@dns_query_encoded [117, 112, 46, 110, 101, 116, 46] (by decide)
    World.quiet 0 State.boot).2 (by decide)
  exact ⟨query, hquery⟩

/-- The clock is 4000 ms on when it is read for the second time. -/
def lateWorld : World := ⟨.x86_64, 1000, fun k => if k < 3 then 0 else 4000, fun _ => [], fun _ => true⟩

/-- The gateway's address is known, and the name server is behind the gateway. -/
def routedState : State :=
  { State.boot with ready := true, gatewayMacValid := true, dnsIp := [8, 8, 8, 8] }

/-- A lookup of `a` that sends nothing, although nothing is wrong with the name, and `send_udp` sends
at once. -/
theorem dns_query_late : ¬ (∀ (w : World) (fuel : ℕ) (host : List UInt8) (s t : State)
    (r : Option (List UInt8)), parseIpv4 host = none → ¬ Refused host → s.ready = true →
      s.gatewayMacValid = true → sameSubnet s s.dnsIp s.ipAddr = false →
        dnsLookup w fuel host s = some (r, t) → t.sent ≠ s.sent) := by
  intro hsends
  have hlookup : dnsLookup lateWorld 1 [97] routedState = some (none, { routedState with clock := 4 }) := by
    decide +kernel
  exact hsends lateWorld 1 [97] routedState _ none (by decide) (by decide) rfl rfl (by decide) hlookup rfl

end

end Orion.Net
