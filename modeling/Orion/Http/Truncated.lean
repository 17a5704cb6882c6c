import Orion.Http.Chunked
import Orion.Http.Get

/-!
# Chunked responses that are cut

`net_http_get` refuses a chunked response only if nothing was decoded from something.  So an encoding
without chunks is refused, and a cut is not noticed behind the data of a chunk, in a size line in which
only zeros have come, and before the first byte (`Overlooked`, `chunked_accepted_iff`).
-/

namespace Orion.Http

/-! ## Size lines that are not taken -/

/-- A size line with a blank before its extension, or with too large a size. -/
theorem SizeLine.refused {n : ℕ} {l : SizeLine n} (h : ¬ (l.Plain ∧ n ≤ 0x100000)) (rest : List UInt8) :
    Orion.Http.chunkSize (l.bytes ++ (crlf ++ rest)) = none := by
  by_cases hplain : l.Plain
  swap
  · have hline := l.oneLine_bytes.not_mem
    exact chunkSize_not_plain hline.2 hline.1 (fun hp => hplain (l.plainLine_iff.mp hp)) _
  have hlarge : 0x100000 < n := by
    by_contra hle
    exact h ⟨hplain, by omega⟩
  have htext : l.bytes ++ (crlf ++ rest) = l.digits ++ (l.ext ++ (crlf ++ rest)) :=
    List.append_assoc _ _ _
  have hhead : ∀ c ∈ (l.ext ++ (crlf ++ rest)).head?, hexDigit c = none := by
    intro c hc
    cases hext : l.ext with
    | nil =>
      rw [hext] at hc
      obtain rfl : cr = c := Option.some.inj hc
      decide
    | cons d ext =>
      refine l.ext_head c ?_
      rw [hext] at hc ⊢
      exact hc
  unfold Orion.Http.chunkSize
  cases hnum : takeNumber hexDigit 16 0x100000 (l.bytes ++ (crlf ++ rest)) 0 0 with
  | none => rfl
  | some vnr =>
    -- the numeral is read without the limit, so its value would be within it
    obtain ⟨v, k, r⟩ := vnr
    have hread := takeNumber_numeral (l.ext ++ (crlf ++ rest)) (by norm_num) l.numeral le_rfl hhead
    obtain ⟨-, -, -, -, -, -, hv⟩ := takeNumber_digits_of _ 0 0 hnum (Nat.zero_le _)
    have hlimit := takeNumber_limit (by norm_num) _ 0 0 hnum (hv.trans hlarge.le)
    rw [htext, hread] at hlimit
    have hvalue : n = v := (Prod.mk.inj (Option.some.inj hlimit)).1
    omega

/-! ## Cuts in a size line -/

/-- What has come of a size line: zeros, and perhaps a part of an extension and the carriage return. -/
def ZeroSoFar (z : List UInt8) : Prop :=
  ∃ zeros ext e, z = zeros ++ (ext ++ e) ∧ zeros ≠ [] ∧ (∀ c ∈ zeros, c = 48) ∧
    (∀ c ∈ ext.head?, c = 59) ∧ OneLine ext ∧ (e = [] ∨ e = [cr])

theorem ZeroSoFar.ne_nil {z : List UInt8} (h : ZeroSoFar z) : z ≠ [] := by
  obtain ⟨zeros, ext, e, rfl, hzeros, -⟩ := h
  exact fun hnil => hzeros (List.append_eq_nil_iff.mp hnil).1

theorem numeral_zeros {zeros : List UInt8} (hne : zeros ≠ []) (h : ∀ c ∈ zeros, c = 48) :
    IsNumeral hexDigit 16 zeros 0 := by
  have hrep : zeros = List.replicate zeros.length 48 := List.eq_replicate_iff.mpr ⟨rfl, h⟩
  refine ⟨hne, List.replicate zeros.length 0, ?_, ?_⟩
  · rw [hrep, List.map_replicate, List.map_replicate, List.length_replicate]
    rfl
  · rw [List.reverse_replicate]
    induction zeros.length with
    | zero => rfl
    | succ k ih => rw [List.replicate_succ, Nat.ofDigits_cons, ih]

theorem zeros_of_numeral {text : List UInt8} (h : IsNumeral hexDigit 16 text 0) : ∀ c ∈ text, c = 48 := by
  obtain ⟨-, ds, hds, hvalue⟩ := h
  intro c hc
  have hmem : hexDigit c ∈ ds.map some := hds ▸ List.mem_map_of_mem hc
  obtain ⟨d, hd, hcd⟩ := List.mem_map.mp hmem
  have hzero : d = 0 := Nat.digits_zero_of_eq_zero (by norm_num) hvalue d (List.mem_reverse.mpr hd)
  rw [hzero] at hcd
  have hall : ∀ k < 256, hexDigit (UInt8.ofNat k) = some 0 → k = 48 := by
    decide +kernel
  have hk := hall c.toNat c.toNat_lt (by rw [UInt8.ofNat_toNat]; exact hcd.symm)
  rw [← UInt8.ofNat_toNat (x := c), hk]
  rfl

/-- The part of a size line that has come, and perhaps the carriage return. -/
def CutLine (z : List UInt8) : Prop := ∃ line e, z = line ++ e ∧ OneLine line ∧ (e = [] ∨ e = [cr])

/-- Nothing follows the line end in a cut line. -/
theorem CutLine.rest {z r : List UInt8} (h : CutLine z) (hr : r <:+ z)
    (hend : ∀ c ∈ r.head?, isLineEnd c = true) : r = [] ∨ r = [cr] := by
  obtain ⟨line, e, rfl, hline, he⟩ := h
  cases r with
  | nil => exact .inl rfl
  | cons c r =>
    have hc : isLineEnd c = true := hend c rfl
    obtain hin | hin := List.suffix_or_suffix_of_suffix hr (List.suffix_append line e)
    · obtain rfl | rfl := he
      · exact absurd (List.suffix_nil.mp hin) (by simp)
      · obtain heq | hnil := List.suffix_cons_iff.mp hin
        · exact .inr heq
        · exact .inl (List.suffix_nil.mp hnil)
    · -- a longer suffix starts inside the line
      obtain ⟨a, ha⟩ := hin
      obtain ⟨b, hb⟩ := hr
      rw [← ha, ← List.append_assoc] at hb
      have hline' : b ++ a = line := List.append_cancel_right hb
      cases a with
      | nil =>
        rw [List.nil_append] at ha
        obtain rfl | rfl := he
        · simp at ha
        · exact .inr ha.symm
      | cons d a =>
        obtain rfl : d = c := (List.cons.inj ha).1
        have hd := hline d (by rw [← hline']; simp)
        simp [isLineEnd, hd.1, hd.2] at hc

/-- What `decode_chunked` makes of the front of a text up to the line end. -/
theorem chunkSize_some {s rest : List UInt8} {size : ℕ} (h : chunkSize s = some (size, rest)) :
    ∃ text r, s = text ++ r ∧ IsNumeral hexDigit 16 text size ∧ (∀ c ∈ rest.head?, isLineEnd c = true) ∧
      ((r.head? = some 59 ∧ rest <:+ r) ∨ (r.head? ≠ some 59 ∧ rest = r)) := by
  unfold chunkSize at h
  cases hnum : takeNumber hexDigit 16 0x100000 s 0 0 with
  | none => simp [hnum] at h
  | some vnr =>
    obtain ⟨v, n, r⟩ := vnr
    have hskip : (r.head? = some 59 ∧
        (if r.head? = some 59 then r.dropWhile (! isLineEnd ·) else r) <:+ r) ∨
          (r.head? ≠ some 59 ∧ (if r.head? = some 59 then r.dropWhile (! isLineEnd ·) else r) = r) := by
      split
      · rename_i hsemi
        exact .inl ⟨hsemi, List.dropWhile_suffix _⟩
      · rename_i hsemi
        exact .inr ⟨hsemi, rfl⟩
    simp only [hnum] at h
    generalize (if r.head? = some 59 then r.dropWhile (! isLineEnd ·) else r) = r' at h hskip
    split at h
    · simp at h
    rename_i hok
    obtain ⟨hdigits, hend⟩ := not_or.mp hok
    obtain ⟨rfl, rfl⟩ := Prod.mk.inj (Option.some.inj h)
    obtain ⟨text, hs, htext, -⟩ := takeNumber_some hnum hdigits
    refine ⟨text, r, hs, htext, fun c hc => ?_, hskip⟩
    rw [Option.mem_def.mp hc] at hend
    simpa using hend

/-- **A size line of which only zeros have come is read as the last one.** -/
theorem ZeroSoFar.read {z : List UInt8} (h : ZeroSoFar z) : ∃ rest, chunkSize z = some (0, rest) := by
  obtain ⟨zeros, ext, e, rfl, hzeros, hall, hsemi, hline, he⟩ := h
  have hhead : ∀ c ∈ (ext ++ e).head?, hexDigit c = none := by
    intro c hc
    cases ext with
    | nil =>
      obtain rfl | rfl := he
      · simp at hc
      · obtain rfl : cr = c := Option.some.inj hc
        decide
    | cons d ext =>
      rw [hsemi c hc]
      decide
  have hread := takeNumber_numeral (ext ++ e) (by norm_num) (numeral_zeros hzeros hall)
    (Nat.zero_le 0x100000) hhead
  have hlen : zeros.length ≠ 0 := fun hz => hzeros (List.length_eq_zero_iff.mp hz)
  have hskip : (if (ext ++ e).head? = some 59 then (ext ++ e).dropWhile (! isLineEnd ·) else ext ++ e) =
      e := by
    have hkeep : e.dropWhile (! isLineEnd ·) = e := by
      obtain rfl | rfl := he <;> rfl
    have hdrop : ∀ c ∈ ext, (! isLineEnd c) = true := by
      intro c hc
      simp [isLineEnd, (hline c hc).1, (hline c hc).2]
    split
    · rw [List.dropWhile_append_of_pos hdrop, hkeep]
    · rename_i hnot
      cases ext with
      | nil => rfl
      | cons d ext => exact absurd (congrArg some (hsemi d rfl)) hnot
  have hends : (e.head?.any fun c => ! isLineEnd c) = false := by
    obtain rfl | rfl := he <;> rfl
  refine ⟨e, ?_⟩
  unfold chunkSize
  simp only [hread, hskip, hlen, hends, false_or, Bool.false_eq_true, if_false]

/-- **A size line that is cut** has nothing behind it, and its size is zero only if only zeros have
come. -/
theorem CutLine.read {z rest : List UInt8} {size : ℕ} (h : CutLine z)
    (hread : chunkSize z = some (size, rest)) : skipLineEnd rest = [] ∧ (size = 0 → ZeroSoFar z) := by
  obtain ⟨text, r, hz, hnumeral, hend, hrest⟩ := chunkSize_some hread
  have hsuffix : r <:+ z := ⟨text, hz.symm⟩
  have hshort : rest = [] ∨ rest = [cr] := by
    refine h.rest ?_ hend
    obtain ⟨-, hin⟩ | ⟨-, rfl⟩ := hrest
    · exact hin.trans hsuffix
    · exact hsuffix
  constructor
  · obtain rfl | rfl := hshort <;> rfl
  rintro rfl
  have hzeros := zeros_of_numeral hnumeral
  obtain ⟨hsemi, -⟩ | ⟨-, rfl⟩ := hrest
  · -- the extension is what the line has behind the zeros
    obtain ⟨line, e, hle, hline, he⟩ := h
    rw [hle] at hz
    obtain ⟨a, htext, hr⟩ | ⟨a, hline', hr⟩ := List.append_eq_append_iff.mp hz
    · exfalso
      have hmem : (59 : UInt8) ∈ e := by
        rw [hr]
        exact List.mem_append_right a (List.mem_of_head? hsemi)
      obtain rfl | rfl := he
      · simp at hmem
      · exact absurd (List.mem_singleton.mp hmem) (by decide)
    · refine ⟨text, a, e, by rw [hle, hline', List.append_assoc], hnumeral.1, hzeros, ?_, ?_, he⟩
      · intro c hc
        cases a with
        | nil => simp at hc
        | cons d a =>
          rw [hr] at hsemi
          exact (Option.some.inj hc).symm.trans (Option.some.inj hsemi)
      · exact fun c hc => hline c (by rw [hline']; exact List.mem_append_right text hc)
  · exact ⟨text, [], rest, hz, hnumeral.1, hzeros, by simp, by simp [OneLine], hshort⟩

section

variable {cap fuel : ℕ} {out : List UInt8}

theorem decodeLoop_nil : decodeLoop cap fuel [] out = out := by
  cases fuel with
  | zero => rfl
  | succ fuel => rw [decodeLoop, if_pos rfl]

theorem decodeLoop_zero {z : List UInt8} (h : ZeroSoFar z) : decodeLoop cap fuel z out = out := by
  cases fuel with
  | zero => rfl
  | succ fuel =>
    obtain ⟨rest, hread⟩ := h.read
    rw [decodeLoop, if_neg h.ne_nil, hread]
    exact if_pos rfl

theorem decodeLoop_cutLine {z : List UInt8} (h : CutLine z) (hne : z ≠ []) (hzero : ¬ ZeroSoFar z) :
    decodeLoop cap (fuel + 1) z out = [] := by
  rw [decodeLoop, if_neg hne]
  cases hread : chunkSize z with
  | none => rfl
  | some sr =>
    obtain ⟨size, rest⟩ := sr
    obtain ⟨hnil, hsize⟩ := h.read hread
    have hpos : ¬ size = 0 := fun hz => hzero (hsize hz)
    have hshort : size > ([] : List UInt8).length := Nat.pos_of_ne_zero hpos
    simp only [hnil]
    rw [if_neg hpos, if_pos hshort]

/-! ## Chunks -/

/-- A chunk whose size line is taken. -/
theorem decodeLoop_chunk {c : Chunk} (hc : c.Decodable) (rest : List UInt8) :
    decodeLoop cap (fuel + 1) (c.size.bytes ++ (crlf ++ rest)) out =
      if c.data.length > rest.length then []
      else decodeLoop cap fuel (skipLineEnd (rest.drop c.data.length))
        (out ++ (rest.take c.data.length).take (cap - 1 - out.length)) := by
  have hdata : ¬ c.data.length = 0 := fun hz => c.nonempty (List.length_eq_zero_iff.mp hz)
  rw [decodeLoop, if_neg (c.size.ne_nil _), SizeLine.read hc.1 hc.2]
  simp only [skipLineEnd_crlf]
  exact if_neg hdata

theorem decodeLoop_refused {n : ℕ} {l : SizeLine n} (h : ¬ (l.Plain ∧ n ≤ 0x100000))
    (rest : List UInt8) : decodeLoop cap (fuel + 1) (l.bytes ++ (crlf ++ rest)) out = [] := by
  rw [decodeLoop, if_neg (l.ne_nil _), SizeLine.refused h]

theorem Chunk.bytes_append (c : Chunk) (s : List UInt8) :
    c.bytes ++ s = c.size.bytes ++ (crlf ++ (c.data ++ (crlf ++ s))) := by
  simp only [Chunk.bytes, List.append_assoc]

theorem fuel_pos {n : ℕ} {l : SizeLine n} {rest : List UInt8} (h : (l.bytes ++ rest).length ≤ fuel) :
    ∃ k, fuel = k + 1 :=
  Nat.exists_eq_add_one.mpr ((List.length_pos_iff.mpr (l.ne_nil rest)).trans_le h)

end

/-- **The chunks in front** are decoded if all of them are taken. -/
theorem decodeLoop_done {cap : ℕ} {s : List UInt8} : ∀ {done : List Chunk} {fuel : ℕ} {out : List UInt8},
    (∀ c ∈ done, c.Decodable) → (done.flatMap Chunk.bytes ++ s).length ≤ fuel →
      ∃ fuel', s.length ≤ fuel' ∧ decodeLoop cap fuel (done.flatMap Chunk.bytes ++ s) out =
        decodeLoop cap fuel' s (out ++ (payload done).take (cap - 1 - out.length)) := by
  intro done
  induction done with
  | nil =>
    intro fuel out _ hfuel
    exact ⟨fuel, hfuel, by simp [payload]⟩
  | cons c done ih =>
    intro fuel out hdone hfuel
    obtain ⟨hc, hrest⟩ := List.forall_mem_cons.mp hdone
    rw [List.flatMap_cons, List.append_assoc, c.bytes_append] at hfuel ⊢
    obtain ⟨fuel, rfl⟩ := fuel_pos hfuel
    rw [decodeLoop_chunk hc, if_neg (by simp), List.drop_left, List.take_left, skipLineEnd_crlf]
    have hcrlf : crlf.length = 2 := rfl
    simp only [List.length_append] at hfuel
    obtain ⟨fuel', hfuel', heq⟩ := @ih fuel (out ++ c.data.take (cap - 1 - out.length)) hrest
      (by rw [List.length_append]; omega)
    refine ⟨fuel', hfuel', ?_⟩
    have hroom : cap - 1 - (out ++ c.data.take (cap - 1 - out.length)).length =
        cap - 1 - out.length - c.data.length := by
      rw [List.length_append, List.length_take]
      omega
    rw [heq, hroom, payload, payload, List.flatMap_cons, List.take_append, List.append_assoc]

theorem decodeLoop_undone {cap : ℕ} {s : List UInt8} {done : List Chunk} {fuel : ℕ} {out : List UInt8}
    (hdone : ¬ ∀ c ∈ done, c.Decodable) (hfuel : (done.flatMap Chunk.bytes ++ s).length ≤ fuel) :
    decodeLoop cap fuel (done.flatMap Chunk.bytes ++ s) out = [] := by
  induction done generalizing fuel out with
  | nil => exact absurd (by simp) hdone
  | cons c done ih =>
    rw [List.flatMap_cons, List.append_assoc, c.bytes_append] at hfuel ⊢
    obtain ⟨fuel, rfl⟩ := fuel_pos hfuel
    by_cases hc : c.Decodable
    · have hrest : ¬ ∀ c ∈ done, c.Decodable :=
        fun hall => hdone (List.forall_mem_cons.mpr ⟨hc, hall⟩)
      have hcrlf : crlf.length = 2 := rfl
      simp only [List.length_append] at hfuel
      rw [decodeLoop_chunk hc, if_neg (by simp), List.drop_left, skipLineEnd_crlf]
      exact ih hrest (by rw [List.length_append]; omega)
    · exact decodeLoop_refused hc _

theorem payload_take_ne_nil {done : List Chunk} (h : done ≠ []) {k : ℕ} (hk : 0 < k) :
    (payload done).take k ≠ [] := by
  cases done with
  | nil => exact absurd rfl h
  | cons c done =>
    intro hnil
    obtain hzero | hempty := List.take_eq_nil_iff.mp hnil
    · omega
    · rw [payload, List.flatMap_cons] at hempty
      exact c.nonempty (List.append_eq_nil_iff.mp hempty).1

/-! ## Complete encodings -/

/-- **An encoding gives something** exactly if it has chunks and each size line is taken. -/
theorem decodeChunked_encoded {cap : ℕ} (hcap : 2 ≤ cap) (chunks : List Chunk) (last : SizeLine 0)
    (trailer : List UInt8) : decodeChunked (encoded chunks last trailer) cap ≠ [] ↔
      chunks ≠ [] ∧ (∀ c ∈ chunks, c.Decodable) ∧ last.Plain := by
  rw [decodeChunked, if_neg (by omega), encoded]
  by_cases hchunks : ∀ c ∈ chunks, c.Decodable
  swap
  · rw [decodeLoop_undone hchunks le_rfl]
    exact ⟨fun h => absurd rfl h, fun h => absurd h.2.1 hchunks⟩
  obtain ⟨fuel, hfuel, heq⟩ := @decodeLoop_done cap (last.bytes ++ (crlf ++ trailer)) chunks _ []
    hchunks le_rfl
  obtain ⟨fuel, rfl⟩ := fuel_pos hfuel
  rw [heq]
  by_cases hlast : last.Plain
  · have hzero : decodeLoop cap (fuel + 1) (last.bytes ++ (crlf ++ trailer))
        ([] ++ (payload chunks).take (cap - 1 - ([] : List UInt8).length)) =
          (payload chunks).take (cap - 1) := by
      rw [decodeLoop, if_neg (last.ne_nil _), SizeLine.read hlast (by decide)]
      exact if_pos rfl
    rw [hzero]
    constructor
    · refine fun h => ⟨?_, hchunks, hlast⟩
      rintro rfl
      exact h List.take_nil
    · exact fun h => payload_take_ne_nil h.1 (by omega)
  · rw [decodeLoop_refused fun h => hlast h.1]
    exact ⟨fun h => absurd rfl h, fun h => absurd h.2.2 hlast⟩

/-! ## Cut encodings -/

theorem cutLine_of_start {n : ℕ} {l : SizeLine n} {z : List UInt8} (h : z <+: l.bytes ++ crlf)
    (hne : z ≠ l.bytes ++ crlf) : CutLine z := by
  have htext : l.bytes ++ crlf = (l.bytes ++ [cr]) ++ [lf] := by simp [crlf]
  rw [htext] at h hne
  have hcut : z <+: l.bytes ++ [cr] := (List.prefix_concat_iff.mp h).resolve_left hne
  obtain heq | hline := List.prefix_concat_iff.mp hcut
  · exact ⟨l.bytes, [cr], heq, l.oneLine_bytes, .inr rfl⟩
  · exact ⟨z, [], (List.append_nil z).symm, fun c hc => l.oneLine_bytes c (hline.subset hc), .inl rfl⟩

/-- In a cut size line the output stays only if nothing or only zeros have come. -/
theorem decodeLoop_cut {cap fuel : ℕ} {z out : List UInt8} (h : CutLine z) (hfuel : z.length ≤ fuel)
    (hout : decodeLoop cap fuel z out ≠ []) : out ≠ [] ∧ (z = [] ∨ ZeroSoFar z) := by
  by_cases hnil : z = []
  · rw [hnil, decodeLoop_nil] at hout
    exact ⟨hout, .inl hnil⟩
  by_cases hzero : ZeroSoFar z
  · rw [decodeLoop_zero hzero] at hout
    exact ⟨hout, .inr hzero⟩
  · obtain ⟨fuel, rfl⟩ := Nat.exists_eq_add_one.mpr ((List.length_pos_iff.mpr hnil).trans_le hfuel)
    exact absurd (decodeLoop_cutLine h hnil hzero) hout

/-- A prefix of an encoding ends in a chunk or behind the chunks. -/
theorem prefix_chunks {tail : List UInt8} : ∀ {chunks : List Chunk} {p : List UInt8},
    p <+: chunks.flatMap Chunk.bytes ++ tail →
      (∃ done c rest z, chunks = done ++ c :: rest ∧ p = done.flatMap Chunk.bytes ++ z ∧
        z <+: c.bytes ∧ z ≠ c.bytes) ∨ ∃ z, p = chunks.flatMap Chunk.bytes ++ z ∧ z <+: tail := by
  intro chunks
  induction chunks with
  | nil => exact fun {p} hp => .inr ⟨p, rfl, hp⟩
  | cons c chunks ih =>
    intro p hp
    rw [List.flatMap_cons, List.append_assoc] at hp
    obtain ⟨hcut, hne⟩ | ⟨q, rfl, hq⟩ := prefix_append_cases hp
    · exact .inl ⟨[], c, chunks, p, rfl, rfl, hcut, hne⟩
    · obtain ⟨done, d, rest, z, rfl, rfl, hz, hne⟩ | ⟨z, rfl, hz⟩ := ih hq
      · refine .inl ⟨c :: done, d, rest, z, rfl, ?_, hz, hne⟩
        rw [List.flatMap_cons, List.append_assoc]
      · refine .inr ⟨z, ?_, hz⟩
        rw [List.flatMap_cons, List.append_assoc]

/-- The received bytes end behind the data of one of the chunks, all of which are taken so far, or in a
size line in which only zeros have come. -/
def BehindChunk (chunks : List Chunk) (p : List UInt8) : Prop :=
  ∃ done, done ≠ [] ∧ done <+: chunks ∧ (∀ c ∈ done, c.Decodable) ∧
    ((∃ e, e <:+ crlf ∧ p ++ e = done.flatMap Chunk.bytes) ∨
      ∃ z, p = done.flatMap Chunk.bytes ++ z ∧ ZeroSoFar z)

/-- The end of the received bytes is not noticed. -/
def Overlooked (chunks : List Chunk) (p : List UInt8) : Prop := p = [] ∨ BehindChunk chunks p

theorem skipLineEnd_cut {r e : List UInt8} (h : r ++ e = crlf) : skipLineEnd r = [] := by
  rcases r with _ | ⟨a, _ | ⟨b, r⟩⟩
  · rfl
  · obtain ⟨rfl, -⟩ := List.cons.inj h
    rfl
  · obtain ⟨rfl, htail⟩ := List.cons.inj h
    obtain ⟨rfl, hnil⟩ := List.cons.inj htail
    rw [(List.append_eq_nil_iff.mp hnil).1]
    rfl

/-- Behind a chunk, something has been decoded. -/
theorem BehindChunk.decodes {cap : ℕ} (hcap : 2 ≤ cap) {chunks : List Chunk} {p : List UInt8}
    (h : BehindChunk chunks p) : decodeChunked p cap ≠ [] := by
  obtain ⟨done, hne, -, hdone, ⟨e, ⟨r, hr⟩, hp⟩ | ⟨z, rfl, hz⟩⟩ := h
  · -- the last chunk is there up to its line end
    obtain ⟨front, c, rfl⟩ : ∃ front c, done = front ++ [c] :=
      ⟨done.dropLast, done.getLast hne, (List.dropLast_append_getLast hne).symm⟩
    have hp' : p = front.flatMap Chunk.bytes ++ (c.size.bytes ++ (crlf ++ (c.data ++ r))) := by
      refine List.append_cancel_right (?_ : p ++ e = _)
      rw [hp, List.flatMap_append, List.flatMap_singleton, ← List.append_nil c.bytes, c.bytes_append,
        List.append_nil]
      simp only [List.append_assoc, hr]
    obtain ⟨hfront, hc⟩ := List.forall_mem_append.mp hdone
    have hc : c.Decodable := hc c (List.mem_singleton_self c)
    rw [decodeChunked, if_neg (by omega), hp']
    obtain ⟨fuel, hfuel, heq⟩ := @decodeLoop_done cap (c.size.bytes ++ (crlf ++ (c.data ++ r))) front _ []
      hfront le_rfl
    obtain ⟨fuel, rfl⟩ := fuel_pos hfuel
    rw [heq, decodeLoop_chunk hc, if_neg (by simp), List.drop_left, List.take_left, skipLineEnd_cut hr,
      decodeLoop_nil]
    intro hnil
    obtain ⟨hfirst, hlast⟩ := List.append_eq_nil_iff.mp hnil
    have hempty : front = [] := by
      by_contra hfront'
      exact payload_take_ne_nil hfront' (show 0 < cap - 1 - ([] : List UInt8).length by simp; omega) hfirst
    rw [hfirst, List.take_eq_nil_iff] at hlast
    obtain hroom | hdata := hlast
    · simp only [List.length_nil] at hroom
      omega
    · exact c.nonempty hdata
  · rw [decodeChunked, if_neg (by omega)]
    obtain ⟨fuel, -, heq⟩ := @decodeLoop_done cap z done _ [] hdone le_rfl
    rw [heq, decodeLoop_zero hz]
    exact payload_take_ne_nil hne (by simp; omega)

/-- **A cut is overlooked only behind a chunk.** -/
theorem behindChunk_of_decodes {cap : ℕ} (hcap : 2 ≤ cap) {chunks : List Chunk} {last : SizeLine 0}
    {p : List UInt8} (hp : p <+: chunks.flatMap Chunk.bytes ++ (last.bytes ++ crlf))
    (hne : p ≠ chunks.flatMap Chunk.bytes ++ (last.bytes ++ crlf)) (h : decodeChunked p cap ≠ []) :
    BehindChunk chunks p := by
  have hsplit : ∀ {done : List Chunk} {z : List UInt8}, p = done.flatMap Chunk.bytes ++ z →
      (∀ c ∈ done, c.Decodable) ∧ ∃ fuel, z.length ≤ fuel ∧
        decodeLoop cap fuel z ([] ++ (payload done).take (cap - 1 - ([] : List UInt8).length)) ≠ [] := by
    rintro done z rfl
    rw [decodeChunked, if_neg (by omega)] at h
    by_cases hdone : ∀ c ∈ done, c.Decodable
    · obtain ⟨fuel, hfuel, heq⟩ := @decodeLoop_done cap z done _ [] hdone le_rfl
      exact ⟨hdone, fuel, hfuel, by rw [← heq]; exact h⟩
    · exact absurd (decodeLoop_undone hdone le_rfl) h
  -- a cut in a size line
  have hline : ∀ {done : List Chunk} {z : List UInt8}, done <+: chunks →
      p = done.flatMap Chunk.bytes ++ z → CutLine z → BehindChunk chunks p := by
    intro done z hprefix heq hcut
    obtain ⟨hdone, fuel, hfuel, hout⟩ := hsplit heq
    obtain ⟨hsome, hz⟩ := decodeLoop_cut hcut hfuel hout
    have hne : done ≠ [] := by
      rintro rfl
      exact hsome List.take_nil
    obtain rfl | hz := hz
    · exact ⟨done, hne, hprefix, hdone, .inl ⟨[], List.nil_suffix, by rw [heq]; simp⟩⟩
    · exact ⟨done, hne, hprefix, hdone, .inr ⟨z, heq, hz⟩⟩
  obtain ⟨done, c, rest, z, rfl, heq, hz, hcut⟩ | ⟨z, heq, hz⟩ := prefix_chunks hp
  swap
  · exact hline (List.prefix_refl chunks) heq
      (cutLine_of_start hz fun hwhole => hne (by rw [heq, hwhole]))
  have hprefix : done <+: done ++ c :: rest := List.prefix_append done _
  have hbytes : c.bytes = (c.size.bytes ++ crlf) ++ (c.data ++ crlf) := rfl
  rw [hbytes] at hz hcut
  obtain ⟨hin, hinne⟩ | ⟨q, rfl, hq⟩ := prefix_append_cases hz
  · exact hline hprefix heq (cutLine_of_start hin hinne)
  obtain ⟨hdone, fuel, hfuel, hout⟩ := hsplit heq
  rw [List.append_assoc] at hfuel hout
  obtain ⟨fuel, rfl⟩ := fuel_pos hfuel
  by_cases hc : c.Decodable
  swap
  · exact absurd (decodeLoop_refused hc q) hout
  obtain ⟨hdata, hdatane⟩ | ⟨r, rfl, hr⟩ := prefix_append_cases hq
  · -- inside the data
    have hshort : c.data.length > q.length := by
      by_contra hlong
      exact hdatane (hdata.eq_of_length_le (by omega))
    rw [decodeLoop_chunk hc, if_pos hshort] at hout
    exact absurd rfl hout
  · obtain ⟨e, he⟩ := hr
    refine ⟨done ++ [c], by simp, ⟨rest, by simp⟩, ?_, .inl ⟨e, ⟨r, he⟩, ?_⟩⟩
    · exact List.forall_mem_append.mpr ⟨hdone, by simpa using hc⟩
    · rw [heq, List.flatMap_append, List.flatMap_singleton, hbytes, ← he]
      simp only [List.append_assoc]

/-! ## Responses -/

/-- The header has the field. -/
def CarriesChunked (head : List UInt8) : Prop :=
  ∃ a field b, head = a ++ (field ++ b) ∧ eqCi field (ascii "Transfer-Encoding: chunked") = true

theorem findSub_infix (a needle b : List UInt8) : (findSub needle (a ++ (needle ++ b))).isSome = true := by
  induction a with
  | nil =>
    rw [List.nil_append]
    cases hs : needle ++ b with
    | nil =>
      rw [(List.append_eq_nil_iff.mp hs).1]
      rfl
    | cons c s =>
      have hprefix : needle.isPrefixOf (c :: s) = true :=
        List.isPrefixOf_iff_prefix.mpr (hs ▸ List.prefix_append needle b)
      rw [findSub, if_pos hprefix]
      rfl
  | cons c a ih =>
    rw [List.cons_append, findSub]
    split
    · rfl
    · rw [Option.isSome_map]
      exact ih

theorem CarriesChunked.contains {head : List UInt8} (h : CarriesChunked head) :
    containsCi head (ascii "transfer-encoding: chunked") = true := by
  obtain ⟨a, field, b, rfl, hfield⟩ := h
  have hlower : field.map lowerAscii = (ascii "transfer-encoding: chunked").map lowerAscii := by
    rw [of_decide_eq_true hfield]
    decide +kernel
  have hneedle : decide (ascii "transfer-encoding: chunked" ≠ []) = true := by decide +kernel
  rw [containsCi, hneedle, Bool.true_and, List.map_append, List.map_append, hlower]
  exact findSub_infix _ _ _

theorem stripBom_of_head {s : List UInt8} (h : ∀ c ∈ s.head?, c ≠ 0xEF) : stripBom s = s := by
  cases s with
  | nil => rfl
  | cons c s =>
    have hc : c ≠ 0xEF := h c rfl
    have hother : [0xEF, 0xBB, 0xBF].isPrefixOf (c :: s) = false := by
      simp [List.isPrefixOf, Ne.symm hc]
    rw [stripBom, hother]
    rfl

theorem SizeLine.head_ne {n : ℕ} (l : SizeLine n) (rest : List UInt8) :
    ∀ c ∈ (l.bytes ++ rest).head?, c ≠ 0xEF := by
  rintro c hc rfl
  cases hd : l.digits with
  | nil => exact l.numeral.1 hd
  | cons d ds =>
    obtain ⟨v, hv⟩ := l.hex_of_mem (c := d) (by simp [hd])
    rw [SizeLine.bytes, hd] at hc
    obtain rfl : d = 0xEF := Option.some.inj hc
    exact absurd hv (by simp [show hexDigit 0xEF = none by decide])

/-- An encoding does not start with a byte-order mark. -/
theorem chunks_head_ne (chunks : List Chunk) (last : SizeLine 0) (rest : List UInt8) :
    ∀ c ∈ (chunks.flatMap Chunk.bytes ++ (last.bytes ++ rest)).head?, c ≠ 0xEF := by
  cases chunks with
  | nil => exact last.head_ne rest
  | cons c chunks =>
    rw [List.flatMap_cons, List.append_assoc, c.bytes_append]
    exact c.size.head_ne _

theorem prefix_head_ne {p s : List UInt8} (h : p <+: s) (hs : ∀ c ∈ s.head?, c ≠ 0xEF) :
    ∀ c ∈ p.head?, c ≠ 0xEF := by
  intro c hc
  obtain ⟨t, rfl⟩ := h
  cases p with
  | nil => simp at hc
  | cons d p => exact hs c hc

section

variable {current raw : List UInt8} {last : Bool} {cap : ℕ} {bd : Boundary}

/-- What the chunked branch makes of a body. -/
theorem httpResponse_chunked (hbd : headerBoundary raw = some bd)
    (hcode : redirectCode (httpStatusCode (raw.take bd.headEnd)) = false)
    (hfield : CarriesChunked (raw.take bd.headEnd))
    (hbom : ∀ c ∈ (raw.drop bd.bodyOff).head?, c ≠ 0xEF) :
    httpResponse current raw last cap =
      if decodeChunked (raw.drop bd.bodyOff) cap = [] ∧ raw.drop bd.bodyOff ≠ [] then
        .failed (ascii "Invalid chunked response")
      else .done (raw.takeWhile (! isLineEnd ·)) (decodeChunked (raw.drop bd.bodyOff) cap) := by
  have hextract : extractBody (raw.take bd.headEnd) (raw.drop bd.bodyOff) cap =
      if decodeChunked (raw.drop bd.bodyOff) cap = [] ∧ raw.drop bd.bodyOff ≠ [] then
        .error "Invalid chunked response"
      else .ok (decodeChunked (raw.drop bd.bodyOff) cap) := by
    rw [extractBody, hfield.contains, stripBom_of_head hbom]
    rfl
  rw [httpResponse_of_boundary hbd hcode, hextract]
  split <;> rfl

/-- The response is accepted. -/
def Accepted (current raw : List UInt8) (last : Bool) (cap : ℕ) : Prop :=
  ∃ status body, httpResponse current raw last cap = .done status body

/-- **When the chunked branch of `net_http_get` is right.**  A complete body is accepted exactly if it
has chunks and each of its size lines is taken, and a body that ends before the zero chunk is complete
is refused exactly if the cut is not overlooked. -/
theorem chunked_accepted_iff (current : List UInt8) (last : Bool) (hcap : 2 ≤ cap)
    (hbd : headerBoundary raw = some bd)
    (hcode : redirectCode (httpStatusCode (raw.take bd.headEnd)) = false)
    (hfield : CarriesChunked (raw.take bd.headEnd)) (chunks : List Chunk) (zero : SizeLine 0) :
    (∀ trailer, raw.drop bd.bodyOff = encoded chunks zero trailer →
      (Accepted current raw last cap ↔
        chunks ≠ [] ∧ (∀ c ∈ chunks, c.Decodable) ∧ zero.Plain)) ∧
    (raw.drop bd.bodyOff <+: chunks.flatMap Chunk.bytes ++ (zero.bytes ++ crlf) →
      raw.drop bd.bodyOff ≠ chunks.flatMap Chunk.bytes ++ (zero.bytes ++ crlf) →
        (httpResponse current raw last cap = .failed (ascii "Invalid chunked response") ↔
          ¬ Overlooked chunks (raw.drop bd.bodyOff))) := by
  constructor
  · intro trailer hbody
    have hbom : ∀ c ∈ (raw.drop bd.bodyOff).head?, c ≠ 0xEF := by
      rw [hbody]
      exact chunks_head_ne chunks zero _
    have hne : raw.drop bd.bodyOff ≠ [] := by
      rw [hbody]
      exact fun hnil => zero.ne_nil _ (List.append_eq_nil_iff.mp hnil).2
    rw [← decodeChunked_encoded hcap chunks zero trailer, ← hbody, Accepted,
      httpResponse_chunked hbd hcode hfield hbom]
    split
    · rename_i hrefused
      exact ⟨fun ⟨_, _, h⟩ => by simp at h, fun h => absurd hrefused.1 h⟩
    · rename_i htaken
      exact ⟨fun _ hnil => htaken ⟨hnil, hne⟩, fun _ => ⟨_, _, rfl⟩⟩
  · intro hprefix hcut
    rw [httpResponse_chunked hbd hcode hfield (prefix_head_ne hprefix (chunks_head_ne chunks zero crlf))]
    generalize raw.drop bd.bodyOff = p at hprefix hcut
    split
    · rename_i hrefused
      refine ⟨fun _ hover => ?_, fun _ => rfl⟩
      obtain hnil | hbehind := hover
      · exact hrefused.2 hnil
      · exact hbehind.decodes hcap hrefused.1
    · rename_i htaken
      refine ⟨fun h => by simp at h, fun hover => absurd ?_ hover⟩
      by_cases hnil : p = []
      · exact .inl hnil
      · exact .inr (behindChunk_of_decodes hcap hprefix hcut fun hempty => htaken ⟨hempty, hnil⟩)

end

/-- The header of the responses below. -/
def chunkedHead : List UInt8 := ascii "HTTP/1.1 200 OK\r\nTransfer-Encoding: chunked\r\n\r\n"

theorem chunkedHead_carries (body : List UInt8) : CarriesChunked ((chunkedHead ++ body).take 43) := by
  have hhead : (chunkedHead ++ body).take 43 =
      ascii "HTTP/1.1 200 OK\r\n" ++ (ascii "Transfer-Encoding: chunked" ++ []) := by
    rw [List.take_append_of_le_length (by decide +kernel)]
    decide +kernel
  exact ⟨_, _, _, hhead, by decide +kernel⟩

theorem chunked_accepted_smoke :
    Accepted [] (chunkedHead ++ encoded [crChunk] zeroLine crlf) false 4096 := by
  have hexact := chunked_accepted_iff [] false (by decide : 2 ≤ 4096)
    (by decide +kernel : headerBoundary (chunkedHead ++ encoded [crChunk] zeroLine crlf) = some ⟨43, 47⟩)
    (by decide +kernel) (chunkedHead_carries _) [crChunk] zeroLine
  refine (hexact.1 crlf (by decide +kernel)).mpr ⟨by simp, ?_, ?_⟩
  · simpa using crChunk_decodable
  · simp [SizeLine.Plain, zeroLine]

/-- A body without chunks, and a body that ends behind its first chunk. -/
theorem chunked_confused :
    (¬ ∀ {current raw : List UInt8} {last : Bool} {cap : ℕ} {bd : Boundary} {chunks : List Chunk}
      {zero : SizeLine 0} {trailer : List UInt8}, 2 ≤ cap → headerBoundary raw = some bd →
        redirectCode (httpStatusCode (raw.take bd.headEnd)) = false →
          CarriesChunked (raw.take bd.headEnd) → raw.drop bd.bodyOff = encoded chunks zero trailer →
            Accepted current raw last cap) ∧
    ¬ ∀ {current raw : List UInt8} {last : Bool} {cap : ℕ} {bd : Boundary} {chunks : List Chunk},
      2 ≤ cap → headerBoundary raw = some bd →
        redirectCode (httpStatusCode (raw.take bd.headEnd)) = false →
          CarriesChunked (raw.take bd.headEnd) → raw.drop bd.bodyOff <+: chunks.flatMap Chunk.bytes →
            httpResponse current raw last cap = .failed (ascii "Invalid chunked response") := by
  constructor
  · intro hworks
    have hrefused : httpResponse [] (chunkedHead ++ encoded [] zeroLine crlf) false 4096 =
        .failed (ascii "Invalid chunked response") := by
      decide +kernel
    obtain ⟨status, body, haccepted⟩ := @hworks [] (chunkedHead ++ encoded [] zeroLine crlf) false 4096
      ⟨43, 47⟩ [] zeroLine crlf (by decide) (by decide +kernel) (by decide +kernel)
      (chunkedHead_carries _) (by decide +kernel)
    rw [hrefused] at haccepted
    simp at haccepted
  · intro hworks
    have haccepted : httpResponse [] (chunkedHead ++ crChunk.bytes) false 4096 =
        .done (ascii "HTTP/1.1 200 OK") [cr, lf] := by
      decide +kernel
    have hbody : (chunkedHead ++ crChunk.bytes).drop 47 = [crChunk].flatMap Chunk.bytes := by
      decide +kernel
    have hrefused := @hworks [] (chunkedHead ++ crChunk.bytes) false 4096 ⟨43, 47⟩ [crChunk] (by decide)
      (by decide +kernel) (by decide +kernel) (chunkedHead_carries _) (hbody ▸ List.prefix_refl _)
    rw [haccepted] at hrefused
    simp at hrefused

end Orion.Http
