import Orion.Aster.Tokens
import Orion.Lib.Words

/-!
# The buffers of `decode`

`decodeTrace` is `decode` with the stores that it makes.  A turn of its loop may store a blank and a
character while its guard leaves room for one and the terminating zero, so that the zero comes behind the
buffer exactly when the decoded words, joined by blanks, have a blank at the place before the last of the
buffer (`decode_inside_iff`).
-/

namespace Orion.Aster

open Orion.Lib

/-! ## Stores -/

/-- The variable `o` of `decode` and the stores so far, each an index of `out` and a byte. -/
structure DecodeTrace where
  o : ℕ
  stores : List (ℕ × UInt8)

/-- `out[o++]=c;` -/
def DecodeTrace.put (t : DecodeTrace) (c : UInt8) : DecodeTrace := ⟨t.o + 1, t.stores ++ [(t.o, c)]⟩

def decodeTraceLoop (cap : ℕ) : ℕ → List UInt8 → Bool → DecodeTrace → DecodeTrace
  | 0, _, _, t => t
  | _ + 1, [], _, t => t
  | fuel + 1, c :: rest, ws, t =>
    if t.o + 1 < cap then
      let (c, rest) := nextChar c rest
      if sp c then decodeTraceLoop cap fuel rest true t
      else decodeTraceLoop cap fuel rest false ((if ws && t.o ≠ 0 then t.put 32 else t).put c)
    else t

/-- The returned length and all stores of `decode`. -/
def decodeTrace (cap : ℕ) (s : List UInt8) : DecodeTrace :=
  if cap = 0 then ⟨0, []⟩
  else
    let t := decodeTraceLoop cap s.length s false ⟨0, []⟩
    ⟨t.o, t.stores ++ [(t.o, 0)]⟩

/-- All stores are in a buffer of `cap` bytes, and the returned length is smaller. -/
def Inside (cap : ℕ) (t : DecodeTrace) : Prop := (∀ w ∈ t.stores, w.1 < cap) ∧ t.o < cap

/-- The characters `out` have been stored from the start of the buffer on. -/
structure Buffered (out : List UInt8) (t : DecodeTrace) : Prop where
  o : t.o = out.length
  stores : t.stores = out.zipIdx.map Prod.swap

theorem Buffered.put {out : List UInt8} {t : DecodeTrace} (h : Buffered out t) (c : UInt8) :
    Buffered (out ++ [c]) (t.put c) := by
  refine ⟨?_, ?_⟩
  · show t.o + 1 = (out ++ [c]).length
    rw [h.o, List.length_append, List.length_singleton]
  · show t.stores ++ [(t.o, c)] = _
    rw [h.stores, h.o, List.zipIdx_append, List.map_append, Nat.zero_add]
    rfl

theorem decodeTraceLoop_stored (cap fuel : ℕ) : ∀ (s : List UInt8) (ws : Bool) {out : List UInt8}
    {t : DecodeTrace}, Buffered out t →
      Buffered (decodeLoop cap fuel s ws out) (decodeTraceLoop cap fuel s ws t) := by
  induction fuel with
  | zero => exact fun _ _ _ _ h => h
  | succ fuel ih =>
    intro s ws out t h
    cases s with
    | nil => exact h
    | cons c rest =>
      have hempty : (t.o ≠ 0) ↔ out ≠ [] := by
        rw [h.o]
        exact List.length_eq_zero_iff.not
      rw [decodeLoop, decodeTraceLoop, h.o]
      split
      · simp only
        split
        · exact ih _ _ h
        · refine ih _ _ (Buffered.put ?_ _)
          rw [← h.o]
          by_cases hput : (ws && decide (out ≠ [])) = true
          · rw [if_pos hput, if_pos (by simpa [hempty] using hput)]
            exact h.put 32
          · rw [if_neg hput, if_neg (by simpa [hempty] using hput)]
            exact h
      · exact h

/-- **The stores of `decode`** are its characters, from the first byte of the buffer on, and a zero. -/
theorem decodeTrace_eq {cap : ℕ} (hcap : cap ≠ 0) (s : List UInt8) :
    decodeTrace cap s = ⟨(decode cap s).length, (decode cap s ++ [0]).zipIdx.map Prod.swap⟩ := by
  have hempty : Buffered [] ⟨0, []⟩ := ⟨rfl, rfl⟩
  have h := decodeTraceLoop_stored cap s.length s false hempty
  rw [decodeTrace, if_neg hcap, decode, if_neg hcap]
  simp only
  rw [h.o, h.stores, List.zipIdx_append, List.map_append, Nat.zero_add]
  rfl

theorem inside_iff {cap : ℕ} (hcap : cap ≠ 0) (s : List UInt8) :
    Inside cap (decodeTrace cap s) ↔ (decode cap s).length < cap := by
  rw [decodeTrace_eq hcap]
  refine ⟨fun h => h.2, fun h => ⟨fun w hw => ?_, h⟩⟩
  obtain ⟨e, he, rfl⟩ := List.mem_map.mp hw
  have hlt := (List.mem_zipIdx' he).1
  rw [List.length_append, List.length_singleton] at hlt
  show e.2 < cap
  omega

/-! ## What is decoded -/

def charsLoop : ℕ → List UInt8 → List UInt8
  | 0, _ => []
  | _ + 1, [] => []
  | fuel + 1, c :: rest => (nextChar c rest).1 :: charsLoop fuel (nextChar c rest).2

/-- The characters of a text, with its entities decoded. -/
def chars (s : List UInt8) : List UInt8 := charsLoop s.length s

/-- The decoded words, joined by blanks. -/
def collapsed (s : List UInt8) : List UInt8 := [32].intercalate (words sp (chars s))

/-- What is to be stored for more characters, if `ws` says that blanks were skipped and `any` that there
are characters before. -/
def collapse : Bool → Bool → List UInt8 → List UInt8
  | _, _, [] => []
  | ws, any, c :: cs =>
    if sp c then collapse true any cs
    else (if ws && any then [32, c] else [c]) ++ collapse false true cs

theorem intercalate_cons_of_ne {α : Type*} (sep l : List α) {ls : List (List α)} (h : ls ≠ []) :
    sep.intercalate (l :: ls) = l ++ sep ++ sep.intercalate ls := by
  obtain ⟨l', ls, rfl⟩ := List.exists_cons_of_ne_nil h
  simp [List.intercalate]

/-- A character that is no blank begins the first word, or is it. -/
theorem words_cons {c : UInt8} (hc : sp c = false) (cs : List UInt8) :
    words sp (c :: cs) =
      if cs.head?.all sp then [c] :: words sp cs else (words sp cs).modifyHead (c :: ·) := by
  rw [words_eq hc, List.takeWhile_cons_of_pos (by rw [hc]; rfl), List.dropWhile_cons_of_pos (by rw [hc]; rfl)]
  cases cs with
  | nil => rfl
  | cons b cs =>
    cases hb : sp b with
    | true =>
      rw [List.head?_cons, Option.all_some, hb, if_pos rfl, List.takeWhile_cons_of_neg (by rw [hb]; simp),
        List.dropWhile_cons_of_neg (by rw [hb]; simp)]
    | false =>
      rw [List.head?_cons, Option.all_some, hb, if_neg Bool.false_ne_true, words_eq (p := sp) hb]
      rfl

theorem intercalate_words_cons {c : UInt8} (hc : sp c = false) (cs : List UInt8) :
    [32].intercalate (words sp (c :: cs)) =
      c :: if words sp cs = [] then []
        else (if cs.head?.any sp then [32] else []) ++ [32].intercalate (words sp cs) := by
  rw [words_cons hc]
  cases cs with
  | nil => rfl
  | cons b cs =>
    rw [List.head?_cons, Option.all_some, Option.any_some]
    cases hb : sp b with
    | true =>
      rw [if_pos rfl, if_pos rfl]
      by_cases hnone : words sp (b :: cs) = []
      · rw [hnone, if_pos rfl]
        rfl
      · rw [if_neg hnone, intercalate_cons_of_ne _ _ hnone]
        rfl
    | false =>
      rw [if_neg Bool.false_ne_true, if_neg Bool.false_ne_true, words_eq (p := sp) hb,
        if_neg (List.cons_ne_nil _ _)]
      generalize words sp _ = ws
      cases ws with
      | nil => simp
      | cons w ws => simp [intercalate_cons_of_ne]

/-- **Collapsing blanks joins the words.** -/
theorem collapse_eq (cs : List UInt8) : ∀ ws any : Bool,
    collapse ws any cs =
      if words sp cs = [] then []
      else (if any && (ws || cs.head?.any sp) then [32] else []) ++ [32].intercalate (words sp cs) := by
  induction cs with
  | nil => exact fun _ _ => rfl
  | cons c cs ih =>
    intro ws any
    rw [collapse]
    cases hc : sp c with
    | true =>
      rw [if_pos rfl, ih, words_cons_sep hc]
      simp [hc]
    | false =>
      have hne : words sp (c :: cs) ≠ [] := by
        rw [words_eq hc]
        exact List.cons_ne_nil _ _
      rw [if_neg Bool.false_ne_true, ih, if_neg hne, intercalate_words_cons hc, List.head?_cons,
        Option.any_some, hc, Bool.or_false, Bool.and_comm ws any]
      cases any && ws <;> rfl

theorem collapsed_eq (s : List UInt8) : collapsed s = collapse false false (chars s) := by
  rw [collapse_eq, collapsed]
  cases words sp (chars s) <;> rfl

/-! ## The end of the buffer -/

/-- What the loop stores into a buffer of `cap` bytes, if `all` is everything there is to store and `n`
characters are stored: all but one character short of the buffer, or as many as the buffer has if a blank
is due at the last place but one. -/
def Stops (cap : ℕ) (all result : List UInt8) (n : ℕ) : Prop :=
  if n + 2 ≤ cap ∧ all[cap - 2]? = some 32 then result.length = cap else result = all.take (cap - 1)

/-- The loop ends: there is nothing more to store, or no room for it. -/
theorem stops_end {cap : ℕ} {out more : List UInt8} (h : out.length < cap)
    (hend : more = [] ∨ out.length + 1 = cap) : Stops cap (out ++ more) out out.length := by
  unfold Stops
  rw [if_neg]
  · rcases hend with rfl | hfull
    · rw [List.append_nil, List.take_of_length_le (by omega)]
    · rw [show cap - 1 = out.length by omega, List.take_left]
  · rintro ⟨hroom, hblank⟩
    rcases hend with rfl | hfull
    · rw [List.append_nil, List.getElem?_eq_none (by omega)] at hblank
      cases hblank
    · omega

/-- One character more, which is no blank, with or without a blank before it. -/
theorem stops_put {cap : ℕ} {c : UInt8} (hc : sp c = false) {out gap more result : List UInt8}
    (hgap : gap = [] ∨ gap = [32]) (hroom : out.length + 1 < cap)
    (hfull : (out ++ (gap ++ [c])).length = cap → result = out ++ (gap ++ [c]))
    (hrest : (out ++ (gap ++ [c])).length < cap →
      Stops cap (out ++ (gap ++ [c]) ++ more) result (out ++ (gap ++ [c])).length) :
    Stops cap (out ++ ((gap ++ [c]) ++ more)) result out.length := by
  have hne : c ≠ 32 := by
    rintro rfl
    cases hc
  rw [← List.append_assoc]
  by_cases hlt : (out ++ (gap ++ [c])).length < cap
  · have h := hrest hlt
    unfold Stops at h ⊢
    by_cases hmore : (out ++ (gap ++ [c])).length + 2 ≤ cap
    · simpa only [hmore, true_and, show out.length + 2 ≤ cap from hroom] using h
    · -- the last place but one has just been taken
      have hlast : (out ++ (gap ++ [c]) ++ more)[cap - 2]? = some c := by
        rw [List.getElem?_append_left (by omega)]
        rw [← List.append_assoc] at hlt hmore ⊢
        rw [List.length_append, List.length_singleton] at hlt hmore
        rw [List.getElem?_append_right (by omega), show cap - 2 - (out ++ gap).length = 0 by omega]
        rfl
      rw [hlast] at h ⊢
      rw [if_neg fun h => hne (Option.some.inj h.2)] at h ⊢
      exact h
  · -- a blank and a character where one was left
    have hblank : gap = [32] := by
      rcases hgap with rfl | rfl
      · simp at hlt
        omega
      · rfl
    subst hblank
    have hlen : (out ++ ([32] ++ [c])).length = out.length + 2 := by simp
    have hcap : out.length + 2 = cap := by omega
    unfold Stops
    rw [if_pos]
    · rw [hfull (by omega)]
      omega
    · refine ⟨by omega, ?_⟩
      rw [← hcap, Nat.add_sub_cancel]
      simp

/-- **The loop near the end of the buffer.** -/
theorem decodeLoop_stops {cap : ℕ} (fuel : ℕ) : ∀ (s : List UInt8) (ws : Bool) {out : List UInt8},
    out.length < cap →
      Stops cap (out ++ collapse ws (out ≠ []) (charsLoop fuel s)) (decodeLoop cap fuel s ws out)
        out.length := by
  induction fuel with
  | zero => exact fun s ws out h => stops_end h (.inl rfl)
  | succ fuel ih =>
    intro s ws out h
    cases s with
    | nil => exact stops_end h (.inl rfl)
    | cons c rest =>
      rw [decodeLoop, charsLoop, collapse]
      by_cases hroom : out.length + 1 < cap
      · rw [if_pos hroom]
        simp only
        generalize (nextChar c rest).1 = c'
        generalize (nextChar c rest).2 = rest'
        cases hc : sp c' with
        | true => exact ih rest' true h
        | false =>
          rw [if_neg Bool.false_ne_true, if_neg Bool.false_ne_true]
          have hput : ∀ gap : List UInt8, (gap = [] ∨ gap = [32]) →
              Stops cap (out ++ ((gap ++ [c']) ++ collapse false true (charsLoop fuel rest')))
                (decodeLoop cap fuel rest' false (out ++ gap ++ [c'])) out.length := by
            intro gap hgap
            have hsome : decide (out ++ (gap ++ [c']) ≠ []) = true := by simp
            rw [List.append_assoc out]
            refine stops_put hc hgap hroom (fun hfull => ?_) fun hlt => ?_
            · cases fuel with
              | zero => rfl
              | succ fuel =>
                cases rest' with
                | nil => rfl
                | cons b rest'' => rw [decodeLoop, if_neg (by omega)]
            · have h := ih rest' false hlt
              rwa [hsome] at h
          by_cases hws : (ws && decide (out ≠ [])) = true
          · rw [if_pos hws, if_pos hws]
            exact hput [32] (.inr rfl)
          · have hplain := hput [] (.inl rfl)
            rw [List.append_nil] at hplain
            rw [if_neg hws, if_neg hws]
            exact hplain
      · rw [if_neg hroom]
        exact stops_end h (.inr (by omega))

theorem decode_stops {cap : ℕ} (hcap : cap ≠ 0) (s : List UInt8) :
    Stops cap (collapsed s) (decode cap s) 0 := by
  have hempty : ([] : List UInt8).length < cap := Nat.pos_of_ne_zero hcap
  have h := decodeLoop_stops s.length s false hempty
  rw [decode, if_neg hcap, collapsed_eq]
  exact h

/-- **Where `decode` stays inside its buffer.** -/
theorem decode_inside_iff {cap : ℕ} (hcap : cap ≠ 0) (s : List UInt8) :
    Inside cap (decodeTrace cap s) ↔ cap = 1 ∨ (collapsed s)[cap - 2]? ≠ some 32 := by
  have h := decode_stops hcap s
  unfold Stops at h
  rw [inside_iff hcap]
  by_cases hblank : 0 + 2 ≤ cap ∧ (collapsed s)[cap - 2]? = some 32
  · rw [if_pos hblank] at h
    simp only [h, hblank.2]
    simp
    omega
  · rw [if_neg hblank] at h
    refine iff_of_true ?_ ?_
    · rw [h, List.length_take]
      omega
    · by_cases hone : cap = 1
      · exact .inl hone
      · exact .inr fun hno => hblank ⟨by omega, hno⟩

/-! ## The buffers of a page -/

/-- The call of `decode` for the `alt` attribute of an element, into a buffer of 192 bytes. -/
def altCalls (a : List UInt8) : List (ℕ × List UInt8) :=
  match attr a (ascii "alt") with
  | none => []
  | some v => if v = [] then [] else [(192, v)]

/-- The calls of `decode` for a token: the size of the buffer and the text. -/
def decodeCalls : Token → List (ℕ × List UInt8)
  | .text raw => [(768, raw)]
  | .skip => []
  | .close _ => []
  | .element _ a _ => altCalls a
  | .style a _ => altCalls a
  | .script a => altCalls a

/-- The calls of `decode` while tokens are applied, until the nodes run out. -/
def callsAll : ParseState → List Token → List (ℕ × List UInt8)
  | _, [] => []
  | s, t :: ts =>
    if s.doc.nodes.length ≥ asterMaxNodes then [] else decodeCalls t ++ callsAll (applyToken s t) ts

/-- The calls of `decode` for a page. -/
def pageCalls (d : Document) (h : List UInt8) : List (ℕ × List UInt8) :=
  callsAll ⟨asterDocumentInit d, [0]⟩ (tokens (cstr h))

theorem mem_decodeCalls {t : Token} {call : ℕ × List UInt8} (h : call ∈ decodeCalls t) :
    call.1 = 768 ∨ call.1 = 192 := by
  have halt : ∀ a, call ∈ altCalls a → call.1 = 192 := by
    intro a ha
    unfold altCalls at ha
    split at ha
    · cases ha
    · split at ha
      · cases ha
      · rw [List.mem_singleton.mp ha]
  cases t with
  | text raw => exact .inl (by rw [List.mem_singleton.mp h])
  | skip => cases h
  | close t => cases h
  | element t a self => exact .inr (halt a h)
  | style a sheet => exact .inr (halt a h)
  | script a => exact .inr (halt a h)

theorem mem_callsAll (ts : List Token) : ∀ {s : ParseState} {call : ℕ × List UInt8},
    call ∈ callsAll s ts → call.1 = 768 ∨ call.1 = 192 := by
  induction ts with
  | nil =>
    intro s call h
    cases h
  | cons t ts ih =>
    intro s call h
    rw [callsAll] at h
    split at h
    · cases h
    · rcases List.mem_append.mp h with h | h
      · exact mem_decodeCalls h
      · exact ih h

/-- **Entity decoding stays inside its buffer** exactly if no blank is due at the place before the last;
and the buffers of a page are not overrun exactly if this holds of all its texts and `alt` attributes. -/
theorem aster_decode_inside (cap : ℕ) (s : List UInt8) (hcap : 1 ≤ cap) (d : Document) (h : List UInt8) :
    (Inside cap (decodeTrace cap s) ↔ cap = 1 ∨ (collapsed s)[cap - 2]? ≠ some 32) ∧
    ((∀ call ∈ pageCalls d h, Inside call.1 (decodeTrace call.1 call.2)) ↔
      ∀ call ∈ pageCalls d h, (collapsed call.2)[call.1 - 2]? ≠ some 32) := by
  refine ⟨decode_inside_iff (by omega) s, ?_⟩
  refine forall₂_congr fun call hcall => ?_
  have hsize := mem_callsAll _ hcall
  rw [decode_inside_iff (by omega), or_iff_right (by omega)]

/-- A text of 766 characters, a blank and one character more. -/
def overrunText : List UInt8 := List.replicate 766 120 ++ [32, 121]

theorem aster_decode_inside_overrunText :
    (Inside 192 (decodeTrace 192 overrunText) ↔ 192 = 1 ∨ (collapsed overrunText)[192 - 2]? ≠ some 32) ∧
    ((∀ call ∈ pageCalls .zero overrunText, Inside call.1 (decodeTrace call.1 call.2)) ↔
      ∀ call ∈ pageCalls .zero overrunText, (collapsed call.2)[call.1 - 2]? ≠ some 32) :=
  aster_decode_inside 192 overrunText (by decide) .zero overrunText

/-- The text buffer of the parser is overrun by the page that is this text. -/
theorem aster_decode_overrun : ¬ ((∀ (cap : ℕ) (s : List UInt8), 1 ≤ cap → Inside cap (decodeTrace cap s)) ∧
    ∀ (d : Document) (h : List UInt8), ∀ call ∈ pageCalls d h, Inside call.1 (decodeTrace call.1 call.2)) := by
  rintro ⟨-, hpages⟩
  have hcall : (768, overrunText) ∈ pageCalls .zero overrunText := by decide +kernel
  have hin := hpages .zero overrunText _ hcall
  have hout : (decodeTrace 768 overrunText).o = 768 := by decide +kernel
  exact absurd hin.2 (by rw [hout]; decide)

end Orion.Aster
