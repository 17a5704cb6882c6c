import Orion.Http.ChunkWalk
import Orion.Http.FrameExact

/-!
# Chunked decoding with its stores

`decode_chunked` returns a length and stores into the caller's buffer.  `decodeStores` is the function
with these stores, and `decodeChunked` says what they mean (`decodeStores_decodes`).  On an encoding of
chunks it stores exactly their data, cut to the buffer, and the NUL (`decode_chunked_inverts`).
-/

namespace Orion.Http

/-! ## The stores -/

/-- The return value, and the bytes that are stored with their indices in `out`, in order. -/
structure Decoding where
  ret : ℕ
  stores : List (UInt8 × ℕ)
  deriving Repr, DecidableEq

/-- The loop of `decode_chunked`; `o` bytes of the output have been stored. -/
def storeLoop (cap : ℕ) : ℕ → List UInt8 → ℕ → List (UInt8 × ℕ) → Decoding
  | 0, _, o, stores => ⟨o, stores ++ [(0, o)]⟩
  | fuel + 1, s, o, stores =>
    if s = [] then ⟨o, stores ++ [(0, o)]⟩
    else
      match chunkSize s with
      | none => ⟨0, stores⟩
      | some (size, s) =>
        let s := skipLineEnd s
        if size = 0 then ⟨o, stores ++ [(0, o)]⟩
        else if size > s.length then ⟨0, stores⟩
        else
          let copy := min size (cap - 1 - o)
          storeLoop cap fuel (skipLineEnd (s.drop size)) (o + copy) (stores ++ (s.take copy).zipIdx o)

/-- `decode_chunked`; without room for the NUL it does nothing. -/
def decodeStores (s : List UInt8) (cap : ℕ) : Decoding :=
  if cap = 0 then ⟨0, []⟩ else storeLoop cap s.length s 0 []

/-- The buffer after the stores. -/
def storeAll (out : ℕ → UInt8) (stores : List (UInt8 × ℕ)) : ℕ → UInt8 :=
  stores.foldl (fun out x => Function.update out x.2 x.1) out

theorem storeAll_zipIdx : ∀ (l : List UInt8) (out : ℕ → UInt8) (o i : ℕ),
    storeAll out (l.zipIdx o) (o + i) = l.getD i (out (o + i)) ∧
      ∀ j < o, storeAll out (l.zipIdx o) j = out j := by
  intro l
  induction l with
  | nil => exact fun out o i => ⟨rfl, fun _ _ => rfl⟩
  | cons c l ih =>
    intro out o i
    have hfirst : storeAll out ((c :: l).zipIdx o) =
        storeAll (Function.update out o c) (l.zipIdx (o + 1)) := rfl
    rw [hfirst]
    constructor
    · cases i with
      | zero =>
        show storeAll (Function.update out o c) (l.zipIdx (o + 1)) o = c
        rw [(ih (Function.update out o c) (o + 1) 0).2 o (Nat.lt_succ_self o), Function.update_self]
      | succ i =>
        rw [show o + (i + 1) = o + 1 + i from by omega, (ih (Function.update out o c) (o + 1) i).1,
          Function.update_of_ne (by omega), List.getD_cons_succ]
    · intro j hj
      rw [(ih (Function.update out o c) (o + 1) 0).2 j (by omega), Function.update_of_ne (by omega)]

/-- The bytes of `l` stand at the start of the buffer, and the rest of it is as before. -/
theorem storeAll_start (l : List UInt8) (out : ℕ → UInt8) (i : ℕ) :
    storeAll out l.zipIdx i = l.getD i (out i) := by
  have h := (storeAll_zipIdx l out 0 i).1
  rwa [Nat.zero_add] at h

theorem zipIdx_take_append (out data : List UInt8) (size room : ℕ) :
    out.zipIdx ++ (data.take (min size room)).zipIdx out.length =
      (out ++ (data.take size).take room).zipIdx := by
  rw [List.zipIdx_append, List.take_take, Nat.zero_add, Nat.min_comm]

/-- **The stores against the decoded text.**  The return value is its length, the stores are
consecutive and stay inside the buffer, and they begin with the text. -/
theorem storeLoop_decodes {cap : ℕ} (hcap : 1 ≤ cap) : ∀ (fuel : ℕ) (s out : List UInt8),
    out.length ≤ cap - 1 →
      (storeLoop cap fuel s out.length out.zipIdx).ret = (decodeLoop cap fuel s out).length ∧
        ∃ text, (storeLoop cap fuel s out.length out.zipIdx).stores = text.zipIdx ∧
          text.length ≤ cap ∧ decodeLoop cap fuel s out <+: text := by
  have hend : ∀ out : List UInt8, out.length ≤ cap - 1 →
      ∃ text : List UInt8, out.zipIdx ++ [(0, out.length)] = text.zipIdx ∧ text.length ≤ cap ∧
        out <+: text := by
    intro out hout
    refine ⟨out ++ [0], ?_, ?_, List.prefix_append out [0]⟩
    · rw [List.zipIdx_append, Nat.zero_add]
      rfl
    · rw [List.length_append, List.length_singleton]
      omega
  intro fuel
  induction fuel with
  | zero => exact fun s out hout => ⟨rfl, hend out hout⟩
  | succ fuel ih =>
    intro s out hout
    rw [storeLoop, decodeLoop]
    split
    · exact ⟨rfl, hend out hout⟩
    · cases chunkSize s with
      | none => exact ⟨rfl, out, rfl, by omega, List.nil_prefix⟩
      | some sr =>
        obtain ⟨size, s⟩ := sr
        simp only
        split
        · exact ⟨rfl, hend out hout⟩
        · split
          · exact ⟨rfl, out, rfl, by omega, List.nil_prefix⟩
          · rename_i hsize
            rw [zipIdx_take_append]
            have hlen : out.length + min size (cap - 1 - out.length) =
                (out ++ ((skipLineEnd s).take size).take (cap - 1 - out.length)).length := by
              rw [List.length_append, List.length_take, List.length_take]
              omega
            rw [hlen]
            exact ih _ _ (by omega)

theorem decodeStores_decodes (s : List UInt8) (cap : ℕ) :
    (decodeStores s cap).ret = (decodeChunked s cap).length ∧
      ∃ text, (decodeStores s cap).stores = text.zipIdx ∧ text.length ≤ cap ∧
        decodeChunked s cap <+: text := by
  unfold decodeStores decodeChunked
  split
  · exact ⟨rfl, [], rfl, Nat.zero_le cap, List.nil_prefix⟩
  · rename_i hcap
    exact storeLoop_decodes (by omega) s.length s [] (Nat.zero_le _)

/-! ## Encodings -/

section

variable {n : ℕ} {l : SizeLine n}

/-- An extension starts with the semicolon, without a blank before it. -/
def SizeLine.Plain (l : SizeLine n) : Prop := ∀ c ∈ l.ext.head?, c = 59

theorem SizeLine.ext_head (l : SizeLine n) : ∀ c ∈ l.ext.head?, hexDigit c = none := by
  intro c hc
  obtain hnil | ⟨gap, e, hgap, hblank⟩ := l.ext_ok
  · simp [hnil] at hc
  · rw [hgap] at hc
    cases gap with
    | nil =>
      obtain rfl : 59 = c := by simpa using hc
      decide
    | cons g gap =>
      obtain rfl : g = c := by simpa using hc
      exact hexDigit_of_blank (hblank g List.mem_cons_self)

theorem SizeLine.dropWhile_bytes (l : SizeLine n) :
    l.bytes.dropWhile (fun c => (hexDigit c).isSome) = l.ext := by
  have hdigits : ∀ c ∈ l.digits, (hexDigit c).isSome = true := by
    intro c hc
    obtain ⟨d, hd⟩ := l.hex_of_mem hc
    rw [hd]
    rfl
  rw [SizeLine.bytes, List.dropWhile_append_of_pos hdigits]
  refine dropWhile_of_head? fun c hc => ?_
  rw [l.ext_head c hc]
  rfl

theorem SizeLine.plainLine_iff (l : SizeLine n) : PlainLine l.bytes ↔ l.Plain := by
  have hcr : cr ∉ l.bytes := l.oneLine_bytes.not_mem.1
  rw [PlainLine, l.dropWhile_bytes]
  exact ⟨fun h => h.2, fun h => ⟨hcr, h⟩⟩

/-- **A plain size line is read.** -/
theorem SizeLine.read (h : l.Plain) (hn : n ≤ 0x100000) (rest : List UInt8) :
    chunkSize (l.bytes ++ (crlf ++ rest)) = some (n, crlf ++ rest) := by
  have hsize : Orion.Http.lineSize .x86_64 l.bytes = some n := l.lineSize (hn.trans (by decide))
  exact chunkSize_plain l.oneLine_bytes.not_mem.2 (l.plainLine_iff.mpr h) (.inl rfl) hsize hn

theorem SizeLine.ne_nil (l : SizeLine n) (rest : List UInt8) : l.bytes ++ rest ≠ [] := by
  intro hnil
  exact l.numeral.1 (List.append_eq_nil_iff.mp (List.append_eq_nil_iff.mp hnil).1).1

end

/-- A chunk that `decode_chunked` takes. -/
def Chunk.Decodable (c : Chunk) : Prop := c.size.Plain ∧ c.data.length ≤ 0x100000

/-- The data of the chunks. -/
def payload (chunks : List Chunk) : List UInt8 := chunks.flatMap Chunk.data

/-- The encoding of the chunks, the zero chunk, and whatever follows it. -/
def encoded (chunks : List Chunk) (last : SizeLine 0) (trailer : List UInt8) : List UInt8 :=
  chunks.flatMap Chunk.bytes ++ (last.bytes ++ (crlf ++ trailer))

theorem encoded_cons (c : Chunk) (chunks : List Chunk) (last : SizeLine 0) (trailer : List UInt8) :
    encoded (c :: chunks) last trailer =
      c.size.bytes ++ (crlf ++ (c.data ++ (crlf ++ encoded chunks last trailer))) := by
  simp only [encoded, List.flatMap_cons, Chunk.bytes, List.append_assoc]

theorem skipLineEnd_crlf (rest : List UInt8) : skipLineEnd (crlf ++ rest) = rest :=
  skipLineEnd_eol (.inl rfl)

/-- **The loop on an encoding.** -/
theorem storeLoop_encoded {cap : ℕ} {last : SizeLine 0} (hlast : last.Plain) (trailer : List UInt8) :
    ∀ (chunks : List Chunk) (fuel : ℕ) (out : List UInt8), (∀ c ∈ chunks, c.Decodable) →
      (encoded chunks last trailer).length ≤ fuel → out.length ≤ cap - 1 →
        storeLoop cap fuel (encoded chunks last trailer) out.length out.zipIdx =
          ⟨(out ++ (payload chunks).take (cap - 1 - out.length)).length,
            (out ++ (payload chunks).take (cap - 1 - out.length) ++ [0]).zipIdx⟩ := by
  intro chunks
  induction chunks with
  | nil =>
    intro fuel out _ hfuel _
    have hne : encoded [] last trailer ≠ [] := last.ne_nil _
    obtain ⟨fuel, rfl⟩ : ∃ k, fuel = k + 1 :=
      Nat.exists_eq_add_one.mpr ((List.length_pos_iff.mpr hne).trans_le hfuel)
    have hsize : chunkSize (encoded [] last trailer) = some (0, crlf ++ trailer) :=
      SizeLine.read hlast (by decide) trailer
    rw [storeLoop, if_neg hne, hsize]
    simp [payload, List.zipIdx_append]
  | cons c chunks ih =>
    intro fuel out hchunks hfuel hout
    obtain ⟨⟨hplain, hlimit⟩, hrest⟩ := List.forall_mem_cons.mp hchunks
    have hne : encoded (c :: chunks) last trailer ≠ [] := by
      rw [encoded_cons]
      exact c.size.ne_nil _
    obtain ⟨fuel, rfl⟩ : ∃ k, fuel = k + 1 :=
      Nat.exists_eq_add_one.mpr ((List.length_pos_iff.mpr hne).trans_le hfuel)
    rw [encoded_cons] at hne hfuel ⊢
    have hdata : ¬ c.data.length = 0 := fun hz => c.nonempty (List.length_eq_zero_iff.mp hz)
    rw [storeLoop, if_neg hne, SizeLine.read hplain hlimit]
    simp only [skipLineEnd_crlf, if_neg hdata]
    rw [if_neg (by simp), List.drop_left, skipLineEnd_crlf, zipIdx_take_append, List.take_left]
    have hlen : out.length + min c.data.length (cap - 1 - out.length) =
        (out ++ c.data.take (cap - 1 - out.length)).length := by
      rw [List.length_append, List.length_take, Nat.min_comm]
    simp only [List.length_append] at hfuel
    rw [hlen, ih fuel _ hrest (by omega) (by rw [← hlen]; omega)]
    have hpayload : (payload (c :: chunks)).take (cap - 1 - out.length) =
        c.data.take (cap - 1 - out.length) ++ (payload chunks).take (cap - 1 -
          (out ++ c.data.take (cap - 1 - out.length)).length) := by
      rw [payload, List.flatMap_cons, List.take_append, ← hlen]
      congr 2
      omega
    rw [hpayload, List.append_assoc]

/-- **Decoding inverts the encoding.**  The return value is the length of the data, cut to the buffer,
and the stores are the data, cut to the buffer, and the NUL, all of them inside the buffer. -/
theorem decode_chunked_inverts (chunks : List Chunk) (last : SizeLine 0) (trailer : List UInt8) {cap : ℕ}
    (hcap : 1 ≤ cap) (hchunks : ∀ c ∈ chunks, c.Decodable) (hlast : last.Plain) :
    (decodeStores (encoded chunks last trailer) cap).ret = min (payload chunks).length (cap - 1) ∧
      (decodeStores (encoded chunks last trailer) cap).stores =
        ((payload chunks).take (cap - 1) ++ [0]).zipIdx ∧
      (∀ x ∈ (decodeStores (encoded chunks last trailer) cap).stores, x.2 < cap) ∧
      ∀ out i, storeAll out (decodeStores (encoded chunks last trailer) cap).stores i =
        ((payload chunks).take (cap - 1) ++ [0]).getD i (out i) := by
  have hrun : decodeStores (encoded chunks last trailer) cap =
      ⟨((payload chunks).take (cap - 1)).length, ((payload chunks).take (cap - 1) ++ [0]).zipIdx⟩ := by
    rw [decodeStores, if_neg (by omega)]
    exact storeLoop_encoded hlast trailer chunks _ [] hchunks le_rfl (Nat.zero_le _)
  rw [hrun]
  refine ⟨by rw [List.length_take, Nat.min_comm], rfl, fun x hx => ?_, fun out i => ?_⟩
  · have hindex := List.snd_lt_of_mem_zipIdx hx
    rw [List.length_append, List.length_take, List.length_singleton] at hindex
    omega
  · exact storeAll_start _ out i

theorem numeral_two : IsNumeral hexDigit 16 (ascii "02") 2 := ⟨by decide, [0, 2], by decide, rfl⟩

theorem numeral_zero : IsNumeral hexDigit 16 (ascii "0") 0 := ⟨by decide, [0], by decide, rfl⟩

theorem oneLine_extension : OneLine (ascii ";x") := by decide

theorem oneLine_nil : OneLine [] := by simp [OneLine]

theorem blanks_nil : Blanks [] := by simp [Blanks]

theorem extension_x : ascii ";x" = [] ∨ ∃ gap e, ascii ";x" = gap ++ 59 :: e ∧ Blanks gap :=
  .inr ⟨[], ascii "x", rfl, blanks_nil⟩

theorem extension_nil : ([] : List UInt8) = [] ∨ ∃ gap e, [] = gap ++ 59 :: e ∧ Blanks gap := .inl rfl

/-- Two bytes, in a chunk with an extension. -/
def crChunk : Chunk :=
  ⟨[cr, lf], List.cons_ne_nil cr [lf], ⟨ascii "02", ascii ";x", numeral_two, extension_x,
    oneLine_extension⟩⟩

/-- The size line of the zero chunk. -/
def zeroLine : SizeLine 0 := ⟨ascii "0", [], numeral_zero, extension_nil, oneLine_nil⟩

theorem crChunk_decodable : crChunk.Decodable := by
  refine ⟨fun c hc => ?_, by decide⟩
  obtain rfl : 59 = c := Option.some.inj hc
  rfl

theorem decode_chunked_inverts_smoke :
    (decodeStores (encoded [crChunk, crChunk] zeroLine crlf) 4).stores =
      [(cr, 0), (lf, 1), (cr, 2), (0, 3)] :=
  (decode_chunked_inverts [crChunk, crChunk] zeroLine crlf (by decide)
    (by simp [crChunk_decodable]) (by simp [SizeLine.Plain, zeroLine])).2.1

end Orion.Http
