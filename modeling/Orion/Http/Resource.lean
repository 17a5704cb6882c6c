import Orion.Http.Address
import Orion.Http.Get

/-!
# Binary resources (`kernel/net_resource.c`)

`net_http_get_bytes` fetches an image with `net_http_get`, which does not tell how long the body is, and
takes the length from the header of the image: the size field of a BMP file, or the header of a PPM file
and the number of its pixels.  It reads the header, and says how long the image is, in a buffer that still
holds old bytes behind the body.
-/

namespace Orion.Http

open Orion.Net (State)

/-! ## The code -/

def le32 (d : List UInt8) (p : ℕ) : ℕ :=
  (d.getD p 0).toNat + 2 ^ 8 * (d.getD (p + 1) 0).toNat + 2 ^ 16 * (d.getD (p + 2) 0).toNat +
    2 ^ 24 * (d.getD (p + 3) 0).toNat

def space (c : UInt8) : Bool := c = 32 || c = 9 || c = cr || c = lf

/-- The number at the front of a text, and what follows it. -/
def ppmNum (s : List UInt8) : Option (ℕ × List UInt8) :=
  match takeNumber decDigit 10 8192 (s.dropWhile space) 0 0 with
  | none => none
  | some (v, n, rest) => if n = 0 then none else some (v, rest)

/-- The BMP branch, in a buffer of `cap` bytes. -/
def bmpLength (cap : ℕ) (data : List UInt8) : Option ℕ :=
  if 54 ≤ le32 data 2 ∧ le32 data 2 < cap then some (le32 data 2) else none

/-- The end of a PPM header. -/
def skipStop (s : List UInt8) : List UInt8 :=
  if s.head? = some cr ∧ (s.drop 1).head? = some lf then s.drop 2 else s.drop 1

/-- The PPM branch.  The numbers are at most 8192, so nothing wraps around. -/
def ppmLength (cap : ℕ) (data : List UInt8) : Option ℕ := do
  let (w, s) ← ppmNum (data.drop 2)
  let (h, s) ← ppmNum s
  let (max, s) ← ppmNum s
  if max ≠ 255 ∨ s.head?.any space = false then none
  else
    let pixels := w * h
    if w ≠ 0 ∧ pixels / w ≠ h then none
    else
      let total := (data.length - (skipStop s).length) + pixels * 3
      if total < cap then some total else none

/-- What the buffer holds to the length that is reported. -/
def imageLength (cap : ℕ) (data : List UInt8) : Option ℕ :=
  if data.getD 0 0 = 66 ∧ data.getD 1 0 = 77 then bmpLength cap data
  else if data.getD 0 0 = 80 ∧ data.getD 1 0 = 54 ∧ space (data.getD 2 0) then ppmLength cap data
  else none

/-- The buffer once `net_http_get` has written a body and its end. -/
def received {cap : ℕ} (prior : Vector UInt8 cap) (body : List UInt8) : List UInt8 :=
  body ++ 0 :: prior.toList.drop (body.length + 1)

/-- The status text, and if the call returns 1 the length and what the buffer holds. -/
structure Resource where
  status : List UInt8
  found : Option (ℕ × List UInt8)

def resourceOf {cap : ℕ} (prior : Vector UInt8 cap) : Verdict → Resource
  | .done status body =>
    ⟨status, (imageLength cap (received prior body)).map fun n => (n, received prior body)⟩
  | .failed status => ⟨status, none⟩
  | .follow _ => ⟨[], none⟩

/-- The result of a call with its record of requests; `prior` is what the buffer holds before. -/
def netHttpGetBytes (w : World) (tls : TlsExchange) (fuel : ℕ) (url : List UInt8) {cap : ℕ}
    (prior : Vector UInt8 cap) (statusCap : ℕ) (s : State) : Option (Resource × List Request × State) :=
  if cap < 64 then some (⟨[], none⟩, [], s)
  else (netHttpGet w tls fuel url cap statusCap s).map fun r => (resourceOf prior r.1, r.2)

/-! ## Image headers -/

/-- `data` begins like a BMP file of `n` bytes. -/
def BmpOf (data : List UInt8) (n : ℕ) : Prop :=
  ∃ a b c d rest, data = 66 :: 77 :: a :: b :: c :: d :: rest ∧ 54 ≤ n ∧
    n = a.toNat + 2 ^ 8 * b.toNat + 2 ^ 16 * c.toNat + 2 ^ 24 * d.toNat

/-- A field of a PPM header: blanks and a numeral. -/
def PpmField (text : List UInt8) (v : ℕ) : Prop :=
  ∃ gap digits, text = gap ++ digits ∧ gap ≠ [] ∧ (∀ c ∈ gap, space c = true) ∧
    IsNumeral decDigit 10 digits v ∧ v ≤ 8192

/-- What ends a PPM header: a line end of two bytes, or one blank. -/
def PpmStop (stop rest : List UInt8) : Prop :=
  stop = [cr, lf] ∨ ∃ c, stop = [c] ∧ space c = true ∧ ¬ (c = cr ∧ rest.head? = some lf)

/-- `data` begins like a PPM file of `n` bytes. -/
def PpmOf (data : List UInt8) (n : ℕ) : Prop :=
  ∃ width height max stop rest w h, data = ascii "P6" ++ width ++ height ++ max ++ stop ++ rest ∧
    PpmField width w ∧ PpmField height h ∧ PpmField max 255 ∧ PpmStop stop rest ∧
    n = (ascii "P6" ++ width ++ height ++ max ++ stop).length + 3 * (w * h)

/-- `data` begins like an image of `n` bytes. -/
def Announces (data : List UInt8) (n : ℕ) : Prop := BmpOf data n ∨ PpmOf data n

/-! ## Reading the headers -/

theorem space_digit {c : UInt8} (h : isDigit c = true) : space c = false := by
  simp only [isDigit] at h
  simp only [space, Bool.or_eq_false_iff, decide_eq_false_iff_not]
  refine ⟨⟨⟨?_, ?_⟩, ?_⟩, ?_⟩ <;> rintro rfl <;> exact absurd h (by decide)

/-- **`ppm_num` reads blanks and a whole numeral.** -/
theorem ppmNum_iff {s rest : List UInt8} {v : ℕ} : ppmNum s = some (v, rest) ↔
    ∃ gap digits, s = gap ++ (digits ++ rest) ∧ (∀ c ∈ gap, space c = true) ∧
      IsNumeral decDigit 10 digits v ∧ v ≤ 8192 ∧ ∀ c ∈ rest.head?, isDigit c = false := by
  unfold ppmNum
  constructor
  · intro h
    split at h
    · exact absurd h (by simp)
    · next v' n rest' hread =>
      split at h
      · exact absurd h (by simp)
      · next hn =>
        obtain ⟨rfl, rfl⟩ := Prod.mk.inj (Option.some.inj h)
        obtain ⟨digits, htext, hnum, hle⟩ := takeNumber_some hread hn
        have hstop := (takeNumber_spec (by norm_num) _ _ _ hread).1
        refine ⟨s.takeWhile space, digits, ?_, fun c hc => List.mem_takeWhile_imp hc, hnum, hle, ?_⟩
        · rw [← htext, List.takeWhile_append_dropWhile]
        · intro c hc
          rw [hstop] at hc
          have hno := dropWhile_head?_of (p := fun c => (decDigit c).isSome) hc
          rwa [decDigit_isSome] at hno
  · rintro ⟨gap, digits, rfl, hgap, hnum, hle, hrest⟩
    have hdigits := isDigit_of_numeral hnum
    have hhead : ∀ c ∈ (digits ++ rest).head?, space c = false := by
      intro c hc
      cases digits with
      | nil => exact absurd rfl hnum.1
      | cons d digits =>
        obtain rfl : d = c := Option.some.inj hc
        exact space_digit (hdigits d (List.mem_cons_self ..))
    have hread := takeNumber_numeral rest (by norm_num) hnum hle fun c hc => decDigit_none (hrest c hc)
    rw [dropWhile_append_stop hgap hhead, hread]
    simp only
    rw [if_neg (mt List.length_eq_zero_iff.mp hnum.1)]

theorem isDigit_space {c : UInt8} (h : space c = true) : isDigit c = false := by
  cases hd : isDigit c with
  | false => rfl
  | true =>
    rw [space_digit hd] at h
    exact absurd h Bool.false_ne_true

theorem PpmField.head {field : List UInt8} {v : ℕ} (h : PpmField field v) (x : List UInt8) :
    ∀ c ∈ (field ++ x).head?, space c = true := by
  obtain ⟨gap, digits, rfl, hne, hgap, -⟩ := h
  intro c hc
  cases gap with
  | nil => exact absurd rfl hne
  | cons d gap =>
    obtain rfl : d = c := Option.some.inj hc
    exact hgap d (List.mem_cons_self ..)

theorem PpmStop.head {stop rest : List UInt8} (h : PpmStop stop rest) :
    (stop ++ rest).head?.any space = true := by
  rcases h with rfl | ⟨c, rfl, hc, -⟩
  · rfl
  · exact hc

theorem PpmStop.skip {stop rest : List UInt8} (h : PpmStop stop rest) :
    skipStop (stop ++ rest) = rest := by
  rcases h with rfl | ⟨c, rfl, -, hcr⟩
  · rfl
  · unfold skipStop
    rw [if_neg]
    · rfl
    · rintro ⟨hhead, hnext⟩
      exact hcr ⟨Option.some.inj hhead, hnext⟩

theorem ppmStop_of_head {s : List UInt8} (h : s.head?.any space = true) :
    ∃ stop, s = stop ++ skipStop s ∧ PpmStop stop (skipStop s) := by
  unfold skipStop
  cases s with
  | nil => exact absurd h (by simp)
  | cons c s =>
    by_cases hpair : c = cr ∧ s.head? = some lf
    · obtain ⟨rfl, hlf⟩ := hpair
      obtain ⟨s', rfl⟩ := List.head?_eq_some_iff.mp hlf
      exact ⟨[cr, lf], rfl, .inl rfl⟩
    · have hno : ¬ ((c :: s).head? = some cr ∧ ((c :: s).drop 1).head? = some lf) := by
        rintro ⟨hc, hs⟩
        exact hpair ⟨Option.some.inj hc, hs⟩
      rw [if_neg hno]
      exact ⟨[c], rfl, .inr ⟨c, rfl, h, hpair⟩⟩

/-- Where no digit stands, `ppm_num` reads a field of the header. -/
theorem ppmNum_field {s rest : List UInt8} {v : ℕ} (hs : ∀ c ∈ s.head?, isDigit c = false) :
    ppmNum s = some (v, rest) ↔
      ∃ field, s = field ++ rest ∧ PpmField field v ∧ ∀ c ∈ rest.head?, isDigit c = false := by
  rw [ppmNum_iff]
  constructor
  · rintro ⟨gap, digits, rfl, hgap, hnum, hle, hrest⟩
    refine ⟨gap ++ digits, by rw [List.append_assoc], ⟨gap, digits, rfl, ?_, hgap, hnum, hle⟩, hrest⟩
    rintro rfl
    cases digits with
    | nil => exact absurd rfl hnum.1
    | cons d digits =>
      have hd := isDigit_of_numeral hnum d (List.mem_cons_self ..)
      rw [hs d rfl] at hd
      exact absurd hd (by decide)
  · rintro ⟨_, rfl, ⟨gap, digits, rfl, -, hgap, hnum, hle⟩, hrest⟩
    exact ⟨gap, digits, by rw [List.append_assoc], hgap, hnum, hle, hrest⟩

theorem ppmLength_some {cap n : ℕ} {data : List UInt8} : ppmLength cap data = some n ↔
    ∃ w s₁ h s₂ s₃, ppmNum (data.drop 2) = some (w, s₁) ∧ ppmNum s₁ = some (h, s₂) ∧
      ppmNum s₂ = some (255, s₃) ∧ s₃.head?.any space = true ∧
      n = data.length - (skipStop s₃).length + w * h * 3 ∧ n < cap := by
  unfold ppmLength
  simp only [Option.bind_eq_bind, Option.bind_eq_some_iff, Prod.exists]
  constructor
  · rintro ⟨w, s₁, hw, h, s₂, hh, max, s₃, hmax, hrest⟩
    split at hrest
    · exact absurd hrest (by simp)
    next hstop =>
    split at hrest
    · exact absurd hrest (by simp)
    split at hrest
    · next hcap =>
      simp only [not_or, not_not, Bool.not_eq_false] at hstop
      obtain ⟨rfl, hspace⟩ := hstop
      obtain rfl := Option.some.inj hrest
      exact ⟨w, s₁, h, s₂, s₃, hw, hh, hmax, hspace, rfl, hcap⟩
    · exact absurd hrest (by simp)
  · rintro ⟨w, s₁, h, s₂, s₃, hw, hh, hmax, hspace, rfl, hcap⟩
    have hwrap : ¬ (w ≠ 0 ∧ w * h / w ≠ h) := by
      rintro ⟨hne, hdiv⟩
      exact hdiv (Nat.mul_div_cancel_left h (Nat.pos_of_ne_zero hne))
    refine ⟨w, s₁, hw, h, s₂, hh, 255, s₃, hmax, ?_⟩
    rw [if_neg (by simp [hspace]), if_neg hwrap, if_pos hcap]

/-- **The PPM branch reports the length that the header announces.** -/
theorem ppmLength_iff {cap n : ℕ} {s : List UInt8} (hs : ∀ c ∈ s.head?, isDigit c = false) :
    ppmLength cap (80 :: 54 :: s) = some n ↔ PpmOf (80 :: 54 :: s) n ∧ n < cap := by
  rw [ppmLength_some, List.drop_succ_cons, List.drop_succ_cons, List.drop_zero]
  constructor
  · rintro ⟨w, s₁, h, s₂, s₃, hw, hh, hmax, hspace, hn, hcap⟩
    obtain ⟨width, rfl, hwidth, hs₁⟩ := (ppmNum_field hs).mp hw
    obtain ⟨height, rfl, hheight, hs₂⟩ := (ppmNum_field hs₁).mp hh
    obtain ⟨max, rfl, hmax, hs₃⟩ := (ppmNum_field hs₂).mp hmax
    obtain ⟨stop, hstop, hend⟩ := ppmStop_of_head hspace
    refine ⟨⟨width, height, max, stop, skipStop s₃, w, h, ?_, hwidth, hheight, hmax, hend, ?_⟩, hcap⟩
    · rw [List.append_assoc, ← hstop, List.append_assoc, List.append_assoc, List.append_assoc]
      rfl
    · have hlen := congrArg List.length hstop
      have hp6 : (ascii "P6").length = 2 := rfl
      simp only [List.length_cons, List.length_append, hp6] at hn hlen ⊢
      omega
  · rintro ⟨⟨width, height, max, stop, rest, w, h, hdata, hwidth, hheight, hmax, hend, hn⟩, hcap⟩
    have hs' : s = width ++ (height ++ (max ++ (stop ++ rest))) := by
      have hp6 : ascii "P6" = [80, 54] := rfl
      simp only [hp6, List.append_assoc, List.cons_append, List.nil_append, List.cons.injEq,
        true_and] at hdata
      exact hdata
    have hblank : ∀ {field : List UInt8} {v : ℕ}, PpmField field v → ∀ x,
        ∀ c ∈ (field ++ x).head?, isDigit c = false :=
      fun hf x c hc => isDigit_space (hf.head x c hc)
    have hstop : ∀ c ∈ (stop ++ rest).head?, isDigit c = false := by
      intro c hc
      have hany := hend.head
      rw [Option.mem_def.mp hc] at hany
      exact isDigit_space hany
    refine ⟨w, _, h, _, stop ++ rest, (ppmNum_field hs).mpr ⟨width, hs', hwidth, hblank hheight _⟩,
      (ppmNum_field (hblank hheight _)).mpr ⟨height, rfl, hheight, hblank hmax _⟩,
      (ppmNum_field (hblank hmax _)).mpr ⟨max, rfl, hmax, hstop⟩, hend.head, ?_, hcap⟩
    have hp6 : (ascii "P6").length = 2 := rfl
    rw [hend.skip]
    simp only [hs', List.length_cons, List.length_append, hp6] at hn ⊢
    omega

theorem bmpLength_iff {cap n : ℕ} {a b c d : UInt8} {rest : List UInt8} :
    bmpLength cap (66 :: 77 :: a :: b :: c :: d :: rest) = some n ↔
      BmpOf (66 :: 77 :: a :: b :: c :: d :: rest) n ∧ n < cap := by
  have hle : le32 (66 :: 77 :: a :: b :: c :: d :: rest) 2 =
      a.toNat + 2 ^ 8 * b.toNat + 2 ^ 16 * c.toNat + 2 ^ 24 * d.toNat := rfl
  unfold bmpLength
  rw [hle]
  constructor
  · intro h
    split at h
    · next hsize =>
      obtain rfl := Option.some.inj h
      exact ⟨⟨a, b, c, d, rest, rfl, hsize.1, rfl⟩, hsize.2⟩
    · exact absurd h (by simp)
  · rintro ⟨⟨a', b', c', d', rest', hdata, hsize, rfl⟩, hcap⟩
    simp only [List.cons.injEq, true_and] at hdata
    obtain ⟨rfl, rfl, rfl, rfl, -⟩ := hdata
    rw [if_pos ⟨hsize, hcap⟩]

/-- **The length that is reported is the one that the image announces**, if that is less than the size
of the buffer. -/
theorem imageLength_iff {cap n : ℕ} {data : List UInt8} (hlen : 6 ≤ data.length) :
    imageLength cap data = some n ↔ Announces data n ∧ n < cap := by
  obtain ⟨x, y, a, b, c, d, rest, rfl⟩ : ∃ x y a b c d rest, data = x :: y :: a :: b :: c :: d :: rest := by
    rcases data with _ | ⟨x, _ | ⟨y, _ | ⟨a, _ | ⟨b, _ | ⟨c, _ | ⟨d, rest⟩⟩⟩⟩⟩⟩
    iterate 6 exact absurd hlen (by simp)
    exact ⟨x, y, a, b, c, d, rest, rfl⟩
  have hx : (x :: y :: a :: b :: c :: d :: rest).getD 0 0 = x := rfl
  have hy : (x :: y :: a :: b :: c :: d :: rest).getD 1 0 = y := rfl
  have ha : (x :: y :: a :: b :: c :: d :: rest).getD 2 0 = a := rfl
  unfold imageLength Announces
  rw [hx, hy, ha]
  by_cases hbmp : x = 66 ∧ y = 77
  · obtain ⟨rfl, rfl⟩ := hbmp
    have hno : ¬ PpmOf (66 :: 77 :: a :: b :: c :: d :: rest) n := by
      rintro ⟨width, height, max, stop, tail, w, h, hdata, -⟩
      exact absurd (List.cons.inj hdata).1 (by decide)
    rw [if_pos ⟨rfl, rfl⟩, bmpLength_iff, or_iff_left hno]
  · have hno : ¬ BmpOf (x :: y :: a :: b :: c :: d :: rest) n := by
      rintro ⟨a', b', c', d', rest', hdata, -⟩
      simp only [List.cons.injEq] at hdata
      exact hbmp ⟨hdata.1, hdata.2.1⟩
    rw [if_neg hbmp, or_iff_right hno]
    by_cases hppm : x = 80 ∧ y = 54 ∧ space a = true
    · obtain ⟨rfl, rfl, hspace⟩ := hppm
      rw [if_pos ⟨rfl, rfl, hspace⟩, ppmLength_iff]
      intro c' hc'
      obtain rfl : a = c' := Option.some.inj hc'
      exact isDigit_space hspace
    · rw [if_neg hppm]
      refine ⟨fun h => absurd h (by simp), ?_⟩
      rintro ⟨⟨width, height, max, stop, tail, w, h, hdata, hwidth, -⟩, -⟩
      have hp6 : ascii "P6" = [80, 54] := rfl
      simp only [hp6, List.append_assoc, List.cons_append, List.nil_append, List.cons.injEq] at hdata
      obtain ⟨rfl, rfl, hdata⟩ := hdata
      exact absurd ⟨rfl, rfl, hwidth.head _ a (by rw [← hdata]; rfl)⟩ hppm

/-! ## What was received -/

/-- What an image of at most the received length says of itself does not depend on what follows. -/
theorem Announces.congr {body x y : List UInt8} {n : ℕ} (h : Announces (body ++ 0 :: x) n)
    (hn : n ≤ body.length) : Announces (body ++ 0 :: y) n := by
  rcases h with ⟨a, b, c, d, rest, hdata, hsize, hval⟩ | ⟨width, height, max, stop, rest, w, h, hdata,
    hwidth, hheight, hmax, hstop, hval⟩
  · -- a BMP file has at least 54 bytes, so its size field was received
    have hpre : [66, 77, a, b, c, d] <+: body := by
      refine List.prefix_of_prefix_length_le ⟨rest, ?_⟩ (List.prefix_append body (0 :: x)) ?_
      · exact hdata.symm
      · show 6 ≤ body.length
        omega
    obtain ⟨t, rfl⟩ := hpre
    exact .inl ⟨a, b, c, d, t ++ 0 :: y, rfl, hsize, hval⟩
  · have hpre : ascii "P6" ++ width ++ height ++ max ++ stop <+: body := by
      refine List.prefix_of_prefix_length_le ⟨rest, ?_⟩ (List.prefix_append body (0 :: x)) (by omega)
      exact hdata.symm
    obtain ⟨t, rfl⟩ := hpre
    have hrest : rest = t ++ 0 :: x := by
      rw [List.append_assoc] at hdata
      exact (List.append_cancel_left hdata).symm
    have hhead : rest.head? = (t ++ 0 :: y).head? := by
      rw [hrest]
      cases t <;> rfl
    refine .inr ⟨width, height, max, stop, t ++ 0 :: y, w, h, by rw [← List.append_assoc], hwidth,
      hheight, hmax, ?_, hval⟩
    rwa [PpmStop, ← hhead]

theorem le_length_received {cap : ℕ} (prior : Vector UInt8 cap) (body : List UInt8) :
    cap ≤ (received prior body).length := by
  rw [received, List.length_append, List.length_cons, List.length_drop, Vector.length_toList]
  omega

theorem received_take {cap n : ℕ} (prior : Vector UInt8 cap) {body : List UInt8} (h : n ≤ body.length) :
    (received prior body).take n = body.take n :=
  List.take_append_of_le_length h

section

variable (w : World) (tls : TlsExchange) (fuel : ℕ) (url : List UInt8) {cap : ℕ}
  (prior : Vector UInt8 cap) (statusCap : ℕ) (s : State)

/-- The calls that return 1. -/
theorem netHttpGetBytes_found {status data : List UInt8} {len : ℕ} {log : List Request} {t : State} :
    netHttpGetBytes w tls fuel url prior statusCap s = some (⟨status, some (len, data)⟩, log, t) ↔
      64 ≤ cap ∧ ∃ body, netHttpGet w tls fuel url cap statusCap s = some (.done status body, log, t) ∧
        data = received prior body ∧ Announces data len ∧ len < cap := by
  unfold netHttpGetBytes
  by_cases hcap : cap < 64
  · rw [if_pos hcap]
    exact ⟨fun h => absurd h (by simp), fun h => absurd hcap (not_lt.mpr h.1)⟩
  have hsize : ∀ body, 6 ≤ (received prior body).length := by
    intro body
    have hle := le_length_received prior body
    omega
  rw [if_neg hcap, Option.map_eq_some_iff]
  constructor
  · rintro ⟨⟨v, log', t'⟩, hget, hr⟩
    obtain ⟨hres, rfl, rfl⟩ : resourceOf prior v = ⟨status, some (len, data)⟩ ∧ log' = log ∧ t' = t := by
      simpa using hr
    cases v with
    | done st body =>
      simp only [resourceOf, Resource.mk.injEq, Option.map_eq_some_iff, Prod.mk.injEq] at hres
      obtain ⟨rfl, n, himage, rfl, rfl⟩ := hres
      obtain ⟨hann, hlt⟩ := (imageLength_iff (hsize body)).mp himage
      exact ⟨not_lt.mp hcap, body, hget, rfl, hann, hlt⟩
    | failed st => simp [resourceOf] at hres
    | follow next => simp [resourceOf] at hres
  · rintro ⟨-, body, hget, rfl, hann, hlt⟩
    refine ⟨_, hget, ?_⟩
    rw [resourceOf, (imageLength_iff (hsize body)).mpr ⟨hann, hlt⟩]
    rfl

/-- What is reported was received: if the call returns 1, then the length is at most that of the body,
and with any other bytes in the buffer before, the call reports the same length and the same bytes. -/
def ReceivedOnly : Prop :=
  ∀ status len data log t,
    netHttpGetBytes w tls fuel url prior statusCap s = some (⟨status, some (len, data)⟩, log, t) →
      (∃ body, netHttpGet w tls fuel url cap statusCap s = some (.done status body, log, t) ∧
        len ≤ body.length) ∧
      ∀ prior' : Vector UInt8 cap, ∃ data',
        netHttpGetBytes w tls fuel url prior' statusCap s = some (⟨status, some (len, data')⟩, log, t) ∧
          data'.take len = data.take len

/-- The body begins like an image that is longer than the body is, and not too long for the buffer. -/
def CutShort : Prop :=
  64 ≤ cap ∧ ∃ status body log t n,
    netHttpGet w tls fuel url cap statusCap s = some (.done status body, log, t) ∧
      Announces (received prior body) n ∧ body.length < n ∧ n < cap

/-- **The length of a resource is one that was received, except for an image that was cut short.** -/
theorem net_http_get_bytes_received_iff :
    ReceivedOnly w tls fuel url prior statusCap s ↔ ¬ CutShort w tls fuel url prior statusCap s := by
  constructor
  · rintro hreceived ⟨hcap, status, body, log, t, n, hget, hann, hshort, hlt⟩
    obtain ⟨⟨body', hget', hle⟩, -⟩ := hreceived status n (received prior body) log t
      ((netHttpGetBytes_found w tls fuel url prior statusCap s).mpr ⟨hcap, body, hget, rfl, hann, hlt⟩)
    rw [hget] at hget'
    obtain rfl : body = body' := by simpa using hget'
    omega
  · intro hwhole status len data log t hrun
    obtain ⟨hcap, body, hget, rfl, hann, hlt⟩ :=
      (netHttpGetBytes_found w tls fuel url prior statusCap s).mp hrun
    have hle : len ≤ body.length := by
      by_contra hshort
      exact hwhole ⟨hcap, status, body, log, t, len, hget, hann, by omega, hlt⟩
    refine ⟨⟨body, hget, hle⟩, fun prior' => ⟨received prior' body, ?_, ?_⟩⟩
    · exact (netHttpGetBytes_found w tls fuel url prior' statusCap s).mpr
        ⟨hcap, body, hget, rfl, hann.congr hle, hlt⟩
    · rw [received_take prior hle, received_take prior' hle]

end

/-- A server that sends six bytes of a BMP file of a hundred. -/
def sixBytes : TlsExchange := fun _ _ _ _ s =>
  some (.ok (ascii "HTTP/1.0 200 OK\r\n\r\n" ++ [66, 77, 100, 0, 0, 0]), s)

/-- The call reports a hundred bytes. -/
theorem six_bytes_reported : ¬ ReceivedOnly World.quiet sixBytes 0 (ascii "https://a/")
    (Vector.replicate 256 0xaa) 64 { State.boot with ready := true } := by
  intro hreceived
  have hlen : (netHttpGetBytes World.quiet sixBytes 0 (ascii "https://a/") (Vector.replicate 256 0xaa) 64
      { State.boot with ready := true }).map (fun r => r.1.found.map (·.1)) = some (some 100) := by
    decide +kernel
  have hbody : (netHttpGet World.quiet sixBytes 0 (ascii "https://a/") 256 64
      { State.boot with ready := true }).map (·.1) =
        some (.done (ascii "HTTP/1.0 200 OK") [66, 77, 100, 0, 0, 0]) := by
    decide +kernel
  obtain ⟨⟨⟨status, found⟩, log, t⟩, hrun, hfound⟩ := Option.map_eq_some_iff.mp hlen
  obtain ⟨⟨n, data⟩, rfl, rfl⟩ := Option.map_eq_some_iff.mp hfound
  obtain ⟨⟨body, hget, hle⟩, -⟩ := hreceived status _ data log t hrun
  rw [hget] at hbody
  obtain ⟨-, rfl⟩ : _ ∧ body = [66, 77, 100, 0, 0, 0] := by simpa using hbody
  exact absurd hle (by decide)

end Orion.Http
