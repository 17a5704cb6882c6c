import Orion.Aster.Coordinates

/-!
# Which words overlap

On one line words follow each other to the right (`drawn_precedes`).  Between lines the page goes down by what
the tags and the words that find no room say: a word goes down by the height of its own line, a block or a `br`
by a fixed amount, which may be less than the words above are high.  Where the breaks between two words in one
column are high enough (`Clear`), and only there, the words of a layout do not overlap and every point of a link
leads to its address (`aster_layout_overlap_iff`).  For this it is enough that the breaks between neighbours are
high enough (`Spaced`).
-/

namespace Orion.Aster

open Orion.Lib

/-! ## Rectangles -/

def PaintItem.Contains (i : PaintItem) (x y : ℤ) : Prop :=
  (i.x ≤ x ∧ x < i.x + i.w) ∧ (i.y ≤ y ∧ y < i.y + i.h)

instance (i : PaintItem) (x y : ℤ) : Decidable (i.Contains x y) := inferInstanceAs (Decidable (_ ∧ _))

/-- The rectangles have a point in common. -/
def PaintItem.Overlaps (i j : PaintItem) : Prop := ∃ x y, i.Contains x y ∧ j.Contains x y

/-- The rectangles have a column of pixels in common, wherever they stand in it. -/
def PaintItem.SameColumn (i j : PaintItem) : Prop :=
  max i.x j.x < min (i.x + i.w) (j.x + j.w)

/-- A point in the topmost row of the lower one of two items. -/
theorem common_point {i j : PaintItem} (hle : i.y ≤ j.y) (hj : 0 < j.h) (hcolumn : i.SameColumn j)
    (hlow : j.y < i.y + i.h) : ∃ x, i.Contains x j.y ∧ j.Contains x j.y := by
  rw [PaintItem.SameColumn] at hcolumn
  refine ⟨max i.x j.x, ⟨?_, hle, hlow⟩, ?_, le_rfl, ?_⟩ <;> omega

/-- Of two items the second of which is not higher. -/
theorem overlaps_iff {i j : PaintItem} (hle : i.y ≤ j.y) (hj : 0 < j.h) :
    i.Overlaps j ↔ i.SameColumn j ∧ j.y < i.y + i.h := by
  constructor
  · rintro ⟨x, y, ⟨hix, hiy⟩, hjx, hjy⟩
    refine ⟨?_, ?_⟩
    · rw [PaintItem.SameColumn]
      omega
    · omega
  · rintro ⟨hcolumn, hlow⟩
    obtain ⟨x, hpoint⟩ := common_point hle hj hcolumn hlow
    exact ⟨x, j.y, hpoint⟩

/-! ## Sixteen bits -/

theorem stored_y {width : ℤ} {i : PaintItem} (hi : i.Ok width) (hlow : i.y < 2 ^ 15) : i.stored.y = i.y :=
  int16_of_range (by have := hi.y; omega) hlow

theorem stored_h {width : ℤ} {i : PaintItem} (hi : i.Ok width) : i.stored.h = i.h :=
  int16_of_range (by have := hi.h; omega) (by have := hi.h; omega)

/-- On one line, before the 16 bits end, a word has the column of no earlier item. -/
theorem not_sameColumn {width : ℤ} {i j : PaintItem} (hi : i.Ok width) (hj : j.Ok width)
    (hp : i.Precedes j) (hword : j.isWord = true) (hline : i.y = j.y) (hedge : j.x + j.w ≤ 32767) :
    ¬ i.stored.SameColumn j.stored := by
  have hx := hp.2 hword hline
  have hiw := hi.w
  have hjw := hj.w
  have h1 : i.stored.x = i.x := int16_of_range (by have := hi.x; omega) (by omega)
  have h2 : j.stored.x = j.x := int16_of_range (by have := hj.x; omega) (by omega)
  have h3 : i.stored.w ≤ i.w := int16_le (by omega)
  rw [PaintItem.SameColumn, h1, h2]
  omega

/-! ## Links -/

/-- The items that `aster_link_at` looks for. -/
def PaintItem.Hit (i : PaintItem) (x y : ℤ) : Bool :=
  i.href.len ≠ 0 && !(x < i.x || x ≥ i.x + i.w || y < i.y || y ≥ i.y + i.h)

theorem hit_iff {i : PaintItem} {x y : ℤ} : i.Hit x y = true ↔ i.href.len ≠ 0 ∧ i.Contains x y := by
  simp only [PaintItem.Hit, PaintItem.Contains, Bool.and_eq_true, Bool.not_eq_true', Bool.or_eq_false_iff,
    decide_eq_true_eq, decide_eq_false_iff_not]
  omega

/-- The last item at a point is found. -/
theorem asterLinkAt_eq {d : Document} {l₁ l₂ : List PaintItem} {k : PaintItem} {x y scroll : ℤ} {cap : ℕ}
    (hpaint : d.paint = l₁ ++ k :: l₂) (hcap : cap ≠ 0) (hk : k.Hit x (y + scroll) = true)
    (hlast : ∀ m ∈ l₂, m.Hit x (y + scroll) = false) :
    asterLinkAt d x y scroll cap = some ((d.bytes k.href).take (cap - 1)) := by
  rw [asterLinkAt, if_neg hcap]
  have hfind : d.paint.reverse.find? (fun i => i.Hit x (y + scroll)) = some k := by
    rw [List.find?_eq_some_iff_append]
    refine ⟨hk, l₂.reverse, l₁.reverse, by rw [hpaint]; simp, fun m hm => ?_⟩
    rw [hlast m (List.mem_reverse.mp hm)]
    rfl
  show (d.paint.reverse.find? (fun i => i.Hit x (y + scroll))).map _ = _
  rw [hfind]
  rfl

/-- Among items one of which is hit there is a last one that is hit. -/
theorem exists_last_hit {l : List PaintItem} {i : PaintItem} {x y : ℤ} (hi : i ∈ l) (hit : i.Hit x y = true) :
    ∃ l₁ k l₂, l = l₁ ++ k :: l₂ ∧ k.Hit x y = true ∧ ∀ m ∈ l₂, m.Hit x y = false := by
  have hsome : (l.reverse.find? fun i => i.Hit x y).isSome = true := by
    rw [List.find?_isSome]
    exact ⟨i, List.mem_reverse.mpr hi, hit⟩
  obtain ⟨k, hk⟩ := Option.isSome_iff_exists.mp hsome
  obtain ⟨hhit, l₂, l₁, hsplit, hnone⟩ := List.find?_eq_some_iff_append.mp hk
  refine ⟨l₁.reverse, k, l₂.reverse, ?_, hhit, fun m hm => ?_⟩
  · rw [← List.reverse_reverse l, hsplit]
    simp
  · simpa using hnone m (List.mem_reverse.mp hm)

theorem eq_of_take_eq {α : Type*} {l l' : List α} (h : ∀ cap : ℕ, cap ≠ 0 → l.take (cap - 1) = l'.take (cap - 1)) :
    l = l' := by
  have htake := h (l.length + l'.length + 1) (Nat.succ_ne_zero _)
  rw [Nat.add_sub_cancel, List.take_of_length_le (Nat.le_add_right _ _),
    List.take_of_length_le (Nat.le_add_left _ _)] at htake
  exact htake

/-! ## Readable layouts -/

/-- No two words overlap. -/
def WordsApart (paint : List PaintItem) : Prop :=
  paint.Pairwise fun i j => i.isWord = true → j.isWord = true → ¬ i.Overlaps j

/-- Every point of a word in a link leads to the address of that link. -/
def LinksLead (d : Document) : Prop :=
  ∀ i ∈ d.paint, i.isWord = true → i.href.len ≠ 0 → ∀ x y : ℤ, i.Contains x y →
    ∀ (scroll : ℤ) (cap : ℕ), cap ≠ 0 →
      asterLinkAt d x (y - scroll) scroll cap = some ((d.bytes i.href).take (cap - 1))

def Readable (d : Document) (width : ℤ) : Prop :=
  WordsApart (asterLayout d width).paint ∧ LinksLead (asterLayout d width)

/-- Items that begin at `x` and `x'` have a column of pixels in common, as they are stored. -/
def Meet (x w x' w' : ℤ) : Prop :=
  max (int16 x) (int16 x') < min (int16 x + int16 w) (int16 x' + int16 w')

/-- Of all pairs of orders whose items are shown, of how far their lines are filled in front of them, and of how
far down the page goes from the top of the first item to the top of the second one. -/
def Between (d : Document) (width : ℤ) (R : Order → ℤ → Order → ℤ → ℤ → Prop) : Prop :=
  ∀ os₁ o os₂ o', ShownBoth d width os₁ o os₂ o' →
    let x := columns os₁ 0
    let x' := columns os₂ (o.column x)
    R o x o' x' (o.trail + drops os₂ (o.column x) + o'.lead x')

/-- The breaks of a page are high enough between the items that come into one column.  Between two words they go
down by the height of the first one, or by nothing, if the line does not go on behind the 16 bits; between a word
and an image, both of them links, by the height of the word, unless both lead to the same address. -/
structure Clear (d : Document) (width : ℤ) : Prop where
  words : Between d width fun o x o' x' k => o.isWord = true → o'.isWord = true →
    Meet (o.left x) o.width (o'.left x') o'.width → o.height ≤ k ∨ k = 0 ∧ o'.left x' + o'.width ≤ 32767
  links : Between d width fun o x o' x' k => o.isWord = true → o'.isWord = false → o.href.len ≠ 0 →
    o'.href.len ≠ 0 → Meet (o.left x) o.width (o'.left x') o'.width →
      o.height ≤ k ∨ d.bytes o'.href = d.bytes o.href

/-- The breaks between a word and the next word go down by the height of the first one, or there are none and
both words are equally high; those between a word and an image that is a link, with no word between them, go down
by the height of the word. -/
structure Spaced (d : Document) (width : ℤ) : Prop where
  words : ∀ os₁ o os₂ o', ShownBoth d width os₁ o os₂ o' → o.isWord = true → o'.isWord = true →
    (∀ m ∈ os₂, m.isWord = false) →
    let k := drops os₂ (o.column (columns os₁ 0))
    o.height ≤ k ∨ k = 0 ∧ o.height = o'.height
  links : ∀ os₁ o os₂ o', ShownBoth d width os₁ o os₂ o' → o.isWord = true → o'.isWord = false →
    (∀ m ∈ os₂, m.isWord = false) → o'.href.len ≠ 0 → o.height ≤ drops os₂ (o.column (columns os₁ 0))

/-! ## Breaks are distances -/

theorem out_isWord {width : ℤ} {o : Order} (hok : o.Ok width) {p : Pen} {i : PaintItem} (hi : i ∈ o.out p) :
    i.isWord = o.isWord := by
  cases o with
  | word n look box text =>
    obtain rfl := List.mem_singleton.mp hi
    exact wordItem_isWord hok.2.2.2 text _
  | image n left w h text l src =>
    obtain rfl := List.mem_singleton.mp hi
    exact imageItem_isWord left w h text l src p
  | _ => cases hi

/-- **The breaks between two items are how far apart their tops are.** -/
theorem between_iff {d : Document} {width : ℤ} (hok : ∀ o ∈ layoutScript d width, o.Ok width)
    {R : Order → ℤ → Order → ℤ → ℤ → Prop} {S : PaintItem → PaintItem → ℤ → Prop}
    (h : ∀ (o : Order) (p : Pen) (o' : Order) (p' : Pen), o.Ok width → o'.Ok width → ∀ i ∈ o.out p,
      ∀ j ∈ o'.out p', ∀ k, R o p.x o' p'.x k ↔ S i j k) :
    Between d width R ↔ ((drawn d width).take asterMaxPaint).Pairwise fun i j => S i j (j.y - i.y) := by
  rw [pairwise_shown_iff, Between]
  refine forall₄_congr fun os₁ o os₂ o' => forall_congr' fun hshown => ?_
  obtain ⟨os₃, hscript⟩ := hshown.script
  have hmem : ∀ m, m ∈ o :: (os₂ ++ o' :: os₃) → m.Ok width := by
    intro m hm
    refine hok m ?_
    rw [hscript]
    exact List.mem_append_right os₁ hm
  let p : Pen := ⟨columns os₁ 0, drops os₁ 0⟩
  have hpen : plotter.run os₂ (o.step p) =
      ⟨columns os₂ (o.column p.x), p.y + (o.lead p.x + o.trail) + drops os₂ (o.column p.x)⟩ := by
    rw [run_eq, step_eq]
  have hpair : ∀ i ∈ o.out p, ∀ j ∈ o'.out (plotter.run os₂ (o.step p)),
      R o p.x o' (columns os₂ (o.column p.x))
        (o.trail + drops os₂ (o.column p.x) + o'.lead (columns os₂ (o.column p.x))) ↔ S i j (j.y - i.y) := by
    intro i hi j hj
    rw [hpen] at hj
    have htop : j.y - i.y =
        o.trail + drops os₂ (o.column p.x) + o'.lead (columns os₂ (o.column p.x)) := by
      rw [(out_places hi).y, (out_places hj).y]
      show p.y + (o.lead p.x + o.trail) + drops os₂ (o.column p.x) + o'.lead (columns os₂ (o.column p.x)) -
        (p.y + o.lead p.x) = _
      omega
    rw [htop]
    exact h o p o' _ (hmem o List.mem_cons_self) (hmem o' (by simp)) i hi j hj _
  constructor
  · intro hbetween q i hi j hj
    exact (hpair i hi j hj).mp hbetween
  · intro hall
    obtain ⟨i, hi⟩ := exists_out hshown.places.1 p
    obtain ⟨j, hj⟩ := exists_out hshown.places.2 (plotter.run os₂ (o.step p))
    exact (hpair i hi j hj).mpr (hall i hi j hj)

section

variable {d : Document} {width : ℤ} (hok : ∀ o ∈ layoutScript d width, o.Ok width)

include hok

theorem clear_words_iff : (Between d width fun o x o' x' k => o.isWord = true → o'.isWord = true →
      Meet (o.left x) o.width (o'.left x') o'.width → o.height ≤ k ∨ k = 0 ∧ o'.left x' + o'.width ≤ 32767) ↔
    ((drawn d width).take asterMaxPaint).Pairwise fun i j => i.isWord = true → j.isWord = true →
      i.stored.SameColumn j.stored → i.h ≤ j.y - i.y ∨ j.y - i.y = 0 ∧ j.x + j.w ≤ 32767 := by
  refine between_iff hok (S := fun i j k => i.isWord = true → j.isWord = true →
    i.stored.SameColumn j.stored → i.h ≤ k ∨ k = 0 ∧ j.x + j.w ≤ 32767) ?_
  intro o p o' p' ho ho' i hi j hj k
  have hplace := out_places hi
  have hplace' := out_places hj
  rw [out_isWord ho hi, out_isWord ho' hj, ← hplace.x, ← hplace.w, ← hplace.h, ← hplace'.x, ← hplace'.w]
  exact Iff.rfl

theorem clear_links_iff : (Between d width fun o x o' x' k => o.isWord = true → o'.isWord = false →
      o.href.len ≠ 0 → o'.href.len ≠ 0 → Meet (o.left x) o.width (o'.left x') o'.width →
        o.height ≤ k ∨ d.bytes o'.href = d.bytes o.href) ↔
    ((drawn d width).take asterMaxPaint).Pairwise fun i j => i.isWord = true → j.isWord = false →
      i.href.len ≠ 0 → j.href.len ≠ 0 → i.stored.SameColumn j.stored →
        i.h ≤ j.y - i.y ∨ d.bytes j.href = d.bytes i.href := by
  refine between_iff hok (S := fun i j k => i.isWord = true → j.isWord = false → i.href.len ≠ 0 →
    j.href.len ≠ 0 → i.stored.SameColumn j.stored → i.h ≤ k ∨ d.bytes j.href = d.bytes i.href) ?_
  intro o p o' p' ho ho' i hi j hj k
  have hplace := out_places hi
  have hplace' := out_places hj
  rw [out_isWord ho hi, out_isWord ho' hj, ← hplace.x, ← hplace.w, ← hplace.h, ← hplace.href, ← hplace'.x,
    ← hplace'.w, ← hplace'.href]
  exact Iff.rfl

end

/-! ## Neighbours -/

theorem trail_of_isWord {o : Order} (h : o.isWord = true) : o.trail = 0 := by
  cases o with
  | word n look box text => rfl
  | _ => cases h

/-- A word goes down by nothing or by its line. -/
theorem lead_of_isWord {o : Order} (h : o.isWord = true) (x : ℤ) : o.lead x = 0 ∨ o.lead x = o.height := by
  cases o with
  | word n look box text =>
    show (if NoRoom look box text x then lh look.scale else 0) = 0 ∨
      (if NoRoom look box text x then lh look.scale else 0) = lh look.scale
    split
    · exact .inr rfl
    · exact .inl rfl
  | _ => cases h

theorem lead_of_image {o : Order} (hplaces : o.places = true) (h : o.isWord = false) (x : ℤ) : o.lead x = 0 := by
  cases o with
  | image n left w h text l src => rfl
  | word n look box text => cases h
  | _ => cases hplaces

theorem height_pos {o : Order} (h : o.isWord = true) : 0 < o.height := by
  cases o with
  | word n look box text =>
    have hrange := lh_range look.scale
    show 0 < lh look.scale
    omega
  | _ => cases h

/-- From a word on: what the page goes down before the next word, and before the links among the images. -/
def ahead (o : Order) : List Order → ℤ → ℤ → Bool
  | [], _, _ => true
  | m :: os, k, x =>
    if m.isWord then o.height ≤ k || k = 0 && o.height = m.height
    else (! m.places || m.href.len = 0 || o.height ≤ k) && ahead o os (k + (m.lead x + m.trail)) (m.column x)

/-- `Spaced` of all the orders from a column on. -/
def spacedFrom : List Order → ℤ → Bool
  | [], _ => true
  | o :: os, x => (! o.isWord || ahead o os 0 (o.column x)) && spacedFrom os (o.column x)

theorem ahead_spec {o o' : Order} {os₃ : List Order} (os₂ : List Order) : ∀ {k x : ℤ},
    ahead o (os₂ ++ o' :: os₃) k x = true → (∀ m ∈ os₂, m.isWord = false) →
      (o'.isWord = true → o.height ≤ k + drops os₂ x ∨ k + drops os₂ x = 0 ∧ o.height = o'.height) ∧
      (o'.isWord = false → o'.places = true → o'.href.len ≠ 0 → o.height ≤ k + drops os₂ x) := by
  induction os₂ with
  | nil =>
    intro k x hahead _
    rw [List.nil_append, ahead] at hahead
    rw [drops, add_zero]
    cases how : o'.isWord with
    | true => simpa [how] using hahead
    | false =>
      refine ⟨Bool.noConfusion, fun _ hplaces hlink => ?_⟩
      simp only [how, Bool.false_eq_true, if_false, Bool.and_eq_true, Bool.or_eq_true] at hahead
      simpa [hplaces, hlink] using hahead.1
  | cons m os₂ ih =>
    intro k x hahead hnone
    have hm := hnone m List.mem_cons_self
    rw [List.cons_append, ahead, hm, if_neg Bool.false_ne_true, Bool.and_eq_true] at hahead
    rw [drops, ← add_assoc]
    exact ih hahead.2 fun m' hm' => hnone m' (List.mem_cons_of_mem m hm')

theorem spacedFrom_spec {o : Order} {rest : List Order} (how : o.isWord = true) (os₁ : List Order) : ∀ {x : ℤ},
    spacedFrom (os₁ ++ o :: rest) x = true → ahead o rest 0 (o.column (columns os₁ x)) = true := by
  induction os₁ with
  | nil =>
    intro x hspaced
    rw [List.nil_append, spacedFrom, how, Bool.and_eq_true] at hspaced
    exact hspaced.1
  | cons m os₁ ih =>
    intro x hspaced
    rw [List.cons_append, spacedFrom, Bool.and_eq_true] at hspaced
    exact ih hspaced.2

theorem spaced_of_spacedFrom {d : Document} {width : ℤ} (h : spacedFrom (layoutScript d width) 0 = true) :
    Spaced d width where
  words := by
    intro os₁ o os₂ o' hshown how how' hnone
    obtain ⟨os₃, hscript⟩ := hshown.script
    rw [hscript] at h
    have hnext := (ahead_spec os₂ (spacedFrom_spec how os₁ h) hnone).1 how'
    rwa [zero_add] at hnext
  links := by
    intro os₁ o os₂ o' hshown how how' hnone hlink
    obtain ⟨os₃, hscript⟩ := hshown.script
    rw [hscript] at h
    have hnext := (ahead_spec os₂ (spacedFrom_spec how os₁ h) hnone).2 how' hshown.places.2 hlink
    rwa [zero_add] at hnext

/-- An order between two others comes behind the first one and in front of the second one. -/
theorem ShownBoth.split {d : Document} {width : ℤ} {os₁ a b : List Order} {o m o' : Order}
    (h : ShownBoth d width os₁ o (a ++ m :: b) o') (hm : m.places = true) :
    ShownBoth d width os₁ o a m ∧ ShownBoth d width (os₁ ++ o :: a) m b o' := by
  obtain ⟨os₃, hscript⟩ := h.script
  have hroom := h.room
  refine ⟨⟨⟨b ++ o' :: os₃, by rw [hscript]; simp⟩, ⟨h.places.1, hm⟩, ?_⟩,
    ⟨⟨os₃, by rw [hscript]; simp⟩, ⟨hm, h.places.2⟩, ?_⟩⟩
  · simp only [List.append_assoc, List.cons_append, List.countP_append, List.countP_cons] at hroom ⊢
    simp only [List.countP_nil] at hroom ⊢
    omega
  · simpa using hroom

theorem places_of_isWord {o : Order} (h : o.isWord = true) : o.places = true := by
  cases o with
  | word n look box text => rfl
  | _ => cases h

section

variable {d : Document} {width : ℤ} (hspaced : Spaced d width)

include hspaced

/-- **From neighbours to all words**, by the number of the orders between them. -/
theorem Spaced.way (n : ℕ) : ∀ {os₁ os₂ : List Order} {o o' : Order}, os₂.length = n →
    ShownBoth d width os₁ o os₂ o' → o.isWord = true → o'.isWord = true →
      let x := o.column (columns os₁ 0)
      let k := drops os₂ x + o'.lead (columns os₂ x)
      o.height ≤ k ∨ k = 0 ∧ o.height = o'.height := by
  induction n using Nat.strong_induction_on with
  | _ n ih =>
    intro os₁ os₂ o o' hlen hshown how how' x k
    by_cases hword : ∃ m ∈ os₂, m.isWord = true
    · obtain ⟨m, hm, hmw⟩ := hword
      obtain ⟨a, b, rfl⟩ := List.append_of_mem hm
      rw [List.length_append, List.length_cons] at hlen
      obtain ⟨hfirst, hsecond⟩ := hshown.split (places_of_isWord hmw)
      have hway := ih a.length (by omega) rfl hfirst how hmw
      have hway' := ih b.length (by omega) rfl hsecond hmw how'
      have hpos := height_pos how
      have hpos' := height_pos hmw
      rw [columns_append, columns_cons] at hway'
      change o.height ≤ drops a x + m.lead (columns a x) ∨
        drops a x + m.lead (columns a x) = 0 ∧ o.height = m.height at hway
      have hk : k = drops a x + m.lead (columns a x) +
          (drops b (m.column (columns a x)) + o'.lead (columns b (m.column (columns a x)))) := by
        show drops (a ++ m :: b) x + o'.lead (columns (a ++ m :: b) x) = _
        rw [drops_append, columns_append, drops, trail_of_isWord hmw]
        show _ + (_ + 0 + _) + o'.lead (columns b (m.column (columns a x))) = _
        omega
      rw [hk]
      change m.height ≤ drops b (m.column (columns a x)) + o'.lead (columns b (m.column (columns a x))) ∨
        drops b (m.column (columns a x)) + o'.lead (columns b (m.column (columns a x))) = 0 ∧
          m.height = o'.height at hway'
      omega
    · have hnone : ∀ m ∈ os₂, m.isWord = false := by
        intro m hm
        rw [Bool.eq_false_iff]
        exact fun hmw => hword ⟨m, hm, hmw⟩
      have hlead := lead_of_isWord how' (columns os₂ x)
      have hpos := height_pos how'
      have hnext := hspaced.words os₁ o os₂ o' hshown how how' hnone
      show o.height ≤ drops os₂ x + o'.lead (columns os₂ x) ∨ _
      change o.height ≤ drops os₂ x ∨ drops os₂ x = 0 ∧ o.height = o'.height at hnext
      omega

/-- From a word to an image that is a link. -/
theorem Spaced.wayToImage (n : ℕ) : ∀ {os₁ os₂ : List Order} {o o' : Order}, os₂.length = n →
    ShownBoth d width os₁ o os₂ o' → o.isWord = true → o'.isWord = false → o'.href.len ≠ 0 →
      o.height ≤ drops os₂ (o.column (columns os₁ 0)) := by
  induction n using Nat.strong_induction_on with
  | _ n ih =>
    intro os₁ os₂ o o' hlen hshown how how' hlink
    by_cases hword : ∃ m ∈ os₂, m.isWord = true
    · obtain ⟨m, hm, hmw⟩ := hword
      obtain ⟨a, b, rfl⟩ := List.append_of_mem hm
      rw [List.length_append, List.length_cons] at hlen
      obtain ⟨hfirst, hsecond⟩ := hshown.split (places_of_isWord hmw)
      have hway := hspaced.way a.length rfl hfirst how hmw
      have hway' := ih b.length (by omega) rfl hsecond hmw how' hlink
      have hpos := height_pos hmw
      rw [columns_append, columns_cons] at hway'
      rw [drops_append, drops, trail_of_isWord hmw]
      generalize o.column (columns os₁ 0) = x at hway hway' ⊢
      change o.height ≤ drops a x + m.lead (columns a x) ∨
        drops a x + m.lead (columns a x) = 0 ∧ o.height = m.height at hway
      omega
    · have hnone : ∀ m ∈ os₂, m.isWord = false := by
        intro m hm
        rw [Bool.eq_false_iff]
        exact fun hmw => hword ⟨m, hm, hmw⟩
      exact hspaced.links os₁ o os₂ o' hshown how how' hnone hlink

/-- **Where the neighbours are far enough apart, all items are.** -/
theorem Spaced.clear (hok : ∀ i ∈ drawn d width, i.Ok width) (hwidth : width ≤ 4096) : Clear d width where
  words := by
    intro os₁ o os₂ o' hshown x x' how how' hmeet
    have hway := hspaced.way os₂.length rfl hshown how how'
    rw [trail_of_isWord how, zero_add]
    refine hway.imp_right fun hline => ⟨hline.1, ?_⟩
    -- the second word is on the page
    obtain ⟨os₃, hscript⟩ := hshown.script
    have hroom := hshown.room
    have hat : ShownAt d width (os₁ ++ o :: os₂) o' os₃ := by
      refine ⟨by rw [hscript]; simp, hshown.places.2, ?_⟩
      simpa using hroom
    obtain ⟨j, hj⟩ := exists_out hshown.places.2 ⟨columns (os₁ ++ o :: os₂) 0, drops (os₁ ++ o :: os₂) 0⟩
    have hjok := forall_shown_iff.mp (fun i hi => hok i (List.take_subset _ _ hi)) _ _ _ hat j hj
    have hjx := hjok.x
    have hjw := hjok.w
    rw [(out_places hj).x, columns_append, columns_cons] at hjx
    rw [(out_places hj).w] at hjw
    change 0 ≤ o'.left x' ∧ o'.left x' ≤ 1344 + max width 120 at hjx
    omega
  links := by
    intro os₁ o os₂ o' hshown x x' how how' hlink hlink' hmeet
    have hway := hspaced.wayToImage os₂.length rfl hshown how how' hlink'
    rw [trail_of_isWord how, zero_add, lead_of_image hshown.places.2 how', add_zero]
    exact .inl hway

end

section

variable {width : ℤ} {items : List PaintItem} (hok : ∀ i ∈ items, i.Ok width)
  (hpairs : items.Pairwise PaintItem.Precedes) (hlow : ∀ i ∈ items, i.y < 2 ^ 15)

include hok hpairs hlow

/-- Of two items the later one is not higher, also as they are stored. -/
theorem stored_overlaps_iff : items.Pairwise fun i j =>
    (i.stored.Overlaps j.stored ↔ i.stored.SameColumn j.stored ∧ j.y < i.y + i.h) := by
  refine hpairs.imp_of_mem fun {i j} hi hj hp => ?_
  have hle := Precedes.le (hok i hi) hp
  have hiy := stored_y (hok i hi) (hlow i hi)
  have hjy := stored_y (hok j hj) (hlow j hj)
  have hih := stored_h (hok i hi)
  have hjh := stored_h (hok j hj)
  rw [overlaps_iff (by rw [hiy, hjy]; exact hle) (by rw [hjh]; exact (hok j hj).h.1), hiy, hjy, hih]

/-- The words do not overlap where the walk goes down enough, and nowhere else. -/
theorem words_apart_iff : WordsApart (items.map PaintItem.stored) ↔
    items.Pairwise fun i j => i.isWord = true → j.isWord = true → i.stored.SameColumn j.stored →
      i.h ≤ j.y - i.y ∨ j.y - i.y = 0 ∧ j.x + j.w ≤ 32767 := by
  have hover := stored_overlaps_iff hok hpairs hlow
  rw [WordsApart, List.pairwise_map]
  constructor
  · intro happart
    refine (happart.and hover).imp fun {i j} hij hiw hjw hcolumn => .inl ?_
    have habove : ¬ j.y < i.y + i.h := fun h => hij.1 hiw hjw (hij.2.mpr ⟨hcolumn, h⟩)
    omega
  · intro hclear
    refine (hclear.and (hover.and hpairs)).imp_of_mem fun {i j} hi hj hij hiw hjw hoverlap => ?_
    obtain ⟨hcolumn, hbeside⟩ := hij.2.1.mp hoverlap
    rcases hij.1 hiw hjw hcolumn with hdown | ⟨hline, hedge⟩
    · omega
    · exact not_sameColumn (hok i hi) (hok j hj) hij.2.2 hjw (by omega) hedge hcolumn

/-- Nothing behind an image is beside it. -/
theorem image_last {l₁ l₂ : List PaintItem} {k : PaintItem} (hitems : items = l₁ ++ k :: l₂)
    (himage : k.isWord = false) (x : ℤ) : ∀ m ∈ l₂.map PaintItem.stored, m.Hit x k.stored.y = false := by
  intro m hm
  obtain ⟨m, hafter, rfl⟩ := List.mem_map.mp hm
  have hmem : ∀ j ∈ k :: l₂, j ∈ items := fun j hj => by
    rw [hitems]
    exact List.mem_append_right l₁ hj
  have hk := hmem k List.mem_cons_self
  have hm' := hmem m (List.mem_cons_of_mem k hafter)
  have hprecedes : k.Precedes m := by
    rw [hitems] at hpairs
    exact List.rel_of_pairwise_cons (List.pairwise_append.mp hpairs).2.1 hafter
  have hbelow := hprecedes.1
  have hkh := (hok k hk).h
  rw [PaintItem.reach, himage, if_neg Bool.false_ne_true] at hbelow
  rw [Bool.eq_false_iff]
  intro hhit
  have hin := (hit_iff.mp hhit).2.2.1
  rw [stored_y (hok m hm') (hlow m hm'), stored_y (hok k hk) (hlow k hk)] at hin
  omega

/-- In the top row of an image nothing hides it.  If a word that is beside this row leads to its link there,
then this is the link of the image. -/
theorem same_address {d : Document} (hpaint : d.paint = items.map PaintItem.stored) (hlinks : LinksLead d)
    {i k : PaintItem} (hi : i ∈ items) (hk : k ∈ items) (hprecedes : i.Precedes k) (hiw : i.isWord = true)
    (hkw : k.isWord = false) (hil : i.href.len ≠ 0) (hkl : k.href.len ≠ 0)
    (hcolumn : i.stored.SameColumn k.stored) (hbeside : k.y < i.y + i.h) :
    d.bytes k.href = d.bytes i.href := by
  have hle := Precedes.le (hok i hi) hprecedes
  have hiy := stored_y (hok i hi) (hlow i hi)
  have hky := stored_y (hok k hk) (hlow k hk)
  have hih := stored_h (hok i hi)
  have hkh := stored_h (hok k hk)
  have hkpos := (hok k hk).h.1
  obtain ⟨x, hin, hkin⟩ : ∃ x, i.stored.Contains x k.stored.y ∧ k.stored.Contains x k.stored.y :=
    common_point (by omega) (by omega) hcolumn (by omega)
  obtain ⟨l₁, l₂, hsplit⟩ := List.append_of_mem hk
  have hsplit' : d.paint = l₁.map PaintItem.stored ++ k.stored :: l₂.map PaintItem.stored := by
    rw [hpaint, hsplit, List.map_append, List.map_cons]
  have himem : i.stored ∈ d.paint := by
    rw [hpaint]
    exact List.mem_map_of_mem hi
  refine eq_of_take_eq fun cap hcap => ?_
  have hword := hlinks i.stored himem hiw hil x k.stored.y hin 0 cap hcap
  have himage : asterLinkAt d x (k.stored.y - 0) 0 cap = some ((d.bytes k.stored.href).take (cap - 1)) := by
    refine asterLinkAt_eq hsplit' hcap ?_ ?_
    · rw [sub_zero, add_zero]
      exact hit_iff.mpr ⟨hkl, hkin⟩
    · rw [sub_zero, add_zero]
      exact image_last hok hpairs hlow hsplit hkw x
  exact Option.some.inj (himage.symm.trans hword)

omit hok hpairs hlow in
/-- The last item at a point of a link is its word, or an image, which must have the same link. -/
theorem links_lead {d : Document} (happart : WordsApart d.paint)
    (himages : d.paint.Pairwise fun i j => i.isWord = true → j.isWord = false → i.href.len ≠ 0 →
      j.href.len ≠ 0 → i.Overlaps j → d.bytes j.href = d.bytes i.href) : LinksLead d := by
  intro i hi hiw hil x y hin scroll cap hcap
  have hit : i.Hit x (y - scroll + scroll) = true := by
    rw [sub_add_cancel]
    exact hit_iff.mpr ⟨hil, hin⟩
  obtain ⟨l₁, k, l₂, hsplit, hk, hlast⟩ := exists_last_hit hi hit
  obtain ⟨hkl, hkin⟩ := hit_iff.mp hk
  rw [sub_add_cancel] at hkin
  have hsame : d.bytes k.href = d.bytes i.href := by
    rw [WordsApart] at happart
    rw [hsplit] at hi himages happart
    rcases List.mem_append.mp hi with hfirst | hrest
    · have hoverlap : i.Overlaps k := ⟨x, y, hin, hkin⟩
      cases hkw : k.isWord with
      | true =>
        exact absurd hoverlap ((List.pairwise_append.mp happart).2.2 i hfirst k List.mem_cons_self hiw hkw)
      | false =>
        exact (List.pairwise_append.mp himages).2.2 i hfirst k List.mem_cons_self hiw hkw hil hkl hoverlap
    · rcases List.mem_cons.mp hrest with rfl | hafter
      · rfl
      · rw [hlast i hafter] at hit
        cases hit
  rw [asterLinkAt_eq hsplit hcap hk hlast, hsame]

/-- Where the words do not overlap, their links are found where the walk goes down enough in front of each
image with another link, and nowhere else. -/
theorem links_lead_iff {d : Document} (hpaint : d.paint = items.map PaintItem.stored)
    (happart : WordsApart d.paint) : LinksLead d ↔
      items.Pairwise fun i j => i.isWord = true → j.isWord = false → i.href.len ≠ 0 → j.href.len ≠ 0 →
        i.stored.SameColumn j.stored → i.h ≤ j.y - i.y ∨ d.bytes j.href = d.bytes i.href := by
  constructor
  · intro hlinks
    refine hpairs.imp_of_mem fun {i k} hi hk hprecedes hiw hkw hil hkl hcolumn => ?_
    rw [or_iff_not_imp_left]
    intro hbeside
    exact same_address hok hpairs hlow hpaint hlinks hi hk hprecedes hiw hkw hil hkl hcolumn (by omega)
  · intro hclear
    refine links_lead happart ?_
    rw [hpaint, List.pairwise_map]
    refine (hclear.and (stored_overlaps_iff hok hpairs hlow)).imp fun {i j} hij hiw hjw hil hjl hoverlap => ?_
    obtain ⟨hcolumn, hbeside⟩ := hij.2.mp hoverlap
    rcases hij.1 hiw hjw hil hjl hcolumn with hdown | hsame
    · omega
    · exact hsame

end

/-- **When the words of a layout do not overlap.** -/
theorem aster_layout_overlap_iff (d₀ : Document) (h : List UInt8) (width : ℤ)
    (hheight : asterDocumentHeight (asterLayout (asterParseHtml d₀ h).2 width) ≤ 32767) :
    (Readable (asterParseHtml d₀ h).2 width ↔ Clear (asterParseHtml d₀ h).2 width) ∧
      (width ≤ 4096 → Spaced (asterParseHtml d₀ h).2 width → Readable (asterParseHtml d₀ h).2 width) := by
  have horders := layoutScript_ok d₀ h width
  have hok := drawn_ok d₀ h width
  obtain ⟨hpairs, hend⟩ := drawn_precedes d₀ h width
  generalize (asterParseHtml d₀ h).2 = d at *
  obtain ⟨hpaint, hbottom⟩ := layout_paint d width
  have hsub := List.take_sublist asterMaxPaint (drawn d width)
  rw [hbottom] at hheight
  have hlow : ∀ i ∈ (drawn d width).take asterMaxPaint, i.y < 2 ^ 15 := by
    intro i hi
    have hdown := (hend i (hsub.subset hi)).1
    have hreach := reach_nonneg (hok i (hsub.subset hi))
    omega
  have hshown : ∀ i ∈ (drawn d width).take asterMaxPaint, i.Ok width := fun i hi => hok i (hsub.subset hi)
  replace hpairs := hpairs.sublist hsub
  have hwords := words_apart_iff hshown hpairs hlow
  have hlead := links_lead_iff hshown hpairs hlow hpaint
  rw [← hpaint, ← clear_words_iff horders] at hwords
  rw [asterLayout_bytes, ← clear_links_iff horders] at hlead
  have hclear : Readable d width ↔ Clear d width := by
    constructor
    · rintro ⟨happart, hlinks⟩
      exact ⟨hwords.mp happart, (hlead happart).mp hlinks⟩
    · rintro ⟨hclear, hlinks⟩
      have happart := hwords.mpr hclear
      exact ⟨happart, (hlead happart).mpr hlinks⟩
  exact ⟨hclear, fun hwidth hspaced => hclear.mpr (hspaced.clear hok hwidth)⟩

/-- Three lines of words, the first of which is filled, and a block below. -/
def spacedPage : List UInt8 := ascii "one two three four<br>five<div>six"

theorem aster_layout_overlap_iff_spacedPage :
    Readable (asterParseHtml .zero spacedPage).2 120 ∧ Clear (asterParseHtml .zero spacedPage).2 120 := by
  have hheight : asterDocumentHeight (asterLayout (asterParseHtml .zero spacedPage).2 120) ≤ 32767 := by
    decide +kernel
  have hspaced : spacedFrom (layoutScript (asterParseHtml .zero spacedPage).2 120) 0 = true := by
    decide +kernel
  obtain ⟨hiff, henough⟩ := aster_layout_overlap_iff .zero spacedPage 120 hheight
  have hreadable := henough (by decide) (spaced_of_spacedFrom hspaced)
  exact ⟨hreadable, hiff.mp hreadable⟩

/-- Behind the first paragraph the walk goes down by 8, and in front of the second one again. -/
def twoParagraphs : List UInt8 := ascii "<p>a</p><p>b</p>"

/-- The second word begins 16 pixels below the first one, which is 24 high. -/
theorem aster_layout_overlaps : ¬ ∀ (d₀ : Document) (h : List UInt8) (width : ℤ),
    asterDocumentHeight (asterLayout (asterParseHtml d₀ h).2 width) ≤ 32767 →
      Readable (asterParseHtml d₀ h).2 width := by
  intro hall
  have happart := (hall .zero twoParagraphs 320 (by decide +kernel)).1
  have hfalse : ¬ (asterLayout (asterParseHtml .zero twoParagraphs).2 320).paint.Pairwise fun i j =>
      i.isWord = true → j.isWord = true → ¬ (i.Contains 0 24 ∧ j.Contains 0 24) := by
    decide +kernel
  exact hfalse (happart.imp fun hij hi hj hboth => hij hi hj ⟨0, 24, hboth⟩)

end Orion.Aster
