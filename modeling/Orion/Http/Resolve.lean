import Orion.Http.Address

/-!
# Redirect targets before they are cut

`resolve_redirect` builds its result in a buffer and cuts what does not fit.  Here is the whole text
(`resolveFull`); the buffer holds the beginning of it (`resolveRedirect_eq_url_iff`).
-/

namespace Orion.Http

/-- Scheme, host and port of a base. -/
def originText (base : Url) : List UInt8 :=
  schemeText base.secure ++ base.host ++ portSuffix base.secure base.port

/-- The URL that a `Location` means; `none` if it is refused. -/
def resolveFull (base loc : List UInt8) : Option (List UInt8) :=
  if loc = [] then none
  else
    match parseUrl base with
    | none => none
    | some url =>
      if startsCi loc (ascii "https://") then some loc
      else if startsCi loc (ascii "http://") then if url.secure then none else some loc
      else if (ascii "//").isPrefixOf loc then
        some (ascii (if url.secure then "https:" else "http:") ++ loc)
      else if 58 ∈ loc.takeWhile (fun c => c ≠ 47 ∧ c ≠ 63 ∧ c ≠ 35) then none
      else if (ascii "/").isPrefixOf loc then some (originText url ++ loc)
      else some (originText url ++ dirOf url.path ++ loc)

theorem sappend_take (cap : ℕ) (full s : List UInt8) :
    sappend cap (full.take (cap - 1)) s = (full ++ s).take (cap - 1) := by
  rw [sappend, List.take_append, List.length_take]
  congr 2
  omega

theorem originOf_eq_take (cap : ℕ) (url : Url) : originOf cap url = (originText url).take (cap - 1) := by
  have hport : (if url.secure = true then 443 else 80) = defaultPort url.secure := rfl
  unfold originOf originText portSuffix
  simp only [scopy, hport]
  rw [sappend_take]
  split
  · rw [sappend_take, sappend_take, List.append_assoc ]
    rfl
  · rw [List.append_nil]
    rfl

/-- **The result of `resolve_redirect` is the beginning of the whole URL.** -/
theorem resolveRedirect_eq_url_iff {base loc next : List UInt8} {cap : ℕ} :
    resolveRedirect base loc cap = .url next ↔
      9 ≤ cap ∧ ∃ full, resolveFull base loc = some full ∧ next = full.take (cap - 1) := by
  by_cases hcap : cap < 9
  · simp [resolveRedirect, hcap]
  have hle : 9 ≤ cap := not_lt.mp hcap
  unfold resolveRedirect resolveFull
  by_cases hloc : loc = []
  · simp [hloc]
  rw [if_neg (by simp [hloc, hcap]), if_neg hloc]
  cases parseUrl base with
  | none => simp
  | some url =>
    simp only [scopy, sappend_take, originOf_eq_take]
    split_ifs <;> simp [hle, eq_comm]

/-! ## The directory -/

/-- Not the start of a query or fragment. -/
def plainChar (c : UInt8) : Bool := c ≠ 63 ∧ c ≠ 35

/-- The directory reaches to the last slash before a query or fragment. -/
theorem dirOf_of_slash {path : List UInt8} (hlen : path.length < pathCap)
    (h : 47 ∈ path.takeWhile plainChar) :
    dirOf path = (path.takeWhile plainChar).rdropWhile (· ≠ 47) := by
  have hle := (List.takeWhile_sublist plainChar (l := path)).length_le
  have hlt : (path.takeWhile plainChar).reverse.findIdx (· = 47) < (path.takeWhile plainChar).length := by
    rw [← List.length_reverse]
    exact List.findIdx_lt_length_of_exists ⟨47, by simpa using h, by simp⟩
  have htake : ∀ n ≤ (path.takeWhile plainChar).length,
      path.take n = (path.takeWhile plainChar).take n := by
    intro n hn
    conv_lhs => rw [← @List.takeWhile_append_dropWhile _ plainChar path]
    rw [List.take_append_of_le_length hn]
  have hfind : (path.takeWhile plainChar).reverse.findIdx (fun c => ! decide (c ≠ 47))
      = (path.takeWhile plainChar).reverse.findIdx (· = 47) := by
    congr 1
    funext c
    simp
  have hcap : pathCap = 160 := rfl
  show path.take (min ((if 47 ∈ path.takeWhile plainChar then (path.takeWhile plainChar).length - 1 -
    (path.takeWhile plainChar).reverse.findIdx (· = 47) else 0) + 1) (pathCap - 1)) = _
  rw [if_pos h, htake _ (by omega), List.rdropWhile, List.dropWhile_eq_drop_findIdx_not, hfind,
    List.reverse_drop, List.reverse_reverse, List.length_reverse]
  congr 1
  omega

/-- Without a slash there, it is the first character. -/
theorem dirOf_of_no_slash {path : List UInt8} (h : 47 ∉ path.takeWhile plainChar) :
    dirOf path = path.take 1 := by
  show path.take (min ((if 47 ∈ path.takeWhile plainChar then _ else 0) + 1) (pathCap - 1)) = _
  rw [if_neg h]
  rfl

end Orion.Http
