import Orion.Aster.Layout

/-!
# Addresses (`kernel/vela.c`)

The string functions of the browser and the functions that make an address from what was typed or
from a link.  A C string is the list of its bytes before the zero byte; a buffer of `cap` bytes holds
at most `cap - 1` of them.
-/

namespace Orion.Vela

open Orion.Aster (ci cstr)

def velaUrlCap : ℕ := 256

def velaStatusCap : ℕ := 160

/-! ## Strings -/

theorem cstr_eq_self {u : List UInt8} (h : 0 ∉ u) : cstr u = u := by
  refine List.takeWhile_eq_self_iff.mpr fun c hc => decide_eq_true ?_
  rintro rfl
  exact h hc

/-- `cp(d,c,s)`. -/
def cp (cap : ℕ) (s : List UInt8) : List UInt8 := (cstr s).take (cap - 1)

/-- `cat(d,c,s)`. -/
def cat (cap : ℕ) (d s : List UInt8) : List UInt8 := d ++ (cstr s).take (cap - 1 - d.length)

/-- The text from the first match of `n` on. -/
def findci (n : List UInt8) : List UInt8 → Option (List UInt8)
  | [] => none
  | c :: s => if ci (c :: s) n then some (c :: s) else findci n s

/-! ## `canon` -/

/-- The address that is opened, or the message of the status line; `tls` says that there is a TLS
provider. -/
def canon (tls : Bool) (u : List UInt8) : Except (List UInt8) (List UInt8) :=
  let u := u.dropWhile isBlank
  if u = [] then .error (ascii "Enter an HTTP/HTTPS address")
  else if ci u (ascii "https://") then
    if tls then .ok (cp velaUrlCap u) else .error (ascii "HTTPS needs an Orion TLS provider")
  else if ci u (ascii "http://") then .ok (cp velaUrlCap u)
  else if ci u (ascii "file:") ∨ ci u (ascii "data:") ∨ ci u (ascii "mailto:") then
    .error (ascii "Unsupported URL scheme")
  else if ci u (ascii "javascript:") then .error (ascii "Use link activation for JavaScript URLs")
  else .ok (cat velaUrlCap (cp velaUrlCap (ascii "http://")) u)

/-! ## `resolve` -/

/-- The origin of an address, or its directory. -/
def origin (b : List UInt8) (dir : Bool) : Option (List UInt8) :=
  if ci b (ascii "http") = false then none
  else
    match findci (ascii "://") b with
    | none => none
    | some p =>
      match (p.drop 3).dropWhile (· ≠ 47) with
      | [] =>
        let out := cp velaUrlCap b
        some (if dir then cat velaUrlCap out (ascii "/") else out)
      | s => some ((if dir then b.rdropWhile (· ≠ 47) else b.take (b.length - s.length)).take
          (velaUrlCap - 1))

/-- The address of a reference in the document with address `b`; an error has the message, if the
status line is changed. -/
def resolve (tls : Bool) (b r : List UInt8) : Except (Option (List UInt8)) (List UInt8) :=
  let base (dir : Bool) :=
    match origin b dir with
    | some out => .ok (cat velaUrlCap out r)
    | none => (canon tls r).mapError some
  if r = [] then .error none
  else if ci r (ascii "http://") ∨ ci r (ascii "https://") then (canon tls r).mapError some
  else if ci r (ascii "javascript:") then .ok (cp velaUrlCap r)
  else if r.head? = some 35 then
    let out := cp velaUrlCap b
    if out = [] then .error none else .ok out
  else if r.head? = some 47 ∧ r[1]? = some 47 then
    .ok (cat velaUrlCap (cp velaUrlCap (ascii (if ci b (ascii "https://") then "https:" else "http:"))) r)
  else base (r.head? ≠ some 47)

end Orion.Vela
