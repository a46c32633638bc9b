/-!
# Shortest decimal text of a binary fraction

A decimal number is read as the nearest number with a 53-bit significand, and written with the
fewest digits that read back as that number. Positional notation is used from `1e-4` up to, and
without, `1e16`. All arithmetic is exact, on quotients of natural numbers.
-/

namespace Combinatory.Text

/-- The decimal number `± digits · 10 ^ exponent`. -/
structure Decimal where
  negative : Bool
  digits : Nat
  exponent : Int
deriving DecidableEq, Repr

namespace Shortest

/-- The integer nearest to `num / den`; a half goes to the even neighbour. -/
def roundDiv (num den : Nat) : Nat :=
  let q := num / den
  let r := num % den
  if 2 * r > den || (2 * r = den && q % 2 = 1) then q + 1 else q

/-- The quotient `num / den` times `base ^ e`, as numerator and denominator. -/
def scale (base num den : Nat) (e : Int) : Nat × Nat :=
  if 0 ≤ e then (num * Nat.pow base e.toNat, den)
  else (num, den * Nat.pow base (-e).toNat)

/-- The least significand of full length. -/
def fullSignificand : Nat := 4503599627370496

/-- The significand `m` and exponent `q` of the number `m · 2 ^ q` nearest to `num / den`. -/
def nearest (num den : Nat) : Nat × Int :=
  let e : Int := (Nat.log2 num : Int) - (Nat.log2 den : Int)
  let low := max (e - 53) (-1074)
  let (n, d) := scale 2 num den (-low)
  let q := if n / d ≥ 2 * fullSignificand then low + 1 else low
  let (n, d) := scale 2 num den (-q)
  let m := roundDiv n d
  if m = 2 * fullSignificand then (fullSignificand, q + 1) else (m, q)

/-- The number of digits before the point: `10 ^ (d - 1) ≤ num / den < 10 ^ d`. -/
def magnitude (num den : Nat) : Int :=
  let d : Int := ((toString num).length : Int) - ((toString den).length : Int)
  let (n, m) := scale 10 num den (-d)
  if n ≥ m then d + 1 else d

/-- Whether the fraction `n / d` reads back as `m · 2 ^ q`. -/
def readsBack (m : Nat) (q : Int) (n d : Nat) : Bool :=
  let below : Nat × Nat :=
    if m = fullSignificand && q > -1074 then scale 2 (4 * m - 1) 1 (q - 2)
    else scale 2 (2 * m - 1) 1 (q - 1)
  let above : Nat × Nat := scale 2 (2 * m + 1) 1 (q - 1)
  let left := below.1 * d
  let right := above.1 * d
  if m % 2 = 0 then left ≤ n * below.2 && n * above.2 ≤ right
  else left < n * below.2 && n * above.2 < right

/-- The digits, as a number `c`, and the power `k` of ten of the shortest decimal `c · 10 ^ k` that
reads back as `m · 2 ^ q`; of two candidates the nearer one. -/
def digits (m : Nat) (q : Int) : Nat × Int :=
  let (num, den) := scale 2 m 1 q
  let d := magnitude num den
  let attempt (n : Nat) : Option (Nat × Int) :=
    let k := d - n
    let (a, b) := scale 10 num den (-k)
    let c := a / b
    let fits (c : Nat) : Bool :=
      let (x, y) := scale 10 c 1 k
      readsBack m q x y
    match fits c && c != 0, fits (c + 1) with
    | true, true => if 2 * (a % b) > b || (2 * (a % b) = b && c % 2 = 1)
        then some (c + 1, k) else some (c, k)
    | true, false => some (c, k)
    | false, true => some (c + 1, k)
    | false, false => none
  ((List.range 17).findSome? fun i => attempt (i + 1)).getD (m, 0)

end Shortest

namespace Decimal

private def dropZeros (c : Nat) (k : Int) : Nat → Nat × Int
  | 0 => (c, k)
  | fuel + 1 => if c % 10 = 0 && c ≠ 0 then dropZeros (c / 10) (k + 1) fuel else (c, k)

/-- The text of the digits `c` at the power `k` of ten. -/
private def layout (c : Nat) (k : Int) : String :=
  let s := toString c
  let point : Int := s.length + k
  if -4 < point && point ≤ 16 then
    if k ≥ 0 then s ++ String.ofList (List.replicate k.toNat '0') ++ ".0"
    else if point > 0 then
      String.ofList (s.toList.take point.toNat) ++ "." ++ String.ofList (s.toList.drop point.toNat)
    else "0." ++ String.ofList (List.replicate (-point).toNat '0') ++ s
  else
    let e := point - 1
    let front := match s.toList with
      | [] => ""
      | [c] => String.singleton c
      | c :: cs => String.ofList (c :: '.' :: cs)
    let size := toString e.natAbs
    let size := if size.length < 2 then "0" ++ size else size
    front ++ "e" ++ (if e < 0 then "-" else "+") ++ size

/-- The significand `m` and exponent `q` of the binary fraction `m · 2 ^ q` nearest to the magnitude
of a decimal; none if the decimal lies beyond all numbers. -/
def fraction? (d : Decimal) : Option (Nat × Int) :=
  let length : Int := (toString d.digits).length + d.exponent
  if d.digits = 0 || length < -400 then some (0, 0)
  else if length > 400 then none
  else
    let (num, den) := Shortest.scale 10 d.digits 1 d.exponent
    let (m, q) := Shortest.nearest num den
    if q > 971 then none else some (m, q)

/-- Whether a decimal lies beyond all numbers. -/
def isInfinite (d : Decimal) : Bool := d.fraction?.isNone

/-- The shortest text that reads back as the same binary fraction. -/
def text (d : Decimal) : String :=
  let sign := if d.negative then "-" else ""
  match d.fraction? with
  | none => sign ++ "inf"
  | some (0, _) => sign ++ "0.0"
  | some (m, q) =>
    let (c, k) := Shortest.digits m q
    let (c, k) := dropZeros c k 20
    sign ++ layout c k

/-- The binary fraction nearest to a decimal, as a decimal with all its digits; none if the decimal
lies beyond all numbers. -/
def rounded? (d : Decimal) : Option Decimal :=
  d.fraction?.map fun (m, q) =>
    if 0 ≤ q then ⟨d.negative, m * Nat.pow 2 q.toNat, 0⟩
    else ⟨d.negative, m * Nat.pow 5 (-q).toNat, q⟩

end Decimal

end Combinatory.Text
