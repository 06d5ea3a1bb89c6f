/-
The fewest digits that read back.

A double stands for every real that rounds to it: an interval around its value,
ends included when the significand is even.  Among the decimals inside that
interval the text of a number uses one on the coarsest decimal grid that reaches
into it, and of two on that grid the nearer.

Everything is exact arithmetic on naturals.  A positive double is `m · 2^q`, and
the interval's ends are written in quarters of `2^q`, so that the one place where
the gap below is half the gap above needs no fraction.  If a grid has any point
inside the interval then one of the value's two neighbours on that grid is inside,
so two tests a grid suffice.
-/

namespace TreeWalk.Shortest

/-- A positive double taken apart: `significand · 2^exponent`. -/
structure Binary where
  significand : Nat
  exponent : Int
  /-- The next smaller double is only half as far away as the next larger one. -/
  narrowBelow : Bool

/-- Takes a positive finite double apart. -/
def Binary.ofFloat (x : Float) : Binary :=
  let bits := x.toBits.toNat
  let fraction : Nat := bits % (1 <<< 52)
  let biased : Nat := (bits >>> 52) % (1 <<< 11)
  if biased = 0 then ⟨fraction, -1074, false⟩
  else ⟨(1 <<< 52) + fraction, (biased : Int) - 1075, fraction = 0 && biased > 1⟩

/-- The number times the given power of ten, or the number itself if the power is negative. -/
def timesPower (a : Nat) (r : Int) : Nat := a * Nat.pow 10 r.toNat

/-- Compares `a · 2^p` with `b · 10^r`. -/
def compareScaled (a : Nat) (p : Int) (b : Nat) (r : Int) : Ordering :=
  compare (timesPower (a <<< p.toNat) (-r)) (timesPower (b <<< (-p).toNat) r)

/-- Whether `d · 10^r` lies in the interval of reals that round to the double. -/
def Binary.covers (x : Binary) (d : Nat) (r : Int) : Bool :=
  let low := 4 * x.significand - (if x.narrowBelow then 1 else 2)
  let high := 4 * x.significand + 2
  let below := compareScaled low (x.exponent - 2) d r
  let above := compareScaled high (x.exponent - 2) d r
  let even := x.significand % 2 = 0
  (below == .lt || (even && below == .eq)) && (above == .gt || (even && above == .eq))

/-- The largest `d` with `d · 10^r` at most the double. -/
def Binary.floorAt (x : Binary) (r : Int) : Nat :=
  timesPower (x.significand <<< x.exponent.toNat) (-r) / timesPower (1 <<< (-x.exponent).toNat) r

/-- The point of the grid of `10^r` that the text uses, if the grid has one; a tie goes to the
even neighbour. -/
def Binary.pointAt (x : Binary) (r : Int) : Option Nat :=
  let d := x.floorAt r
  match x.covers d r, x.covers (d + 1) r with
  | true, true =>
    match compareScaled (2 * x.significand) x.exponent (2 * d + 1) r with
    | .lt => some d
    | .gt => some (d + 1)
    | .eq => some (if d % 2 = 0 then d else d + 1)
  | true, false => some d
  | false, true => some (d + 1)
  | false, false => none

/-- Tries ever finer grids, `steps` of them, from that of `10^r` down. -/
def Binary.search (x : Binary) : Nat → Int → Option (Nat × Int)
  | 0, _ => none
  | steps + 1, r =>
    match x.pointAt r with
    | some d => some (d, r)
    | none => x.search steps (r - 1)

/-- The decimal `d · 10^r` with the fewest digits that reads back as the given positive double;
zero has none.  The largest doubles lie below `10^309`, and `10^-324` is finer than the smallest. -/
def decimal (x : Float) : Option (Nat × Int) :=
  let b := Binary.ofFloat x
  if b.significand = 0 then none else b.search 634 309

/-- Exponents from here on up to `lastPositional` are written without an exponent. -/
def firstPositional : Int := -5

/-- From `10^16` on a number is written with an exponent. -/
def lastPositional : Int := 15

/-- Lays out the digits of `d · 10^r`: positional with at least one decimal, or one digit, the
rest as decimals, and a signed exponent. -/
def layout (d : Nat) (r : Int) : String :=
  let digits := (Nat.repr d).toList
  let lead : Int := r + digits.length - 1
  let zeros (n : Int) := List.replicate n.toNat '0'
  let text :=
    if firstPositional ≤ lead ∧ lead ≤ lastPositional then
      if 0 ≤ r then digits ++ zeros r ++ ['.', '0']
      else if 0 ≤ lead then
        digits.take (lead + 1).toNat ++ '.' :: digits.drop (lead + 1).toNat
      else '0' :: '.' :: zeros (-lead - 1) ++ digits
    else
      let decimals := if digits.length = 1 then [] else '.' :: digits.drop 1
      digits.take 1 ++ decimals ++
        'e' :: (if lead < 0 then '-' else '+') :: (Nat.repr lead.natAbs).toList
  String.ofList text

/-- The text of a double.  Those that are no numbers are written `null`, as they have no other
spelling. -/
def text (x : Float) : String :=
  if x.isNaN || x.isInf then "null"
  else
    let sign := if x.toBits.toNat >>> 63 = 1 then "-" else ""
    match decimal x.abs with
    | some (d, r) => sign ++ layout d r
    | none => sign ++ "0.0"

end TreeWalk.Shortest
