/-
  LoopFree.Decimal.Shortest — the shortest decimal of a binary64 number.

  A finite number is `m * 2^q` for an integer `m`. The reals that round to it form an
  interval around it, with its ends exactly when `m` is even; half as wide below a power
  of two. `shortest m q` is the multiple of a power of ten in that interval with the
  fewest digits, of two such multiples the one nearer to the number, and of two equally
  near the even one. All of it is arithmetic on natural numbers.
-/

namespace LoopFree.Decimal

/-- A binary64 number taken apart. -/
inductive Binary64 where
  | nan
  | infinite (negative : Bool)
  /-- The number `significand * 2^exponent`, with its sign. -/
  | finite (negative : Bool) (significand : Nat) (exponent : Int)
  deriving DecidableEq, Repr

def Binary64.ofFloat (x : Float) : Binary64 :=
  let bits := x.toBits.toNat
  let negative := bits / Nat.pow 2 63 = 1
  let field : Nat := bits / Nat.pow 2 52 % Nat.pow 2 11
  let fraction := bits % Nat.pow 2 52
  if field = Nat.pow 2 11 - 1 then if fraction = 0 then .infinite negative else .nan
  else if field = 0 then .finite negative fraction (-1074)
  else .finite negative (Nat.pow 2 52 + fraction) ((field : Int) - 1075)

/-- The decimal `digits * 10^exponent`. -/
structure Digits where
  digits : Nat
  exponent : Int
  deriving DecidableEq, Repr

/-- The reals that round to a number, in quarters of its last binary place: from `low`
    to `high` around `mid`, ends included when `closed`; a quarter is `2^unit`. -/
structure Interval where
  low : Nat
  mid : Nat
  high : Nat
  unit : Int
  closed : Bool
  deriving DecidableEq, Repr

/-- Below a power of two the neighbour is half as far, unless it is the least exponent. -/
def Interval.around (m : Nat) (q : Int) : Interval where
  low := if m = Nat.pow 2 52 ∧ q ≠ -1074 then 4 * m - 1 else 4 * m - 2
  mid := 4 * m
  high := 4 * m + 2
  unit := q - 2
  closed := m % 2 = 0

/-- The multiple of `10^k` in the interval that is nearest to its middle. -/
def Interval.multiple? (i : Interval) (k : Int) : Option Nat :=
  let up := Nat.pow 2 i.unit.toNat * Nat.pow 10 (-k).toNat
  let down := Nat.pow 2 (-i.unit).toNat * Nat.pow 10 k.toNat
  let inside (c : Nat) : Bool :=
    if i.closed then i.low * up ≤ c * down ∧ c * down ≤ i.high * up
    else i.low * up < c * down ∧ c * down < i.high * up
  let floor := i.mid * up / down
  let below := i.mid * up - floor * down
  let above := (floor + 1) * down - i.mid * up
  match inside floor, inside (floor + 1) with
  | true, true =>
    if below < above ∨ (below = above ∧ floor % 2 = 0) then some floor else some (floor + 1)
  | true, false => some floor
  | false, true => some (floor + 1)
  | false, false => none

/-- The power of ten to start from: no larger one has a multiple in the interval
    (30103/100000 is just above the logarithm of 2). -/
def Interval.topPower (i : Interval) : Int :=
  ((i.high.log2 : Int) + 1 + i.unit) * 30103 / 100000 + 2

/-- Seventeen digits always suffice, so the search never runs past its last power. -/
def shortest (m : Nat) (q : Int) : Digits :=
  let i := Interval.around m q
  let found := (List.range 24).findSome? fun (j : Nat) =>
    (i.multiple? (i.topPower - j)).map fun d => (⟨d, i.topPower - j⟩ : Digits)
  found.getD ⟨0, 0⟩

end LoopFree.Decimal
