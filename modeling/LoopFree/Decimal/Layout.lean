import LoopFree.Decimal.Shortest

/-
  LoopFree.Decimal.Layout — how numbers are written.

  `Layout` lists the decisions of a number format; `Layout.coefficient` is the one of
  matrices and bounds: positional from 0.0001 up to below 10^16, always with a point, and
  otherwise one digit before the point and an exponent of a sign and at least two digits.
  `Layout.value`, for what is computed, differs only in writing no sign before a zero.
-/

namespace LoopFree.Decimal

structure Layout where
  /-- Exponents of the first digit that are written positionally, from and up to below. -/
  positionalFrom : Int
  positionalBelow : Int
  exponentDigits : Nat
  nan : String
  infinity : String
  signedZero : Bool
  deriving DecidableEq, Repr

def Layout.coefficient : Layout := ⟨-4, 16, 2, "nan", "inf", true⟩

def Layout.value : Layout := { Layout.coefficient with signedZero := false }

def zeros (n : Nat) : String := String.ofList (List.replicate n '0')

/-- The digits with a point after the first `whole` of them. -/
def withPoint (digits : List Char) (whole : Nat) : String :=
  String.ofList (digits.take whole) ++ "." ++
    (if digits.length ≤ whole then "0" else String.ofList (digits.drop whole))

/-- The exponent of the first digit is `e`. -/
def positional (digits : List Char) (e : Int) : String :=
  if e < 0 then "0." ++ zeros (-e - 1).toNat ++ String.ofList digits
  else withPoint (digits ++ List.replicate (e.toNat + 1 - digits.length) '0') (e.toNat + 1)

def Layout.scientific (l : Layout) (digits : List Char) (e : Int) : String :=
  let mantissa := match digits with
    | [d] => String.singleton d
    | _ => withPoint digits 1
  let power := toString e.natAbs
  mantissa ++ (if e < 0 then "e-" else "e+") ++ zeros (l.exponentDigits - power.length) ++ power

def Layout.magnitude (l : Layout) (d : Digits) : String :=
  let digits := Nat.toDigits 10 d.digits
  let e := d.exponent + digits.length - 1
  if l.positionalFrom ≤ e ∧ e < l.positionalBelow then positional digits e else l.scientific digits e

def Layout.write (l : Layout) (x : Float) : String :=
  let sign (negative : Bool) := if negative then "-" else ""
  match Binary64.ofFloat x with
  | .nan => l.nan
  | .infinite negative => sign negative ++ l.infinity
  | .finite negative 0 _ => sign (negative && l.signedZero) ++ "0.0"
  | .finite negative m q => sign negative ++ l.magnitude (shortest m q)

end LoopFree.Decimal
