import Discretization.Decimal.Shortest

/-!
# Layout of Decimal Numbers

Which digits a number has is decided elsewhere; here they are laid out as text. A `Layout` records
the decisions of one format, and `Layout.render` applies them. Three formats are in use: the exact
text of a number, the six-digit signed text of a coefficient, and a fixed number of places.
-/

namespace Discretization

/-- The decisions of one number format. -/
structure Layout where
  /-- The least exponent of the leading digit that is written without an exponent part. -/
  positionalFrom : Int
  /-- Exponents of the leading digit below this are written without an exponent part. -/
  positionalBelow : Int
  /-- Whether a whole number written without an exponent part ends in `.0`. -/
  wholeMark : Bool
  /-- Whether a number without a minus sign gets a plus sign. -/
  plusSign : Bool
  deriving Repr

namespace Layout

/-- The exact text of a number: positional from `10 ^ -4` to below `10 ^ 16`, with at least one
place. -/
def exact : Layout := ⟨-4, 16, true, false⟩

/-- The text of a coefficient: positional from `10 ^ -4` to below `10 ^ 6`, always signed. -/
def coefficient : Layout := ⟨-4, 6, false, true⟩

/-- The sign in front of a number. -/
def sign (layout : Layout) (negative : Bool) : String :=
  if negative then "-" else if layout.plusSign then "+" else ""

/-- `n` in decimal, padded with zeros in front to at least `width` digits. -/
def padded (width n : Nat) : String :=
  let digits := toString n
  String.ofList (List.replicate (width - digits.length) '0') ++ digits

/-- Digits with a point after the first `whole` of them; nothing follows the point when no digit is
left. -/
def pointAfter (whole : Nat) (digits : List Char) : String :=
  let places := digits.drop whole
  String.ofList (digits.take whole) ++ if places.isEmpty then "" else "." ++ String.ofList places

/-- The unsigned text of a decimal that has no trailing zeros. -/
def unsigned (layout : Layout) (d : Decimal) : String :=
  let digits := (toString d.digits).toList
  let leading : Int := if d.digits = 0 then 0 else d.exponent + digits.length - 1
  if layout.positionalFrom ≤ leading ∧ leading < layout.positionalBelow then
    if leading < 0 then
      "0." ++ String.ofList (List.replicate (-leading - 1).toNat '0' ++ digits)
    else if digits.length ≤ leading.toNat + 1 then
      String.ofList (digits ++ List.replicate (leading.toNat + 1 - digits.length) '0')
        ++ if layout.wholeMark then ".0" else ""
    else pointAfter (leading.toNat + 1) digits
  else
    pointAfter 1 digits ++ (if leading < 0 then "e-" else "e+") ++ padded 2 leading.natAbs

/-- A signed number laid out as text; `digits` chooses the decimal of a positive ratio with the
given magnitude bits. -/
def render (layout : Layout) (digits : Nat → Ratio → Decimal) (x : Float) : String :=
  match Binary64.classify x with
  | .nan => (if layout.plusSign then "+" else "") ++ "nan"
  | .infinite negative => layout.sign negative ++ "inf"
  | .finite negative mantissa exponent =>
    let decimal :=
      if mantissa = 0 then ⟨0, 0⟩
      else digits (x.toBits.toNat % Binary64.signBit) (Binary64.ratio mantissa exponent)
    layout.sign negative ++ layout.unsigned decimal

end Layout

namespace Binary64

/-- The text of a double: the shortest decimal that reads back. -/
def text (x : Float) : String :=
  Layout.exact.render shortest x

/-- The text of a double as a coefficient: six significant digits, with its sign. -/
def coefficientText (x : Float) : String :=
  Layout.coefficient.render (fun _ r => (Decimal.nearest r 6).strip) x

/-- The text of a double with a fixed number of places; a zero is written without a minus sign. -/
def fixedText (places : Nat) (x : Float) : String :=
  match classify x with
  | .nan => "nan"
  | .infinite negative => if negative then "-inf" else "inf"
  | .finite negative mantissa exponent =>
    let digits := (Decimal.withPlaces (ratio mantissa exponent) places).digits
    let one := Nat.pow 10 places
    (if negative && digits != 0 then "-" else "") ++
      toString (digits / one) ++
      (if places = 0 then "" else "." ++ Layout.padded places (digits % one))

end Binary64

end Discretization
