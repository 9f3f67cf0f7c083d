import Discretization.Decimal.Layout
import Discretization.Text.Quoted

/-!
# Untyped Values

What a caller may hand over where a setting, a label, a reference or a method is expected. Checks
reject a value of the wrong type with a message that shows the value or names its type.
-/

namespace Discretization

/-- A value of no particular type. -/
inductive Value where
  /-- No value. -/
  | none
  /-- A truth value. -/
  | bool (b : Bool)
  /-- An integer. -/
  | int (n : Int)
  /-- A double. -/
  | real (x : Float)
  /-- A text. -/
  | text (s : String)
  /-- A list of values. -/
  | list (items : List Value)
  /-- Named values, in order. -/
  | record (fields : List (String × Value))
  deriving Inhabited

namespace Value

/-- The name of the value's type. -/
def typeName : Value → String
  | none => "NoneType"
  | bool _ => "bool"
  | int _ => "int"
  | real _ => "float"
  | text _ => "str"
  | list _ => "list"
  | record _ => "dict"

mutual

/-- The value as messages show it. -/
def shown : Value → String
  | none => "None"
  | bool b => if b then "True" else "False"
  | int n => toString n
  | real x => Binary64.text x
  | text s => Text.quoted s
  | list items => "[" ++ shownItems items ++ "]"
  | record fields => "\x7b" ++ shownFields fields ++ "\x7d"

/-- The values of a list, separated by commas. -/
def shownItems : List Value → String
  | [] => ""
  | [item] => item.shown
  | item :: rest => item.shown ++ ", " ++ shownItems rest

/-- The fields of a record, separated by commas. -/
def shownFields : List (String × Value) → String
  | [] => ""
  | [(name, item)] => Text.quoted name ++ ": " ++ item.shown
  | (name, item) :: rest => Text.quoted name ++ ": " ++ item.shown ++ ", " ++ shownFields rest

end

/-- The integer that the value is; truth values count as one and zero. -/
def integer? : Value → Option Int
  | bool b => some (if b then 1 else 0)
  | int n => some n
  | _ => Option.none

/-- Whether a double is exactly the given integer. -/
def isInteger (n : Int) (x : Float) : Bool :=
  match Binary64.classify x with
  | .finite negative mantissa exponent =>
    let r := Binary64.ratio mantissa exponent
    r.num = n.natAbs * r.den && (n = 0 || negative = decide (n < 0))
  | _ => false

mutual

/-- Whether two values are equal: numbers by their exact value, lists item by item, and records name
by name in any order. -/
def equal : Value → Value → Bool
  | none, none => true
  | text s, text t => s == t
  | list items, list others => equalItems items others
  | record fields, record others => fields.length == others.length && equalFields fields others
  | real x, real y => x == y
  | real x, other => other.integer?.any (isInteger · x)
  | value, real y => value.integer?.any (isInteger · y)
  | value, other => value.integer?.any fun n => other.integer? == some n

/-- Whether two lists have equal items. -/
def equalItems : List Value → List Value → Bool
  | [], [] => true
  | item :: rest, other :: others => item.equal other && equalItems rest others
  | _, _ => false

/-- Whether every field has an equal one of its name among others. -/
def equalFields : List (String × Value) → List (String × Value) → Bool
  | [], _ => true
  | (name, item) :: rest, others =>
    (others.lookup name).any (fun other => item.equal other) && equalFields rest others

end

/-- Whether the value counts as true: empty texts, lists and records and all zeros do not. -/
def isTrue : Value → Bool
  | none => false
  | bool b => b
  | int n => n != 0
  | real x => !(x == 0)
  | text s => s != ""
  | list items => !items.isEmpty
  | record fields => !fields.isEmpty

end Value

/-- An argument of an operation that checks the type of what it is given. -/
inductive Argument (β : Type) where
  /-- An argument of the expected type. -/
  | given (value : β)
  /-- A value of another type. -/
  | mistyped (value : Value)

end Discretization
