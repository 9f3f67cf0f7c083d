import Discretization.Error
import Discretization.Journal
import Discretization.Text.Integer

/-!
# Settings

Defaults for what a caller leaves open: how many supports are generated, to how many significant
digits, and whether finite names show support values. A setting of the process environment comes
first, then a preference, then a constant. Environment settings that make no sense are ignored with
a log record.
-/

namespace Discretization

/-- The settings of the process environment. -/
inductive EnvironmentSetting where
  /-- The number of supports generated by default. -/
  | supportCount
  /-- The significant digits of supports. -/
  | supportDigits
  /-- Whether finite names show support values. -/
  | verboseNaming
  /-- The seed of the shared random source. -/
  | seed
  deriving Repr, DecidableEq

namespace EnvironmentSetting

/-- All settings. -/
def settings : List EnvironmentSetting := [supportCount, supportDigits, verboseNaming, seed]

/-- The short name of a setting. -/
def shortName : EnvironmentSetting → String
  | supportCount => "NUM_SUPPORTS"
  | supportDigits => "SIG_DIGITS"
  | verboseNaming => "VERBOSE_NAMING"
  | seed => "SEED"

/-- The name of a setting in the process environment. -/
def name (setting : EnvironmentSetting) : String :=
  "INFTRANS_" ++ setting.shortName

/-- The setting with the given short name. -/
def ofName? (shortName : String) : Option EnvironmentSetting :=
  settings.find? fun setting => setting.shortName == shortName

end EnvironmentSetting

/-- Environment settings and preferences. -/
structure Settings where
  /-- The texts of the environment settings that are set. -/
  environment : List (EnvironmentSetting × String) := []
  /-- The preferred number of supports. -/
  count : Option Int := none
  /-- The preferred number of significant digits. -/
  digits : Option Int := none
  /-- Whether names should show support values. -/
  verbose : Option Bool := none
  deriving Repr

namespace Settings

/-- The number of supports generated when nothing else is said. -/
def standardCount : Int := 10

/-- The significant digits when nothing else is said. -/
def standardDigits : Int := 12

/-- The text of an environment setting; one that is not set is empty. -/
def raw (s : Settings) (setting : EnvironmentSetting) : String :=
  ((s.environment.find? (·.1 = setting)).map (·.2)).getD ""

/-- Sets an environment setting, or unsets it. -/
def setEnvironment (s : Settings) (setting : EnvironmentSetting) (value : Option String) :
    Settings :=
  let others := s.environment.filter (·.1 ≠ setting)
  { s with environment := match value with
      | some text => (setting, text) :: others
      | none => others }

/-- A preference that must be a positive integer; no value clears it. -/
def preference? {α : Type} (setting : String) : Value → Except (Error α) (Option Int)
  | .none => pure none
  | .int n => if n < 1 then throw (.notPositive setting (.int n)) else pure (some n)
  | value => throw (.notPositive setting value)

/-- Sets the preferred number of supports. -/
def setCount {α : Type} (s : Settings) (value : Value) : Except (Error α) Settings := do
  return { s with count := ← preference? "num_supports" value }

/-- Sets the preferred number of significant digits. -/
def setDigits {α : Type} (s : Settings) (value : Value) : Except (Error α) Settings := do
  return { s with digits := ← preference? "sig_digits" value }

/-- Sets whether names should show support values; no value clears the preference. -/
def setVerbose (s : Settings) (value : Value) : Settings :=
  { s with verbose := match value with
      | .none => none
      | value => some value.isTrue }

/-- Clears all preferences. -/
def clearPreferences (s : Settings) : Settings :=
  { s with count := none, digits := none, verbose := none }

/-- The positive integer that an environment setting holds, or the record about why it is
ignored. -/
def positive? (s : Settings) (setting : EnvironmentSetting) : Option Int × List LogRecord :=
  let raw := Text.trim (s.raw setting)
  if raw.isEmpty then (none, [])
  else match Text.integer? raw with
    | none => (none, [.notInteger setting.name raw])
    | some n => if n < 1 then (none, [.notPositive setting.name raw]) else (some n, [])

/-- A number from the environment, else from the preference, else the constant, with the records
about what was ignored. -/
def resolve (s : Settings) (setting : EnvironmentSetting) (preference : Option Int)
    (standard : Int) : Int × List LogRecord :=
  let (number, records) := s.positive? setting
  ((number.orElse fun _ => preference).getD standard, records)

/-- The number of supports to generate. -/
def defaultCount (s : Settings) : Int × List LogRecord :=
  s.resolve .supportCount s.count standardCount

/-- The significant digits to round to. -/
def defaultDigits (s : Settings) : Int × List LogRecord :=
  s.resolve .supportDigits s.digits standardDigits

/-- Whether names show support values. -/
def defaultVerbose (s : Settings) : Bool :=
  let raw := String.ofList ((s.raw .verboseNaming).toList.map Char.toLower)
  if raw ∈ ["1", "true", "yes"] then true
  else if raw ∈ ["0", "false", "no"] then false
  else s.verbose.getD false

/-- The seed that the environment gives for the shared random source, if it gives one. -/
def seed? {α : Type} (s : Settings) : Except (Error α) (Option Nat) := do
  let raw := Text.trim (s.raw .seed)
  if Text.looksIntegral raw then
    match Text.integer? raw with
    | some (.ofNat n) => return some n
    | _ => throw .unusableSeed
  else return none

end Settings

end Discretization
