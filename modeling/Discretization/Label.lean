import Discretization.Text.Integer

/-!
# Support Labels

Every stored support carries labels that say why it is there. A label has a kind, may belong to one
measure, and may be internal, which hides its supports from public queries. Some labels are
*selectors*: they select supports in queries and are never stored.
-/

namespace Discretization

/-- The families of labels. -/
inductive LabelKind where
  /-- Selects every support. -/
  | all
  /-- Selects the supports with a label that is not internal. -/
  | visible
  /-- Selects the supports with an internal label. -/
  | hidden
  /-- Selects the sampled supports. -/
  | sample
  /-- Supports given by the user. -/
  | userDefined
  /-- Supports on a uniform grid. -/
  | uniformGrid
  /-- Monte-Carlo samples. -/
  | monteCarlo
  /-- Samples that follow a distribution. -/
  | weightedSample
  /-- Supports of a collection whose parts use different methods. -/
  | mixture
  /-- Bounds of a measure. -/
  | measureBound
  /-- Supports of one measure; without a measure it selects those of all measures. -/
  | uniqueMeasure
  /-- Nodes of a collocation method. -/
  | collocation
  /-- The label of parameters without derived supports. -/
  | noLabel
  deriving Repr, DecidableEq

namespace LabelKind

/-- All kinds, in the order of their declaration. -/
def kinds : List LabelKind :=
  [all, visible, hidden, sample, userDefined, uniformGrid, monteCarlo, weightedSample, mixture,
    measureBound, uniqueMeasure, collocation, noLabel]

/-- The words of the kind's name. -/
def words : LabelKind → List String
  | all => ["ALL"]
  | visible => ["PUBLIC"]
  | hidden => ["INTERNAL"]
  | sample => ["SAMPLE"]
  | userDefined => ["USER", "DEFINED"]
  | uniformGrid => ["UNIFORM", "GRID"]
  | monteCarlo => ["MC", "SAMPLE"]
  | weightedSample => ["WEIGHTED", "SAMPLE"]
  | mixture => ["MIXTURE"]
  | measureBound => ["MEASURE", "BOUND"]
  | uniqueMeasure => ["UNIQUE", "MEASURE"]
  | collocation => ["COLLOCATION"]
  | noLabel => ["NO", "LABEL"]

/-- The kind's name. -/
def name (kind : LabelKind) : String :=
  "_".intercalate kind.words

/-- The kind with the given name. -/
def ofName? (name : String) : Option LabelKind :=
  kinds.find? fun kind => kind.name == name

/-- The kind's name as messages show it: its words, capitalised and joined. -/
def title (kind : LabelKind) : String :=
  String.join (kind.words.map fun word =>
    String.ofList (match word.toList with
      | [] => []
      | c :: rest => c :: rest.map Char.toLower))

/-- Whether labels of the kind only select supports. -/
def selects : LabelKind → Bool
  | all | visible | hidden | sample => true
  | _ => false

/-- Whether labels of the kind mark samples. -/
def isSample : LabelKind → Bool
  | monteCarlo | weightedSample => true
  | _ => false

end LabelKind

/-- A label of supports. -/
structure Label where
  /-- The family of the label. -/
  kind : LabelKind
  /-- The measure that owns the label, if one does. -/
  measure : Option Int := none
  /-- Whether supports that carry only internal labels are hidden from public queries. -/
  internal : Bool := false
  deriving Repr, DecidableEq

namespace Label

/-- The selector of every support. -/
def all : Label := { kind := .all }

/-- The selector of the supports with a label that is not internal. -/
def visible : Label := { kind := .visible }

/-- The selector of the supports with an internal label. -/
def hidden : Label := { kind := .hidden, internal := true }

/-- Supports given by the user. -/
def userDefined : Label := { kind := .userDefined }

/-- Supports on a uniform grid. -/
def uniformGrid : Label := { kind := .uniformGrid }

/-- Monte-Carlo samples. -/
def monteCarlo : Label := { kind := .monteCarlo }

/-- Samples that follow a distribution. -/
def weightedSample : Label := { kind := .weightedSample }

/-- Supports of a collection whose parts use different methods. -/
def mixture : Label := { kind := .mixture }

/-- Nodes of a collocation method. -/
def collocation : Label := { kind := .collocation, internal := true }

/-- The label of parameters without derived supports. -/
def noLabel : Label := { kind := .noLabel, internal := true }

/-- The label of one measure's own supports. -/
def ofMeasure (id : Int) : Label := { kind := .uniqueMeasure, measure := some id }

/-- Whether the label selects supports and cannot be stored. -/
def isSelector (label : Label) : Bool :=
  label.kind.selects || (label.kind == .uniqueMeasure && label.measure.isNone)

/-- The label as messages show it. -/
def text (label : Label) : String :=
  match label.kind, label.measure with
  | .uniqueMeasure, some id => "UniqueMeasure[" ++ toString id ++ "]"
  | kind, _ => kind.title

/-- The label in full: its kind, its measure in brackets, and a mark if it is internal. -/
def code (label : Label) : String :=
  label.kind.name ++
    (match label.measure with
      | some id => "[" ++ toString id ++ "]"
      | none => "") ++
    (if label.internal then "!" else "")

/-- The label with the given code. -/
def ofCode? (code : String) : Option Label := do
  let cs := code.toList
  let internal := cs.getLast? = some '!'
  let cs := if internal then cs.dropLast else cs
  let (kindName, owner) := cs.span (· ≠ '[')
  let kind ← LabelKind.ofName? (String.ofList kindName)
  let measure := Text.integer? (String.ofList ((owner.drop 1).dropLast))
  return { kind, measure, internal }

/-- Whether a selector covers a stored label. A label that is no selector covers only itself. -/
def covers (selector label : Label) : Bool :=
  match selector.kind, selector.measure with
  | .all, _ => true
  | .visible, _ => !label.internal
  | .hidden, _ => label.internal
  | .sample, _ => label.kind.isSample
  | .uniqueMeasure, none => label.kind == .uniqueMeasure
  | _, _ => label == selector

/-- Whether a selector covers at least one of the labels. -/
def coversAny (selector : Label) (labels : List Label) : Bool :=
  labels.any selector.covers

/-- Whether one of the selectors covers the label. -/
def coveredBy (selectors : List Label) (label : Label) : Bool :=
  selectors.any (·.covers label)

/-- Whether every label is covered by one of the selectors. -/
def allCovered (selectors labels : List Label) : Bool :=
  labels.all (coveredBy selectors)

/-- Adds a label to a set of labels, kept as a list without repetitions. -/
def insert (label : Label) (labels : List Label) : List Label :=
  if label ∈ labels then labels else labels ++ [label]

end Label

end Discretization
