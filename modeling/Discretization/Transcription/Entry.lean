import Discretization.Error
import Discretization.SupportMap

/-!
# Transcription Entries

What a transcription made of one object: the supports at which the object was transcribed, its keys,
each with the finite counterpart made there. The `i`-th counterpart belongs to the `i`-th key. Keys
are lists of numbers, or of coordinates while the transcription is built.

Queries select keys by a label: a key matches when each of its values carried a matching label at
the time of the transcription. Their answers are remembered per label until the next key is added.
-/

namespace Discretization

/-- Supports of an object: plain values if it has one parameter, tuples otherwise. -/
inductive SupportList (α : Type) where
  /-- Values of the only parameter. -/
  | points (values : List α)
  /-- Tuples with one value per parameter. -/
  | tuples (keys : List (List α))
  deriving Repr

/-- The parameters of a model with their supports and labels at the time of a transcription. -/
abbrev Snapshot (α : Type) := List (Ref × List (Support α))

namespace Snapshot

variable {α : Type} [Scalar α]

/-- The parameters, in the order of the model. -/
def parameters (snapshot : Snapshot α) : List Ref :=
  snapshot.map (·.1)

/-- The supports of a parameter with their labels. -/
def supports? (snapshot : Snapshot α) (parameter : Ref) : Option (List (Support α)) :=
  (snapshot.find? (·.1 = parameter)).map (·.2)

/-- The support values of a parameter, which must be among those of the snapshot. -/
def values (snapshot : Snapshot α) (parameter : Ref) : Except (Error α) (List α) :=
  match snapshot.supports? parameter with
  | some supports => pure (supports.map (·.value))
  | none => throw .notInData

/-- The labels that a value carried among the given supports. Of equal values the last one counts; a
value that was not stored carried no labels. -/
def labelsAt (supports : List (Support α)) (value : α) : List Label :=
  ((supports.reverse.find? (·.value == value)).map (·.labels)).getD []

/-- The supports whose labels count for a parameter: the last that the snapshot gives for it. -/
def labelled? (snapshot : Snapshot α) (parameter : Ref) : Option (List (Support α)) :=
  supports? snapshot.reverse parameter

/-- Whether a value of a parameter carried a label that the selector covers. -/
def matchesAt (snapshot : Snapshot α) (parameter : Ref) (value : α) (selector : Label) :
    Except (Error α) Bool :=
  match snapshot.labelled? parameter with
  | some supports => pure (selector.coversAny (labelsAt supports value))
  | none => throw .noEntry

end Snapshot

/-- The keys of a transcribed object with their counterparts. A key and its counterpart share a row,
where lists of keys and counterparts beside a dictionary of positions would keep them apart:
`Entry.columns` are these. -/
structure Entry (κ β : Type) where
  /-- The parameters of the object, in the order of the coordinates of a key. -/
  parameters : List Ref
  /-- The keys in the order of their transcription, each with its counterpart. -/
  rows : List (List κ × β) := []
  /-- Answers to support queries that are still valid. -/
  memo : List (Label × SupportList κ) := []

namespace Entry

section Keys

variable {κ β : Type}

/-- The number of keys. -/
def size (e : Entry κ β) : Nat :=
  e.rows.length

/-- Whether the object has no parameters. -/
def isFinite (e : Entry κ β) : Bool :=
  e.parameters.isEmpty

/-- The keys in order. -/
def keys (e : Entry κ β) : List (List κ) :=
  e.rows.map (·.1)

/-- The entry with its counterparts replaced. -/
def map {γ : Type} (f : β → γ) (e : Entry κ β) : Entry κ γ :=
  { parameters := e.parameters, rows := e.rows.map fun (key, b) => (key, f b), memo := e.memo }

/-- The entry with the coordinates of its keys replaced. -/
def mapKeys {ι : Type} (f : κ → ι) (e : Entry κ β) : Entry ι β :=
  { parameters := e.parameters, rows := e.rows.map fun (key, b) => (key.map f, b) }

variable [BEq κ]

/-- The position of a key. -/
def position? (e : Entry κ β) (key : List κ) : Option Nat :=
  e.rows.findIdx? (·.1 == key)

/-- The counterpart at a key. -/
def get? (e : Entry κ β) (key : List κ) : Option β :=
  (e.rows.find? (·.1 == key)).map (·.2)

/-- Adds a key with its counterpart and gives its position, unless the key is there already. -/
def insert? (e : Entry κ β) (key : List κ) (counterpart : β) : Option (Nat × Entry κ β) :=
  match e.position? key with
  | some _ => none
  | none => some (e.size, { e with rows := e.rows ++ [(key, counterpart)], memo := [] })

end Keys

variable {α β : Type} [Scalar α]

/-- Adds a key with its counterpart and gives its position. Each key can be added once. -/
def add (e : Entry α β) (key : List α) (counterpart : β) : Except (Error α) (Nat × Entry α β) :=
  match e.insert? key counterpart with
  | some added => pure added
  | none => throw (.transcribedTwice key)

/-- Whether every value of a key carried a label that the selector covers, going through the
parameters in order up to the first that did not. -/
def keyMatches (snapshot : Snapshot α) (selector : Label) :
    (parameters : List Ref) → (key : List α) → Except (Error α) Bool
  | parameter :: parameters, value :: key => do
    if ← snapshot.matchesAt parameter value selector then
      keyMatches snapshot selector parameters key
    else return false
  | _, _ => pure true

/-- The positions of the matching keys. All keys match if every support is selected or the object
has no parameters. -/
def positions (e : Entry α β) (snapshot : Snapshot α) (selector : Label) :
    Except (Error α) (List Nat) :=
  if selector = .all || e.isFinite then pure (List.range e.size)
  else (List.range e.size).filterM fun i =>
    keyMatches snapshot selector e.parameters (e.keys.getD i [])

/-- The matching keys. A key of an object with one parameter must hold a value. -/
def matchingSupports (e : Entry α β) (snapshot : Snapshot α) (selector : Label) :
    Except (Error α) (SupportList α) := do
  let positions ← e.positions snapshot selector
  let keys := positions.map fun i => e.keys.getD i []
  if e.parameters.length = 1 then
    return .points (← keys.mapM fun
      | value :: _ => pure value
      | [] => throw .outsideList)
  else return .tuples keys

/-- The matching keys, looked up among the remembered answers first, and the entry that remembers
them. -/
def supportTuples (e : Entry α β) (snapshot : Snapshot α) (selector : Label) :
    Except (Error α) (SupportList α × Entry α β) :=
  match e.memo.find? (·.1 = selector) with
  | some (_, answer) => pure (answer, e)
  | none => do
    let answer ← e.matchingSupports snapshot selector
    return (answer, { e with memo := e.memo ++ [(selector, answer)] })

end Entry

end Discretization
