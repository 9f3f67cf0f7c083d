import Discretization.Model.Basic

/-!
# Queries of a Transcription

Which counterparts an object got, and at which supports. A query is resolved by the handler that is
registered for its name and for the kind of the object; the handler names the entry to read.
-/

namespace Discretization

/-- The queries. -/
inductive Query where
  /-- For the finite variables of a variable. -/
  | vars
  /-- For the expressions of a measure. -/
  | measures
  /-- For the finite constraints of a constraint or derivative. -/
  | constraints
  deriving Repr, DecidableEq

namespace Query

/-- The name of a query. -/
def name : Query → String
  | vars => "variable"
  | measures => "measure"
  | constraints => "constraint"

/-- The query that a look-up by support uses for objects of a kind. -/
def ofKind : EntityKind → Query
  | .measure => measures
  | .constraint => constraints
  | _ => vars

end Query

/-- How a query finds the entry of an object. -/
inductive Handler where
  /-- The object's own entry in a group. -/
  | ofGroup (group : EntryGroup)
  /-- The entry of a reduced variable. -/
  | ofReduced
  /-- The entry of another object in the group of a name, whatever the object. -/
  | like (group : String) (ref : Ref)
  deriving Repr, DecidableEq

/-- Handlers by the name of a query and by kind, in the order of their registration. Only the names
of queries are ever looked up. -/
abbrev HandlerRegistry := List ((String × EntityKind) × Handler)

namespace HandlerRegistry

/-- The handlers that are registered from the start. -/
def builtin : HandlerRegistry :=
  [((Query.vars.name, .infiniteVariable), .ofGroup .vars),
    ((Query.vars.name, .derivative), .ofGroup .vars),
    ((Query.vars.name, .finiteVariable), .ofGroup .vars),
    ((Query.vars.name, .pointVariable), .ofGroup .vars),
    ((Query.vars.name, .reducedVariable), .ofReduced),
    ((Query.measures.name, .measure), .ofGroup .measures),
    ((Query.constraints.name, .constraint), .ofGroup .constraints),
    ((Query.constraints.name, .derivative), .ofGroup .evaluations)]

/-- The handler for a query and a kind. -/
def get? (registry : HandlerRegistry) (query : Query) (kind : EntityKind) : Option Handler :=
  (registry.find? (·.1 = (query.name, kind))).map (·.2)

/-- Registers a handler, in the place of an earlier one for the same name and kind. -/
def set (registry : HandlerRegistry) (key : String × EntityKind) (handler : Handler) :
    HandlerRegistry :=
  match registry with
  | [] => [(key, handler)]
  | (k, h) :: rest => if k = key then (key, handler) :: rest else (k, h) :: set rest key handler

end HandlerRegistry

/-- The counterparts that a query answers with. -/
inductive Counterparts (α : Type) where
  /-- The only counterpart of an object without parameters. -/
  | single (c : Counterpart α)
  /-- The counterparts of an object at the matching keys. -/
  | many (cs : List (Counterpart α))
  deriving Repr

namespace Model

variable {α : Type} [Scalar α]

/-- The entry that a query reads for an object, with the transcription that it belongs to. -/
def resolve (m : Model α) (registry : HandlerRegistry) (query : Query) (ref : Ref) :
    Except (Error α) (Transcription α × Entry α (Counterpart α)) := do
  match registry.get? query ref.kind with
  | none => throw (.noQuery query.name ref.kind)
  | some handler =>
    let t ← m.transcribed
    match handler with
    | .ofGroup group =>
      match (t.entries group).get? ref with
      | some entry => return (t, entry)
      | none => throw (.notTranscribed (m.describe ref))
    | .ofReduced =>
      let r ← m.reducedVariable ref
      return (t, r.entry.map .index)
    | .like group other =>
      match (EntryGroup.ofName? group).bind fun group => (t.entries group).get? other with
      | some entry => return (t, entry)
      | none => throw .noEntry

/-- The counterparts of an object at the keys that a label selects. -/
def counterparts (m : Model α) (registry : HandlerRegistry) (query : Query) (ref : Ref)
    (label : Label) : Except (Error α) (Counterparts α) := do
  let (t, entry) ← m.resolve registry query ref
  if entry.isFinite then
    match entry.rows with
    | (_, counterpart) :: _ => return .single counterpart
    | [] => throw .outsideList
  else
    let positions ← entry.positions t.snapshot label
    return .many (positions.filterMap fun i => (entry.rows[i]?).map (·.2))

/-- The supports of an object that a label selects, in the order of its counterparts. An object
without parameters has none. -/
def counterpartSupports (m : Model α) (registry : HandlerRegistry) (query : Query) (ref : Ref)
    (label : Label) : Except (Error α) (SupportList α) := do
  let (t, entry) ← m.resolve registry query ref
  if entry.isFinite then return .tuples []
  else return (← entry.supportTuples t.snapshot label).1

/-- The counterpart of an object at a key, which has a single value for each parameter. -/
def lookup (m : Model α) (registry : HandlerRegistry) (ref : Ref) (key : Tensor α) :
    Except (Error α) (Counterpart α) := do
  let (_, entry) ← m.resolve registry (.ofKind ref.kind) ref
  if key.shape.length > 1 then throw .notPointwise
  match entry.get? key.entries with
  | some counterpart => return counterpart
  | none => throw (.notAtSupport (m.describe ref) key.entries)

/-- The supports of every parameter at the time of the last transcription. -/
def transcribedSupports (m : Model α) : Except (Error α) (List (List α)) := do
  return (← m.transcribed).snapshot.map fun (_, supports) => supports.map (·.value)

/-- References to the reduced variables of the last transcription. -/
def reducedRefs (m : Model α) : Except (Error α) (List Ref) := do
  return (List.range (← m.transcribed).reduced.length).map (m.ref .reducedVariable)

end Model

end Discretization
