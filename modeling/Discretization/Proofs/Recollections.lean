import Discretization.Proofs.Answers

/-!
# What an Entry Remembers

An entry remembers what it answered to a query for supports until the next key is added to it. What
it remembers is never out of date: however additions and queries follow one another, and whether
they succeed or not, every query gets the answer that it would get if nothing was remembered. So
nothing changes where an entry is asked without keeping what it remembers, as a model does with the
entries of its transcription. In the meantime keys and counterparts stay aligned, and each key is
found at the one position where it stands.

All of this is for one snapshot: an entry remembers the label of a query, but not the snapshot that
the query was about.

A number that does not equal itself is not found by its value. It is found in the key that holds it,
as in a transcription in the making, so keys are also looked up with their places.

## Main definitions

* `Entry.Use`, `Entry.use`: what can be done with an entry, and what comes of it;
* `Entry.forget`: an entry that remembers nothing;
* `Entry.Indexed`: keys and counterparts are aligned, and keys are found where they stand;
* `Entry.placed`: an entry whose keys know where they stand.

## Main results

* `Entry.Kept.after`: a use keeps keys different and what is remembered right;
* `Entry.Kept.afterAll`: so do any uses, and the rows that they leave depend on additions only;
* `Entry.transparent_of_uses`: what holds of an entry after any uses;
* `Transcribed.transparent`: the same for the entries of a transcription.
-/

namespace Discretization

namespace Entry

/-! ## Keys that are found where they stand -/

section Keys

variable {κ β : Type}

/-- The counterparts in order. -/
def counterparts (e : Entry κ β) : List β :=
  e.rows.map (·.2)

theorem exists_row_of_getElem? {e : Entry κ β} {i : ℕ} {key : List κ} (h : e.keys[i]? = some key) :
    ∃ b, e.rows[i]? = some (key, b) := by
  rw [keys, List.getElem?_map, Option.map_eq_some_iff] at h
  obtain ⟨row, hrow, rfl⟩ := h
  exact ⟨row.2, hrow⟩

variable [BEq κ] {e : Entry κ β} {i : ℕ} {key : List κ}

/-- Keys and counterparts are aligned, and every key is found where it stands. Only a key that does
not equal itself is not found at all. -/
structure Indexed (e : Entry κ β) : Prop where
  /-- There are as many counterparts as keys. -/
  length : e.keys.length = e.counterparts.length
  /-- Looking up a key gives its position. -/
  position : ∀ (i : ℕ) (key : List κ), e.keys[i]? = some key → (key == key) = true →
    e.position? key = some i
  /-- The counterpart of a key is the one at the same position. -/
  counterpart : ∀ (i : ℕ) (key : List κ), e.keys[i]? = some key → (key == key) = true →
    e.get? key = e.counterparts[i]?
  /-- Only what equals a key has a position, which is that of the key. -/
  listed : ∀ (i : ℕ) (key : List κ), e.position? key = some i →
    ∃ k, e.keys[i]? = some k ∧ (k == key) = true

/-- What has a position equals the key that stands there. -/
theorem exists_key_of_position? (h : e.position? key = some i) :
    ∃ k, e.keys[i]? = some k ∧ (k == key) = true := by
  rw [position?, List.findIdx?_eq_some_iff_getElem] at h
  obtain ⟨hi, hkey, -⟩ := h
  refine ⟨e.rows[i].1, ?_, hkey⟩
  rw [keys, List.getElem?_map, List.getElem?_eq_getElem hi]
  rfl

/-- If all keys are different, no key is found before the place where it stands. -/
theorem Distinct.position?_eq (h : e.Distinct) (hkey : e.keys[i]? = some key)
    (hself : (key == key) = true) : e.position? key = some i := by
  obtain ⟨b, hrow⟩ := exists_row_of_getElem? hkey
  obtain ⟨hi, hrow⟩ := List.getElem?_eq_some_iff.1 hrow
  -- the first row with an equal key is looked for
  have hbefore : ∀ j (hj : j < i), (e.rows[j].1 == key) = false := by
    intro j hj
    have hne := List.pairwise_iff_getElem.1 h j i (hj.trans hi) hi hj
    rwa [hrow] at hne
  rw [position?, List.findIdx?_eq_some_iff_getElem]
  refine ⟨hi, by rwa [hrow], fun j hj => ?_⟩
  rw [hbefore j hj]
  exact Bool.false_ne_true

/-- Different keys are found where they stand. -/
theorem Distinct.indexed (h : e.Distinct) : e.Indexed where
  length := by rw [keys, counterparts, List.length_map, List.length_map]
  position _ _ hkey hself := h.position?_eq hkey hself
  counterpart i key hkey hself := by
    obtain ⟨b, hrow⟩ := exists_row_of_getElem? hkey
    rw [counterparts, List.getElem?_map, hrow]
    exact get?_of_mem h (List.mem_of_getElem? hrow) hself
  listed _ _ := exists_key_of_position?

end Keys

variable {α β : Type}

/-! ## Keys with their places -/

/-- The key at a position as it is found there: each of its numbers was read at that place. -/
def ownKey (e : Entry α β) (position : ℕ) (key : List α) : List (Coordinate α) :=
  key.map fun value => { value, place := some { grid := e.parameters, position } }

/-- The entry with keys that know where they stand. Such a key is the same as another one if its
numbers are, or if it stands in the same place. -/
def placed (e : Entry α β) : Entry (Coordinate α) β :=
  { parameters := e.parameters
    rows := e.rows.mapIdx fun i row => (e.ownKey i row.1, row.2) }

section Places

variable [BEq α] {e : Entry α β} {i j : ℕ}

/-- A key is the same as itself in its place, whatever its numbers are. -/
theorem ownKey_beq_self (e : Entry α β) (i : ℕ) (key : List α) :
    (e.ownKey i key == e.ownKey i key) = true := by
  induction key with
  | nil => rfl
  | cons x key ih =>
    have hx : Coordinate.agree { value := x, place := some ⟨e.parameters, i⟩ }
        { value := x, place := some ⟨e.parameters, i⟩ } = true := by
      simp [Coordinate.agree]
    exact Bool.and_eq_true_iff.2 ⟨hx, ih⟩

/-- In different places keys are compared by their numbers. -/
theorem ownKey_beq_of_ne (e : Entry α β) (h : i ≠ j) (key key' : List α) :
    (e.ownKey i key == e.ownKey j key') = (key == key') := by
  induction key generalizing key' with
  | nil => cases key' <;> rfl
  | cons x key ih =>
    cases key' with
    | nil => rfl
    | cons y key' =>
      have hx : Coordinate.agree { value := x, place := some ⟨e.parameters, i⟩ }
          { value := y, place := some ⟨e.parameters, j⟩ } = (x == y) := by
        simp [Coordinate.agree, h]
      exact congrArg₂ and hx (ih key')

/-- Different keys are different in their places. -/
theorem Distinct.placed (h : e.Distinct) : e.placed.Distinct := by
  refine List.pairwise_iff_getElem.2 fun i j hi hj hij => ?_
  change i < (e.rows.mapIdx _).length at hi
  change j < (e.rows.mapIdx _).length at hj
  rw [List.length_mapIdx] at hi hj
  simp only [Entry.placed, List.getElem_mapIdx]
  rw [ownKey_beq_of_ne e hij.ne]
  exact List.pairwise_iff_getElem.1 h i j hi hj hij

/-- In their places, different keys are found where they stand, whatever their numbers are. -/
theorem Distinct.position?_placed (h : e.Distinct) {key : List (Coordinate α)}
    (hkey : e.placed.keys[i]? = some key) : e.placed.position? key = some i := by
  obtain ⟨b, hrow⟩ := exists_row_of_getElem? hkey
  rw [Entry.placed, List.getElem?_mapIdx, Option.map_eq_some_iff] at hrow
  obtain ⟨row, -, hrow⟩ := hrow
  obtain rfl : e.ownKey i row.1 = key := congrArg Prod.fst hrow
  exact h.placed.position?_eq hkey (ownKey_beq_self e i row.1)

end Places

variable [Scalar α]

/-! ## Uses -/

/-- What can be done with an entry. -/
inductive Use (α β : Type) where
  /-- Add a key with its counterpart. -/
  | add (key : List α) (counterpart : β)
  /-- Ask for the positions of the keys that a label selects. -/
  | positions (label : Label)
  /-- Ask for the supports that a label selects. -/
  | supports (label : Label)

/-- What a use gives. -/
inductive Answer (α : Type) where
  /-- The position of a key that was added. -/
  | position (i : ℕ)
  /-- The positions of keys. -/
  | positions (positions : List ℕ)
  /-- Supports. -/
  | supports (supports : SupportList α)

/-- What a use gives, and the entry that it leaves. -/
def use (snapshot : Snapshot α) (e : Entry α β) :
    Use α β → Except (Error α) (Answer α × Entry α β)
  | .add key counterpart => do
    let (i, e) ← e.add key counterpart
    return (.position i, e)
  | .positions label => do
    let positions ← e.positions snapshot label
    return (.positions positions, e)
  | .supports label => do
    let (supports, e) ← e.supportTuples snapshot label
    return (.supports supports, e)

/-- What a use gives. -/
def answer (snapshot : Snapshot α) (e : Entry α β) (u : Use α β) : Except (Error α) (Answer α) :=
  (e.use snapshot u).map (·.1)

/-- The entry after a use. It is as before if the use fails. -/
def after (snapshot : Snapshot α) (e : Entry α β) (u : Use α β) : Entry α β :=
  match e.use snapshot u with
  | .ok (_, e') => e'
  | .error _ => e

/-- The entry after several uses. -/
def afterAll (snapshot : Snapshot α) (e : Entry α β) (uses : List (Use α β)) : Entry α β :=
  uses.foldl (after snapshot) e

/-- The entry that remembers nothing. -/
def forget (e : Entry α β) : Entry α β :=
  { e with memo := [] }

section Uses

variable {snapshot : Snapshot α} {e : Entry α β} {key : List α} {label : Label}

/-! ## Additions -/

/-- A key that is there already is rejected. -/
theorem use_add_of_some {i : ℕ} (h : e.position? key = some i) (counterpart : β) :
    e.use snapshot (.add key counterpart) = .error (.transcribedTwice key) := by
  rw [use, add, insert?, h]
  rfl

/-- A new key is added at the end, and nothing is remembered any more. -/
theorem use_add_of_none (h : e.position? key = none) (counterpart : β) :
    e.use snapshot (.add key counterpart) = .ok (.position e.size,
      { e with rows := e.rows ++ [(key, counterpart)], memo := [] }) := by
  rw [use, add, insert?, h]
  rfl

/-- An addition succeeds just if no key is the same, and gives the next position. -/
theorem answer_add_eq_ok_iff {counterpart : β} {given : Answer α} :
    e.answer snapshot (.add key counterpart) = .ok given ↔
      (∀ k ∈ e.keys, (k == key) = false) ∧ given = .position e.size := by
  -- the position of a key is searched among the rows, which have the keys
  have hnew : e.position? key = none ↔ ∀ k ∈ e.keys, (k == key) = false := by
    rw [position?_eq_none, keys, List.forall_mem_map]
  rw [← hnew, answer]
  cases h : e.position? key with
  | none =>
    rw [use_add_of_none h]
    constructor
    · intro hgiven
      exact ⟨rfl, (Except.ok.inj hgiven).symm⟩
    · rintro ⟨-, rfl⟩
      rfl
  | some i =>
    rw [use_add_of_some h]
    constructor
    · intro hgiven
      cases hgiven
    · rintro ⟨hnone, -⟩
      cases hnone

/-! ## Queries -/

/-- Asking for positions changes nothing. -/
theorem after_positions : e.after snapshot (.positions label) = e := by
  rw [after, use]
  cases e.positions snapshot label <;> rfl

/-- Asking for supports gives those that match, whether they are remembered or not. What it leaves
has the same rows, and what that remembers is right. -/
theorem Remembers.use_supports_of_ok (h : e.Remembers snapshot) {supports : SupportList α}
    (hsupports : e.matchingSupports snapshot label = .ok supports) :
    ∃ e' : Entry α β, e.use snapshot (.supports label) = .ok (.supports supports, e') ∧
      e'.rows = e.rows ∧ e'.Remembers snapshot := by
  obtain ⟨e', he', -, hrows, hremembers⟩ := h.supportTuples hsupports
  refine ⟨e', ?_, hrows, hremembers⟩
  rw [use, he']
  rfl

/-- Where no answer can be given, none is remembered either. -/
theorem Remembers.use_supports_of_error (h : e.Remembers snapshot) {failure : Error α}
    (hfailure : e.matchingSupports snapshot label = .error failure) :
    e.use snapshot (.supports label) = .error failure := by
  -- an answer that was remembered for the label would be right, and there is no right one
  have hfind : e.memo.find? (·.1 = label) = none := by
    refine List.find?_eq_none.2 fun row hrow hlabel => ?_
    have hright := h row hrow
    rw [of_decide_eq_true hlabel, hfailure] at hright
    cases hright
  rw [use, Entry.supportTuples, hfind, hfailure]
  rfl

/-- Asking for supports gives those that match, or fails as looking for them does. -/
theorem Remembers.answer_supports (h : e.Remembers snapshot) (label : Label) :
    e.answer snapshot (.supports label) = (e.matchingSupports snapshot label).map .supports := by
  rw [answer]
  cases hsupports : e.matchingSupports snapshot label with
  | ok supports =>
    obtain ⟨e', he', -⟩ := h.use_supports_of_ok hsupports
    rw [he']
    rfl
  | error failure =>
    rw [h.use_supports_of_error hsupports]
    rfl

/-! ## What uses keep -/

/-- The rows after a use: a key is added if none is the same. -/
def Use.extend (u : Use α β) (rows : List (List α × β)) : List (List α × β) :=
  match u with
  | .add key counterpart =>
    if rows.any (·.1 == key) then rows else rows ++ [(key, counterpart)]
  | .positions _ | .supports _ => rows

/-- The rows that uses add. Of additions of the same key, the first counts. -/
def added (uses : List (Use α β)) : List (List α × β) :=
  uses.foldl (fun rows u => u.extend rows) []

/-- All keys are different, and what is remembered is right. -/
structure Kept (snapshot : Snapshot α) (e : Entry α β) : Prop where
  distinct : e.Distinct
  remembers : e.Remembers snapshot

theorem kept_blank (snapshot : Snapshot α) (parameters : List Ref) :
    Kept (β := β) snapshot { parameters } :=
  ⟨distinct_blank, remembers_of_unasked rfl snapshot⟩

/-- What an entry remembers stays right: it is forgotten when a key is added, and what is added to
it is an answer. Its rows change with additions only. -/
theorem Kept.after (h : e.Kept snapshot) (u : Use α β) :
    (e.after snapshot u).Kept snapshot ∧ (e.after snapshot u).rows = u.extend e.rows := by
  cases u with
  | add key counterpart =>
    rw [Entry.after, Use.extend, ← List.findIdx?_isSome, ← position?]
    cases hposition : e.position? key with
    | some i =>
      rw [use_add_of_some hposition]
      exact ⟨h, rfl⟩
    | none =>
      rw [use_add_of_none hposition]
      exact ⟨⟨h.distinct.snoc hposition, remembers_of_unasked rfl snapshot⟩, rfl⟩
  | positions label =>
    rw [after_positions]
    exact ⟨h, rfl⟩
  | supports label =>
    -- whether an answer is remembered does not matter, only whether there is one
    rw [Entry.after]
    cases hsupports : e.matchingSupports snapshot label with
    | ok supports =>
      obtain ⟨e', he', hrows, hremembers⟩ := h.remembers.use_supports_of_ok hsupports
      rw [he']
      refine ⟨⟨?_, hremembers⟩, hrows⟩
      rw [Distinct, hrows]
      exact h.distinct
    | error failure =>
      rw [h.remembers.use_supports_of_error hsupports]
      exact ⟨h, rfl⟩

/-- What one use keeps, any number of uses keep. -/
theorem Kept.afterAll (h : e.Kept snapshot) (uses : List (Use α β)) :
    (e.afterAll snapshot uses).Kept snapshot ∧
      (e.afterAll snapshot uses).rows = uses.foldl (fun rows u => u.extend rows) e.rows := by
  -- for any entry to start with, as the rest of the uses start with what the first one leaves
  induction uses generalizing e with
  | nil => exact ⟨h, rfl⟩
  | cons u uses ih =>
    obtain ⟨hkept, hrows⟩ := h.after u
    rw [List.foldl_cons, ← hrows]
    exact ih hkept

/-- Any use gives what it would give if nothing was remembered. -/
theorem Kept.answer_eq (h : e.Kept snapshot) (u : Use α β) :
    e.answer snapshot u = e.forget.answer snapshot u := by
  cases u with
  | add key counterpart =>
    have hforget : e.forget.position? key = e.position? key := rfl
    rw [answer, answer]
    cases hposition : e.position? key with
    | some i => rw [use_add_of_some hposition, use_add_of_some (hforget.trans hposition)]
    | none =>
      rw [use_add_of_none hposition, use_add_of_none (hforget.trans hposition)]
      rfl
  | positions label =>
    have hforget : e.forget.positions snapshot label = e.positions snapshot label := rfl
    rw [answer, answer, use, use, hforget]
    cases e.positions snapshot label <;> rfl
  | supports label =>
    have hforget : e.forget.matchingSupports snapshot label = e.matchingSupports snapshot label :=
      rfl
    -- an entry that was never asked remembers nothing that could be wrong
    have hnothing : e.forget.Remembers snapshot := remembers_of_unasked rfl snapshot
    rw [h.remembers.answer_supports, hnothing.answer_supports, hforget]

end Uses

/-! ## Any uses -/

/-- An entry answers as if it remembered nothing, and its keys are found where they stand. -/
structure Transparent (snapshot : Snapshot α) (e : Entry α β) : Prop where
  /-- Every query and every addition gives what it would give if nothing was remembered. -/
  answers : ∀ u, e.answer snapshot u = e.forget.answer snapshot u
  /-- An addition gives the next position, and is rejected just if some key is the same. -/
  additions : ∀ key counterpart given, e.answer snapshot (.add key counterpart) = .ok given ↔
    (∀ k ∈ e.keys, (k == key) = false) ∧ given = .position e.size
  /-- Keys and counterparts are aligned, and keys that equal themselves are found where they
  stand. -/
  indexed : e.Indexed
  /-- In its place every key is found where it stands. -/
  placed : ∀ (i : ℕ) (key : List (Coordinate α)), e.placed.keys[i]? = some key →
    e.placed.position? key = some i

theorem Kept.transparent {snapshot : Snapshot α} {e : Entry α β} (h : e.Kept snapshot) :
    e.Transparent snapshot where
  answers := h.answer_eq
  additions _ _ _ := answer_add_eq_ok_iff
  indexed := h.distinct.indexed
  placed _ _ := h.distinct.position?_placed

/-- Whatever was added to an entry and asked of it before, with success or not, it has the rows that
were added first, it answers as if it remembered nothing, and its keys are found where they
stand. -/
theorem transparent_of_uses (snapshot : Snapshot α) (parameters : List Ref)
    (uses : List (Use α β)) :
    (Entry.afterAll snapshot { parameters } uses).rows = added uses ∧
      (Entry.afterAll snapshot { parameters } uses).Transparent snapshot := by
  obtain ⟨hkept, hrows⟩ := (kept_blank snapshot parameters).afterAll uses
  exact ⟨hrows, hkept.transparent⟩

/-- With another snapshot, the entry repeats an answer that is not right any more. -/
example :
    let p : Ref := ⟨0, .parameter, 1⟩
    let shown : Snapshot ℚ := [(p, [⟨0, [.userDefined]⟩])]
    let concealed : Snapshot ℚ := [(p, [⟨0, [.collocation]⟩])]
    let e : Entry ℚ ℕ :=
      Entry.afterAll shown { parameters := [p] } [.add [0] 7, .supports .visible, .add [0] 8]
    (e.supportTuples concealed .visible).toOption.map (·.1) = some (.points [0]) ∧
      (e.forget.supportTuples concealed .visible).toOption.map (·.1) = some (.points []) := by
  decide +kernel

end Entry

/-- The entries of a transcription answer queries as if they remembered nothing, however often they
were asked before. -/
theorem Transcribed.transparent {α : Type} [Scalar α] {m : Model α} {t : Transcription α}
    (h : Transcribed m t) {query : Query} {ref : Ref} (hfinds : query.Finds m t ref) :
    ∃ e, m.resolve .builtin query ref = .ok (t, e) ∧
      ∀ uses, (e.afterAll t.snapshot uses).Transparent t.snapshot := by
  obtain ⟨e, hresolve, -, hanswerable⟩ := h.exists_entry hfinds
  have hkept : e.Kept t.snapshot := ⟨hanswerable.distinct, hanswerable.remembers t.snapshot⟩
  exact ⟨e, hresolve, fun uses => (hkept.afterAll uses).1.transparent⟩

end Discretization
