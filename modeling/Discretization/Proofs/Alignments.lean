import Discretization.Proofs.Conditions
import Discretization.Proofs.Rebuilds

/-!
# Alignment of a Transcription with its Model

What a successful build promises to whoever reads its finite model: the finite variables are the
blocks of the finite variables, infinite variables and derivatives of the model, each in the order
of its grid, and nothing else. Every position belongs to one object at one key.

## Main definitions

* `Aligned`: the variables of a transcription are aligned with the grids of a model.

## Main results

* `Model.exists_block`, `Model.block_unique`: every position lies in exactly one block;
* `aligned_of_build`: a build gives an aligned transcription.
-/

namespace Discretization

variable {α : Type} [Scalar α]

/-! ## Positions -/

namespace Model

variable {m : Model α} {ref ref' : Ref} {before before' after after' refs : List Ref} {i : Nat}

omit [Scalar α] in
theorem start_append (m : Model α) (refs refs' : List Ref) :
    m.start (refs ++ refs') = m.start refs + m.start refs' := by
  rw [start, List.map_append, List.sum_append]
  rfl

omit [Scalar α] in
theorem start_cons (m : Model α) (ref : Ref) (refs : List Ref) :
    m.start (ref :: refs) = (m.grid (m.spanned ref)).length + m.start refs := by
  rw [start, List.map_cons, List.sum_cons]
  rfl

omit [Scalar α] in
/-- Every position before the end of the blocks lies in a block. -/
theorem exists_block (h : i < m.start refs) : ∃ before ref after, refs = before ++ ref :: after ∧
    m.start before ≤ i ∧ i < m.start before + (m.grid (m.spanned ref)).length := by
  induction refs generalizing i with
  | nil => exact absurd h (Nat.not_lt_zero i)
  | cons ref rest ih =>
    rw [start_cons] at h
    by_cases hi : i < (m.grid (m.spanned ref)).length
    · exact ⟨[], ref, rest, rfl, Nat.zero_le i, by simpa [start] using hi⟩
    · obtain ⟨before, r, after, rfl, hlower, hupper⟩ :=
        ih (i := i - (m.grid (m.spanned ref)).length) (by omega)
      refine ⟨ref :: before, r, after, rfl, ?_, ?_⟩ <;> rw [start_cons] <;> omega

omit [Scalar α] in
/-- Blocks do not overlap. -/
theorem block_unique (h : before ++ ref :: after = before' ++ ref' :: after')
    (hlower : m.start before ≤ i) (hupper : i < m.start before + (m.grid (m.spanned ref)).length)
    (hlower' : m.start before' ≤ i)
    (hupper' : i < m.start before' + (m.grid (m.spanned ref')).length) :
    before = before' ∧ ref = ref' := by
  rcases List.append_eq_append_iff.1 h with ⟨between, rfl, hrest⟩ | ⟨between, rfl, hrest⟩
  · cases between with
    | nil =>
      rw [List.nil_append, List.cons.injEq] at hrest
      exact ⟨(List.append_nil _).symm, hrest.1⟩
    | cons r between =>
      -- the whole block of the first object comes before the second one
      obtain ⟨rfl, -⟩ := List.cons.inj hrest
      rw [start_append, start_cons] at hlower'
      omega
  · cases between with
    | nil =>
      rw [List.nil_append, List.cons.injEq] at hrest
      exact ⟨List.append_nil _, hrest.1.symm⟩
    | cons r between =>
      obtain ⟨rfl, -⟩ := List.cons.inj hrest
      rw [start_append, start_cons] at hlower
      omega

end Model

/-! ## Alignment -/

/-- The variables of a transcription are aligned with the grids of a model. -/
structure Aligned (m : Model α) (t : Transcription α) : Prop where
  /-- The finite variables are those of the finite variables, the infinite variables and the
  derivatives of the model, in this order, and nothing else. -/
  vars : t.finite.vars = m.owners.flatMap (m.block t.verbose)
  /-- There are as many as finite variables and combinations of supports. -/
  count : t.finite.vars.length = (m.liveRefs .finiteVariable).length +
    ((m.liveRefs .infiniteVariable ++ m.liveRefs .derivative).map fun ref =>
      ((m.spanned ref).map fun p => (m.axis p).length).prod).sum
  /-- The keys of an object are the combinations of the supports of its parameters, and their
  variables stand side by side, behind those of the objects before. -/
  entries : ∀ before ref after, m.owners = before ++ ref :: after → ∃ e : Entry α Nat,
    t.vars.get? ref = some e ∧ e.parameters = m.spanned ref ∧
      e.keys = m.grid (m.spanned ref) ∧
      e.rows.map (·.2) = List.range' (m.start before) (m.grid (m.spanned ref)).length ∧
      ∀ i key, e.keys[i]? = some key → e.position? key = some i
  /-- Every position belongs to one object at one key. -/
  unique : ∀ i < t.finite.vars.length, ∃! owner : Ref × List α, owner.1 ∈ m.owners ∧
    ∃ e, t.vars.get? owner.1 = some e ∧ (owner.2, i) ∈ e.rows
  /-- A point variable stands for its infinite variable at its values. -/
  points : ∀ ref v, m.pointVariable ref = .ok v → ∃ (e : Entry α Nat) (i : Nat),
    t.vars.get? v.ref = some e ∧ e.get? v.values = some i ∧
      t.vars.get? ref = some (.single i)

section Alignment

variable [LawfulScalar α] {m : Model α} {ref : Ref} {verbose : Bool}

omit [Scalar α] [LawfulScalar α] in
/-- The entry of an owner when the places of its keys are left out. -/
theorem mapKeys_ownEntry (m : Model α) (ref : Ref) (start : Nat) :
    (m.ownEntry ref start).mapKeys (·.value) =
      { parameters := m.spanned ref, rows := (m.grid (m.spanned ref)).zipIdx start } := by
  rw [Entry.mapKeys, Model.ownEntry, ← Model.map_value_gridKeys, List.zipIdx_map]
  rfl

/-- A combination of supports is found where it stands in the grid. -/
theorem position?_zipIdx (hs : m.Sound) (hd : m.Defined) {parameters : List Ref} {start i : Nat}
    {key : List α} (hi : (m.grid parameters)[i]? = some key) :
    Entry.position? { parameters, rows := (m.grid parameters).zipIdx start } key = some i := by
  obtain ⟨hlt, rfl⟩ := List.getElem?_eq_some_iff.1 hi
  have hpairwise := List.pairwise_iff_getElem.1 (Model.pairwise_grid hs hd parameters)
  rw [Entry.position?, List.findIdx?_eq_some_iff_getElem]
  refine ⟨by simpa using hlt, ?_, fun j hj => ?_⟩
  · simpa using Model.beq_self_of_mem_grid hd (List.getElem_mem hlt)
  · simpa using hpairwise j i (by omega) hlt hj

omit [Scalar α] [LawfulScalar α] in
/-- Finite variables own one position each. -/
theorem length_grid_of_finite {v : FiniteVariable α} (h : m.finiteVariable ref = .ok v) :
    (m.grid (m.spanned ref)).length = 1 := by
  rw [Model.spanned_of_finite h]
  rfl

omit [Scalar α] [LawfulScalar α] in
/-- The number of positions of all owners. -/
theorem start_owners (m : Model α) : m.start m.owners = (m.liveRefs .finiteVariable).length +
    ((m.liveRefs .infiniteVariable ++ m.liveRefs .derivative).map fun ref =>
      ((m.spanned ref).map fun p => (m.axis p).length).prod).sum := by
  have hfinite : m.start (m.liveRefs .finiteVariable) = (m.liveRefs .finiteVariable).length := by
    have hone : ∀ ref ∈ m.liveRefs .finiteVariable, (m.grid (m.spanned ref)).length = 1 := by
      intro ref href
      obtain ⟨v, hv⟩ := Model.mem_liveRefs_finiteVariable.1 href
      exact length_grid_of_finite hv
    rw [Model.start, List.map_congr_left hone, List.map_const', List.sum_replicate_nat,
      Nat.mul_one]
  rw [Model.owners, Model.start_append, hfinite, Model.start]
  simp only [Model.length_grid]

omit [Scalar α] [LawfulScalar α] in
/-- Every position belongs to one owner at one key. -/
theorem existsUnique_owner {entries : Entries α Nat}
    (hentries : ∀ before ref after, m.owners = before ++ ref :: after → entries.get? ref = some
      { parameters := m.spanned ref, rows := (m.grid (m.spanned ref)).zipIdx (m.start before) })
    {i : Nat} (hi : i < m.start m.owners) :
    ∃! owner : Ref × List α, owner.1 ∈ m.owners ∧
      ∃ e, entries.get? owner.1 = some e ∧ (owner.2, i) ∈ e.rows := by
  -- existence: the blocks of the owners cover all positions below the last start
  obtain ⟨before, ref, after, hsplit, hlower, hupper⟩ := Model.exists_block hi
  have hlt : i - m.start before < (m.grid (m.spanned ref)).length := by omega
  have href : ref ∈ m.owners := by
    rw [hsplit]
    simp
  refine ⟨(ref, (m.grid (m.spanned ref))[i - m.start before]),
    ⟨href, _, hentries before ref after hsplit, ?_⟩, ?_⟩
  · rw [List.mk_mem_zipIdx_iff_le_and_getElem?_sub]
    exact ⟨hlower, List.getElem?_eq_getElem hlt⟩
  · -- uniqueness: the blocks are disjoint, and a block numbers its keys one by one
    rintro ⟨ref', key'⟩ ⟨href', e', he', hrow⟩
    obtain ⟨before', after', hsplit'⟩ := List.append_of_mem href'
    rw [hentries before' ref' after' hsplit', Option.some.injEq] at he'
    subst he'
    rw [List.mk_mem_zipIdx_iff_le_and_getElem?_sub] at hrow
    obtain ⟨hlower', hkey'⟩ := hrow
    have hlt' : i - m.start before' < (m.grid (m.spanned ref')).length :=
      (List.getElem?_eq_some_iff.1 hkey').1
    have hupper' : i < m.start before' + (m.grid (m.spanned ref')).length := by omega
    obtain ⟨rfl, rfl⟩ := Model.block_unique (hsplit.symm.trans hsplit') hlower hupper hlower'
      hupper'
    rw [List.getElem?_eq_getElem hlt, Option.some.injEq] at hkey'
    rw [hkey']

/-- A layout is aligned once its keys are lists of numbers. -/
theorem aligned_of_laidOut (hs : m.Sound) (hd : m.Defined) (hg : m.OnGrid)
    {t : Transcription α (Coordinate α)} (h : Building.LaidOut m verbose t) :
    Aligned m (t.mapKeys (·.value)) := by
  have hentries : ∀ before ref after, m.owners = before ++ ref :: after →
      (t.vars.mapKeys (·.value)).get? ref = some
        { parameters := m.spanned ref,
          rows := (m.grid (m.spanned ref)).zipIdx (m.start before) } := by
    intro before ref after hsplit
    rw [Entries.get?_mapKeys, h.entries before ref after hsplit, Option.map_some, mapKeys_ownEntry]
  have hlength : t.finite.vars.length = m.start m.owners := by
    rw [h.finite, Model.length_blocks (List.Subset.refl _)]
  refine ⟨?_, ?_, fun before ref after hsplit => ?_, fun i hi => ?_, fun ref v hv => ?_⟩
  · rw [← h.naming] at h
    exact h.finite
  · -- the length, the entries, the owners and the point variables, in the order of the structure
    exact hlength.trans (start_owners m)
  · refine ⟨_, hentries before ref after hsplit, rfl, ?_, ?_, fun i key hkey => ?_⟩
    · exact List.zipIdx_map_fst _ _
    · exact List.zipIdx_map_snd _ _
    · rw [Entry.keys, List.zipIdx_map_fst] at hkey
      exact position?_zipIdx hs hd hkey
  · exact existsUnique_owner hentries (hlength ▸ hi)
  · exact h.point hs hd hg hv

/-- A transcription of a model with everything on its grid is aligned: no later pass adds a
variable, since it finds all that it asks for. -/
theorem aligned_of_transcribe (hs : m.Sound) (hd : m.Defined) (hg : m.OnGrid) {t : Transcription α}
    (ht : m.transcribe verbose = .ok t) : Aligned m t := by
  obtain ⟨t', hrun, rfl⟩ := Model.transcribe_eq_ok.1 ht
  have hends := Building.ends_run_of_respects hs hd hg verbose (fun _ _ _ _ => True) fun t _ =>
    ⟨fun _ _ _ => trivial, fun _ _ _ _ => trivial,
      fun _ _ _ _ _ _ _ _ _ _ => trivial, fun _ _ _ _ _ _ _ _ _ _ _ _ _ _ => trivial,
      fun _ _ _ _ _ _ => trivial⟩
  exact aligned_of_laidOut hs hd hg (hends.of_ok hrun).1

end Alignment

/-- A build brings point variables and measures onto the grid. -/
theorem onGrid_of_build [LawfulScalar α] {m : Model α} (h : Requested m) {e : Environment α}
    {verbose : Option Bool} {t : Transcription α} {w' : Workspace α}
    (hbuild : Transcription.build verbose ⟨e, m⟩ = .ok t w') (hdef : w'.model.Defined)
    (ha : w'.model.LabelsApart) : w'.model.OnGrid := by
  obtain ⟨m₁, -, -, hmodel, hprepared⟩ :=
    (Transcription.ends_build (w := ⟨e, m⟩) h.inv False.elim verbose).of_ok hbuild
  rw [hmodel] at hdef ha ⊢
  obtain ⟨hg, -⟩ := (hprepared hdef.gridDefined).stored ⟨ha.points, ha.measures⟩
  exact ⟨hg.points, hg.measures⟩

/-- A successful build gives a transcription that is aligned with the model it leaves behind, if all
supports are defined and no point variable and no measure stores its supports under the label of
derived supports. -/
theorem aligned_of_build [LawfulScalar α] {m : Model α} (h : Requested m) {e : Environment α}
    {verbose : Option Bool} {t : Transcription α} {w' : Workspace α}
    (hbuild : Transcription.build verbose ⟨e, m⟩ = .ok t w') (hdef : w'.model.Defined)
    (ha : w'.model.LabelsApart) : Aligned w'.model t := by
  have hg := onGrid_of_build h hbuild hdef ha
  obtain ⟨m₁, h₁, ht, hmodel, -⟩ :=
    (Transcription.ends_build (w := ⟨e, m⟩) h.inv False.elim verbose).of_ok hbuild
  rw [hmodel] at hdef hg ⊢
  have haligned := aligned_of_transcribe h₁.sound hdef ⟨hg.points, hg.measures⟩ ht
  exact ⟨haligned.vars, haligned.count, haligned.entries, haligned.unique, haligned.points⟩

/-- A variable over two intervals with its derivative, a partial mean, a point variable and a finite
variable. -/
theorem aligned_of_build_plane :
    let p : Ref := ⟨0, .parameter, 1⟩
    let q : Ref := ⟨0, .parameter, 2⟩
    let x : Ref := ⟨0, .infiniteVariable, 1⟩
    let data : MeasureData ℚ := ⟨[q], [1 / 2, 1 / 2], [[0, 1]], [], .uniformGrid, .unit, "mean"⟩
    let m : Model ℚ := Request.replay { id := 0 }
      [.addParameter (.scalar (.interval 0 1)) "t" (some [0, 1 / 2, 1]) 0 (some 6)
        (.finiteDifference .backward),
      .addParameter (.scalar (.interval 0 1)) "s" (some [0, 1]) 0 (some 6)
        (.finiteDifference .backward),
      .addFiniteVariable { name := "y" },
      .addInfiniteVariable "x" [.given p, .given q] none none .none false,
      .addDerivative (.given x) p "dx" (.ok "t"),
      .addMeasure (.given x) data ⟨rfl, by decide⟩ "mean",
      .addPointVariable (.given x) [1 / 2, 1] "half"]
    Requested m ∧ ∃ t w', Transcription.build none ⟨{}, m⟩ = .ok t w' ∧ w'.model.Defined ∧
      w'.model.LabelsApart ∧ t.finite.vars.length = 13 ∧ Aligned w'.model t := by
  intro p q x data m
  have hr : Requested m := .replay (.start 0 "model") _
  have hbuild : (match Transcription.build none ⟨{}, m⟩ with
    | .ok t w' => w'.model.isUnderived && t.finite.vars.length == 13
    | .error _ _ => false) = true := by decide +kernel
  split at hbuild
  · rename_i t w' hb
    rw [Bool.and_eq_true] at hbuild
    have hdef : w'.model.Defined := .of_exact _
    have ha : w'.model.LabelsApart := Model.labelsApart_of_underived hbuild.1
    exact ⟨hr, t, w', hb, hdef, ha, beq_iff_eq.1 hbuild.2,
      aligned_of_build hr hb hdef ha⟩
  · cases hbuild

end Discretization
