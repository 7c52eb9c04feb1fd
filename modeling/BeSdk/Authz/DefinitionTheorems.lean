/-
BeSdk.Authz.DefinitionTheorems — what `validate` says of the declarations it accepts.

`Checked` is read off a successful validation once; the facts about the indexes and
the records follow from it. The index by type keeps one resource of each type, and no
problem is reported for a second one, so the indexes answer for every declaration
exactly where the types are distinct (`validated_indexed`).
-/
import BeSdk.Authz.DefinitionRecords

namespace BeSdk

variable {d : Definitions} {i : Index}

/-! ## A successful validation -/

/-- What a validation without problems went through. -/
structure Definitions.Checked (d : Definitions) (i : Index) : Prop where
  types : i.resources = Dict.ofPairs (d.resources.map fun r => (r.type, r))
  operations : i.operations.entries = d.operations.map fun o => (o.key, o)
  keys : (d.operations.map Operation.key).Nodup
  resource : ∀ r ∈ d.resources, r.problems = []
  operation : ∀ o ∈ d.operations, ∃ seen, o.problems i.resources seen = []
  view : ∀ r ∈ d.resources, r.viewProblem i.operations = []

/-- An operation without a problem has a new key. -/
theorem Operation.fresh_of_problems {o : Operation} {resources : Dict Str Resource}
    {seen : Dict Str Operation} (h : o.problems resources seen = []) : seen.get? o.key = none := by
  simp only [Operation.problems, List.append_eq_nil_iff] at h
  simpa using h.1.1.1.1.1.2

/-- The operations are indexed in their order, none under the key of another. -/
theorem checkOperations_spec {resources : Dict Str Resource} :
    ∀ {ops : List Operation} {seen all : Dict Str Operation},
    checkOperations resources ops seen = ([], all) →
      all.entries = seen.entries ++ (ops.map fun o => (o.key, o)) ∧
      ∀ o ∈ ops, ∃ before, o.problems resources before = []
  | [], seen, all, h => by
      obtain ⟨-, rfl⟩ := Prod.mk.inj h
      simp
  | o :: rest, seen, all, h => by
      obtain ⟨hnil, hall⟩ := Prod.mk.inj h
      obtain ⟨ho, hrest⟩ := List.append_eq_nil_iff.mp hnil
      obtain ⟨hentries, hothers⟩ := checkOperations_spec (Prod.ext hrest hall)
      have hfresh := lookup_eq_none_iff.mp (Operation.fresh_of_problems ho)
      have hset : (seen.set o.key o).entries = seen.entries ++ [(o.key, o)] :=
        assign_of_not_mem hfresh
      constructor
      · rw [hentries, hset, List.append_assoc, List.singleton_append, List.map_cons]
      · intro p hp
        cases hp with
        | head => exact ⟨seen, ho⟩
        | tail _ hp => exact hothers p hp

/-- What is validated passed every check. -/
theorem Definitions.checked (h : d.validate = .ok i) : d.Checked i := by
  unfold Definitions.validate at h
  cases hcheck : checkOperations (Dict.ofPairs (d.resources.map fun r => (r.type, r)))
    d.operations Dict.empty with
  | mk problems operations =>
    simp only [hcheck] at h
    split at h
    · next hall =>
      cases h
      simp only [List.append_eq_nil_iff, List.flatMap_eq_nil_iff] at hall
      obtain ⟨⟨hresources, rfl⟩, hviews⟩ := hall
      obtain ⟨hentries, hproblems⟩ := checkOperations_spec hcheck
      have hnodup := operations.nodup
      rw [hentries] at hnodup
      exact ⟨rfl, hentries, by simpa [Dict.empty, Function.comp_def] using hnodup, hresources,
        hproblems, hviews⟩
    · cases h

section
variable (h : d.Checked i)
include h

/-- An operation is of a declared resource. -/
theorem Definitions.Checked.type_mem {o : Operation} (ho : o ∈ d.operations) :
    o.resourceType ∈ d.resources.map Resource.type := by
  obtain ⟨seen, hproblems⟩ := h.operation o ho
  simp only [Operation.problems, List.append_eq_nil_iff] at hproblems
  have hsome := hproblems.1.1.1.1.1.1.1.2
  rw [ite_eq_left_iff] at hsome
  have hget : (i.resources.get? o.resourceType).isSome = true := by
    by_contra hnone
    exact absurd (hsome hnone) (by simp)
  rw [h.types, Dict.isSome_get?_ofPairs] at hget
  simpa [Function.comp_def] using hget

theorem Definitions.Checked.get_operation {o : Operation} (ho : o ∈ d.operations) :
    i.operation o.key = some o := by
  rw [Index.operation, Dict.get?_eq_some_iff, h.operations]
  exact List.mem_map_of_mem ho

/-- A resource's view operation is declared for it. -/
theorem Definitions.Checked.view_operation {r : Resource} (hr : r ∈ d.resources) :
    ∃ o ∈ d.operations, i.operation r.viewOperation = some o ∧ o.resourceType = r.type := by
  have hview := h.view r hr
  unfold Resource.viewProblem at hview
  split at hview
  · next o hget =>
    have hmem := Dict.get?_eq_some_iff.mp hget
    rw [h.operations] at hmem
    obtain ⟨o', ho', heq⟩ := List.mem_map.mp hmem
    obtain rfl : o' = o := congrArg Prod.snd heq
    refine ⟨o', ho', hget, ?_⟩
    by_contra hne
    rw [if_neg hne] at hview
    cases hview
  · cases hview

/-- Resources of different types are found under them. -/
theorem Definitions.Checked.get_resource (hnodup : (d.resources.map Resource.type).Nodup)
    {r : Resource} (hr : r ∈ d.resources) : i.resource r.type = some r := by
  rw [Index.resource, h.types]
  exact Dict.get?_ofPairs (by simpa [Function.comp_def] using hnodup) (List.mem_map_of_mem hr)

end

/-! ## Identities -/

/-- The texts the identities of the records are hashes of do not collide. -/
def Definitions.CollisionFree (d : Definitions) : Prop :=
  ∀ p ∈ d.declarations, ∀ q ∈ d.declarations, ∀ id,
    stableId (p.identity d.component) = .ok id → stableId (q.identity d.component) = .ok id →
      identityText (p.identity d.component) = identityText (q.identity d.component)

/-- The records are told apart by their identities. -/
def Definitions.DistinctIds (d : Definitions) : Prop :=
  d.declarations.Pairwise fun p q =>
    ∀ id, stableId (p.identity d.component) = .ok id → stableId (q.identity d.component) ≠ .ok id

/-- One component's identity texts say the kind and the key. -/
theorem identityText_inj {component : Str} {p q : Declaration}
    (h : identityText (p.identity component) = identityText (q.identity component)) :
    p.kind ++ newline ++ p.key = q.kind ++ newline ++ q.key := by
  simpa [identityText, Declaration.identity, Str.join] using h

theorem identityText_resource {component : Str} {r r' : Resource}
    (h : identityText (r.declaration.identity component) =
      identityText (r'.declaration.identity component)) :
    r.type = r'.type := List.append_cancel_left (identityText_inj h)

theorem identityText_operation {component : Str} {o o' : Operation}
    (h : identityText (o.declaration.identity component) =
      identityText (o'.declaration.identity component)) :
    o.key = o'.key := List.append_cancel_left (identityText_inj h)

/-- A resource and an operation have different identities. -/
theorem identityText_kinds {component : Str} (r : Resource) (o : Operation) :
    identityText (r.declaration.identity component) ≠ identityText
    (o.declaration.identity component) := by
  intro h
  have hkinds := congrArg List.head? (identityText_inj h)
  revert hkinds
  exact fun hkinds => absurd (Option.some.inj hkinds) (by decide)

/-- Distinct types and distinct keys have distinct identities. -/
theorem Definitions.distinctIds (hash : d.CollisionFree)
    (htypes : (d.resources.map Resource.type).Nodup)
    (hkeys : (d.operations.map Operation.key).Nodup) : d.DistinctIds := by
  have hdistinct : d.declarations.Pairwise fun p q =>
      identityText (p.identity d.component) ≠ identityText (q.identity d.component) := by
    refine List.pairwise_append.mpr ⟨?_, ?_, ?_⟩
    · rw [List.pairwise_map]
      exact (List.pairwise_map.mp htypes).imp fun hne htext => hne (identityText_resource htext)
    · rw [List.pairwise_map]
      exact (List.pairwise_map.mp hkeys).imp fun hne htext => hne (identityText_operation htext)
    · intro p hp q hq
      obtain ⟨r, -, rfl⟩ := List.mem_map.mp hp
      obtain ⟨o, -, rfl⟩ := List.mem_map.mp hq
      exact identityText_kinds r o
  refine hdistinct.imp_of_mem ?_
  intro p q hp hq hne id hidp hidq
  exact hne (hash p hp q hq id hidp hidq)

/-! ## The indexes -/

/-- Every declaration is what the indexes and the identities answer for it. -/
structure Definitions.Indexed (d : Definitions) (i : Index) : Prop where
  resource : ∀ r ∈ d.resources, i.resource r.type = some r
  operation : ∀ o ∈ d.operations, i.operation o.key = some o ∧
    ∃ r ∈ d.resources, i.resource o.resourceType = some r
  view : ∀ r ∈ d.resources, ∃ o ∈ d.operations,
    i.operation r.viewOperation = some o ∧ o.resourceType = r.type ∧
    i.resource o.resourceType = some r
  types : (d.resources.map Resource.type).Nodup
  keys : (d.operations.map Operation.key).Nodup
  ids : d.DistinctIds

/-- Validated declarations are indexed without loss exactly where no two resources
share a type: a second one of the same type replaces the first unreported. -/
theorem validated_indexed (h : d.validate = .ok i) (hash : d.CollisionFree) :
    d.Indexed i ↔ (d.resources.map Resource.type).Nodup := by
  have hchecked := Definitions.checked h
  constructor
  · exact fun hindexed => hindexed.types
  · intro htypes
    refine ⟨fun r hr => hchecked.get_resource htypes hr, ?_, ?_, htypes, hchecked.keys, ?_⟩
    · intro o ho
      obtain ⟨r, hr, htype⟩ := List.mem_map.mp (hchecked.type_mem ho)
      exact ⟨hchecked.get_operation ho, r, hr, htype ▸ hchecked.get_resource htypes hr⟩
    · intro r hr
      obtain ⟨o, ho, hget, htype⟩ := hchecked.view_operation hr
      exact ⟨o, ho, hget, htype, htype ▸ hchecked.get_resource htypes hr⟩
    · exact Definitions.distinctIds hash htypes hchecked.keys

/-! ## Two resources, and one declared twice -/

/-- A resource whose only field is of the class. -/
def bookResource (cls : FieldClass) : Resource where
  type := str "lib.book"
  viewOperation := str "lib.read"
  dimensions := some Dict.empty
  fields := ⟨[(str "price", ⟨cls, str "lib.price", [], [], []⟩)], by simp⟩

def bookOperation : Operation where
  key := str "lib.read"
  resourceType := str "lib.book"
  purpose := str "read"
  riskClass := str "low"

def bookDefinitions : Definitions := ⟨str "test/lib", [bookResource .restricted], [bookOperation]⟩

/-- The second declaration drops the restriction of the first. -/
def bookTwice : Definitions :=
  ⟨str "test/lib", [bookResource .restricted, bookResource .ordinary], [bookOperation]⟩

def bookIndex (cls : FieldClass) : Index :=
  ⟨⟨[(str "lib.book", bookResource cls)], by simp⟩, ⟨[(str "lib.read", bookOperation)], by simp⟩⟩

theorem bookDefinitions_validate : bookDefinitions.validate = .ok (bookIndex .restricted) := rfl

theorem bookTwice_validate : bookTwice.validate = .ok (bookIndex .ordinary) := rfl

def bookIdentity : List Str := [str "test/lib", str "resource", str "lib.book"]

def readIdentity : List Str := [str "test/lib", str "operation", str "lib.read"]

theorem book_ids : stableId bookIdentity ≠ stableId readIdentity := by decide +kernel

/-- Declarations of these two identities have no collision. -/
theorem book_collisionFree (h : ∀ p ∈ d.declarations, p.identity d.component = bookIdentity ∨
    p.identity d.component = readIdentity) : d.CollisionFree := by
  intro p hp q hq id hidp hidq
  rcases h p hp with hp | hp <;> rcases h q hq with hq | hq <;> rw [hp] at hidp ⊢ <;>
    rw [hq] at hidq ⊢
  · exact absurd (hidp.trans hidq.symm) book_ids
  · exact absurd (hidq.trans hidp.symm) book_ids

/-- Declarations of different stable IDs have no collision. -/
theorem collisionFree_of_nodup
    (h : (d.declarations.map fun p => stableId (p.identity d.component)).Nodup) :
    d.CollisionFree := by
  intro p hp q hq id hidp hidq
  rw [List.inj_on_of_nodup_map h hp hq (hidp.trans hidq.symm)]

/-- A resource beside the book, with an operation of its own. -/
def loanResource : Resource where
  type := str "lib.loan"
  viewOperation := str "lib.list"
  dimensions := some Dict.empty
  fields := ⟨[(str "due", ⟨.ordinary, str "lib.due", [], [], []⟩)], by simp⟩

def loanOperation : Operation where
  key := str "lib.list"
  resourceType := str "lib.loan"
  purpose := str "read"
  riskClass := str "low"

def libraryDefinitions : Definitions :=
  ⟨str "test/lib", [bookResource .restricted, loanResource], [bookOperation, loanOperation]⟩

def libraryIndex : Index :=
  ⟨⟨[(str "lib.book", bookResource .restricted), (str "lib.loan", loanResource)], by decide⟩,
    ⟨[(str "lib.read", bookOperation), (str "lib.list", loanOperation)], by decide⟩⟩

theorem libraryDefinitions_validate : libraryDefinitions.validate = .ok libraryIndex := rfl

theorem libraryDefinitions_collisionFree : libraryDefinitions.CollisionFree :=
  collisionFree_of_nodup (by decide +kernel)

theorem validated_indexed_library : libraryDefinitions.Indexed libraryIndex :=
  (validated_indexed libraryDefinitions_validate libraryDefinitions_collisionFree).mpr (by decide)

theorem bookTwice_identity : ∀ p ∈ bookTwice.declarations,
    p.identity bookTwice.component = bookIdentity ∨ p.identity bookTwice.component = readIdentity :=
  List.forall_mem_cons.mpr ⟨.inl rfl,
    List.forall_mem_cons.mpr ⟨.inl rfl, List.forall_mem_singleton.mpr (.inr rfl)⟩⟩

theorem declared_twice_unreported : ∃ i, bookTwice.validate = .ok i ∧ bookTwice.CollisionFree ∧
    i.resource (str "lib.book") ≠ some (bookResource .restricted) ∧ ¬ bookTwice.Indexed i := by
  refine ⟨_, bookTwice_validate, book_collisionFree bookTwice_identity, ?_,
    fun h => absurd h.types (by decide)⟩
  intro hget
  have hfields := congrArg Resource.fields (Option.some.inj hget)
  exact absurd hfields (by decide)

end BeSdk
