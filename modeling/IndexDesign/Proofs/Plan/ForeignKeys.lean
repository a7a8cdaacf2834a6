import IndexDesign.Proofs.Entity
import IndexDesign.Proofs.Plan.Pending

/-! # What a foreign key makes known

    A fetched foreign key holds the identifier of the entity it points to.  The
    search takes it to make known every field of that entity that is of the
    identifier type, while the entity itself names one field as its identifier.

    For a field of an entity that is built from declarations the two agree but
    for identifiers declared besides the last.  So where an entity is declared
    with one identifier, what a branch takes as known is given by the query, is
    fetched, or is the identifier that a fetched foreign key holds; and where it
    is declared with two, a foreign key makes a column known whose value nobody
    has. -/

namespace IndexDesign

variable {α : Type}

/-- A fetched foreign key holds identifiers of the entity. -/
def IsPointedTo (fetched : FieldSet) (e : Entity) : Prop :=
  ∃ g ∈ fetched.toList, g.foreignTarget = some e.name

/-- The value of the field of the entity is at hand: the query gives it, or it is fetched, or it is
    the entity's identifier and a fetched foreign key holds it. -/
def IsKnown (q : Query α) (fetched : FieldSet) (e : Entity) (f : Field) : Prop :=
  f ∈ q.eq ∨ f ∈ fetched ∨ f = e.id ∧ IsPointedTo fetched e

/-- The fields whose values the step takes as known: the partition that it looks up, or the
    conditions that it applies. -/
def Step.relied (step : Step α) : List Field :=
  match step.kind with
  | .lookup index _ => index.partition.toList
  | .filter eq range => eq ++ range
  | _ => []

variable {name : String} {count : Nat} {declarations : List Declaration} {e : Entity} {f : Field}
  {fetched : FieldSet}

/-- A field of a built entity is at hand where it is fetched, or where it is of the identifier type
    and the entity is pointed to. -/
theorem isAtHand_iff_identifiers (he : Entity.build name count declarations = .ok e)
    (hf : f ∈ e.fields.toList) :
    IsAtHand fetched f ↔ f ∈ fetched ∨ f ∈ e.identifiers ∧ IsPointedTo fetched e := by
  rw [IsAtHand, Entity.entity_of_build he f hf]
  refine or_congr_right ⟨?_, ?_⟩
  · rintro ⟨hisId, hpointed⟩
    exact ⟨List.mem_filter.mpr ⟨hf, hisId⟩, hpointed⟩
  · rintro ⟨hmem, hpointed⟩
    exact ⟨(List.mem_filter.mp hmem).2, hpointed⟩

/-- What is given or at hand is known, but for the identifiers besides the last that are
    declared. -/
theorem given_or_isAtHand_iff {q : Query α} (he : Entity.build name count declarations = .ok e)
    (hf : f ∈ e.fields.toList) :
    (f ∈ q.eq ∨ IsAtHand fetched f) ↔ IsKnown q fetched e f
      ∨ f ∈ e.identifiers ∧ f ≠ e.id ∧ IsPointedTo fetched e := by
  rw [isAtHand_iff_identifiers he hf, IsKnown]
  constructor
  · rintro (hgiven | hfetched | ⟨hmem, hpointed⟩)
    · exact .inl (.inl hgiven)
    · exact .inl (.inr (.inl hfetched))
    · by_cases hid : f = e.id
      · exact .inl (.inr (.inr ⟨hid, hpointed⟩))
      · exact .inr ⟨hmem, hid, hpointed⟩
  · rintro ((hgiven | hfetched | ⟨rfl, hpointed⟩) | ⟨hmem, -, hpointed⟩)
    · exact .inl hgiven
    · exact .inr (.inl hfetched)
    · exact .inr (.inr ⟨Entity.id_mem_identifiers_of_build he, hpointed⟩)
    · exact .inr (.inr ⟨hmem, hpointed⟩)

/-- With one identifier declared, what is given or at hand is known. -/
theorem given_or_isAtHand_iff_isKnown {q : Query α}
    (he : Entity.build name count declarations = .ok e)
    (hone : declarations.countP (·.isIdentifier) = 1) (hf : f ∈ e.fields.toList) :
    (f ∈ q.eq ∨ IsAtHand fetched f) ↔ IsKnown q fetched e f := by
  rw [given_or_isAtHand_iff he hf, (Entity.identifiers_eq_iff he).mpr hone, List.mem_singleton]
  exact or_iff_left fun ⟨hid, hother, _⟩ => hother hid

namespace Planner

variable [Scalar α] {p : Planner α} {q : Query α} {path steps : List (Step α)}
  {t next : Transition α}

omit [Scalar α] in
theorem isBound_iff (ht : t.state.Tracks q steps) :
    t.state.isBound f = true ↔ f ∈ q.eq ∨ IsAtHand (fetchedBy steps) f := by
  rw [PlanState.isBound, Bool.or_eq_true, PlanState.isReachable_iff, PlanState.given, ht.query,
    ht.fetched]
  rfl

/-- What a step takes as known is given or at hand. -/
theorem given_or_isAtHand_of_relied (ht : t.state.Tracks q steps) (h : p.Follows path t next)
    (hf : f ∈ next.step.relied) : f ∈ q.eq ∨ IsAtHand (fetchedBy steps) f := by
  have hcan := canRun_of_follows ht h
  unfold Step.CanRun at hcan
  unfold Step.relied at hf
  split at hf
  · next hkind =>
    rw [hkind] at hcan
    exact hcan f hf
  · next hkind =>
    rw [hkind] at hcan
    exact .inr (hcan f hf)
  · exact nomatch hf

theorem tracks_of_reaches (h : p.Reaches q path t) : t.state.Tracks q path.reverse := by
  refine holds_of_reaches (fun path t => t.state.Tracks q path.reverse) (tracks_start q) ?_ h
  intro path t next ht hfollows
  rw [List.reverse_cons]
  exact tracks_of_follows ht hfollows

/-- **WHAT A FOREIGN KEY BINDS**: wherever the search comes, a field of an entity is bound where
    it is known, or where it is an identifier that is declared besides the last one and a fetched
    foreign key points to the entity.  So where one identifier is declared, nothing is bound but
    what is known, and no lookup or filter that follows takes more as known. -/
theorem isBound_iff_of_reaches (he : Entity.build name count declarations = .ok e)
    (hf : f ∈ e.fields.toList) (h : p.Reaches q path t) :
    (t.state.isBound f = true ↔ IsKnown q (fetchedBy path.reverse) e f
        ∨ f ∈ e.identifiers ∧ f ≠ e.id ∧ IsPointedTo (fetchedBy path.reverse) e)
      ∧ (declarations.countP (·.isIdentifier) = 1 →
          (t.state.isBound f = true ↔ IsKnown q (fetchedBy path.reverse) e f)
            ∧ ∀ next ∈ p.successors path t, f ∈ next.step.relied →
                IsKnown q (fetchedBy path.reverse) e f) := by
  have ht := tracks_of_reaches h
  rw [isBound_iff ht]
  refine ⟨given_or_isAtHand_iff he hf, fun hone => ?_⟩
  have hknown : (f ∈ q.eq ∨ IsAtHand (fetchedBy path.reverse) f)
      ↔ IsKnown q (fetchedBy path.reverse) e f := given_or_isAtHand_iff_isKnown he hone hf
  refine ⟨hknown, fun next hnext hrelied => hknown.mp ?_⟩
  exact given_or_isAtHand_of_relied ht (follows_of_mem_successors hnext) hrelied

/-! ## Authors of a topic

    The messages about a topic come with the foreign keys of their authors, who
    are then looked up. -/

def authorsDraft : Query.Draft Rat where
  path := ["tweet", "user"]
  select := ["user.name"]
  eq := ["tweet.topic"]
  range := []
  orderBy := []
  groupBy := []
  aggregates := []
  limit := none
  weight := 1
  text := some "authors"

/-- The names of the authors, where users are rows of the given entity. -/
def authorsQuery (user : Entity) : Query Rat where
  text := "authors"
  select := SortedSet.ofList [userName]
  eq := SortedSet.ofList [tweetTopic]
  range := ∅
  orderBy := []
  groupBy := ∅
  aggregates := ∅
  limit := none
  graph := (JoinGraph.single tweetEntity).withEdge tweetEntity user tweetUser
  weight := 1
  handle := 0

/-- Messages by their topic, with their authors. -/
def topicTweetsIndex : Index where
  partition := SortedSet.ofList [tweetTopic]
  ordered := [tweetId]
  extra := SortedSet.ofList [tweetUser]
  aggregates := ∅
  groupBy := ∅
  graph := JoinGraph.single tweetEntity

/-- Behind the messages the identifier of a user is bound, and it is known. -/
theorem isBound_iff_of_reaches_userId :
    ∃ count declarations, Entity.build "user" count declarations = .ok userEntity
      ∧ declarations.countP (·.isIdentifier) = 1 ∧ userId ∈ userEntity.fields.toList
      ∧ ∃ path t, (ofIndexes [topicTweetsIndex] .requestCount {}).Reaches
            (authorsQuery userEntity) path t
        ∧ t.state.isBound userId = true
        ∧ IsKnown (authorsQuery userEntity) (fetchedBy path.reverse) userEntity userId := by
  have he : Entity.build "user" 100 [.identifier "id" [], .field "city" (.string 16) (some 10),
      .field "age" .integer (some 50), .field "name" (.string 32) (some 90)]
      = .ok userEntity := rfl
  have hbuild : Query.build (userModel.add tweetEntity) authorsDraft
      = .ok (authorsQuery userEntity) := rfl
  have hmem : userId ∈ userEntity.fields.toList := by decide +kernel
  have hfirst : (((ofIndexes [topicTweetsIndex] (.requestCount : CostModel Rat) {}).successors []
      (Transition.start (authorsQuery userEntity))).any (·.state.isBound userId)) = true := by
    decide +kernel
  obtain ⟨t, hnext, hbound⟩ := List.any_eq_true.mp hfirst
  have hreaches := Reaches.onward .start (not_isAnswered_start hbuild) hnext
  have hone := (isBound_iff_of_reaches he hmem hreaches).2 rfl
  exact ⟨_, _, he, rfl, hmem, _, t, hreaches, hbound, hone.1.mp hbound⟩

/-! ## Users with a handle

    A user may be declared with a handle as an identifier, before the one that
    identifies the rows. -/

def userHandle : Field := (Field.ofType "user" "handle" .id).withCardinality 100

def handledUser : Entity :=
  ⟨"user", 100, userId, SortedSet.ofList [userId, userHandle, userName]⟩

def handledModel : Model := (Model.empty.add handledUser).add tweetEntity

/-- The authors of a topic whose handles come after a given one. -/
def handlesDraft : Query.Draft Rat :=
  { authorsDraft with range := ["user.handle"] }

def handlesQuery : Query Rat :=
  { authorsQuery handledUser with range := SortedSet.ofList [userHandle] }

theorem isBuilt_handledModel : handledModel.IsBuilt := by
  intro e he
  rcases List.mem_cons.mp he with rfl | he
  · exact ⟨"tweet", 1000, [.identifier "id" [], .field "topic" (.string 16) (some 50),
      .field "user" (.foreignKey "user") (some 100)], rfl⟩
  · rw [List.mem_singleton.mp he]
    exact ⟨"user", 100, [.identifier "handle" [], .identifier "id" [],
      .field "name" (.string 32) (some 90)], rfl⟩

/-- Behind the messages the handle is bound as well, though it is not known, and the search
    filters by it. -/
theorem userHandle_bound_not_known :
    handledModel.IsBuilt ∧ Query.build handledModel handlesDraft = .ok handlesQuery
      ∧ topicTweetsIndex.fault?.isNone = true ∧ userHandle ∈ handledUser.fields.toList
      ∧ ∃ path t, (ofIndexes [topicTweetsIndex] .requestCount {}).Reaches handlesQuery path t
        ∧ t.state.isBound userHandle = true
        ∧ ¬ IsKnown handlesQuery (fetchedBy path.reverse) handledUser userHandle
        ∧ ∃ next ∈ (ofIndexes [topicTweetsIndex] .requestCount {}).successors path t,
            userHandle ∈ next.step.relied := by
  have hbuild : Query.build handledModel handlesDraft = .ok handlesQuery := rfl
  have hfirst : (((ofIndexes [topicTweetsIndex] (.requestCount : CostModel Rat) {}).successors []
      (Transition.start handlesQuery)).any fun t =>
        t.state.isBound userHandle && !(fetchedBy [t.step]).contains userHandle
          && ((ofIndexes [topicTweetsIndex] (.requestCount : CostModel Rat) {}).successors
            [t.step] t).any fun next => decide (userHandle ∈ next.step.relied)) = true := by
    decide +kernel
  obtain ⟨t, hnext, hfound⟩ := List.any_eq_true.mp hfirst
  rw [Bool.and_eq_true, Bool.and_eq_true, Bool.not_eq_true', SortedSet.contains_eq_false_iff,
    List.any_eq_true] at hfound
  obtain ⟨⟨hbound, hunfetched⟩, next, hlater, hrelied⟩ := hfound
  refine ⟨isBuilt_handledModel, hbuild, by decide +kernel, by decide +kernel,
    [t.step], t, .onward .start (not_isAnswered_start hbuild) hnext, hbound, ?_,
    next, hlater, of_decide_eq_true hrelied⟩
  rintro (hgiven | hfetched | ⟨hid, -⟩)
  · exact absurd hgiven (by decide +kernel)
  · exact hunfetched hfetched
  · exact absurd hid (by decide)

end Planner

end IndexDesign
