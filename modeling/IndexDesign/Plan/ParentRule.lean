import IndexDesign.Plan.Rejection
import IndexDesign.Plan.State

/-! # Parent rules — whether a lookup makes use of the one before it

    Looking up an index after another one is worthwhile where the second starts
    from what the first found, or does the first one's work as well.  The rules
    are asked in order; the first that does not pass decides. -/

namespace IndexDesign

/-- A lookup that is being considered: the state, the index looked up last and the
    candidate. -/
structure Proposal (α : Type) where
  state : PlanState α
  parent : Option Index
  candidate : Index

namespace Proposal

variable {α : Type} [Scalar α]

/-- The identifier of the entity where the branch stands. -/
def headId (p : Proposal α) : Option Field :=
  (p.state.joins.head?.bind p.state.graph.entity?).map (·.id)

/-- The fields that have a value: those given and fetched, and the identifier of the entity
    where the branch stands if it is reachable. -/
def available (p : Proposal α) : FieldSet :=
  let known := p.state.given.union p.state.fetched
  match p.headId with
  | some id => if p.state.isReachable id then known.insert id else known
  | none => known

/-- The first ordered fields of the candidate that have a value, where its partition does. -/
def boundPrefix (p : Proposal α) : List Field :=
  let available := p.available
  if p.candidate.partition.isSubset available then
    p.candidate.ordered.take (p.candidate.orderedWithin available)
  else []

end Proposal

/-- What a rule says of a proposal. -/
inductive Verdict where
  | accept
  | reject (reason : Rejection)
  /-- The rule does not decide. -/
  | pass
  deriving DecidableEq, Repr

/-- The rules about a lookup and the one before it. -/
inductive ParentRule where
  /-- The first lookup of a branch is accepted. -/
  | firstLookup
  /-- Two lookups by identifier on the same entity are refused. -/
  | repeatedIdentityLookup
  /-- Without an identifier to start from, any lookup is accepted. -/
  | noParentId
  /-- A partition by the identifier is accepted. -/
  | consumesParentId
  /-- The identifier among the bound ordered fields is accepted. -/
  | orderedPrefixId
  /-- The parts of a composite identifier in partition and bound ordered fields are
      accepted. -/
  | compositeKeySplit
  /-- An index that does the parent's work and needs none of its results is accepted. -/
  | subsumingParent
  /-- Any other lookup is refused. -/
  | parentIdUnused
  deriving DecidableEq, Repr

namespace ParentRule

/-- The rules in the order in which they are asked. -/
def all : List ParentRule :=
  [firstLookup, repeatedIdentityLookup, noParentId, consumesParentId, orderedPrefixId,
    compositeKeySplit, subsumingParent, parentIdUnused]

variable {α : Type} [Scalar α]

/-- Whether the parts of a composite identifier lie in the partition and the bound ordered
    fields, one of them at least in the partition. -/
def splitsComposite (p : Proposal α) (id : Field) : Bool :=
  match p.state.graph.entity? id.entity with
  | none => false
  | some entity =>
    let parts := id.composite.filterMap entity.field?
    let ordered := SortedSet.ofList p.boundPrefix
    let partition := p.candidate.partition
    id.isCompositeId && parts.length == id.composite.length
      && parts.all (fun f => partition.contains f || ordered.contains f)
      && parts.any partition.contains

/-- Whether the candidate has all fields and entities of the parent, is no smaller, and is
    found by given fields alone. -/
def subsumes (p : Proposal α) (parent : Index) : Bool :=
  parent.allFields.isSubset p.candidate.allFields
    && parent.graph.names.all p.candidate.graph.contains
    && p.candidate.partition.isSubset p.state.given
    && decide ((parent.size : α) ≤ p.candidate.size)

/-- What a rule says of a proposal. -/
def verdict (p : Proposal α) : ParentRule → Verdict
  | firstLookup => if p.parent.isNone then .accept else .pass
  | repeatedIdentityLookup =>
    let repeated := p.parent.any fun parent =>
      parent.isIdentity && p.candidate.isIdentity && parent.graph == p.candidate.graph
    if repeated then .reject .repeatedIdentityLookup else .pass
  | noParentId => if p.headId.any p.state.isReachable then .pass else .accept
  | consumesParentId => if p.headId.any p.candidate.partition.contains then .accept else .pass
  | orderedPrefixId =>
    if p.headId.any (SortedSet.ofList p.boundPrefix).contains then .accept else .pass
  | compositeKeySplit => if p.headId.any (splitsComposite p) then .accept else .pass
  | subsumingParent => if p.parent.any (subsumes p) then .accept else .pass
  | parentIdUnused => .reject .parentIdUnused

/-- The decision on a proposal and the rule that makes it. -/
def decision (p : Proposal α) : ParentRule × Except Rejection Unit :=
  let decided := all.findSome? fun rule =>
    match verdict p rule with
    | .accept => some (rule, .ok ())
    | .reject reason => some (rule, .error reason)
    | .pass => none
  decided.getD (parentIdUnused, .error .parentIdUnused)

end ParentRule

end IndexDesign
