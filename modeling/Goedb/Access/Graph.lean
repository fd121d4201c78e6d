import Goedb.Access.Records
import Goedb.Lib.Ring

/-!
# Access — the graph a store of records represents

What the heap file and the in-memory graph are for: nodes and relationships by their ids.  The
relationships at a node are chained in a ring through their next and previous pointers, one pair
for each endpoint; `Graph.Chain g n first l` says that the ring of `n` runs through `l` from
`first` on.

`Graph.WellFormed` is the invariant of the records: every node has such a chain, through exactly
the relationships that have it as an endpoint; the two sides of a self-loop agree; endpoints exist.
-/

namespace Goedb

open Lib

/-- `n` is an endpoint. -/
def Relationship.At (r : Relationship) (n : Ulong) : Prop := r.sourceNode = n ∨ r.targetNode = n

instance (r : Relationship) (n : Ulong) : Decidable (r.At n) := inferInstanceAs (Decidable (_ ∨ _))

/-- The next pointer at `node`: the source side if the source is `node`, else the target side. -/
def Relationship.nextAt (node : Ulong) (r : Relationship) : Ulong :=
  if node = r.sourceNode then r.nextRelSource else r.nextRelTarget

/-- What a relationship says, without its place in the chains. -/
def Relationship.payload (r : Relationship) : Ulong × Ulong × Double × Ulong :=
  (r.sourceNode, r.targetNode, r.weight, r.label)

/-- Nodes and relationships by their ids. -/
@[ext] structure Graph where
  node : Ulong → Option Node
  rel : Ulong → Option Relationship

namespace Graph

variable (g : Graph)

/-- The relationship after `x` at `n`. -/
def next (n x : Ulong) : Ulong := (g.rel x).elim x (·.nextAt n)

/-- The relationship before `x` at `n`. -/
def prev (n x : Ulong) : Ulong := (g.rel x).elim x (·.prevAt n)

/-- The chain of `n` runs through the ring `l`, from `first` on. -/
structure Chain (n first : Ulong) (l : List Ulong) : Prop where
  nodup : l.Nodup
  mem : ∀ x, x ∈ l ↔ ∃ r, g.rel x = some r ∧ r.At n
  ring : Ring (g.next n) (g.prev n) l
  first_eq : first = l.headD uninitializedLong
  first_eq_iff : first = uninitializedLong ↔ l = []

/-- The next pointers at `n` run through the cycle `l`, from `first` on.  The previous pointers are
not looked at. -/
structure Walk (n first : Ulong) (l : List Ulong) : Prop where
  nodup : l.Nodup
  mem : ∀ x, x ∈ l ↔ ∃ r, g.rel x = some r ∧ r.At n
  round : Round (g.next n) l
  first_eq : first = l.headD uninitializedLong
  first_eq_iff : first = uninitializedLong ↔ l = []

/-- Every node has its cycle of next pointers. -/
def Circular : Prop := ∀ n nd, g.node n = some nd → ∃ l, g.Walk n nd.firstRelationship l

/-- The two sides of a self-loop agree. -/
def LoopsAgree : Prop := ∀ x r, g.rel x = some r → r.sourceNode = r.targetNode →
  r.prevRelSource = r.prevRelTarget ∧ r.nextRelSource = r.nextRelTarget

/-- Every node has its chain, self-loops agree, endpoints exist. -/
structure WellFormed : Prop where
  chain : ∀ n nd, g.node n = some nd → ∃ l, g.Chain n nd.firstRelationship l
  loops : g.LoopsAgree
  endpoints : ∀ x r, g.rel x = some r →
    (∃ nd, g.node r.sourceNode = some nd) ∧ ∃ nd, g.node r.targetNode = some nd

/-- A node stored under its id. -/
def setNode (nd : Node) : Graph := { g with node := Function.update g.node nd.id (some nd) }

/-- A relationship stored under its id. -/
def setRel (r : Relationship) : Graph := { g with rel := Function.update g.rel r.id (some r) }

/-- A node taken out. -/
def removeNode (id : Ulong) : Graph := { g with node := Function.update g.node id none }

/-- The label of the node at an id. -/
def labelAt (n : Ulong) : Option Ulong := (g.node n).map Node.label

/-- What the relationship at an id says. -/
def payloadAt (x : Ulong) : Option (Ulong × Ulong × Double × Ulong) :=
  (g.rel x).map Relationship.payload

variable {g} {n first x y : Ulong} {l : List Ulong} {r : Relationship}

theorem next_of_rel (h : g.rel x = some r) : g.next n x = r.nextAt n := by rw [next, h]; rfl

theorem prev_of_rel (h : g.rel x = some r) : g.prev n x = r.prevAt n := by rw [prev, h]; rfl

theorem exists_node_of_labelAt (h : (g.labelAt n).isSome) :
    ∃ nd, g.node n = some nd := by
  rw [labelAt, Option.isSome_map] at h
  exact Option.isSome_iff_exists.mp h

namespace Chain

variable (hc : g.Chain n first l)
include hc

theorem walk : g.Walk n first l :=
  ⟨hc.nodup, hc.mem, Round.of_ring hc.ring, hc.first_eq, hc.first_eq_iff⟩

theorem mem_of_rel (h : g.rel x = some r) (ha : r.At n) : x ∈ l := (hc.mem x).mpr ⟨r, h, ha⟩

/-- The pointers of a relationship of the chain lead to relationships of the chain. -/
theorem next_mem (h : g.rel x = some r) (ha : r.At n) : r.nextAt n ∈ l :=
  next_of_rel h ▸ hc.ring.nxt_mem (hc.mem_of_rel h ha)

theorem prev_mem (h : g.rel x = some r) (ha : r.At n) : r.prevAt n ∈ l :=
  prev_of_rel h ▸ hc.ring.prv_mem (hc.mem_of_rel h ha)

/-- The chain is what the next pointers go round through. -/
theorem eq_of_round {t : List Ulong} (hU : first ≠ uninitializedLong)
    (hr : Round (g.next n) (first :: t)) (hd : (first :: t).Nodup) : l = first :: t := by
  have hfirst := hc.first_eq
  cases l with
  | nil => exact absurd hfirst hU
  | cons x u =>
      rw [List.headD_cons] at hfirst
      subst hfirst
      rw [Round.unique hc.walk.round hr hc.nodup hd]

end Chain

theorem WellFormed.circular (hw : g.WellFormed) : g.Circular := by
  intro n nd hn
  obtain ⟨l, hc⟩ := hw.chain n nd hn
  exact ⟨l, hc.walk⟩

end Graph

end Goedb
