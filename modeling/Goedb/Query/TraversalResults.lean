import Goedb.Query.Traversal

/-!
# Query — what `bfs` and `dfs` return

* `HeapFile.traversals_reach`: both return, and give numbers to the nodes that are reached, with
  parents that lead back to the source; the numbers of `bfs` are the least numbers of hops.
-/

namespace Goedb

open Lib

/-! ### Trees of parents -/

namespace Graph

variable (g : Graph) (direction : Direction)

/-- `w` is reached from `v` along relationships in the direction. -/
def Reaches : Ulong → Ulong → Prop :=
  Relation.ReflTransGen fun v w => ∃ x, g.Leads direction v x w

/-- The least number of relationships that lead from `v` to `w` in the direction. -/
def IsHopDist (v w : Ulong) (k : ℕ) : Prop := IsDist (fun v w => ∃ x, g.Leads direction v x w) v w k

end Graph

namespace TraversalResult

/-- The node that the parents say is before `v`, or `v` if there is none. -/
def before (r : TraversalResult) (g : Graph) (v : Ulong) : Ulong :=
  ((r.parents.lookup v).bind g.rel).elim v (·.otherEnd v)

/-- The node has a number other than `ULONG_MAX`. -/
def Numbered (r : TraversalResult) (v n : Ulong) : Prop :=
  r.traversalNumbers.lookup v = some n ∧ n ≠ ulongMax

/-- The nodes that are reached from the source have numbers, and parents that lead back to it. -/
structure Spans (r : TraversalResult) (g : Graph) (direction : Direction) (source : Ulong) : Prop where
  source_eq : r.source = source
  keys : ∀ v, (r.traversalNumbers.lookup v).isSome ↔ (g.node v).isSome
  reached : ∀ v, (∃ n, r.Numbered v n) ↔ g.Reaches direction source v
  parent : ∀ v n, v ≠ source → r.Numbered v n → ∃ x u m, r.parents.lookup v = some x ∧
    g.Leads direction u x v ∧ r.Numbered u m ∧ n.toNat = m.toNat + 1
  parentless : ∀ v, v = source ∨ ¬ g.Reaches direction source v → r.parents.lookup v = none
  back : ∀ v, g.Reaches direction source v → ∃ k, (r.before g)^[k] v = source

end TraversalResult

namespace Store

variable {s : Store} {direction : Direction} {source : Ulong} {r : TraversalResult}
  {Take : List Ulong → Ulong → List Ulong → Prop} {f : Found Ulong Ulong}

/-- The parents lead to the points before. -/
theorem Represents.before_eq {pending : List Ulong}
    (hrep : s.Represents r.traversalNumbers r.parents f)
    (hF : Forest (s.graph.Leads direction) source f pending) (v : Ulong) :
    r.before s.graph v = f.up v := by
  rw [TraversalResult.before, hrep.parents, Found.up]
  cases hp : f.parent v with
  | none => rfl
  | some p =>
      obtain ⟨⟨rel, hrel, hg, hend⟩, -⟩ := hF.edge v p.1 p.2 hp
      rw [Option.map_some, Option.bind_some, hrel, Option.elim_some, Option.elim_some, ← hend]
      exact Relationship.otherEnd_otherEnd hg.at

section Represents

variable (hs : s.Walkable) (hsrc : s.Live .node source)
  (hS : Search (s.graph.Leads direction) Take source f none [])
  (hrep : s.Represents r.traversalNumbers r.parents f)
include hs hsrc hS hrep

/-- The numbers are the levels. -/
theorem Walkable.numbered_iff {v n : Ulong} :
    r.Numbered v n ↔ ∃ k, f.level v = some k ∧ n.toNat = k := by
  obtain ⟨hlive, hlt⟩ := hs.search_room hsrc hS
  rw [TraversalResult.Numbered, hrep.numbers]
  constructor
  · rintro ⟨hn, hne⟩
    split at hn
    · cases hk : f.level v with
      | none =>
          rw [hk] at hn
          exact absurd (Option.some.inj hn).symm hne
      | some k =>
          refine ⟨k, rfl, ?_⟩
          rw [hk] at hn
          rw [← Option.some.inj hn, numberOf, Option.elim_some, BitVec.toNat_ofNat]
          exact Nat.mod_eq_of_lt ((hlt v k hk).trans (by decide))
    · cases hn
  · rintro ⟨k, hk, hnk⟩
    have hnumber : numberOf (f.level v) = n := by
      rw [hk, numberOf, Option.elim_some, ← hnk, BitVec.ofNat_toNat, BitVec.setWidth_eq]
    rw [if_pos (hlive v (Option.isSome_of_eq_some hk)), hnumber]
    refine ⟨rfl, ?_⟩
    rw [← hnumber, hk]
    exact numberOf_ne_ulongMax (hlt v k hk)

theorem Walkable.spans (hT : TakesOne Take) (hsource : r.source = source) :
    r.Spans s.graph direction source := by
  have hF : Forest (s.graph.Leads direction) source f [] := hS.forest hT
  -- a level fits in a number, so exactly the nodes of the forest are numbered
  have hreach : ∀ v, (∃ n, r.Numbered v n) ↔ (f.level v).isSome := by
    intro v
    simp only [hs.numbered_iff hsrc hS hrep]
    constructor
    · rintro ⟨n, k, hk, -⟩
      exact Option.isSome_of_eq_some hk
    · intro hv
      obtain ⟨k, hk⟩ := Option.isSome_iff_exists.mp hv
      have hlt := (hs.search_room hsrc hS).2 v k hk
      refine ⟨BitVec.ofNat 64 k, k, hk, ?_⟩
      rw [BitVec.toNat_ofNat]
      exact Nat.mod_eq_of_lt (hlt.trans (by decide))
  refine ⟨hsource, fun v => ?_, fun v => ?_, fun v n hvs hn => ?_, fun v hv => ?_, fun v hv => ?_⟩
  · rw [hrep.numbers, isSome_node]
    split
    · rename_i hl
      exact iff_of_true rfl hl
    · rename_i hl
      exact iff_of_false (fun h => by cases h) hl
  · rw [hreach, hF.isSome_level_iff]
    rfl
  · obtain ⟨k, hk, hnk⟩ := (hs.numbered_iff hsrc hS hrep).mp hn
    obtain ⟨⟨u, x⟩, hp⟩ := Option.isSome_iff_exists.mp
      ((hF.isSome_parent v hvs).mpr (Option.isSome_of_eq_some hk))
    obtain ⟨hleads, j, hj, hj'⟩ := hF.edge v u x hp
    rw [hk] at hj'
    cases hj'
    have hlt := (hs.search_room hsrc hS).2 u j hj
    have hto : (BitVec.ofNat 64 j).toNat = j := by
      rw [BitVec.toNat_ofNat]
      exact Nat.mod_eq_of_lt (hlt.trans (by decide))
    refine ⟨x, u, BitVec.ofNat 64 j, ?_, hleads, (hs.numbered_iff hsrc hS hrep).mpr ⟨j, hj, hto⟩, ?_⟩
    · rw [hrep.parents, hp]
      rfl
    · rw [hto, hnk]
  · rw [hrep.parents]
    rcases hv with rfl | hv
    · rw [hF.root]
      rfl
    · cases hp : f.parent v with
      | none => rfl
      | some p =>
          obtain ⟨-, k, -, hk⟩ := hF.edge v p.1 p.2 hp
          exact absurd (hF.isSome_level_iff.mp (Option.isSome_of_eq_some hk)) hv
  · obtain ⟨k, hk⟩ := Option.isSome_iff_exists.mp (hF.isSome_level_iff.mpr hv)
    refine ⟨k, ?_⟩
    rw [funext (hrep.before_eq hF)]
    exact hF.iterate_up hk

end Represents

end Store

namespace HeapFile

variable {hf : HeapFile PhyDatabase} {fuel : ℕ} {source : Ulong}

/-- **`bfs` and `dfs` return**, and number the nodes that are reached; `bfs` numbers them by the least
number of hops. -/
theorem traversals_reach (hw : hf.WellFormed) (hc : (Store.of hf).Counted)
    (hsrc : (Store.of hf).Live .node source) (hfuel : maxPageNo 4096 * 256 ≤ fuel)
    (direction : Direction) :
    (∃ r hf₁, run (HF.bfs 4096 fuel source direction) hf = .ok (r, hf₁) ∧
      r.Spans hf.graph direction source ∧
      ∀ v n, r.Numbered v n → hf.graph.IsHopDist direction source v n.toNat) ∧
    ∃ r hf₁, run (HF.dfs 4096 fuel source direction) hf = .ok (r, hf₁) ∧
      r.Spans hf.graph direction source := by
  have hs := hw.store.walkable hc
  constructor
  · obtain ⟨r, f, hrun, hsource, hS, hrep⟩ := hs.run_traverse hsrc Store.pops_popFirst
      takesOne_first hfuel "bfs: Invalid Arguments" direction
    obtain ⟨hf₁, hrun', -, -⟩ := run_ok hw.good hrun
    refine ⟨r, hf₁, hrun', hs.spans hsrc hS hrep takesOne_first hsource, fun v n hn => ?_⟩
    obtain ⟨k, hk, hnk⟩ := (hs.numbered_iff hsrc hS hrep).mp hn
    rw [hnk]
    exact hS.frontier.isDist.mp hk
  · obtain ⟨r, f, hrun, hsource, hS, hrep⟩ := hs.run_traverse hsrc Store.pops_popLast
      takesOne_last hfuel "dfs: Invalid Arguments!" direction
    obtain ⟨hf₁, hrun', -, -⟩ := run_ok hw.good hrun
    exact ⟨r, hf₁, hrun', hs.spans hsrc hS hrep takesOne_last hsource⟩

/-- Two nodes joined by a relationship. -/
theorem traversals_reach_pair : ∃ db hf₀ hf ids, PhyDatabase.create 4096 = .ok db ∧
    create 4096 1000 (PhyDatabase.flat 4096) db = .ok hf₀ ∧
    run (HF.creations 4096 1000 [.node 0#64, .node 0#64, .relationship 0#64 1#64 0#64 0#64]) hf₀ =
      .ok (ids, hf) ∧
    (∃ r hf₁, run (HF.bfs 4096 (maxPageNo 4096 * 256) 0#64 .both) hf = .ok (r, hf₁) ∧
      r.Spans hf.graph .both 0#64 ∧
      ∀ v n, r.Numbered v n → hf.graph.IsHopDist .both 0#64 v n.toNat) ∧
    ∃ r hf₁, run (HF.dfs 4096 (maxPageNo 4096 * 256) 0#64 .both) hf = .ok (r, hf₁) ∧
      r.Spans hf.graph .both 0#64 := by
  have h : Prog.check Store.step (HF.creations 4096 1000
      [.node 0#64, .node 0#64, .relationship 0#64 1#64 0#64 0#64]) Store.empty
      (fun _ s => decide (s.liveIds .node = [0#64, 1#64])) = true := by
    decide +kernel
  obtain ⟨ids, s, hrun, hp⟩ := Prog.check_inv _ h
  have hlive := of_decide_eq_true hp
  have hc := Store.counted_of_creations hrun
  obtain ⟨db, hf₀, hf, hdb, hcreate, hrun', hw, rfl⟩ := exists_created hrun
  refine ⟨db, hf₀, hf, ids, hdb, hcreate, hrun', traversals_reach hw hc ?_ le_rfl _⟩
  rw [← Store.mem_liveIds, hlive]
  decide

end HeapFile

end Goedb
