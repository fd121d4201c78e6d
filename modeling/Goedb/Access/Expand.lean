import Goedb.Access.CreateRelationship

/-!
# Access — the relationships of a node

`next_relationship_id` and `expand` of `heap_file.c`.  The in-memory graph has the same two loops
over its own calls, so the loops are stated over any signature, with the calls that read and follow
a relationship as parameters.

On a graph where the calls answer from the records (`Walks`), `expand` returns the relationships of
the node's chain that go in the direction, in the order of the chain (`Walks.run_collectFrom`,
`Store.run_expand`).
-/

namespace Goedb

open Lib

/-- The relationship goes out of `n`, unless only incoming ones are asked for, or into `n`, unless
only outgoing ones are. -/
def Relationship.Goes (n : Ulong) (direction : Direction) (r : Relationship) : Prop :=
  r.sourceNode = n ∧ direction ≠ .incoming ∨ r.targetNode = n ∧ direction ≠ .outgoing

instance (n : Ulong) (direction : Direction) (r : Relationship) : Decidable (r.Goes n direction) :=
  inferInstanceAs (Decidable (_ ∨ _))

theorem Relationship.Goes.at {n : Ulong} {direction : Direction} {r : Relationship}
    (h : r.Goes n direction) : r.At n := h.imp And.left And.left

/-! ### The loops -/

section Loops

variable {Op : Type → Type} (stop : Fault → Op Empty) (nodeId : Ulong) (direction : Direction)

/-- The loop of `next_relationship_id`: the next relationship that goes in the direction, or the
null value when the loop is back at `startRelId`. -/
def nextLoop (read : Ulong → Prog Op Relationship) (follow : Relationship → Prog Op Ulong)
    (startRelId : Ulong) : (fuel : ℕ) → (relId : Ulong) → Prog Op Ulong
  | 0, _ => .call (stop .diverge) Empty.elim
  | fuel + 1, relId => do
      let rel ← read relId
      if relId ≠ startRelId ∧ rel.Goes nodeId direction then return rel.id
      else
        let relId ← follow rel
        if relId = startRelId then return uninitializedLong
        else nextLoop read follow startRelId fuel relId

/-- The loop of `expand`: the relationships from `relId` on until the loop is back at `startId`. -/
def collect (read : Ulong → Prog Op Relationship) (nextId : Relationship → Prog Op Ulong)
    (startId : Ulong) : (fuel : ℕ) → (relId : Ulong) → Prog Op (List Relationship)
  | 0, _ => .call (stop .diverge) Empty.elim
  | fuel + 1, relId =>
      if relId = uninitializedLong then pure []
      else do
        let rel ← read relId
        let relId ← nextId rel
        if relId = startId then return [rel]
        else
          let rels ← collect read nextId startId fuel relId
          return rel :: rels

/-- The part of `expand` after the node was read: `first` is its first relationship. -/
def collectFrom (readFirst read : Ulong → Prog Op Relationship)
    (nextId : Relationship → Prog Op Ulong) (fuel : ℕ) (first : Ulong) :
    Prog Op (List Relationship) :=
  if first = uninitializedLong then pure []
  else do
    let rel ← readFirst first
    if rel.Goes nodeId direction then collect stop read nextId first fuel first
    else
      let relId ← nextId rel
      collect stop read nextId relId fuel relId

end Loops

namespace HF

/-- `next_rel_source` or `next_rel_target`, by the side that is at the node. -/
def follow (nodeId : Ulong) (rel : Relationship) : HF Ulong :=
  if nodeId = rel.sourceNode then pure rel.nextRelSource
  else if nodeId = rel.targetNode then pure rel.nextRelTarget
  else exit "heap file - next rel id: Invalid database state!"

/-- `next_relationship_id`. -/
def nextRelationshipId (fuel : ℕ) (nodeId : Ulong) (rel : Relationship) (direction : Direction) :
    HF Ulong := do
  if nodeId = uninitializedLong then exit "heap_file - next relationship id: Invalid Arguments!"
  else
    let relId ← follow nodeId rel
    nextLoop .stop nodeId direction readRelationship (follow nodeId) rel.id fuel relId

/-- `expand`. -/
def expand (fuel : ℕ) (nodeId : Ulong) (direction : Direction) : HF (List Relationship) := do
  let node ← readNode nodeId
  collectFrom .stop nodeId direction readRelationship readRelationship
    (nextRelationshipId fuel nodeId · direction) fuel node.firstRelationship

end HF

/-! ### What the loops return -/

/-- The relationships of the chain `l` of `n` that go in the direction, in its order. -/
def Graph.expand (g : Graph) (n : Ulong) (direction : Direction) (l : List Ulong) :
    List Relationship := (l.filterMap g.rel).filter (·.Goes n direction)

section Walk

variable {Op : Type → Type} {σ : Type} {h : Handler Op σ Fault} {s : σ} {g : Graph} {n : Ulong}
  {stop : Fault → Op Empty} {direction : Direction} {fuel : ℕ}

/-- The relationship `x` goes in the direction. -/
def Graph.goes (g : Graph) (n : Ulong) (direction : Direction) (x : Ulong) : Bool :=
  (g.rel x).any (·.Goes n direction)

theorem Graph.goes_of_rel {x : Ulong} {r : Relationship} (hx : g.rel x = some r) :
    g.goes n direction x = decide (r.Goes n direction) := by
  rw [Graph.goes, hx, Option.any_some]

theorem Graph.expand_cons_of_goes {x : Ulong} {r : Relationship} {l : List Ulong}
    (hx : g.rel x = some r) (hg : r.Goes n direction) :
    g.expand n direction (x :: l) = r :: g.expand n direction l := by
  simp [Graph.expand, hx, hg]

theorem Graph.expand_of_find_none {l : List Ulong} (hl : l.find? (g.goes n direction) = none) :
    g.expand n direction l = [] := by
  rw [Graph.expand, List.filter_eq_nil_iff]
  intro r hr
  obtain ⟨x, hx, hrx⟩ := List.mem_filterMap.mp hr
  have := List.find?_eq_none.mp hl x hx
  simpa [Graph.goes, hrx] using this

theorem Graph.expand_append {l m : List Ulong} :
    g.expand n direction (l ++ m) = g.expand n direction l ++ g.expand n direction m := by
  simp only [Graph.expand, List.filterMap_append, List.filter_append]

theorem Graph.map_id_expand (hk : g.Keyed) (l : List Ulong) :
    (g.expand n direction l).map Relationship.id = l.filter (g.goes n direction) := by
  induction l with
  | nil => rfl
  | cons x l ih =>
      cases hx : g.rel x with
      | none => simpa [Graph.expand, Graph.goes, hx] using ih
      | some r =>
          by_cases hg : r.Goes n direction
          · rw [Graph.expand_cons_of_goes hx hg, List.map_cons, ih, hk x r hx]
            simp [Graph.goes_of_rel hx, hg]
          · simpa [Graph.expand, Graph.goes, hx, hg] using ih

theorem Graph.Walk.mem_expand (hk : g.Keyed) {first : Ulong} {l : List Ulong}
    (hc : g.Walk n first l) {r : Relationship} :
    r ∈ g.expand n direction l ↔ g.rel r.id = some r ∧ r.Goes n direction := by
  rw [Graph.expand, List.mem_filter, List.mem_filterMap, decide_eq_true_eq]
  constructor
  · rintro ⟨⟨x, -, hr⟩, hg⟩
    rw [hk x r hr]
    exact ⟨hr, hg⟩
  · rintro ⟨hr, hg⟩
    exact ⟨⟨r.id, (hc.mem _).mpr ⟨r, hr, hg.at⟩, hr⟩, hg⟩

/-- The calls that read and follow relationships answer as the records of `g` say, for the chain of
the node `n`. -/
structure Walks (h : Handler Op σ Fault) (s : σ) (g : Graph) (n : Ulong)
    (read : Ulong → Prog Op Relationship) (follow : Relationship → Prog Op Ulong) : Prop where
  keyed : g.Keyed
  read : ∀ x r, g.rel x = some r → Prog.run h (read x) s = .ok (r, s)
  follow : ∀ x r, g.rel x = some r → r.At n →
    Prog.run h (follow r) s = .ok (r.nextAt n, s)

namespace Walks

variable {read : Ulong → Prog Op Relationship} {follow : Relationship → Prog Op Ulong}
  (hw : Walks h s g n read follow)
include hw

/-- One turn of the loop, at a relationship other than the first. -/
theorem run_nextLoop_turn {x y : Ulong} {r : Relationship} (hy : g.rel y = some r) (ha : r.At n)
    (hne : y ≠ x) (fuel : ℕ) :
    Prog.run h (nextLoop stop n direction read follow x (fuel + 1) y) s =
      if g.goes n direction y then .ok (y, s)
      else if r.nextAt n = x then .ok (uninitializedLong, s)
      else Prog.run h (nextLoop stop n direction read follow x fuel (r.nextAt n)) s := by
  rw [nextLoop, Prog.run_bind_ok _ (hw.read y r hy), Graph.goes_of_rel hy]
  by_cases hg : r.Goes n direction
  · rw [if_pos ⟨hne, hg⟩, if_pos (decide_eq_true hg), hw.keyed y r hy]
    rfl
  · rw [if_neg fun h' => hg h'.2, if_neg (by simpa using hg),
      Prog.run_bind_ok _ (hw.follow y r hy ha), Prog.run_ite]
    rfl

/-- The loop from `y` on, where the ring from the start is `x :: (p ++ y :: t)`. -/
theorem run_nextLoop {x : Ulong} (t : List Ulong) : ∀ {p : List Ulong} {y : Ulong} {fuel : ℕ},
    (∀ u ∈ x :: (p ++ y :: t), ∃ r, g.rel u = some r ∧ r.At n) →
    Round (g.next n) (x :: (p ++ y :: t)) → (x :: (p ++ y :: t)).Nodup →
    t.length < fuel →
    Prog.run h (nextLoop stop n direction read follow x fuel y) s =
      .ok (((y :: t).find? (g.goes n direction)).getD uninitializedLong, s) := by
  induction t with
  | nil =>
      intro p y fuel hm hr hd hf
      obtain ⟨fuel, rfl⟩ := Nat.exists_eq_succ_of_ne_zero (Nat.ne_of_gt hf)
      obtain ⟨r, hy, ha⟩ := hm y (by simp)
      have hne : y ≠ x := by rintro rfl; simp at hd
      have hback : r.nextAt n = x := by
        rw [← Graph.next_of_rel hy]
        exact hr.last_nxt
      rw [hw.run_nextLoop_turn hy ha hne, if_pos hback, List.find?_singleton]
      split <;> rfl
  | cons z t ih =>
      intro p y fuel hm hr hd hf
      obtain ⟨fuel, rfl⟩ := Nat.exists_eq_succ_of_ne_zero (Nat.ne_of_gt (Nat.zero_lt_of_lt hf))
      obtain ⟨r, hy, ha⟩ := hm y (by simp)
      have hne : y ≠ x := by rintro rfl; simp at hd
      have hzx : z ≠ x := by rintro rfl; simp at hd
      have hnext : r.nextAt n = z := by
        rw [← Graph.next_of_rel hy]
        exact Round.middle_nxt (p := x :: p) hr
      rw [hw.run_nextLoop_turn hy ha hne, hnext, if_neg hzx, List.find?_cons]
      split
      · rename_i hg
        rw [hg]
        rfl
      · rename_i hg
        rw [Bool.not_eq_true] at hg
        rw [hg]
        have hm' : ∀ u ∈ x :: ((p ++ [y]) ++ z :: t), ∃ r, g.rel u = some r ∧ r.At n := by
          simpa using hm
        exact ih hm' (by simpa using hr) (by simpa using hd) (Nat.lt_of_succ_lt_succ hf)

variable {first : Ulong} {l : List Ulong} (hc : g.Walk n first l)
include hc

/-- **The next relationship** of the ring that goes in the direction, other than the one the loop
starts at; the null value if there is none. -/
theorem run_nextFrom {x : Ulong} {t : List Ulong} {r : Relationship} (hl : l ~r (x :: t))
    (hx : g.rel x = some r) (hf : l.length < fuel) :
    Prog.run h (follow r >>= nextLoop stop n direction read follow r.id fuel) s =
      .ok ((t.find? (g.goes n direction)).getD uninitializedLong, s) := by
  have hm : ∀ u ∈ x :: t, ∃ r, g.rel u = some r ∧ r.At n := by
    intro u hu
    exact (hc.mem u).mp (hl.mem_iff.mpr hu)
  have hround : Round (g.next n) (x :: t) := (Round.rotate hl).mp hc.round
  have hd : (x :: t).Nodup := hl.nodup_iff.mp hc.nodup
  have hlen : t.length < fuel := by
    have := hl.perm.length_eq
    rw [List.length_cons] at this
    omega
  have ha : r.At n := by
    obtain ⟨r', hr', ha⟩ := hm x List.mem_cons_self
    rw [hx] at hr'
    cases hr'
    exact ha
  rw [Prog.run_bind_ok _ (hw.follow x r hx ha), hw.keyed x r hx]
  cases t with
  | nil =>
      have hself : r.nextAt n = x := by
        rw [← Graph.next_of_rel hx]
        exact Round.singleton_iff.mp hround
      obtain ⟨fuel, rfl⟩ := Nat.exists_eq_succ_of_ne_zero (Nat.ne_of_gt hlen)
      rw [hself, nextLoop, Prog.run_bind_ok _ (hw.read x r hx), if_neg fun h' => h'.1 rfl,
        Prog.run_bind_ok _ (hw.follow x r hx ha), if_pos hself]
      rfl
  | cons y t =>
      have hnext : r.nextAt n = y := by
        rw [← Graph.next_of_rel hx]
        exact hround.head_nxt
      rw [hnext]
      have hm' : ∀ u ∈ x :: ([] ++ y :: t), ∃ r, g.rel u = some r ∧ r.At n := hm
      exact hw.run_nextLoop t hm' hround hd (Nat.lt_of_succ_lt hlen)

end Walks

/-! ### What `expand` returns -/

/-- The call finds the next relationship of the ring `l`. -/
def FindsNext (h : Handler Op σ Fault) (s : σ) (g : Graph) (n : Ulong) (direction : Direction)
    (l : List Ulong) (nextId : Relationship → Prog Op Ulong) : Prop :=
  ∀ x t r, l ~r (x :: t) → g.rel x = some r →
    Prog.run h (nextId r) s = .ok ((t.find? (g.goes n direction)).getD uninitializedLong, s)

section Collect

variable {read readFirst : Ulong → Prog Op Relationship} {nextId : Relationship → Prog Op Ulong}
  {start first : Ulong} {l : List Ulong}

theorem run_collect_null (hf : 0 < fuel) :
    Prog.run h (collect stop read nextId start fuel uninitializedLong) s = .ok ([], s) := by
  obtain ⟨fuel, rfl⟩ := Nat.exists_eq_succ_of_ne_zero (Nat.ne_of_gt hf)
  rw [collect, if_pos rfl]
  rfl

variable (hc : g.Walk n first l) (hnull : uninitializedLong ∉ l)
  (hread : ∀ x r, g.rel x = some r → Prog.run h (read x) s = .ok (r, s))
  (hnext : FindsNext h s g n direction l nextId)
include hc hnull hread hnext

/-- The loop from `y` on, where `start` is the first relationship of the chain that goes in the
direction and `y` is one, too. -/
theorem run_collect (hs : l.find? (g.goes n direction) = some start) (fuel : ℕ) :
    ∀ {p q : List Ulong} {y : Ulong}, l = p ++ y :: q → g.goes n direction y = true →
      q.length + 1 < fuel →
      Prog.run h (collect stop read nextId start fuel y) s =
        .ok (g.expand n direction (y :: q), s) := by
  induction fuel with
  | zero =>
      intro p q y hl hy hf
      exact absurd hf (Nat.not_lt_zero _)
  | succ fuel ih =>
      intro p q y hl hy hf
      have hyl : y ∈ l := by rw [hl]; simp
      obtain ⟨r, hr, -⟩ := (hc.mem y).mp hyl
      have hgoes : r.Goes n direction := by simpa [Graph.goes_of_rel hr] using hy
      have hrot : l ~r (y :: (q ++ p)) := by
        rw [hl]
        exact List.isRotated_append
      have hstart : (p.find? (g.goes n direction)).or (some y) = some start := by
        rw [← hs, hl, List.find?_append, List.find?_cons_of_pos hy]
      have hnn : ∀ {u}, u ∈ l → u ≠ uninitializedLong := fun hu e => hnull (e ▸ hu)
      rw [collect, if_neg (hnn hyl), Prog.run_bind_ok _ (hread y r hr),
        Prog.run_bind_ok _ (hnext y (q ++ p) r hrot hr), List.find?_append,
        Graph.expand_cons_of_goes hr hgoes]
      cases hq : q.find? (g.goes n direction) with
      | some z =>
          obtain ⟨hz, q₁, q₂, rfl, hq₁⟩ := List.find?_eq_some_iff_append.mp hq
          -- the start lies before `y` or is `y`, so it is not `z`
          have hne : z ≠ start := by
            rintro rfl
            have hmem : z ∈ p ++ [y] := by
              cases hp : p.find? (g.goes n direction) with
              | none =>
                  rw [hp] at hstart
                  cases hstart
                  simp
              | some u =>
                  rw [hp] at hstart
                  cases hstart
                  exact List.mem_append_left _ (List.mem_of_find?_eq_some hp)
            have hd := hc.nodup
            rw [hl, List.append_cons] at hd
            exact (List.nodup_append.mp hd).2.2 z hmem z (by simp) rfl
          have hnone : q₁.find? (g.goes n direction) = none :=
            List.find?_eq_none.mpr fun u hu => by simpa using hq₁ u hu
          have hlen : q₂.length + 1 < fuel := by
            rw [List.length_append, List.length_cons] at hf
            omega
          have hl' : l = (p ++ y :: q₁) ++ z :: q₂ := by rw [hl]; simp
          rw [Option.some_or, Option.getD_some, if_neg hne,
            Prog.run_bind_ok _ (ih hl' hz hlen), Graph.expand_append,
            Graph.expand_of_find_none hnone]
          rfl
      | none =>
          rw [Option.none_or, Graph.expand_of_find_none hq]
          cases hp : p.find? (g.goes n direction) with
          | some u =>
              rw [hp] at hstart
              cases hstart
              rw [Option.getD_some, if_pos rfl]
              rfl
          | none =>
              rw [hp] at hstart
              cases hstart
              rw [Option.getD_none, if_neg (hnn hyl).symm,
                Prog.run_bind_ok _ (run_collect_null (Nat.zero_lt_of_lt (Nat.lt_of_succ_lt_succ hf)))]
              rfl

/-- **`expand`** returns the relationships of the chain that go in the direction, in its order. -/
theorem run_collectFrom (hreadFirst : ∀ x r, g.rel x = some r →
    Prog.run h (readFirst x) s = .ok (r, s)) (hf : l.length < fuel) :
    Prog.run h (collectFrom stop n direction readFirst read nextId fuel first) s =
      .ok (g.expand n direction l, s) := by
  cases l with
  | nil =>
      rw [collectFrom, if_pos (hc.first_eq_iff.mpr rfl)]
      rfl
  | cons x t =>
      have hfirst : first = x := hc.first_eq
      subst hfirst
      obtain ⟨r, hr, -⟩ := (hc.mem first).mp List.mem_cons_self
      rw [collectFrom, if_neg fun e => List.cons_ne_nil _ _ (hc.first_eq_iff.mp e),
        Prog.run_bind_ok _ (hreadFirst first r hr)]
      by_cases hg : r.Goes n direction
      · have hgoes : g.goes n direction first = true := by simpa [Graph.goes_of_rel hr] using hg
        rw [if_pos hg]
        exact run_collect hc hnull hread hnext (List.find?_cons_of_pos hgoes) fuel
          (show first :: t = [] ++ first :: t from rfl) hgoes hf
      · have hgoes : g.goes n direction first = false := by simpa [Graph.goes_of_rel hr] using hg
        have hskip : g.expand n direction (first :: t) = g.expand n direction t := by
          simp [Graph.expand, hr, hg]
        rw [if_neg hg, Prog.run_bind_ok _ (hnext first t r (List.IsRotated.refl _) hr), hskip]
        cases ht : t.find? (g.goes n direction) with
        | none =>
            rw [Graph.expand_of_find_none ht]
            exact run_collect_null (Nat.zero_lt_of_lt hf)
        | some z =>
            obtain ⟨hz, t₁, t₂, rfl, ht₁⟩ := List.find?_eq_some_iff_append.mp ht
            have hnone : t₁.find? (g.goes n direction) = none :=
              List.find?_eq_none.mpr fun u hu => by simpa using ht₁ u hu
            have hlen : t₂.length + 1 < fuel := by
              simp only [List.length_cons, List.length_append] at hf
              omega
            have hs : (first :: (t₁ ++ z :: t₂)).find? (g.goes n direction) = some z := by
              rw [List.find?_cons_of_neg (by simp [hgoes]), ht]
            rw [Option.getD_some, Graph.expand_append, Graph.expand_of_find_none hnone]
            exact run_collect hc hnull hread hnext hs fuel
              (show _ = (first :: t₁) ++ z :: t₂ from rfl) hz hlen

end Collect

end Walk

/-! ### The heap file -/

namespace Store

variable {s : Store} {n : Ulong}

theorem walks (hv : s.Valid) :
    Walks step s s.graph n HF.readRelationship (HF.follow n) where
  keyed := s.keyed
  read _ _ h := run_readRelationship hv h
  follow x r hr ha := by
    rw [HF.follow, Relationship.nextAt]
    by_cases hs : n = r.sourceNode
    · rw [if_pos hs, if_pos hs]
      rfl
    · rw [if_neg hs, if_pos (ha.resolve_left (Ne.symm hs)).symm, if_neg hs]
      rfl

theorem Valid.null_not_mem (hv : s.Valid) {first : Ulong} {l : List Ulong}
    (hc : s.graph.Walk n first l) : uninitializedLong ∉ l := by
  intro h
  obtain ⟨r, hr, -⟩ := (hc.mem _).mp h
  exact hv.not_live_uninitialized _ (rel_eq_some.mp hr).1

theorem findsNext (hv : s.Valid) {nd : Node} {first : Ulong} {l : List Ulong}
    (hn : s.graph.node n = some nd) (hc : s.graph.Walk n first l) (direction : Direction)
    {fuel : ℕ} (hf : l.length < fuel) :
    FindsNext step s s.graph n direction l (HF.nextRelationshipId fuel n · direction) := by
  have hnode := hv.ne_uninitialized (node_eq_some.mp hn).1.2.1
  intro x t r hl hx
  simp only [HF.nextRelationshipId, if_neg hnode]
  exact (walks hv).run_nextFrom hc hl hx hf

/-- **`expand`** of the heap file. -/
theorem run_expand (hv : s.Valid) {nd : Node} {l : List Ulong}
    (hn : s.graph.node n = some nd) (hc : s.graph.Walk n nd.firstRelationship l)
    (direction : Direction) {fuel : ℕ} (hf : l.length < fuel) :
    run (HF.expand fuel n direction) s = .ok (s.graph.expand n direction l, s) := by
  have hread : ∀ x r, s.graph.rel x = some r → run (HF.readRelationship x) s = .ok (r, s) :=
    fun _ _ h => run_readRelationship hv h
  rw [run, HF.expand, Prog.run_bind_ok _ (run_readNode hv hn)]
  exact run_collectFrom hc (hv.null_not_mem hc) hread (findsNext hv hn hc direction hf) hread hf

end Store

end Goedb
