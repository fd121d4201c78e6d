import Goedb.Access.InMemoryGraph

/-!
# Access — looking at the neighbours of a node

`expand` on a heap file, and `contains_relationship_from_to` on a heap file and in memory.  Both
walk the cycle of next pointers of a node and need no more of the records than that this is one
cycle through the relationships at the node (`Graph.Circular`).

* `HeapFile.expand_lists`: `expand` returns the relationships that go in the direction, each once,
  in the order of the cycle.
* `containsRelationshipFromTo_iff`: the search for a relationship between two nodes ends with the
  right answer unless it circles (`Graph.Circles`).  Its loop ends where it is back at the first
  relationship of the node, but after the first turn it only visits relationships that go in the
  direction; if the first one does not, the loop never is back there.
-/

namespace Goedb

open Lib

/-- The relationship goes from `a` to `b`, unless only incoming ones are asked for, or from `b` to
`a`, unless only outgoing ones are. -/
def Relationship.Joins (a b : Ulong) (direction : Direction) (r : Relationship) : Prop :=
  direction ≠ .incoming ∧ r.sourceNode = a ∧ r.targetNode = b ∨
    direction ≠ .outgoing ∧ r.sourceNode = b ∧ r.targetNode = a

instance (a b : Ulong) (direction : Direction) (r : Relationship) :
    Decidable (r.Joins a b direction) := inferInstanceAs (Decidable (_ ∨ _))

theorem Relationship.Joins.goes {a b : Ulong} {direction : Direction} {r : Relationship}
    (h : r.Joins a b direction) : r.Goes a direction :=
  h.imp (fun h => ⟨h.2.1, h.1⟩) fun h => ⟨h.2.2, h.1⟩

theorem Relationship.Joins.at {a b : Ulong} {direction : Direction} {r : Relationship}
    (h : r.Joins a b direction) : r.At b :=
  h.elim (fun h => .inr h.2.2) fun h => .inl h.2.1

/-! ### The search -/

/-- The loop of `contains_relationship_from_to`. -/
def search {Op : Type → Type} (stop : Fault → Op Empty) (nodeFrom nodeTo : Ulong)
    (direction : Direction) (read : Ulong → Prog Op Relationship)
    (nextRelId : Relationship → Prog Op Ulong) (startId : Ulong) :
    (fuel : ℕ) → (nextId : Ulong) → Prog Op (Option Relationship)
  | 0, _ => .call (stop .diverge) Empty.elim
  | fuel + 1, nextId => do
      let rel ← read nextId
      if rel.Joins nodeFrom nodeTo direction then return some rel
      else
        let nextId ← nextRelId rel
        if nextId ≠ startId ∧ nextId ≠ uninitializedLong then
          search stop nodeFrom nodeTo direction read nextRelId startId fuel nextId
        else return none

/-- `contains_relationship_from_to`. -/
def HF.containsRelationshipFromTo (fuel : ℕ) (nodeFrom nodeTo : Ulong) (direction : Direction) :
    HF (Option Relationship) := do
  if nodeFrom = uninitializedLong ∨ nodeTo = uninitializedLong then return none
  else
    let fromExists ← checkRecordExists .node nodeFrom
    if fromExists = false then return none
    else
      let toExists ← checkRecordExists .node nodeTo
      if toExists = false then return none
      else
        let sourceNode ← readNodeInternal nodeFrom false
        let targetNode ← readNodeInternal nodeTo false
        if sourceNode.firstRelationship = uninitializedLong ∨
            targetNode.firstRelationship = uninitializedLong then return none
        else
          search .stop nodeFrom nodeTo direction readRelationship
            (nextRelationshipId fuel nodeFrom · direction) sourceNode.firstRelationship fuel
            sourceNode.firstRelationship

/-- `in_memory_contains_relationship_from_to`. -/
def Mem.containsRelationshipFromTo (fuel : ℕ) (nodeFrom nodeTo : Ulong) (direction : Direction) :
    Mem (Option Relationship) := do
  if nodeFrom = uninitializedLong ∨ nodeTo = uninitializedLong then return none
  else
    let sourceNode ← Prog.perform (.getNode nodeFrom)
    let targetNode ← Prog.perform (.getNode nodeTo)
    if sourceNode.firstRelationship = uninitializedLong ∨
        targetNode.firstRelationship = uninitializedLong then return none
    else
      search .stop nodeFrom nodeTo direction (fun id => Prog.perform (.getRel id))
        (nextRelationshipId fuel sourceNode.id · direction) sourceNode.firstRelationship fuel
        sourceNode.firstRelationship

namespace Graph

/-- The right answer of the search: a relationship that joins the nodes, or none if there is
none. -/
def Found (g : Graph) (a b : Ulong) (direction : Direction) : Option Relationship → Prop
  | some r => g.rel r.id = some r ∧ r.Joins a b direction
  | none => ∀ x r, g.rel x = some r → ¬ r.Joins a b direction

/-- The search from `a` for a relationship with `b` goes round for ever: there is none, both nodes
have relationships, the first one of `a` does not go in the direction, and at least two do. -/
structure Circles (g : Graph) (a b : Ulong) (direction : Direction) (first : Ulong) : Prop where
  absent : ∀ x r, g.rel x = some r → ¬ r.Joins a b direction
  target : ∃ x r, g.rel x = some r ∧ r.At b
  first : ∃ r, g.rel first = some r ∧ ¬ r.Goes a direction
  two : ∃ x y, x ≠ y ∧ g.goes a direction x = true ∧ g.goes a direction y = true

end Graph

section Search

variable {Op : Type → Type} {σ : Type} {h : Handler Op σ Fault} {s : σ} {g : Graph} {a b : Ulong}
  {stop : Fault → Op Empty} {direction : Direction} {first : Ulong} {l : List Ulong}
  {read : Ulong → Prog Op Relationship} {nextRelId : Relationship → Prog Op Ulong}
  (hc : g.Walk a first l) (hnull : uninitializedLong ∉ l)
  (hread : ∀ x r, g.rel x = some r → Prog.run h (read x) s = .ok (r, s))
  (hnext : FindsNext h s g a direction l nextRelId)

theorem Graph.Walk.goes_mem (hc : g.Walk a first l) {x : Ulong}
    (hx : g.goes a direction x = true) : x ∈ l := by
  cases hr : g.rel x with
  | none =>
      rw [Graph.goes, hr] at hx
      cases hx
  | some r =>
      rw [Graph.goes_of_rel hr, decide_eq_true_eq] at hx
      exact (hc.mem x).mpr ⟨r, hr, hx.at⟩

include hread hnext in
/-- One turn of the loop. -/
theorem run_search_turn {x z : Ulong} {t : List Ulong} {r : Relationship} (hl : l ~r (x :: t))
    (hx : g.rel x = some r) (hz : (t.find? (g.goes a direction)).getD uninitializedLong = z)
    (fuel : ℕ) :
    Prog.run h (search stop a b direction read nextRelId first (fuel + 1) x) s =
      if r.Joins a b direction then .ok (some r, s)
      else if z ≠ first ∧ z ≠ uninitializedLong then
        Prog.run h (search stop a b direction read nextRelId first fuel z) s
      else .ok (none, s) := by
  subst hz
  rw [search, Prog.run_bind_ok _ (hread x r hx), Prog.run_ite]
  congr 1
  rw [Prog.run_bind_ok _ (hnext x t r hl hx), Prog.run_ite]
  rfl

theorem Graph.Keyed.found (hk : g.Keyed) {x : Ulong} {r : Relationship} (hx : g.rel x = some r)
    (hj : r.Joins a b direction) : g.Found a b direction (some r) :=
  ⟨by rwa [hk x r hx], hj⟩

include hc hnull hread hnext

/-- A relationship that joins the nodes and lies ahead on the cycle is found. -/
theorem run_search_found (hk : g.Keyed) (fuel : ℕ) :
    ∀ {p q : List Ulong} {y : Ulong}, l = p ++ y :: q → first ∉ q →
      (∃ x ∈ y :: q, ∃ r, g.rel x = some r ∧ r.Joins a b direction) → q.length < fuel →
    ∃ r, Prog.run h (search stop a b direction read nextRelId first fuel y) s = .ok (some r, s) ∧
      g.Found a b direction (some r) := by
  induction fuel with
  | zero =>
      intro p q y hl hfirst hx hf
      exact absurd hf (Nat.not_lt_zero _)
  | succ fuel ih =>
      intro p q y hl hfirst hx hf
      obtain ⟨r, hr, -⟩ := (hc.mem y).mp (by rw [hl]; simp)
      have hrot : l ~r (y :: (q ++ p)) := by
        rw [hl]
        exact List.isRotated_append
      rw [run_search_turn hread hnext hrot hr rfl]
      by_cases hj : r.Joins a b direction
      · rw [if_pos hj]
        exact ⟨r, rfl, hk.found hr hj⟩
      · rw [if_neg hj]
        obtain ⟨x, hx, rx, hrx, hjx⟩ := hx
        have hxq : x ∈ q := by
          refine (List.mem_cons.mp hx).resolve_left ?_
          rintro rfl
          rw [hr] at hrx
          cases hrx
          exact hj hjx
        have hgx : g.goes a direction x = true := by
          rw [Graph.goes_of_rel hrx, decide_eq_true hjx.goes]
        -- so one of the relationships ahead goes in the direction, and `x` is not skipped
        cases hq : q.find? (g.goes a direction) with
        | none => exact absurd hgx (List.find?_eq_none.mp hq x hxq)
        | some z =>
            obtain ⟨-, q₁, q₂, rfl, hq₁⟩ := List.find?_eq_some_iff_append.mp hq
            have hz : z ∈ q₁ ++ z :: q₂ := by simp
            have hzfirst : z ≠ first := fun e => hfirst (e ▸ hz)
            have hznull : z ≠ uninitializedLong := fun e => hnull (by rw [hl, ← e]; simp)
            have hxz : x ∈ z :: q₂ := by
              refine (List.mem_append.mp hxq).resolve_left fun hx₁ => ?_
              have := hq₁ x hx₁
              rw [hgx] at this
              cases this
            have hlen : q₂.length < fuel := by
              rw [List.length_append, List.length_cons] at hf
              omega
            simp only [List.find?_append, hq, Option.some_or, Option.getD_some]
            rw [if_pos ⟨hzfirst, hznull⟩]
            exact ih (show l = (p ++ y :: q₁) ++ z :: q₂ by rw [hl]; simp)
              (fun hm => hfirst (by simp [hm])) ⟨x, hxz, rx, hrx, hjx⟩ hlen

variable (habsent : ∀ x r, g.rel x = some r → ¬ r.Joins a b direction)
include habsent

omit hnull in
/-- Without a relationship to find, the loop is back at the first relationship of the node, if that
one goes in the direction. -/
theorem run_search_back (hgoes : g.goes a direction first = true) (fuel : ℕ) :
    ∀ {p q : List Ulong} {y : Ulong}, l = p ++ y :: q → q.length < fuel →
    Prog.run h (search stop a b direction read nextRelId first fuel y) s = .ok (none, s) := by
  induction fuel with
  | zero =>
      intro p q y hl hf
      exact absurd hf (Nat.not_lt_zero _)
  | succ fuel ih =>
      intro p q y hl hf
      obtain ⟨r, hr, -⟩ := (hc.mem y).mp (by rw [hl]; simp)
      have hrot : l ~r (y :: (q ++ p)) := by
        rw [hl]
        exact List.isRotated_append
      rw [run_search_turn hread hnext hrot hr rfl, if_neg (habsent y r hr)]
      split
      · rename_i hz
        cases hq : q.find? (g.goes a direction) with
        | some z =>
            obtain ⟨-, q₁, q₂, rfl, -⟩ := List.find?_eq_some_iff_append.mp hq
            have hlen : q₂.length < fuel := by
              rw [List.length_append, List.length_cons] at hf
              omega
            rw [List.find?_append, hq, Option.some_or, Option.getD_some]
            exact ih (show l = (p ++ y :: q₁) ++ z :: q₂ by rw [hl]; simp) hlen
        | none =>
            -- nothing goes in the direction ahead, and behind lies the first relationship
            rw [List.find?_append, hq, Option.none_or] at hz
            cases p with
            | nil => exact absurd rfl hz.2
            | cons u p =>
                have hu : u = first := by
                  rw [hc.first_eq, hl]
                  rfl
                rw [hu, List.find?_cons_of_pos hgoes] at hz
                exact absurd rfl hz.1
      · rfl

/-- Without a relationship to find, the loop runs into the null value, if at most one relationship
goes in the direction. -/
theorem run_search_null (hne : l ≠ [])
    (hone : ∀ x y, g.goes a direction x = true → g.goes a direction y = true → x = y) (fuel : ℕ) :
    Prog.run h (search stop a b direction read nextRelId first (fuel + 2) first) s =
      .ok (none, s) := by
  obtain ⟨u, t, rfl⟩ := List.exists_cons_of_ne_nil hne
  obtain rfl : first = u := hc.first_eq
  obtain ⟨r, hr, -⟩ := (hc.mem first).mp List.mem_cons_self
  rw [run_search_turn hread hnext (List.IsRotated.refl _) hr rfl, if_neg (habsent first r hr)]
  cases ht : t.find? (g.goes a direction) with
  | none => exact if_neg fun h => h.2 rfl
  | some z =>
      obtain ⟨hz, t₁, t₂, rfl, -⟩ := List.find?_eq_some_iff_append.mp ht
      obtain ⟨r', hr', -⟩ := (hc.mem z).mp (by simp)
      have hrot : (first :: (t₁ ++ z :: t₂)) ~r (z :: (t₂ ++ first :: t₁)) :=
        List.isRotated_append (l := first :: t₁)
      have hnone : (t₂ ++ first :: t₁).find? (g.goes a direction) = none := by
        rw [List.find?_eq_none]
        intro x hx hgx
        obtain rfl := hone x z hgx hz
        have hd := hrot.nodup_iff.mp hc.nodup
        exact (List.nodup_cons.mp hd).1 hx
      simp only [Option.getD_some]
      split
      · rw [run_search_turn hread hnext hrot hr' rfl, if_neg (habsent z r' hr'), hnone]
        exact if_neg fun h => h.2 rfl
      · rfl

/-- Without a relationship to find, the loop does not end, if the first relationship does not go in
the direction and at least two do. -/
theorem run_search_circles (hgoes : g.goes a direction first = false)
    (htwo : ∃ x y, x ≠ y ∧ g.goes a direction x = true ∧ g.goes a direction y = true)
    (hstop : ∀ f s, h _ (stop f) s = .error f) (fuel : ℕ) : ∀ {y : Ulong}, y ∈ l →
    Prog.run h (search stop a b direction read nextRelId first fuel y) s = .error .diverge := by
  induction fuel with
  | zero =>
      intro y hy
      rw [search, Prog.run, hstop]
  | succ fuel ih =>
      intro y hy
      obtain ⟨r, hr, -⟩ := (hc.mem y).mp hy
      obtain ⟨p, q, hl⟩ := List.append_of_mem hy
      have hrot : l ~r (y :: (q ++ p)) := by
        rw [hl]
        exact List.isRotated_append
      rw [run_search_turn hread hnext hrot hr rfl, if_neg (habsent y r hr)]
      -- one of the two is not `y`, so it lies on the rest of the cycle
      obtain ⟨w, hwy, hgw⟩ : ∃ w, w ≠ y ∧ g.goes a direction w = true := by
        obtain ⟨u, v, huv, hu, hv⟩ := htwo
        by_cases huy : u = y
        · exact ⟨v, fun e => huv (huy.trans e.symm), hv⟩
        · exact ⟨u, huy, hu⟩
      have hw : w ∈ q ++ p :=
        (List.mem_cons.mp (hrot.mem_iff.mp (hc.goes_mem hgw))).resolve_left hwy
      cases hq : (q ++ p).find? (g.goes a direction) with
      | none => exact absurd hgw (List.find?_eq_none.mp hq w hw)
      | some z =>
          have hgz := List.find?_some hq
          have hz : z ∈ l := hc.goes_mem hgz
          have hzfirst : z ≠ first := by
            rintro rfl
            rw [hgoes] at hgz
            cases hgz
          simp only [Option.getD_some]
          rw [if_pos ⟨hzfirst, fun e => hnull (e ▸ hz)⟩]
          exact ih hz

end Search

section Answers

variable {Op : Type → Type} {σ : Type} {h : Handler Op σ Fault} {s : σ} {g : Graph} {a b : Ulong}
  {stop : Fault → Op Empty} {direction : Direction} {first first' : Ulong} {l l' : List Ulong}
  {read : Ulong → Prog Op Relationship} {nextRelId : ℕ → Relationship → Prog Op Ulong}
  {x : ℕ → Prog Op (Option Relationship)}

/-- Given enough turns, the program returns the right answer. -/
def Answers (h : Handler Op σ Fault) (s : σ) (g : Graph) (a b : Ulong) (direction : Direction)
    (x : ℕ → Prog Op (Option Relationship)) : Prop :=
  ∃ fuel₀, ∀ fuel, fuel₀ ≤ fuel → ∃ o s', Prog.run h (x fuel) s = .ok (o, s') ∧
    g.Found a b direction o

theorem Graph.Walk.first_mem (hc : g.Walk a first l) (hne : first ≠ uninitializedLong) :
    first ∈ l := by
  cases l with
  | nil => exact absurd (hc.first_eq_iff.mpr rfl) hne
  | cons u t =>
      rw [hc.first_eq]
      exact List.mem_cons_self

/-- A node without a first relationship has none. -/
theorem Graph.Walk.not_at (hc : g.Walk a first l) (he : first = uninitializedLong) {y : Ulong}
    {r : Relationship} (hy : g.rel y = some r) : ¬ r.At a := by
  intro hat
  have hm := (hc.mem y).mpr ⟨r, hy, hat⟩
  rw [hc.first_eq_iff.mp he] at hm
  cases hm

section Outcomes

variable (hnull : g.rel uninitializedLong = none) (hc : g.Walk a first l)
  (hc' : g.Walk b first' l')
  (hread : ∀ x r, g.rel x = some r → Prog.run h (read x) s = .ok (r, s))
  (hnext : ∀ fuel, l.length < fuel → FindsNext h s g a direction l (nextRelId fuel))
  (hx : ∀ fuel, Prog.run h (x fuel) s =
    if first = uninitializedLong ∨ first' = uninitializedLong then .ok (none, s)
    else Prog.run h (search stop a b direction read (nextRelId fuel) first fuel first) s)
  {fuel : ℕ}
include hnull hc hc' hread hnext hx

omit hc' hread hnext hx in
theorem Graph.Walk.null_notMem : uninitializedLong ∉ l := by
  intro hm
  obtain ⟨r, hr, -⟩ := (hc.mem _).mp hm
  rw [hnull] at hr
  cases hr

theorem diverges_of_circles (hstop : ∀ f s, h _ (stop f) s = .error f)
    (hC : g.Circles a b direction first) (hfuel : l.length < fuel) :
    Prog.run h (x fuel) s = .error .diverge := by
  obtain ⟨rf, hrf, hng⟩ := hC.first
  obtain ⟨u, ru, hu, hat⟩ := hC.target
  have hne : first ≠ uninitializedLong := by
    rintro rfl
    rw [hnull] at hrf
    cases hrf
  have hne' : first' ≠ uninitializedLong := fun e => hc'.not_at e hu hat
  have hgoes : g.goes a direction first = false := by
    rw [Graph.goes_of_rel hrf, decide_eq_false hng]
  rw [hx, if_neg (not_or.mpr ⟨hne, hne'⟩)]
  exact run_search_circles hc (hc.null_notMem hnull) hread (hnext _ hfuel) hC.absent hgoes hC.two
    hstop _ (hc.first_mem hne)

theorem finds_of_not_circles (hk : g.Keyed) (hC : ¬ g.Circles a b direction first)
    (hfuel : l.length + 2 ≤ fuel) :
    ∃ o, Prog.run h (x fuel) s = .ok (o, s) ∧ g.Found a b direction o := by
  rw [hx]
  by_cases hskip : first = uninitializedLong ∨ first' = uninitializedLong
  · rw [if_pos hskip]
    refine ⟨none, rfl, fun y r hy hj => ?_⟩
    rcases hskip with e | e
    · exact hc.not_at e hy hj.goes.at
    · exact hc'.not_at e hy hj.at
  rw [if_neg hskip]
  rw [not_or] at hskip
  have hnl := hc.null_notMem hnull
  have hn := hnext fuel (by omega)
  cases l with
  | nil => exact absurd (hc.first_eq_iff.mpr rfl) hskip.1
  | cons v t =>
      obtain rfl : first = v := hc.first_eq
      have hfuel' : t.length < fuel := by
        rw [List.length_cons] at hfuel
        omega
      by_cases hj : ∃ y ∈ first :: t, ∃ r, g.rel y = some r ∧ r.Joins a b direction
      · obtain ⟨r, hrun, hF⟩ := run_search_found hc hnl hread hn hk fuel
          (show first :: t = [] ++ first :: t from rfl) (List.nodup_cons.mp hc.nodup).1 hj hfuel'
        exact ⟨some r, hrun, hF⟩
      have habsent : ∀ y r, g.rel y = some r → ¬ r.Joins a b direction := by
        intro y r hy hjy
        exact hj ⟨y, (hc.mem y).mpr ⟨r, hy, hjy.goes.at⟩, r, hy, hjy⟩
      refine ⟨none, ?_, habsent⟩
      by_cases hgoes : g.goes a direction first = true
      · exact run_search_back hc hread hn habsent hgoes fuel
          (show first :: t = [] ++ first :: t from rfl) hfuel'
      -- the first relationship does not go in the direction: at most one of the others does
      · obtain ⟨fuel, rfl⟩ : ∃ k, fuel = k + 2 := ⟨fuel - 2, by omega⟩
        refine run_search_null hc hnl hread hn habsent (List.cons_ne_nil _ _)
          (fun y z hy hz => ?_) fuel
        by_contra hyz
        obtain ⟨r, hr, hat⟩ := (hc'.mem first').mp (hc'.first_mem hskip.2)
        obtain ⟨r', hr', -⟩ := (hc.mem first).mp List.mem_cons_self
        rw [Graph.goes_of_rel hr', decide_eq_true_eq] at hgoes
        exact hC ⟨habsent, ⟨first', r, hr, hat⟩, ⟨r', hr', hgoes⟩, y, z, hyz, hy, hz⟩

/-- **The search answers unless it circles**, where it starts at the first relationship of `a` and
is skipped if one of the two nodes has none. -/
theorem answers_iff (hk : g.Keyed) (hstop : ∀ f s, h _ (stop f) s = .error f) :
    Answers h s g a b direction x ↔ ¬ g.Circles a b direction first := by
  constructor
  · rintro ⟨fuel₀, ho⟩ hC
    obtain ⟨o, s', hrun, -⟩ := ho (fuel₀ + l.length + 1) (by omega)
    rw [diverges_of_circles hnull hc hc' hread hnext hx hstop hC (by omega)] at hrun
    cases hrun
  · intro hC
    refine ⟨l.length + 2, fun fuel hfuel => ?_⟩
    obtain ⟨o, hrun, hF⟩ := finds_of_not_circles hnull hc hc' hread hnext hx hk hC hfuel
    exact ⟨o, s, hrun, hF⟩

end Outcomes

end Answers

/-! ### The heap file -/

namespace Store

variable {s : Store} {a b : Ulong} {nd nd' : Node}

theorem containsRelationshipFromTo_answers (hv : s.Valid) (hg : s.graph.Circular)
    (ha : s.graph.node a = some nd) (hb : s.graph.node b = some nd') (direction : Direction) :
    Answers step s s.graph a b direction (HF.containsRelationshipFromTo · a b direction) ↔
      ¬ s.graph.Circles a b direction nd.firstRelationship := by
  obtain ⟨l, hc⟩ := hg a nd ha
  obtain ⟨l', hc'⟩ := hg b nd' hb
  obtain ⟨hla, rfl⟩ := node_eq_some.mp ha
  obtain ⟨hlb, rfl⟩ := node_eq_some.mp hb
  have ha' := hv.ne_uninitialized hla.2.1
  have hb' := hv.ne_uninitialized hlb.2.1
  have hreadNode : ∀ {n : Ulong}, s.Live .node n → n ≠ uninitializedLong →
      run (HF.readNodeInternal n false) s = .ok (s.nodeAt n, s) := by
    intro n hn hne
    rw [run, HF.readNodeInternal, if_neg hne]
    refine (Prog.run_bind_ok _ (run_checkIf hv hn false) _).trans ?_
    rw [if_neg (by decide), Prog.run_perform]
    exact if_pos hn.2.1
  have hstop : ∀ f t, step Empty (.stop f) t = .error f := fun _ _ => rfl
  refine answers_iff (rel_eq_none.mpr (hv.not_live_uninitialized _)) hc hc'
    (fun _ _ hr => run_readRelationship hv hr) (fun fuel hf => findsNext hv ha hc direction hf)
    (fun fuel => ?_) s.keyed hstop
  rw [HF.containsRelationshipFromTo, if_neg (by simp [ha', hb']),
    Prog.run_bind_ok _ (run_checkRecordExists_live hv hla), if_neg (by decide),
    Prog.run_bind_ok _ (run_checkRecordExists_live hv hlb), if_neg (by decide),
    Prog.run_bind_ok _ (hreadNode hla ha'), Prog.run_bind_ok _ (hreadNode hlb hb'), Prog.run_ite]
  rfl

end Store

namespace HeapFile

/-- The pages keep their accounts, no header bit is set beyond the record pages, and the next
pointers of every node form one cycle through its relationships. -/
structure Circular (hf : HeapFile PhyDatabase) : Prop where
  good : hf.Good
  valid : (Store.of hf).Valid
  graph : hf.graph.Circular

theorem WellFormed.circular {hf : HeapFile PhyDatabase} (hw : hf.WellFormed) : hf.Circular :=
  ⟨hw.good, hw.store.valid, hw.graph.circular⟩

variable {hf : HeapFile PhyDatabase} {n : Ulong} {nd : Node}

/-- **`expand`** ends, and returns the relationships that go in the direction, each once, in the
order of the cycle from the first relationship of the node on. -/
theorem expand_lists (hf : HeapFile PhyDatabase) (n : Ulong) (nd : Node) (direction : Direction)
    (hC : hf.Circular) (hn : hf.graph.node n = some nd) :
    ∃ l, hf.graph.Walk n nd.firstRelationship l ∧
      ∃ rels, rels.map Relationship.id = l.filter (hf.graph.goes n direction) ∧
        (∀ r, r ∈ rels ↔ hf.graph.rel r.id = some r ∧ r.Goes n direction) ∧
        ∀ fuel, l.length < fuel → ∃ hf', run (HF.expand fuel n direction) hf = .ok (rels, hf') ∧
          Store.of hf' = Store.of hf := by
  obtain ⟨l, hc⟩ := hC.graph n nd hn
  have hk : hf.graph.Keyed := Store.keyed _
  refine ⟨l, hc, hf.graph.expand n direction l, Graph.map_id_expand hk l,
    fun r => hc.mem_expand hk, fun fuel hfuel => ?_⟩
  obtain ⟨hf', hrun, -, hs⟩ := run_ok hC.good (Store.run_expand hC.valid hn hc direction hfuel)
  exact ⟨hf', hrun, hs⟩

/-- Two relationships of a node, `0` into it and `4` out of it: in the outgoing direction, `expand`
returns the second one only. -/
theorem expand_lists_outgoing : ∃ hf, ∃ l : List Ulong, ∃ rels, hf.Circular ∧
    (hf.graph.node 0#64).isSome ∧
    4#64 ∈ rels.map Relationship.id ∧ 0#64 ∉ rels.map Relationship.id ∧
    ∀ fuel, l.length < fuel →
      ∃ hf', run (HF.expand fuel 0#64 .outgoing) hf = .ok (rels, hf') := by
  have h : Prog.check Store.step (HF.creations 4096 1000
      [.node 7#64, .node 8#64, .relationship 1#64 0#64 0#64 5#64,
        .relationship 0#64 1#64 0#64 6#64]) Store.empty
      (fun _ s => decide (s.Live .node 0#64 ∧ s.Live .relationship 0#64 ∧
        s.Live .relationship 4#64 ∧ ¬ (s.relAt 0#64).Goes 0#64 .outgoing ∧
        (s.relAt 4#64).Goes 0#64 .outgoing)) = true := by
    decide +kernel
  obtain ⟨ids, s, hrun, hp⟩ := Prog.check_inv _ h
  obtain ⟨hl, hl₀, hl₄, hg₀, hg₄⟩ := of_decide_eq_true hp
  obtain ⟨-, -, hf, -, -, -, hw, rfl⟩ := exists_created hrun
  have hn : hf.graph.node 0#64 = some _ := Store.node_eq_some.mpr ⟨hl, rfl⟩
  obtain ⟨l, -, rels, -, hmem, hexp⟩ := expand_lists hf 0#64 _ .outgoing hw.circular hn
  refine ⟨hf, l, rels, hw.circular, Option.isSome_of_eq_some hn, ?_, ?_, fun fuel hfuel => ?_⟩
  · exact List.mem_map.mpr ⟨_, (hmem _).mpr ⟨Store.rel_eq_some.mpr ⟨hl₄, rfl⟩, hg₄⟩, rfl⟩
  · intro h₀
    obtain ⟨r, hr, hid⟩ := List.mem_map.mp h₀
    obtain ⟨hr', hgr⟩ := (hmem r).mp hr
    rw [hid] at hr'
    obtain ⟨-, rfl⟩ := Store.rel_eq_some.mp hr'
    exact hg₀ hgr
  · obtain ⟨hf', hrun', -⟩ := hexp fuel hfuel
    exact ⟨hf', hrun'⟩

end HeapFile

namespace InMemoryGraph

/-- The records lie under their ids, none under the null value, and the next pointers of every node
form one cycle through its relationships. -/
structure Circular (m : InMemoryGraph) : Prop where
  graph : m.graph.Circular
  keyed : m.graph.Keyed
  node_id : ∀ n nd, m.cacheNodes n = some nd → nd.id = n
  node_null : m.cacheNodes uninitializedLong = none
  rel_null : m.cacheRels uninitializedLong = none

theorem WellFormed.circular {m : InMemoryGraph} (hw : m.WellFormed) : m.Circular where
  graph := hw.graph.circular
  keyed := hw.keyed
  node_id := hw.node_id
  node_null := by
    cases h : m.cacheNodes uninitializedLong with
    | none => rfl
    | some nd => exact absurd rfl (hw.node_ne_null h)
  rel_null := by
    cases h : m.cacheRels uninitializedLong with
    | none => rfl
    | some r => exact absurd rfl (hw.rel_ne_null h)

variable {m : InMemoryGraph} {a b : Ulong} {nd nd' : Node}

theorem containsRelationshipFromTo_answers (hC : m.Circular) (ha : m.graph.node a = some nd)
    (hb : m.graph.node b = some nd') (direction : Direction) :
    Answers step m m.graph a b direction (Mem.containsRelationshipFromTo · a b direction) ↔
      ¬ m.graph.Circles a b direction nd.firstRelationship := by
  obtain ⟨l, hc⟩ := hC.graph a nd ha
  obtain ⟨l', hc'⟩ := hC.graph b nd' hb
  have hne : ∀ {n nd}, m.cacheNodes n = some nd → n ≠ uninitializedLong := by
    rintro n nd hn rfl
    rw [hC.node_null] at hn
    cases hn
  have hnext : ∀ fuel, l.length < fuel → FindsNext step m m.graph a direction l
      (Mem.nextRelationshipId fuel a · direction) := by
    intro fuel hf x t r hl hx
    simp only [Mem.nextRelationshipId, if_neg (hne ha)]
    exact (walks hC.keyed).run_nextFrom hc hl hx hf
  have hstop : ∀ f t, step Empty (.stop f) t = .error f := fun _ _ => rfl
  refine answers_iff hC.rel_null hc hc' (fun _ _ hr => run_getRel hr) hnext (fun fuel => ?_)
    hC.keyed hstop
  rw [Mem.containsRelationshipFromTo, if_neg (by simp [hne ha, hne hb]),
    Prog.run_bind_ok _ (run_getNode ha), Prog.run_bind_ok _ (run_getNode hb), hC.node_id a nd ha,
    Prog.run_ite]
  rfl

end InMemoryGraph

/-- A run on the store answers exactly if the run on the pages does. -/
theorem HeapFile.answers_iff_store {hf : HeapFile PhyDatabase} (hg : hf.Good) {g : Graph}
    {a b : Ulong} {direction : Direction} {x : ℕ → HF (Option Relationship)} :
    Answers (HeapFile.step 4096 (PhyDatabase.flat 4096)) hf g a b direction x ↔
      Answers Store.step (Store.of hf) g a b direction x := by
  constructor
  · rintro ⟨fuel₀, h⟩
    refine ⟨fuel₀, fun fuel hfuel => ?_⟩
    obtain ⟨o, hf', hrun, hF⟩ := h fuel hfuel
    exact ⟨o, _, (HeapFile.run_inv hg hrun).2, hF⟩
  · rintro ⟨fuel₀, h⟩
    refine ⟨fuel₀, fun fuel hfuel => ?_⟩
    obtain ⟨o, s', hrun, hF⟩ := h fuel hfuel
    obtain ⟨hf', hrun', -⟩ := HeapFile.run_ok hg hrun
    exact ⟨o, hf', hrun', hF⟩

/-- **`contains_relationship_from_to` answers exactly if it does not circle**, on every heap file and
on every in-memory graph whose nodes have their cycles, between any two nodes. -/
theorem containsRelationshipFromTo_iff (a b : Ulong) (nd nd' : Node) (direction : Direction) :
    (∀ hf : HeapFile PhyDatabase, hf.Circular → hf.graph.node a = some nd →
      hf.graph.node b = some nd' →
      (Answers (HeapFile.step 4096 (PhyDatabase.flat 4096)) hf hf.graph a b direction
          (HF.containsRelationshipFromTo · a b direction) ↔
        ¬ hf.graph.Circles a b direction nd.firstRelationship)) ∧
    ∀ m : InMemoryGraph, m.Circular → m.graph.node a = some nd → m.graph.node b = some nd' →
      (Answers InMemoryGraph.step m m.graph a b direction
          (Mem.containsRelationshipFromTo · a b direction) ↔
        ¬ m.graph.Circles a b direction nd.firstRelationship) := by
  constructor
  · intro hf hC ha hb
    rw [HeapFile.answers_iff_store hC.good]
    exact Store.containsRelationshipFromTo_answers hC.valid hC.graph ha hb direction
  · intro m hC ha hb
    exact InMemoryGraph.containsRelationshipFromTo_answers hC ha hb direction

/-- The first relationship of node 0 comes from node 3, two more go to the nodes 1 and 2.  The
search for a relationship from node 0 to node 3 does not end. -/
theorem containsRelationshipFromTo_circling : ∃ db hf₀ hf, PhyDatabase.create 4096 = .ok db ∧
    HeapFile.create 4096 1000 (PhyDatabase.flat 4096) db = .ok hf₀ ∧
    HeapFile.run (HF.creations 4096 1000 [.node 7#64, .node 7#64, .node 7#64, .node 7#64,
      .relationship 3#64 0#64 0#64 5#64, .relationship 0#64 1#64 0#64 5#64,
      .relationship 0#64 2#64 0#64 5#64]) hf₀ =
        .ok ([0#64, 1#64, 2#64, 3#64, 0#64, 4#64, 8#64], hf) ∧
    hf.WellFormed ∧ (hf.graph.node 0#64).isSome ∧ (hf.graph.node 3#64).isSome ∧
    ¬ Answers (HeapFile.step 4096 (PhyDatabase.flat 4096)) hf hf.graph 0#64 3#64 .outgoing
      (HF.containsRelationshipFromTo · 0#64 3#64 .outgoing) := by
  have h : Prog.check Store.step (HF.creations 4096 1000
      [.node 7#64, .node 7#64, .node 7#64, .node 7#64, .relationship 3#64 0#64 0#64 5#64,
        .relationship 0#64 1#64 0#64 5#64, .relationship 0#64 2#64 0#64 5#64]) Store.empty
      (fun ids s => decide (ids = [0#64, 1#64, 2#64, 3#64, 0#64, 4#64, 8#64] ∧
        s.Live .node 0#64 ∧ s.Live .node 3#64 ∧ (s.nodeAt 0#64).firstRelationship = 0#64 ∧
        s.Live .relationship 0#64 ∧ s.Live .relationship 4#64 ∧ s.Live .relationship 8#64 ∧
        ¬ (s.relAt 0#64).Goes 0#64 .outgoing ∧ (s.relAt 0#64).At 3#64 ∧
        (s.relAt 4#64).Goes 0#64 .outgoing ∧ (s.relAt 8#64).Goes 0#64 .outgoing ∧
        s.pages .relationship = 1 ∧ (List.range 256).all fun k =>
          ¬ (s.relAt (BitVec.ofNat 64 k)).Joins 0#64 3#64 .outgoing)) = true := by
    decide +kernel
  obtain ⟨ids, s, hrun, hp⟩ := Prog.check_inv _ h
  obtain ⟨rfl, hn₀, hn₃, hfirst, hl₀, hl₄, hl₈, hg₀, ha₃, hg₄, hg₈, hpage, hall⟩ :=
    of_decide_eq_true hp
  obtain ⟨db, hf₀, hf, hdb, hcreate, hrun', hw, rfl⟩ := HeapFile.exists_created hrun
  have hnode : ∀ {n}, (Store.of hf).Live .node n → hf.graph.node n = some _ :=
    fun hl => Store.node_eq_some.mpr ⟨hl, rfl⟩
  have hrel : ∀ {x}, (Store.of hf).Live .relationship x → hf.graph.rel x = some _ :=
    fun hl => Store.rel_eq_some.mpr ⟨hl, rfl⟩
  refine ⟨db, hf₀, hf, hdb, hcreate, hrun', hw, Option.isSome_of_eq_some (hnode hn₀),
    Option.isSome_of_eq_some (hnode hn₃), ?_⟩
  rw [HeapFile.answers_iff_store hw.good]
  -- no relationship joins the two, and the walk from the first that goes on circles in the other
  -- two
  refine (not_congr (Store.containsRelationshipFromTo_answers hw.store.valid hw.graph.circular
    (hnode hn₀) (hnode hn₃) .outgoing)).mpr (not_not.mpr ⟨?_, ?_, ?_, 4#64, 8#64, by decide, ?_, ?_⟩)
  · intro x r hr hj
    obtain ⟨hl, rfl⟩ := Store.rel_eq_some.mp hr
    have hx : x.toNat < 256 := by
      have := hl.2.1
      rw [hpage] at this
      omega
    have := List.all_eq_true.mp hall x.toNat (List.mem_range.mpr hx)
    rw [BitVec.ofNat_toNat, BitVec.setWidth_eq] at this
    exact of_decide_eq_true this hj
  · exact ⟨0#64, _, hrel hl₀, ha₃⟩
  · rw [hfirst]
    exact ⟨_, hrel hl₀, hg₀⟩
  · exact (Graph.goes_of_rel (hrel hl₄)).trans (decide_eq_true hg₄)
  · exact (Graph.goes_of_rel (hrel hl₈)).trans (decide_eq_true hg₈)

/-- A relationship from node 0 to node 1 is found, on the heap file and in memory. -/
theorem containsRelationshipFromTo_iff_single :
    (∃ hf : HeapFile PhyDatabase, hf.Circular ∧ (hf.graph.node 0#64).isSome ∧
      (hf.graph.node 1#64).isSome ∧
      Answers (HeapFile.step 4096 (PhyDatabase.flat 4096)) hf hf.graph 0#64 1#64 .outgoing
        (HF.containsRelationshipFromTo · 0#64 1#64 .outgoing)) ∧
    ∃ m : InMemoryGraph, m.Circular ∧ (m.graph.node 0#64).isSome ∧ (m.graph.node 1#64).isSome ∧
      Answers InMemoryGraph.step m m.graph 0#64 1#64 .outgoing
        (Mem.containsRelationshipFromTo · 0#64 1#64 .outgoing) := by
  constructor
  · have h : Prog.check Store.step (HF.creations 4096 1000
        [.node 7#64, .node 8#64, .relationship 0#64 1#64 0#64 5#64]) Store.empty
        (fun _ s => decide (s.Live .node 0#64 ∧ s.Live .node 1#64 ∧ s.Live .relationship 0#64 ∧
          (s.relAt 0#64).Joins 0#64 1#64 .outgoing)) = true := by
      decide +kernel
    obtain ⟨ids, s, hrun, hp⟩ := Prog.check_inv _ h
    obtain ⟨h₀, h₁, hl, hj⟩ := of_decide_eq_true hp
    obtain ⟨-, -, hf, -, -, -, hw, rfl⟩ := HeapFile.exists_created hrun
    have hn₀ : hf.graph.node 0#64 = some _ := Store.node_eq_some.mpr ⟨h₀, rfl⟩
    have hn₁ : hf.graph.node 1#64 = some _ := Store.node_eq_some.mpr ⟨h₁, rfl⟩
    have hr : hf.graph.rel 0#64 = some _ := Store.rel_eq_some.mpr ⟨hl, rfl⟩
    refine ⟨hf, hw.circular, Option.isSome_of_eq_some hn₀, Option.isSome_of_eq_some hn₁, ?_⟩
    exact ((containsRelationshipFromTo_iff _ _ _ _ .outgoing).1 hf hw.circular hn₀ hn₁).mpr
      fun hC => hC.absent _ _ hr hj
  · have hw : ((InMemoryGraph.create.addNode 7#64).addNode 8#64).WellFormed :=
      (InMemoryGraph.create_wellFormed.addNode (by decide) 7#64).addNode (by decide) 8#64
    have hn₀ : ((InMemoryGraph.create.addNode 7#64).addNode 8#64).cacheNodes 0#64 =
        some { newNode with id := 0#64, label := 7#64 } := by decide
    have hn₁ : ((InMemoryGraph.create.addNode 7#64).addNode 8#64).cacheNodes 1#64 =
        some { newNode with id := 1#64, label := 8#64 } := by decide
    obtain ⟨m, -, hg, hnn, hnr⟩ := InMemoryGraph.run_createRelationshipWeighted hw hn₀ hn₁
      (show (0#64 : Double) ≠ uninitializedWeight by decide) (by decide) 5#64
    have hw' := hw.link (by decide) hn₀ hn₁ hg hnn hnr
    have hE := hw.graph.extends_link hw.keyed (show _ = none from hw.fresh_rel)
      (show (Store.relOf 0#64 0#64 1#64 0#64 5#64).id ≠ _ by decide) hn₀ hn₁
    obtain ⟨r, hr, hp⟩ := Option.map_eq_some_iff.mp hE.new
    have hr' : m.graph.rel 0#64 = some r := by
      rw [hg]
      exact hr
    have hj : r.Joins 0#64 1#64 .outgoing :=
      .inl ⟨by decide, congrArg (·.1) hp, congrArg (·.2.1) hp⟩
    obtain ⟨⟨nd, h₀⟩, nd', h₁⟩ := hw'.graph.endpoints _ r hr'
    rw [show r.sourceNode = 0#64 from congrArg (·.1) hp] at h₀
    rw [show r.targetNode = 1#64 from congrArg (·.2.1) hp] at h₁
    refine ⟨m, hw'.circular, Option.isSome_of_eq_some h₀, Option.isSome_of_eq_some h₁, ?_⟩
    exact ((containsRelationshipFromTo_iff _ _ _ _ .outgoing).2 m hw'.circular h₀ h₁).mpr
      fun hC => hC.absent _ _ hr' hj

end Goedb
