import Goedb.Access.DeleteRelationship

/-!
# Access — deleting nodes

`delete_node` deletes the relationships of a node from the last one of its chain to the first, and
then the node.  The loop follows the previous pointers of the records it deletes.

Each turn is one of `delete_relationship`, so the first relationship that is then alone at its
source with company at its target spoils the run.  If it is the last one left at the node, its
target stays with a dangling pointer; otherwise the node's own chain does, and a later turn runs
into it.

* `Store.run_deleteChain`: while no relationship is alone so, the loop deletes the whole chain.
* `Store.run_deleteChain_broken`: with a dangling pointer in the chain, the loop never returns.
* `HeapFile.deleteNode_iff`: exactly when `delete_node` does what it is for.
-/

namespace Goedb

open Lib

namespace Graph

variable {g g' : Graph} {n : Ulong} {l : List Ulong} {rel rel' : Relationship}

/-- The graph without some of its relationships; pointers are as they are. -/
def without (g : Graph) (q : List Ulong) : Graph :=
  { g with rel := fun y => if y ∈ q then none else g.rel y }

/-- **The condition of `delete_node`** on the chain `l`: no relationship of it, among those that come
before it or are at other nodes, is alone at its source with company at its target. -/
def Deletable (g : Graph) (l : List Ulong) : Prop :=
  ∀ p r q rel, l = p ++ r :: q → g.rel r = some rel → ¬ (g.without q).LoneAtSource rel

/-- The two graphs say the same of every relationship. -/
def SameRels (g g' : Graph) : Prop :=
  ∀ y, (g.rel y).map Relationship.payload = (g'.rel y).map Relationship.payload

/-- `g'` is `g` without the node `n` and its relationships. -/
structure RemovesNode (g g' : Graph) (n : Ulong) : Prop where
  gone : g'.node n = none
  others : ∀ m, m ≠ n → (g'.node m).map Node.label = (g.node m).map Node.label
  rels : ∀ y, (g'.rel y).map Relationship.payload =
    ((g.rel y).filter fun r => decide (¬ r.At n)).map Relationship.payload

theorem at_of_payload (h : rel.payload = rel'.payload) : rel.At n ↔ rel'.At n := by
  have hs : rel.sourceNode = rel'.sourceNode := congrArg Prod.fst h
  have ht : rel.targetNode = rel'.targetNode := congrArg (·.2.1) h
  simp only [Relationship.At, hs, ht]

theorem SameRels.at (h : g.SameRels g') {y : Ulong} :
    (∃ r, g.rel y = some r ∧ r.At n) → ∃ r, g'.rel y = some r ∧ r.At n := by
  rintro ⟨r, hr, ha⟩
  have := h y
  rw [hr] at this
  obtain ⟨r', hr', he⟩ := Option.map_eq_some_iff.mp this.symm
  exact ⟨r', hr', (at_of_payload he).mpr ha⟩

theorem SameRels.symm (h : g.SameRels g') : g'.SameRels g := fun y => (h y).symm

/-- Being alone at the source depends only on what the relationships say. -/
theorem SameRels.lone (h : g.SameRels g') (hid : rel.id = rel'.id)
    (hp : rel.payload = rel'.payload) (hl : g.LoneAtSource rel) : g'.LoneAtSource rel' := by
  have hs : rel.sourceNode = rel'.sourceNode := congrArg Prod.fst hp
  have ht : rel.targetNode = rel'.targetNode := congrArg (·.2.1) hp
  obtain ⟨honly, y, r, hr, ha, hne⟩ := hl
  constructor
  · intro y r hr ha
    obtain ⟨r', hr', ha'⟩ := h.symm.at ⟨r, hr, ha⟩
    rw [← hid]
    exact honly y r' hr' (hs ▸ ha')
  · obtain ⟨r', hr', ha'⟩ := h.at ⟨r, hr, ha⟩
    exact ⟨y, r', hr', ht ▸ ha', hid ▸ hne⟩

theorem without_rel {q : List Ulong} {y : Ulong} (hy : y ∉ q) : (g.without q).rel y = g.rel y := if_neg hy

theorem without_nil : g.without [] = g := by
  simp [without]

theorem SameRels.refl (g : Graph) : g.SameRels g := fun _ => rfl

theorem SameRels.trans {g'' : Graph} (h : g.SameRels g') (h' : g'.SameRels g'') :
    g.SameRels g'' := fun y => (h y).trans (h' y)

theorem SameRels.without (h : g.SameRels g') (q : List Ulong) :
    (g.without q).SameRels (g'.without q) := by
  intro y
  simp only [Graph.without]
  split
  · rfl
  · exact h y

/-- One relationship less. -/
theorem Removes.sameRels {id : Ulong} (h : g.Removes g' id) : g'.SameRels (g.without [id]) := by
  intro y
  by_cases hy : y = id
  · subst hy
    simp [h.gone, Graph.without]
  · rw [h.others y hy]
    simp [Graph.without, hy]

theorem without_without (q q' : List Ulong) : (g.without q).without q' = g.without (q' ++ q) := by
  simp only [without]
  congr 1
  funext y
  by_cases h : y ∈ q' <;> by_cases h' : y ∈ q <;> simp [h, h']

/-- After the last relationship of the chain is gone, the condition is that on the rest. -/
theorem Deletable.of_append (h : g.Deletable (l ++ [n])) (hs : g'.SameRels (g.without [n]))
    (hk : g.Keyed) (hk' : g'.Keyed) : g'.Deletable l := by
  intro p r q rel' hl hr' hlone
  have hs' := hs r
  rw [hr'] at hs'
  obtain ⟨rel, hrel, hp⟩ := Option.map_eq_some_iff.mp hs'.symm
  simp only [without] at hrel
  split at hrel
  · cases hrel
  · refine h p r (q ++ [n]) rel (by simp [hl]) hrel ?_
    have := hs.without q
    rw [without_without] at this
    exact this.lone ((hk' r rel' hr').trans (hk r rel hrel).symm) hp.symm hlone

theorem Deletable.of_forall (hlast : ∀ rel, g.rel n = some rel → ¬ g.LoneAtSource rel)
    (hrest : g'.Deletable l) (hs : g'.SameRels (g.without [n])) (hk : g.Keyed) (hk' : g'.Keyed)
    (hn : n ∉ l) : g.Deletable (l ++ [n]) := by
  intro p r q rel hl hr hlone
  rcases List.eq_nil_or_concat q with rfl | ⟨q', x, rfl⟩
  · obtain ⟨rfl, hx⟩ := List.append_inj' hl rfl
    cases hx
    rw [without_nil] at hlone
    exact hlast rel hr hlone
  · have hl' : l ++ [n] = (p ++ r :: q') ++ [x] := by simp [hl]
    obtain ⟨rfl, hx⟩ := List.append_inj' hl' rfl
    cases hx
    have hrn : r ≠ n := fun e => hn (by simp [e])
    have hs' := hs r
    simp only [without, List.mem_singleton, hrn, if_false, hr] at hs'
    obtain ⟨rel', hrel', hp⟩ := Option.map_eq_some_iff.mp hs'
    refine hrest p r q' rel' rfl hrel' ?_
    have := (hs.without q').symm
    rw [without_without] at this
    exact this.lone ((hk r rel hr).trans (hk' r rel' hrel').symm) hp.symm (by simpa using hlone)

end Graph

namespace Store

variable {s s' : Store} {id n : Ulong} {rel : Relationship} {o o' : Objs}

/-! ### Reading a relationship that is not there -/

/-- What is held after an object is loaded lives. -/
theorem loadOr_inv (hv : s.Valid) {fresh p : Obj} {cs : List (Ulong × Obj)}
    (hcs : ∀ c ∈ cs, (o c.2).id = c.1 ∧ s.Live .relationship c.1)
    (h : run (HF.loadOr o id fresh cs) s = .ok ((o', p), s')) :
    s' = s ∧ s.Live .relationship id ∧ (o' p).id = id ∧ (∀ q, q ≠ fresh → o' q = o q) ∧
      (p = fresh ∨ p ∈ cs.map Prod.snd) := by
  induction cs with
  | nil =>
      obtain ⟨r, s₁, hr, h'⟩ := Prog.run_bind_inv _ h
      obtain ⟨hr, rfl⟩ := readRelationship_inv hv hr
      cases h'
      refine ⟨rfl, (rel_eq_some.mp hr).1, ?_, fun q hq => Function.update_of_ne hq _ _, .inl rfl⟩
      rw [Function.update_self, rel_id hr]
  | cons c cs ih =>
      obtain ⟨id', p'⟩ := c
      obtain ⟨hid, hl⟩ := hcs (id', p') (List.mem_cons_self ..)
      rw [HF.loadOr] at h
      split at h
      · rename_i e
        subst e
        cases h
        exact ⟨rfl, hl, hid, fun _ _ => rfl, .inr (by simp)⟩
      · obtain ⟨h₁, h₂, h₃, h₄, h₅⟩ := ih (fun c hc => hcs c (List.mem_cons_of_mem _ hc)) h
        exact ⟨h₁, h₂, h₃, h₄, h₅.imp_right fun h => by simp [List.mem_map.mp h]⟩

/-- The neighbours that were linked to each other lived. -/
theorem unlinkNeighbours_inv (hv : s.Valid) (h : run (HF.unlinkNeighbours rel) s = .ok ((), s')) :
    ∀ x ∈ [rel.prevRelSource, rel.nextRelSource, rel.prevRelTarget, rel.nextRelTarget],
      s.Live .relationship x := by
  obtain ⟨⟨o, pf, nf, pt, nt⟩, s₀, h₀, -⟩ := Prog.run_bind_inv _ h
  obtain ⟨⟨o₁, p₁⟩, s₁, h₁, k₁⟩ := Prog.run_bind_inv _ h₀
  obtain ⟨rfl, hl₁, hi₁, -, hp₁⟩ := loadOr_inv hv (by simp) h₁
  obtain rfl : p₁ = .first := by simpa using hp₁
  obtain ⟨⟨o₂, p₂⟩, s₂, h₂, k₂⟩ := Prog.run_bind_inv _ k₁
  obtain ⟨rfl, hl₂, hi₂, hk₂, hp₂⟩ := loadOr_inv hv (by simp [hi₁, hl₁]) h₂
  have hp₂ : p₂ = .second ∨ p₂ = .first := by simpa using hp₂
  have hi₁₂ : (o₂ .first).id = rel.prevRelSource := by rw [hk₂ _ (by decide), hi₁]
  obtain ⟨⟨o₃, p₃⟩, s₃, h₃, k₃⟩ := Prog.run_bind_inv _ k₂
  obtain ⟨rfl, hl₃, hi₃, hk₃, -⟩ := loadOr_inv hv (by simp [hi₁₂, hi₂, hl₁, hl₂]) h₃
  have hi₁₃ : (o₃ .first).id = rel.prevRelSource := by rw [hk₃ _ (by decide), hi₁₂]
  have hi₂₃ : (o₃ p₂).id = rel.nextRelSource := by
    rw [hk₃ _ (by rcases hp₂ with rfl | rfl <;> decide), hi₂]
  obtain ⟨⟨o₄, p₄⟩, s₄, h₄, -⟩ := Prog.run_bind_inv _ k₃
  obtain ⟨-, hl₄, -⟩ := loadOr_inv hv (by simp [hi₁₃, hi₂₃, hi₃, hl₁, hl₂, hl₃]) h₄
  intro x hx
  simp only [List.mem_cons, List.not_mem_nil, or_false] at hx
  rcases hx with rfl | rfl | rfl | rfl
  exacts [hl₁, hl₂, hl₃, hl₄]

/-- A relationship that points to one that is not there is deleted only without looking. -/
theorem deleteRelationship_inv (hv : s.Valid) (hr : s.graph.rel id = some rel) {x : Ulong}
    (hx : x ∈ [rel.prevRelSource, rel.nextRelSource, rel.prevRelTarget, rel.nextRelTarget])
    (hdead : s.graph.rel x = none) (h : run (HF.deleteRelationship id) s = .ok ((), s')) :
    rel.id = rel.prevRelSource := by
  obtain rfl : rel.id = id := rel_id hr
  have hl := (rel_eq_some.mp hr).1
  rw [run, HF.deleteRelationship, if_neg (hv.ne_uninitialized hl.2.1),
    Prog.run_bind_ok _ (run_readRelationship hv hr)] at h
  obtain ⟨u, s₁, h₁, -⟩ := Prog.run_bind_inv _ h
  by_contra hne
  rw [HF.when, if_pos hne] at h₁
  exact rel_eq_none.mp hdead (unlinkNeighbours_inv hv h₁ x hx)

/-! ### The loop over the chain -/

/-- One turn of the loop. -/
theorem run_deleteChain_turn (hv : s.Valid) (hr : s.graph.rel id = some rel) (ha : rel.At n)
    {lastId : Ulong} (hne : id ≠ lastId) (fuel : ℕ) :
    run (HF.deleteChain n (fuel + 1) id lastId) s =
      run (do HF.deleteRelationship id; HF.deleteChain n fuel (rel.prevAt n) id) s := by
  have hid : rel.id = id := rel_id hr
  rw [run, HF.deleteChain, if_neg hne, Prog.run_bind_ok _ (run_readRelationship hv hr), hid]
  by_cases hs : n = rel.sourceNode
  · rw [if_pos hs, (Graph.prevAt_source hs).1]
  · have ht : n = rel.targetNode := (ha.resolve_left (Ne.symm hs)).symm
    rw [if_neg hs, if_pos ht, Relationship.prevAt, if_neg hs]

theorem run_deleteChain_stop (fuel : ℕ) (x : Ulong) :
    run (HF.deleteChain n (fuel + 1) x x) s = .ok ((), s) := by
  rw [run, HF.deleteChain, if_pos rfl]
  rfl

/-- What the loop leaves of everything else, after `k` deletions. -/
structure Swept (s s' : Store) (k : ℕ) : Prop where
  labels : ∀ m, (s'.graph.node m).map Node.label = (s.graph.node m).map Node.label
  nNodes : s'.counters.nNodes = s.counters.nNodes
  nRels : s'.counters.nRels = s.counters.nRels - BitVec.ofNat 64 k

theorem Swept.of_deleted (hg : s'.graph = s.graph.unlink rel) {label : Ulong}
    (hD : Deleted s .relationship id (uncountRel id label) s') : Swept s s' 1 where
  labels m := by
    rw [hg]
    show ((s.graph.node m).map (Graph.moveEnds rel m)).map Node.label = _
    cases s.graph.node m with
    | none => rfl
    | some nd => exact congrArg some Graph.moveEnds_label
  nNodes := by rw [hD.counters]; rfl
  nRels := by rw [hD.counters]; rfl

theorem Swept.trans {s'' : Store} {j k : ℕ} (h : Swept s s' j) (h' : Swept s' s'' k) :
    Swept s s'' (k + j) where
  labels m := (h'.labels m).trans (h.labels m)
  nNodes := h'.nNodes.trans h.nNodes
  nRels := by
    rw [h'.nRels, h.nRels, BitVec.ofNat_add, BitVec.sub_sub, BitVec.add_comm]

/-- **The loop deletes the whole chain**, if it is deletable. -/
theorem run_deleteChain (n : Ulong) (p : List Ulong) : ∀ {s : Store} {r lastId : Ulong} {fuel : ℕ}
    {nd : Node}, s.WellFormed → s.graph.node n = some nd →
    s.graph.Chain n nd.firstRelationship (p ++ [r]) → r ≠ lastId → s.graph.Deletable (p ++ [r]) →
    (p ++ [r]).length < fuel →
    ∃ s', run (HF.deleteChain n fuel r lastId) s = .ok ((), s') ∧ s'.WellFormed ∧
      s'.graph.SameRels (s.graph.without (p ++ [r])) ∧ Swept s s' (p ++ [r]).length := by
  induction p using List.reverseRecOn with
  | nil =>
      intro s r lastId fuel nd hw hn hc hne hdel hfuel
      obtain ⟨fuel, rfl⟩ : ∃ k, fuel = k + 2 := ⟨fuel - 2, by simp at hfuel; omega⟩
      obtain ⟨rel, hr, ha⟩ := (hc.mem r).mp (by simp)
      have hlone : ¬ s.graph.LoneAtSource rel := by
        have := hdel [] r [] rel rfl hr
        rwa [Graph.without_nil] at this
      obtain ⟨s₁, h₁, hg, hD⟩ := hw.run_deleteRelationship hr
      obtain ⟨hw₁, hR⟩ := hw.deleted hr hg hD.valid hlone
      -- the relationship precedes itself
      have hprev : rel.prevAt n = r := by
        rw [← Graph.prev_of_rel hr]
        exact (Ring.singleton_iff.mp hc.ring).2
      refine ⟨s₁, ?_, hw₁, hR.sameRels, .of_deleted hg hD⟩
      rw [run_deleteChain_turn hw.valid hr ha hne, run, Prog.run_bind_ok _ h₁, hprev]
      exact run_deleteChain_stop fuel r
  | append_singleton p r₁ ih =>
      intro s r lastId fuel nd hw hn hc hne hdel hfuel
      obtain ⟨fuel, rfl⟩ : ∃ k, fuel = k + 1 := ⟨fuel - 1, by omega⟩
      obtain ⟨rel, hr, ha⟩ := (hc.mem r).mp (by simp)
      have hlone : ¬ s.graph.LoneAtSource rel := by
        have := hdel (p ++ [r₁]) r [] rel rfl hr
        rwa [Graph.without_nil] at this
      obtain ⟨s₁, h₁, hg, hD⟩ := hw.run_deleteRelationship hr
      obtain ⟨hw₁, hR⟩ := hw.deleted hr hg hD.valid hlone
      have hprev : rel.prevAt n = r₁ := by
        rw [← Graph.prev_of_rel hr]
        exact hc.ring.links_concat.2
      have hnot : r ∉ p ++ [r₁] := fun h => (List.nodup_append.mp hc.nodup).2.2 r h r (by simp) rfl
      obtain ⟨nd₁, hn₁, hc₁⟩ := hR.chains n nd _ hn hc
      rw [List.erase_append_right _ hnot, List.erase_cons_head, List.append_nil] at hc₁
      have hne₁ : r₁ ≠ r := fun e => hnot (by simp [e])
      have hlen : (p ++ [r₁]).length < fuel := by
        simp only [List.length_append, List.length_singleton] at hfuel ⊢
        omega
      obtain ⟨s', h', hw', hs', hS'⟩ := ih hw₁ hn₁ hc₁ hne₁
        (hdel.of_append hR.sameRels s.keyed s₁.keyed) hlen
      refine ⟨s', ?_, hw', ?_, ?_⟩
      · rw [run_deleteChain_turn hw.valid hr ha hne, run, Prog.run_bind_ok _ h₁, hprev]
        exact h'
      · have := hs'.trans (hR.sameRels.without _)
        rwa [Graph.without_without] at this
      · have := (Swept.of_deleted hg hD).trans hS'
        rw [List.length_append, List.length_singleton]
        exact this

/-! ### The loop over a chain that is broken -/

/-- The relationships `p` at `n` are linked to one another, but the last one points on to one that is
not there, and the first one back to one that is not there. -/
structure Broken (s : Store) (n : Ulong) (p : List Ulong) : Prop where
  valid : s.Valid
  nodup : p.Nodup
  rels : ∀ x ∈ p, ∃ rel, s.graph.rel x = some rel ∧ rel.At n ∧
    (s.graph.node rel.sourceNode).isSome ∧ (s.graph.node rel.targetNode).isSome
  links : List.IsChain (Links (s.graph.next n) (s.graph.prev n)) p
  next_last : ∀ x, p.getLast? = some x → s.graph.rel (s.graph.next n x) = none
  prev_head : ∀ x, p.head? = some x → s.graph.rel (s.graph.prev n x) = none

theorem nextAt_mem (rel : Relationship) (n : Ulong) : rel.nextAt n ∈
    [rel.prevRelSource, rel.nextRelSource, rel.prevRelTarget, rel.nextRelTarget] := by
  unfold Relationship.nextAt
  split <;> simp

/-- Where the first turn on a broken chain returns, the last relationship is gone and nothing else
has changed. -/
theorem Broken.turn {p : List Ulong} {r : Ulong} (hB : Broken s n (p ++ [r]))
    (hr : s.graph.rel r = some rel) (h : run (HF.deleteRelationship r) s = .ok ((), s')) :
    rel.id = rel.prevRelSource ∧ s'.Valid ∧ s'.graph = s.graph.unlink rel := by
  obtain ⟨rel', hr', ha, hs, ht⟩ := hB.rels r (by simp)
  rw [hr] at hr'
  cases hr'
  have hdead := hB.next_last r (by simp)
  rw [Graph.next_of_rel hr] at hdead
  have halone := deleteRelationship_inv hB.valid hr (nextAt_mem rel n) hdead h
  obtain ⟨s₁, h₁, hg, hD⟩ := run_deleteRelationship hB.valid hr hs ht fun hne => absurd halone hne
  rw [h₁] at h
  cases h
  exact ⟨halone, hD.valid, hg⟩

/-- A chain from which a relationship was deleted without looking is broken. -/
theorem broken_unlink {p : List Ulong} (halone : rel.id = rel.prevRelSource) (hv : s'.Valid)
    (hg : s'.graph = s.graph.unlink rel) (hd : p.Nodup) (hnot : ∀ x ∈ p, x ≠ rel.id)
    (hrels : ∀ x ∈ p, ∃ rel, s.graph.rel x = some rel ∧ rel.At n ∧
      (s.graph.node rel.sourceNode).isSome ∧ (s.graph.node rel.targetNode).isSome)
    (hlinks : List.IsChain (Links (s.graph.next n) (s.graph.prev n)) p)
    (hlast : ∀ x, p.getLast? = some x → s.graph.next n x = rel.id)
    (hhead : ∀ x, p.head? = some x → s.graph.prev n x ≠ rel.id →
      s.graph.rel (s.graph.prev n x) = none) : Broken s' n p := by
  have hrel : ∀ y, s'.graph.rel y = if y = rel.id then none else s.graph.rel y := fun y => by
    rw [hg, Graph.unlink_rel_of_alone halone]
  have hnext : ∀ x ∈ p, s'.graph.next n x = s.graph.next n x ∧
      s'.graph.prev n x = s.graph.prev n x := fun x hx => by
    rw [hg]
    exact Graph.next_unlink_of_alone halone (hnot x hx)
  have hnode : ∀ m, (s.graph.node m).isSome → (s'.graph.node m).isSome := fun m hm => by
    rw [hg]
    simpa [Graph.unlink] using hm
  refine ⟨hv, hd, fun x hx => ?_, ?_, fun x hx => ?_, fun x hx => ?_⟩
  · obtain ⟨rel', hr', ha, hs, ht⟩ := hrels x hx
    exact ⟨rel', by rw [hrel, if_neg (hnot x hx), hr'], ha, hnode _ hs, hnode _ ht⟩
  · refine List.IsChain.imp_of_mem_imp (fun u v hu hv huv => ?_) hlinks
    exact ⟨(hnext u hu).1.trans huv.1, (hnext v hv).2.trans huv.2⟩
  · rw [(hnext x (List.mem_of_mem_getLast? hx)).1, hlast x hx, hrel, if_pos rfl]
  · rw [(hnext x (List.mem_of_mem_head? hx)).2, hrel]
    split
    · rfl
    · rename_i h
      exact hhead x hx h

/-- The rest of a broken chain is broken. -/
theorem Broken.rest {p : List Ulong} {r : Ulong} (hB : Broken s n (p ++ [r]))
    (hid : rel.id = r) (halone : rel.id = rel.prevRelSource) (hv : s'.Valid)
    (hg : s'.graph = s.graph.unlink rel) : Broken s' n p := by
  have hd := List.nodup_append.mp hB.nodup
  have hch := List.isChain_append.mp hB.links
  refine broken_unlink halone hv hg hd.1 (fun x hx => hid ▸ hd.2.2 x hx r (by simp))
    (fun x hx => hB.rels x (List.mem_append_left _ hx)) hch.1
    (fun x hx => hid ▸ (hch.2.2 x hx r (by simp)).1) fun x hx _ => ?_
  exact hB.prev_head x (by rw [List.head?_append, hx]; rfl)

/-- A chain of a well-formed store is broken once its last relationship, not its only one, was
deleted without looking. -/
theorem WellFormed.broken (hw : s.WellFormed) {p : List Ulong} {r r₁ first : Ulong}
    (hc : s.graph.Chain n first (p ++ [r₁] ++ [r])) (hid : rel.id = r)
    (halone : rel.id = rel.prevRelSource) (hv : s'.Valid) (hg : s'.graph = s.graph.unlink rel) :
    Broken s' n (p ++ [r₁]) := by
  have hd := List.nodup_append.mp hc.nodup
  obtain ⟨hch, -, hprev⟩ := (Ring.iff_chain (by simp)).mp hc.ring
  have hch' := List.isChain_append.mp hch
  refine broken_unlink halone hv hg hd.1 (fun x hx => hid ▸ hd.2.2 x hx r (by simp))
    (fun x hx => ?_) hch'.1 (fun x hx => hid ▸ (hch'.2.2 x hx r (by simp)).1) fun x hx hne => ?_
  · obtain ⟨rel', hr', ha⟩ := (hc.mem x).mp (List.mem_append_left _ hx)
    obtain ⟨hs, ht⟩ := hw.graph.endpoints x rel' hr'
    exact ⟨rel', hr', ha, Option.isSome_iff_exists.mpr hs, Option.isSome_iff_exists.mpr ht⟩
  · refine absurd ?_ hne
    rw [hid]
    have hhead : (p ++ [r₁] ++ [r]).head (by simp) = x := by
      rw [List.head_append_of_ne_nil (by simp), ← Option.some_inj, ← List.head?_eq_some_head, hx]
    rw [hhead, List.getLast_append_singleton] at hprev
    exact hprev

/-- **The loop never returns** from a chain that is broken. -/
theorem run_deleteChain_broken (n : Ulong) (p : List Ulong) : ∀ {s s' : Store} {r lastId : Ulong}
    {fuel : ℕ}, Broken s n (p ++ [r]) → r ≠ lastId →
    run (HF.deleteChain n fuel r lastId) s ≠ .ok ((), s') := by
  induction p using List.reverseRecOn with
  | nil =>
      intro s s' r lastId fuel hB hne h
      cases fuel with
      | zero => cases h
      | succ fuel =>
          obtain ⟨rel, hr, ha, -, -⟩ := hB.rels r (by simp)
          rw [run_deleteChain_turn hB.valid hr ha hne] at h
          obtain ⟨u, s₁, h₁, h₂⟩ := Prog.run_bind_inv _ h
          obtain ⟨-, hv, hg⟩ := hB.turn hr h₁
          -- the loop goes on with a relationship that is not there
          have hdead := hB.prev_head r (by simp)
          rw [Graph.prev_of_rel hr] at hdead
          have hdead' : s₁.graph.rel (rel.prevAt n) = none := by
            rw [hg]
            simp only [Graph.unlink, hdead, Option.map_none, ite_self]
          have hne' : rel.prevAt n ≠ r := fun e => by
            rw [e, hr] at hdead
            cases hdead
          cases fuel with
          | zero => cases h₂
          | succ fuel =>
              rw [HF.deleteChain, if_neg hne'] at h₂
              obtain ⟨rel', s₂, h₂, -⟩ := Prog.run_bind_inv _ h₂
              rw [(readRelationship_inv hv h₂).1] at hdead'
              cases hdead'
  | append_singleton p r₁ ih =>
      intro s s' r lastId fuel hB hne h
      cases fuel with
      | zero => cases h
      | succ fuel =>
          obtain ⟨rel, hr, ha, -, -⟩ := hB.rels r (by simp)
          rw [run_deleteChain_turn hB.valid hr ha hne] at h
          obtain ⟨u, s₁, h₁, h₂⟩ := Prog.run_bind_inv _ h
          obtain ⟨halone, hv, hg⟩ := hB.turn hr h₁
          have hlink := (List.isChain_append.mp hB.links).2.2 r₁ (by simp) r (by simp)
          have hprev : rel.prevAt n = r₁ := by
            rw [← Graph.prev_of_rel hr]
            exact hlink.2
          have hne₁ : r₁ ≠ r := (List.nodup_append.mp hB.nodup).2.2 r₁ (by simp) r (by simp)
          rw [hprev] at h₂
          exact ih (hB.rest (rel_id hr) halone hv hg) hne₁ h₂

/-- **A chain that is not deletable**: if the loop returns at all, some other node is left without a
chain. -/
theorem run_deleteChain_bad (n : Ulong) (p : List Ulong) : ∀ {s s' : Store} {r lastId : Ulong}
    {fuel : ℕ} {nd : Node}, s.WellFormed → s.graph.node n = some nd →
    s.graph.Chain n nd.firstRelationship (p ++ [r]) → r ≠ lastId → ¬ s.graph.Deletable (p ++ [r]) →
    run (HF.deleteChain n fuel r lastId) s = .ok ((), s') →
    s'.Valid ∧ (s'.graph.node n).isSome ∧ ∃ m nd', m ≠ n ∧ s'.graph.node m = some nd' ∧
      ∀ l', ¬ s'.graph.Chain m nd'.firstRelationship l' := by
  induction p using List.reverseRecOn with
  | nil =>
      intro s s' r lastId fuel nd hw hn hc hne hdel h
      cases fuel with
      | zero => cases h
      | succ fuel =>
          obtain ⟨rel, hr, ha⟩ := (hc.mem r).mp (by simp)
          obtain ⟨s₁, h₁, hg, hD⟩ := hw.run_deleteRelationship hr
          have hprev : rel.prevAt n = r := by
            rw [← Graph.prev_of_rel hr]
            exact (Ring.singleton_iff.mp hc.ring).2
          rw [run_deleteChain_turn hw.valid hr ha hne, run, Prog.run_bind_ok _ h₁, hprev] at h
          obtain rfl : s₁ = s' := by
            cases fuel with
            | zero => cases h
            | succ fuel =>
                have := (run_deleteChain_stop fuel r).symm.trans h
                cases this
                rfl
          by_cases hlone : s.graph.LoneAtSource rel
          · -- the target has company, so it is another node
            have hid : rel.id = r := rel_id hr
            obtain ⟨y, r', hr', ha', hyx⟩ := hlone.2
            have hm : rel.targetNode ≠ n := by
              rintro rfl
              have := hc.mem_of_rel hr' ha'
              simp only [List.nil_append, List.mem_singleton] at this
              exact hyx (this.trans hid.symm)
            obtain ⟨nt, hnt⟩ := (hw.graph.endpoints _ _ hr).2
            refine ⟨hD.valid, ?_, rel.targetNode, Graph.moveEnds rel rel.targetNode nt, hm, ?_,
              fun l' hl' => ?_⟩
            · rw [hg]
              simp [Graph.unlink, hn]
            · rw [hg]
              exact congrArg (Option.map _) hnt
            · rw [hg] at hl'
              exact Graph.not_chain_unlink (hid ▸ hr) hw.graph hlone hl'
          · obtain ⟨hw₁, hR⟩ := hw.deleted hr hg hD.valid hlone
            have hnil : s₁.graph.Deletable [] := fun p r q rel' hl => by simp at hl
            refine absurd (Graph.Deletable.of_forall (fun rel' hr' => ?_) hnil hR.sameRels s.keyed
              s₁.keyed (by simp)) hdel
            rw [hr] at hr'
            cases hr'
            exact hlone
  | append_singleton p r₁ ih =>
      intro s s' r lastId fuel nd hw hn hc hne hdel h
      cases fuel with
      | zero => cases h
      | succ fuel =>
          obtain ⟨rel, hr, ha⟩ := (hc.mem r).mp (by simp)
          obtain ⟨s₁, h₁, hg, hD⟩ := hw.run_deleteRelationship hr
          have hprev : rel.prevAt n = r₁ := by
            rw [← Graph.prev_of_rel hr]
            exact hc.ring.links_concat.2
          have hnot : r ∉ p ++ [r₁] := fun h =>
            (List.nodup_append.mp hc.nodup).2.2 r h r (by simp) rfl
          have hne₁ : r₁ ≠ r := fun e => hnot (by simp [e])
          rw [run_deleteChain_turn hw.valid hr ha hne, run, Prog.run_bind_ok _ h₁, hprev] at h
          have hid : rel.id = r := rel_id hr
          by_cases hlone : s.graph.LoneAtSource rel
          · have halone := ((Graph.loneAtSource_iff (hid ▸ hr) hw.graph).mp hlone).1
            exact absurd h (run_deleteChain_broken n p (hw.broken hc hid halone hD.valid hg) hne₁)
          · obtain ⟨hw₁, hR⟩ := hw.deleted hr hg hD.valid hlone
            obtain ⟨nd₁, hn₁, hc₁⟩ := hR.chains n nd _ hn hc
            rw [List.erase_append_right _ hnot, List.erase_cons_head, List.append_nil] at hc₁
            refine ih hw₁ hn₁ hc₁ hne₁ (fun hrest => hdel ?_) h
            refine Graph.Deletable.of_forall (fun rel' hr' => ?_) hrest hR.sameRels s.keyed s₁.keyed
              hnot
            rw [hr] at hr'
            cases hr'
            exact hlone

/-! ### The function -/

/-- The counters after `delete_node`. -/
def uncountNode (id label : Ulong) (c : Counters) : Counters :=
  { c with
    log := .deleteNode id label :: c.log
    lastAllocNodeId := if id < c.lastAllocNodeId then id else c.lastAllocNodeId
    nNodes := c.nNodes - 1 }

theorem graph_node_setBits_false (hl : s.Live .node id) :
    (s.setBits .node id false).graph = s.graph.removeNode id := by
  have hlive := live_setBits (s := s) false hl.1 hl.2.1
  refine Graph.ext (funext fun x => ?_) (funext fun x => ?_)
  · simp only [graph, hlive, true_and, Graph.removeNode, Function.update_apply]
    by_cases h : x = id
    · simp [h]
    · simp only [if_neg h]
      rfl
  · have : (s.setBits .node id false).Live .relationship x ↔ s.Live .relationship x := by
      rw [hlive, if_neg (by simp)]
    simp only [graph, this, Graph.removeNode]
    rfl

theorem run_dropNode (hv : s.Valid) (hl : s.Live .node n) (label : Ulong) :
    ∃ s', run (HF.dropNode n label) s = .ok ((), s') ∧ s'.graph = s.graph.removeNode n ∧
      Deleted s .node n (uncountNode n label) s' := by
  set s₁ := s.setCounters { s.counters with log := .deleteNode n label :: s.counters.log }
  have hl₁ : s₁.Live .node n := hl
  have hv₁ : s₁.Valid := hv.setCounters hv.aligned
  refine ⟨(s₁.setBits .node n false).setCounters (uncountNode n label s.counters), ?_, ?_, hl,
    fun gt x => ?_, rfl, rfl, ?_⟩
  · refine (Prog.run_bind_ok _ (run_modifyCounters _ s) _).trans ?_
    exact (Prog.run_bind_ok _ (run_setBits (s := s₁) hl₁.1 hl₁.2.1 false) _).trans rfl
  · rw [graph_setCounters, graph_node_setBits_false hl₁]
    rfl
  · rw [setCounters_live, live_setBits (s := s₁) false hl₁.1 hl₁.2.1]
    split
    · rename_i h
      simp [h]
    · rename_i h
      simp only [h, not_false_eq_true, and_true]
      exact Iff.rfl
  · exact (Valid.setBits hv₁ hl₁.1 hl₁.2.1 false).setCounters hv.aligned

/-- `delete_node` is the loop, if there are relationships, and then the end. -/
theorem run_deleteNode_eq (hw : s.WellFormed) {nd : Node} (hn : s.graph.node n = some nd)
    {l : List Ulong} (hc : s.graph.Chain n nd.firstRelationship l) (fuel : ℕ) :
    run (HF.deleteNode fuel n) s =
      match l.getLast? with
      | none => run (HF.dropNode n nd.label) s
      | some r => run (do HF.deleteChain n fuel r uninitializedLong; HF.dropNode n nd.label) s := by
  have hl := (node_eq_some.mp hn).1
  have hread : run (HF.readNodeInternal n true) s = .ok (nd, s) := run_readNode hw.valid hn
  rw [run, HF.deleteNode, if_neg (hw.valid.ne_uninitialized hl.2.1), Prog.run_bind_ok _ hread]
  rcases List.eq_nil_or_concat l with rfl | ⟨p, r, rfl⟩
  · have hU : nd.firstRelationship = uninitializedLong := hc.first_eq_iff.mpr rfl
    rw [HF.when, if_neg (not_not.mpr hU)]
    rfl
  · rw [List.concat_eq_append] at hc ⊢
    have hU : nd.firstRelationship ≠ uninitializedLong := fun h => by
      have := hc.first_eq_iff.mp h
      simp at this
    have hhead : nd.firstRelationship = (p ++ [r]).head (by simp) := by
      rw [hc.first_eq]
      cases p <;> rfl
    obtain ⟨rel, hr, -⟩ := (hc.mem nd.firstRelationship).mp (by rw [hhead]; exact List.head_mem _)
    have hprev : rel.prevAt n = r := by
      rw [← Graph.prev_of_rel hr, hhead, hc.ring.prv_head (by simp), List.getLast_append_singleton]
    rw [HF.when, if_pos hU, List.getLast?_concat]
    simp only [run, Prog.run_bind]
    rw [show Prog.run step (HF.readRelationship nd.firstRelationship) s = .ok (rel, s) from
      run_readRelationship hw.valid hr]
    show ((Prog.run step (HF.deleteChain n fuel (rel.prevAt n) uninitializedLong) s).bind _) = _
    rw [hprev]

end Store

namespace Graph

variable {g g' g'' : Graph} {n : Ulong} {l : List Ulong}

/-- A node without relationships is taken out. -/
theorem WellFormed.removeNode (hw : g.WellFormed) (hn : ∀ x r, g.rel x = some r → ¬ r.At n) :
    (g.removeNode n).WellFormed where
  chain m nd hm := by
    have hne : m ≠ n := fun e => by
      simp [Graph.removeNode, e] at hm
    have hm' : g.node m = some nd := by
      simpa [Graph.removeNode, Function.update_of_ne hne] using hm
    obtain ⟨l, hl⟩ := hw.chain m nd hm'
    exact ⟨l, hl.nodup, hl.mem, hl.ring, hl.first_eq, hl.first_eq_iff⟩
  loops := hw.loops
  endpoints x r hr := by
    have hnode : ∀ {m}, m ≠ n → (∃ nd, g.node m = some nd) →
        ∃ nd, (g.removeNode n).node m = some nd := by
      rintro m hne ⟨nd, hm⟩
      exact ⟨nd, by simpa [Graph.removeNode, Function.update_of_ne hne] using hm⟩
    exact ⟨hnode (fun e => hn x r hr (.inl e)) (hw.endpoints x r hr).1,
      hnode (fun e => hn x r hr (.inr e)) (hw.endpoints x r hr).2⟩

/-- What is left once the chain of a node and then the node are gone. -/
theorem removesNode_of_chain {first : Ulong} (hc : g.Chain n first l)
    (hs : g'.SameRels (g.without l))
    (hlabels : ∀ m, (g'.node m).map Node.label = (g.node m).map Node.label) :
    (∀ x r, g'.rel x = some r → ¬ r.At n) ∧ g.RemovesNode (g'.removeNode n) n := by
  constructor
  · intro x r hr ha
    obtain ⟨r', hr', ha'⟩ := hs.at ⟨r, hr, ha⟩
    simp only [without] at hr'
    split at hr'
    · cases hr'
    · rename_i hx
      exact hx (hc.mem_of_rel hr' ha')
  · refine ⟨Function.update_self .., fun m hm => ?_, fun y => ?_⟩
    · rw [← hlabels]
      simp only [removeNode, Function.update_of_ne hm]
    · show (g'.rel y).map _ = _
      rw [hs y]
      by_cases hy : y ∈ l
      · obtain ⟨r, hr, ha⟩ := (hc.mem y).mp hy
        simp [without, hy, hr, ha]
      · cases hr : g.rel y with
        | none => simp [without, hr]
        | some r =>
            have ha : ¬ r.At n := fun ha => hy (hc.mem_of_rel hr ha)
            simp [without, hy, hr, ha]

end Graph

namespace HeapFile

variable {hf : HeapFile PhyDatabase} {n : Ulong} {nd : Node} {l : List Ulong} {fuel : ℕ}

/-- What `delete_node` is for: the node and its relationships are gone and not counted any more. -/
structure NodeDeleted (hf hf' : HeapFile PhyDatabase) (n : Ulong) (k : ℕ) : Prop where
  wellFormed : hf'.WellFormed
  removes : hf.graph.RemovesNode hf'.graph n
  nNodes : hf'.counters.nNodes = hf.counters.nNodes - 1
  nRels : hf'.counters.nRels = hf.counters.nRels - BitVec.ofNat 64 k

/-- A deletable chain: the loop and the end of `delete_node` do their work. -/
theorem deleteNode_ok (hw : hf.WellFormed) (hn : hf.graph.node n = some nd)
    (hc : hf.graph.Chain n nd.firstRelationship l) (hfuel : l.length < fuel)
    (hdel : hf.graph.Deletable l) :
    ∃ hf', run (HF.deleteNode fuel n) hf = .ok ((), hf') ∧ NodeDeleted hf hf' n l.length := by
  -- the relationships
  obtain ⟨s₁, hrun₁, hw₁, hs₁, hS⟩ : ∃ s₁, Store.run (HF.deleteNode fuel n) (Store.of hf) =
      Store.run (HF.dropNode n nd.label) s₁ ∧ s₁.WellFormed ∧
      s₁.graph.SameRels (hf.graph.without l) ∧ Store.Swept (Store.of hf) s₁ l.length := by
    rw [Store.run_deleteNode_eq hw.store hn hc]
    rcases List.eq_nil_or_concat l with rfl | ⟨p, r, rfl⟩
    · refine ⟨Store.of hf, rfl, hw.store, ?_, fun _ => rfl, rfl, (BitVec.sub_zero _).symm⟩
      rw [Graph.without_nil]
      exact .refl _
    · rw [List.concat_eq_append] at hc hfuel hdel ⊢
      obtain ⟨rel, hr, -⟩ := (hc.mem r).mp (by simp)
      have hU : r ≠ uninitializedLong :=
        hw.store.valid.ne_uninitialized (Store.rel_eq_some.mp hr).1.2.1
      obtain ⟨s₁, h₁, hw₁, hs₁, hS⟩ := Store.run_deleteChain n p hw.store hn hc hU hdel hfuel
      refine ⟨s₁, ?_, hw₁, hs₁, hS⟩
      rw [List.getLast?_concat]
      exact Prog.run_bind_ok _ h₁ _
  -- the node
  obtain ⟨hnone, hR⟩ := Graph.removesNode_of_chain hc hs₁ hS.labels
  have hn₁ : (s₁.graph.node n).isSome := by
    have := hS.labels n
    rw [show (Store.of hf).graph.node n = some nd from hn] at this
    obtain ⟨nd₁, h, -⟩ := Option.map_eq_some_iff.mp this
    rw [h]
    rfl
  obtain ⟨nd₁, hn₁⟩ := Option.isSome_iff_exists.mp hn₁
  obtain ⟨s', h', hg', hD⟩ := Store.run_dropNode hw₁.valid (Store.node_eq_some.mp hn₁).1 nd.label
  obtain ⟨hf', hrun, hgood, rfl⟩ := run_ok hw.good (hrun₁.trans h')
  refine ⟨hf', hrun, ⟨hgood, hD.valid, fun x r hr => ?_, ?_⟩, ?_, ?_, ?_⟩
  · rw [hg'] at hr
    exact hw₁.weights x r hr
  · rw [hg']
    exact hw₁.graph.removeNode hnone
  · exact (show hf'.graph = _ from hg') ▸ hR
  · have := congrArg Counters.nNodes hD.counters
    rw [show (Store.uncountNode n nd.label s₁.counters).nNodes = s₁.counters.nNodes - 1 from rfl,
      hS.nNodes] at this
    exact this
  · have := congrArg Counters.nRels hD.counters
    rw [show (Store.uncountNode n nd.label s₁.counters).nRels = s₁.counters.nRels from rfl,
      hS.nRels] at this
    exact this

/-- A chain that is not deletable: `delete_node` does not return, or leaves a broken heap file. -/
theorem deleteNode_not (hw : hf.WellFormed) (hn : hf.graph.node n = some nd)
    (hc : hf.graph.Chain n nd.firstRelationship l) (hdel : ¬ hf.graph.Deletable l)
    {hf' : HeapFile PhyDatabase} (h : run (HF.deleteNode fuel n) hf = .ok ((), hf')) :
    ¬ hf'.WellFormed := by
  intro hw'
  obtain ⟨-, h⟩ := run_inv hw.good h
  rw [Store.run_deleteNode_eq hw.store hn hc] at h
  rcases List.eq_nil_or_concat l with rfl | ⟨p, r, rfl⟩
  · exact hdel fun p r q rel hl => by simp at hl
  · rw [List.concat_eq_append] at hc hdel h
    rw [List.getLast?_concat] at h
    obtain ⟨u, s₁, h₁, h₂⟩ := Prog.run_bind_inv _ h
    obtain ⟨rel, hr, -⟩ := (hc.mem r).mp (by simp)
    have hU : r ≠ uninitializedLong :=
      hw.store.valid.ne_uninitialized (Store.rel_eq_some.mp hr).1.2.1
    obtain ⟨hv, hn₁, m, nd', hm, hnd', hnone⟩ :=
      Store.run_deleteChain_bad n p hw.store hn hc hU hdel h₁
    obtain ⟨nd₁, hn₁⟩ := Option.isSome_iff_exists.mp hn₁
    -- that chain is not there after the node is gone either
    obtain ⟨s₂, h₂', hg, -⟩ := Store.run_dropNode hv (Store.node_eq_some.mp hn₁).1 nd.label
    have hs₂ : s₂ = Store.of hf' := congrArg Prod.snd (Except.ok.inj (h₂'.symm.trans h₂))
    have hwg : (s₁.graph.removeNode n).WellFormed := hg ▸ hs₂ ▸ hw'.graph
    have hm' : (s₁.graph.removeNode n).node m = some nd' := by
      simpa [Graph.removeNode, Function.update_of_ne hm] using hnd'
    obtain ⟨l', hl'⟩ := hwg.chain m nd' hm'
    exact hnone l' ⟨hl'.nodup, hl'.mem, hl'.ring, hl'.first_eq, hl'.first_eq_iff⟩

/-- **`delete_node`** deletes the node with its relationships exactly if its chain is deletable. -/
theorem deleteNode_iff (hw : hf.WellFormed) (hn : hf.graph.node n = some nd)
    (hc : hf.graph.Chain n nd.firstRelationship l) (hfuel : l.length < fuel) :
    (∃ hf', run (HF.deleteNode fuel n) hf = .ok ((), hf') ∧ NodeDeleted hf hf' n l.length) ↔
      hf.graph.Deletable l := by
  constructor
  · rintro ⟨hf', hrun, hD⟩
    by_contra hdel
    exact deleteNode_not hw hn hc hdel hrun hD.wellFormed
  · exact deleteNode_ok hw hn hc hfuel

/-- The last relationship of a chain is the one before the first. -/
theorem getLast_eq (hw : hf.WellFormed) (hn : hf.graph.node n = some nd)
    (hU : nd.firstRelationship ≠ uninitializedLong) :
    ∃ p, hf.graph.Chain n nd.firstRelationship
      (p ++ [hf.graph.prev n nd.firstRelationship]) := by
  obtain ⟨l, hc⟩ := hw.graph.chain n nd hn
  rcases List.eq_nil_or_concat l with rfl | ⟨p, r, rfl⟩
  · exact absurd (hc.first_eq_iff.mpr rfl) hU
  · rw [List.concat_eq_append] at hc
    have hhead : nd.firstRelationship = (p ++ [r]).head (by simp) := by
      rw [hc.first_eq]
      cases p <;> rfl
    have hprev : hf.graph.prev n nd.firstRelationship = r := by
      rw [hhead, hc.ring.prv_head (by simp), List.getLast_append_singleton]
    exact ⟨p, hprev ▸ hc⟩

/-- The node 1 with its two relationships cannot be deleted: the last one, `4`, is the only one of
node 0. -/
theorem deleteNode_twoInto : ∃ db hf₀ hf, PhyDatabase.create 4096 = .ok db ∧
    create 4096 1000 (PhyDatabase.flat 4096) db = .ok hf₀ ∧
    run (HF.creations 4096 1000 twoInto) hf₀ = .ok ([0#64, 1#64, 2#64, 0#64, 4#64], hf) ∧
    hf.WellFormed ∧ (hf.graph.node 1#64).isSome ∧
    ∀ fuel k, ¬ ∃ hf', run (HF.deleteNode fuel 1#64) hf = .ok ((), hf') ∧
      NodeDeleted hf hf' 1#64 k := by
  obtain ⟨db, hf₀, hf, hdb, hcreate, hrun, hw, hrel, hnode, hfirst⟩ := exists_twoInto
  refine ⟨db, hf₀, hf, hdb, hcreate, hrun, hw, by rw [hnode]; rfl, ?_⟩
  rintro fuel k ⟨hf', hrun', hD⟩
  obtain ⟨p, hc⟩ := getLast_eq hw hnode (by decide)
  rw [show hf.graph.prev 1#64 0#64 = 4#64 from Graph.prev_of_rel hfirst] at hc
  refine deleteNode_not hw hnode hc (fun hdel => ?_) hrun' hD.wellFormed
  refine hdel p 4#64 [] secondInto rfl hrel ?_
  rw [Graph.without_nil]
  exact (Graph.loneAtSource_iff hrel hw.graph).mpr (by decide)

/-- A node with two relationships is deleted well, since the sources of both have others. -/
theorem deleteNode_iff_triangle : ∃ hf : HeapFile PhyDatabase, hf.WellFormed ∧
    hf.graph.Chain 0#64 0#64 [0#64, 4#64] ∧
    ∃ hf', run (HF.deleteNode 1000 0#64) hf = .ok ((), hf') ∧ NodeDeleted hf hf' 0#64 2 := by
  obtain ⟨hf, hw, ⟨h₀, h₄, h₈⟩, hn₀, hc₀, -⟩ := exists_triangle
  refine ⟨hf, hw, hc₀, (deleteNode_iff hw hn₀ hc₀ (by decide)).mpr ?_⟩
  rintro p r q rel hl hr ⟨halone, -⟩
  rcases p with _ | ⟨a, _ | ⟨b, p⟩⟩
  · -- the relationship `0`, when `4` is gone: `8` has its source too
    cases hl
    cases h₀.symm.trans hr
    exact absurd (halone 8#64 _ ((Graph.without_rel (by decide)).trans h₈) (.inl rfl)) (by decide)
  · cases hl
    cases h₄.symm.trans hr
    exact absurd (halone 0#64 _ ((Graph.without_rel (by decide)).trans h₀) (.inr rfl)) (by decide)
  · simp at hl

end HeapFile

end Goedb
