import Goedb.Access.Linking

/-!
# Access — taking a relationship out

`Graph.unlink` is what `delete_relationship` does to a graph.  The neighbours are linked to each
other at both endpoints, but only if the relationship is not alone in the chain of its *source*;
nothing looks at the chain of its target.  So

* `WellFormed.unlink`: the graph stays well-formed, and the relationship is gone from both chains,
  unless it is alone at its source but not at its target;
* `not_wellFormed_unlink`: there the chain of the target is left with a pointer to nothing.
-/

namespace Goedb

open Lib

namespace Graph

/-- The relationship is the only one at its source, and not the only one at its target. -/
def LoneAtSource (g : Graph) (rel : Relationship) : Prop :=
  (∀ y r, g.rel y = some r → r.At rel.sourceNode → y = rel.id) ∧
    ∃ y r, g.rel y = some r ∧ r.At rel.targetNode ∧ y ≠ rel.id

/-- The neighbours of `rel` linked to each other, unless `rel` precedes itself at its source. -/
def unlinkRel (rel : Relationship) (r : Relationship) : Relationship :=
  if rel.id = rel.prevRelSource then r
  else Relationship.relink rel.sourceNode rel.targetNode
    rel.prevRelSource rel.nextRelSource rel.prevRelTarget rel.nextRelTarget
    rel.nextRelSource rel.prevRelSource rel.nextRelTarget rel.prevRelTarget r

/-- The first relationship of a node moved on, if it is `relId`. -/
def moveFirst (relId next : Ulong) (nd : Node) : Node :=
  if nd.firstRelationship = relId then
    { nd with firstRelationship := if next = relId then uninitializedLong else next }
  else nd

/-- Both endpoints of `rel` moved on. -/
def moveEnds (rel : Relationship) (n : Ulong) (nd : Node) : Node :=
  let nd := if n = rel.sourceNode then moveFirst rel.id rel.nextRelSource nd else nd
  if n = rel.targetNode then moveFirst rel.id rel.nextRelTarget nd else nd

/-- **A relationship taken out**, as `delete_relationship` does it. -/
def unlink (g : Graph) (rel : Relationship) : Graph where
  node n := (g.node n).map (moveEnds rel n)
  rel y := if y = rel.id then none else (g.rel y).map (unlinkRel rel)

/-- `g'` is `g` without the relationship `id`, which is gone from every chain.  Nothing else is said
differently. -/
structure Removes (g g' : Graph) (id : Ulong) : Prop where
  gone : g'.rel id = none
  others : ∀ y, y ≠ id → (g'.rel y).map Relationship.payload = (g.rel y).map Relationship.payload
  labels : ∀ n, (g'.node n).map Node.label = (g.node n).map Node.label
  chains : ∀ n nd l, g.node n = some nd → g.Chain n nd.firstRelationship l →
    ∃ nd', g'.node n = some nd' ∧ g'.Chain n nd'.firstRelationship (l.erase id)

theorem keeps_unlinkRel (rel : Relationship) : Relationship.Keeps (unlinkRel rel) := by
  constructor
  · intro r
    unfold unlinkRel
    split
    · rfl
    · exact Relationship.keeps_relink.id r
  · intro r
    unfold unlinkRel
    split
    · rfl
    · exact Relationship.keeps_relink.payload r

theorem moveFirst_label {relId next : Ulong} {nd : Node} :
    (moveFirst relId next nd).label = nd.label := by
  unfold moveFirst
  split <;> rfl

theorem moveEnds_label {rel : Relationship} {n : Ulong} {nd : Node} :
    (moveEnds rel n nd).label = nd.label := by
  unfold moveEnds
  split_ifs <;> simp only [moveFirst_label]

variable {g : Graph} {n first y : Ulong} {l : List Ulong} {r rel : Relationship} {nd : Node}

theorem unlink_rel_of_ne (h : y ≠ rel.id) :
    (g.unlink rel).rel y = (g.rel y).map (unlinkRel rel) := if_neg h

theorem unlink_rel_self : (g.unlink rel).rel rel.id = none := if_pos rfl

/-- The relationships at a node, without the one that was taken out. -/
theorem unlink_at_iff : (∃ r, (g.unlink rel).rel y = some r ∧ r.At n) ↔
    y ≠ rel.id ∧ ∃ r, g.rel y = some r ∧ r.At n := by
  by_cases hy : y = rel.id
  · subst hy
    simp [unlink_rel_self]
  · rw [unlink_rel_of_ne hy]
    constructor
    · rintro ⟨r', hr', ha⟩
      obtain ⟨r, hr, rfl⟩ := Option.map_eq_some_iff.mp hr'
      exact ⟨hy, r, hr, (keeps_unlinkRel rel).at_iff.mp ha⟩
    · rintro ⟨-, r, hr, ha⟩
      exact ⟨_, by rw [hr]; rfl, (keeps_unlinkRel rel).at_iff.mpr ha⟩

section Unlink

variable (hk : g.Keyed) (hr : g.rel rel.id = some rel) (hc : g.Chain n first l)

omit hk hr hc in
theorem unlink_rel_of_alone (he : rel.id = rel.prevRelSource) (y : Ulong) :
    (g.unlink rel).rel y = if y = rel.id then none else g.rel y := by
  have : unlinkRel rel = fun r => r := funext fun r => if_pos he
  simp only [unlink, this, Option.map_id']

theorem next_unlink_of_alone (he : rel.id = rel.prevRelSource) (hne : y ≠ rel.id) :
    (g.unlink rel).next n y = g.next n y ∧ (g.unlink rel).prev n y = g.prev n y := by
  simp only [next, prev, unlink_rel_of_alone he, if_neg hne, and_self]

include hk hc in
/-- The pointers after the neighbours are linked to each other. -/
theorem next_unlink (he : rel.id ≠ rel.prevRelSource) (hy : y ∈ l) (hne : y ≠ rel.id) :
    (g.unlink rel).next n y =
        (if y = rel.prevRelTarget ∧ n = rel.targetNode then rel.nextRelTarget
          else if y = rel.prevRelSource ∧ n = rel.sourceNode then rel.nextRelSource
          else g.next n y) ∧
      (g.unlink rel).prev n y =
        if y = rel.nextRelTarget ∧ n = rel.targetNode then rel.prevRelTarget
          else if y = rel.nextRelSource ∧ n = rel.sourceNode then rel.prevRelSource
          else g.prev n y := by
  obtain ⟨r, hry, ha⟩ := (hc.mem y).mp hy
  have hid := hk y r hry
  have hr' : (g.unlink rel).rel y = some (unlinkRel rel r) := by
    rw [unlink_rel_of_ne hne, hry, Option.map_some]
  rw [next_of_rel hr', prev_of_rel hr', next_of_rel hry, prev_of_rel hry, unlinkRel, if_neg he,
    Relationship.nextAt_relink ha, Relationship.prevAt_relink ha, hid]
  exact ⟨rfl, rfl⟩

include hc in
theorem unlink_mem_iff : y ∈ l.erase rel.id ↔ ∃ r, (g.unlink rel).rel y = some r ∧ r.At n := by
  rw [hc.nodup.mem_erase_iff, unlink_at_iff, hc.mem]

include hk hc in
/-- A chain at neither endpoint is kept. -/
theorem unlink_chain_of_not_at (ha : ¬ rel.At n) (hr : g.rel rel.id = some rel) :
    (g.unlink rel).Chain n first (l.erase rel.id) := by
  have hnot : rel.id ∉ l := fun h => by
    obtain ⟨r', hr', ha'⟩ := (hc.mem _).mp h
    rw [hr] at hr'
    cases hr'
    exact ha ha'
  have hns : n ≠ rel.sourceNode := fun h => ha (.inl h.symm)
  have hnt : n ≠ rel.targetNode := fun h => ha (.inr h.symm)
  have hsame : ∀ y ∈ l, (g.unlink rel).next n y = g.next n y ∧
      (g.unlink rel).prev n y = g.prev n y := by
    intro y hy
    have hne : y ≠ rel.id := ne_of_mem_of_not_mem hy hnot
    by_cases he : rel.id = rel.prevRelSource
    · exact next_unlink_of_alone he hne
    · obtain ⟨h₁, h₂⟩ := next_unlink hk hc he hy hne
      rw [h₁, h₂]
      simp [hns, hnt]
  rw [List.erase_of_not_mem hnot]
  refine ⟨hc.nodup, fun y => ?_, ?_, hc.first_eq, hc.first_eq_iff⟩
  · rw [← unlink_mem_iff hc, List.erase_of_not_mem hnot]
  · exact hc.ring.congr (fun y hy => (hsame y hy).1) fun y hy => (hsame y hy).2

omit hk hr hc in
theorem moveEnds_of_not_at (ha : ¬ rel.At n) : moveEnds rel n nd = nd := by
  have hns : n ≠ rel.sourceNode := fun h => ha (.inl h.symm)
  have hnt : n ≠ rel.targetNode := fun h => ha (.inr h.symm)
  simp only [moveEnds, if_neg hns, if_neg hnt]

theorem moveEnds_first (hloop : rel.LoopAgrees) (ha : rel.At n)
    (hU : nd.firstRelationship = rel.id → rel.id ≠ uninitializedLong) :
    (moveEnds rel n nd).firstRelationship =
      if nd.firstRelationship = rel.id then
        if rel.nextAt n = rel.id then uninitializedLong else rel.nextAt n
      else nd.firstRelationship := by
  by_cases hf : nd.firstRelationship = rel.id
  · have hU' := hU hf
    by_cases hs : n = rel.sourceNode
    · by_cases ht : n = rel.targetNode
      · obtain ⟨-, hnext⟩ := hloop (hs.symm.trans ht)
        simp only [moveEnds, moveFirst, if_pos hs, if_pos ht, if_pos hf, Relationship.nextAt]
        by_cases hn : rel.nextRelSource = rel.id
        · simp [hn, Ne.symm hU']
        · simp [hn]
      · simp only [moveEnds, moveFirst, if_pos hs, if_neg ht, if_pos hf, Relationship.nextAt]
    · have ht : n = rel.targetNode := (ha.resolve_left (Ne.symm hs)).symm
      simp only [moveEnds, moveFirst, if_neg hs, if_pos ht, if_pos hf, Relationship.nextAt]
  · simp only [moveEnds, moveFirst, if_neg hf]
    split_ifs <;> rfl

include hr hc in
/-- A relationship with company at an endpoint does not precede itself at its source, unless it is
alone there. -/
theorem id_ne_prevRelSource (hgood : ¬ g.LoneAtSource rel) {firstS : Ulong} {lS : List Ulong}
    (hS : g.Chain rel.sourceNode firstS lS) (ha : rel.At n) (hne : l ≠ [rel.id]) :
    rel.id ≠ rel.prevRelSource := by
  intro he
  have hprev : g.prev rel.sourceNode rel.id = rel.id := by
    rw [prev_of_rel hr, (prevAt_source rfl).1, ← he]
  have hlS := hS.ring.eq_singleton_of_prv_eq hS.nodup (hS.mem_of_rel hr (.inl rfl)) hprev
  have hx := hc.mem_of_rel hr ha
  refine hgood ⟨fun y r hy hay => ?_, ?_⟩
  · have := hS.mem_of_rel hy hay
    rw [hlS] at this
    exact List.mem_singleton.mp this
  · by_cases hs : n = rel.sourceNode
    · subst hs
      exact absurd (hc.ring.eq_singleton_of_prv_eq hc.nodup hx hprev) hne
    · have ht : rel.targetNode = n := ha.resolve_left (Ne.symm hs)
      rw [ht]
      obtain ⟨y, hy, hyx⟩ : ∃ y ∈ l, y ≠ rel.id := by
        by_contra hall
        push Not at hall
        have hrep := List.eq_replicate_of_mem hall
        have hlen := List.nodup_replicate.mp (hrep ▸ hc.nodup)
        have hpos := List.length_pos_of_mem hx
        rw [show l.length = 1 by omega] at hrep
        exact hne hrep
      obtain ⟨r, hr', ha'⟩ := (hc.mem y).mp hy
      exact ⟨y, r, hr', ha', hyx⟩

include hk hr in
/-- **The chain of an endpoint loses the relationship.** -/
theorem unlink_chain_of_at (hc : g.Chain n nd.firstRelationship l)
    (hU : g.rel uninitializedLong = none) (hloop : rel.LoopAgrees) (hgood : ¬ g.LoneAtSource rel)
    {firstS : Ulong} {lS : List Ulong} (hS : g.Chain rel.sourceNode firstS lS) (ha : rel.At n) :
    (g.unlink rel).Chain n (moveEnds rel n nd).firstRelationship (l.erase rel.id) := by
  have hx := hc.mem_of_rel hr ha
  have hnext : g.next n rel.id = rel.nextAt n := next_of_rel hr
  have hprev : g.prev n rel.id = rel.prevAt n := prev_of_rel hr
  -- the node points at the next relationship of its chain, or at none if there is no other
  have hfirst : (moveEnds rel n nd).firstRelationship =
      (l.erase rel.id).headD uninitializedLong ∧
      ((moveEnds rel n nd).firstRelationship = uninitializedLong ↔ l.erase rel.id = []) := by
    have hlU : nd.firstRelationship ≠ uninitializedLong := fun h => by
      rw [hc.first_eq_iff.mp h] at hx
      cases hx
    rw [moveEnds_first hloop ha fun h => h ▸ hlU]
    cases l with
    | nil => cases hx
    | cons a t =>
        have hfa : nd.firstRelationship = a := hc.first_eq
        by_cases hax : a = rel.id
        · subst hax
          rw [if_pos hfa, List.erase_cons_head]
          cases t with
          | nil =>
              have := (Ring.singleton_iff.mp hc.ring).1
              rw [hnext] at this
              rw [if_pos this]
              simp
          | cons b t =>
              have hb : rel.nextAt n = b := by
                rw [← hnext]
                exact (List.rel_of_isChain_cons_cons (Ring.cons_iff.mp hc.ring)).1
              have hbx : b ≠ rel.id := fun h => by
                have := hc.nodup
                simp [h] at this
              have hbU : b ≠ uninitializedLong := fun h => by
                obtain ⟨r, hr, -⟩ := (hc.mem b).mp (by simp)
                rw [h, hU] at hr
                cases hr
              rw [hb, if_neg hbx]
              simp [hbU]
        · rw [if_neg fun h => hax (hfa.symm.trans h), List.erase_cons_tail (by simpa using hax)]
          exact ⟨hfa, by simp [hlU]⟩
  refine ⟨hc.nodup.erase _, fun y => unlink_mem_iff hc, ?_, hfirst.1, hfirst.2⟩
  by_cases hne : l = [rel.id]
  · rw [hne]
    simp
  · have he := id_ne_prevRelSource hr hc hgood hS ha hne
    have hprevx : rel.prevAt n ≠ rel.id := fun h =>
      hne (hc.ring.eq_singleton_of_prv_eq hc.nodup hx (hprev.trans h))
    have hnextx : rel.nextAt n ≠ rel.id := fun h =>
      hne (hc.ring.eq_singleton_of_nxt_eq hc.nodup hx (hnext.trans h))
    -- the links of the others stay, and its two neighbours are linked to each other
    refine hc.ring.erase hc.nodup hx hne (fun u hu hux hup => ?_) (fun v hv hvx hvn => ?_) ⟨?_, ?_⟩
    · rw [(next_unlink hk hc he hu hux).1, if_neg, if_neg]
      · rintro ⟨rfl, hs⟩
        exact hup (hprev.trans (prevAt_source hs).1).symm
      · rintro ⟨rfl, ht⟩
        exact hup (hprev.trans (prevAt_target hloop ht).1).symm
    · rw [(next_unlink hk hc he hv hvx).2, if_neg, if_neg]
      · rintro ⟨rfl, hs⟩
        exact hvn (hnext.trans (prevAt_source hs).2).symm
      · rintro ⟨rfl, ht⟩
        exact hvn (hnext.trans (prevAt_target hloop ht).2).symm
    · have hm : rel.prevAt n ∈ l := hprev ▸ hc.ring.prv_mem hx
      rw [hprev, hnext, (next_unlink hk hc he hm hprevx).1]
      by_cases ht : n = rel.targetNode
      · rw [if_pos ⟨(prevAt_target hloop ht).1, ht⟩, (prevAt_target hloop ht).2]
      · have hs : n = rel.sourceNode := (ha.resolve_right (Ne.symm ht)).symm
        rw [if_neg fun h => ht h.2, if_pos ⟨(prevAt_source hs).1, hs⟩, (prevAt_source hs).2]
    · have hm : rel.nextAt n ∈ l := hnext ▸ hc.ring.nxt_mem hx
      rw [hprev, hnext, (next_unlink hk hc he hm hnextx).2]
      by_cases ht : n = rel.targetNode
      · rw [if_pos ⟨(prevAt_target hloop ht).2, ht⟩, (prevAt_target hloop ht).1]
      · have hs : n = rel.sourceNode := (ha.resolve_right (Ne.symm ht)).symm
        rw [if_neg fun h => ht h.2, if_pos ⟨(prevAt_source hs).2, hs⟩, (prevAt_source hs).1]

include hk hr in
/-- **Taking out keeps a graph well-formed**, unless the relationship is alone at its source only. -/
theorem WellFormed.unlink (hw : g.WellFormed) (hU : g.rel uninitializedLong = none)
    (hgood : ¬ g.LoneAtSource rel) :
    (g.unlink rel).WellFormed ∧ g.Removes (g.unlink rel) rel.id := by
  have hloop : rel.LoopAgrees := hw.loops _ _ hr
  obtain ⟨ns, hns⟩ := (hw.endpoints _ _ hr).1
  obtain ⟨lS, hS⟩ := hw.chain _ _ hns
  -- a chain loses the relationship if the node is one of its ends, and stays as it is otherwise
  have hchain : ∀ n nd l, g.node n = some nd → g.Chain n nd.firstRelationship l →
      (g.unlink rel).Chain n (moveEnds rel n nd).firstRelationship (l.erase rel.id) := by
    intro n nd l hn hl
    by_cases ha : rel.At n
    · exact unlink_chain_of_at hk hr hl hU hloop hgood hS ha
    · rw [moveEnds_of_not_at ha]
      exact unlink_chain_of_not_at hk hl ha hr
  have hnode : ∀ {n nd}, g.node n = some nd →
      (g.unlink rel).node n = some (moveEnds rel n nd) := fun h => congrArg (Option.map _) h
  refine ⟨⟨fun n nd hn => ?_, fun y r' hr' => ?_, fun y r' hr' => ?_⟩, unlink_rel_self,
    fun y hy => ?_, fun n => ?_, fun n nd l hn hl => ⟨_, hnode hn, hchain n nd l hn hl⟩⟩
  · obtain ⟨nd₀, hnd₀, rfl⟩ := Option.map_eq_some_iff.mp hn
    obtain ⟨l, hl⟩ := hw.chain n nd₀ hnd₀
    exact ⟨_, hchain n nd₀ l hnd₀ hl⟩
  · have hy : y ≠ rel.id := fun e => by
      rw [e, unlink_rel_self] at hr'
      cases hr'
    rw [unlink_rel_of_ne hy] at hr'
    obtain ⟨r, hry, rfl⟩ := Option.map_eq_some_iff.mp hr'
    rw [unlinkRel]
    split
    · exact hw.loops y r hry
    · exact Relationship.LoopAgrees.relink (hw.loops y r hry)
  · have hy : y ≠ rel.id := fun e => by
      rw [e, unlink_rel_self] at hr'
      cases hr'
    rw [unlink_rel_of_ne hy] at hr'
    obtain ⟨r, hry, rfl⟩ := Option.map_eq_some_iff.mp hr'
    obtain ⟨⟨nd₁, h₁⟩, nd₂, h₂⟩ := hw.endpoints y r hry
    rw [(keeps_unlinkRel rel).sourceNode, (keeps_unlinkRel rel).targetNode]
    exact ⟨⟨_, hnode h₁⟩, _, hnode h₂⟩
  · rw [unlink_rel_of_ne hy]
    cases g.rel y with
    | none => rfl
    | some r => exact congrArg some ((keeps_unlinkRel rel).payload r)
  · show ((g.node n).map (moveEnds rel n)).map Node.label = _
    cases g.node n with
    | none => rfl
    | some nd => exact congrArg some moveEnds_label

include hr in
/-- The pointers tell where a relationship is alone. -/
theorem loneAtSource_iff (hw : g.WellFormed) :
    g.LoneAtSource rel ↔ rel.id = rel.prevRelSource ∧ rel.id ≠ rel.prevRelTarget := by
  obtain ⟨⟨ns, hns⟩, nt, hnt⟩ := hw.endpoints _ _ hr
  obtain ⟨lS, hS⟩ := hw.chain _ _ hns
  obtain ⟨lT, hT⟩ := hw.chain _ _ hnt
  have hxS := hS.mem_of_rel hr (.inl rfl)
  have hxT := hT.mem_of_rel hr (.inr rfl)
  have hpS : g.prev rel.sourceNode rel.id = rel.prevRelSource := by
    rw [prev_of_rel hr, (prevAt_source rfl).1]
  have hpT : g.prev rel.targetNode rel.id = rel.prevRelTarget := by
    rw [prev_of_rel hr, (prevAt_target (hw.loops _ _ hr) rfl).1]
  constructor
  · rintro ⟨honly, y, r, hry, ha, hyx⟩
    constructor
    · obtain ⟨r, hr', ha⟩ := (hS.mem _).mp (hS.ring.prv_mem hxS)
      exact (hpS ▸ honly _ r hr' ha).symm
    · intro h
      have := hT.mem_of_rel hry ha
      rw [hT.ring.eq_singleton_of_prv_eq hT.nodup hxT (hpT.trans h.symm), List.mem_singleton] at this
      exact hyx this
  · rintro ⟨hs, ht⟩
    have hlS := hS.ring.eq_singleton_of_prv_eq hS.nodup hxS (hpS.trans hs.symm)
    refine ⟨fun y r hy ha => ?_, ?_⟩
    · have := hS.mem_of_rel hy ha
      rw [hlS] at this
      exact List.mem_singleton.mp this
    · obtain ⟨r, hr', ha⟩ := (hT.mem _).mp (hT.ring.prv_mem hxT)
      rw [hpT] at hr'
      exact ⟨_, r, hr', ha, Ne.symm ht⟩

include hr in
/-- **Where the relationship is alone at its source only**, its target keeps a pointer to it. -/
theorem not_chain_unlink (hw : g.WellFormed) (hbad : g.LoneAtSource rel) {first' : Ulong}
    {l' : List Ulong} : ¬ (g.unlink rel).Chain rel.targetNode first' l' := by
  intro hl'
  obtain ⟨halone, htgt⟩ := (loneAtSource_iff hr hw).mp hbad
  obtain ⟨nt, hnt⟩ := (hw.endpoints _ _ hr).2
  obtain ⟨lT, hT⟩ := hw.chain _ _ hnt
  have hxT := hT.mem_of_rel hr (.inr rfl)
  -- the relationship before it at the target
  have hy := hT.ring.prv_mem hxT
  have hne : g.prev rel.targetNode rel.id ≠ rel.id := by
    rw [prev_of_rel hr, (prevAt_target (hw.loops _ _ hr) rfl).1]
    exact Ne.symm htgt
  have hmem : g.prev rel.targetNode rel.id ∈ l' := by
    rw [hl'.mem, unlink_at_iff]
    exact ⟨hne, (hT.mem _).mp hy⟩
  have hnext := hl'.ring.nxt_mem hmem
  rw [(next_unlink_of_alone halone hne).1, hT.ring.nxt_prv hxT, hl'.mem] at hnext
  obtain ⟨r, hr', -⟩ := hnext
  rw [unlink_rel_self] at hr'
  cases hr'

include hr in
theorem not_wellFormed_unlink (hw : g.WellFormed) (hbad : g.LoneAtSource rel) :
    ¬ (g.unlink rel).WellFormed := by
  intro hw'
  obtain ⟨nt, hnt⟩ := (hw.endpoints _ _ hr).2
  obtain ⟨l', hl'⟩ := hw'.chain rel.targetNode _ (congrArg (Option.map _) hnt)
  exact not_chain_unlink hr hw hbad hl'

end Unlink

end Graph

end Goedb
