import Goedb.Access.Retelling
import Goedb.Order.Layout

/-!
# Order — what `sort_incidence_list` does to the pointers

Where a node has three or more relationships, its cycle is linked anew in the order of the ids: each
relationship gets its pointers at the node from the cyclic permutation of the sorted ids
(`Store.run_relinkAll`).  Only one side of a relationship is written, the source side if the node is the
source.  The ids and endpoints never change, so what is written is known from the start
(`Store.run_sortNodes`).
-/

namespace Goedb

open Lib

namespace Relationship

variable {r : Relationship} {n k p q : Ulong}

theorem keeps_setPointers (n p q : Ulong) : Keeps (HF.setPointers n p q) where
  id r := by
    rw [HF.setPointers]
    split <;> rfl
  payload r := by
    rw [HF.setPointers]
    split <;> rfl

theorem setPointers_setPointers :
    HF.setPointers n p q (HF.setPointers n p q r) = HF.setPointers n p q r := by
  rw [HF.setPointers, (keeps_setPointers n p q).sourceNode]
  rw [HF.setPointers]
  split
  · rfl
  · rfl

/-- The pointers at the node are set, those at the other are kept. -/
theorem nextAt_setPointers (h : r.At k) (hn : r.At n) :
    (HF.setPointers n p q r).nextAt k = if k = n then q else r.nextAt k := by
  rw [HF.setPointers]
  by_cases hs : r.sourceNode = n
  · subst hs
    rw [if_pos rfl, nextAt, nextAt]
    by_cases hk : k = r.sourceNode
    · rw [if_pos hk, if_pos hk]
    · rw [if_neg hk, if_neg hk, if_neg hk]
  · obtain rfl := hn.resolve_left hs
    rw [if_neg hs, nextAt, nextAt]
    rcases h with rfl | rfl
    · rw [if_pos rfl, if_neg hs, if_pos rfl]
    · rw [if_neg (Ne.symm hs), if_pos rfl]

theorem prevAt_setPointers (h : r.At k) (hn : r.At n) :
    (HF.setPointers n p q r).prevAt k = if k = n then p else r.prevAt k := by
  rw [HF.setPointers]
  by_cases hs : r.sourceNode = n
  · subst hs
    rw [if_pos rfl, prevAt, prevAt]
    by_cases hk : k = r.sourceNode
    · rw [if_pos hk, if_pos hk]
    · rw [if_neg hk, if_neg hk, if_neg hk]
  · obtain rfl := hn.resolve_left hs
    rw [if_neg hs, prevAt, prevAt]
    rcases h with rfl | rfl
    · rw [if_pos rfl, if_neg hs, if_pos rfl]
    · rw [if_neg (Ne.symm hs), if_pos rfl]

end Relationship

namespace Store

variable {s s' s'' : Store} {n x : Ulong} {σ : Renaming} {D D' : List Ulong}

/-- The pointers at `n` of the relationships `D` lead where the permutation says. -/
structure Repointed (s : Store) (n : Ulong) (σ : Renaming) (D : List Ulong) (s' : Store) : Prop where
  slots : s.SameSlots s'
  node : s'.graph.node = s.graph.node
  rel : ∀ x, s'.graph.rel x =
    if x ∈ D then (s.graph.rel x).map (HF.setPointers n (σ.symm x) (σ x)) else s.graph.rel x

namespace Repointed

theorem refl (s : Store) (n : Ulong) (σ : Renaming) : s.Repointed n σ [] s :=
  ⟨.refl s, rfl, fun _ => (if_neg List.not_mem_nil).symm⟩

theorem congr (h : s.Repointed n σ D s') (hD : ∀ x, x ∈ D ↔ x ∈ D') : s.Repointed n σ D' s' :=
  ⟨h.slots, h.node, fun x => by rw [h.rel, if_congr (hD x) rfl rfl]⟩

theorem trans (h : s.Repointed n σ D s') (h' : s'.Repointed n σ D' s'') :
    s.Repointed n σ (D ++ D') s'' := by
  refine ⟨h.slots.trans h'.slots, h'.node.trans h.node, fun x => ?_⟩
  rw [h'.rel, h.rel]
  by_cases h₁ : x ∈ D
  · by_cases h₂ : x ∈ D'
    · rw [if_pos h₂, if_pos h₁, if_pos (List.mem_append_left _ h₁), Option.map_map]
      refine congrArg (Option.map · _) (funext fun r => ?_)
      exact Relationship.setPointers_setPointers
    · rw [if_neg h₂, if_pos h₁, if_pos (List.mem_append_left _ h₁)]
  · by_cases h₂ : x ∈ D'
    · rw [if_pos h₂, if_neg h₁, if_pos (List.mem_append_right _ h₂)]
    · rw [if_neg h₂, if_neg h₁, if_neg (List.mem_append.not.mpr (not_or_intro h₁ h₂))]

/-- What a relationship says is kept. -/
theorem exists_rel (h : s.Repointed n σ D s') {r : Relationship} (hr : s.graph.rel x = some r) :
    ∃ r', s'.graph.rel x = some r' ∧ r'.id = r.id ∧ r'.payload = r.payload := by
  rw [h.rel, hr]
  split
  · exact ⟨_, rfl, (Relationship.keeps_setPointers ..).id r,
      (Relationship.keeps_setPointers ..).payload r⟩
  · exact ⟨r, rfl, rfl, rfl⟩

end Repointed

/-- The relationships can be read and written. -/
def Relinkable (s : Store) (ids : List Ulong) : Prop :=
  ∀ x ∈ ids, ∃ r, s.graph.rel x = some r ∧ Writable r

theorem Relinkable.repointed {ids : List Ulong} (h : s.Relinkable ids)
    (hR : s.Repointed n σ D s') : s'.Relinkable ids := by
  intro x hx
  obtain ⟨r, hr, hw⟩ := h x hx
  obtain ⟨r', hr', -, hp⟩ := hR.exists_rel hr
  rw [Relationship.payload, Relationship.payload, Prod.mk.injEq, Prod.mk.injEq, Prod.mk.injEq] at hp
  obtain ⟨h₁, h₂, h₃, -⟩ := hp
  exact ⟨r', hr', h₁ ▸ hw.1, h₂ ▸ hw.2.1, h₃ ▸ hw.2.2⟩

theorem run_relink (hv : s.Valid) {p q : Ulong} (hx : s.Relinkable [x]) (hp : σ p = x)
    (hq : σ x = q) :
    ∃ s', run (HF.relink n p x q) s = .ok ((), s') ∧ s.Repointed n σ [x] s' := by
  obtain ⟨r, hr, hw⟩ := hx x List.mem_cons_self
  obtain ⟨hl, rfl⟩ := rel_eq_some.mp hr
  have hk := Relationship.keeps_setPointers n p q
  have hlive : s.Live .relationship (HF.setPointers n p q (s.relAt x)).id := by
    rw [hk.id]
    exact hl
  have hwrite : Writable (HF.setPointers n p q (s.relAt x)) := by
    rw [Writable, hk.sourceNode, hk.targetNode, hk.weight]
    exact hw
  refine ⟨s.setRel (HF.setPointers n p q (s.relAt x)), ?_, sameSlots_setRel _, ?_, fun y => ?_⟩
  · rw [run, HF.relink, Prog.run_bind_ok _ (run_readRelationship hv hr)]
    exact run_updateRelationship hv hlive hwrite
  · rw [graph_setRel hlive]
    rfl
  · rw [graph_setRel hlive, Graph.setRel, hk.id]
    show Function.update s.graph.rel x _ y = _
    by_cases hy : y = x
    · subst hy
      rw [Function.update_self, if_pos List.mem_cons_self, hr, hq, ← hp, Equiv.symm_apply_apply]
      rfl
    · rw [Function.update_of_ne hy, if_neg (fun h => hy (List.mem_singleton.mp h))]

/-- The relationships but the first and the last one. -/
theorem run_relinkInner : ∀ (ids : List Ulong) {s : Store}, s.Valid → s.Relinkable ids →
    List.IsChain (fun x y => σ x = y) ids →
    ∃ s', run (HF.relinkInner n ids) s = .ok ((), s') ∧ s.Repointed n σ ids.tail.dropLast s'
  | [], s, _, _, _ => ⟨s, rfl, .refl s n σ⟩
  | [_], s, _, _, _ => ⟨s, rfl, .refl s n σ⟩
  | [_, _], s, _, _, _ => ⟨s, rfl, .refl s n σ⟩
  | a :: b :: c :: ids, s, hv, hids, hchain => by
      obtain ⟨hab, hchain'⟩ := List.isChain_cons_cons.mp hchain
      have hbc := (List.isChain_cons_cons.mp hchain').1
      have hb : s.Relinkable [b] := by
        intro x hx
        rw [List.mem_singleton.mp hx]
        exact hids b (by simp)
      obtain ⟨s₁, h₁, hR₁⟩ := run_relink (n := n) hv hb hab hbc
      have hids' : s.Relinkable (b :: c :: ids) := fun x hx => hids x (List.mem_cons_of_mem _ hx)
      obtain ⟨s₂, h₂, hR₂⟩ :=
        run_relinkInner (b :: c :: ids) (hR₁.slots.valid hv) (hids'.repointed hR₁) hchain'
      refine ⟨s₂, ?_, (hR₁.trans hR₂).congr fun x => by simp⟩
      rw [run, HF.relinkInner, Prog.run_bind_ok _ h₁]
      exact h₂

/-- **All relationships of the node** get the pointers of the cycle. -/
theorem run_relinkAll (hv : s.Valid) {ids : List Ulong} (hids : s.Relinkable ids)
    (hring : Ring σ σ.symm ids) (hlen : 2 ≤ ids.length) :
    ∃ s', run (HF.relinkAll n ids) s = .ok ((), s') ∧ s.Repointed n σ ids s' := by
  match ids, hids, hring, hlen with
  | a :: b :: t, hids, hring, _ =>
      obtain ⟨hchain, hlast, -⟩ := (Ring.iff_chain (List.cons_ne_nil _ _)).mp hring
      have hchain' := hchain.imp fun _ _ h => h.1
      have hab := (List.isChain_cons_cons.mp hchain').1
      obtain ⟨z, hz, hza, hlist⟩ : ∃ z, (a :: b :: t).getLastD a = z ∧
          σ z = a ∧ (b :: t).dropLast ++ [z] = b :: t :=
        ⟨_, rfl, hlast, List.dropLast_append_getLast (List.cons_ne_nil b t)⟩
      have hyz : σ ((a :: b :: t).dropLast.getLastD a) = z := by
        have happend : a :: b :: t = (a :: (b :: t).dropLast) ++ [z] := by
          rw [List.cons_append, hlist]
        have hy : (a :: (b :: t).dropLast).getLast? = some ((a :: b :: t).dropLast.getLastD a) := by
          rw [List.dropLast_cons_of_ne_nil (List.cons_ne_nil b t), List.getLastD_eq_getLast?,
            List.getLast?_cons]
          rfl
        rw [happend] at hchain'
        exact (List.isChain_append.mp hchain').2.2 _ hy z rfl
      have hread : ∀ {s₁ : Store}, s₁.Relinkable (a :: b :: t) → ∀ x ∈ a :: b :: t,
          s₁.Relinkable [x] := by
        intro s₁ hs₁ x hx y hy
        rw [List.mem_singleton.mp hy]
        exact hs₁ x hx
      obtain ⟨s₁, h₁, hR₁⟩ := run_relink (n := n) hv (hread hids a (by simp)) hza hab
      have hids₁ := hids.repointed hR₁
      obtain ⟨s₂, h₂, hR₂⟩ := run_relinkInner (n := n) _ (hR₁.slots.valid hv) hids₁ hchain'
      have hids₂ := hids₁.repointed hR₂
      obtain ⟨s₃, h₃, hR₃⟩ := run_relink (n := n) (hR₂.slots.valid (hR₁.slots.valid hv))
        (hread hids₂ z (List.mem_cons_of_mem _ (hlist ▸ by simp))) hyz hza
      refine ⟨s₃, ?_, ((hR₁.trans hR₂).trans hR₃).congr fun x => ?_⟩
      · rw [run, HF.relinkAll, hz, Prog.run_bind_ok _ h₁, Prog.run_bind_ok _ h₂]
        exact h₃
      · rw [List.tail_cons, List.append_assoc, hlist]
        rfl

/-! ### The relationships of a node -/

/-- The relationships of a node, in the order of their ids. -/
def incident (s : Store) (n : Ulong) : List Ulong :=
  (s.liveIds .relationship).filter fun x => (s.relAt x).At n

theorem mem_incident : x ∈ s.incident n ↔ ∃ r, s.graph.rel x = some r ∧ r.At n := by
  rw [incident, List.mem_filter, mem_liveIds, decide_eq_true_eq]
  constructor
  · rintro ⟨hl, ha⟩
    exact ⟨_, rel_eq_some.mpr ⟨hl, rfl⟩, ha⟩
  · rintro ⟨r, hr, ha⟩
    obtain ⟨hl, rfl⟩ := rel_eq_some.mp hr
    exact ⟨hl, ha⟩

theorem pairwise_incident (hv : s.Valid) (n : Ulong) :
    (s.incident n).Pairwise fun x y => x.toNat < y.toNat :=
  (pairwise_liveIds hv).filter _

theorem nodup_incident (hv : s.Valid) (n : Ulong) : (s.incident n).Nodup :=
  (nodup_liveIds hv).filter _

/-- A walk goes through the relationships of its node. -/
theorem perm_incident (hv : s.Valid) {first : Ulong} {l : List Ulong}
    (hw : s.graph.Walk n first l) : l.Perm (s.incident n) :=
  (List.perm_ext_iff_of_nodup hw.nodup (nodup_incident hv n)).mpr fun x =>
    (hw.mem x).trans mem_incident.symm

/-- The relationships of a node in the order of their ids, from the first one of the node on. -/
theorem exists_rotated (hv : s.Valid) {first : Ulong} {l : List Ulong} (hw : s.graph.Walk n first l)
    (hne : s.incident n ≠ []) :
    ∃ l', l' ~r s.incident n ∧ first = l'.headD uninitializedLong := by
  have hperm := perm_incident hv hw
  obtain ⟨a, t, rfl⟩ : ∃ a t, l = a :: t := by
    refine List.exists_cons_of_ne_nil ?_
    rintro rfl
    exact hne hperm.nil_eq.symm
  obtain ⟨p, q, hpq⟩ := List.append_of_mem (hperm.mem_iff.mp List.mem_cons_self)
  refine ⟨a :: (q ++ p), ?_, hw.first_eq⟩
  rw [hpq]
  exact List.IsRotated.symm ⟨p.length, by simp⟩

/-- The relationships that `expand` returns, sorted. -/
theorem sortedIds_eq (hv : s.Valid) {rels : List Relationship}
    (hrels : (rels.map Relationship.id).Perm (s.incident n)) :
    HF.sortedIds rels = s.incident n := by
  have hd : (rels.map Relationship.id).Nodup := hrels.nodup_iff.mpr (nodup_incident hv n)
  have hperm : (HF.sortedIds rels).Perm (s.incident n) := by
    rw [HF.sortedIds, hd.dedup]
    exact (List.mergeSort_perm _ _).trans hrels
  refine List.Pairwise.eq_of_mem_iff (r := fun a b : Ulong => a.toNat < b.toNat) ?_
    (pairwise_incident hv n) fun x => hperm.mem_iff
  have hsorted := @List.pairwise_mergeSort Ulong (fun a b => decide (a.toNat ≤ b.toNat))
    (fun a b c hab hbc => by
      rw [decide_eq_true_eq] at hab hbc ⊢
      exact hab.trans hbc)
    (fun a b => by
      rw [Bool.or_eq_true, decide_eq_true_eq, decide_eq_true_eq]
      exact Nat.le_total _ _) (rels.map Relationship.id).dedup
  refine (hsorted.and (hperm.nodup_iff.mpr (nodup_incident hv n))).imp fun {a b} h => ?_
  exact Nat.lt_of_le_of_ne (of_decide_eq_true h.1) fun e => h.2 (BitVec.eq_of_toNat_eq e)

theorem SameSlots.liveIds_eq (h : s.SameSlots s') (ft : FileType) : s'.liveIds ft = s.liveIds ft := by
  simp only [liveIds, liveFrom, h.pages, h.live]

/-! ### The loop over the nodes -/

/-- What happens to a relationship when `n` is sorted. -/
def sortAt (s : Store) (r : Relationship) (n : Ulong) : Relationship :=
  if r.At n ∧ 3 ≤ (s.incident n).length then
    HF.setPointers n ((s.incident n).formPerm.symm r.id) ((s.incident n).formPerm r.id) r
  else r

theorem keeps_sortAt (s : Store) (n : Ulong) : Relationship.Keeps fun r => s.sortAt r n where
  id r := by
    unfold sortAt
    split
    · exact (Relationship.keeps_setPointers ..).id r
    · rfl
  payload r := by
    unfold sortAt
    split
    · exact (Relationship.keeps_setPointers ..).payload r
    · rfl

/-- The nodes are sorted one after the other. -/
structure Resorted (s : Store) (ns : List Ulong) (s' : Store) : Prop where
  slots : s.SameSlots s'
  node : s'.graph.node = s.graph.node
  rel : ∀ x, s'.graph.rel x = (s.graph.rel x).map fun r => ns.foldl s.sortAt r

theorem keeps_foldl_sortAt (s : Store) (ns : List Ulong) :
    Relationship.Keeps fun r => ns.foldl s.sortAt r := by
  induction ns with
  | nil => exact ⟨fun _ => rfl, fun _ => rfl⟩
  | cons n ns ih => exact ih.comp (s.keeps_sortAt n)

theorem Resorted.incident_eq {ns : List Ulong} (h : s.Resorted ns s') (n : Ulong) :
    s'.incident n = s.incident n := by
  rw [incident, incident, h.slots.liveIds_eq]
  refine List.filter_congr fun x hx => ?_
  have hr : s.graph.rel x = some (s.relAt x) := rel_eq_some.mpr ⟨mem_liveIds.mp hx, rfl⟩
  have hr' := h.rel x
  rw [hr] at hr'
  rw [(rel_eq_some.mp hr').2]
  exact decide_eq_decide.mpr (s.keeps_foldl_sortAt ns).at_iff

theorem Resorted.refl (s : Store) : s.Resorted [] s :=
  ⟨.refl s, rfl, fun x => by simp⟩

theorem Resorted.trans {ns ns' : List Ulong} (h : s.Resorted ns s') (h' : s'.Resorted ns' s'') :
    s.Resorted (ns ++ ns') s'' := by
  have hsort : s'.sortAt = s.sortAt := by
    funext r n
    rw [sortAt, sortAt, h.incident_eq]
  refine ⟨h.slots.trans h'.slots, h'.node.trans h.node, fun x => ?_⟩
  rw [h'.rel, h.rel, Option.map_map, hsort]
  refine congrArg (Option.map · _) (funext fun r => ?_)
  rw [Function.comp_apply, List.foldl_append]

/-- **A node is sorted.** -/
theorem run_sortNode (hv : s.Valid) {nd : Node} {l : List Ulong} {fuel : ℕ}
    (hn : s.graph.node n = some nd) (hw : s.graph.Walk n nd.firstRelationship l)
    (hids : s.Relinkable (s.incident n)) (hfuel : l.length < fuel) :
    ∃ s', run (HF.sortNode fuel n) s = .ok ((), s') ∧ s.Resorted [n] s' := by
  have hexpand := run_expand hv hn hw .both hfuel
  have hrels := hw.map_id_expand_both s.keyed
  have hperm := perm_incident hv hw
  have hlen : (s.graph.expand n .both l).length = (s.incident n).length := by
    rw [← hperm.length_eq, ← congrArg List.length hrels, List.length_map]
  have hsorted : HF.sortedIds (s.graph.expand n .both l) = s.incident n :=
    sortedIds_eq hv (hrels.symm ▸ hperm)
  have hrun : ∀ {t : Store}, run (if (s.incident n).length < 3 then pure () else
      HF.relinkAll n (s.incident n)) s = .ok ((), t) → run (HF.sortNode fuel n) s = .ok ((), t) := by
    intro t ht
    rw [run, HF.sortNode, Prog.run_bind_ok _ hexpand, hsorted, hlen,
      if_neg (show ¬ (s.incident n).length < (s.incident n).length from Nat.lt_irrefl _)]
    exact ht
  by_cases hbig : (s.incident n).length < 3
  · refine ⟨s, hrun (by rw [if_pos hbig]; rfl), .refl s, rfl, fun x => ?_⟩
    have hsame : ∀ r, s.sortAt r n = r := fun r => if_neg fun h => Nat.not_lt.mpr h.2 hbig
    simp [hsame]
  · obtain ⟨s', hs', hR⟩ := run_relinkAll (n := n) hv hids (Ring.formPerm (nodup_incident hv n))
      (by omega)
    refine ⟨s', hrun (by rw [if_neg hbig]; exact hs'), hR.slots, hR.node, fun x => ?_⟩
    rw [hR.rel]
    cases hr : s.graph.rel x with
    | none => split <;> rfl
    | some r =>
        have hid := s.keyed x r hr
        have hmem : x ∈ s.incident n ↔ r.At n := by
          rw [mem_incident]
          refine ⟨?_, fun ha => ⟨r, hr, ha⟩⟩
          rintro ⟨r', hr', ha⟩
          exact Option.some.inj (hr.symm.trans hr') ▸ ha
        show _ = some (s.sortAt r n)
        by_cases ha : r.At n
        · rw [if_pos (hmem.mpr ha), sortAt, if_pos ⟨ha, by omega⟩, hid]
          rfl
        · rw [if_neg (hmem.not.mpr ha), sortAt, if_neg fun h => ha h.1]

/-! ### The cycles afterwards -/

/-- The pointers of a relationship at `k`, once the nodes `ns` are sorted. -/
theorem pointers_foldl_sortAt (ns : List Ulong) {k : Ulong} : ∀ {r : Relationship}, r.At k →
    (ns.foldl s.sortAt r).nextAt k =
      (if k ∈ ns ∧ 3 ≤ (s.incident k).length then (s.incident k).formPerm r.id else r.nextAt k) ∧
    (ns.foldl s.sortAt r).prevAt k =
      (if k ∈ ns ∧ 3 ≤ (s.incident k).length then (s.incident k).formPerm.symm r.id
        else r.prevAt k) := by
  induction ns with
  | nil => exact fun _ => ⟨(if_neg fun h => List.not_mem_nil h.1).symm,
      (if_neg fun h => List.not_mem_nil h.1).symm⟩
  | cons n ns ih =>
      intro r hk
      obtain ⟨hnext, hprev⟩ := ih ((s.keeps_sortAt n).at_iff.mpr hk)
      rw [List.foldl_cons, hnext, hprev, (s.keeps_sortAt n).id]
      by_cases hmem : k ∈ ns ∧ 3 ≤ (s.incident k).length
      · have hmem' : k ∈ n :: ns ∧ 3 ≤ (s.incident k).length :=
          ⟨List.mem_cons_of_mem n hmem.1, hmem.2⟩
        simp only [if_pos hmem, if_pos hmem', and_self]
      · rw [if_neg hmem, if_neg hmem, sortAt]
        by_cases hn : r.At n ∧ 3 ≤ (s.incident n).length
        · rw [if_pos hn, Relationship.nextAt_setPointers hk hn.1,
            Relationship.prevAt_setPointers hk hn.1]
          by_cases hkn : k = n
          · subst hkn
            simp [hn.2]
          · have hmem' : ¬ (k ∈ n :: ns ∧ 3 ≤ (s.incident k).length) := fun h' =>
              hmem ⟨(List.mem_cons.mp h'.1).resolve_left hkn, h'.2⟩
            simp only [if_neg hkn, if_neg hmem', and_self]
        · rw [if_neg hn]
          have hmem' : ¬ (k ∈ n :: ns ∧ 3 ≤ (s.incident k).length) := by
            rintro ⟨h, hbig⟩
            rcases List.mem_cons.mp h with rfl | h
            · exact hn ⟨hk, hbig⟩
            · exact hmem ⟨h, hbig⟩
          simp only [if_neg hmem', and_self]

namespace Resorted

variable {ns : List Ulong} {k : Ulong} (h : s.Resorted ns s')
include h

theorem exists_rel_iff : (∃ r, s'.graph.rel x = some r ∧ r.At k) ↔
    ∃ r, s.graph.rel x = some r ∧ r.At k := by
  rw [← mem_incident, ← mem_incident, h.incident_eq]

/-- Where a node is sorted, its pointers are those of the sorted cycle. -/
theorem next_eq (hx : x ∈ s.incident k) : s'.graph.next k x =
    if k ∈ ns ∧ 3 ≤ (s.incident k).length then (s.incident k).formPerm x else s.graph.next k x := by
  obtain ⟨r, hr, ha⟩ := mem_incident.mp hx
  rw [Graph.next, h.rel, hr, Option.map_some, Option.elim_some, (pointers_foldl_sortAt ns ha).1,
    s.keyed x r hr, Graph.next_of_rel hr]

theorem prev_eq (hx : x ∈ s.incident k) : s'.graph.prev k x =
    if k ∈ ns ∧ 3 ≤ (s.incident k).length then (s.incident k).formPerm.symm x
      else s.graph.prev k x := by
  obtain ⟨r, hr, ha⟩ := mem_incident.mp hx
  rw [Graph.prev, h.rel, hr, Option.map_some, Option.elim_some, (pointers_foldl_sortAt ns ha).2,
    s.keyed x r hr, Graph.prev_of_rel hr]

/-- The sorted cycle of a node that is sorted. -/
theorem ring (hv : s.Valid) (hk : k ∈ ns) (hbig : 3 ≤ (s.incident k).length) {l : List Ulong}
    (hl : l ~r s.incident k) : Ring (s'.graph.next k) (s'.graph.prev k) l := by
  rw [Ring.rotate hl]
  exact (Ring.formPerm (nodup_incident hv k)).congr
    (fun x hx => (h.next_eq hx).trans (if_pos ⟨hk, hbig⟩))
    fun x hx => (h.prev_eq hx).trans (if_pos ⟨hk, hbig⟩)

/-- The first relationship is one of the node's, so the sorted cycle may be read from it. -/
theorem walk_of_rotated (hv : s.Valid) (hk : k ∈ ns) (hbig : 3 ≤ (s.incident k).length)
    {first : Ulong} {l : List Ulong} (hl : l ~r s.incident k)
    (hfirst : first = l.headD uninitializedLong) : s'.graph.Walk k first l := by
  have hne : l ≠ [] := by
    rintro rfl
    have := hl.perm.length_eq
    rw [List.length_nil] at this
    omega
  refine ⟨hl.nodup_iff.mpr (nodup_incident hv k), fun x => ?_, .of_ring (h.ring hv hk hbig hl),
    hfirst, ?_⟩
  · rw [hl.mem_iff, mem_incident]
    exact h.exists_rel_iff.symm
  · refine iff_of_false (fun e => ?_) hne
    obtain ⟨x, t, rfl⟩ := List.exists_cons_of_ne_nil hne
    obtain rfl : x = uninitializedLong := hfirst.symm.trans e
    obtain ⟨r, hr, -⟩ := mem_incident.mp (hl.mem_iff.mp List.mem_cons_self)
    exact hv.ne_uninitialized (rel_eq_some.mp hr).1.2.1 rfl

/-- Where a node is not sorted, its cycle is kept. -/
theorem walk_of_not (hk : ¬ (k ∈ ns ∧ 3 ≤ (s.incident k).length)) {first : Ulong} {l : List Ulong}
    (hw : s.graph.Walk k first l) : s'.graph.Walk k first l where
  nodup := hw.nodup
  mem x := (hw.mem x).trans h.exists_rel_iff.symm
  round := hw.round.congr fun x hx =>
    (h.next_eq (mem_incident.mpr ((hw.mem x).mp hx))).trans (if_neg hk)
  first_eq := hw.first_eq
  first_eq_iff := hw.first_eq_iff

/-- **Every node has its cycle**, whatever nodes are sorted. -/
theorem circular (hv : s.Valid) (hc : s.graph.Circular) : s'.graph.Circular := by
  intro k nd hn
  rw [h.node] at hn
  obtain ⟨l, hw⟩ := hc k nd hn
  by_cases hk : k ∈ ns ∧ 3 ≤ (s.incident k).length
  · obtain ⟨l', hrot, hfirst⟩ := exists_rotated hv hw
      (List.ne_nil_of_length_pos (Nat.lt_of_lt_of_le (by decide) hk.2))
    exact ⟨_, h.walk_of_rotated hv hk.1 hk.2 hrot hfirst⟩
  · exact ⟨l, h.walk_of_not hk hw⟩

end Resorted

/-- The relationships of a node of a well-formed store. -/
theorem WellFormed.relinkable (hw : s.WellFormed) (n : Ulong) : s.Relinkable (s.incident n) := by
  intro x hx
  obtain ⟨r, hr, -⟩ := mem_incident.mp hx
  exact ⟨r, hr, hw.writable hr⟩

/-- **The nodes are sorted** one after the other. -/
theorem run_sortNodes {fuel : ℕ} (hfuel : maxPageNo 4096 * 256 ≤ fuel) (nds : List Node) :
    ∀ {s : Store}, s.Valid → s.graph.Circular → (∀ n, s.Relinkable (s.incident n)) →
    (∀ nd ∈ nds, s.graph.node nd.id = some nd) →
    ∃ s', run (HF.sortNodes fuel nds.length nds) s = .ok ((), s') ∧
      s.Resorted (nds.map Node.id) s' := by
  induction nds with
  | nil => exact fun {s} _ _ _ _ => ⟨s, rfl, .refl s⟩
  | cons nd nds ih =>
      intro s hv hc hids hnds
      have hn := hnds nd List.mem_cons_self
      obtain ⟨l, hw⟩ := hc nd.id nd hn
      have hlen := walk_length_le hw
      have hpages := hv.pages_lt .relationship
      obtain ⟨s₁, h₁, hR₁⟩ := run_sortNode hv hn hw (hids nd.id) (show l.length < fuel by omega)
      have hids₁ : ∀ n, s₁.Relinkable (s₁.incident n) := by
        intro n x hx
        rw [hR₁.incident_eq] at hx
        obtain ⟨r, hr, hwrite⟩ := hids n x hx
        have hk := s.keeps_foldl_sortAt [nd.id]
        refine ⟨[nd.id].foldl s.sortAt r, by rw [hR₁.rel, hr]; rfl, ?_⟩
        rw [Writable, hk.sourceNode, hk.targetNode, hk.weight]
        exact hwrite
      obtain ⟨s₂, h₂, hR₂⟩ := ih (hR₁.slots.valid hv) (hR₁.circular hv hc) hids₁ fun nd' hnd' => by
        rw [hR₁.node]
        exact hnds nd' (List.mem_cons_of_mem _ hnd')
      refine ⟨s₂, ?_, hR₁.trans hR₂⟩
      rw [run, List.length_cons, HF.sortNodes, Prog.run_bind_ok _ h₁]
      exact h₂

/-- **`sort_incidence_list`** sorts every node. -/
theorem run_sortIncidenceList (hw : s.WellFormed) (hc : s.Counted) {fuel : ℕ}
    (hfuel : maxPageNo 4096 * 256 ≤ fuel) :
    ∃ s', run (HF.sortIncidenceList 4096 fuel) s = .ok ((), s') ∧
      s.Resorted (s.liveIds .node) s' := by
  have hv := hw.valid
  have hpages := hv.pages_lt .node
  have hget : run (Prog.perform .getCounters) s = .ok (s.counters, s) := rfl
  obtain ⟨s', hrun, hR⟩ := run_sortNodes hfuel ((s.liveIds .node).map s.nodeAt) hv
    hw.graph.circular hw.relinkable fun nd hnd => by
      obtain ⟨x, hx, rfl⟩ := List.mem_map.mp hnd
      exact node_eq_some.mpr ⟨mem_liveIds.mp hx, rfl⟩
  rw [map_id_nodeAt] at hR
  refine ⟨s', ?_, hR⟩
  rw [run, HF.sortIncidenceList, Prog.run_bind_ok _ (run_getNodes hv (by omega)),
    Prog.run_bind_ok _ hget, ← hc.length_nodes]
  exact hrun

end Store

end Goedb
