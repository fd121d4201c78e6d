import Goedb.Access.Graph

/-!
# Access — linking a relationship in

The pointer assignments of `create_relationship`, as changes of a graph.
Each assignment sets a pointer of one relationship on every side that is at one node; written by
the id of that relationship it is a `patch`, and it does not matter in which of the function's
variables the relationship is held, nor how many of them hold it.

* `Graph.link`: a new relationship between the last and the first one of the chains of both its
  endpoints.  It keeps the graph well-formed and appends to both chains (`WellFormed.link`).

`Graph.unlink`, the inverse, is in `Unlinking.lean` and built from the same assignments (`relink`).
-/

namespace Goedb

open Lib

namespace Relationship

variable {r : Relationship} {n m id v : Ulong}

@[simp] theorem setNext_id : (r.setNext m v).id = r.id := rfl
@[simp] theorem setPrev_id : (r.setPrev m v).id = r.id := rfl
@[simp] theorem setNext_payload : (r.setNext m v).payload = r.payload := rfl
@[simp] theorem setPrev_payload : (r.setPrev m v).payload = r.payload := rfl

/-- A change of the relationship that has a certain id. -/
def patch (id : Ulong) (f : Relationship → Relationship) (r : Relationship) : Relationship :=
  if r.id = id then f r else r

/-- Changes that keep the id and what a relationship says. -/
structure Keeps (f : Relationship → Relationship) : Prop where
  id : ∀ r, (f r).id = r.id
  payload : ∀ r, (f r).payload = r.payload

namespace Keeps

variable {f h : Relationship → Relationship} (hf : Keeps f)
include hf

theorem sourceNode (r : Relationship) : (f r).sourceNode = r.sourceNode :=
  congrArg Prod.fst (hf.payload r)

theorem targetNode (r : Relationship) : (f r).targetNode = r.targetNode :=
  congrArg (·.2.1) (hf.payload r)

theorem weight (r : Relationship) : (f r).weight = r.weight := congrArg (·.2.2.1) (hf.payload r)

theorem at_iff : (f r).At n ↔ r.At n := by rw [At, At, hf.sourceNode, hf.targetNode]

theorem patch (x : Ulong) : Keeps (Relationship.patch x f) where
  id r := by unfold Relationship.patch; split <;> simp [hf.id]
  payload r := by unfold Relationship.patch; split <;> simp [hf.payload]

theorem comp (hh : Keeps h) : Keeps (fun r => f (h r)) where
  id r := by rw [hf.id, hh.id]
  payload r := by rw [hf.payload, hh.payload]

end Keeps

theorem keeps_setNext (m v : Ulong) : Keeps (setNext m v) := ⟨fun _ => rfl, fun _ => rfl⟩

theorem keeps_setPrev (m v : Ulong) : Keeps (setPrev m v) := ⟨fun _ => rfl, fun _ => rfl⟩

theorem nextAt_setNext (h : r.At n) : (r.setNext m v).nextAt n = if n = m then v else r.nextAt n := by
  simp only [nextAt, setNext]
  rcases h with rfl | rfl
  · simp
  · split_ifs <;> simp_all

theorem prevAt_setPrev (h : r.At n) : (r.setPrev m v).prevAt n = if n = m then v else r.prevAt n := by
  simp only [prevAt, setPrev]
  rcases h with rfl | rfl
  · simp
  · split_ifs <;> simp_all

@[simp] theorem nextAt_setPrev : (r.setPrev m v).nextAt n = r.nextAt n := rfl

@[simp] theorem prevAt_setNext : (r.setNext m v).prevAt n = r.prevAt n := rfl

/-- The two sides of a self-loop agree. -/
def LoopAgrees (r : Relationship) : Prop := r.sourceNode = r.targetNode →
  r.prevRelSource = r.prevRelTarget ∧ r.nextRelSource = r.nextRelTarget

theorem LoopAgrees.setNext (h : r.LoopAgrees) : (r.setNext m v).LoopAgrees := by
  intro e
  have e' : r.sourceNode = r.targetNode := e
  obtain ⟨h₁, h₂⟩ := h e'
  exact ⟨h₁, by simp only [Relationship.setNext, e', h₂]⟩

theorem LoopAgrees.setPrev (h : r.LoopAgrees) : (r.setPrev m v).LoopAgrees := by
  intro e
  have e' : r.sourceNode = r.targetNode := e
  obtain ⟨h₁, h₂⟩ := h e'
  exact ⟨by simp only [Relationship.setPrev, e', h₁], h₂⟩

theorem LoopAgrees.patch {f : Relationship → Relationship} (h : r.LoopAgrees)
    (hf : r.LoopAgrees → (f r).LoopAgrees) : (r.patch id f).LoopAgrees := by
  unfold Relationship.patch
  split
  · exact hf h
  · exact h

/-- The four assignments of a linking, by the ids of the relationships they change: the next pointer
of `a` at `n`, of `b` at `m`, and the previous pointer of `c` at `n`, of `d` at `m`. -/
def relink (n m a va b vb c vc d vd : Ulong) (r : Relationship) : Relationship :=
  (((r.patch a (·.setNext n va)).patch b (·.setNext m vb)).patch c (·.setPrev n vc)).patch d
    (·.setPrev m vd)

section Relink

variable {n m a va b vb c vc d vd : Ulong}

theorem keeps_relink : Keeps (relink n m a va b vb c vc d vd) :=
  ((keeps_setPrev m vd).patch d).comp (((keeps_setPrev n vc).patch c).comp
    (((keeps_setNext m vb).patch b).comp ((keeps_setNext n va).patch a)))

theorem relink_of_ne (ha : r.id ≠ a) (hb : r.id ≠ b) (hc : r.id ≠ c) (hd : r.id ≠ d) :
    relink n m a va b vb c vc d vd r = r := by
  simp only [relink, patch, if_neg ha, if_neg hb, if_neg hc, if_neg hd]

theorem nextAt_patch_setPrev {k : Ulong} : (r.patch id (·.setPrev m v)).nextAt k = r.nextAt k := by
  unfold patch
  split <;> rfl

theorem prevAt_patch_setNext {k : Ulong} : (r.patch id (·.setNext m v)).prevAt k = r.prevAt k := by
  unfold patch
  split <;> rfl

theorem nextAt_patch_setNext {k : Ulong} (h : r.At k) : (r.patch id (·.setNext m v)).nextAt k =
    if r.id = id ∧ k = m then v else r.nextAt k := by
  unfold patch
  split
  · rename_i he
    rw [nextAt_setNext h]
    simp [he]
  · rename_i he
    simp [he]

theorem prevAt_patch_setPrev {k : Ulong} (h : r.At k) : (r.patch id (·.setPrev m v)).prevAt k =
    if r.id = id ∧ k = m then v else r.prevAt k := by
  unfold patch
  split
  · rename_i he
    rw [prevAt_setPrev h]
    simp [he]
  · rename_i he
    simp [he]

theorem nextAt_relink {k : Ulong} (h : r.At k) : (relink n m a va b vb c vc d vd r).nextAt k =
    if r.id = b ∧ k = m then vb else if r.id = a ∧ k = n then va else r.nextAt k := by
  have hk := ((keeps_setNext n va).patch a).at_iff (r := r) (n := k)
  have hid := ((keeps_setNext n va).patch a).id r
  rw [relink, nextAt_patch_setPrev, nextAt_patch_setPrev, nextAt_patch_setNext (hk.mpr h),
    nextAt_patch_setNext h, hid]

theorem prevAt_relink {k : Ulong} (h : r.At k) : (relink n m a va b vb c vc d vd r).prevAt k =
    if r.id = d ∧ k = m then vd else if r.id = c ∧ k = n then vc else r.prevAt k := by
  have hk₁ := (((keeps_setNext m vb).patch b).comp ((keeps_setNext n va).patch a))
  have hk₂ := ((keeps_setPrev n vc).patch c).comp hk₁
  rw [relink, prevAt_patch_setPrev (hk₂.at_iff.mpr h), hk₂.id,
    prevAt_patch_setPrev (hk₁.at_iff.mpr h), hk₁.id, prevAt_patch_setNext, prevAt_patch_setNext]

theorem LoopAgrees.relink (h : r.LoopAgrees) :
    (Relationship.relink n m a va b vb c vc d vd r).LoopAgrees :=
  (((h.patch fun h => h.setNext).patch fun h => h.setNext).patch fun h => h.setPrev).patch
    fun h => h.setPrev

end Relink

end Relationship

namespace Graph

variable {g : Graph} {n first x y : Ulong} {l : List Ulong} {r rel : Relationship}

/-- The previous pointer at an endpoint is that of either side, where both are there. -/
theorem prevAt_target (hloop : rel.LoopAgrees) (h : n = rel.targetNode) :
    rel.prevAt n = rel.prevRelTarget ∧ rel.nextAt n = rel.nextRelTarget := by
  simp only [Relationship.prevAt, Relationship.nextAt]
  split
  · rename_i hs
    exact hloop (hs.symm.trans h)
  · exact ⟨rfl, rfl⟩

theorem prevAt_source (h : n = rel.sourceNode) :
    rel.prevAt n = rel.prevRelSource ∧ rel.nextAt n = rel.nextRelSource := by
  simp only [Relationship.prevAt, Relationship.nextAt, if_pos h, and_self]

/-- The pointers of a relationship lead to relationships. -/
theorem WellFormed.pointers (hw : g.WellFormed) (hr : g.rel x = some rel) :
    ∀ y ∈ [rel.prevRelSource, rel.nextRelSource, rel.prevRelTarget, rel.nextRelTarget],
      ∃ r, g.rel y = some r := by
  obtain ⟨⟨ns, hns⟩, nt, hnt⟩ := hw.endpoints _ _ hr
  obtain ⟨lS, hS⟩ := hw.chain _ _ hns
  obtain ⟨lT, hT⟩ := hw.chain _ _ hnt
  have hloop : rel.LoopAgrees := hw.loops _ _ hr
  have hin : ∀ {n first l y}, g.Chain n first l → y ∈ l → ∃ r, g.rel y = some r := by
    intro n first l y hc hy
    obtain ⟨r, hr, -⟩ := (hc.mem y).mp hy
    exact ⟨r, hr⟩
  intro y hy
  simp only [List.mem_cons, List.not_mem_nil, or_false] at hy
  rcases hy with rfl | rfl | rfl | rfl
  · exact hin hS ((prevAt_source rfl).1 ▸ hS.prev_mem hr (.inl rfl))
  · exact hin hS ((prevAt_source rfl).2 ▸ hS.next_mem hr (.inl rfl))
  · exact hin hT ((prevAt_target hloop rfl).1 ▸ hT.prev_mem hr (.inr rfl))
  · exact hin hT ((prevAt_target hloop rfl).2 ▸ hT.next_mem hr (.inr rfl))

/-- The first relationship of a node is null or a relationship. -/
theorem WellFormed.first_null_or (hw : g.WellFormed) {nd : Node} (hn : g.node n = some nd) :
    nd.firstRelationship = uninitializedLong ∨ ∃ r, g.rel nd.firstRelationship = some r := by
  obtain ⟨l, hc⟩ := hw.chain n nd hn
  cases l with
  | nil => exact .inl (hc.first_eq_iff.mpr rfl)
  | cons a t =>
      have hfirst : nd.firstRelationship = a := hc.first_eq
      obtain ⟨r, hr, -⟩ := (hc.mem a).mp List.mem_cons_self
      exact .inr ⟨r, hfirst ▸ hr⟩

/-- The first and the last relationship of the chain of `n`; `x` for both where it is empty. -/
def endsOf (g : Graph) (x n first : Ulong) : Ulong × Ulong :=
  if first = uninitializedLong then (x, x) else (first, g.prev n first)

theorem Chain.endsOf_eq (hc : g.Chain n first l) (x : Ulong) :
    g.endsOf x n first = (l.headD x, l.getLastD x) := by
  unfold endsOf
  split
  · rename_i h
    rw [hc.first_eq_iff.mp h]
    rfl
  · rename_i h
    have hne : l ≠ [] := fun hl => h (hc.first_eq_iff.mpr hl)
    have hhead : first = l.head hne := by
      rw [hc.first_eq]
      cases l with
      | nil => exact absurd rfl hne
      | cons a t => rfl
    have hlast : l.getLastD x = l.getLast hne := by
      rw [List.getLastD_eq_getLast?, List.getLast?_eq_some_getLast hne]
      rfl
    have hheadD : l.headD x = l.head hne := by
      cases l with
      | nil => exact absurd rfl hne
      | cons a t => rfl
    rw [hhead, hc.ring.prv_head hne, hlast, hheadD]

/-- The assignments of `create_relationship` for the new relationship `rel`, given the first
relationships of its source and of its target. -/
def relinkNew (g : Graph) (rel : Relationship) (fromFirst toFirst : Ulong) :
    Relationship → Relationship :=
  let (firstFrom, lastFrom) := g.endsOf rel.id rel.sourceNode fromFirst
  let (firstTo, lastTo) := g.endsOf rel.id rel.targetNode toFirst
  Relationship.relink rel.sourceNode rel.targetNode
    lastFrom rel.id lastTo rel.id firstFrom rel.id firstTo rel.id

/-- The new relationship with its own pointers. -/
def withEnds (g : Graph) (rel : Relationship) (fromFirst toFirst : Ulong) : Relationship :=
  { rel with
    prevRelSource := (g.endsOf rel.id rel.sourceNode fromFirst).2
    nextRelSource := (g.endsOf rel.id rel.sourceNode fromFirst).1
    prevRelTarget := (g.endsOf rel.id rel.targetNode toFirst).2
    nextRelTarget := (g.endsOf rel.id rel.targetNode toFirst).1 }

/-- **A new relationship linked in** at the end of the chains of its endpoints. -/
def link (g : Graph) (rel : Relationship) (fromFirst toFirst : Ulong) : Graph where
  node n := (g.node n).map fun nd =>
    if nd.firstRelationship = uninitializedLong ∧ rel.At n then
      { nd with firstRelationship := rel.id }
    else nd
  rel y := (Function.update g.rel rel.id (some (g.withEnds rel fromFirst toFirst)) y).map
    (g.relinkNew rel fromFirst toFirst)

/-- Every relationship is stored under its id. -/
def Keyed (g : Graph) : Prop := ∀ x r, g.rel x = some r → r.id = x

theorem keeps_relinkNew {fromFirst toFirst : Ulong} :
    Relationship.Keeps (g.relinkNew rel fromFirst toFirst) := Relationship.keeps_relink

theorem link_rel_of_ne {fromFirst toFirst : Ulong} (h : y ≠ rel.id) :
    (g.link rel fromFirst toFirst).rel y =
      (g.rel y).map (g.relinkNew rel fromFirst toFirst) := by
  simp only [link, Function.update_of_ne h]

theorem link_rel_self {fromFirst toFirst : Ulong} : (g.link rel fromFirst toFirst).rel rel.id =
    some (g.relinkNew rel fromFirst toFirst (g.withEnds rel fromFirst toFirst)) := by
  simp only [link, Function.update_self, Option.map_some]

theorem withEnds_at {fromFirst toFirst : Ulong} :
    (g.withEnds rel fromFirst toFirst).At n ↔ rel.At n := by
  simp only [Relationship.At, withEnds]

theorem relinkNew_at {fromFirst toFirst : Ulong} :
    (g.relinkNew rel fromFirst toFirst r).At n ↔ r.At n := keeps_relinkNew.at_iff

section Link

variable {fromFirst toFirst : Ulong} {lF lT : List Ulong} (hk : g.Keyed)
  (hx : g.rel rel.id = none) (hF : g.Chain rel.sourceNode fromFirst lF)
  (hT : g.Chain rel.targetNode toFirst lT)

include hx in
theorem ne_of_rel (h : g.rel y = some r) : y ≠ rel.id := by
  rintro rfl
  rw [hx] at h
  cases h

include hk hF hT in
theorem nextAt_relinkNew (h : g.rel y = some r) (ha : r.At n) :
    (g.relinkNew rel fromFirst toFirst r).nextAt n =
      if y = lT.getLastD rel.id ∧ n = rel.targetNode then rel.id
      else if y = lF.getLastD rel.id ∧ n = rel.sourceNode then rel.id else r.nextAt n := by
  rw [relinkNew, hF.endsOf_eq, hT.endsOf_eq, Relationship.nextAt_relink ha, hk y r h]

include hk hF hT in
theorem prevAt_relinkNew (h : g.rel y = some r) (ha : r.At n) :
    (g.relinkNew rel fromFirst toFirst r).prevAt n =
      if y = lT.headD rel.id ∧ n = rel.targetNode then rel.id
      else if y = lF.headD rel.id ∧ n = rel.sourceNode then rel.id else r.prevAt n := by
  rw [relinkNew, hF.endsOf_eq, hT.endsOf_eq, Relationship.prevAt_relink ha, hk y r h]

/-- Two chains of one node from the same first relationship have the same ends. -/
theorem Chain.ends_congr {l' : List Ulong} (hc : g.Chain n first l) (hc' : g.Chain n first l')
    (x : Ulong) : l.headD x = l'.headD x ∧ l.getLastD x = l'.getLastD x := by
  have := (hc.endsOf_eq x).symm.trans (hc'.endsOf_eq x)
  exact ⟨congrArg Prod.fst this, congrArg Prod.snd this⟩

include hF hT in
theorem withEnds_eq : g.withEnds rel fromFirst toFirst =
    { rel with prevRelSource := lF.getLastD rel.id, nextRelSource := lF.headD rel.id
               prevRelTarget := lT.getLastD rel.id, nextRelTarget := lT.headD rel.id } := by
  rw [withEnds, hF.endsOf_eq, hT.endsOf_eq]

theorem headD_mem {l : List Ulong} (x : Ulong) (h : l ≠ []) : l.headD x ∈ l := by
  cases l with
  | nil => exact absurd rfl h
  | cons a t => simp

theorem getLastD_mem {l : List Ulong} (x : Ulong) (h : l ≠ []) : l.getLastD x ∈ l := by
  rw [List.getLastD_eq_getLast?, List.getLast?_eq_some_getLast h]
  exact List.getLast_mem h

include hx in
theorem Chain.new_not_mem (hc : g.Chain n first l) : rel.id ∉ l := fun h => by
  obtain ⟨r, hr, -⟩ := (hc.mem _).mp h
  exact ne_of_rel hx hr rfl

include hx hF hT in
/-- The new relationship points to the ends of the chain it is appended to. -/
theorem nextAt_new (hc : g.Chain n first l) (ha : rel.At n)
    (hs : n = rel.sourceNode → first = fromFirst) (ht : n = rel.targetNode → first = toFirst) :
    (g.relinkNew rel fromFirst toFirst (g.withEnds rel fromFirst toFirst)).nextAt n =
        l.headD rel.id ∧
      (g.relinkNew rel fromFirst toFirst (g.withEnds rel fromFirst toFirst)).prevAt n =
        l.getLastD rel.id := by
  have hends : ∀ l', (n = rel.sourceNode ∧ l' = lF ∨ n = rel.targetNode ∧ l' = lT) →
      l'.headD rel.id = l.headD rel.id ∧ l'.getLastD rel.id = l.getLastD rel.id := by
    rintro l' (⟨rfl, rfl⟩ | ⟨rfl, rfl⟩)
    · exact Chain.ends_congr hF (hs rfl ▸ hc) _
    · exact Chain.ends_congr hT (ht rfl ▸ hc) _
  -- where the new relationship is itself an end, the chain is empty
  have hnil : rel.id = l.headD rel.id ∨ rel.id = l.getLastD rel.id → l = [] := by
    intro h
    by_contra hne
    rcases h with h | h
    · exact hc.new_not_mem hx (h ▸ headD_mem rel.id hne)
    · exact hc.new_not_mem hx (h ▸ getLastD_mem rel.id hne)
  have ha' : (g.withEnds rel fromFirst toFirst).At n := withEnds_at.mpr ha
  have hid : (g.withEnds rel fromFirst toFirst).id = rel.id := rfl
  have hown : (g.withEnds rel fromFirst toFirst).nextAt n = l.headD rel.id ∧
      (g.withEnds rel fromFirst toFirst).prevAt n = l.getLastD rel.id := by
    rw [withEnds_eq hF hT]
    simp only [Relationship.nextAt, Relationship.prevAt]
    by_cases h : n = rel.sourceNode
    · rw [if_pos h, if_pos h]
      exact hends lF (.inl ⟨h, rfl⟩)
    · rw [if_neg h, if_neg h]
      exact hends lT (.inr ⟨ha.resolve_left (Ne.symm h) |>.symm, rfl⟩)
  rw [relinkNew, hF.endsOf_eq, hT.endsOf_eq, Relationship.nextAt_relink ha',
    Relationship.prevAt_relink ha', hid, hown.1, hown.2]
  constructor
  · split_ifs with h₁ h₂
    · rw [(hends lT (.inr ⟨h₁.2, rfl⟩)).2] at h₁
      rw [hnil (.inr h₁.1)]
      rfl
    · rw [(hends lF (.inl ⟨h₂.2, rfl⟩)).2] at h₂
      rw [hnil (.inr h₂.1)]
      rfl
    · rfl
  · split_ifs with h₁ h₂
    · rw [(hends lT (.inr ⟨h₁.2, rfl⟩)).1] at h₁
      rw [hnil (.inl h₁.1)]
      rfl
    · rw [(hends lF (.inl ⟨h₂.2, rfl⟩)).1] at h₂
      rw [hnil (.inl h₂.1)]
      rfl
    · rfl

include hx in
/-- The relationships at a node: the old ones, and the new one at its endpoints. -/
theorem link_at_iff : (∃ r, (g.link rel fromFirst toFirst).rel y = some r ∧ r.At n) ↔
    y = rel.id ∧ rel.At n ∨ ∃ r, g.rel y = some r ∧ r.At n := by
  by_cases hy : y = rel.id
  · subst hy
    constructor
    · rintro ⟨r, hr, ha⟩
      rw [link_rel_self] at hr
      cases hr
      exact .inl ⟨rfl, withEnds_at.mp (relinkNew_at.mp ha)⟩
    · rintro (⟨-, ha⟩ | ⟨r, hr, -⟩)
      · exact ⟨_, link_rel_self, relinkNew_at.mpr (withEnds_at.mpr ha)⟩
      · rw [hx] at hr
        cases hr
  · rw [link_rel_of_ne hy]
    constructor
    · rintro ⟨r', hr', ha⟩
      obtain ⟨r, hr, rfl⟩ := Option.map_eq_some_iff.mp hr'
      exact .inr ⟨r, hr, relinkNew_at.mp ha⟩
    · rintro (⟨h, -⟩ | ⟨r, hr, ha⟩)
      · exact absurd h hy
      · exact ⟨_, by rw [hr]; rfl, relinkNew_at.mpr ha⟩

include hx in
theorem Chain.link_rel (hc : g.Chain n first l) (hy : y ∈ l) (fromFirst toFirst : Ulong) :
    ∃ r, g.rel y = some r ∧ r.At n ∧
    (g.link rel fromFirst toFirst).rel y = some (g.relinkNew rel fromFirst toFirst r) := by
  obtain ⟨r, hr, ha⟩ := (hc.mem y).mp hy
  exact ⟨r, hr, ha, by rw [link_rel_of_ne (ne_of_rel hx hr), hr]; rfl⟩

include hk hx hF hT in
theorem next_link (hc : g.Chain n first l) (hy : y ∈ l) :
    (g.link rel fromFirst toFirst).next n y =
      if y = lT.getLastD rel.id ∧ n = rel.targetNode then rel.id
      else if y = lF.getLastD rel.id ∧ n = rel.sourceNode then rel.id else g.next n y := by
  obtain ⟨r, hr, ha, hr'⟩ := hc.link_rel hx hy fromFirst toFirst
  rw [next_of_rel hr', next_of_rel hr, nextAt_relinkNew hk hF hT hr ha]

include hk hx hF hT in
theorem prev_link (hc : g.Chain n first l) (hy : y ∈ l) :
    (g.link rel fromFirst toFirst).prev n y =
      if y = lT.headD rel.id ∧ n = rel.targetNode then rel.id
      else if y = lF.headD rel.id ∧ n = rel.sourceNode then rel.id else g.prev n y := by
  obtain ⟨r, hr, ha, hr'⟩ := hc.link_rel hx hy fromFirst toFirst
  rw [prev_of_rel hr', prev_of_rel hr, prevAt_relinkNew hk hF hT hr ha]

include hk hx hF hT in
/-- A chain at neither endpoint is kept. -/
theorem link_chain_of_not_at (hc : g.Chain n first l) (ha : ¬ rel.At n) :
    (g.link rel fromFirst toFirst).Chain n first l := by
  have hns : n ≠ rel.sourceNode := fun h => ha (.inl h.symm)
  have hnt : n ≠ rel.targetNode := fun h => ha (.inr h.symm)
  refine ⟨hc.nodup, fun y => ?_, ?_, hc.first_eq, hc.first_eq_iff⟩
  · rw [link_at_iff hx, hc.mem]
    simp [ha]
  · refine hc.ring.congr (fun y hy => ?_) (fun y hy => ?_)
    · rw [next_link hk hx hF hT hc hy, if_neg fun h => hnt h.2, if_neg fun h => hns h.2]
    · rw [prev_link hk hx hF hT hc hy, if_neg fun h => hnt h.2, if_neg fun h => hns h.2]

include hk hx hF hT in
/-- **The chain of an endpoint is extended** by the new relationship. -/
theorem link_chain_of_at (hc : g.Chain n first l) (hU : rel.id ≠ uninitializedLong)
    (ha : rel.At n) (hs : n = rel.sourceNode → first = fromFirst)
    (ht : n = rel.targetNode → first = toFirst) :
    (g.link rel fromFirst toFirst).Chain n
      (if first = uninitializedLong then rel.id else first) (l ++ [rel.id]) := by
  have hnew := nextAt_new hx hF hT hc ha hs ht
  have hx' := hc.new_not_mem hx
  have hself : (g.link rel fromFirst toFirst).next n rel.id = l.headD rel.id ∧
      (g.link rel fromFirst toFirst).prev n rel.id = l.getLastD rel.id := by
    rw [next_of_rel link_rel_self, prev_of_rel link_rel_self]
    exact hnew
  refine ⟨?_, fun y => ?_, ?_, ?_, ?_⟩
  · rw [List.nodup_append]
    exact ⟨hc.nodup, List.nodup_singleton _, fun a ha b hb e => hx' (by simp_all)⟩
  · rw [link_at_iff hx, List.mem_append, hc.mem, List.mem_singleton, or_comm]
    simp [ha]
  · cases hl : l with
    | nil =>
        rw [hl] at hself
        exact Ring.singleton_iff.mpr hself
    | cons a t =>
        rw [← hl]
        have hne : l ≠ [] := by simp [hl]
        have hlast : l.getLastD rel.id = l.getLast hne := by
          rw [List.getLastD_eq_getLast?, List.getLast?_eq_some_getLast hne]
          rfl
        have hhead : l.headD rel.id = l.head hne := by subst hl; rfl
        -- the chain of the node is the one whose ends were looked up for the source or for the
        -- target
        have hends : ∀ l', (n = rel.sourceNode ∧ l' = lF ∨ n = rel.targetNode ∧ l' = lT) →
            l'.headD rel.id = l.head hne ∧ l'.getLastD rel.id = l.getLast hne := by
          rw [← hhead, ← hlast]
          rintro l' (⟨rfl, rfl⟩ | ⟨rfl, rfl⟩)
          · exact Chain.ends_congr hF (hs rfl ▸ hc) _
          · exact Chain.ends_congr hT (ht rfl ▸ hc) _
        -- only the ends of the chain are linked anew
        refine hc.ring.concat hc.nodup hne (fun u hu hul => ?_) (fun v hv hvh => ?_) ⟨?_, ?_⟩
          ⟨?_, ?_⟩
        · rw [next_link hk hx hF hT hc hu, if_neg, if_neg]
          · rintro ⟨rfl, hn⟩
            rw [(hends lF (.inl ⟨hn, rfl⟩)).2, List.getLast?_eq_some_getLast hne] at hul
            exact hul rfl
          · rintro ⟨rfl, hn⟩
            rw [(hends lT (.inr ⟨hn, rfl⟩)).2, List.getLast?_eq_some_getLast hne] at hul
            exact hul rfl
        · rw [prev_link hk hx hF hT hc hv, if_neg, if_neg]
          · rintro ⟨rfl, hn⟩
            rw [(hends lF (.inl ⟨hn, rfl⟩)).1, List.head?_eq_some_head hne] at hvh
            exact hvh rfl
          · rintro ⟨rfl, hn⟩
            rw [(hends lT (.inr ⟨hn, rfl⟩)).1, List.head?_eq_some_head hne] at hvh
            exact hvh rfl
        · rw [next_link hk hx hF hT hc (List.getLast_mem hne)]
          by_cases hn : n = rel.targetNode
          · rw [if_pos ⟨(hends lT (.inr ⟨hn, rfl⟩)).2.symm, hn⟩]
          · have hn' := (ha.resolve_right (Ne.symm hn)).symm
            rw [if_neg fun h => hn h.2, if_pos ⟨(hends lF (.inl ⟨hn', rfl⟩)).2.symm, hn'⟩]
        · rw [hself.2, hlast]
        · rw [hself.1, hhead]
        · rw [prev_link hk hx hF hT hc (List.head_mem hne)]
          by_cases hn : n = rel.targetNode
          · rw [if_pos ⟨(hends lT (.inr ⟨hn, rfl⟩)).1.symm, hn⟩]
          · have hn' := (ha.resolve_right (Ne.symm hn)).symm
            rw [if_neg fun h => hn h.2, if_pos ⟨(hends lF (.inl ⟨hn', rfl⟩)).1.symm, hn'⟩]
  · by_cases h : first = uninitializedLong
    · rw [if_pos h, hc.first_eq_iff.mp h]
      rfl
    · rw [if_neg h, hc.first_eq]
      cases l with
      | nil => exact absurd (hc.first_eq_iff.mpr rfl) h
      | cons a t => rfl
  · by_cases h : first = uninitializedLong
    · rw [if_pos h]
      simp [hU]
    · rw [if_neg h]
      simp [h]

include hk hx hF hT in
/-- **Linking keeps a graph well-formed.** -/
theorem WellFormed.link (hw : g.WellFormed) (hU : rel.id ≠ uninitializedLong) {nf nt : Node}
    (hnf : g.node rel.sourceNode = some nf) (hnt : g.node rel.targetNode = some nt)
    (hf : nf.firstRelationship = fromFirst) (ht : nt.firstRelationship = toFirst) :
    (g.link rel fromFirst toFirst).WellFormed where
  chain n nd hnd := by
    obtain ⟨nd₀, hnd₀, rfl⟩ := Option.map_eq_some_iff.mp hnd
    obtain ⟨l, hl⟩ := hw.chain n nd₀ hnd₀
    by_cases ha : rel.At n
    · refine ⟨l ++ [rel.id], ?_⟩
      have hs : n = rel.sourceNode → nd₀.firstRelationship = fromFirst := by
        rintro rfl
        rw [hnf] at hnd₀
        cases hnd₀
        exact hf
      have ht' : n = rel.targetNode → nd₀.firstRelationship = toFirst := by
        rintro rfl
        rw [hnt] at hnd₀
        cases hnd₀
        exact ht
      have := link_chain_of_at hk hx hF hT hl hU ha hs ht'
      by_cases h : nd₀.firstRelationship = uninitializedLong
      · rw [if_pos h] at this
        rwa [if_pos ⟨h, ha⟩]
      · rw [if_neg h] at this
        rwa [if_neg fun h' => h h'.1]
    · rw [if_neg fun h => ha h.2]
      exact ⟨l, link_chain_of_not_at hk hx hF hT hl ha⟩
  loops y r' hr' := by
    by_cases hy : y = rel.id
    · subst hy
      rw [link_rel_self] at hr'
      cases hr'
      refine Relationship.LoopAgrees.relink fun e => ?_
      have e' : rel.sourceNode = rel.targetNode := e
      have hff : fromFirst = toFirst := by
        rw [← hf, ← ht]
        rw [e', hnt] at hnf
        cases hnf
        rfl
      simp only [withEnds, e', hff, and_self]
    · rw [link_rel_of_ne hy] at hr'
      obtain ⟨r, hr, rfl⟩ := Option.map_eq_some_iff.mp hr'
      exact Relationship.LoopAgrees.relink (hw.loops y r hr)
  endpoints y r' hr' := by
    have hnode : ∀ {m nd}, g.node m = some nd →
        ∃ nd', (g.link rel fromFirst toFirst).node m = some nd' := fun h =>
      ⟨_, congrArg (Option.map _) h⟩
    by_cases hy : y = rel.id
    · subst hy
      rw [link_rel_self] at hr'
      cases hr'
      rw [keeps_relinkNew.sourceNode, keeps_relinkNew.targetNode]
      exact ⟨hnode hnf, hnode hnt⟩
    · rw [link_rel_of_ne hy] at hr'
      obtain ⟨r, hr, rfl⟩ := Option.map_eq_some_iff.mp hr'
      obtain ⟨⟨nd₁, h₁⟩, nd₂, h₂⟩ := hw.endpoints y r hr
      rw [keeps_relinkNew.sourceNode, keeps_relinkNew.targetNode]
      exact ⟨hnode h₁, hnode h₂⟩

end Link

end Graph

end Goedb
