import Goedb.Access.Linking
import Goedb.Access.StoreSpecs

/-!
# Access — relationships held in memory

`create_relationship` and `delete_relationship` read up to four relationships, change them through
pointers that may be equal, and write them back.  `Loads` says that pointers hold relationships as
they are stored, and that two pointers are equal as soon as their ids are.  Then

* reading a relationship that is held already changes nothing (`run_loadOr`);
* an assignment through a pointer is a patch by id (`Objs.Apart.modify_eq`);
* writing back stores every object that is held, and nothing else (`run_writeBack`).
-/

namespace Goedb

open Lib

/-- The slots of two stores are the same; their words may differ. -/
structure Store.SameSlots (s s' : Store) : Prop where
  pages : s'.pages = s.pages
  bit : s'.bit = s.bit
  counters : s'.counters = s.counters

namespace Store

variable {s s' s'' : Store} {ft : FileType} {id x : Ulong}

namespace SameSlots

theorem refl (s : Store) : s.SameSlots s := ⟨rfl, rfl, rfl⟩

theorem trans (h : s.SameSlots s') (h' : s'.SameSlots s'') : s.SameSlots s'' :=
  ⟨h'.pages.trans h.pages, h'.bit.trans h.bit, h'.counters.trans h.counters⟩

theorem live (h : s.SameSlots s') : s'.Live ft id ↔ s.Live ft id := by
  simp only [Live, isUsed, h.pages, h.bit]

theorem valid (h : s.SameSlots s') (hv : s.Valid) : s'.Valid :=
  ⟨by rw [h.pages]; exact hv.pages_lt, by rw [h.pages, h.bit]; exact hv.bit_beyond,
    by rw [h.counters]; exact hv.aligned⟩

end SameSlots

theorem sameSlots_setNode (nd : Node) : s.SameSlots (s.setNode nd) := ⟨rfl, rfl, rfl⟩

theorem sameSlots_setRel (r : Relationship) : s.SameSlots (s.setRel r) := ⟨rfl, rfl, rfl⟩

end Store

namespace Objs

variable {o : Objs} {ps : List Obj} {f : Relationship → Relationship} {p q : Obj}

/-- The ids of the objects that are held tell them apart. -/
def Apart (o : Objs) (ps : List Obj) : Prop := ∀ p ∈ ps, ∀ q ∈ ps, (o p).id = (o q).id → p = q

theorem Apart.mono {qs : List Obj} (h : o.Apart ps) (hsub : ∀ q ∈ qs, q ∈ ps) : o.Apart qs :=
  fun p hp q hq => h p (hsub p hp) q (hsub q hq)

/-- Objects with the ids that they had are told apart as they were. -/
theorem Apart.of_id {o' : Objs} {qs : List Obj} (h : o.Apart ps) (hsub : ∀ q ∈ qs, q ∈ ps)
    (hid : ∀ q ∈ qs, (o' q).id = (o q).id) : o'.Apart qs := by
  intro p hp q hq he
  rw [hid p hp, hid q hq] at he
  exact h p (hsub p hp) q (hsub q hq) he

/-- The ids of objects after an assignment that keeps ids. -/
theorem modify_id (hf : ∀ r, (f r).id = r.id) (p q : Obj) : (o.modify p f q).id = (o q).id := by
  unfold modify
  by_cases e : q = p
  · subst e
    simp [hf]
  · rw [Function.update_of_ne e]

theorem Apart.modify (h : o.Apart ps) (hf : ∀ r, (f r).id = r.id) (p : Obj) :
    (o.modify p f).Apart ps :=
  h.of_id (fun _ hq => hq) fun q _ => modify_id hf p q

/-- An assignment through a pointer changes the relationship of its id, wherever it is held. -/
theorem Apart.modify_eq (h : o.Apart ps) (hp : p ∈ ps) (hq : q ∈ ps) :
    o.modify p f q = (o q).patch (o p).id f := by
  unfold Objs.modify Relationship.patch
  by_cases e : q = p
  · subst e
    simp
  · rw [Function.update_of_ne e, if_neg fun he => e (h q hq p hp he)]

/-- **The assignments of a linking**, through four pointers. -/
theorem Apart.relink_eq (h : o.Apart ps) {a b c d : Obj} (ha : a ∈ ps) (hb : b ∈ ps) (hc : c ∈ ps)
    (hd : d ∈ ps) (hq : q ∈ ps) (n m va vb vc vd : Ulong) :
    ((((o.modify a (·.setNext n va)).modify b (·.setNext m vb)).modify c (·.setPrev n vc)).modify d
        (·.setPrev m vd)) q =
      (o q).relink n m (o a).id va (o b).id vb (o c).id vc (o d).id vd := by
  have hn : ∀ k v r, (Relationship.setNext k v r).id = r.id := fun _ _ _ => rfl
  have hp : ∀ k v r, (Relationship.setPrev k v r).id = r.id := fun _ _ _ => rfl
  have h₁ := h.modify (hn n va) a
  have h₂ := h₁.modify (hn m vb) b
  have h₃ := h₂.modify (hp n vc) c
  rw [h₃.modify_eq hd hq, h₂.modify_eq hc hq, h₁.modify_eq hb hq, h.modify_eq ha hq,
    modify_id (hp n vc), modify_id (hn m vb), modify_id (hn m vb), modify_id (hn n va),
    modify_id (hn n va), modify_id (hn n va)]
  rfl

/-- What is known after the objects that `ps` lists are written back in this order, each of them
where the list names it last. -/
def stored (o : Objs) : List Obj → (Ulong → Option Relationship) → Ulong → Option Relationship
  | [], known => known
  | p :: ps, known => o.stored ps
      (if p ≠ .rel ∧ p ∉ ps then Function.update known (o p).id (some (o p)) else known)

theorem stored_of_ne {known : Ulong → Option Relationship} {y : Ulong}
    (h : ∀ p ∈ ps, p ≠ .rel → (o p).id ≠ y) : o.stored ps known y = known y := by
  induction ps generalizing known with
  | nil => rfl
  | cons p ps ih =>
      rw [stored, ih fun q hq => h q (List.mem_cons_of_mem p hq)]
      split
      · rename_i hp
        exact Function.update_of_ne (h p List.mem_cons_self hp.1).symm _ _
      · rfl

/-- What one write stores, the later writes store again or leave alone. -/
theorem Apart.stored_keeps {known : Ulong → Option Relationship} (h : o.Apart (p :: ps))
    (hk : known (o p).id = some (o p)) : o.stored ps known (o p).id = some (o p) := by
  induction ps generalizing known with
  | nil => exact hk
  | cons q ps ih =>
      have hps : o.Apart (p :: ps) := h.mono fun r hr => by
        rcases List.mem_cons.mp hr with rfl | hr
        · exact List.mem_cons_self
        · exact List.mem_cons_of_mem p (List.mem_cons_of_mem q hr)
      refine ih hps ?_
      split
      · by_cases hid : (o p).id = (o q).id
        · rw [hid, Function.update_self,
            h p List.mem_cons_self q (List.mem_cons_of_mem p List.mem_cons_self) hid]
        · rw [Function.update_of_ne hid, hk]
      · exact hk

theorem Apart.stored_self {known : Ulong → Option Relationship} (h : o.Apart ps) (hp : p ∈ ps)
    (hne : p ≠ .rel) : o.stored ps known (o p).id = some (o p) := by
  induction ps generalizing known with
  | nil => cases hp
  | cons q ps ih =>
      by_cases hps : p ∈ ps
      · exact ih (h.mono fun r hr => List.mem_cons_of_mem q hr) hps
      · obtain rfl : p = q := (List.mem_cons.mp hp).resolve_right hps
        refine h.stored_keeps ?_
        rw [if_pos ⟨hne, hps⟩, Function.update_self]

end Objs

/-- The pointers `ps` hold relationships as they are known, and no two of them the same one. -/
structure Loads (known : Ulong → Option Relationship) (o : Objs) (ps : List Obj) : Prop where
  known : ∀ p ∈ ps, known (o p).id = some (o p)
  apart : o.Apart ps

namespace Loads

variable {known : Ulong → Option Relationship} {o o' : Objs} {ps : List Obj} {p : Obj}

theorem cons_of_mem (h : Loads known o ps) (hp : p ∈ ps) : Loads known o (p :: ps) := by
  have hsub : ∀ q ∈ p :: ps, q ∈ ps := by simp [hp]
  exact ⟨fun q hq => h.known q (hsub q hq), h.apart.mono hsub⟩

theorem cons_fresh (h : Loads known o ps) (hp : p ∉ ps) {r : Relationship}
    (hr : known r.id = some r) (hne : ∀ q ∈ ps, (o q).id ≠ r.id) :
    Loads known (Function.update o p r) (p :: ps) := by
  have hold : ∀ q ∈ ps, Function.update o p r q = o q := fun q hq =>
    Function.update_of_ne (ne_of_mem_of_not_mem hq hp) _ _
  refine ⟨fun q hq => ?_, fun q hq q' hq' he => ?_⟩
  · rcases List.mem_cons.mp hq with rfl | hq
    · simpa using hr
    · rw [hold q hq]
      exact h.known q hq
  · rcases List.mem_cons.mp hq with e | hq <;> rcases List.mem_cons.mp hq' with e' | hq'
    · rw [e, e']
    · rw [e, hold q' hq', Function.update_self] at he
      exact absurd he.symm (hne q' hq')
    · rw [e', hold q hq, Function.update_self] at he
      exact absurd he (hne q hq)
    · rw [hold q hq, hold q' hq'] at he
      exact h.apart q hq q' hq' he

end Loads

namespace Store

variable {s : Store} {id : Ulong} {known : Ulong → Option Relationship} {o : Objs}
  {ps : List Obj}

/-- A relationship is held in the pointer that holds it already, or read. -/
theorem run_loadOr (hv : s.Valid) (hL : Loads known o ps) {r : Relationship} {f : Obj}
    (hr : s.graph.rel id = some r) (hkn : known id = some r) (hfresh : f ∉ ps)
    (cs : List (Ulong × Obj)) (hcs : ∀ c ∈ cs, c.2 ∈ ps ∧ (o c.2).id = c.1)
    (hcover : ∀ p ∈ ps, (o p).id = id → ∃ c ∈ cs, c.1 = id) :
    ∃ o' p', run (HF.loadOr o id f cs) s = .ok ((o', p'), s) ∧ Loads known o' (p' :: ps) ∧
      (o' p').id = id ∧ (∀ q ∈ ps, o' q = o q) ∧ (p' ∈ ps ∨ p' = f) := by
  induction cs with
  | nil =>
      have hid : r.id = id := rel_id hr
      refine ⟨Function.update o f r, f, ?_, ?_, ?_, ?_, .inr rfl⟩
      · rw [run, HF.loadOr, Prog.run_bind_ok _ (run_readRelationship hv hr), Prog.run_pure]
      · refine hL.cons_fresh hfresh (by rw [hid, hkn]) fun q hq he => ?_
        obtain ⟨c, hc, -⟩ := hcover q hq (he.trans hid)
        cases hc
      · simpa using hid
      · intro q hq
        exact Function.update_of_ne (ne_of_mem_of_not_mem hq hfresh) _ _
  | cons c cs ih =>
      obtain ⟨id', p⟩ := c
      obtain ⟨hp, hpid⟩ := hcs (id', p) (List.mem_cons_self ..)
      by_cases h : id = id'
      · refine ⟨o, p, ?_, hL.cons_of_mem hp, hpid.trans h.symm, fun _ _ => rfl, .inl hp⟩
        rw [run, HF.loadOr, if_pos h]
        rfl
      · rw [HF.loadOr, if_neg h]
        refine ih (fun c hc => hcs c (List.mem_cons_of_mem _ hc)) fun q hq he => ?_
        obtain ⟨c, hc, hce⟩ := hcover q hq he
        rcases List.mem_cons.mp hc with rfl | hc
        · exact absurd hce.symm h
        · exact ⟨c, hc, hce⟩

/-- A relationship is written back, under a condition. -/
theorem run_when_update (hv : s.Valid) (c : Prop) [Decidable c] {r : Relationship}
    (hl : c → s.Live .relationship r.id) (hw : c → Writable r) :
    ∃ s', run (HF.when c (HF.updateRelationshipInternal r false)) s = .ok ((), s') ∧
      s.SameSlots s' ∧ s'.graph.node = s.graph.node ∧
      s'.graph.rel = if c then Function.update s.graph.rel r.id (some r) else s.graph.rel := by
  by_cases h : c
  · refine ⟨s.setRel r, ?_, sameSlots_setRel r, ?_, ?_⟩
    · rw [HF.when, if_pos h]
      exact run_updateRelationshipInternal hv (hl h) (hw h) false
    · rw [graph_setRel (hl h)]
      rfl
    · rw [graph_setRel (hl h), if_pos h]
      rfl
  · refine ⟨s, ?_, .refl s, rfl, by rw [if_neg h]⟩
    rw [HF.when, if_neg h]
    rfl

/-- **Writing back** stores every object that is held, and nothing else. -/
theorem run_writeBack (hv : s.Valid) {a b c d : Obj}
    (hinj : o.Apart [a, b, c, d])
    (hl : ∀ p ∈ [a, b, c, d], p ≠ .rel → s.Live .relationship (o p).id)
    (hw : ∀ p ∈ [a, b, c, d], p ≠ .rel → Writable (o p)) :
    ∃ s', run (HF.writeBack o a b c d) s = .ok ((), s') ∧ s.SameSlots s' ∧
      s'.graph.node = s.graph.node ∧
      (∀ p ∈ [a, b, c, d], p ≠ .rel → s'.graph.rel (o p).id = some (o p)) ∧
      ∀ y, (∀ p ∈ [a, b, c, d], p ≠ .rel → (o p).id ≠ y) →
        s'.graph.rel y = s.graph.rel y := by
  have ha : a ∈ [a, b, c, d] := by simp
  have hb : b ∈ [a, b, c, d] := by simp
  have hc : c ∈ [a, b, c, d] := by simp
  have hd : d ∈ [a, b, c, d] := by simp
  obtain ⟨s₁, h₁, e₁, n₁, r₁⟩ := run_when_update hv (a ≠ .rel ∧ a ≠ b ∧ a ≠ c ∧ a ≠ d)
    (fun h => hl a ha h.1) (fun h => hw a ha h.1)
  obtain ⟨s₂, h₂, e₂, n₂, r₂⟩ := run_when_update (e₁.valid hv) (b ≠ .rel ∧ b ≠ c ∧ b ≠ d)
    (fun h => e₁.live.mpr (hl b hb h.1)) (fun h => hw b hb h.1)
  have e₁₂ := e₁.trans e₂
  obtain ⟨s₃, h₃, e₃, n₃, r₃⟩ := run_when_update (e₁₂.valid hv) (c ≠ .rel ∧ c ≠ d)
    (fun h => e₁₂.live.mpr (hl c hc h.1)) (fun h => hw c hc h.1)
  have e₁₃ := e₁₂.trans e₃
  obtain ⟨s₄, h₄, e₄, n₄, r₄⟩ := run_when_update (e₁₃.valid hv) (d ≠ .rel)
    (fun h => e₁₃.live.mpr (hl d hd h)) (fun h => hw d hd h)
  have hrel : s₄.graph.rel = o.stored [a, b, c, d] s.graph.rel := by
    simp only [Objs.stored, List.mem_cons, List.not_mem_nil, or_false, not_or, not_false_eq_true,
      and_true]
    rw [r₄, r₃, r₂, r₁]
  refine ⟨s₄, ?_, e₁₃.trans e₄, ?_, fun p hp hne => ?_, fun y hy => ?_⟩
  · rw [run, HF.writeBack, Prog.run_bind_ok _ h₁, Prog.run_bind_ok _ h₂, Prog.run_bind_ok _ h₃]
    exact h₄
  · rw [n₄, n₃, n₂, n₁]
  · rw [hrel, hinj.stored_self hp hne]
  · rw [hrel, Objs.stored_of_ne hy]

/-- Changed relationships written back: every relationship is changed, if those that are not held are
left alone by the change. -/
theorem run_writeBack_map (hv : s.Valid) {a b c d : Obj} {F : Relationship → Relationship}
    (hF : Relationship.Keeps F) (hinj : o.Apart [a, b, c, d])
    (hold : ∀ p ∈ [a, b, c, d], p ≠ .rel →
      ∃ r, s.graph.rel (o p).id = some r ∧ o p = F r ∧ Writable r)
    {K : Ulong → Prop} (hrest : ∀ y r, s.graph.rel y = some r → ¬ K y →
      (∀ p ∈ [a, b, c, d], p ≠ .rel → (o p).id ≠ y) → F r = r) :
    ∃ s', run (HF.writeBack o a b c d) s = .ok ((), s') ∧ s.SameSlots s' ∧
      s'.graph.node = s.graph.node ∧
      ∀ y, ¬ K y → s'.graph.rel y = (s.graph.rel y).map F := by
  obtain ⟨s', h, e, n, r, k⟩ := run_writeBack (o := o) hv hinj
    (fun p hp hne => by
      obtain ⟨r, hr, -, -⟩ := hold p hp hne
      exact (rel_eq_some.mp hr).1)
    (fun p hp hne => by
      obtain ⟨r, -, hp', hw⟩ := hold p hp hne
      rw [hp']
      exact ⟨by rw [hF.sourceNode]; exact hw.1, by rw [hF.targetNode]; exact hw.2.1,
        by rw [hF.weight]; exact hw.2.2⟩)
  refine ⟨s', h, e, n, fun y hy => ?_⟩
  by_cases hp : ∃ p ∈ [a, b, c, d], p ≠ .rel ∧ (o p).id = y
  · obtain ⟨p, hp, hne, rfl⟩ := hp
    obtain ⟨r', hr', he, -⟩ := hold p hp hne
    rw [r p hp hne, hr', he]
    rfl
  · have hnot : ∀ p ∈ [a, b, c, d], p ≠ .rel → (o p).id ≠ y := fun p hp' hne he =>
      hp ⟨p, hp', hne, he⟩
    rw [k y hnot]
    cases hr : s.graph.rel y with
    | none => rfl
    | some r' => exact congrArg some (hrest y r' hr hy hnot).symm

end Store

end Goedb
