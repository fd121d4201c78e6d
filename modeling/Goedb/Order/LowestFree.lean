import Goedb.Order.SlotAccounting

/-!
# Order — the lowest free slot

`next_free_slots` searches from the last id that was handed out, and never before it.  It hands out
the lowest free id as long as all slots before that one are in use (`Store.Packed`).  The two
deletions set the last id back to the slot that they free.  The two exchanges do not: with a record
in one slot and none in the other they free the slot of the record.

* `HeapFile.calls_lowest_iff`: over a run, the lowest free ids are handed out exactly if no exchange
  frees a slot before the last id.
-/

namespace Goedb

open Lib

/-- The call exchanges a record with an empty slot, and the record is before the last id that was
handed out. -/
def Store.FreesBefore (s : Store) : Call → Prop
  | .swapNodes fst snd => before .node fst snd
  | .swapRelationships fst snd => before .relationship fst snd
  | _ => False
where
  /-- Exactly one of the slots has a record, and it is before the last id. -/
  before (ft : FileType) (fst snd : Ulong) : Prop :=
    s.Live ft fst ∧ ¬ s.Live ft snd ∧ fst < s.counters.lastAlloc ft ∨
      s.Live ft snd ∧ ¬ s.Live ft fst ∧ snd < s.counters.lastAlloc ft

namespace Store

variable {s s' : Store} {ft : FileType} {id fst snd : Ulong} {count : Counters → Counters}

/-- All slots before the last one that was handed out are in use. -/
def Packed (s : Store) : Prop :=
  ∀ ft (x : Ulong), x.toNat % numSlotsPer ft = 0 → x < s.counters.lastAlloc ft → s.Live ft x

/-- The last ids that were handed out are in the file, or there is none. -/
def Bounded (s : Store) : Prop := ∀ ft, (s.counters.lastAlloc ft).toNat ≤ s.pages ft * 256

/-! ### What the functions do to the last id -/

theorem lastAlloc_setLastAlloc (c : Counters) (ft gt : FileType) (id : Ulong) :
    (c.setLastAlloc ft id).lastAlloc gt = if gt = ft then id else c.lastAlloc gt := by
  cases ft <;> cases gt <;> rfl

section Created

variable (hv : s.Valid) (hC : Created s ft id count s')
  (hcount : ∀ c gt, (count c).lastAlloc gt = c.lastAlloc gt)
include hC hcount

theorem Created.lastAlloc (gt : FileType) :
    s'.counters.lastAlloc gt = if gt = ft then id else s.counters.lastAlloc gt := by
  obtain ⟨s₁, hA, -, -, hc⟩ := hC.allocated
  rw [hc, hcount, hA.counters, lastAlloc_setLastAlloc]

theorem Bounded.created (h : s.Bounded) : s'.Bounded := by
  intro gt
  obtain ⟨s₁, hA, hp, -, -⟩ := hC.allocated
  rw [hC.lastAlloc hcount gt, hp]
  split
  · rename_i hg
    subst hg
    have := hA.live_self.2.1
    omega
  · exact (h gt).trans (Nat.mul_le_mul_right _ (hA.pages_le gt).1)

include hv

/-- The slots before a record that is created are in use. -/
theorem Packed.created (h : s.Packed) : s'.Packed := by
  intro gt x ha hx
  rw [hC.lastAlloc hcount gt] at hx
  rw [hC.live]
  split at hx
  · rename_i hg
    subst hg
    obtain ⟨o, hfree, rfl⟩ := hC.first
    left
    by_cases hlast : x < s.counters.lastAlloc gt
    · exact h gt x ha hlast
    · have hle : (s.counters.lastAlloc gt).toNat ≤ x.toNat := BitVec.not_lt.mp hlast
      have hx' : x.toNat < (o.getD (s.endId gt)).toNat := hx
      have hid : BitVec.ofNat 64 x.toNat = x := by simp
      cases o with
      | some y =>
          have hlive := hfree.2.2.2.2 x.toNat hle hx' ha
          rwa [hid] at hlive
      | none =>
          rw [Option.getD_none, hv.toNat_endId] at hx'
          have hlive := hfree x.toNat hle ha (by omega)
          rwa [hid] at hlive
  · exact .inl (h gt x ha hx)

end Created

/-- The last id is set back to what was deleted. -/
theorem min_le_of_deleted {c : Ulong} : (if id < c then id else c).toNat ≤ c.toNat ∧
    (if id < c then id else c).toNat ≤ id.toNat := by
  split
  · rename_i h
    exact ⟨Nat.le_of_lt h, Nat.le_refl _⟩
  · rename_i h
    exact ⟨Nat.le_refl _, BitVec.not_lt.mp h⟩

section Deleted

variable (hD : Deleted s ft id count s')
  (hcount : ∀ c, (count c).lastAlloc ft = if id < c.lastAlloc ft then id else c.lastAlloc ft)
  (hother : ∀ c gt, gt ≠ ft → (count c).lastAlloc gt = c.lastAlloc gt)
include hD hcount hother

theorem Bounded.deleted (h : s.Bounded) : s'.Bounded := by
  intro gt
  rw [hD.counters, hD.pages]
  by_cases hg : gt = ft
  · subst hg
    rw [hcount]
    exact min_le_of_deleted.1.trans (h gt)
  · rw [hother _ _ hg]
    exact h gt

theorem Packed.deleted (h : s.Packed) : s'.Packed := by
  intro gt x ha hx
  rw [hD.counters] at hx
  rw [hD.live]
  by_cases hg : gt = ft
  · subst hg
    rw [hcount] at hx
    have hx' : x.toNat < _ := hx
    refine ⟨h gt x ha (Nat.lt_of_lt_of_le hx' min_le_of_deleted.1), ?_⟩
    rintro ⟨-, rfl⟩
    exact Nat.lt_irrefl _ (Nat.lt_of_lt_of_le hx' min_le_of_deleted.2)
  · rw [hother _ _ hg] at hx
    exact ⟨h gt x ha hx, fun e => hg e.1⟩

end Deleted

theorem Bounded.deletions {changes : List Change} (h : s.Bounded)
    (hD : s.Deletions changes s') : s'.Bounded := by
  induction hD with
  | refl => exact h
  | relationship _ hD ih =>
      refine ih.deleted hD (fun _ => rfl) fun c gt hg => ?_
      cases gt
      · rfl
      · exact absurd rfl hg
  | node _ hD ih =>
      refine ih.deleted hD (fun _ => rfl) fun c gt hg => ?_
      cases gt
      · exact absurd rfl hg
      · rfl

theorem Packed.deletions {changes : List Change} (h : s.Packed)
    (hD : s.Deletions changes s') : s'.Packed := by
  induction hD with
  | refl => exact h
  | relationship _ hD ih =>
      refine ih.deleted hD (fun _ => rfl) fun c gt hg => ?_
      cases gt
      · rfl
      · exact absurd rfl hg
  | node _ hD ih =>
      refine ih.deleted hD (fun _ => rfl) fun c gt hg => ?_
      cases gt
      · exact absurd rfl hg
      · rfl

section Exchanged

variable (hE : s.Exchanged ft fst snd s')
include hE

theorem Exchanged.lastAlloc (gt : FileType) :
    s'.counters.lastAlloc gt = s.counters.lastAlloc gt := by
  rw [hE.counters]
  cases gt <;> rfl

theorem Bounded.exchanged (h : s.Bounded) : s'.Bounded := by
  intro gt
  rw [hE.lastAlloc, hE.pages]
  exact h gt

/-- **An exchange** keeps the slots packed unless it frees one before the last id. -/
theorem Packed.exchanged_iff (h : s.Packed) :
    s'.Packed ↔ ¬ FreesBefore.before s ft fst snd := by
  constructor
  · rintro h' (⟨hfst, hsnd, hlt⟩ | ⟨hsnd, hfst, hlt⟩)
    · have hl := h' ft fst hfst.1 (by rwa [hE.lastAlloc])
      rw [hE.live, if_pos rfl, exchange_fst] at hl
      exact hsnd hl
    · have hl := h' ft snd hsnd.1 (by rwa [hE.lastAlloc])
      rw [hE.live, if_pos rfl, exchange_snd] at hl
      exact hfst hl
  · intro hno gt x ha hx
    rw [hE.lastAlloc] at hx
    have hl := h gt x ha hx
    rw [hE.live]
    by_cases hg : gt = ft
    · subst hg
      rw [if_pos rfl]
      by_cases e₁ : x = fst
      · subst e₁
        rw [exchange_fst]
        by_contra hsnd
        exact hno (.inl ⟨hl, hsnd, hx⟩)
      · by_cases e₂ : x = snd
        · subst e₂
          rw [exchange_snd]
          by_contra hfst
          exact hno (.inr ⟨hl, hfst, hx⟩)
        · rwa [exchange_of_ne e₁ e₂]
    · rwa [if_neg hg]

end Exchanged

/-! ### The functions -/

variable {fuel : ℕ}

/-- One call keeps the last ids in the file. -/
theorem Bounded.call (h : s.Bounded) (hv : s.Valid) (c : Call)
    (hr : run (HF.call 4096 fuel c) s = .ok ((), s')) : s'.Bounded := by
  cases c with
  | createNode label =>
      obtain ⟨id, s₁, h₁, hr⟩ := Prog.run_bind_inv _ hr
      cases hr
      exact h.created (createNode_created hv h₁) fun c gt => by cases gt <;> rfl
  | createRelationship fromId toId weight label =>
      obtain ⟨id, s₁, h₁, hr⟩ := Prog.run_bind_inv _ hr
      cases hr
      exact h.created (createRelationship_created hv h₁) fun c gt => by cases gt <;> rfl
  | deleteNode nodeId =>
      obtain ⟨_, hD⟩ := deleteNode_deletions hv hr
      exact h.deletions hD
  | deleteRelationship relId =>
      obtain ⟨label, hD⟩ := deleteRelationship_deleted hv hr
      exact h.deletions (Deletions.refl.relationship hD)
  | swapNodes fst snd => exact h.exchanged (swapNodes_exchanged hv hr)
  | swapRelationships fst snd => exact h.exchanged (swapRelationships_exchanged hv hr)

/-- **One call** keeps the slots packed unless it frees one before the last id. -/
theorem Packed.call_iff (h : s.Packed) (hv : s.Valid) (c : Call)
    (hr : run (HF.call 4096 fuel c) s = .ok ((), s')) : s'.Packed ↔ ¬ s.FreesBefore c := by
  cases c with
  | createNode label =>
      obtain ⟨id, s₁, h₁, hr⟩ := Prog.run_bind_inv _ hr
      cases hr
      exact iff_of_true (h.created hv (createNode_created hv h₁) fun c gt => by cases gt <;> rfl) not_false
  | createRelationship fromId toId weight label =>
      obtain ⟨id, s₁, h₁, hr⟩ := Prog.run_bind_inv _ hr
      cases hr
      exact iff_of_true
        (h.created hv (createRelationship_created hv h₁) fun c gt => by cases gt <;> rfl) not_false
  | deleteNode nodeId =>
      obtain ⟨_, hD⟩ := deleteNode_deletions hv hr
      exact iff_of_true (h.deletions hD) not_false
  | deleteRelationship relId =>
      obtain ⟨label, hD⟩ := deleteRelationship_deleted hv hr
      exact iff_of_true (h.deletions (Deletions.refl.relationship hD)) not_false
  | swapNodes fst snd => exact h.exchanged_iff (swapNodes_exchanged hv hr)
  | swapRelationships fst snd => exact h.exchanged_iff (swapRelationships_exchanged hv hr)

/-- `next_free_slots` adds a page only if the search finds nothing. -/
theorem nextFreeSlots_pages (hv : s.Valid)
    (h : run (HF.nextFreeSlots 4096 fuel ft) s = .ok ((), s')) :
    ∃ o, s.FirstFree ft (s.counters.lastAlloc ft).toNat o ∧
      Allocated s ft (o.getD (s.endId ft)) s' ∧ (o ≠ none → s'.pages = s.pages) := by
  obtain ⟨o, hfree, hA⟩ := nextFreeSlots_inv hv h
  refine ⟨o, hfree, hA, fun ho => ?_⟩
  obtain ⟨c, s₁, h₁, h⟩ := Prog.run_bind_inv _ h
  cases h₁
  obtain ⟨o', s₂, h₂, h⟩ := Prog.run_bind_inv _ h
  have hprev : (s.counters.lastAlloc ft).toNat % numSlotsPer ft = 0 := by
    cases ft with
    | node => exact Nat.mod_one _
    | relationship => exact hv.aligned
  rcases run_findFreeSlot_last hv fuel hprev with ⟨hr, -⟩ | ⟨o₁, hr, hfree'⟩
  · rw [run, h₂] at hr
    cases hr
  · rw [run, h₂] at hr
    cases hr
    obtain ⟨id, s₃, h₃, h⟩ := Prog.run_bind_inv _ h
    obtain ⟨u, s₄, h₄, h₅⟩ := Prog.run_bind_inv _ h
    have hpages : s'.pages = s₃.pages := by
      cases h₄
      rw [Prog.run_perform, step] at h₅
      split at h₅
      · cases h₅
        rfl
      · cases h₅
    cases o' with
    | some y =>
        cases h₃
        exact hpages
    | none =>
        cases o with
        | none => exact absurd rfl ho
        | some y =>
            -- the two searches cannot end differently
            have hid : BitVec.ofNat 64 y.toNat = y := by simp
            have hlive := hfree' y.toNat hfree.2.2.2.1 hfree.1 hfree.2.1
            rw [hid] at hlive
            exact absurd hlive hfree.2.2.1

/-! ### Runs -/

theorem run_calls_append (cs : List Call) {ds : List Call} : ∀ {s s' : Store},
    run (HF.calls 4096 fuel (cs ++ ds)) s = .ok ((), s') ↔
      ∃ s₁, run (HF.calls 4096 fuel cs) s = .ok ((), s₁) ∧
        run (HF.calls 4096 fuel ds) s₁ = .ok ((), s') := by
  induction cs with
  | nil =>
      intro s s'
      constructor
      · exact fun h => ⟨s, rfl, h⟩
      · rintro ⟨s₁, h₁, h₂⟩
        cases h₁
        exact h₂
  | cons c cs ih =>
      intro s s'
      constructor
      · intro h
        obtain ⟨u, s₁, h₁, h₂⟩ := Prog.run_bind_inv _ h
        obtain ⟨s₂, h₃, h₄⟩ := ih.mp h₂
        exact ⟨s₂, (Prog.run_bind_ok _ h₁ _).trans h₃, h₄⟩
      · rintro ⟨s₂, h, h₄⟩
        obtain ⟨u, s₁, h₁, h₃⟩ := Prog.run_bind_inv _ h
        exact (Prog.run_bind_ok _ h₁ _).trans (ih.mpr ⟨s₂, h₃, h₄⟩)

theorem run_calls_singleton (c : Call) :
    run (HF.calls 4096 fuel [c]) s = .ok ((), s') ↔ run (HF.call 4096 fuel c) s = .ok ((), s') := by
  constructor
  · intro h
    obtain ⟨u, s₁, h₁, h₂⟩ := Prog.run_bind_inv _ h
    cases h₂
    exact h₁
  · exact fun h => (Prog.run_bind_ok _ h _).trans rfl

/-- A run keeps the last ids in the file. -/
theorem Bounded.calls (cs : List Call) : ∀ {s s' : Store}, s.Bounded → s.Counted →
    run (HF.calls 4096 fuel cs) s = .ok ((), s') → s'.Bounded := by
  induction cs with
  | nil =>
      intro s s' h _ hr
      cases hr
      exact h
  | cons c cs ih =>
      intro s s' h hA hr
      obtain ⟨u, s₁, h₁, h₂⟩ := Prog.run_bind_inv _ hr
      exact ih (h.call hA.valid c h₁) (hA.call c h₁) h₂

/-- **A run** goes through packed stores only, exactly if no call frees a slot before the last id. -/
theorem Packed.calls_iff {cs : List Call} (h : s.Packed) (hA : s.Counted)
    (hr : run (HF.calls 4096 fuel cs) s = .ok ((), s')) :
    (∀ pre post s₁, cs = pre ++ post → run (HF.calls 4096 fuel pre) s = .ok ((), s₁) →
      s₁.Packed) ↔
    ∀ pre c post s₁, cs = pre ++ c :: post → run (HF.calls 4096 fuel pre) s = .ok ((), s₁) →
      ¬ s₁.FreesBefore c := by
  constructor
  · rintro hall pre c post s₁ rfl h₁
    obtain ⟨s₂, h₂, h₃⟩ := (run_calls_append pre).mp hr
    rw [h₁] at h₂
    cases h₂
    obtain ⟨u, s₃, h₄, -⟩ := Prog.run_bind_inv _ h₃
    have hstep := (run_calls_append pre).mpr ⟨s₁, h₁, (run_calls_singleton c).mpr h₄⟩
    refine ((hall pre (c :: post) s₁ rfl h₁).call_iff (hA.calls pre h₁).valid c h₄).mp ?_
    exact hall (pre ++ [c]) post s₃ (by rw [List.append_assoc, List.singleton_append]) hstep
  · intro hno pre
    -- the last call of the run was taken in a packed store
    induction pre using List.reverseRecOn with
    | nil =>
        intro post s₁ _ h₁
        cases h₁
        exact h
    | append_singleton pre c ih =>
        rintro post s₁ rfl h₁
        obtain ⟨s₂, h₂, h₃⟩ := (run_calls_append pre).mp h₁
        have hcs : pre ++ [c] ++ post = pre ++ c :: post := by
          rw [List.append_assoc, List.singleton_append]
        have hp := ih (c :: post) s₂ hcs h₂
        exact (hp.call_iff (hA.calls pre h₂).valid c ((run_calls_singleton c).mp h₃)).mpr
          (hno pre c post s₂ hcs h₂)

end Store

/-! ### What `next_free_slots` hands out -/

namespace HeapFile

/-- Every slot of the record file is in use. -/
def Full (hf : HeapFile PhyDatabase) (ft : FileType) : Prop :=
  ∀ x : Ulong, x.toNat % numSlotsPer ft = 0 → pageOf x < (hf.cache.records ft).numPages →
    (Store.of hf).Live ft x

/-- `next_free_slots` hands out the lowest free id, and adds a page only if all slots are in use.  It
returns unless all slots are in use and no page can be added. -/
structure HandsOutLowest (hf : HeapFile PhyDatabase) (ft : FileType) : Prop where
  returns : ∀ fuel, (hf.cache.records ft).numPages * 256 < fuel →
    (∃ hf', run (HF.nextFreeSlots 4096 fuel ft) hf = .ok ((), hf')) ∨
      hf.Full ft ∧ maxPageNo 4096 ≤ (hf.cache.records ft).numPages + 1
  free : ∀ fuel hf', run (HF.nextFreeSlots 4096 fuel ft) hf = .ok ((), hf') →
    ¬ (Store.of hf).Live ft (hf'.counters.lastAlloc ft)
  least : ∀ fuel hf', run (HF.nextFreeSlots 4096 fuel ft) hf = .ok ((), hf') →
    ∀ x : Ulong, x.toNat % numSlotsPer ft = 0 → ¬ (Store.of hf).Live ft x →
      hf'.counters.lastAlloc ft ≤ x
  grows : ∀ fuel hf', run (HF.nextFreeSlots 4096 fuel ft) hf = .ok ((), hf') →
    (hf'.cache.records ft).numPages ≠ (hf.cache.records ft).numPages → hf.Full ft

variable {hf : HeapFile PhyDatabase} {ft : FileType} {fuel : ℕ}

/-- What is handed out is the first free id from the last one on. -/
theorem lastAlloc_of_run (hg : hf.Good) (hv : (Store.of hf).Valid) {hf' : HeapFile PhyDatabase}
    (h : run (HF.nextFreeSlots 4096 fuel ft) hf = .ok ((), hf')) :
    ∃ o, (Store.of hf).FirstFree ft (hf.counters.lastAlloc ft).toNat o ∧
      hf'.counters.lastAlloc ft = o.getD ((Store.of hf).endId ft) ∧
      ¬ (Store.of hf).Live ft (hf'.counters.lastAlloc ft) ∧
      ((hf'.cache.records ft).numPages ≠ (hf.cache.records ft).numPages → o = none) := by
  obtain ⟨-, hrun⟩ := run_inv hg h
  obtain ⟨o, hfree, hA, hpages⟩ := Store.nextFreeSlots_pages hv hrun
  have hlast : hf'.counters.lastAlloc ft = o.getD ((Store.of hf).endId ft) := by
    have hc : hf'.counters = _ := hA.counters
    rw [hc, Store.lastAlloc_setLastAlloc, if_pos rfl]
  refine ⟨o, hfree, hlast, hlast ▸ hA.fresh, fun hne => ?_⟩
  by_contra ho
  exact hne (congrFun (hpages ho) ft)

theorem full_of_firstFree (hp : (Store.of hf).Packed)
    (h : (Store.of hf).FirstFree ft (hf.counters.lastAlloc ft).toNat none) : hf.Full ft := by
  intro x ha hin
  rw [pageOf_eq] at hin
  by_cases hlast : x < hf.counters.lastAlloc ft
  · exact hp ft x ha hlast
  · have hlive := h x.toNat (BitVec.not_lt.mp hlast) ha hin
    rwa [show BitVec.ofNat 64 x.toNat = x by simp] at hlive

/-- **The lowest ids** are handed out exactly if the slots before the last one are in use. -/
theorem handsOutLowest_iff (hg : hf.Good) (hv : (Store.of hf).Valid) (hb : (Store.of hf).Bounded) :
    (∀ ft, hf.HandsOutLowest ft) ↔ (Store.of hf).Packed := by
  constructor
  -- a free slot below the last one handed out would never be found again
  · intro h ft x ha hx
    by_contra hfree
    have hin : x.toNat < (hf.cache.records ft).numPages * 256 :=
      Nat.lt_of_lt_of_le (show x.toNat < _ from hx) (hb ft)
    rcases (h ft).returns _ (Nat.lt_succ_self _) with ⟨hf', hrun⟩ | ⟨hfull, -⟩
    · have hle : (hf'.counters.lastAlloc ft).toNat ≤ x.toNat := (h ft).least _ hf' hrun x ha hfree
      have hlt : x.toNat < (hf.counters.lastAlloc ft).toNat := hx
      obtain ⟨o, ho, hlast, -⟩ := lastAlloc_of_run hg hv hrun
      rw [hlast] at hle
      cases o with
      | some y => exact absurd (ho.2.2.2.1.trans hle) (Nat.not_le_of_lt hlt)
      | none =>
          rw [Option.getD_none, hv.toNat_endId] at hle
          exact absurd hin (Nat.not_lt_of_le hle)
    · refine hfree (hfull x ha ?_)
      rw [pageOf_eq]
      omega
  -- the search starts at the last slot handed out, and below it all is used
  · intro hp ft
    refine ⟨fun fuel hfuel => ?_, fun fuel hf' hrun => ?_, fun fuel hf' hrun x ha hx => ?_,
      fun fuel hf' hrun hne => ?_⟩
    · rcases Store.run_nextFreeSlots hv fuel ft with ⟨e, -, hno⟩ | ⟨o, s', hrun, -, -⟩
      · rcases hno with hno | ⟨hmax, hnone⟩
        · exact absurd hfuel (Nat.not_lt_of_le hno)
        · exact .inr ⟨full_of_firstFree hp hnone, hmax⟩
      · obtain ⟨hf', hrun', -, -⟩ := run_ok hg hrun
        exact .inl ⟨hf', hrun'⟩
    · obtain ⟨o, -, -, hfree, -⟩ := lastAlloc_of_run hg hv hrun
      exact hfree
    · obtain ⟨o, ho, hlast, -⟩ := lastAlloc_of_run hg hv hrun
      have hfrom : ¬ x < hf.counters.lastAlloc ft := fun hlt => hx (hp ft x ha hlt)
      have hid : BitVec.ofNat 64 x.toNat = x := by simp
      rw [hlast]
      refine BitVec.not_lt.mp fun hlt => hx ?_
      have hlt' : x.toNat < (o.getD ((Store.of hf).endId ft)).toNat := hlt
      cases o with
      | some y =>
          have hlive := ho.2.2.2.2 x.toNat (BitVec.not_lt.mp hfrom) hlt' ha
          rwa [hid] at hlive
      | none =>
          rw [Option.getD_none, hv.toNat_endId] at hlt'
          have hlive := ho x.toNat (BitVec.not_lt.mp hfrom) ha (by omega)
          rwa [hid] at hlive
    · obtain ⟨o, ho, -, -, hnone⟩ := lastAlloc_of_run hg hv hrun
      rw [hnone hne] at ho
      exact full_of_firstFree hp ho

theorem packed_empty : Store.empty.Packed := fun ft x _ hx => by
  cases ft <;> exact absurd hx (BitVec.not_lt_zero)

theorem bounded_empty : Store.empty.Bounded := fun ft => by cases ft <;> exact Nat.zero_le _

/-- **Over every run of calls**, the lowest free ids are handed out in every state exactly if no call
exchanges an empty slot with a record before the last id that was handed out. -/
theorem calls_lowest_iff {cs : List Call} {db : PhyDatabase} {hf₀ : HeapFile PhyDatabase}
    (hdb : PhyDatabase.create 4096 = .ok db)
    (hcreate : create 4096 fuel (PhyDatabase.flat 4096) db = .ok hf₀)
    (hrun : run (HF.calls 4096 fuel cs) hf₀ = .ok ((), hf)) :
    (∀ pre post hf₁, cs = pre ++ post → run (HF.calls 4096 fuel pre) hf₀ = .ok ((), hf₁) →
      ∀ ft, hf₁.HandsOutLowest ft) ↔
    ∀ pre c post hf₁, cs = pre ++ c :: post →
      run (HF.calls 4096 fuel pre) hf₀ = .ok ((), hf₁) → ¬ (Store.of hf₁).FreesBefore c := by
  obtain ⟨hg₀, hs₀⟩ := create_inv hdb hcreate
  obtain ⟨-, hrun'⟩ := run_inv hg₀ hrun
  have hA : (Store.of hf₀).Counted := hs₀ ▸ Store.Counted.empty
  have hp : (Store.of hf₀).Packed := hs₀ ▸ packed_empty
  have hb : (Store.of hf₀).Bounded := hs₀ ▸ bounded_empty
  have hiff := hp.calls_iff hA hrun'
  constructor
  · rintro hall pre c post hf₁ rfl h₁
    obtain ⟨-, h₁'⟩ := run_inv hg₀ h₁
    refine hiff.mp (fun pre' post' s₁ hcs h₂ => ?_) pre c post _ rfl h₁'
    obtain ⟨hf₂, h₂', hg₂, rfl⟩ := run_ok hg₀ h₂
    exact (handsOutLowest_iff hg₂ (hA.calls pre' h₂).valid (hb.calls pre' hA h₂)).mp
      (hall pre' post' hf₂ hcs h₂')
  · intro hno pre post hf₁ hcs h₁
    obtain ⟨hg₁, h₁'⟩ := run_inv hg₀ h₁
    refine (handsOutLowest_iff hg₁ (hA.calls pre h₁').valid (hb.calls pre hA h₁')).mpr ?_
    refine hiff.mpr (fun pre' c post' s₁ hcs' h₂ => ?_) pre post _ hcs h₁'
    obtain ⟨hf₂, h₂', -, rfl⟩ := run_ok hg₀ h₂
    exact hno pre' c post' hf₂ hcs' h₂'

/-- Records are created and deleted. -/
theorem calls_lowest_delete : ∃ db hf₀ hf, PhyDatabase.create 4096 = .ok db ∧
    create 4096 1000 (PhyDatabase.flat 4096) db = .ok hf₀ ∧
    run (HF.calls 4096 1000 [.createNode 7#64, .createNode 8#64, .deleteNode 0#64]) hf₀ =
      .ok ((), hf) ∧ ∀ ft, hf.HandsOutLowest ft := by
  have h : Prog.check Store.step
      (HF.calls 4096 1000 [.createNode 7#64, .createNode 8#64, .deleteNode 0#64]) Store.empty
      (fun _ _ => true) = true := by
    decide +kernel
  obtain ⟨u, s, hrun, -⟩ := Prog.check_inv _ h
  obtain ⟨db, hf₀, hdb, hcreate⟩ := create_ok 999
  obtain ⟨hg₀, hs₀⟩ := create_inv hdb hcreate
  rw [← hs₀] at hrun
  obtain ⟨hf, hrun', -, -⟩ := run_ok hg₀ hrun
  refine ⟨db, hf₀, hf, hdb, hcreate, hrun', (calls_lowest_iff hdb hcreate hrun').mpr
    (fun pre c post hf₁ hcs _ => ?_) _ [] hf (List.append_nil _).symm hrun'⟩
  have hc : c ∈ [Call.createNode 7#64, .createNode 8#64, .deleteNode 0#64] := by
    rw [hcs]
    exact List.mem_append_right _ List.mem_cons_self
  simp only [List.mem_cons, List.not_mem_nil, or_false] at hc
  rcases hc with rfl | rfl | rfl <;> exact not_false

/-- A node is moved to a slot that is empty: its own slot is lower, and is not handed out. -/
theorem not_handsOutLowest_swap : ∃ db hf₀ hf, PhyDatabase.create 4096 = .ok db ∧
    create 4096 1000 (PhyDatabase.flat 4096) db = .ok hf₀ ∧
    run (HF.calls 4096 1000 [.createNode 7#64, .createNode 8#64, .swapNodes 0#64 2#64]) hf₀ =
      .ok ((), hf) ∧ ¬ hf.HandsOutLowest .node := by
  have h : Prog.check Store.step
      (HF.calls 4096 1000 [.createNode 7#64, .createNode 8#64, .swapNodes 0#64 2#64] >>= fun _ =>
        Prog.perform .getCounters) Store.empty
      (fun c s => decide (c.lastAllocNodeId = 1#64 ∧ ¬ s.Live .node 0#64 ∧ s.pages .node = 1)) =
      true := by
    decide +kernel
  obtain ⟨c, s, hrun, hp⟩ := Prog.check_inv _ h
  obtain ⟨hlast, hfree, hpages⟩ := of_decide_eq_true hp
  obtain ⟨u, s₁, hcalls, hget⟩ := Prog.run_bind_inv _ hrun
  cases hget
  obtain ⟨db, hf₀, hdb, hcreate⟩ := create_ok 999
  obtain ⟨hg₀, hs₀⟩ := create_inv hdb hcreate
  rw [← hs₀] at hcalls
  obtain ⟨hf, hrun', hg, rfl⟩ := run_ok hg₀ hcalls
  have hA : (Store.of hf).Counted := (hs₀ ▸ Store.Counted.empty).calls _ hcalls
  refine ⟨db, hf₀, hf, hdb, hcreate, hrun', fun hlow => ?_⟩
  have hroom : ¬ maxPageNo 4096 ≤ (hf.cache.records .node).numPages + 1 := by
    rw [show (hf.cache.records .node).numPages = 1 from hpages]
    decide
  rcases hlow.returns _ (Nat.lt_succ_self _) with ⟨hf', hnext⟩ | ⟨-, hmax⟩
  · have hle := hlow.least _ hf' hnext 0#64 (Nat.zero_mod _) hfree
    obtain ⟨o, ho, hlast', hnew, -⟩ := lastAlloc_of_run hg hA.valid hnext
    have hzero : hf'.counters.lastAlloc .node = 0#64 := BitVec.le_zero_iff.mp hle
    have hone : (hf.counters.lastAlloc .node).toNat = 1 := by
      rw [show hf.counters.lastAlloc .node = 1#64 from hlast]
      rfl
    rw [hlast'] at hzero
    cases o with
    | some y =>
        have hy : 1 ≤ y.toNat := hone ▸ ho.2.2.2.1
        rw [show y = 0#64 from hzero] at hy
        exact absurd hy (by decide)
    | none =>
        have hend := hA.valid.toNat_endId .node
        rw [show (Store.of hf).endId .node = 0#64 from hzero, hpages] at hend
        exact absurd hend (by decide)
  · exact hroom hmax

end HeapFile

end Goedb
