import Goedb.Access.StoreSpecs

/-!
# Access — listing the records

`get_nodes` and `get_relationships` visit the slots of a file in ascending order and read the
records they find, so they return every record that lives, once and in the order of the ids
(`Store.run_getNodes`, `Store.run_getRelationships`).
-/

namespace Goedb

open Lib

namespace Store

variable {s : Store} {ft : FileType}

/-- The ids of the records that live in the `m` places of a record from slot `k` on. -/
def liveFrom (s : Store) (ft : FileType) (k m : ℕ) : List Ulong :=
  ((List.range' k m (numSlotsPer ft)).map (BitVec.ofNat 64)).filter (s.Live ft ·)

/-- The ids of the records that live, in ascending order. -/
def liveIds (s : Store) (ft : FileType) : List Ulong :=
  s.liveFrom ft 0 (s.pages ft * 256 / numSlotsPer ft)

/-- A scan returns the records under their ids. -/
@[simp] theorem map_id_nodeAt (l : List Ulong) : (l.map s.nodeAt).map Node.id = l := by
  rw [List.map_map]
  exact List.map_id l

@[simp] theorem map_id_relAt (l : List Ulong) : (l.map s.relAt).map Relationship.id = l := by
  rw [List.map_map]
  exact List.map_id l

section Scan

variable {α : Type} {read : Ulong → HF α} {rd : Ulong → α}

theorem liveFrom_succ (k m : ℕ) : s.liveFrom ft k (m + 1) =
    (if s.Live ft (BitVec.ofNat 64 k) then [BitVec.ofNat 64 k] else []) ++
      s.liveFrom ft (k + numSlotsPer ft) m := by
  rw [liveFrom, List.range'_succ, List.map_cons, List.filter_cons]
  split
  · rename_i h
    rw [if_pos (of_decide_eq_true h)]
    rfl
  · rename_i h
    rw [if_neg (by simpa using h)]
    rfl

/-- The record of one slot. -/
theorem run_readIf (hread : ∀ id, s.Live ft id → run (read id) s = .ok (rd id, s)) (id : Ulong) :
    run (HF.readIf read id (decide (s.Live ft id))) s =
      .ok ((if s.Live ft id then [id] else []).map rd, s) := by
  by_cases hl : s.Live ft id
  · rw [run, HF.readIf, if_pos (decide_eq_true hl), Prog.run_bind_ok _ (hread id hl), if_pos hl]
    rfl
  · rw [run, HF.readIf, if_neg (by simpa using hl), if_neg hl]
    rfl

/-- The scan from slot `k` on, where `m + 1` records are left. -/
theorem run_scan (hv : s.Valid) (hread : ∀ id, s.Live ft id → run (read id) s = .ok (rd id, s))
    (m : ℕ) : ∀ {k fuel : ℕ}, k % numSlotsPer ft = 0 →
      k + (m + 1) * numSlotsPer ft = s.pages ft * 256 → m < fuel →
      run (HF.scan 4096 ft read fuel (BitVec.ofNat 64 k) (k / 256) (k % 256)) s =
        .ok ((s.liveFrom ft k (m + 1)).map rd, s) := by
  have hn := numSlotsPer_cases ft
  have hmax : s.pages ft < 2251799813685247 := by
    have := hv.pages_lt ft
    rwa [show maxPageNo 4096 = 2251799813685247 by decide] at this
  have hpages : run (Prog.perform (.numPages ft)) s = .ok (s.pages ft, s) := rfl
  induction m with
  | zero =>
      intro k fuel hk hend hf
      obtain ⟨fuel, rfl⟩ := Nat.exists_eq_succ_of_ne_zero (Nat.ne_of_gt hf)
      have hid : (BitVec.ofNat 64 k).toNat / 256 < s.pages ft := by
        rw [BitVec.toNat_ofNat, Nat.mod_eq_of_lt (by omega)]
        omega
      have hstop : ¬ (k + numSlotsPer ft) / 256 < s.pages ft := by omega
      rw [run, HF.scan, Prog.run_bind_ok _ (run_checkRecordExists hv hid),
        Prog.run_bind_ok _ (run_readIf hread _), nextSlot_eq hn hk, Prog.run_bind_ok _ hpages,
        if_neg hstop, liveFrom_succ]
      simp [liveFrom]
  | succ m ih =>
      intro k fuel hk hend hf
      obtain ⟨fuel, rfl⟩ := Nat.exists_eq_succ_of_ne_zero (Nat.ne_of_gt (Nat.zero_lt_of_lt hf))
      have hnext : (k + numSlotsPer ft) / 256 < s.pages ft := by
        rcases hn with hn | hn <;> rw [hn] at hend ⊢ <;> omega
      have hid : (BitVec.ofNat 64 k).toNat / 256 < s.pages ft := by
        rw [BitVec.toNat_ofNat, Nat.mod_eq_of_lt (by omega)]
        omega
      have hk' : (k + numSlotsPer ft) % numSlotsPer ft = 0 := by rw [Nat.add_mod_right, hk]
      have hend' : k + numSlotsPer ft + (m + 1) * numSlotsPer ft = s.pages ft * 256 := by
        rw [← hend]
        ring
      have hrest := ih hk' hend' (Nat.lt_of_succ_lt_succ hf)
      rw [run, HF.scan, Prog.run_bind_ok _ (run_checkRecordExists hv hid),
        Prog.run_bind_ok _ (run_readIf hread _), nextSlot_eq hn hk, Prog.run_bind_ok _ hpages,
        if_pos hnext, recordId_eq (by omega), Prog.run_bind_ok _ hrest, liveFrom_succ k (m + 1),
        List.map_append]
      rfl

/-- The scan of a whole file.  It looks at the first slot even if there are no pages. -/
theorem run_scan_all (hv : s.Valid)
    (hread : ∀ id, s.Live ft id → run (read id) s = .ok (rd id, s)) {fuel : ℕ}
    (hf : s.pages ft * 256 < fuel) :
    run (HF.scan 4096 ft read fuel 0#64 0 0) s = .ok ((s.liveIds ft).map rd, s) := by
  have hn := numSlotsPer_cases ft
  by_cases hp : s.pages ft = 0
  · obtain ⟨fuel, rfl⟩ := Nat.exists_eq_succ_of_ne_zero (Nat.ne_of_gt (Nat.zero_lt_of_lt hf))
    have hl : ¬ s.Live ft 0#64 := by
      rintro ⟨-, h, -⟩
      rw [hp] at h
      exact Nat.not_lt_zero _ h
    have hbit : s.HasBit ft (0#64).toNat := Nat.lt_of_lt_of_le Nat.one_pos (Nat.le_max_left ..)
    have hused : s.isUsed ft 0#64 = decide (s.Live ft 0#64) := by
      rw [Bool.eq_iff_iff, decide_eq_true_iff]
      exact ⟨hv.live_of_isUsed (Nat.zero_mod _), fun h => h.2.2⟩
    have hcheck : run (HF.checkRecordExists ft 0#64) s = .ok (decide (s.Live ft 0#64), s) := by
      rw [HF.checkRecordExists, run, Prog.run_perform, step, if_neg (by simp), if_pos hbit, hused]
    have hpages : run (Prog.perform (.numPages ft)) s = .ok (s.pages ft, s) := rfl
    rw [run, HF.scan, Prog.run_bind_ok _ hcheck, Prog.run_bind_ok _ (run_readIf hread _),
      Prog.run_bind_ok _ hpages, hp, if_neg (Nat.not_lt_zero _), if_neg hl, liveIds, hp]
    simp [liveFrom]
  · obtain ⟨m, hm⟩ : ∃ m, s.pages ft * 256 / numSlotsPer ft = m + 1 :=
      Nat.exists_eq_succ_of_ne_zero (by rcases hn with hn | hn <;> rw [hn] <;> omega)
    have hend : 0 + (m + 1) * numSlotsPer ft = s.pages ft * 256 := by
      rw [← hm]
      rcases hn with hn | hn <;> rw [hn] <;> omega
    have hlen : m < fuel := by
      rcases hn with hn | hn <;> rw [hn] at hm <;> omega
    rw [liveIds, hm]
    exact run_scan hv hread m (Nat.zero_mod _) hend hlen

end Scan

/-! ### The ids of the records -/

theorem mem_liveIds {x : Ulong} : x ∈ s.liveIds ft ↔ s.Live ft x := by
  have hn := numSlotsPer_cases ft
  rw [liveIds, liveFrom, List.mem_filter, decide_eq_true_iff]
  refine ⟨And.right, fun hl => ⟨?_, hl⟩⟩
  obtain ⟨ha, hp, -⟩ := hl
  refine List.mem_map.mpr ⟨x.toNat, ?_, by simp⟩
  rw [List.mem_range']
  refine ⟨x.toNat / numSlotsPer ft, ?_, ?_⟩
  · rcases hn with hn | hn <;> rw [hn] at ha ⊢ <;> omega
  · rcases hn with hn | hn <;> rw [hn] at ha ⊢ <;> omega

/-- The ids ascend, so none is listed twice. -/
theorem pairwise_liveIds (hv : s.Valid) :
    (s.liveIds ft).Pairwise fun a b => a.toNat < b.toNat := by
  have hn := numSlotsPer_cases ft
  have hmax : s.pages ft < 2251799813685247 := by
    have := hv.pages_lt ft
    rwa [show maxPageNo 4096 = 2251799813685247 by decide] at this
  refine List.Pairwise.filter _ (List.pairwise_map.mpr ?_)
  refine List.Pairwise.imp_of_mem (fun {a b} ha hb hab => ?_)
    (List.pairwise_lt_range' _ (by omega))
  have hlt : ∀ {a}, a ∈ List.range' 0 (s.pages ft * 256 / numSlotsPer ft) (numSlotsPer ft) →
      a < 2 ^ 64 := by
    intro a ha
    obtain ⟨i, hi, rfl⟩ := List.mem_range'.mp ha
    rcases hn with hn | hn <;> rw [hn] at hi ⊢ <;> omega
  rw [BitVec.toNat_ofNat, BitVec.toNat_ofNat, Nat.mod_eq_of_lt (hlt ha), Nat.mod_eq_of_lt (hlt hb)]
  exact hab

theorem nodup_liveIds (hv : s.Valid) : (s.liveIds ft).Nodup :=
  (pairwise_liveIds hv).imp fun h e => Nat.ne_of_lt h (congrArg BitVec.toNat e)

/-- There are no more records than slots. -/
theorem length_liveIds_le (s : Store) (ft : FileType) : (s.liveIds ft).length ≤ s.pages ft * 256 := by
  refine (List.length_filter_le _ _).trans ?_
  rw [List.length_map, List.length_range']
  exact Nat.div_le_self ..

/-- No cycle is longer than the file of the relationships. -/
theorem walk_length_le {n first : Ulong} {l : List Ulong} (hw : s.graph.Walk n first l) :
    l.length ≤ s.pages .relationship * 256 := by
  have hsub : l ⊆ s.liveIds .relationship := by
    intro x hx
    obtain ⟨r, hr, -⟩ := (hw.mem x).mp hx
    exact mem_liveIds.mpr (rel_eq_some.mp hr).1
  exact (hw.nodup.subperm hsub).length_le.trans (s.length_liveIds_le _)

/-! ### The two functions -/

theorem run_readNodeInternal_false (hv : s.Valid) {id : Ulong} (hl : s.Live .node id) :
    run (HF.readNodeInternal id false) s = .ok (s.nodeAt id, s) := by
  rw [run, HF.readNodeInternal, if_neg (hv.ne_uninitialized hl.2.1)]
  show run (Prog.perform (.readNode id)) s = _
  rw [run, Prog.run_perform, step, if_pos hl.2.1]

theorem run_readRelationshipInternal_false (hv : s.Valid) {id : Ulong}
    (hl : s.Live .relationship id) :
    run (HF.readRelationshipInternal id false) s = .ok (s.relAt id, s) := by
  have ha : id.toNat % 4 = 0 := hl.1
  rw [run, HF.readRelationshipInternal, if_neg (hv.ne_uninitialized hl.2.1)]
  show run (Prog.perform (.readRelationship id)) s = _
  rw [run, Prog.run_perform, step, if_pos ⟨hl.2.1, by omega⟩]

/-- **`get_nodes`** returns the nodes that live, in the order of their ids. -/
theorem run_getNodes (hv : s.Valid) {fuel : ℕ} (hf : s.pages .node * 256 < fuel) :
    run (HF.getNodes 4096 fuel) s = .ok ((s.liveIds .node).map s.nodeAt, s) :=
  run_scan_all hv (fun _ hl => run_readNodeInternal_false hv hl) hf

/-- **`get_relationships`** returns the relationships that live, in the order of their ids. -/
theorem run_getRelationships (hv : s.Valid) {fuel : ℕ} (hf : s.pages .relationship * 256 < fuel) :
    run (HF.getRelationships 4096 fuel) s = .ok ((s.liveIds .relationship).map s.relAt, s) :=
  run_scan_all hv (fun _ hl => run_readRelationshipInternal_false hv hl) hf

end Store

end Goedb
