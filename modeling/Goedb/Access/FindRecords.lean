import Goedb.Access.Scanning

/-!
# Access — finding a record by its label

`find_node` and `find_relationships` visit the slots as `get_nodes` does, and stop at the first record
with the label.  A label that no record has ends the program.

So they return the record of the lowest id among those that have the label (`Store.run_findNode`,
`Store.run_findRelationships`).
-/

namespace Goedb

open Lib

namespace HF

/-- The loop of the two functions: the first record from the slot on that has the label. -/
def find {α : Type} (P : ℕ) (ft : FileType) (read : Ulong → HF α) (labelOf : α → Ulong)
    (label : Ulong) (msg : String) : (fuel : ℕ) → (curId : Ulong) → (page slot : ℕ) → HF α
  | 0, _, _, _ => abort .diverge
  | fuel + 1, curId, page, slot => do
      let found ← checkRecordExists ft curId
      let here ← readIf read curId found
      match here.find? (label = labelOf ·) with
      | some r => return r
      | none => do
          let (page, slot) := nextSlot P (numSlotsPer ft) page slot
          let numPages ← Prog.perform (.numPages ft)
          if page < numPages then find P ft read labelOf label msg fuel (recordId page slot) page slot
          else exit (msg ++ toString label.toNat ++ " in database!")

/-- `find_node`. -/
def findNode (P fuel : ℕ) (label : Ulong) : HF Node :=
  find P .node (readNodeInternal · false) Node.label label
    "heap file - find node: No node with label " fuel 0#64 0 0

/-- `find_relationships`. -/
def findRelationships (P fuel : ℕ) (label : Ulong) : HF Relationship :=
  find P .relationship (readRelationshipInternal · false) Relationship.label label
    "heap file - find relationship: No relationship with label " fuel 0#64 0 0

end HF

namespace Store

variable {s : Store} {ft : FileType}

section Find

variable {α : Type} {read : Ulong → HF α} {rd : Ulong → α} {labelOf : α → Ulong} {label : Ulong}
  {msg : String}

/-- The outcome of a search among the records of a list. -/
def found (s : Store) (labelOf : α → Ulong) (label : Ulong) (msg : String) (rs : List α) :
    Except Fault (α × Store) :=
  match rs.find? (label = labelOf ·) with
  | some r => .ok (r, s)
  | none => .error (.exit (msg ++ toString label.toNat ++ " in database!"))

theorem found_append {r : List α} (rs : List α) (h : r.find? (label = labelOf ·) = none) :
    s.found labelOf label msg (r ++ rs) = s.found labelOf label msg rs := by
  rw [found, List.find?_append, h, Option.none_or]
  rfl

theorem found_of_find {r : List α} {a : α} (rs : List α)
    (h : r.find? (label = labelOf ·) = some a) :
    s.found labelOf label msg (r ++ rs) = .ok (a, s) := by
  rw [found, List.find?_append, h]
  rfl

/-- One turn of the loop. -/
theorem run_find_turn {id : Ulong} {fuel page slot : ℕ}
    (hread : ∀ id, s.Live ft id → run (read id) s = .ok (rd id, s))
    (hcheck : run (HF.checkRecordExists ft id) s = .ok (decide (s.Live ft id), s)) {rest : List Ulong}
    (hnext : let next := HF.nextSlot 4096 (numSlotsPer ft) page slot
      run (if next.1 < s.pages ft then
          HF.find 4096 ft read labelOf label msg fuel (HF.recordId next.1 next.2) next.1 next.2
        else HF.exit (msg ++ toString label.toNat ++ " in database!")) s =
        s.found labelOf label msg (rest.map rd)) :
    run (HF.find 4096 ft read labelOf label msg (fuel + 1) id page slot) s =
      s.found labelOf label msg (((if s.Live ft id then [id] else []) ++ rest).map rd) := by
  have hpages : run (Prog.perform (.numPages ft)) s = .ok (s.pages ft, s) := rfl
  rw [run, HF.find, Prog.run_bind_ok _ hcheck, Prog.run_bind_ok _ (run_readIf hread id),
    List.map_append]
  cases hfind : ((if s.Live ft id then [id] else []).map rd).find? (label = labelOf ·) with
  | some r =>
      rw [found_of_find _ hfind]
      rfl
  | none =>
      rw [found_append _ hfind, ← hnext]
      exact Prog.run_bind_ok _ hpages _

/-- The search from slot `k` on, where `m + 1` records are left. -/
theorem run_find (hv : s.Valid) (hread : ∀ id, s.Live ft id → run (read id) s = .ok (rd id, s))
    (m : ℕ) : ∀ {k fuel : ℕ}, k % numSlotsPer ft = 0 →
      k + (m + 1) * numSlotsPer ft = s.pages ft * 256 → m < fuel →
      run (HF.find 4096 ft read labelOf label msg fuel (BitVec.ofNat 64 k) (k / 256) (k % 256)) s =
        s.found labelOf label msg ((s.liveFrom ft k (m + 1)).map rd) := by
  have hn := numSlotsPer_cases ft
  have hmax : s.pages ft < 2251799813685247 := by
    have := hv.pages_lt ft
    rwa [show maxPageNo 4096 = 2251799813685247 by decide] at this
  induction m with
  | zero =>
      intro k fuel hk hend hf
      obtain ⟨fuel, rfl⟩ := Nat.exists_eq_succ_of_ne_zero (Nat.ne_of_gt hf)
      have hid : (BitVec.ofNat 64 k).toNat / 256 < s.pages ft := by
        rw [BitVec.toNat_ofNat, Nat.mod_eq_of_lt (by omega)]
        omega
      have hstop : ¬ (k + numSlotsPer ft) / 256 < s.pages ft := by omega
      rw [liveFrom_succ, show s.liveFrom ft (k + numSlotsPer ft) 0 = [] from rfl]
      refine run_find_turn hread (run_checkRecordExists hv hid) ?_
      simp only [nextSlot_eq hn hk, if_neg hstop]
      rfl
  | succ m ih =>
      intro k fuel hk hend hf
      obtain ⟨fuel, rfl⟩ := Nat.exists_eq_succ_of_ne_zero (Nat.ne_of_gt (Nat.zero_lt_of_lt hf))
      have hnext : (k + numSlotsPer ft) / 256 < s.pages ft := by
        rcases hn with hn | hn <;> rw [hn] at hend ⊢ <;> omega
      have hid : (BitVec.ofNat 64 k).toNat / 256 < s.pages ft := by
        rw [BitVec.toNat_ofNat, Nat.mod_eq_of_lt (by omega)]
        omega
      have hk' : (k + numSlotsPer ft) % numSlotsPer ft = 0 := by rw [Nat.add_mod_right, hk]
      have hend' : k + numSlotsPer ft + (m + 1) * numSlotsPer ft = s.pages ft * 256 := by
        rw [← hend]
        ring
      rw [liveFrom_succ k (m + 1)]
      refine run_find_turn hread (run_checkRecordExists hv hid) ?_
      simp only [nextSlot_eq hn hk, if_pos hnext]
      rw [recordId_eq (by omega)]
      exact ih hk' hend' (Nat.lt_of_succ_lt_succ hf)

/-- The first slot is looked at even if there are no pages. -/
theorem run_checkFirst (hv : s.Valid) :
    run (HF.checkRecordExists ft 0#64) s = .ok (decide (s.Live ft 0#64), s) := by
  have hbit : s.HasBit ft (0#64).toNat := Nat.lt_of_lt_of_le Nat.one_pos (Nat.le_max_left ..)
  have hused : s.isUsed ft 0#64 = decide (s.Live ft 0#64) := by
    rw [Bool.eq_iff_iff, decide_eq_true_iff]
    exact ⟨hv.live_of_isUsed (Nat.zero_mod _), fun h => h.2.2⟩
  rw [HF.checkRecordExists, run, Prog.run_perform, step, if_neg (by simp), if_pos hbit, hused]

/-- The search of a whole file. -/
theorem run_find_all (hv : s.Valid)
    (hread : ∀ id, s.Live ft id → run (read id) s = .ok (rd id, s)) {fuel : ℕ}
    (hf : s.pages ft * 256 < fuel) :
    run (HF.find 4096 ft read labelOf label msg fuel 0#64 0 0) s =
      s.found labelOf label msg ((s.liveIds ft).map rd) := by
  have hn := numSlotsPer_cases ft
  by_cases hp : s.pages ft = 0
  · obtain ⟨fuel, rfl⟩ := Nat.exists_eq_succ_of_ne_zero (Nat.ne_of_gt (Nat.zero_lt_of_lt hf))
    have hl : ¬ s.Live ft 0#64 := by
      rintro ⟨-, h, -⟩
      rw [hp] at h
      exact Nat.not_lt_zero _ h
    have hnil : s.liveIds ft = (if s.Live ft 0#64 then [0#64] else []) ++ [] := by
      rw [if_neg hl, liveIds, hp]
      simp [liveFrom]
    rw [hnil]
    refine run_find_turn hread (run_checkFirst hv) ?_
    simp only [hp, if_neg (Nat.not_lt_zero _)]
    rfl
  · obtain ⟨m, hm⟩ : ∃ m, s.pages ft * 256 / numSlotsPer ft = m + 1 :=
      Nat.exists_eq_succ_of_ne_zero (by rcases hn with hn | hn <;> rw [hn] <;> omega)
    have hend : 0 + (m + 1) * numSlotsPer ft = s.pages ft * 256 := by
      rw [← hm]
      rcases hn with hn | hn <;> rw [hn] <;> omega
    have hlen : m < fuel := by
      rcases hn with hn | hn <;> rw [hn] at hm <;> omega
    rw [liveIds, hm]
    exact run_find hv hread m (Nat.zero_mod _) hend hlen

end Find

/-! ### The two functions -/

/-- **`find_node`** returns the first of the nodes that live. -/
theorem run_findNode (hv : s.Valid) {fuel : ℕ} (hf : s.pages .node * 256 < fuel) (label : Ulong) :
    run (HF.findNode 4096 fuel label) s = s.found Node.label label
      "heap file - find node: No node with label " ((s.liveIds .node).map s.nodeAt) :=
  run_find_all hv (fun _ hl => run_readNodeInternal_false hv hl) hf

/-- **`find_relationships`** returns the first of the relationships that live. -/
theorem run_findRelationships (hv : s.Valid) {fuel : ℕ} (hf : s.pages .relationship * 256 < fuel)
    (label : Ulong) :
    run (HF.findRelationships 4096 fuel label) s = s.found Relationship.label label
      "heap file - find relationship: No relationship with label "
      ((s.liveIds .relationship).map s.relAt) :=
  run_find_all hv (fun _ hl => run_readRelationshipInternal_false hv hl) hf

end Store

end Goedb
