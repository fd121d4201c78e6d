import Goedb.Access.Durability
import Goedb.Access.SpareHeader
import Goedb.Order.Layout

/-!
# Order — the ids of the temporary database

The `*_by_sequence` functions take the new ids from a temporary database.  With a page cache of at
least one frame it hands out the ids of the first slots, one record after the other (`tempIds_ok`),
whether its header file was grown before or not.
-/

namespace Goedb

open Lib

open Prog (Always)

namespace Store

variable {s s' : Store} {ft : FileType} {fuel : ℕ}

/-- `next_free_slots` on records without gaps. -/
theorem run_nextFreeSlots_dense {k : ℕ} (hv : s.Valid) (hd : s.Dense ft k)
    (hk : k * numSlotsPer ft < 256 * (maxPageNo 4096 - 1)) (hfuel : maxPageNo 4096 * 256 ≤ fuel) :
    ∃ s', run (HF.nextFreeSlots 4096 fuel ft) s = .ok ((), s') ∧ s'.Valid ∧ s'.Dense ft (k + 1) ∧
      s'.counters.lastAlloc ft = BitVec.ofNat 64 (k * numSlotsPer ft) := by
  rcases run_nextFreeSlots hv fuel ft with ⟨e, -, hE⟩ | ⟨o, s', hr, ho, hA⟩
  · exact absurd hE (hd.not_noSlot hv hk hfuel)
  · have hC : Created s ft (o.getD (s.endId ft)) id s' := ⟨⟨s', hA, rfl, rfl, rfl⟩, o, ho, rfl⟩
    refine ⟨s', hr, hC.valid fun _ => rfl, hd.created hv hC fun _ => rfl, ?_⟩
    rw [← hd.toNat_new hv hC, BitVec.ofNat_toNat, BitVec.setWidth_eq, hA.counters]
    cases ft <;> rfl

/-- The ids of `n` records that come after `k` others. -/
def idsFrom (ft : FileType) (k n : ℕ) : List Ulong :=
  (List.range' k n).map fun i => BitVec.ofNat 64 (i * numSlotsPer ft)

theorem run_takeSlots (hfuel : maxPageNo 4096 * 256 ≤ fuel) (n : ℕ) :
    ∀ {s : Store} {k : ℕ}, s.Valid → s.Dense ft k →
      (k + n) * numSlotsPer ft ≤ 256 * (maxPageNo 4096 - 1) →
      ∃ s', run (HF.takeSlots 4096 fuel ft n) s = .ok (idsFrom ft k n, s') := by
  have hpos : 0 < numSlotsPer ft := by cases ft <;> decide
  induction n with
  | zero => exact fun {s k} _ _ _ => ⟨s, rfl⟩
  | succ n ih =>
      intro s k hv hd hroom
      have hk : k * numSlotsPer ft < 256 * (maxPageNo 4096 - 1) :=
        Nat.lt_of_lt_of_le (Nat.mul_lt_mul_of_pos_right (by omega) hpos) hroom
      obtain ⟨s₁, h₁, hv₁, hd₁, hlast⟩ := run_nextFreeSlots_dense hv hd hk hfuel
      obtain ⟨s₂, h₂⟩ := ih hv₁ hd₁ (by rwa [Nat.add_assoc, Nat.add_comm 1])
      have hget : run (Prog.perform .getCounters) s₁ = .ok (s₁.counters, s₁) := rfl
      refine ⟨s₂, ?_⟩
      rw [run, HF.takeSlots, Prog.run_bind_ok _ h₁, Prog.run_bind_ok _ hget, Prog.run_bind_ok _ h₂,
        hlast]
      rfl

end Store

namespace HeapFile

open PageCache

theorem tidy_takeSlots (fuel : ℕ) (ft : FileType) (n : ℕ) :
    Tidy (HF.takeSlots 4096 fuel ft n) := by
  have hnext : Tidy (HF.nextFreeSlots 4096 fuel ft) := by
    intro s hv
    refine ⟨meets_nextFreeSlots hv fuel ft, fun u s' h => ?_⟩
    rcases Store.run_nextFreeSlots hv fuel ft with ⟨e, he, -⟩ | ⟨o, s₁, hr, ho, hA⟩
    · rw [h] at he
      cases he
    · rw [h] at hr
      cases hr
      have hC : Store.Created s ft (o.getD (s.endId ft)) id s' := ⟨⟨s', hA, rfl, rfl, rfl⟩, o, ho, rfl⟩
      exact hC.valid fun _ => rfl
  have hget : Tidy (Prog.perform .getCounters : HF Counters) := by
    intro s hv
    refine ⟨(Always.perform.mpr trivial).meets s, fun c s' h => ?_⟩
    cases h
    exact hv
  induction n with
  | zero => exact .pure _
  | succ n ih => exact .bind hnext fun _ => .bind hget fun _ => .bind ih fun _ => .pure _

end HeapFile

open PhyDatabase (Padded) in
/-- **The temporary database** numbers its records, if its page cache has a frame. -/
theorem tempIds_ok {fuel nPages n k : ℕ} {ft : FileType}
    {prepare : PhyDatabase → Except Fault PhyDatabase} {db : PhyDatabase} (hpages : 1 ≤ nPages)
    (hprepare : prepare (.fresh 4096) = .ok db) (hpad : Padded k db (.fresh 4096)) (hk : k ≤ 2 ^ 50)
    (hn : n * numSlotsPer ft ≤ 256 * (maxPageNo 4096 - 1)) (hfuel : maxPageNo 4096 * 256 ≤ fuel) :
    tempIds 4096 fuel ft prepare nPages n = .ok (Store.idsFrom ft 0 n) := by
  have hpos : 0 < fuel := Nat.lt_of_lt_of_le (by decide) hfuel
  have hdb := PhyDatabase.create_eq isPageSize_4096
  obtain ⟨pc, hpc, -⟩ := PageCache.emptyFrames_ok 4096 db nPages false
  have hpc : PageCache.create db nPages = .ok pc := hpc
  have hempty : Store.of ⟨.fresh 4096, Store.empty.counters⟩ = Store.empty := HeapFile.of_fresh
  have hv : Store.empty.Valid := Store.empty_wellFormed.valid
  -- `heap_file_create` counts no records, and the slots are taken one after the other
  have hcount : Store.run (HF.countRecords 4096 fuel) Store.empty = .ok ((), Store.empty.recounted) :=
    Store.run_countRecords hv rfl fun gt => (Nat.zero_mul 256).trans_lt hpos
  obtain ⟨s', htake⟩ := Store.run_takeSlots hfuel n (Store.recounted_counted hv).valid
    (Store.dense_recounted ft) (by rwa [Nat.zero_add])
  have hspare : HeapFile.CachedSpare k ⟨pc, Store.empty.counters⟩ Store.empty :=
    ⟨db, _, PageCache.create_quietAs hpages hpc, hpad, PhyDatabase.fresh_accounts isPageSize_4096,
      hempty⟩
  obtain ⟨hf, hrun, hspare'⟩ :=
    HeapFile.run_covered hk hspare (HeapFile.meets_countRecords fuel _) _ _ hcount
  obtain ⟨hf', hrun', db', -, hq, -⟩ := HeapFile.run_covered hk hspare'
    (HeapFile.tidy_takeSlots fuel ft n _ (Store.recounted_counted hv).valid).1 _ _ htake
  have hcreate : HeapFile.create 4096 fuel (PageCache.handler 4096) pc = .ok hf := by
    rw [HeapFile.create]
    show (HeapFile.runCached (HF.countRecords 4096 fuel) ⟨pc, Store.empty.counters⟩ >>= _) = _
    rw [hrun]
    rfl
  rw [tempIds, hdb, ok_bind, hprepare, ok_bind, hpc, ok_bind, hcreate, ok_bind,
    show Prog.run (HeapFile.step 4096 (PageCache.handler 4096)) (HF.takeSlots 4096 fuel ft n) hf =
      _ from hrun', ok_bind]
  simp only [hq.destroy, ok_bind]
  rfl

/-- Without a frame `heap_file_create` finds no page to evict when it looks for the first node. -/
theorem tempIds_no_frame (fuel n : ℕ) : tempIds 4096 (fuel + 1) .node .ok 0 n = .error (.exit
    "page cache - evict: could not find a page to evict, as all pages are pinned!") :=
  rfl

end Goedb
