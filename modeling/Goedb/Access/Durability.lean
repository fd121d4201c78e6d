import Goedb.Access.Agreement
import Goedb.Access.CachedHeapFile
import Goedb.Lib.Steps
import Goedb.Order.SlotAccounting

/-!
# Access — durability

A database is shut down and opened again: the page cache writes its pages back and is destroyed, the
files are closed, opened and checked, and a heap file is created over a new page cache, with any
number of frames.  The new heap file counts the records anew and starts to look for free slots at the
first one.

Whatever was created and updated before is there again, with the same numbers of records, and slots in
use are not handed out a second time (`HeapFile.Durable`).
-/

namespace Goedb

open Lib

open Prog (Follows Always)

/-- A call of one of the functions that create and update records. -/
inductive Write where
  | createNode (label : Ulong)
  | createRelationship (fromId toId : Ulong) (weight : Double) (label : Ulong)
  | updateNode (node : Node)
  | updateRelationship (rel : Relationship)
  deriving DecidableEq, Repr

namespace HF

/-- The call, without the id that it returns. -/
def write (P fuel : ℕ) : Write → HF Unit
  | .createNode label => do
      let _ ← createNode P fuel label
      return ()
  | .createRelationship fromId toId weight label => do
      let _ ← createRelationship P fuel fromId toId weight label
      return ()
  | .updateNode node => updateNode node
  | .updateRelationship rel => updateRelationship rel

/-- One call after the other. -/
def writes (P fuel : ℕ) : List Write → HF Unit
  | [] => pure ()
  | w :: ws => do
      write P fuel w
      writes P fuel ws

end HF

/-- `heap_file_destroy`, `page_cache_destroy` and `phy_database_close`, then `phy_database_open`,
`page_cache_create` and `heap_file_create`. -/
def HeapFile.reopen (P fuel nFrames : ℕ) (hf : HeapFile PageCache) :
    Except Fault (HeapFile PageCache) := do
  let db ← hf.cache.destroy P
  let db ← PhyDatabase.openFiles P (some db.close)
  let pc ← PageCache.create db nFrames
  HeapFile.create P fuel (PageCache.handler P) pc

/-! ### The store -/

namespace Store

variable {s s' : Store} {fuel : ℕ}

/-- The store with the counters of `heap_file_create`. -/
def recounted (s : Store) : Store :=
  s.setCounters
    { nNodes := BitVec.ofNat 64 (s.liveIds .node).length
      nRels := BitVec.ofNat 64 (s.liveIds .relationship).length
      lastAllocNodeId := 0
      lastAllocRelId := 0
      log := [] }

theorem recounted_counted (hv : s.Valid) : s.recounted.Counted where
  valid := ⟨hv.pages_lt, hv.bit_beyond, rfl⟩
  number ft := by cases ft <;> rfl

/-- A new database has no records. -/
theorem dense_recounted (ft : FileType) : empty.recounted.Dense ft 0 where
  live := (dense_empty ft).live
  last := by cases ft <;> exact Nat.le_of_eq rfl
  fits := (dense_empty ft).fits

/-- `heap_file_create` counts the records. -/
theorem run_countRecords (hv : s.Valid)
    (hc : s.counters = ⟨0, 0, 0, 0, []⟩) (hf : ∀ ft, s.pages ft * 256 < fuel) :
    run (HF.countRecords 4096 fuel) s = .ok ((), s.recounted) := by
  set s₁ := s.setCounters
    { s.counters with nNodes := BitVec.ofNat 64 ((s.liveIds .node).map s.nodeAt).length } with hs₁
  have hv₁ : s₁.Valid := ⟨hv.pages_lt, hv.bit_beyond, hv.aligned⟩
  have hrels := run_getRelationships hv₁ (hf .relationship)
  rw [run, HF.countRecords, Prog.run_bind_ok _ (run_getNodes hv (hf .node)),
    Prog.run_bind_ok _ (run_modifyCounters _ s), ← hs₁, Prog.run_bind_ok _ hrels]
  refine (run_modifyCounters _ _).trans ?_
  simp only [hs₁, recounted, setCounters, hc, List.length_map]
  rfl

/-- One call keeps the counters right. -/
theorem Counted.write (h : s.Counted) {w : Write}
    (hr : run (HF.write 4096 fuel w) s = .ok ((), s')) : s'.Counted := by
  cases w with
  | createNode label =>
      obtain ⟨id, s₁, h₁, hr⟩ := Prog.run_bind_inv _ hr
      cases hr
      exact h.createNode h₁
  | createRelationship fromId toId weight label =>
      obtain ⟨id, s₁, h₁, hr⟩ := Prog.run_bind_inv _ hr
      cases hr
      exact h.createRelationship h₁
  | updateNode nd =>
      exact h.sameSlots (keepsSlots (RecordOp.OnWords.updateNodeInternal nd true) _ _ _ hr)
  | updateRelationship r =>
      exact h.sameSlots (keepsSlots (RecordOp.OnWords.updateRelationshipInternal r true) _ _ _ hr)

/-- A function that reads does not look at the counters. -/
theorem run_reads {α : Type} {x : HF α} (hx : Always RecordOp.Reads x) (c : Counters) :
    Follows (fun t t' => t = s ∧ t' = s.setCounters c) (run x s) (run x (s.setCounters c)) := by
  refine Prog.run_follows (fun β op t t' hop h => ?_) x ⟨rfl, rfl⟩ (hx.meets _)
  obtain ⟨rfl, rfl⟩ := h
  cases op with
  | numPages ft => exact .ok _ ⟨rfl, rfl⟩
  | checkRecordExists ft id =>
      exact .cond (.ok _ ⟨rfl, rfl⟩) (.cond (.ok _ ⟨rfl, rfl⟩) (.error _ _))
  | readNode id => exact .cond (.ok _ ⟨rfl, rfl⟩) (.error _ _)
  | readRelationship id => exact .cond (.ok _ ⟨rfl, rfl⟩) (.error _ _)
  | stop f => exact .error f f
  | writeNode nd => exact hop.elim
  | writeRelationship r => exact hop.elim
  | setBits ft id used => exact hop.elim
  | newPage ft => exact hop.elim
  | getCounters => exact hop.elim
  | setCounters c => exact hop.elim

/-- The header of an empty file is empty. -/
theorem Valid.emptyHeader {db : PhyDatabase} {c : Counters} (hv : (of ⟨db, c⟩).Valid) :
    db.EmptyHeader 4096 := by
  intro ft h0 i hi
  refine BitVec.eq_of_getLsbD_eq fun j hj => ?_
  have hbit := hv.bit_beyond ft (8 * i + (7 - j)) (by
    show (db.records ft).numPages * 256 ≤ _
    rw [h0, Nat.zero_mul]
    exact Nat.zero_le _)
  simp only [of, pageBit] at hbit
  rw [show (8 * i + (7 - j)) / 32768 = 0 by omega, show (8 * i + (7 - j)) % 32768 / 8 = i by omega,
    show 7 - (8 * i + (7 - j)) % 32768 % 8 = j by omega] at hbit
  rw [hbit]
  simp

end Store

namespace HeapFile

open PageCache

variable {hf hf' : HeapFile PageCache} {s : Store} {α : Type}

/-- The heap file over the cache holds a store whose counters are right. -/
def Holds (hf : HeapFile PageCache) (s : Store) : Prop := Cached hf s ∧ s.Counted

theorem meets_countRecords (fuel : ℕ) (s : Store) :
    Prog.Meets Store.step AlignedOp (HF.countRecords 4096 fuel) s :=
  Always.meets (.bind (always_reads (RecordOp.Reads.getNodes 4096 fuel)) fun _ =>
    .bind (always_modifyCounters _) fun _ =>
    .bind (always_reads (RecordOp.Reads.getRelationships 4096 fuel)) fun _ =>
    always_modifyCounters _) _

/-- `heap_file_create` over the pages of a store. -/
theorem create_cached {pc : PageCache} {db : PhyDatabase} {c : Counters} (hq : QuietAs 4096 pc db)
    (fuel : ℕ) (hA : db.Accounts 4096) (hv : (Store.of ⟨db, c⟩).Valid)
    (hfuel : ∀ ft, (db.records ft).numPages * 256 < fuel) :
    ∃ hf, create 4096 fuel (handler 4096) pc = .ok hf ∧
      Holds hf (Store.of ⟨db, c⟩).recounted := by
  set c₀ : Counters := ⟨0, 0, 0, 0, []⟩
  have hv₀ : (Store.of ⟨db, c₀⟩).Valid := ⟨hv.pages_lt, hv.bit_beyond, rfl⟩
  have hcached : Cached ⟨pc, c₀⟩ (Store.of ⟨db, c₀⟩) := ⟨db, hq, hA, rfl⟩
  obtain ⟨hf, hrun, hc⟩ :=
    (run_cached hcached (meets_countRecords fuel _)).of_ok (Store.run_countRecords hv₀ rfl hfuel)
  refine ⟨hf, ?_, hc, Store.recounted_counted hv⟩
  rw [create]
  show (runCached (HF.countRecords 4096 fuel) ⟨pc, c₀⟩ >>= _) = _
  rw [hrun]
  rfl

/-- The pages that a heap file over the cache has. -/
def EnoughFuel (hf : HeapFile PageCache) (fuel : ℕ) : Prop :=
  ∀ ft, (hf.cache.pdb.records ft).numPages * 256 < fuel

/-- **Shut down and opened again**: the store is the same, but for the counters. -/
theorem reopen_holds {fuel : ℕ} (h : Holds hf s) {n : ℕ} (hn : 1 ≤ n) (hfuel : hf.EnoughFuel fuel) :
    ∃ hf', hf.reopen 4096 fuel n = .ok hf' ∧ Holds hf' s.recounted := by
  obtain ⟨⟨db, hq, hA, rfl⟩, hc⟩ := h
  obtain ⟨pc, hpc, -⟩ := emptyFrames_ok 4096 db n false
  obtain ⟨hf', hcreate, hh⟩ := create_cached (create_quietAs hn hpc) fuel hA hc.valid
    fun ft => by
      rw [show (db.records ft).numPages = _ from hq.2.numPages .records ft]
      exact hfuel ft
  refine ⟨hf', ?_, hh⟩
  rw [reopen, hq.destroy, ok_bind, PhyDatabase.openFiles_close isPageSize_4096 hA
    hc.valid.emptyHeader, ok_bind, show PageCache.create db n = .ok pc from hpc, ok_bind, hcreate]

theorem meets_write (hv : s.Valid) (fuel : ℕ) (w : Write) :
    Prog.Meets Store.step AlignedOp (HF.write 4096 fuel w) s := by
  cases w with
  | createNode label =>
      exact .bind (meets_createNode hv fuel label) fun _ s₁ _ => (Always.pure ()).meets s₁
  | createRelationship fromId toId weight label =>
      exact .bind (meets_createRelationship hv fuel fromId toId weight label) fun _ s₁ _ =>
        (Always.pure ()).meets s₁
  | updateNode nd =>
      exact (always_onWords (RecordOp.OnWords.updateNodeInternal nd true)).meets s
  | updateRelationship r =>
      exact (always_onWords (RecordOp.OnWords.updateRelationshipInternal r true)).meets s

theorem Holds.write (h : Holds hf s) {fuel : ℕ} {w : Write}
    (hr : runCached (HF.write 4096 fuel w) hf = .ok ((), hf')) : ∃ s', Holds hf' s' := by
  obtain ⟨s', hs, hc⟩ := (run_cached h.1 (meets_write h.2.valid fuel w)).inv hr
  exact ⟨s', hc, h.2.write hs⟩

theorem Holds.writes {fuel : ℕ} (ws : List Write) : ∀ {hf : HeapFile PageCache} {s : Store},
    Holds hf s → runCached (HF.writes 4096 fuel ws) hf = .ok ((), hf') → ∃ s', Holds hf' s' := by
  induction ws with
  | nil =>
      intro hf s h hr
      cases hr
      exact ⟨s, h⟩
  | cons w ws ih =>
      intro hf s h hr
      obtain ⟨u, hf₁, h₁, hr⟩ := Prog.run_bind_inv _ hr
      obtain ⟨s₁, hs₁⟩ := h.write h₁
      exact ih hs₁ hr

/-! ### What is promised of the new heap file -/

/-- The function returns the same on both heap files, or on none. -/
def SameAnswer (x : HF α) (hf hf' : HeapFile PageCache) : Prop :=
  ∀ a, (∃ hf₁, runCached x hf = .ok (a, hf₁)) ↔ ∃ hf₁, runCached x hf' = .ok (a, hf₁)

/-- The function returns the id of a record that does not exist yet. -/
def ReturnsFresh (ft : FileType) (x : HF Ulong) (hf : HeapFile PageCache) : Prop :=
  ∀ id hf₁, runCached x hf = .ok (id, hf₁) →
    ¬ ∃ hf₂, runCached (HF.checkRecordExists ft id) hf = .ok (true, hf₂)

/-- `hf'` has the records of `hf`, and no record that is created from there on, after any writes,
takes the place of one that exists. -/
structure Durable (hf hf' : HeapFile PageCache) : Prop where
  nNodes : hf'.counters.nNodes = hf.counters.nNodes
  nRels : hf'.counters.nRels = hf.counters.nRels
  getNodes : ∀ fuel, SameAnswer (HF.getNodes 4096 fuel) hf hf'
  getRelationships : ∀ fuel, SameAnswer (HF.getRelationships 4096 fuel) hf hf'
  readNode : ∀ id, SameAnswer (HF.readNode id) hf hf'
  readRelationship : ∀ id, SameAnswer (HF.readRelationship id) hf hf'
  expand : ∀ fuel id direction, SameAnswer (HF.expand fuel id direction) hf hf'
  createNode : ∀ fuel ws hf₁ label, runCached (HF.writes 4096 fuel ws) hf' = .ok ((), hf₁) →
    ReturnsFresh .node (HF.createNode 4096 fuel label) hf₁
  createRelationship : ∀ fuel ws hf₁ fromId toId weight label,
    runCached (HF.writes 4096 fuel ws) hf' = .ok ((), hf₁) →
    ReturnsFresh .relationship (HF.createRelationship 4096 fuel fromId toId weight label) hf₁

theorem sameAnswer_of_reads {x : HF α} (hx : Always RecordOp.Reads x) {c : Counters}
    (h : Cached hf s) (h' : Cached hf' (s.setCounters c)) : SameAnswer x hf hf' := by
  have hrun := run_cached h ((always_reads hx).meets s)
  have hrun' := run_cached h' ((always_reads hx).meets _)
  have hsame := Store.run_reads (s := s) hx c
  intro a
  constructor
  · rintro ⟨hf₁, h₁⟩
    obtain ⟨t, ht, -⟩ := hrun.inv h₁
    obtain ⟨t', ht', -⟩ := hsame.inv ht
    obtain ⟨hf₂, h₂, -⟩ := hrun'.of_ok ht'
    exact ⟨hf₂, h₂⟩
  · rintro ⟨hf₁, h₁⟩
    obtain ⟨t, ht, -⟩ := hrun'.inv h₁
    obtain ⟨t', ht', -⟩ := hsame.of_ok ht
    obtain ⟨hf₂, h₂, -⟩ := hrun.of_ok ht'
    exact ⟨hf₂, h₂⟩

theorem returnsFresh_of_created {ft : FileType} {x : HF Ulong} (h : Holds hf s)
    (hx : Prog.Meets Store.step AlignedOp x s)
    (hC : ∀ id s', Store.run x s = .ok (id, s') → ∃ count, Store.Created s ft id count s') :
    ReturnsFresh ft x hf := by
  rintro id hf₁ h₁ ⟨hf₂, h₂⟩
  obtain ⟨s₁, hs₁, -⟩ := (run_cached h.1 hx).inv h₁
  obtain ⟨count, hC⟩ := hC id s₁ hs₁
  have hcheck : Always AlignedOp (HF.checkRecordExists ft id) := Always.perform.mpr trivial
  obtain ⟨s₂, hs₂, -⟩ := (run_cached h.1 (hcheck.meets s)).inv h₂
  rw [HF.checkRecordExists, Store.run, Prog.run_perform, Store.step] at hs₂
  split at hs₂
  · cases hs₂
  · rename_i ha
    split at hs₂
    · exact hC.fresh (h.2.valid.live_of_isUsed (not_not.mp ha)
        (congrArg Prod.fst (Except.ok.inj hs₂)))
    · cases hs₂

/-- **The database is durable**: shut down and opened again, it has what it had. -/
theorem Holds.durable (h : Holds hf s) (h' : Holds hf' s.recounted) : Durable hf hf' := by
  have hcounters : ∀ {hf : HeapFile PageCache} {s : Store}, Cached hf s → hf.counters = s.counters := by
    rintro hf s ⟨db, -, -, rfl⟩
    rfl
  refine ⟨?_, ?_, fun fuel => sameAnswer_of_reads (RecordOp.Reads.getNodes 4096 fuel) h.1 h'.1,
    fun fuel => sameAnswer_of_reads (RecordOp.Reads.getRelationships 4096 fuel) h.1 h'.1,
    fun id => sameAnswer_of_reads (RecordOp.Reads.readNodeInternal id true) h.1 h'.1,
    fun id => sameAnswer_of_reads (RecordOp.Reads.readRelationshipInternal id true) h.1 h'.1,
    fun fuel id direction => sameAnswer_of_reads (RecordOp.Reads.expand fuel id direction) h.1 h'.1,
    fun fuel ws hf₁ label hr => ?_, fun fuel ws hf₁ fromId toId weight label hr => ?_⟩
  · rw [hcounters h.1, hcounters h'.1]
    exact (h.2.number .node).symm
  · rw [hcounters h.1, hcounters h'.1]
    exact (h.2.number .relationship).symm
  · obtain ⟨s₁, h₁⟩ := h'.writes ws hr
    exact returnsFresh_of_created h₁ (meets_createNode h₁.2.valid fuel label) fun id s₂ hs₂ =>
      ⟨_, Store.createNode_created h₁.2.valid hs₂⟩
  · obtain ⟨s₁, h₁⟩ := h'.writes ws hr
    exact returnsFresh_of_created h₁
      (meets_createRelationship h₁.2.valid fuel fromId toId weight label) fun id s₂ hs₂ =>
      ⟨_, Store.createRelationship_created h₁.2.valid hs₂⟩

/-! ### Runs -/

/-- A step in the life of a database: a write, or the database is shut down and opened again. -/
inductive LifeStep where
  | write (fuel : ℕ) (w : Write)
  | reopen (fuel nFrames : ℕ)

/-- What a step does to the heap file. -/
def exec : LifeStep → HeapFile PageCache → Except Fault (HeapFile PageCache)
  | .write fuel w, hf => do
      let (_, hf) ← runCached (HF.write 4096 fuel w) hf
      return hf
  | .reopen fuel nFrames, hf => hf.reopen 4096 fuel nFrames

/-- A new cache has at least one frame, and the loops of `heap_file_create` come to their end. -/
def Reopens (hf : HeapFile PageCache) : LifeStep → Prop
  | .write _ _ => True
  | .reopen fuel nFrames => 1 ≤ nFrames ∧ hf.EnoughFuel fuel

instance (hf : HeapFile PageCache) (fuel : ℕ) : Decidable (hf.EnoughFuel fuel) :=
  decidable_of_iff ((hf.cache.pdb.records .node).numPages * 256 < fuel ∧
      (hf.cache.pdb.records .relationship).numPages * 256 < fuel)
    ⟨fun h ft => by cases ft <;> simp [h], fun h => ⟨h .node, h .relationship⟩⟩

instance (hf : HeapFile PageCache) : ∀ step, Decidable (hf.Reopens step)
  | .write _ _ => isTrue trivial
  | .reopen _ _ => inferInstanceAs (Decidable (_ ∧ _))

theorem Holds.exec {step : LifeStep} (h : Holds hf s) (hs : hf.Reopens step)
    (he : HeapFile.exec step hf = .ok hf') : ∃ s', Holds hf' s' := by
  cases step with
  | write fuel w =>
      obtain ⟨⟨u, hf₁⟩, hr, he⟩ := bind_inv he
      cases he
      exact h.write hr
  | reopen fuel n =>
      obtain ⟨hf₁, hr, h₁⟩ := reopen_holds h hs.1 hs.2
      rw [HeapFile.exec, hr] at he
      cases he
      exact ⟨_, h₁⟩

/-- A heap file on a new database is empty. -/
theorem create_holds {fuel n : ℕ} {db : PhyDatabase} {pc : PageCache} (hn : 1 ≤ n)
    (hdb : PhyDatabase.create 4096 = .ok db) (hpc : PageCache.create db n = .ok pc)
    (hcreate : create 4096 fuel (handler 4096) pc = .ok hf) : Holds hf Store.empty.recounted := by
  rw [PhyDatabase.create_eq isPageSize_4096] at hdb
  cases hdb
  have hv : (Store.of fresh).Valid := by
    rw [of_fresh]
    exact Store.empty_wellFormed.valid
  rcases Nat.eq_zero_or_pos fuel with rfl | hpos
  · cases hcreate
  · obtain ⟨hf₁, h₁, hh⟩ := create_cached (c := Store.empty.counters) (create_quietAs hn hpc) fuel
      (PhyDatabase.fresh_accounts isPageSize_4096) hv fun ft => by
        rw [show ((PhyDatabase.fresh 4096).records ft).numPages = 0 from rfl, Nat.zero_mul]
        exact hpos
    rw [h₁] at hcreate
    cases hcreate
    rwa [show Store.of ⟨.fresh 4096, Store.empty.counters⟩ = Store.empty from of_fresh] at hh

/-- **Durability.**  After every run of writes on a database, over a page cache with any number of
frames and with any number of restarts on the way, the database can be shut down and opened again, over
a page cache with any number of frames, and has what it had. -/
theorem reopen_durable {fuel fuel' n m : ℕ} {steps : List LifeStep} {db : PhyDatabase}
    {pc : PageCache} {hf₀ hf : HeapFile PageCache} (hn : 1 ≤ n) (hm : 1 ≤ m)
    (hdb : PhyDatabase.create 4096 = .ok db) (hpc : PageCache.create db n = .ok pc)
    (hcreate : create 4096 fuel (handler 4096) pc = .ok hf₀)
    (hsteps : Along exec Reopens steps hf₀) (hrun : runSteps exec steps hf₀ = .ok hf)
    (hfuel : hf.EnoughFuel fuel') :
    ∃ hf', hf.reopen 4096 fuel' m = .ok hf' ∧ Durable hf hf' := by
  have hstart : ∃ s, Holds hf₀ s := ⟨_, create_holds hn hdb hpc hcreate⟩
  obtain ⟨s, hs⟩ := (run_invariant (fun _ _ g => g) (E := fun _ => True)
    (I := fun (_ : Unit) hf => ∃ s, Holds hf s) (fun _ hf step hf' ⟨_, h⟩ hs he => h.exec hs he)
    (fun _ _ _ _ _ _ _ => trivial) steps () hstart hsteps).1 hf hrun
  obtain ⟨hf', hr, h'⟩ := reopen_holds hs hm hfuel
  exact ⟨hf', hr, hs.durable h'⟩

/-- Two nodes and a relationship, a restart, and a third node. -/
def restarts : List LifeStep :=
  [.write 300 (.createNode 7#64), .write 300 (.createNode 8#64),
    .write 300 (.createRelationship 0#64 1#64 0#64 5#64), .reopen 300 2,
    .write 300 (.createNode 9#64)]

theorem reopen_durable_restarts : ∃ db pc hf₀ hf hf', PhyDatabase.create 4096 = .ok db ∧
    PageCache.create db 1 = .ok pc ∧ create 4096 1 (handler 4096) pc = .ok hf₀ ∧
    runSteps exec restarts hf₀ = .ok hf ∧ hf.reopen 4096 300 3 = .ok hf' ∧ Durable hf hf' := by
  have h : (PhyDatabase.create 4096 >>= fun db => PageCache.create db 1 >>= fun pc =>
      create 4096 1 (handler 4096) pc >>= fun hf₀ => runSteps exec restarts hf₀ >>= fun hf =>
      pure (decide (Along exec Reopens restarts hf₀ ∧ hf.EnoughFuel 300))) = .ok true := by
    decide +kernel
  obtain ⟨db, hdb, h⟩ := bind_inv h
  obtain ⟨pc, hpc, h⟩ := bind_inv h
  obtain ⟨hf₀, hcreate, h⟩ := bind_inv h
  obtain ⟨hf, hrun, h⟩ := bind_inv h
  obtain ⟨hsteps, hfuel⟩ := of_decide_eq_true (Except.ok.inj h)
  have hn : 1 ≤ 1 := Nat.le_refl 1
  have hm : 1 ≤ 3 := by decide
  obtain ⟨hf', hr, hD⟩ := reopen_durable hn hm hdb hpc hcreate hsteps hrun hfuel
  exact ⟨db, pc, hf₀, hf, hf', hdb, hpc, hcreate, hrun, hr, hD⟩

end HeapFile

end Goedb
