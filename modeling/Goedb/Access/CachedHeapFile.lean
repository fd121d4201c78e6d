import Goedb.Access.Footprint
import Goedb.Cache.OnePage

/-!
# Access — the heap file over the page cache

The heap file over the page cache, with any number of frames, follows the record store
(`HeapFile.run_cached`): each of its calls pins one page at a time.  The one exception are the bits of
a record that lie on two header pages, for which `write_bits` pins the second page while it holds the
first.  The records that the heap file creates are aligned and never lie so (`AlignedOp`).
-/

namespace Goedb

open Lib

open Prog (Follows Always)

namespace PageCache

variable {k : PageKey} {α : Type}

/-! ### Code on one page -/

@[simp] theorem always_abort (f : Fault) : Always (OnPage k) (PageOp.abort f : Prog PageOp α) :=
  ⟨trivial, fun b => b.elim⟩

@[simp] theorem always_lift (x : Except Fault α) : Always (OnPage k) (PageOp.lift x) := by
  cases x with
  | ok a => exact .pure a
  | error f => exact always_abort f

theorem always_readUlong (P : ℕ) (msg : String) (offset : ℕ) :
    Always (OnPage k) (readUlong P msg k offset) :=
  .ite (always_abort _) (.bind (Always.perform.mpr rfl) fun _ =>
    .bind (Always.perform.mpr rfl) fun _ => .pure _)

theorem always_writeUlong (P : ℕ) (msg : String) (offset : ℕ) (v : Ulong) :
    Always (OnPage k) (writeUlong P msg k offset v) :=
  .ite (always_abort _) (.bind (Always.perform.mpr rfl) fun _ =>
    .bind (Always.perform.mpr rfl) fun _ => Always.perform.mpr rfl)

theorem always_writeWords (P : ℕ) (ws : List (String × Ulong)) : ∀ offset : ℕ,
    Always (OnPage k) (writeWords P k offset ws) := by
  induction ws with
  | nil => exact fun _ => .pure ()
  | cons w ws ih => exact fun offset => .bind (always_writeUlong P _ _ _) fun _ => ih _

theorem always_nodeRead (P : ℕ) (nd : Node) : Always (OnPage k) (nodeRead P nd k) :=
  .bind (Always.perform.mpr rfl) fun _ => .bind (always_readUlong P _ _) fun _ =>
    .bind (always_readUlong P _ _) fun _ => .pure _

theorem always_nodeWrite (P : ℕ) (nd : Node) : Always (OnPage k) (nodeWrite P nd k) :=
  .bind (Always.perform.mpr rfl) fun _ => always_writeWords P _ _

theorem always_relationshipRead (P : ℕ) (r : Relationship) :
    Always (OnPage k) (relationshipRead P r k) :=
  .bind (always_readUlong P _ _) fun _ => .bind (always_readUlong P _ _) fun _ =>
    .bind (always_readUlong P _ _) fun _ => .bind (always_readUlong P _ _) fun _ =>
    .bind (always_readUlong P _ _) fun _ => .bind (always_readUlong P _ _) fun _ =>
    .bind (always_readUlong P _ _) fun _ => .bind (always_readUlong P _ _) fun _ => .pure _

theorem always_writeBitsOnPage (byteOffset bitOffset nBits : ℕ) (data : List Uchar) :
    Always (OnPage k) (writeBitsOnPage k byteOffset bitOffset nBits data) :=
  .bind (always_lift _) fun _ => .bind (Always.perform.mpr rfl) fun _ => Always.perform.mpr rfl

/-- Bits within one byte are written without a second page. -/
theorem always_writeBits {P fuel bitOffset nBits : ℕ} {byteOffset : Ushort} {data : List Uchar}
    (hbyte : byteOffset.toNat < P) (hbits : bitOffset + nBits ≤ 8) :
    Always (OnPage k) (writeBits P (fuel + 1) k byteOffset bitOffset nBits data) := by
  have hfit : ¬ P < byteOffset.toNat + ((bitOffset + nBits) / charBit +
      if (bitOffset + nBits) % charBit ≠ 0 then 1 else 0) := by
    rw [charBit]
    split <;> omega
  rw [writeBits]
  refine .ite (always_abort _) ?_
  simp only [if_neg hfit]
  exact always_writeBitsOnPage _ _ _ _

end PageCache

namespace HeapFile

/-- The bits of a record are only set or cleared at an id that is aligned. -/
def AlignedOp : ∀ β, RecordOp β → Prop
  | _, .setBits ft id _ => id.toNat % numSlotsPer ft = 0
  | _, _ => True

open PageCache

variable {pc : PageCache} {db : PhyDatabase} {α : Type} {k : PageKey}

/-- Code between a pin and an unpin. -/
theorem follows_pinned (h : QuietAs 4096 pc db) (hk : k.fk ≠ .catalogue) {x : Prog PageOp α}
    (hx : Always (OnPage k) x) :
    Follows (QuietAs 4096)
      (Prog.run (handler 4096) (do
        Prog.perform (.pinPage k)
        let a ← x
        Prog.perform (.unpinPage k)
        return a) pc)
      (Prog.run (PhyDatabase.flat 4096) (do
        Prog.perform (.pinPage k)
        let a ← x
        Prog.perform (.unpinPage k)
        return a) db) :=
  .bind (follows_pinPage h hk) fun _ _ _ h => .bind (follows_onPage hx hk h) fun a _ _ h =>
    .bind (follows_unpinPage h) fun _ _ _ h => .ok a h

theorem follows_pinned_unit (h : QuietAs 4096 pc db) (hk : k.fk ≠ .catalogue)
    {x : Prog PageOp Unit} (hx : Always (OnPage k) x) :
    Follows (QuietAs 4096)
      (Prog.run (handler 4096) (do
        Prog.perform (.pinPage k)
        x
        Prog.perform (.unpinPage k)) pc)
      (Prog.run (PhyDatabase.flat 4096) (do
        Prog.perform (.pinPage k)
        x
        Prog.perform (.unpinPage k)) db) :=
  .bind (follows_pinPage h hk) fun _ _ _ h => .bind (follows_onPage hx hk h) fun _ _ _ h =>
    follows_unpinPage h

theorem follows_checkRecordExists (h : QuietAs 4096 pc db) (ft : FileType) (id : Ulong) :
    Follows (QuietAs 4096) (Prog.run (handler 4096) (OnPages.checkRecordExists 4096 ft id) pc)
      (Prog.run (PhyDatabase.flat 4096) (OnPages.checkRecordExists 4096 ft id) db) := by
  have hk : (OnPages.headerKey 4096 ft (absoluteSlot 4096 id)).fk ≠ .catalogue := by
    rintro ⟨⟩
  refine .ite (.ok false h) (.ite (.ok false h) ?_)
  exact .bind (follows_pinPage h hk) fun _ _ _ h =>
    .bind (follows_onPage (Always.perform.mpr rfl) hk h) fun _ _ _ h =>
    .bind (follows_onPage (always_lift _) hk h) fun a _ _ h =>
    .bind (follows_unpinPage h) fun _ _ _ h => .ok a h

/-- The bits of an aligned record lie within one byte. -/
theorem always_setBits {ft : FileType} {id : Ulong} (ha : id.toNat % numSlotsPer ft = 0)
    (used : Bool) :
    Always (OnPage (OnPages.headerKey 4096 ft (absoluteSlot 4096 id)))
      (writeBits 4096 (numSlotsPer ft + 1) (OnPages.headerKey 4096 ft (absoluteSlot 4096 id))
        (BitVec.ofNat 16 (absoluteSlot 4096 id / charBit % 4096)) (absoluteSlot 4096 id % charBit)
        (numSlotsPer ft) [if used then ucharMax else 0#8]) := by
  refine always_writeBits ((BitVec.toNat_ofNat _ _).trans_lt (by omega)) ?_
  rw [absoluteSlot_eq]
  cases ft with
  | node =>
      show id.toNat % 8 + 1 ≤ 8
      omega
  | relationship =>
      have ha : id.toNat % 4 = 0 := ha
      show id.toNat % 8 + 4 ≤ 8
      omega

theorem follows_setBits (h : QuietAs 4096 pc db) {ft : FileType} {id : Ulong}
    (ha : id.toNat % numSlotsPer ft = 0) (used : Bool) :
    Follows (QuietAs 4096) (Prog.run (handler 4096) (OnPages.setBits 4096 ft id used) pc)
      (Prog.run (PhyDatabase.flat 4096) (OnPages.setBits 4096 ft id used) db) := by
  have hk : (OnPages.headerKey 4096 ft (absoluteSlot 4096 id)).fk ≠ .catalogue := by
    rintro ⟨⟩
  exact follows_pinned_unit h hk (always_setBits ha used)

theorem follows_newPage (h : QuietAs 4096 pc db) (ft : FileType) :
    Follows (QuietAs 4096) (Prog.run (handler 4096) (OnPages.newPage ft) pc)
      (Prog.run (PhyDatabase.flat 4096) (OnPages.newPage ft) db) := by
  unfold OnPages.newPage
  rcases PageCache.follows_newPage h ft with ⟨pageNo, pc', db', hp, hd, h'⟩ | ⟨⟨e, hp⟩, ⟨e', hd⟩⟩
  · rw [Prog.run_bind_ok _ hp, Prog.run_bind_ok _ hd]
    split
    · exact .error _ _
    · exact .bind (follows_unpinPage h') fun _ _ _ h => .ok pageNo h
  · rw [Prog.run_bind_error _ hp, Prog.run_bind_error _ hd]
    exact .error e e'

/-- The heap file over the cache and the one over flat pages. -/
def CachedAs (hf : HeapFile PageCache) (hf' : HeapFile PhyDatabase) : Prop :=
  QuietAs 4096 hf.cache hf'.cache ∧ hf.counters = hf'.counters

theorem follows_onPages {hf : HeapFile PageCache} {hf' : HeapFile PhyDatabase} {x : Prog PageOp α}
    (hc : hf.counters = hf'.counters)
    (h : Follows (QuietAs 4096) (Prog.run (handler 4096) x hf.cache)
      (Prog.run (PhyDatabase.flat 4096) x hf'.cache)) :
    Follows CachedAs (hf.onPages (handler 4096) x) (hf'.onPages (PhyDatabase.flat 4096) x) := by
  unfold onPages
  rcases h with ⟨a, pc, db, hp, hd, h⟩ | ⟨⟨e, hp⟩, ⟨e', hd⟩⟩
  · rw [hp, hd]
    exact .ok a ⟨h, hc⟩
  · rw [hp, hd]
    exact .error e e'

/-- **Each call** of the heap file over the cache follows the one over flat pages. -/
theorem step_follows {β : Type} (op : RecordOp β) {hf : HeapFile PageCache}
    {hf' : HeapFile PhyDatabase} (hop : AlignedOp β op) (h : CachedAs hf hf') :
    Follows CachedAs (step 4096 (handler 4096) β op hf)
      (step 4096 (PhyDatabase.flat 4096) β op hf') := by
  obtain ⟨hq, hc⟩ := h
  cases op with
  | numPages ft =>
      refine follows_onPages (x := .perform (.numPages ft)) hc ?_
      rw [Prog.run_perform, Prog.run_perform, handler, PhyDatabase.flat]
      rw [show (hf.cache.pdb.records ft).numPages = (hf'.cache.records ft).numPages from
        (hq.2.numPages .records ft).symm]
      exact .ok _ hq
  | checkRecordExists ft id => exact follows_onPages hc (follows_checkRecordExists hq ft id)
  | readNode id =>
      exact follows_onPages hc (follows_pinned hq (by rintro ⟨⟩) (always_nodeRead _ _))
  | readRelationship id =>
      exact follows_onPages hc (follows_pinned hq (by rintro ⟨⟩) (always_relationshipRead _ _))
  | writeNode nd =>
      exact follows_onPages hc (follows_pinned_unit hq (by rintro ⟨⟩) (always_nodeWrite _ _))
  | writeRelationship r =>
      exact follows_onPages hc (follows_pinned_unit hq (by rintro ⟨⟩) (always_writeWords _ _ _))
  | setBits ft id used => exact follows_onPages hc (follows_setBits hq hop used)
  | newPage ft => exact follows_onPages hc (follows_newPage hq ft)
  | getCounters =>
      rw [step, step, hc]
      exact .ok _ ⟨hq, hc⟩
  | setCounters c => exact .ok () ⟨hq, rfl⟩
  | stop e => exact .error e e

/-! ### The record store behind the cache -/

/-- The pages of the heap file, in frames or in files, hold the store. -/
def Cached (hf : HeapFile PageCache) (s : Store) : Prop :=
  ∃ db : PhyDatabase, QuietAs 4096 hf.cache db ∧ db.Accounts 4096 ∧ Store.of ⟨db, hf.counters⟩ = s

theorem step_cached {β : Type} (op : RecordOp β) {hf : HeapFile PageCache} {s : Store}
    (hop : AlignedOp β op) (h : Cached hf s) :
    Follows Cached (step 4096 (handler 4096) β op hf) (Store.step β op s) := by
  obtain ⟨db, hq, hA, rfl⟩ := h
  have hagree := step_agrees β op ⟨db, hf.counters⟩ hA
  have hflat : CachedAs hf ⟨db, hf.counters⟩ := ⟨hq, rfl⟩
  rcases step_follows op hop hflat with
    ⟨b, hf₁, hf₂, h₁, h₂, hq', hc⟩ | ⟨⟨e, h₁⟩, ⟨e', h₂⟩⟩
  · rw [h₂] at hagree
    obtain ⟨hg, hs⟩ := hagree
    rw [h₁, hs]
    refine .ok b ⟨hf₂.cache, hq', hg, ?_⟩
    rw [hc]
  · rw [h₂] at hagree
    obtain ⟨e'', hs⟩ := hagree
    rw [h₁, hs]
    exact .error e e''

/-- The run of a function of the heap file over the page cache. -/
def runCached (x : HF α) (hf : HeapFile PageCache) : Except Fault (α × HeapFile PageCache) :=
  Prog.run (step 4096 (handler 4096)) x hf

/-- **The heap file over the page cache** follows the record store. -/
theorem run_cached {x : HF α} {hf : HeapFile PageCache} {s : Store} (h : Cached hf s)
    (hx : Prog.Meets Store.step AlignedOp x s) : Follows Cached (runCached x hf) (Store.run x s) :=
  Prog.run_follows (fun _ op _ _ hop h => step_cached op hop h) x h hx

theorem alignedOp_of_onWords {β : Type} {op : RecordOp β} (h : RecordOp.OnWords β op) :
    AlignedOp β op := by
  cases op with
  | setBits ft id used => exact h.elim
  | _ => trivial

/-- A function that only works on the words of records. -/
theorem always_onWords {x : HF α} (hx : Always RecordOp.OnWords x) : Always AlignedOp x :=
  hx.mono fun _ _ => alignedOp_of_onWords

theorem always_reads {x : HF α} (hx : Always RecordOp.Reads x) : Always AlignedOp x :=
  always_onWords (RecordOp.OnWords.of_reads hx)

theorem always_modifyCounters (f : Counters → Counters) : Always AlignedOp (HF.modifyCounters f) :=
  .bind (Always.perform.mpr trivial) fun _ => Always.perform.mpr trivial

theorem always_findFreeSlot (ft : FileType) (fuel : ℕ) : ∀ curId page slot,
    Always AlignedOp (HF.findFreeSlot 4096 ft fuel curId page slot) := by
  induction fuel with
  | zero =>
      intro curId page slot
      exact ⟨trivial, fun b => b.elim⟩
  | succ fuel ih =>
      intro curId page slot
      exact .bind (Always.perform.mpr trivial) fun _ => .ite
        (.bind (Always.perform.mpr trivial) fun _ => .ite (.pure _) (ih _ _ _)) (.pure _)

/-- From every valid store the program sets the bits of aligned records only, and leaves a valid
store. -/
def Tidy (x : HF α) : Prop :=
  ∀ s : Store, s.Valid → Prog.Meets Store.step AlignedOp x s ∧
    ∀ a s', Store.run x s = .ok (a, s') → s'.Valid

namespace Tidy

theorem pure (a : α) : Tidy (Pure.pure a : HF α) := by
  intro s hv
  refine ⟨(Always.pure a).meets s, fun b s' h => ?_⟩
  cases h
  exact hv

theorem bind {β : Type} {x : HF α} {f : α → HF β} (hx : Tidy x) (hf : ∀ a, Tidy (f a)) : Tidy (x >>= f) := by
  intro s hv
  refine ⟨(hx s hv).1.bind fun a s₁ h₁ => (hf a s₁ ((hx s hv).2 a s₁ h₁)).1, fun b s' h => ?_⟩
  obtain ⟨a, s₁, h₁, h⟩ := Prog.run_bind_inv _ h
  exact (hf a s₁ ((hx s hv).2 a s₁ h₁)).2 b s' h

end Tidy

/-- `next_free_slots` sets the bits of an aligned record. -/
theorem meets_nextFreeSlots {s : Store} (hv : s.Valid) (fuel : ℕ) (ft : FileType) :
    Prog.Meets Store.step AlignedOp (HF.nextFreeSlots 4096 fuel ft) s := by
  have hprev : (s.counters.lastAlloc ft).toNat % numSlotsPer ft = 0 := by
    cases ft with
    | node => exact Nat.mod_one _
    | relationship => exact hv.aligned
  refine .bind ((Always.perform.mpr trivial).meets s) fun c s₁ h₁ => ?_
  cases h₁
  refine .bind ((always_findFreeSlot ft fuel _ _ _).meets s) fun o s₂ h₂ => ?_
  have hfound : ∀ id, o = some id → id.toNat % numSlotsPer ft = 0 := by
    rcases Store.run_findFreeSlot_last hv fuel hprev with ⟨he, -⟩ | ⟨o', ho, hfree⟩
    · rw [Store.run, h₂] at he
      cases he
    · rw [Store.run, h₂] at ho
      cases ho
      rintro id rfl
      exact hfree.1
  have hnew : Always AlignedOp (HF.orNewPage ft o) := by
    cases o with
    | none => exact .bind (Always.perform.mpr trivial) fun _ => .pure _
    | some id => exact .pure id
  refine .bind (hnew.meets s₂) fun id s₃ h₃ =>
    .bind ((always_modifyCounters _).meets s₃) fun _ s₄ _ =>
    (Always.perform.mpr ?_).meets s₄
  show id.toNat % numSlotsPer ft = 0
  cases o with
  | some id' =>
      cases h₃
      exact hfound id rfl
  | none =>
      obtain ⟨pageNo, s₅, -, h₃⟩ := Prog.run_bind_inv _ h₃
      cases h₃
      rw [BitVec.toNat_shiftLeft, Nat.shiftLeft_eq, show charBit = 8 from rfl]
      rcases Store.numSlotsPer_cases ft with hn | hn <;> rw [hn] <;> omega

theorem meets_createNode {s : Store} (hv : s.Valid) (fuel : ℕ) (label : Ulong) :
    Prog.Meets Store.step AlignedOp (HF.createNode 4096 fuel label) s := by
  refine .bind (meets_nextFreeSlots hv fuel .node) fun _ s₁ _ => Always.meets ?_ s₁
  exact .bind (Always.perform.mpr trivial) fun _ =>
    .bind (always_onWords (RecordOp.OnWords.updateNodeInternal _ _)) fun _ =>
    .bind (always_modifyCounters _) fun _ => .bind (always_modifyCounters _) fun _ => .pure _

theorem meets_createRelationship {s : Store} (hv : s.Valid) (fuel : ℕ) (fromId toId : Ulong)
    (weight : Double) (label : Ulong) :
    Prog.Meets Store.step AlignedOp (HF.createRelationship 4096 fuel fromId toId weight label) s := by
  rw [HF.createRelationship]
  split
  · exact (always_reads (RecordOp.Reads.abort _)).meets s
  · refine .bind (meets_nextFreeSlots hv fuel .relationship) fun _ s₁ _ => Always.meets ?_ s₁
    have hread : ∀ id, Always AlignedOp (HF.readNode id) := fun id =>
      always_reads (RecordOp.Reads.readNodeInternal id true)
    exact .bind (Always.perform.mpr trivial) fun _ => .bind (hread _) fun _ => .bind (hread _) fun _ =>
      .bind (always_reads (RecordOp.Reads.sourceChainEnds _ _)) fun _ =>
      .bind (always_reads (RecordOp.Reads.targetChainEnds _ _ _ _)) fun _ =>
      .bind (always_onWords (RecordOp.OnWords.setFirstRelationship _ _)) fun _ =>
      .bind (always_onWords (RecordOp.OnWords.setFirstRelationship _ _)) fun _ =>
      .bind (always_onWords (RecordOp.OnWords.writeBack _ _ _ _ _)) fun _ =>
      .bind (always_onWords (RecordOp.OnWords.updateRelationshipInternal _ _)) fun _ =>
      .bind (always_modifyCounters _) fun _ => .bind (always_modifyCounters _) fun _ => .pure _

end HeapFile

end Goedb
