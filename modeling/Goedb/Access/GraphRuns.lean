import Goedb.Access.Durability
import Goedb.Access.GraphCalls

/-!
# Access — the database over its whole life is a property graph

The calls of `GraphCalls` on a heap file over a page cache, with any number of frames, from a new
database on.  Between any two calls the database may be shut down and opened again, with another number
of frames.

What the calls answer is a run of the property graph, on which a restart leaves no trace
(`HeapFile.sessions_refine`).
-/

namespace Goedb

open Lib

open Prog (Follows Always)

namespace HeapFile

open PageCache

open PropertyGraph (Allows HasSlots Step Run)

variable {s s' : Store} {G : PropertyGraph} {α : Type}

/-! ### The bits that the calls set -/

namespace Tidy

theorem of_onWords {x : HF α} (hx : Always RecordOp.OnWords x) : Tidy x :=
  fun s hv => ⟨(always_onWords hx).meets s, fun a s' h =>
    (Store.keepsSlots hx s a s' h).valid hv⟩

theorem deleteRelationship (x : Ulong) : Tidy (HF.deleteRelationship x) := by
  intro s hv
  refine ⟨?_, fun _ s' h => ?_⟩
  · rw [HF.deleteRelationship]
    split
    · exact (always_reads (RecordOp.Reads.abort _)).meets s
    · refine .bind ((always_reads (RecordOp.Reads.readRelationshipInternal x true)).meets s)
        fun rel s₁ h₁ => Always.meets ?_ s₁
      have ha : x.toNat % numSlotsPer .relationship = 0 :=
        (Store.rel_eq_some.mp (Store.readRelationship_inv hv h₁).1).1.1
      exact .bind (always_onWords (RecordOp.OnWords.when (RecordOp.OnWords.unlinkNeighbours rel)))
        fun _ => .bind (always_onWords (RecordOp.OnWords.moveFirstRelationship _ _ _)) fun _ =>
        .bind (always_onWords (RecordOp.OnWords.moveFirstRelationship _ _ _)) fun _ =>
        .bind (always_modifyCounters _) fun _ => .bind (Always.perform.mpr ha) fun _ =>
        always_modifyCounters _
  · obtain ⟨label, hD⟩ := Store.deleteRelationship_deleted hv h
    exact hD.valid

theorem deleteChain (n : Ulong) (fuel : ℕ) : ∀ p l, Tidy (HF.deleteChain n fuel p l) := by
  induction fuel with
  | zero => exact fun _ _ => of_onWords (RecordOp.OnWords.of_reads (RecordOp.Reads.abort _))
  | succ fuel ih =>
      intro p l
      rw [HF.deleteChain]
      split
      · exact .pure _
      · refine .bind (of_onWords (RecordOp.OnWords.of_reads
          (RecordOp.Reads.readRelationshipInternal p true))) fun rel => ?_
        split
        · exact .bind (deleteRelationship _) fun _ => ih _ _
        · split
          · exact .bind (deleteRelationship _) fun _ => ih _ _
          · exact of_onWords (RecordOp.OnWords.of_reads (RecordOp.Reads.abort _))

end Tidy

theorem always_dropNode (n label : Ulong) : Always AlignedOp (HF.dropNode n label) :=
  .bind (always_modifyCounters _) fun _ => .bind (Always.perform.mpr (Nat.mod_one _)) fun _ =>
    always_modifyCounters _

theorem meets_deleteNode (hv : s.Valid) (fuel : ℕ) (n : Ulong) :
    Prog.Meets Store.step AlignedOp (HF.deleteNode fuel n) s := by
  have hread : ∀ x, Tidy (HF.readRelationship x) := fun x =>
    .of_onWords (RecordOp.OnWords.of_reads (RecordOp.Reads.readRelationshipInternal x true))
  rw [HF.deleteNode]
  split
  · exact (always_reads (RecordOp.Reads.abort _)).meets s
  · refine .bind ((always_reads (RecordOp.Reads.readNodeInternal n true)).meets s) fun nd s₁ h₁ => ?_
    obtain ⟨-, rfl⟩ := Store.readNode_inv hv h₁
    refine .bind ?_ fun _ s₂ _ => (always_dropNode n nd.label).meets s₂
    rw [HF.when]
    split
    · exact ((hread _).bind (fun rel => .deleteChain n fuel _ _) s₁ hv).1
    · exact (Always.pure _).meets s₁

theorem always_swapBits {ft : FileType} {fst snd : Ulong} (ha : fst.toNat % numSlotsPer ft = 0)
    (hb : snd.toNat % numSlotsPer ft = 0) (b c : Bool) :
    Always AlignedOp (HF.swapBits ft fst snd b c) :=
  .ite (.bind (Always.perform.mpr ha) fun _ => Always.perform.mpr hb) (.pure _)

theorem always_swapNodes (fuel : ℕ) (fst snd : Ulong) :
    Always AlignedOp (HF.swapNodes 4096 fuel fst snd) := by
  have hexpand : ∀ x, Always RecordOp.OnWords (HF.expand fuel x .both) := fun x =>
    RecordOp.OnWords.of_reads (RecordOp.Reads.expand fuel x .both)
  have hread : ∀ x, Always RecordOp.OnWords (HF.readNodeInternal x true) := fun x =>
    RecordOp.OnWords.of_reads (RecordOp.Reads.readNodeInternal x true)
  have hcheck : ∀ x, Always AlignedOp (HF.checkRecordExists .node x) := fun x =>
    Always.perform.mpr trivial
  exact .bind (Always.perform.mpr trivial) fun _ => .ite (always_reads (RecordOp.Reads.abort _)) <|
    .bind (hcheck fst) fun _ => .bind (hcheck snd) fun _ => .ite (.pure _) <|
    .bind (always_onWords (Store.onWords_onlyIf (hexpand fst) _)) fun _ =>
    .bind (always_onWords (RecordOp.OnWords.when (.bind (hexpand snd) fun _ =>
      Store.onWords_updateEndpoints fst snd _))) fun _ =>
    .bind (always_onWords (Store.onWords_onlyIf (hread fst) _)) fun _ =>
    .bind (always_onWords (Store.onWords_onlyIf (hread snd) _)) fun _ =>
    .bind (always_modifyCounters _) fun _ =>
    .bind (always_swapBits (Nat.mod_one _) (Nat.mod_one _) _ _) fun _ =>
    .bind (always_onWords (Store.onWords_moveNode _ _)) fun _ =>
    always_onWords (Store.onWords_moveNode _ _)

theorem always_swapRelationships {fst snd : Ulong} (ha : fst.toNat % 4 = 0) (hb : snd.toNat % 4 = 0) :
    Always AlignedOp (HF.swapRelationships 4096 fst snd) := by
  have hread : ∀ x, Always RecordOp.OnWords (HF.readRelationship x) := fun x =>
    RecordOp.OnWords.of_reads (RecordOp.Reads.readRelationshipInternal x true)
  have hcheck : ∀ x, Always AlignedOp (HF.checkRecordExists .relationship x) := fun x =>
    Always.perform.mpr trivial
  exact .bind (Always.perform.mpr trivial) fun _ => .ite (always_reads (RecordOp.Reads.abort _)) <|
    .bind (hcheck fst) fun _ => .bind (hcheck snd) fun _ => .ite (.pure _) <|
    .bind (always_onWords (Store.onWords_onlyIf (hread fst) _)) fun _ =>
    .bind (always_onWords (Store.onWords_onlyIf (hread snd) _)) fun _ =>
    .bind (always_onWords (Store.onWords_updatePointers _ _ _)) fun _ =>
    .bind (always_onWords (Store.onWords_updateFirsts _ _ _)) fun _ =>
    .bind (always_onWords (Store.onWords_onlyIf (hread snd) _)) fun _ =>
    .bind (always_onWords (Store.onWords_onlyIf (hread fst) _)) fun _ =>
    .bind (always_modifyCounters _) fun _ => .bind (always_swapBits ha hb _ _) fun _ =>
    .bind (always_onWords (Store.onWords_moveRelationship _ _)) fun _ =>
    always_onWords (Store.onWords_moveRelationship _ _)

theorem reads_find {read : Ulong → HF α} (hr : ∀ id, Always RecordOp.Reads (read id)) (ft : FileType)
    (labelOf : α → Ulong) (label : Ulong) (msg : String) (fuel : ℕ) : ∀ curId page slot,
    Always RecordOp.Reads (HF.find 4096 ft read labelOf label msg fuel curId page slot) := by
  induction fuel with
  | zero => exact fun _ _ _ => RecordOp.Reads.abort _
  | succ fuel ih =>
      intro curId page slot
      refine .bind (Always.perform.mpr trivial) fun _ =>
        .bind (.ite (.bind (hr curId) fun _ => .pure _) (.pure _)) fun here => ?_
      split
      · exact .pure _
      · exact .bind (Always.perform.mpr trivial) fun _ => .ite (ih _ _ _) (RecordOp.Reads.abort _)

/-- The allowed calls set the bits of aligned records only. -/
theorem meets_graphCall {c : GraphCall} (hv : s.Valid) (hallow : Allows G c) (fuel : ℕ) :
    Prog.Meets Store.step AlignedOp (HF.graphCall 4096 fuel c) s := by
  cases c with
  | createNode label =>
      exact .bind (meets_createNode hv fuel label) fun _ s₁ _ => (Always.pure _).meets s₁
  | createRelationship fromId toId weight label =>
      exact .bind (meets_createRelationship hv fuel fromId toId weight label) fun _ s₁ _ =>
        (Always.pure _).meets s₁
  | updateNode nd =>
      exact .bind ((always_onWords (RecordOp.OnWords.updateNodeInternal nd true)).meets s)
        fun _ s₁ _ => (Always.pure _).meets s₁
  | updateRelationship r =>
      exact .bind ((always_onWords (RecordOp.OnWords.updateRelationshipInternal r true)).meets s)
        fun _ s₁ _ => (Always.pure _).meets s₁
  | deleteNode n => exact .bind (meets_deleteNode hv fuel n) fun _ s₁ _ => (Always.pure _).meets s₁
  | deleteRelationship x =>
      exact .bind (Tidy.deleteRelationship x s hv).1 fun _ s₁ _ => (Always.pure _).meets s₁
  | swapNodes fst snd =>
      exact (Always.bind (always_swapNodes fuel fst snd) fun _ => .pure _).meets s
  | swapRelationships fst snd =>
      exact (Always.bind (always_swapRelationships hallow.1 hallow.2) fun _ => .pure _).meets s
  | readNode n =>
      exact (Always.bind (always_reads (RecordOp.Reads.readNodeInternal n true)) fun _ =>
        .pure _).meets s
  | readRelationship x =>
      exact (Always.bind (always_reads (RecordOp.Reads.readRelationshipInternal x true)) fun _ =>
        .pure _).meets s
  | expand n direction =>
      exact (Always.bind (always_reads (RecordOp.Reads.expand fuel n direction)) fun _ =>
        .pure _).meets s
  | getNodes =>
      exact (Always.bind (always_reads (RecordOp.Reads.getNodes 4096 fuel)) fun _ => .pure _).meets s
  | getRelationships =>
      exact (Always.bind (always_reads (RecordOp.Reads.getRelationships 4096 fuel)) fun _ =>
        .pure _).meets s
  | findNode label =>
      exact (Always.bind (always_reads (reads_find (fun id =>
        RecordOp.Reads.readNodeInternal id false) _ _ _ _ _ _ _ _)) fun _ => .pure _).meets s
  | findRelationships label =>
      exact (Always.bind (always_reads (reads_find (fun id =>
        RecordOp.Reads.readRelationshipInternal id false) _ _ _ _ _ _ _ _)) fun _ => .pure _).meets s

/-! ### The life of a database -/

/-- A heap file over a page cache, and what was called on it so far, with the answers. -/
structure Session where
  hf : HeapFile PageCache
  trace : List (GraphCall × GraphAnswer)

/-- A call, or the database is shut down and opened again. -/
inductive SessionStep where
  | call (c : GraphCall)
  | reopen (nFrames : ℕ)
  deriving DecidableEq, Repr

/-- What a step does. -/
def Session.exec (fuel : ℕ) : SessionStep → Session → Except Fault Session
  | .call c, σ => do
      let (a, hf) ← runCached (HF.graphCall 4096 fuel c) σ.hf
      return ⟨hf, σ.trace ++ [(c, a)]⟩
  | .reopen nFrames, σ => do
      let hf ← σ.hf.reopen 4096 fuel nFrames
      return { σ with hf := hf }

/-- The heap file shows the multigraph: the store behind its page cache represents it. -/
def ShowsGraph (hf : HeapFile PageCache) (G : PropertyGraph) : Prop := ∃ s, Cached hf s ∧ s.Shows G

/-- The call is allowed on the multigraph that the heap file shows; a new cache has a frame. -/
def Session.Allowed (σ : Session) : SessionStep → Prop
  | .call c => ∀ G, σ.hf.ShowsGraph G → Allows G c
  | .reopen nFrames => 1 ≤ nFrames

variable {hf hf' : HeapFile PageCache} {fuel : ℕ}

theorem Cached.pages (h : Cached hf s) (ft : FileType) :
    (hf.cache.pdb.records ft).numPages = s.pages ft := by
  obtain ⟨db, hq, -, rfl⟩ := h
  exact (hq.2.numPages .records ft).symm

/-- **One call** over the page cache. -/
theorem ShowsGraph.call {c : GraphCall} (h : hf.ShowsGraph G) (hfuel : maxPageNo 4096 * 256 ≤ fuel)
    (hallow : Allows G c) :
    (∃ a hf' G', runCached (HF.graphCall 4096 fuel c) hf = .ok (a, hf') ∧ Step G c a G' ∧
      hf'.ShowsGraph G') ∨
    (∃ e, runCached (HF.graphCall 4096 fuel c) hf = .error e) ∧
      (HasSlots (fun ft => (hf.cache.pdb.records ft).numPages) c → ∀ a G', ¬ Step G c a G') := by
  obtain ⟨s, hc, hs⟩ := h
  have hrun := run_cached hc (meets_graphCall hs.valid hallow fuel)
  have hpages : (fun ft => (hf.cache.pdb.records ft).numPages) = s.pages :=
    funext (Cached.pages hc)
  rcases Store.graphCall_refines hs hfuel hallow with ⟨a, s', G', hr, hstep, hs'⟩ | ⟨⟨e, hr⟩, hno⟩
  · obtain ⟨hf', hr', hc'⟩ := hrun.of_ok hr
    exact .inl ⟨a, hf', G', hr', hstep, s', hc', hs'⟩
  · rcases hrun with ⟨a, hf', s', -, hr', -⟩ | ⟨he, -⟩
    · rw [hr] at hr'
      cases hr'
    · exact .inr ⟨he, hpages ▸ hno⟩

/-- **A restart** over the page cache. -/
theorem ShowsGraph.reopen (h : hf.ShowsGraph G) (hfuel : maxPageNo 4096 * 256 ≤ fuel) {n : ℕ}
    (hn : 1 ≤ n) :
    ∃ hf', hf.reopen 4096 fuel n = .ok hf' ∧ hf'.ShowsGraph G := by
  obtain ⟨s, hc, hs⟩ := h
  obtain ⟨hf', hr, hc', hcount⟩ := reopen_holds ⟨hc, hs.counted⟩ hn fun ft => by
    rw [Cached.pages hc]
    exact hs.enough hfuel ft
  refine ⟨hf', hr, s.recounted, hc', ⟨hcount.valid, fun x r hr => ?_, ?_⟩, hcount, ?_⟩
  · exact hs.wellFormed.weights x r hr
  · exact hs.wellFormed.graph
  · exact hs.graph

/-- The counters of the heap file count the nodes and the edges. -/
theorem ShowsGraph.counters (h : hf.ShowsGraph G) :
    hf.counters.nNodes.toNat = {n | (G.label n).isSome}.ncard ∧
      hf.counters.nRels.toNat = {x | (G.edge x).isSome}.ncard := by
  obtain ⟨s, ⟨db, -, -, rfl⟩, hs⟩ := h
  have hcard : ∀ (l : List Ulong) (p : Ulong → Prop), l.Nodup → (∀ x, x ∈ l ↔ p x) →
      l.length = {x | p x}.ncard := by
    intro l p hd hp
    have hset : {x | p x} = ↑l.toFinset := by
      ext x
      simp [hp]
    rw [hset, Set.ncard_coe_finset, List.toFinset_card_of_nodup hd]
  have hnodup : ∀ ft, ((Store.of ⟨db, hf.counters⟩).liveIds ft).Nodup :=
    fun _ => Store.nodup_liveIds hs.valid
  constructor
  · rw [← hcard _ _ (hnodup .node) fun x => by
      rw [Store.mem_liveIds, hs.live_node, ← Store.isSome_node, Option.isSome_iff_exists]]
    exact hs.counted.toNat_number .node
  · rw [← hcard _ _ (hnodup .relationship) fun x => by
      rw [Store.mem_liveIds, hs.live_rel, ← Store.isSome_rel, Option.isSome_iff_exists]]
    exact hs.counted.toNat_number .relationship

/-- A new database shows the empty graph. -/
theorem create_shows {fuel n : ℕ} {db : PhyDatabase} {pc : PageCache} (hn : 1 ≤ n)
    (hdb : PhyDatabase.create 4096 = .ok db) (hpc : PageCache.create db n = .ok pc)
    (hcreate : create 4096 fuel (handler 4096) pc = .ok hf) : hf.ShowsGraph .empty := by
  obtain ⟨hc, hcount⟩ := create_holds hn hdb hpc hcreate
  have hg : Store.empty.recounted.graph = ⟨fun _ => none, fun _ => none⟩ := Store.graph_empty
  refine ⟨_, hc, ⟨hcount.valid, ?_, ?_⟩, hcount, ?_⟩
  · exact Store.empty_wellFormed.weights
  · exact Store.empty_wellFormed.graph
  · rw [hg]
    exact Graph.represents_empty

/-- One step of a session. -/
theorem Session.exec_keeps {σ σ' : Session} {step : SessionStep} (hfuel : maxPageNo 4096 * 256 ≤ fuel)
    (h : ∃ G, Run .empty σ.trace G ∧ σ.hf.ShowsGraph G) (hs : σ.Allowed step)
    (he : Session.exec fuel step σ = .ok σ') : ∃ G, Run .empty σ'.trace G ∧ σ'.hf.ShowsGraph G := by
  obtain ⟨G, hrun, hG⟩ := h
  cases step with
  | call c =>
      obtain ⟨⟨a, hf⟩, hr, he⟩ := bind_inv he
      cases he
      rcases hG.call hfuel (hs G hG) with ⟨a', hf', G', hr', hstep, hG'⟩ | ⟨⟨e, hr'⟩, -⟩
      · rw [hr] at hr'
        cases hr'
        exact ⟨G', hrun.snoc hstep, hG'⟩
      · rw [hr] at hr'
        cases hr'
  | reopen n =>
      obtain ⟨hf, hr, he⟩ := bind_inv he
      cases he
      obtain ⟨hf', hr', hG'⟩ := hG.reopen hfuel hs
      rw [hr] at hr'
      cases hr'
      exact ⟨G, hrun, hG'⟩

/-- **The database is a property graph over its whole life.**  What is called on a new database, with
any number of restarts in between, is answered as on a multigraph that was empty in the beginning; the
heap file shows that multigraph, its counters are the numbers of nodes and relationships, and every
allowed call that has a step to take on the multigraph returns. -/
theorem sessions_refine {n : ℕ} {steps : List SessionStep} {db : PhyDatabase} {pc : PageCache}
    {hf₀ : HeapFile PageCache} {σ : Session} (hfuel : maxPageNo 4096 * 256 ≤ fuel) (hn : 1 ≤ n)
    (hdb : PhyDatabase.create 4096 = .ok db) (hpc : PageCache.create db n = .ok pc)
    (hcreate : create 4096 fuel (handler 4096) pc = .ok hf₀)
    (hsteps : Along (Session.exec fuel) Session.Allowed steps ⟨hf₀, []⟩)
    (hrun : runSteps (Session.exec fuel) steps ⟨hf₀, []⟩ = .ok σ) :
    ∃ G, Run .empty σ.trace G ∧ σ.hf.ShowsGraph G ∧
      σ.hf.counters.nNodes.toNat = {n | (G.label n).isSome}.ncard ∧
      σ.hf.counters.nRels.toNat = {x | (G.edge x).isSome}.ncard ∧
      ∀ c a G', Allows G c → HasSlots (fun ft => (σ.hf.cache.pdb.records ft).numPages) c →
        Step G c a G' → ∃ σ', Session.exec fuel (.call c) σ = .ok σ' := by
  obtain ⟨G, hG, hshows⟩ := (run_invariant (fun _ _ g => g) (E := fun _ => True)
    (I := fun (_ : Unit) σ => ∃ G, Run .empty σ.trace G ∧ σ.hf.ShowsGraph G)
    (fun _ _ _ _ h hs he => Session.exec_keeps hfuel h hs he) (fun _ _ _ _ _ _ _ => trivial) steps ()
    ⟨.empty, .nil _, create_shows hn hdb hpc hcreate⟩ hsteps).1 σ hrun
  refine ⟨G, hG, hshows, hshows.counters.1, hshows.counters.2, fun c a G' hallow hslots hstep => ?_⟩
  rcases hshows.call hfuel hallow with ⟨a', hf', G'', hr, -, -⟩ | ⟨-, hno⟩
  · refine ⟨⟨hf', σ.trace ++ [(c, a')]⟩, ?_⟩
    rw [Session.exec, hr]
    rfl
  · exact absurd hstep (hno hslots a G')

/-- A node with a self-loop, a restart, and the node is found by its label. -/
def loopSession : List SessionStep :=
  [.call (.createNode 7#64), .call (.createRelationship 0#64 0#64 doubleOne 5#64),
    .call (.expand 0#64 .both), .reopen 2, .call (.findNode 7#64)]

theorem sessions_refine_loop : ∃ db pc hf₀ σ, PhyDatabase.create 4096 = .ok db ∧
    PageCache.create db 1 = .ok pc ∧
    create 4096 (maxPageNo 4096 * 256) (handler 4096) pc = .ok hf₀ ∧
    runSteps (Session.exec (maxPageNo 4096 * 256)) loopSession ⟨hf₀, []⟩ = .ok σ ∧
    σ.trace = [(.createNode 7#64, .id 0#64), (.createRelationship 0#64 0#64 doubleOne 5#64, .id 0#64),
      (.expand 0#64 .both, .relationships
        [⟨0#64, 0#64, 0#64, 0#64, 0#64, 0#64, 0#64, doubleOne, 5#64⟩]),
      (.findNode 7#64, .node ⟨0#64, 0#64, 7#64⟩)] ∧
    ∃ G, Run .empty σ.trace G ∧ σ.hf.ShowsGraph G := by
  have h : (PhyDatabase.create 4096 >>= fun db => PageCache.create db 1 >>= fun pc =>
      create 4096 (maxPageNo 4096 * 256) (handler 4096) pc >>= fun hf₀ =>
      runSteps (Session.exec (maxPageNo 4096 * 256)) loopSession ⟨hf₀, []⟩ >>= fun σ =>
      pure (decide (σ.trace = [(.createNode 7#64, .id 0#64),
        (.createRelationship 0#64 0#64 doubleOne 5#64, .id 0#64),
        (.expand 0#64 .both, .relationships
          [⟨0#64, 0#64, 0#64, 0#64, 0#64, 0#64, 0#64, doubleOne, 5#64⟩]),
        (.findNode 7#64, .node ⟨0#64, 0#64, 7#64⟩)]))) = .ok true := by
    decide +kernel
  obtain ⟨db, hdb, h⟩ := bind_inv h
  obtain ⟨pc, hpc, h⟩ := bind_inv h
  obtain ⟨hf₀, hcreate, h⟩ := bind_inv h
  obtain ⟨σ, hrun, h⟩ := bind_inv h
  have htrace := of_decide_eq_true (Except.ok.inj h)
  have hsteps : Along (Session.exec (maxPageNo 4096 * 256)) Session.Allowed loopSession ⟨hf₀, []⟩ := by
    refine .of_forall _ (fun step hstep σ => ?_) _
    simp only [loopSession, List.mem_cons, List.not_mem_nil, or_false] at hstep
    rcases hstep with rfl | rfl | rfl | rfl | rfl
    · exact fun _ _ => trivial
    · exact fun _ _ => trivial
    · exact fun _ _ => trivial
    · exact Nat.le_succ 1
    · exact fun _ _ => trivial
  obtain ⟨G, hG, hshows, -⟩ := sessions_refine (Nat.le_refl _) (Nat.le_refl 1) hdb hpc hcreate hsteps
    hrun
  exact ⟨db, pc, hf₀, σ, hdb, hpc, hcreate, hrun, htrace, G, hG, hshows⟩

end HeapFile

end Goedb
