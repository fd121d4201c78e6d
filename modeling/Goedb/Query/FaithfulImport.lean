import Goedb.Query.Import

/-!
# Query — imports into a fresh heap file and a fresh graph

`import_from_txt` runs over the page cache in the mode of a bulk import, with pages allocated
beforehand.  It pins one page at a time, so it follows the record store (`HeapFile.run_cached`), on
which it is known what an import leaves.

* `import_faithful_iff`: both imports are faithful, for a file without weights or without entries, as
  long as its records fit into the files of a heap file.
-/

namespace Goedb

open Lib

open Prog (Always)

/-! ### The heap file during an import -/

namespace HeapFile

open PageCache

variable {hf hf' : HeapFile PageCache} {s s' : Store} {α β : Type}

namespace Tidy

theorem abort {P fuel : ℕ} (f : Fault) : Tidy ((HF.importer P fuel).abort f : HF α) := by
  intro s _
  refine ⟨?_, fun a s' h => absurd h (Importer.run_abort_ne f s (a, s'))⟩
  exact (show Always AlignedOp ((HF.importer P fuel).abort f : HF α) from
    ⟨trivial, fun b => b.elim⟩).meets s

/-- The log is no part of what a valid store is. -/
theorem unlogged {x : HF α} (hx : Tidy x) : Tidy (HF.unlogged x) := by
  intro s hv
  have hget : Always AlignedOp (Prog.perform .getCounters : HF Counters) :=
    Always.perform.mpr trivial
  refine ⟨.bind (hget.meets s) fun c s₁ h₁ => ?_, fun a s' h => ?_⟩
  · cases h₁
    exact .bind (hx s hv).1 fun a s₂ _ => (Always.bind (always_modifyCounters _) fun _ =>
      Always.pure a).meets s₂
  · obtain ⟨c, s₁, h₁, h⟩ := Prog.run_bind_inv _ h
    cases h₁
    obtain ⟨b, s₂, h₂, h⟩ := Prog.run_bind_inv _ h
    obtain ⟨u, s₃, h₃, h⟩ := Prog.run_bind_inv _ h
    cases (Store.run_modifyCounters _ s₂).symm.trans h₃
    cases h
    have hv₂ := (hx s hv).2 a s₂ h₂
    exact ⟨hv₂.pages_lt, hv₂.bit_beyond, hv₂.aligned⟩

theorem createNode (fuel : ℕ) (label : Ulong) : Tidy (HF.createNode 4096 fuel label) :=
  fun _ hv => ⟨meets_createNode hv fuel label, fun _ _ h =>
    (Store.createNode_created hv h).valid fun _ => rfl⟩

theorem createRelationship (fuel : ℕ) (fromId toId : Ulong) (weight : Double) (label : Ulong) :
    Tidy (HF.createRelationship 4096 fuel fromId toId weight label) :=
  fun _ hv => ⟨meets_createRelationship hv fuel fromId toId weight label, fun _ _ h =>
    (Store.createRelationship_created hv h).valid fun _ => rfl⟩

theorem nodeFor (fuel : ℕ) (N : Dict) (id : Ulong) :
    Tidy ((HF.importer 4096 fuel).nodeFor N id) := by
  unfold Importer.nodeFor
  split
  · exact .pure _
  · exact .bind (createNode fuel id).unlogged fun _ => .pure _

theorem translate (fuel n : ℕ) : ∀ (i : ℕ) (fromTo : List Ulong) (N : Dict),
    Tidy ((HF.importer 4096 fuel).translate n i fromTo N) := by
  induction n with
  | zero => exact fun i fromTo N => .pure _
  | succ n ih =>
      intro i fromTo N
      unfold Importer.translate
      split
      · exact .abort _
      · exact .bind (nodeFor fuel N _) fun _ => ih _ _ _

theorem createFor (fuel : ℕ) (fromTo : List Ulong) (weight : Option Double) (label : Ulong) :
    Tidy ((HF.importer 4096 fuel).createFor fromTo weight label) := by
  unfold Importer.createFor
  split
  · split
    · exact (createRelationship fuel _ _ _ label).unlogged
    · exact (createRelationship fuel _ _ _ label).unlogged
  · exact .abort _

theorem importLines (fuel : ℕ) (weighted : Bool) (file : List Line) : ∀ (lines : Ulong) (N R : Dict),
    Tidy ((HF.importer 4096 fuel).importLines weighted file lines N R) := by
  induction file with
  | nil => exact fun lines N R => .pure _
  | cons line file ih =>
      intro lines N R
      unfold Importer.importLines
      split
      · exact ih lines N R
      · split
        · exact .abort _
        · exact .bind (translate fuel _ _ _ N) fun _ => .bind (createFor fuel _ _ _) fun _ => ih _ _ _

end Tidy

/-- During a bulk import nothing is asked of the queue. -/
theorem Cached.setBulkImport (h : Cached hf s) : Cached (hf.setBulkImport true) s := by
  obtain ⟨db, ⟨⟨free, queue, hQ⟩, hM⟩, hA, hs⟩ := h
  have hI := hQ.inv
  refine ⟨db, ⟨⟨free, queue, ⟨hI.free_rep, hI.queue_rep, hI.free_nodup, hI.queue_nodup, hI.queue_lt,
    hI.free_frame, hI.used_frame, hI.mapped, hI.in_file, hI.clean⟩, hQ.unpinned, ?_, ?_, ?_,
    hQ.noCatalogue, hQ.nFrames_pos⟩, hM.numPages, hM.page, hM.catalogue, hM.remaining⟩, hA, hs⟩
  all_goals
    intro hb
    cases hb

theorem Cached.allocatePages {ft : FileType} {n : ℕ} (h : Cached hf s)
    (hn : s.pages ft + n < maxPageNo 4096) :
    ∃ hf' s', hf.allocatePages 4096 ft n = .ok hf' ∧ Cached hf' s' ∧ s.Roomier s' ∧
      ∀ gt, gt ≠ ft → s'.pages gt = s.pages gt := by
  obtain ⟨db, hq, hA, rfl⟩ := h
  obtain ⟨db', hok, hA', hR, ⟨k, hH⟩, ho⟩ :=
    PhyDatabase.allocatePages_spec (n := n) isPageSize_4096 hA hn
  rcases hq.allocatePages ft n with ⟨db₁, db'', h₁, h₂, hq'⟩ | ⟨-, ⟨e, he⟩⟩
  · rw [hok] at h₂
    cases h₂
    refine ⟨{ hf with cache := { hf.cache with pdb := db₁ } }, Store.of ⟨db', hf.counters⟩, ?_,
      ⟨db', hq', hA', rfl⟩, ⟨fun gt => ?_, hA'.records_lt, ?_, ?_, rfl⟩, fun gt hg => ?_⟩
    · rw [HeapFile.allocatePages, h₁]
      rfl
    · show (db.records gt).numPages ≤ (db'.records gt).numPages
      by_cases hg : gt = ft
      · subst hg
        rw [hR.numPages]
        exact Nat.le_add_right _ _
      · rw [(ho gt hg).1]
    · funext gt m
      simp only [Store.of]
      by_cases hg : gt = ft
      · subst hg
        rw [hH.page]
      · rw [(ho gt hg).2]
    · funext gt m
      simp only [Store.of]
      by_cases hg : gt = ft
      · subst hg
        rw [hR.page]
      · rw [(ho gt hg).1]
    · show (db'.records gt).numPages = (db.records gt).numPages
      rw [(ho gt hg).1]
  · rw [hok] at he
    cases he

/-- The pages that are allocated beforehand are not too many. -/
theorem pagesFor_lt (dataset : Dataset) :
    pagesFor 4096 .node (getNoNodes dataset) < maxPageNo 4096 ∧
      pagesFor 4096 .relationship (getNoRels dataset) < maxPageNo 4096 := by
  cases dataset <;> decide

/-- **`import_from_txt`** up to the loop over the lines, on a fresh heap file: the store is still
empty. -/
theorem importFromTxt_eq (h : Cached hf s) (hF : s.Filled 0 0) (hp : ∀ ft, s.pages ft = 0)
    (fuel : ℕ) (file : List Line) (weighted : Bool) (dataset : Dataset) :
    ∃ hf₁ s₁, Cached hf₁ s₁ ∧ s₁.Filled 0 0 ∧
      hf.importFromTxt 4096 fuel file weighted dataset =
        (runCached ((HF.importer 4096 fuel).importLines weighted file 0 ∅ ∅) hf₁ >>= fun p =>
          pure (p.1, p.2.setBulkImport false)) := by
  obtain ⟨hnodes, hrels⟩ := pagesFor_lt dataset
  have hroom : s.pages .node + pagesFor 4096 .node (getNoNodes dataset) < maxPageNo 4096 := by
    rw [hp, Nat.zero_add]
    exact hnodes
  obtain ⟨hf₁, s₁, h₁, hC₁, hr₁, hother⟩ := h.setBulkImport.allocatePages hroom
  have hroom' : s₁.pages .relationship + pagesFor 4096 .relationship (getNoRels dataset) <
      maxPageNo 4096 := by
    rw [hother _ (by decide), hp, Nat.zero_add]
    exact hrels
  obtain ⟨hf₂, s₂, h₂, hC₂, hr₂, -⟩ := hC₁.allocatePages hroom'
  have hw₁ := hr₁.wellFormed hF.wellFormed
  refine ⟨hf₂, s₂, hC₂, ⟨hr₂.wellFormed hw₁, ?_, ?_⟩, ?_⟩
  · exact hr₂.dense hw₁.valid (hr₁.dense hF.wellFormed.valid hF.nodes)
  · exact hr₂.dense hw₁.valid (hr₁.dense hF.wellFormed.valid hF.rels)
  · rw [importFromTxt]
    simp only [h₁, h₂, ok_bind]
    rfl

/-- The pages of the heap file, in frames or in files, hold the graph. -/
def Shows (hf : HeapFile PageCache) (p : Graph → Prop) : Prop :=
  ∃ db, hf.cache.Mirrors db ∧ p (Store.of ⟨db, hf.counters⟩).graph

theorem Cached.shows (h : Cached hf s) {p : Graph → Prop} (hp : p s.graph) :
    (hf.setBulkImport false).Shows p := by
  obtain ⟨db, ⟨-, hM⟩, -, rfl⟩ := h
  exact ⟨db, ⟨hM.numPages, hM.page, hM.catalogue, hM.remaining⟩, hp⟩

/-- The pages that a graph is read from are those of the cache. -/
theorem Shows.exists_store {p : Graph → Prop} (h : hf.Shows p)
    (hlt : ∀ ft, (hf.cache.pdb.records ft).numPages < maxPageNo 4096) :
    ∃ t : Store, (∀ ft, t.pages ft < maxPageNo 4096) ∧ p t.graph := by
  obtain ⟨db, hM, hp⟩ := h
  refine ⟨_, fun ft => ?_, hp⟩
  have hn : (db.records ft).numPages = (hf.cache.pdb.records ft).numPages := hM.numPages .records ft
  show (db.records ft).numPages < maxPageNo 4096
  rw [hn]
  exact hlt ft

theorem Cached.numPages_lt (h : Cached hf s) (ft : FileType) :
    (hf.cache.pdb.records ft).numPages < maxPageNo 4096 := by
  obtain ⟨db, ⟨-, hM⟩, hA, -⟩ := h
  have hn : (db.records ft).numPages = (hf.cache.pdb.records ft).numPages := hM.numPages .records ft
  rw [← hn]
  exact hA.records_lt ft

end HeapFile

/-! ### The files that fit -/

/-- The records of the entries fit into the files of a heap file, of less than `MAX_PAGE_NO` pages with
256 nodes or 64 relationships each. -/
def FitsHeapFile (es : List Entry) : Prop :=
  (idsOfEntries es).toFinset.card ≤ 256 * (maxPageNo 4096 - 1) ∧
    es.length ≤ 64 * (maxPageNo 4096 - 1)

/-- What is in a heap file fits into one. -/
theorem ImportedAs.fits {t : Store} (hlt : ∀ ft, t.pages ft < maxPageNo 4096) {es : List Entry}
    {N R : Dict} (h : ImportedAs t.graph (idsOfEntries es) es N R) : FitsHeapFile es := by
  have hmax : maxPageNo 4096 < 2 ^ 51 := by decide
  constructor
  · -- the ids go to different nodes, which lie in the pages of the file
    rw [← Finset.card_range (256 * (maxPageNo 4096 - 1))]
    have hnode : ∀ id ∈ (idsOfEntries es).toFinset, ∃ n, N.lookup id = some n := by
      intro id hid
      exact Option.isSome_iff_exists.mp ((h.ids id).mpr (List.mem_toFinset.mp hid))
    refine Finset.card_le_card_of_injOn (fun id => ((N.lookup id).getD 0).toNat) ?_ ?_
    · intro id hid
      obtain ⟨n, hn⟩ := hnode id hid
      obtain ⟨nd, hnd⟩ := Graph.exists_node_of_labelAt
        (Option.isSome_of_eq_some ((h.node id n).mp hn))
      have hpage := (Store.node_eq_some.mp hnd).1.2.1
      have := hlt .node
      simp only [hn, Option.getD_some, Finset.coe_range, Set.mem_Iio]
      omega
    · intro id hid id' hid' heq
      obtain ⟨n, hn⟩ := hnode id hid
      obtain ⟨n', hn'⟩ := hnode id' hid'
      simp only [hn, hn', Option.getD_some] at heq
      have hnn : n = n' := BitVec.eq_of_toNat_eq heq
      subst hnn
      exact Option.some.inj (((h.node id n).mp hn).symm.trans ((h.node id' n).mp hn'))
  · -- the first `2 ^ 64` entries go to different relationships
    have hrel : ∀ k < es.length, ∃ x n m w, R.lookup (BitVec.ofNat 64 k) = some x ∧
        t.graph.payloadAt x = some (n, m, w, BitVec.ofNat 64 k) := by
      intro k hk
      obtain ⟨x, n, m, hx, -, -, hp⟩ := h.rel k es[k] (List.getElem?_eq_getElem hk)
      exact ⟨x, n, m, _, hx, hp⟩
    have hcard : min es.length (2 ^ 64) ≤ 64 * (maxPageNo 4096 - 1) := by
      rw [← Finset.card_range (min es.length (2 ^ 64)), ← Finset.card_range (64 * (maxPageNo 4096 - 1))]
      refine Finset.card_le_card_of_injOn
        (fun k => ((R.lookup (BitVec.ofNat 64 k)).getD 0).toNat / 4) ?_ ?_
      · intro k hk
        rw [Finset.coe_range, Set.mem_Iio] at hk
        obtain ⟨x, n, m, w, hx, hp⟩ := hrel k (by omega)
        obtain ⟨r, hr, -⟩ := Option.map_eq_some_iff.mp hp
        have hpage := (Store.rel_eq_some.mp hr).1.2.1
        have := hlt .relationship
        simp only [hx, Option.getD_some, Finset.coe_range, Set.mem_Iio]
        omega
      · intro k hk k' hk' heq
        rw [Finset.coe_range, Set.mem_Iio] at hk hk'
        obtain ⟨x, n, m, w, hx, hp⟩ := hrel k (by omega)
        obtain ⟨x', n', m', w', hx', hp'⟩ := hrel k' (by omega)
        obtain ⟨r, hr, -⟩ := Option.map_eq_some_iff.mp hp
        obtain ⟨r', hr', -⟩ := Option.map_eq_some_iff.mp hp'
        have ha : x.toNat % 4 = 0 := (Store.rel_eq_some.mp hr).1.1
        have ha' : x'.toNat % 4 = 0 := (Store.rel_eq_some.mp hr').1.1
        simp only [hx, hx', Option.getD_some] at heq
        have hxx : x = x' := BitVec.eq_of_toNat_eq (by omega)
        subst hxx
        rw [hp] at hp'
        have hkk : (BitVec.ofNat 64 k).toNat = (BitVec.ofNat 64 k').toNat := by
          have := (Option.some.inj hp')
          simp only [Prod.mk.injEq] at this
          rw [this.2.2.2]
        rw [BitVec.toNat_ofNat, BitVec.toNat_ofNat, Nat.mod_eq_of_lt (by omega),
          Nat.mod_eq_of_lt (by omega)] at hkk
        exact hkk
    omega

/-! ### Faithful imports -/

/-- Both imports of a file return, into a heap file and into a new graph, and what they leave is what
the file says. -/
structure ImportsFaithfully (fuel : ℕ) (hf : HeapFile PageCache) (file : List Line) (weighted : Bool)
    (dataset : Dataset) : Prop where
  heapFile : ∃ N R hf', hf.importFromTxt 4096 fuel file weighted dataset = .ok ((N, R), hf') ∧
    hf'.Shows fun g =>
      ImportedAs g (idsOfEntries (entries weighted file)) (entries weighted file) N R
  inMemory : ∃ N R g, inMemoryImportFromTxt .create file weighted = .ok ((N, R), g) ∧
    ImportedAs g.graph (idsOfEntries (entries weighted file)) (entries weighted file) N R

/-- A readable file without entries has only comments. -/
theorem comments_of_entries_nil {weighted : Bool} {file : List Line}
    (hread : ∀ line ∈ file, line.Readable weighted) (hnil : entries weighted file = []) :
    ∀ line ∈ file, line = .comment := by
  intro line hl
  rcases hread line hl with h | ⟨e, he, -⟩
  · exact h
  · rw [entries, List.filterMap_eq_nil_iff] at hnil
    rw [hnil line hl] at he
    cases he

/-- The loop over the lines, for an importer that creates records. -/
theorem Importer.Creates.run_file {Op : Type → Type} {σ : Type} {I : Importer Op}
    {h : Handler Op σ Fault} {graph : σ → Graph} {Ok : ℕ → ℕ → σ → Prop} {maxNodes maxRels : ℕ}
    (C : I.Creates h graph Ok maxNodes maxRels) (hmax : maxRels ≤ 2 ^ 64) {s : σ} (hok : Ok 0 0 s)
    (hnode : ∀ n, (graph s).node n = none) (hrel : ∀ x, (graph s).rel x = none) {weighted : Bool}
    {file : List Line} (hread : ∀ line ∈ file, line.Readable weighted)
    (hwhen : weighted = false ∨ entries weighted file = [])
    (hnodes : (idsOfEntries (entries weighted file)).toFinset.card ≤ maxNodes)
    (hrels : (entries weighted file).length ≤ maxRels) :
    ∃ N R s', Prog.run h (I.importLines weighted file 0 ∅ ∅) s = .ok ((N, R), s') ∧
      ImportedAs (graph s') (idsOfEntries (entries weighted file)) (entries weighted file) N R := by
  have hempty := ImportedAs.empty hnode hrel
  rcases hwhen with rfl | hnil
  · obtain ⟨N, R, s', hr, hI, -⟩ := C.importLines hmax hnodes file hempty hok hread
      (fun _ hx => absurd hx List.not_mem_nil) (fun x hx => List.mem_toFinset.mpr hx)
      (by rw [List.length_nil, Nat.zero_add]; exact hrels)
    exact ⟨N, R, s', hr, hI⟩
  · refine ⟨∅, ∅, s, I.run_importLines_comments (comments_of_entries_nil hread hnil) 0 ∅ ∅ s, ?_⟩
    rw [hnil]
    exact hempty

/-- **When an import is faithful.**  For every file that can be read, both imports, into the heap file
of a new database with any number of frames and into a new graph, return and leave what the file says
exactly if there are no weights, or no entries, and the records fit into the files of a heap file. -/
theorem import_faithful_iff {fuel fuel' n : ℕ} {db : PhyDatabase} {pc : PageCache}
    {hf : HeapFile PageCache} {file : List Line} {weighted : Bool} {dataset : Dataset} (hn : 1 ≤ n)
    (hdb : PhyDatabase.create 4096 = .ok db) (hpc : PageCache.create db n = .ok pc)
    (hcreate : HeapFile.create 4096 fuel' (PageCache.handler 4096) pc = .ok hf)
    (hread : ∀ line ∈ file, line.Readable weighted) (hfuel : maxPageNo 4096 * 256 ≤ fuel) :
    ImportsFaithfully fuel hf file weighted dataset ↔
      (weighted = false ∨ entries weighted file = []) ∧ FitsHeapFile (entries weighted file) := by
  have hstart := HeapFile.create_holds hn hdb hpc hcreate
  have hF : Store.empty.recounted.Filled 0 0 :=
    ⟨⟨hstart.2.valid, Store.empty_wellFormed.weights, Store.empty_wellFormed.graph⟩,
      Store.dense_recounted .node, Store.dense_recounted .relationship⟩
  obtain ⟨hf₁, s₁, hC₁, hF₁, heq⟩ := HeapFile.importFromTxt_eq hstart.1 hF (fun ft => by cases ft <;> rfl)
    fuel file weighted dataset
  have hfollows := HeapFile.run_cached hC₁
    (HeapFile.Tidy.importLines fuel weighted file 0 ∅ ∅ s₁ hF₁.wellFormed.valid).1
  constructor
  -- an import that returns has created every record, so they fit; with a weight it does not return
  · rintro ⟨⟨N, R, hf', hrun, hshows⟩, -⟩
    rw [heq] at hrun
    obtain ⟨⟨maps, hf₂⟩, hlines, hret⟩ := bind_inv hrun
    obtain ⟨s₂, -, hC₂⟩ := hfollows.inv hlines
    cases hret
    obtain ⟨t, hlt, hI⟩ := hshows.exists_store fun ft => hC₂.numPages_lt ft
    refine ⟨?_, hI.fits hlt⟩
    cases weighted with
    | false => exact .inl rfl
    | true =>
        by_contra hne
        exact Importer.importLines_weighted_ne file (fun h => hne (.inr h)) 0 ∅ ∅ hf₁ _ hlines
  · rintro ⟨hwhen, hnodes, hrels⟩
    have hmax : 64 * (maxPageNo 4096 - 1) ≤ 2 ^ 64 := by decide
    have hU : uninitializedLong.toNat ≤ 2 ^ 64 := by decide
    have hU₁ : 256 * (maxPageNo 4096 - 1) ≤ uninitializedLong.toNat := by decide
    have hU₂ : 64 * (maxPageNo 4096 - 1) ≤ uninitializedLong.toNat := by decide
    have hnone : ∀ ft x, ¬ s₁.Live ft x := by
      intro ft x hl
      have hd : s₁.Dense ft 0 := by
        cases ft with
        | node => exact hF₁.nodes
        | relationship => exact hF₁.rels
      have := ((hd.live x).mp hl).2
      rw [Nat.zero_mul] at this
      exact Nat.not_lt_zero _ this
    constructor
    · obtain ⟨N, R, s₂, hr, hI⟩ := (Store.creates hfuel).run_file hmax hF₁
        (fun x => Store.node_eq_none.mpr (hnone _ x)) (fun x => Store.rel_eq_none.mpr (hnone _ x))
        hread hwhen hnodes hrels
      obtain ⟨hf₂, hrun, hC₂⟩ := hfollows.of_ok hr
      refine ⟨N, R, hf₂.setBulkImport false, ?_, hC₂.shows hI⟩
      rw [heq, hrun]
      rfl
    · have hF₀ : InMemoryGraph.create.Filled 0 0 := ⟨InMemoryGraph.create_wellFormed, rfl, rfl⟩
      obtain ⟨N, R, g, hr, hI⟩ := InMemoryGraph.creates.run_file hU hF₀ (fun _ => rfl)
        (fun _ => rfl) hread hwhen (hnodes.trans hU₁) (hrels.trans hU₂)
      exact ⟨N, R, g, hr, hI⟩

/-- Ids that occur again, and a self-loop. -/
def edgeList : List Line :=
  [.comment, .fields 7#64 9#64 none, .fields 9#64 7#64 none, .comment, .fields 7#64 7#64 none]

theorem import_faithful_iff_edgeList : ∃ db pc hf, PhyDatabase.create 4096 = .ok db ∧
    PageCache.create db 1 = .ok pc ∧
    HeapFile.create 4096 1 (PageCache.handler 4096) pc = .ok hf ∧
    ImportsFaithfully (maxPageNo 4096 * 256) hf edgeList false .cElegans := by
  have h : (PhyDatabase.create 4096 >>= fun db => PageCache.create db 1 >>= fun pc =>
      HeapFile.create 4096 1 (PageCache.handler 4096) pc >>= fun _ => pure true) = .ok true := by
    decide +kernel
  obtain ⟨db, hdb, h⟩ := bind_inv h
  obtain ⟨pc, hpc, h⟩ := bind_inv h
  obtain ⟨hf, hcreate, -⟩ := bind_inv h
  have hread : ∀ line ∈ edgeList, line.Readable false := by
    intro line hl
    simp only [edgeList, List.mem_cons, List.not_mem_nil, or_false] at hl
    rcases hl with rfl | rfl | rfl | rfl | rfl
    · exact .inl rfl
    · exact .inr ⟨_, rfl, by decide⟩
    · exact .inr ⟨_, rfl, by decide⟩
    · exact .inl rfl
    · exact .inr ⟨_, rfl, by decide⟩
  have hfits : FitsHeapFile (entries false edgeList) := ⟨by decide, by decide⟩
  exact ⟨db, pc, hf, hdb, hpc, hcreate,
    (import_faithful_iff (Nat.le_refl 1) hdb hpc hcreate hread (Nat.le_refl _)).mpr
      ⟨.inl rfl, hfits⟩⟩

/-- One relationship with a weight. -/
def weightedList : List Line := [.fields 1#64 2#64 (some doubleOne)]

/-- The loop over the fields reads behind the end of `from_to`. -/
theorem weightedList_not_faithful : (∀ line ∈ weightedList, line.Readable true) ∧
    inMemoryImportFromTxt .create weightedList true = .error .undefined ∧
    ∃ db pc hf, PhyDatabase.create 4096 = .ok db ∧ PageCache.create db 1 = .ok pc ∧
      HeapFile.create 4096 1 (PageCache.handler 4096) pc = .ok hf ∧
      fault? (hf.importFromTxt 4096 300 weightedList true .cElegans) = some .undefined ∧
      ∀ fuel, ¬ ImportsFaithfully fuel hf weightedList true .cElegans := by
  have h : (PhyDatabase.create 4096 >>= fun db => PageCache.create db 1 >>= fun pc =>
      HeapFile.create 4096 1 (PageCache.handler 4096) pc >>= fun hf => pure (decide
        (fault? (hf.importFromTxt 4096 300 weightedList true .cElegans) = some .undefined))) =
      .ok true := by
    decide +kernel
  have hmem : inMemoryImportFromTxt .create weightedList true = .error .undefined := rfl
  obtain ⟨db, hdb, h⟩ := bind_inv h
  obtain ⟨pc, hpc, h⟩ := bind_inv h
  obtain ⟨hf, hcreate, h⟩ := bind_inv h
  refine ⟨fun line hl => ?_, hmem, db, pc, hf, hdb, hpc, hcreate,
    of_decide_eq_true (Except.ok.inj h), fun fuel hI => ?_⟩
  · rw [weightedList, List.mem_singleton] at hl
    subst hl
    exact .inr ⟨_, rfl, by decide⟩
  · obtain ⟨N, R, g, hr, -⟩ := hI.inMemory
    rw [hmem] at hr
    cases hr

end Goedb
