import Goedb.DataStruct.FibUniform
import Goedb.Order.LayoutTools
import Goedb.Order.SwapPages
import Goedb.Query.CarriedPaths

/-!
# Order — runs of the layout tools

The tools that move records (`Relocation`) rename a graph, so a run of them does, one after the other in
any order.  A query of the records where they are now gives the answer of the query before the run, with
every id renamed: `expand` in the same order, `bfs` and `dfs` with the same numbers and parents,
`random_walk` with the same turns, `dijkstra` and `a_star` with the same distances and relationships
(`HeapFile.relocations_carry`), also with a Fibonacci heap that loses entries
(`HeapFile.CarriesAnswers.fibHeap`).

Of an exchange of nodes it is asked that no relationships are stranded, of the pages that they exist, and
of the ids that are given to be reordered that they are those of records.
-/

namespace Goedb

open Lib
open HF (slotId)

/-- A call of a tool that moves records. -/
inductive Relocation
  | swapNodes (fst snd : Ulong)
  | swapRelationships (fst snd : Ulong)
  | swapRecordPages (fst snd : Ulong) (ft : FileType)
  | reorderNodes (newIds : Dict)
  | reorderNodesBySequence (sequence : List Ulong)
  | reorderRelationships (newIds : Dict)
  | reorderRelationshipsBySequence (sequence : List Ulong)
  | reorderRelationshipsByNodes

namespace Relocation

/-- The call is made. -/
def exec (P fuel : ℕ) : Relocation → HF Unit
  | swapNodes fst snd => HF.swapNodes P fuel fst snd
  | swapRelationships fst snd => HF.swapRelationships P fst snd
  | swapRecordPages fst snd ft => HF.swapRecordPages P fuel fst snd ft
  | reorderNodes newIds => HF.reorderNodes P fuel newIds
  | reorderNodesBySequence sequence => HF.reorderNodesBySequence P fuel sequence
  | reorderRelationships newIds => HF.reorderRelationships P fuel newIds
  | reorderRelationshipsBySequence sequence => HF.reorderRelationshipsBySequence P fuel sequence
  | reorderRelationshipsByNodes => HF.reorderRelationshipsByNodes P fuel

/-- What is asked of a call. -/
def Allowed (s : Store) : Relocation → Prop
  | swapNodes fst snd => ¬ s.Strands fst snd
  | swapRelationships _ _ => True
  | swapRecordPages fst snd ft => fst.toNat < s.pages ft ∧ snd.toNat < s.pages ft ∧
      (ft = .node → ∀ j < 256, ¬ s.Strands (slotId fst j) (slotId snd j))
  | reorderNodes newIds => ∀ x ∈ newIds, s.Live .node x
  | reorderNodesBySequence sequence => ∀ x ∈ sequence, s.Live .node x
  | reorderRelationships newIds => ∀ x ∈ newIds, s.Live .relationship x
  | reorderRelationshipsBySequence sequence => ∀ x ∈ sequence, s.Live .relationship x
  | reorderRelationshipsByNodes => True

end Relocation

namespace Store

variable {s s' : Store} {fuel : ℕ} {fst snd : Ulong}

/-! ### One call -/

/-- **`swap_nodes`** renames if it strands no relationships. -/
theorem swapNodes_renamed (hw : s.WellFormed) (hfuel : s.pages .relationship * 256 < fuel)
    (hs : ¬ s.Strands fst snd) (h : run (HF.swapNodes 4096 fuel fst snd) s = .ok ((), s')) :
    ∃ τ, s.Renamed .node τ s' := by
  have hacc : HF.SwapAccepts 4096 .node (s.pages .node) fst ∧
      HF.SwapAccepts 4096 .node (s.pages .node) snd := by
    by_contra hnot
    obtain ⟨numPages, s₁, h₁, h⟩ := Prog.run_bind_inv _ h
    cases h₁
    rw [if_pos hnot] at h
    cases h
  have hp := ((swapAccepts_iff .node hw.valid).mp hacc.1).1
  have hq := ((swapAccepts_iff .node hw.valid).mp hacc.2).1
  obtain ⟨s₁, hrun, hR⟩ := run_swapNodes_spares hw hfuel hp hq hs
  cases h.symm.trans hrun
  exact ⟨_, hR⟩

/-- **`reorder_nodes`** renames, wherever the nodes shall go. -/
theorem reorderNodes_inv (hw : s.WellFormed) (hfuel : s.pages .relationship * 256 < fuel)
    {newIds : Dict} (hkeys : ∀ x ∈ newIds, s.Live .node x)
    (h : run (HF.reorderNodes 4096 fuel newIds) s = .ok ((), s')) : ∃ τ, s.Renamed .node τ s' := by
  have hafter : Inert fun _ _ => pure () := by
    rintro newIds inverse s s' ⟨⟩
    rfl
  exact (reorderLoop_inv (swaps_nodes hfuel) (stays_swapNodes fuel) hafter (.inl rfl)
    (fun _ _ => rfl) fuel (i := 0) hw rfl (inverts_inverse newIds) hkeys h).1

theorem reorderNodesBySequence_inv (hw : s.WellFormed) (hfuel : s.pages .relationship * 256 < fuel)
    {sequence : List Ulong} (hsequence : ∀ x ∈ sequence, s.Live .node x)
    (h : run (HF.reorderNodesBySequence 4096 fuel sequence) s = .ok ((), s')) :
    ∃ τ, s.Renamed .node τ s' := by
  obtain ⟨c, s₁, h₁, hk₁⟩ := Prog.run_bind_inv _ h
  cases h₁
  obtain ⟨ids, s₂, h₂, hk₂⟩ := Prog.run_bind_inv _ hk₁
  obtain ⟨-, rfl⟩ := run_lift_inv h₂
  obtain ⟨newIds, s₃, h₃, hk₃⟩ := Prog.run_bind_inv _ hk₂
  obtain ⟨hinsert, rfl⟩ := run_lift_inv h₃
  exact reorderNodes_inv hw hfuel (fun x hx => hsequence x
    ((insertAll_keys hinsert x hx).resolve_left (AList.notMem_empty x))) hk₃

/-- **A call that returns** renames the records of one type. -/
theorem relocation_renamed (hw : s.WellFormed) (hc : s.Counted)
    (hfuel : maxPageNo 4096 * 256 ≤ fuel) {call : Relocation} (ha : call.Allowed s)
    (h : run (call.exec 4096 fuel) s = .ok ((), s')) : ∃ ft τ, s.Renamed ft τ s' := by
  have hpages := hw.valid.pages_lt .relationship
  have hrels : s.pages .relationship * 256 < fuel := by omega
  have hpos : 256 < fuel := Nat.lt_of_lt_of_le (by decide) hfuel
  cases call with
  | swapNodes fst snd => exact ⟨.node, swapNodes_renamed hw hrels ha h⟩
  | swapRelationships fst snd => exact ⟨.relationship, swapRelationships_renamed hw h⟩
  | swapRecordPages fst snd ft =>
      obtain ⟨hfst, hsnd, hs⟩ := ha
      obtain ⟨s₁, τ, hrun, hR, -⟩ := run_swapRecordPages hw hrels hpos hfst hsnd hs
      cases h.symm.trans hrun
      exact ⟨ft, τ, hR⟩
  | reorderNodes newIds => exact ⟨.node, reorderNodes_inv hw hrels ha h⟩
  | reorderNodesBySequence sequence => exact ⟨.node, reorderNodesBySequence_inv hw hrels ha h⟩
  | reorderRelationships newIds => exact ⟨.relationship, reorderRelationships_inv hw ha h⟩
  | reorderRelationshipsBySequence sequence =>
      exact ⟨.relationship, reorderRelationshipsBySequence_inv hw ha h⟩
  | reorderRelationshipsByNodes => exact ⟨.relationship, reorderRelationshipsByNodes_inv hw hc hfuel h⟩

end Store

/-! ### The answers -/

namespace HeapFile

variable {hf hf' : HeapFile PhyDatabase} {fuel : ℕ} {τ σ : Renaming}

/-- Both queries return, with related answers, or neither does. -/
def BothAnswer (hf hf' : HeapFile PhyDatabase) {α β : Type} (R : α → β → Prop) (x : HF α) (y : HF β) :
    Prop :=
  (∃ a b, hf.Returns x a ∧ hf'.Returns y b ∧ R a b) ∨
    (∀ a, ¬ hf.Returns x a) ∧ ∀ b, ¬ hf'.Returns y b

theorem bothAnswer_of_inStep {α β : Type} {R : α → β → Prop} {x : HF α} {y : HF β} (hg : hf.Good)
    (hg' : hf'.Good) (h : (Store.of hf).InStep (Store.of hf') R x y) : hf.BothAnswer hf' R x y := by
  have hrun := h _ _ ⟨rfl, rfl⟩
  generalize hx : Prog.run Store.step x (Store.of hf) = a at hrun
  generalize hy : Prog.run Store.step y (Store.of hf') = b at hrun
  cases hrun with
  | @ok p q hpq =>
      obtain ⟨a, s⟩ := p
      obtain ⟨b, s'⟩ := q
      obtain ⟨hR, rfl, rfl⟩ := hpq
      exact .inl ⟨a, b, returns_of_store hg hx, returns_of_store hg' hy, hR⟩
  | error e =>
      refine .inr ⟨?_, ?_⟩
      · rintro a ⟨hf₁, hrun, -⟩
        cases hx.symm.trans (run_inv hg hrun).2
      · rintro b ⟨hf₁, hrun, -⟩
        cases hy.symm.trans (run_inv hg' hrun).2

/-- The query returns on the store of the first heap file, so both return. -/
theorem both_of_inStep {α β : Type} {R : α → β → Prop} {x : HF α} {y : HF β} (hg : hf.Good)
    (hg' : hf'.Good) (h : (Store.of hf).InStep (Store.of hf') R x y) {a : α}
    (hx : Store.run x (Store.of hf) = .ok (a, Store.of hf)) :
    ∃ a b, hf.Returns x a ∧ hf'.Returns y b ∧ R a b := by
  rcases bothAnswer_of_inStep hg hg' h with hboth | ⟨hnot, -⟩
  · exact hboth
  · exact absurd (returns_of_store hg hx) (hnot a)

/-- The queries of the second heap file give the answers of the first, renamed. -/
structure CarriesAnswers (hf hf' : HeapFile PhyDatabase) (fuel : ℕ) (τ σ : Renaming) : Prop where
  expand : ∀ n direction, (Store.of hf).Live .node n →
    ∃ rels rels', hf.Returns (HF.expand fuel n direction) rels ∧
      hf'.Returns (HF.expand fuel (τ n) direction) rels' ∧
      rels' = rels.map (Relationship.rename τ σ)
  degree : ∀ n direction, (Store.of hf).Live .node n →
    ∃ degree degree', hf.Returns (HF.getDegree fuel n direction) degree ∧
      hf'.Returns (HF.getDegree fuel (τ n) direction) degree' ∧ degree' = degree
  bfs : ∀ n direction, (Store.of hf).Live .node n →
    ∃ r r', hf.Returns (HF.bfs 4096 fuel n direction) r ∧
      hf'.Returns (HF.bfs 4096 fuel (τ n) direction) r' ∧ r.Carried τ σ r'
  dfs : ∀ n direction, (Store.of hf).Live .node n →
    ∃ r r', hf.Returns (HF.dfs 4096 fuel n direction) r ∧
      hf'.Returns (HF.dfs 4096 fuel (τ n) direction) r' ∧ r.Carried τ σ r'
  randomWalk : ∀ val rand numSteps n direction, (Store.of hf).Live .node n →
    ∃ p p', hf.Returns (HF.randomWalk val fuel rand n numSteps direction) p ∧
      hf'.Returns (HF.randomWalk val fuel rand (τ n) numSteps direction) p' ∧ p' = p.rename τ σ
  dijkstra : ∀ (Q : PrioQueue (WithTop ℚ)) val n direction, Q.Uniform → (Store.of hf).Live .node n →
    hf.BothAnswer hf' (SsspResult.Carried τ σ) (HF.dijkstra Q val 4096 fuel n direction)
      (HF.dijkstra Q val 4096 fuel (τ n) direction)
  aStar : ∀ (Q : PrioQueue Total) val (heuristic heuristic' : DistDict) n m direction, Q.Uniform →
    CarriedDict τ id heuristic heuristic' → (Store.of hf).Live .node n → (Store.of hf).Live .node m →
    hf.BothAnswer hf' (fun p p' => p' = p.rename τ σ) (HF.aStar Q val fuel heuristic n m direction)
      (HF.aStar Q val fuel heuristic' (τ n) (τ m) direction)
  distances : ∀ (Q Q' : PrioQueue (WithTop ℚ)) val n direction, Q.Lawful → Q'.Lawful →
    (∀ x r, hf.graph.rel x = some r → 0 ≤ val r.weight) → (Store.of hf).Live .node n →
    ∃ N r r', (∀ fuel ≥ N, hf.Returns (HF.dijkstra Q val 4096 fuel n direction) r ∧
      hf'.Returns (HF.dijkstra Q' val 4096 fuel (τ n) direction) r') ∧
      CarriedDict τ id r.distances r'.distances

/-- **A renaming carries the answers.** -/
theorem carriesAnswers (hw : hf.WellFormed) (hc : (Store.of hf).Counted) (hw' : hf'.WellFormed)
    (hc' : (Store.of hf').Counted) (hgraph : hf'.graph = hf.graph.rename τ σ)
    (hfuel : maxPageNo 4096 * 256 ≤ fuel) : hf.CarriesAnswers hf' fuel τ σ := by
  have hs := hw.store.walkable hc
  have h : (Store.of hf).Carried τ σ (Store.of hf') := ⟨hs, hw'.store.walkable hc', hgraph⟩
  refine ⟨fun n direction hn => ?_, fun n direction hn => ?_, fun n direction hn => ?_,
    fun n direction hn => ?_, fun val rand numSteps n direction hn => ?_,
    fun Q val n direction hQ hn => ?_, fun Q val heuristic heuristic' n m direction hQ hheur hn hm => ?_,
    fun Q Q' val n direction L L' hval hn => ?_⟩
  · obtain ⟨rels, hrun, -⟩ := hs.run_expand hn direction
    obtain ⟨a, b, ha, hb, hR, -⟩ := both_of_inStep hw.good hw'.good (h.inStep_expand hn direction hfuel)
      (hrun fuel hfuel)
    exact ⟨a, b, ha, hb, hR⟩
  · exact both_of_inStep hw.good hw'.good (h.inStep_getDegree hn direction hfuel)
      (hs.run_getDegree hn direction hfuel)
  · obtain ⟨r, f, hrun, -⟩ := hs.run_traverse hn Store.pops_popFirst takesOne_first hfuel
      "bfs: Invalid Arguments" direction
    exact both_of_inStep hw.good hw'.good
      (h.inStep_traverse Store.naturally_popFirst _ hn direction hfuel) hrun
  · obtain ⟨r, f, hrun, -⟩ := hs.run_traverse hn Store.pops_popLast takesOne_last hfuel
      "dfs: Invalid Arguments!" direction
    exact both_of_inStep hw.good hw'.good
      (h.inStep_traverse Store.naturally_popLast _ hn direction hfuel) hrun
  · obtain ⟨p, -, -, hrun⟩ := hs.run_randomWalk hn rand numSteps direction
    exact both_of_inStep hw.good hw'.good
      (h.inStep_randomWalk val rand numSteps hn direction hfuel) (hrun fuel hfuel)
  · obtain ⟨rel, hrel⟩ := hQ ((Store.of hf).Follows τ)
    exact bothAnswer_of_inStep hw.good hw'.good (h.inStep_dijkstra hrel val hn direction hfuel)
  · obtain ⟨rel, hrel⟩ := hQ ((Store.of hf).Follows τ)
    exact bothAnswer_of_inStep hw.good hw'.good
      (h.inStep_aStar hrel val hheur hn hm direction hfuel)
  · obtain ⟨N, r, r', hrun, hdist⟩ := h.distances hn hval L L' direction
    exact ⟨N, r, r', fun fuel hfuel => ⟨returns_of_store hw.good (hrun fuel hfuel).1,
      returns_of_store hw'.good (hrun fuel hfuel).2⟩, hdist⟩

/-- The Fibonacci heap does not look at the nodes, so the searches of the source answer alike with it. -/
theorem CarriesAnswers.fibHeap (h : hf.CarriesAnswers hf' fuel τ σ) (maxDegree : ℕ → ℕ)
    (val : Double → ℚ) {n m : Ulong} (hn : (Store.of hf).Live .node n) (direction : Direction) :
    hf.BothAnswer hf' (SsspResult.Carried τ σ)
      (HF.dijkstra (.fibHeap maxDegree) val 4096 fuel n direction)
      (HF.dijkstra (.fibHeap maxDegree) val 4096 fuel (τ n) direction) ∧
    ∀ heuristic heuristic', CarriedDict τ id heuristic heuristic' → (Store.of hf).Live .node m →
      hf.BothAnswer hf' (fun p p' => p' = p.rename τ σ)
        (HF.aStar (.fibHeap maxDegree) val fuel heuristic n m direction)
        (HF.aStar (.fibHeap maxDegree) val fuel heuristic' (τ n) (τ m) direction) :=
  ⟨h.dijkstra _ val n direction (PrioQueue.uniform_fibHeap maxDegree) hn,
    fun heuristic heuristic' hheur hm => h.aStar _ val heuristic heuristic' n m direction
      (PrioQueue.uniform_fibHeap maxDegree) hheur hn hm⟩

/-! ### Runs -/

/-- One call on a heap file. -/
def relocate (fuel : ℕ) (call : Relocation) (hf : HeapFile PhyDatabase) :
    Except Fault (HeapFile PhyDatabase) :=
  (run (call.exec 4096 fuel) hf).map Prod.snd

/-- The heap file is the first one under some renaming. -/
structure Relocated (hf hf' : HeapFile PhyDatabase) : Prop where
  wellFormed : hf'.WellFormed
  counted : (Store.of hf').Counted
  graph : ∃ τ σ, hf'.graph = hf.graph.rename τ σ

/-- **One call** renames what was renamed before. -/
theorem Relocated.step {hf₀ : HeapFile PhyDatabase} (h : hf₀.Relocated hf)
    (hfuel : maxPageNo 4096 * 256 ≤ fuel) {call : Relocation} (ha : call.Allowed (Store.of hf))
    (hrun : relocate fuel call hf = .ok hf') : hf₀.Relocated hf' := by
  rw [relocate] at hrun
  generalize hx : run (call.exec 4096 fuel) hf = x at hrun
  cases x with
  | error e => cases hrun
  | ok p =>
      obtain ⟨u, hf₁⟩ := p
      cases hrun
      obtain ⟨hg, hstore⟩ := run_inv h.wellFormed.good hx
      obtain ⟨ft, ρ, hR⟩ := Store.relocation_renamed h.wellFormed.store h.counted hfuel ha hstore
      obtain ⟨τ, σ, hgraph⟩ := h.graph
      refine ⟨⟨hg, hR.wellFormed⟩, hR.counted h.counted, ?_⟩
      have hnext : hf₁.graph = hf.graph.renameAt ft ρ := hR.graph
      rw [hnext, hgraph]
      cases ft with
      | node => exact ⟨ρ * τ, 1 * σ, Graph.rename_rename ..⟩
      | relationship => exact ⟨1 * τ, ρ * σ, Graph.rename_rename ..⟩

/-- **The layout tools carry the answers.**  After every run of allowed calls that returns, the queries
give the answers of before under one renaming. -/
theorem relocations_carry (hw : hf.WellFormed) (hc : (Store.of hf).Counted)
    (hfuel : maxPageNo 4096 * 256 ≤ fuel) {calls : List Relocation}
    (ha : Along (relocate fuel) (fun hf call => call.Allowed (Store.of hf)) calls hf)
    (hrun : runSteps (relocate fuel) calls hf = .ok hf') :
    ∃ τ σ, hf'.WellFormed ∧ hf'.graph = hf.graph.rename τ σ ∧ hf.CarriesAnswers hf' fuel τ σ := by
  have hinv := run_invariant (fun _ _ u => u) (I := fun (_ : Unit) => hf.Relocated) (E := fun _ => True)
    (fun _ _ _ _ h ha hstep => h.step hfuel ha hstep) (fun _ _ _ _ _ _ _ => trivial) calls () (s := hf)
    ⟨hw, hc, 1, 1, (Graph.rename_one _).symm⟩ ha
  obtain ⟨hw', hc', τ, σ, hgraph⟩ := hinv.1 hf' hrun
  exact ⟨τ, σ, hw', hgraph, carriesAnswers hw hc hw' hc' hgraph hfuel⟩

/-- The two nodes change places, and then their relationship moves to the next slot. -/
theorem relocations_carry_joined : ∃ hf hf' τ σ, hf.WellFormed ∧
    runSteps (relocate (maxPageNo 4096 * 256))
      [.swapNodes 0#64 1#64, .swapRelationships 0#64 4#64] hf = .ok hf' ∧ hf'.WellFormed ∧
    hf'.graph = hf.graph.rename τ σ ∧ hf.CarriesAnswers hf' (maxPageNo 4096 * 256) τ σ := by
  obtain ⟨hf, hw, hj⟩ := exists_joined
  have hpages := hw.store.valid.pages_lt .relationship
  have hrel : (Store.of hf).Live .relationship 0#64 := Store.isSome_rel.mp (by rw [hj.rel]; rfl)
  have hpage : 0 < (Store.of hf).pages .relationship := hrel.2.1
  obtain ⟨s₁, hrun₁, hR₁⟩ : ∃ s', Store.run (HF.swapNodes 4096 (maxPageNo 4096 * 256) 0#64 1#64)
      (Store.of hf) = .ok ((), s') ∧ (Store.of hf).Renamed .node (Equiv.swap 0#64 1#64) s' :=
    Store.run_swapNodes_renamed hw.store (by omega) hj.live_zero hj.live_one
  obtain ⟨hf₁, hswap₁, hg₁, rfl⟩ := run_ok hw.good hrun₁
  have hpage₁ : 0 < (Store.of hf₁).pages .relationship := by
    rw [hR₁.pages]
    exact hpage
  obtain ⟨s₂, hrun₂, hR₂⟩ : ∃ s', Store.run (HF.swapRelationships 4096 0#64 4#64) (Store.of hf₁) =
      .ok ((), s') ∧ (Store.of hf₁).Renamed .relationship (Equiv.swap 0#64 4#64) s' :=
    Store.run_swapRelationships_renamed hR₁.wellFormed rfl rfl hpage₁ hpage₁
  obtain ⟨hf₂, hswap₂, -, rfl⟩ := run_ok hg₁ hrun₂
  have h₁ : relocate (maxPageNo 4096 * 256) (.swapNodes 0#64 1#64) hf = .ok hf₁ := by
    rw [relocate, Relocation.exec, hswap₁]
    rfl
  have h₂ : relocate (maxPageNo 4096 * 256) (.swapRelationships 0#64 4#64) hf₁ = .ok hf₂ := by
    rw [relocate, Relocation.exec, hswap₂]
    rfl
  have hrun : runSteps (relocate (maxPageNo 4096 * 256))
      [.swapNodes 0#64 1#64, .swapRelationships 0#64 4#64] hf = .ok hf₂ := by
    rw [runSteps, h₁]
    dsimp only
    rw [runSteps, h₂]
    rfl
  have hstrands : ¬ (Store.of hf).Strands 0#64 1#64 :=
    fun h => Store.node_eq_none.mp h.1 hj.live_one
  obtain ⟨τ, σ, hw', hgraph, hcarries⟩ := relocations_carry hw hj.counted (Nat.le_refl _) (by
    rw [Along, h₁]
    refine ⟨hstrands, ?_⟩
    dsimp only
    rw [Along, h₂]
    exact ⟨trivial, trivial⟩) hrun
  exact ⟨hf, hf₂, τ, σ, hw, hrun, hw', hgraph, hcarries⟩

end HeapFile

end Goedb
