import Goedb.DataStruct.FibRuns
import Mathlib.Analysis.Complex.ExponentialBounds

/-!
# DataStruct — what Fibonacci heaps promise

A heap is to represent the multiset of the entries that were inserted and not yet removed, and
`consolidate` is to stay inside `nodes_w_degree`.  Both hold in every run in which each consolidation
finds a heap that fits (`represents_bags`, `staysInTable`), and neither holds in all runs.

* The walk over the roots may stop before it has come past all of them: a merge takes it back to a root in
  front of the one to stop at (`missesRoot`).  The roots it has not come past are lost.
* The table has no place for the degree that its length names, and a tree from which nodes were cut may
  have a root of that degree (`thins`).
-/

namespace Goedb

open Lib FibMemory

/-- The length of `nodes_w_degree`, with the logarithm and the product taken as real numbers. -/
noncomputable def maxDegree (numNodes : ℕ) : ℕ := ⌊(2.1 : ℝ) * Real.log numNodes⌋₊

/-! ### Reachability -/

namespace FibMemory

variable {K V : Type} {m : FibMemory K V} {l : List ℕ} {x y : ℕ}

/-- `y` is to the right of `x`, or its child. -/
def Next (m : FibMemory K V) (x y : ℕ) : Prop := y = m.right x ∨ (y = m.child x ∧ y ≠ null)

/-- A node is reached from the root list. -/
def Reached (m : FibMemory K V) (fh : FibHeap) (x : ℕ) : Prop :=
  fh.min ≠ null ∧ Relation.ReflTransGen m.Next fh.min x

theorem reflTransGen_of_isChain {R : ℕ → ℕ → Prop} (h : List.IsChain R (x :: l)) (hy : y ∈ x :: l) :
    Relation.ReflTransGen R x y := by
  induction l generalizing x with
  | nil =>
      rw [List.mem_singleton] at hy
      exact hy ▸ .refl
  | cons v l ih =>
      rcases List.mem_cons.mp hy with rfl | hy
      · exact .refl
      · exact .head h.rel (ih h.tail hy)

/-- All nodes of a ring are reached from its first one. -/
theorem Linked.reaches (h : Linked m (x :: l)) (hy : y ∈ x :: l) :
    Relation.ReflTransGen m.Next x y := by
  obtain ⟨hchain, -, -⟩ := (Ring.iff_chain (List.cons_ne_nil x l)).mp h.ring
  exact reflTransGen_of_isChain (hchain.imp fun _ _ hlink => .inl hlink.1.symm) hy

/-- **All nodes of a heap are reached**, from the roots down. -/
theorem Holds.reached [LinearOrder K] {fh : FibHeap} {S : Finset ℕ} (h : Holds m fh S) :
    ∀ p ∈ S, Reached m fh p := by
  intro p hp
  have hne : fh.min ≠ null := h.min_ne_null hp
  obtain ⟨kids, roots, ht, -, hmin, -⟩ := h
  obtain ⟨rest, rfl⟩ := exists_rest hmin hne
  refine ⟨hne, ht.climb (fun r hr => ht.roots_linked.reaches hr) (fun q hq hreach c hc => ?_) p hp⟩
  cases hks : kids q with
  | nil =>
      rw [hks] at hc
      exact absurd hc List.not_mem_nil
  | cons k ks =>
      have hlinked := ht.kids_linked q hq
      have hk := ht.kid_mem q hq k
      have hchild := ht.child_eq q hq
      rw [hks] at hc hlinked hk hchild
      exact (hreach.tail (.inr ⟨hchild.symm, ht.ne_null k (hk List.mem_cons_self)⟩)).trans
        (hlinked.reaches hc)

end FibMemory

namespace FibSession

variable {K V : Type} [LinearOrder K] [OrderBot K]

/-- The heap behind the pointer `h` represents its bag. -/
structure Represents (s : FibSession K V) (h : ℕ) (fh : FibHeap) : Prop where
  numNodes : fh.numNodes = (s.bags.bag h).card
  reached : ∀ p ∈ s.bags.ids h, Reached s.heaps.mem fh p
  entry : ∀ p ∈ s.bags.ids h, s.bags.entry p = (s.heaps.mem.key p, s.heaps.mem.value p)
  min_eq_null_iff : fh.min = null ↔ s.bags.bag h = 0

/-- All heaps represent their bags. -/
def Faithful (s : FibSession K V) : Prop := ∀ h fh, s.heaps.heap h = some fh → s.Represents h fh

/-- `extract_min` returns an entry with the least key of the bag, and all heaps represent their bags when
exactly this entry is removed. -/
def Extracts (maxDegree : ℕ → ℕ) (s : FibSession K V) (h : ℕ) : Prop :=
  ∃ z w, s.heaps.exec maxDegree (.extractMin h) = .ok (z, w) ∧ z ∈ s.bags.ids h ∧
    (∀ e ∈ s.bags.bag h, (s.bags.entry z).1 ≤ e.1) ∧
    Faithful ⟨w, s.bags.after (.extractMin h) z⟩

namespace Inv

variable {maxDegree : ℕ → ℕ} {s : FibSession K V} {h : ℕ} (hI : s.Inv)
include hI

theorem faithful : s.Faithful := by
  intro h fh hh
  have hH := hI.holds h fh hh
  refine ⟨?_, hH.reached, hI.entry h, ?_⟩
  · rw [Bags.bag, Multiset.card_map]
    exact hH.numNodes_eq
  · rw [Bags.bag, Multiset.map_eq_zero, Finset.val_eq_zero]
    exact hH.min_eq_null_iff

theorem extracts (hb : s.bags.bag h ≠ 0) (hf : s.Fitting maxDegree (.extractMin h)) :
    s.Extracts maxDegree h := by
  have hne : s.bags.ids h ≠ ∅ := by
    rwa [Bags.bag, ne_eq, Multiset.map_eq_zero, Finset.val_eq_zero] at hb
  obtain ⟨p, hp⟩ := Finset.nonempty_iff_ne_empty.mpr hne
  obtain ⟨fh, hh⟩ := hI.exists_heap hp
  have hH := hI.holds h fh hh
  have hmin : fh.min ≠ null := hH.min_ne_null hp
  obtain ⟨w, hrun, hI'⟩ := hI.extractMin hh hmin (hf fh hh)
  refine ⟨fh.min, w, hrun, hH.min_mem hmin, fun e he => ?_, hI'.faithful⟩
  obtain ⟨q, hq, rfl⟩ := Multiset.mem_map.mp he
  rw [hI.entry h q hq, hI.entry h _ (hH.min_mem hmin)]
  exact hH.min_le hq

end Inv

/-! ### The multiset of entries -/

/-- **The heaps represent their bags** in every run of calls whose consolidations find heaps that fit, and
`extract_min` returns a least entry and removes it. -/
theorem represents_bags [Inhabited K] [Inhabited V] (maxDegree : ℕ → ℕ) (calls : List (FibCall K V))
    (h : Along (step maxDegree) (fun s c => s.Called c ∧ s.Fitting maxDegree c) calls start)
    (s : FibSession K V) (hs : runSteps (step maxDegree) calls start = .ok s) :
    s.Faithful ∧ ∀ h, s.bags.bag h ≠ 0 → s.Fitting maxDegree (.extractMin h) →
      s.Extracts maxDegree h := by
  have hI := (run_inv h).1 s hs
  exact ⟨hI.faithful, fun _ => hI.extracts⟩

end FibSession

/-! ### The length of the table -/

/-- The length of the table, from bounds of a power by powers of two. -/
theorem maxDegree_eq {n k a b c d : ℕ} (hn : 0 < n) (hb : 0 < b) (hd : 0 < d)
    (ha : 2 ^ a ≤ n ^ b) (hc : n ^ d ≤ 2 ^ c) (hlo : k * b * 10 ^ 11 ≤ 21 * 6931471803 * a)
    (hhi : 21 * 6931471808 * c < (k + 1) * d * 10 ^ 11) : maxDegree n = k := by
  have hn' : (0 : ℝ) < n := Nat.cast_pos.mpr hn
  have hb' : (0 : ℝ) < b := Nat.cast_pos.mpr hb
  have hd' : (0 : ℝ) < d := Nat.cast_pos.mpr hd
  have ha' : (2 : ℝ) ^ a ≤ (n : ℝ) ^ b := mod_cast ha
  have hc' : (n : ℝ) ^ d ≤ (2 : ℝ) ^ c := mod_cast hc
  have hlo' : (k : ℝ) * b * 10 ^ 11 ≤ 21 * 6931471803 * a := mod_cast hlo
  have hhi' : (21 : ℝ) * 6931471808 * c < (k + 1) * d * 10 ^ 11 := mod_cast hhi
  have hlog := Real.log_le_log (by positivity) ha'
  have hlog' := Real.log_le_log (by positivity) hc'
  rw [Real.log_pow, Real.log_pow] at hlog hlog'
  have ha₂ := mul_le_mul_of_nonneg_left Real.log_two_gt_d9.le (Nat.cast_nonneg (α := ℝ) a)
  have hc₂ := mul_le_mul_of_nonneg_left Real.log_two_lt_d9.le (Nat.cast_nonneg (α := ℝ) c)
  have hle : (k : ℝ) ≤ 2.1 * Real.log n := le_of_mul_le_mul_right (by linarith) hb'
  have hlt : 2.1 * Real.log n < k + 1 := lt_of_mul_lt_mul_right (by linarith) hd'.le
  exact (Nat.floor_eq_iff ((Nat.cast_nonneg k).trans hle)).mpr ⟨hle, hlt⟩

/-- The length for a few numbers of nodes, to compute with. -/
theorem maxDegree_table : maxDegree = fun n =>
    if n = 1 then 0 else if n = 2 then 1 else if n = 3 then 2 else if n = 4 then 2
    else if n = 5 then 3 else if n = 7 then 4 else if n = 8 then 4 else maxDegree n := by
  funext n
  split_ifs with h₁ h₂ h₃ h₄ h₅ h₇ h₈
  · subst h₁
    exact maxDegree_eq (a := 0) (b := 1) (c := 0) (d := 1) (by decide) (by decide) (by decide)
      (by decide) (by decide) (by decide) (by decide)
  · subst h₂
    exact maxDegree_eq (a := 1) (b := 1) (c := 1) (d := 1) (by decide) (by decide) (by decide)
      (by decide) (by decide) (by decide) (by decide)
  · subst h₃
    exact maxDegree_eq (a := 3) (b := 2) (c := 5) (d := 3) (by decide) (by decide) (by decide)
      (by decide) (by decide) (by decide) (by decide)
  · subst h₄
    exact maxDegree_eq (a := 2) (b := 1) (c := 2) (d := 1) (by decide) (by decide) (by decide)
      (by decide) (by decide) (by decide) (by decide)
  · subst h₅
    exact maxDegree_eq (a := 9) (b := 4) (c := 5) (d := 2) (by decide) (by decide) (by decide)
      (by decide) (by decide) (by decide) (by decide)
  · subst h₇
    exact maxDegree_eq (a := 11) (b := 4) (c := 3) (d := 1) (by decide) (by decide) (by decide)
      (by decide) (by decide) (by decide) (by decide)
  · subst h₈
    exact maxDegree_eq (a := 3) (b := 1) (c := 3) (d := 1) (by decide) (by decide) (by decide)
      (by decide) (by decide) (by decide) (by decide)
  · rfl

namespace FibSession

/-- Two heaps are joined, and the least entry and another one leave the joined heap. -/
def joins : List (FibCall (WithBot ℕ) ℕ) :=
  [.create, .insert 0 (4 : ℕ) 40, .insert 0 (7 : ℕ) 70, .insert 0 (9 : ℕ) 90, .create,
    .insert 1 (3 : ℕ) 30, .insert 1 (8 : ℕ) 80, .union 0 1, .extractMin 2, .decreaseKey 2 3 (1 : ℕ),
    .delete 2 2]

theorem joins_fit : Along (step maxDegree) (fun s c => s.Called c ∧ s.Fitting maxDegree c)
    joins start := by
  rw [maxDegree_table]
  decide +kernel

theorem joins_returns : ∃ s, runSteps (step maxDegree) joins start = .ok s := by
  rw [← fault?_eq_none, maxDegree_table]
  decide +kernel

theorem represents_bags_joins : ∃ s, runSteps (step maxDegree) joins start = .ok s ∧ s.Faithful ∧
    ∀ h, s.bags.bag h ≠ 0 → s.Fitting maxDegree (.extractMin h) → s.Extracts maxDegree h := by
  obtain ⟨s, hs⟩ := joins_returns
  exact ⟨s, hs, represents_bags maxDegree joins joins_fit s hs⟩

/-- The second `extract_min` leaves six roots.  The fifth of them is merged into the third one, whose right
neighbour is the root to stop at by then: the sixth root is not come past. -/
def missesRoot : List (FibCall (WithBot ℕ) ℕ) :=
  [.create, .insert 0 (25 : ℕ) 1, .insert 0 (28 : ℕ) 2, .insert 0 (2 : ℕ) 3, .insert 0 (25 : ℕ) 4,
    .extractMin 0, .insert 0 (18 : ℕ) 5, .insert 0 (10 : ℕ) 6, .insert 0 (19 : ℕ) 7,
    .insert 0 (25 : ℕ) 8, .insert 0 (30 : ℕ) 9, .extractMin 0]

/-- The root with the key 18 is lost, and the next `extract_min` returns 19. -/
theorem missesRoot_not_represented : ¬ ∀ (calls : List (FibCall (WithBot ℕ) ℕ)) s,
    Along (step maxDegree) Called calls start → runSteps (step maxDegree) calls start = .ok s →
    s.Faithful ∧ ∀ h, s.bags.bag h ≠ 0 → s.Extracts maxDegree h := by
  intro hall
  have hcalled : Along (step maxDegree) Called missesRoot start := by
    rw [maxDegree_table]
    decide +kernel
  have hreturns : ∃ s, runSteps (step maxDegree) missesRoot start = .ok s := by
    rw [← fault?_eq_none, maxDegree_table]
    decide +kernel
  have hlost : ∀ s, runSteps (step maxDegree) missesRoot start = .ok s → 5 ∈ s.bags.ids 0 ∧
      ∀ r, s.heaps.exec maxDegree (.extractMin 0) = .ok r →
        (s.bags.entry 5).1 < (s.bags.entry r.1).1 := by
    rw [maxDegree_table]
    decide +kernel
  obtain ⟨s, hs⟩ := hreturns
  obtain ⟨hmem, hless⟩ := hlost s hs
  have hbag : s.bags.entry 5 ∈ s.bags.bag 0 := Multiset.mem_map_of_mem _ hmem
  obtain ⟨z, w, hz, -, hleast, -⟩ := (hall missesRoot s hcalled hs).2 0 fun he =>
    Multiset.notMem_zero _ (he ▸ hbag)
  exact not_le.mpr (hless _ hz) (hleast _ hbag)

/-! ### The table -/

variable {K V : Type} [LinearOrder K] [OrderBot K] [Inhabited K] [Inhabited V]

/-- No access of a run is out of bounds, and every entry is reached afterwards: the rebuilt root lists are
complete. -/
def StaysInTable (calls : List (FibCall K V)) : Prop :=
  (∀ e, runSteps (step maxDegree) calls start = .error e → ∃ text, e = .exit text) ∧
    ∀ s, runSteps (step maxDegree) calls start = .ok s → ∀ h fh, s.heaps.heap h = some fh →
      ∀ p ∈ s.bags.ids h, Reached s.heaps.mem fh p

/-- **`consolidate` stays in its table** in every run of calls whose consolidations find heaps that fit. -/
theorem staysInTable (calls : List (FibCall K V))
    (h : Along (step maxDegree) (fun s c => s.Called c ∧ s.Fitting maxDegree c) calls start) :
    StaysInTable calls := by
  obtain ⟨hok, herror⟩ := run_inv h
  exact ⟨herror, fun s hs h fh hh => ((hok s hs).holds h fh hh).reached⟩

omit [Inhabited K] [Inhabited V] in
theorem staysInTable_joins : StaysInTable joins := staysInTable joins joins_fit

/-- Three nodes are left, one of them a root with the other two as children. -/
def thins : List (FibCall (WithBot ℕ) ℕ) :=
  [.create, .insert 0 (1 : ℕ) 1, .insert 0 (2 : ℕ) 2, .insert 0 (3 : ℕ) 3, .insert 0 (4 : ℕ) 4,
    .insert 0 (5 : ℕ) 5, .extractMin 0, .decreaseKey 0 5 (0 : ℕ), .extractMin 0]

/-- The table for four nodes has two places, and the root has the degree two. -/
theorem thins_leavesTable : ¬ ∀ calls : List (FibCall (WithBot ℕ) ℕ),
    Along (step maxDegree) Called calls start → StaysInTable calls := by
  intro hall
  have hcalled : Along (step maxDegree) Called thins start := by
    rw [maxDegree_table]
    decide +kernel
  have hfault : fault? (runSteps (step maxDegree) thins start) = some .undefined := by
    rw [maxDegree_table]
    decide +kernel
  obtain ⟨text, he⟩ := (hall thins hcalled).1 _ (fault?_eq_some.mp hfault)
  exact nomatch he

end FibSession

end Goedb
