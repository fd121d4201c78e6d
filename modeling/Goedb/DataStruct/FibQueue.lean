import Goedb.DataStruct.FibOps
import Goedb.DataStruct.PrioQueue
import Mathlib.Data.Finset.Card
import Mathlib.Data.Multiset.MapFold

/-!
# DataStruct — a Fibonacci heap as a queue

The queue that the searches are given in the source: a `fib_heap_ul` alone in its memory.  A key of the
heap may be `-DBL_MAX`, which is `⊥` here, but none that is inserted is.

In the states in which a heap fits it is lawful and hands back a least entry (`fibHeapLawful`,
`least_fibHeap`).  It is not in others: `extract_min` may lose entries and leave its table there.
-/

namespace Goedb

open FibMemory

variable {K : Type}

/-- A `fib_heap_ul` and the memory of its nodes. -/
structure FibQueue (K : Type) where
  mem : FibMemory (WithBot K) Ulong
  heap : FibHeap

namespace FibQueue

/-- More turns than a loop takes. -/
def fuel (q : FibQueue K) : ℕ := (q.mem.fresh + 1) * (q.mem.fresh + 1)

variable [LinearOrder K]

/-- A heap fits before its least node is extracted. -/
def Fits (maxDegree : ℕ → ℕ) (q : FibQueue K) : Prop := FibMemory.Fits maxDegree q.mem q.heap

instance (maxDegree : ℕ → ℕ) : DecidablePred (Fits maxDegree : FibQueue K → Prop) := fun q =>
  inferInstanceAs (Decidable (FibMemory.Fits maxDegree q.mem q.heap))

/-- `fib_heap_ul_create`. -/
def create : FibQueue K where
  mem := { node := fun _ => ⟨⊥, uninitializedLong, null, null, null, null, 0, false⟩
           alive := fun _ => false
           fresh := 1 }
  heap := ⟨null, 0⟩

/-- `fib_heap_ul_insert`. -/
def insert (q : FibQueue K) (key : K) (value : Ulong) : Except Fault (FibQueue K) := do
  let (mem, heap) ← q.mem.insert q.heap key value
  return ⟨mem, heap⟩

variable [OrderTop K]

/-- `fib_heap_ul_extract_min`, what is read of the node, and `free`. -/
def extractMin (maxDegree : ℕ → ℕ) (q : FibQueue K) : Except Fault ((K × Ulong) × FibQueue K) := do
  let (z, mem, heap) ← q.mem.extractMin maxDegree q.fuel q.heap
  let node ← mem.deref z
  let mem ← mem.free z
  return ((node.key.unbotD ⊤, node.value), ⟨mem, heap⟩)

end FibQueue

namespace PrioQueue

variable [LinearOrder K] [OrderTop K]

/-- The queue of `dijkstra` and of `a_star`. -/
def fibHeap (maxDegree : ℕ → ℕ) : PrioQueue K where
  Carrier := FibQueue K
  create := FibQueue.create
  insert := FibQueue.insert
  extractMin := FibQueue.extractMin maxDegree
  numNodes q := q.heap.numNodes

variable {maxDegree : ℕ → ℕ} {q : FibQueue K} {S : Finset ℕ} {es : Multiset (K × Ulong)}

/-- The entry that a node is. -/
def entryOf (q : FibQueue K) (p : ℕ) : K × Ulong := ((q.mem.key p).unbotD ⊤, q.mem.value p)

/-- The nodes of the heap are those of `S`, which are the entries. -/
structure HeapHas (q : FibQueue K) (S : Finset ℕ) (es : Multiset (K × Ulong)) : Prop where
  fresh : q.mem.fresh ≠ null
  holds : Holds q.mem q.heap S
  key_ne : ∀ p ∈ S, q.mem.key p ≠ ⊥
  entries : es = S.val.map (entryOf q)

namespace HeapHas

theorem insert_ok (h : HeapHas q S es) (k : K) (v : Ulong) :
    ∃ q', q.insert k v = .ok q' ∧
      HeapHas q' (Insert.insert q.mem.fresh S) ((k, v) ::ₘ es) := by
  obtain ⟨m', fh', hrun, hH, hkey, hvalue, -, hfresh⟩ :=
    FibMemory.insert_ok h.holds h.fresh (WithBot.coe_ne_bot (a := k)) v
  have hnew : ∀ p ∈ S, p ≠ q.mem.fresh := fun p hp => (h.holds.lt_fresh hp).ne
  refine ⟨⟨m', fh'⟩, ?_, by rw [hfresh]; exact Nat.succ_ne_zero _, hH, fun p hp => ?_, ?_⟩
  · rw [FibQueue.insert, hrun]
    rfl
  · rw [hkey]
    split
    · exact WithBot.coe_ne_bot
    · rename_i hne
      exact h.key_ne p ((Finset.mem_insert.mp hp).resolve_left hne)
  · have hself : entryOf (⟨m', fh'⟩ : FibQueue K) q.mem.fresh = (k, v) := by
      rw [entryOf, hkey, hvalue, if_pos rfl, if_pos rfl, WithBot.unbotD_coe]
    have hother : ∀ p ∈ S.val, entryOf q p = entryOf (⟨m', fh'⟩ : FibQueue K) p := by
      intro p hp
      rw [entryOf, entryOf, hkey, hvalue, if_neg (hnew p hp), if_neg (hnew p hp)]
    rw [Finset.insert_val_of_notMem fun hx => hnew _ hx rfl, Multiset.map_cons, hself, h.entries,
      Multiset.map_congr rfl hother]

theorem extractMin_ok (h : HeapHas q S es) (hne : es ≠ 0) (hfits : q.Fits maxDegree) :
    ∃ q', q.extractMin maxDegree = .ok (entryOf q q.heap.min, q') ∧
      q.heap.min ∈ S ∧ HeapHas q' (S.erase q.heap.min) (es.erase (entryOf q q.heap.min)) := by
  have hS : S ≠ ∅ := by
    rintro rfl
    exact hne h.entries
  have hmin : q.heap.min ≠ null := fun hnull => hS (h.holds.min_eq_null_iff.mp hnull)
  have hmem := h.holds.min_mem hmin
  have hcard := Nat.succ_le_succ h.holds.card_le_fresh
  obtain ⟨m', fh', hrun, hH, hkept⟩ :=
    FibMemory.extractMin_ok h.holds hmin hfits (Nat.mul_le_mul hcard hcard)
  have halive : m'.alive q.heap.min = true := by
    rw [hkept.alive]
    exact h.holds.alive hmem
  have hentry : ∀ p, ((m'.node p).key.unbotD ⊤, (m'.node p).value) = entryOf q p := by
    intro p
    have hkey : (m'.node p).key = q.mem.key p := hkept.key p
    have hvalue : (m'.node p).value = q.mem.value p := hkept.value p
    rw [hkey, hvalue, entryOf]
  set m'' := { m' with alive := Function.update m'.alive q.heap.min false } with hm''
  have hkey'' : ∀ p, m''.key p = q.mem.key p := hkept.key
  refine ⟨⟨m'', fh'⟩, ?_, hmem, ?_, ?_, fun p hp => ?_, ?_⟩
  · have hfree : m'.free q.heap.min = .ok m'' := if_pos halive
    rw [FibQueue.extractMin, FibQueue.fuel, hrun]
    simp only [Lib.ok_bind, FibMemory.deref_ok halive, hfree]
    rw [← hentry]
    rfl
  · exact fun hnull => h.fresh (hkept.fresh.symm.trans hnull)
  · exact hH.congr (fun _ _ => rfl)
      (fun p hp => Function.update_of_ne (Finset.ne_of_mem_erase hp) _ _) (Nat.le_refl _)
  · rw [hkey'']
    exact h.key_ne p (Finset.mem_of_mem_erase hp)
  · have hsplit : es = entryOf q q.heap.min ::ₘ (S.erase q.heap.min).val.map (entryOf q) := by
      rw [h.entries, ← Multiset.map_cons, Finset.erase_val, Multiset.cons_erase hmem]
    rw [hsplit, Multiset.erase_cons_head]
    exact Multiset.map_congr rfl fun p _ => (hentry p).symm

/-- The least node has a least key. -/
theorem min_le (h : HeapHas q S es) {y : K × Ulong} (hy : y ∈ es) :
    (entryOf q q.heap.min).1 ≤ y.1 := by
  rw [h.entries] at hy
  obtain ⟨p, hp, rfl⟩ := Multiset.mem_map.mp hy
  obtain ⟨k, hk⟩ := WithBot.ne_bot_iff_exists.mp (h.key_ne p hp)
  have hmem := h.holds.min_mem (h.holds.min_ne_null hp)
  obtain ⟨j, hj⟩ := WithBot.ne_bot_iff_exists.mp (h.key_ne _ hmem)
  have hle := h.holds.min_le hp
  rw [← hj, ← hk] at hle
  rw [entryOf, entryOf, ← hj, ← hk, WithBot.unbotD_coe, WithBot.unbotD_coe]
  exact WithBot.coe_le_coe.mp hle

end HeapHas

/-- **Where a heap fits**, it neither loses nor invents entries. -/
def fibHeapLawful (maxDegree : ℕ → ℕ) :
    (fibHeap maxDegree : PrioQueue K).LawfulIn (FibQueue.Fits maxDegree) where
  Has q es := ∃ S, HeapHas q S es
  create := ⟨∅, Nat.one_ne_zero, .empty _, fun p hp => absurd hp (Finset.notMem_empty p), rfl⟩
  insert q es k v h := by
    obtain ⟨S, h⟩ := h
    obtain ⟨q', hrun, h'⟩ := h.insert_ok k v
    exact ⟨q', hrun, _, h'⟩
  numNodes q es h := by
    obtain ⟨S, h⟩ := h
    rw [h.entries, Multiset.card_map]
    exact h.holds.numNodes_eq
  extractMin q es h hne hfits := by
    obtain ⟨S, h⟩ := h
    obtain ⟨q', hrun, hmem, h'⟩ := h.extractMin_ok hne hfits
    refine ⟨_, q', _, hrun, (Multiset.cons_erase ?_).symm, _, h'⟩
    rw [h.entries]
    exact Multiset.mem_map_of_mem _ hmem

theorem least_fibHeap (maxDegree : ℕ → ℕ) : (fibHeapLawful (K := K) maxDegree).Least := by
  rintro q es x q' ⟨S, h⟩ hfits hx y hy
  obtain ⟨_, hrun, -⟩ := h.extractMin_ok (fun h0 => Multiset.notMem_zero y (h0 ▸ hy)) hfits
  cases hx.symm.trans hrun
  exact h.min_le hy

end PrioQueue

end Goedb
