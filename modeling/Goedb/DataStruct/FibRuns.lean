import Goedb.DataStruct.FibOps
import Goedb.Lib.Steps
import Mathlib.Data.Finset.Card
import Mathlib.Data.Multiset.MapFold

/-!
# DataStruct — runs of calls on Fibonacci heaps

The heaps of a program lie in one memory.  `Bags` says what they are for: the entries that were inserted
into each heap and not yet removed.  A `FibSession` has both, and a call takes it on with what the code
returns.

In every run the calls keep the heaps and their bags together (`FibSession.Inv`), as long as each
consolidation finds a heap that fits.
-/

namespace Goedb

open Lib

/-- The heaps of a program, and the next pointer to one that `create` returns. -/
structure FibHeaps (K V : Type) where
  mem : FibMemory K V
  heap : ℕ → Option FibHeap
  next : ℕ

/-- A call to one of the functions of `fibonacci_heap.h`. -/
inductive FibCall (K V : Type) where
  | create
  | insert (h : ℕ) (key : K) (value : V)
  | extractMin (h : ℕ)
  | union (h₁ h₂ : ℕ)
  | decreaseKey (h node : ℕ) (newKey : K)
  | delete (h node : ℕ)

/-- The entries that were inserted into the heaps and not yet removed. -/
structure Bags (K V : Type) where
  /-- The nodes of the entries of a heap. -/
  ids : ℕ → Finset ℕ
  entry : ℕ → K × V

namespace Bags

variable {K V : Type}

/-- The multiset of the entries of a heap. -/
def bag (b : Bags K V) (h : ℕ) : Multiset (K × V) := (b.ids h).val.map b.entry

/-- What a call that returns `r` does to the entries: the pointer to the new heap (`create` and `union`),
the new node (`insert`) or the node with the least key (`extract_min`). -/
def after : FibCall K V → (r : ℕ) → Bags K V → Bags K V
  | .create, r, b => { b with ids := Function.update b.ids r ∅ }
  | .insert h key value, r, b =>
      { ids := Function.update b.ids h (Insert.insert r (b.ids h))
        entry := Function.update b.entry r (key, value) }
  | .extractMin h, r, b => { b with ids := Function.update b.ids h ((b.ids h).erase r) }
  | .union h₁ h₂, r, b =>
      { b with ids := Function.update (Function.update (Function.update b.ids h₁ ∅) h₂ ∅) r
                        (b.ids h₁ ∪ b.ids h₂) }
  | .decreaseKey _ node newKey, _, b =>
      { b with entry := Function.update b.entry node (newKey, (b.entry node).2) }
  | .delete h node, _, b => { b with ids := Function.update b.ids h ((b.ids h).erase node) }

end Bags

namespace FibHeaps

open FibMemory

variable {K V : Type}

/-- The heap that a pointer points at. -/
def deref (w : FibHeaps K V) (h : ℕ) : Except Fault FibHeap :=
  match w.heap h with
  | some fh => .ok fh
  | none => .error .undefined

theorem deref_ok {w : FibHeaps K V} {h : ℕ} {fh : FibHeap} (hh : w.heap h = some fh) :
    w.deref h = .ok fh := by
  rw [deref, hh]

/-- The heap behind the pointer `h` after an operation. -/
def put (w : FibHeaps K V) (h : ℕ) (m : FibMemory K V) (fh : FibHeap) : FibHeaps K V :=
  { w with mem := m, heap := Function.update w.heap h (some fh) }

/-- More turns than a loop takes. -/
def fuel (w : FibHeaps K V) : ℕ := (w.mem.fresh + 1) * (w.mem.fresh + 1)

variable [LinearOrder K] [OrderBot K]

/-- A call, and what it returns.  `insert` returns nothing in the source; here it is the new node.  `union`
frees its two heaps, unless both are empty. -/
def exec (maxDegree : ℕ → ℕ) : FibCall K V → FibHeaps K V → Except Fault (ℕ × FibHeaps K V)
  | .create, w =>
      .ok (w.next, { w with heap := Function.update w.heap w.next (some ⟨null, 0⟩)
                            next := w.next + 1 })
  | .insert h key value, w => do
      let fh ← w.deref h
      let (m, fh) ← w.mem.insert fh key value
      return (w.mem.fresh, w.put h m fh)
  | .extractMin h, w => do
      let fh ← w.deref h
      let (z, m, fh) ← w.mem.extractMin maxDegree w.fuel fh
      return (z, w.put h m fh)
  | .union h₁ h₂, w => do
      let fh₁ ← w.deref h₁
      let fh₂ ← w.deref h₂
      let (m, fh) ← w.mem.union fh₁ fh₂
      let heap := if fh₁.numNodes = 0 ∧ fh₂.numNodes = 0 then w.heap
        else Function.update (Function.update w.heap h₁ none) h₂ none
      return (w.next, { mem := m
                        heap := Function.update heap w.next (some fh)
                        next := w.next + 1 })
  | .decreaseKey h node newKey, w => do
      let fh ← w.deref h
      let (m, fh) ← w.mem.decreaseKey w.fuel fh node newKey
      return (null, w.put h m fh)
  | .delete h node, w => do
      let fh ← w.deref h
      let (m, fh) ← w.mem.delete maxDegree w.fuel fh node
      return (null, w.put h m fh)

end FibHeaps

/-- The heaps, and the entries that are in them. -/
structure FibSession (K V : Type) where
  heaps : FibHeaps K V
  bags : Bags K V

namespace FibSession

open FibMemory

variable {K V : Type}

/-- There is no heap and nothing was allocated; the null pointer is never allocated. -/
def start [Inhabited K] [Inhabited V] : FibSession K V where
  heaps :=
    { mem := { node := fun _ => ⟨default, default, null, null, null, null, 0, false⟩
               alive := fun _ => false
               fresh := 1 }
      heap := fun _ => none
      next := 0 }
  bags := { ids := fun _ => ∅, entry := fun _ => default }

variable [LinearOrder K] [OrderBot K]

def step (maxDegree : ℕ → ℕ) (c : FibCall K V) (s : FibSession K V) : Except Fault (FibSession K V) := do
  let (r, heaps) ← s.heaps.exec maxDegree c
  return { heaps := heaps, bags := s.bags.after c r }

/-- What the callers promise: a heap was created and not freed, a node is one of the heap. -/
def Called (s : FibSession K V) : FibCall K V → Prop
  | .create => True
  | .insert h _ _ => s.heaps.heap h ≠ none
  | .extractMin h => s.heaps.heap h ≠ none
  | .union h₁ h₂ => h₁ ≠ h₂ ∧ s.heaps.heap h₁ ≠ none ∧ s.heaps.heap h₂ ≠ none
  | .decreaseKey h node _ => node ∈ s.bags.ids h
  | .delete h node => node ∈ s.bags.ids h

/-- A heap that is consolidated fits. -/
def Fitting (maxDegree : ℕ → ℕ) (s : FibSession K V) : FibCall K V → Prop
  | .extractMin h => ∀ fh ∈ s.heaps.heap h, FibMemory.Fits maxDegree s.heaps.mem fh
  | .delete h node => ∀ fh ∈ s.heaps.heap h, ∀ r,
      s.heaps.mem.decreaseKeyInternal s.heaps.fuel fh node ⊥ true = .ok r → FibMemory.Fits maxDegree r.1 r.2
  | _ => True

instance (s : FibSession K V) : ∀ c, Decidable (s.Called c)
  | .create => isTrue trivial
  | .insert h _ _ => inferInstanceAs (Decidable (s.heaps.heap h ≠ none))
  | .extractMin h => inferInstanceAs (Decidable (s.heaps.heap h ≠ none))
  | .union _ _ => inferInstanceAs (Decidable (_ ∧ _ ∧ _))
  | .decreaseKey h node _ => inferInstanceAs (Decidable (node ∈ s.bags.ids h))
  | .delete h node => inferInstanceAs (Decidable (node ∈ s.bags.ids h))

instance (maxDegree : ℕ → ℕ) (s : FibSession K V) : ∀ c, Decidable (s.Fitting maxDegree c)
  | .create => isTrue trivial
  | .insert _ _ _ => isTrue trivial
  | .extractMin h => inferInstanceAs (Decidable (∀ fh ∈ s.heaps.heap h, _))
  | .union _ _ => isTrue trivial
  | .decreaseKey _ _ _ => isTrue trivial
  | .delete h _ => inferInstanceAs (Decidable (∀ fh ∈ s.heaps.heap h, _))

/-! ### One operation -/

/-- The heaps hold the nodes of their bags, which have the entries of the bags. -/
structure Inv (s : FibSession K V) : Prop where
  fresh : s.heaps.mem.fresh ≠ null
  holds : ∀ h fh, s.heaps.heap h = some fh → Holds s.heaps.mem fh (s.bags.ids h)
  freed : ∀ h, s.heaps.heap h = none → s.bags.ids h = ∅
  unused : ∀ h, s.heaps.next ≤ h → s.heaps.heap h = none
  disjoint : ∀ h h', h ≠ h' → Disjoint (s.bags.ids h) (s.bags.ids h')
  entry : ∀ h, ∀ p ∈ s.bags.ids h, s.bags.entry p = (s.heaps.mem.key p, s.heaps.mem.value p)
  key_ne : ∀ h, ∀ p ∈ s.bags.ids h, s.heaps.mem.key p ≠ ⊥

namespace Inv

variable {maxDegree : ℕ → ℕ} {s s' : FibSession K V} {h h₁ h₂ p : ℕ} {fh fh' : FibHeap}
  {m' : FibMemory K V} {T : Finset ℕ} {entry' : ℕ → K × V}

theorem start [Inhabited K] [Inhabited V] : Inv (start : FibSession K V) where
  fresh := Nat.one_ne_zero
  holds := fun _ _ h => nomatch h
  freed := fun _ _ => rfl
  unused := fun _ _ => rfl
  disjoint := fun _ _ _ => Finset.disjoint_empty_left _
  entry := fun _ p hp => absurd hp (Finset.notMem_empty p)
  key_ne := fun _ p hp => absurd hp (Finset.notMem_empty p)

variable (hI : s.Inv)
include hI

theorem exists_heap (hp : p ∈ s.bags.ids h) : ∃ fh, s.heaps.heap h = some fh := by
  cases hh : s.heaps.heap h with
  | some fh => exact ⟨fh, rfl⟩
  | none =>
      rw [hI.freed h hh] at hp
      exact absurd hp (Finset.notMem_empty p)

/-- A node of a bag is older than the next one. -/
theorem lt_fresh (hp : p ∈ s.bags.ids h) : p < s.heaps.mem.fresh := by
  obtain ⟨fh, hh⟩ := hI.exists_heap hp
  exact (hI.holds h fh hh).lt_fresh hp

/-- The loops do not run out of turns. -/
theorem fuel_le (hh : s.heaps.heap h = some fh) :
    ((s.bags.ids h).card + 1) * ((s.bags.ids h).card + 1) ≤ s.heaps.fuel := by
  have := (hI.holds h fh hh).card_le_fresh
  exact Nat.mul_le_mul (Nat.succ_le_succ this) (Nat.succ_le_succ this)

/-- A heap that is freed has no nodes any more. -/
theorem free (h : ℕ) : Inv ⟨{ s.heaps with heap := Function.update s.heaps.heap h none },
    { s.bags with ids := Function.update s.bags.ids h ∅ }⟩ := by
  have hsub : ∀ k, Function.update s.bags.ids h ∅ k ⊆ s.bags.ids k := by
    intro k
    rcases eq_or_ne k h with rfl | hkh
    · rw [Function.update_self]
      exact Finset.empty_subset _
    · rw [Function.update_of_ne hkh]
  constructor
  · exact hI.fresh
  · intro k fk hk
    change Function.update s.heaps.heap h none k = some fk at hk
    change Holds s.heaps.mem fk (Function.update s.bags.ids h ∅ k)
    rcases eq_or_ne k h with rfl | hkh
    · rw [Function.update_self] at hk
      exact nomatch hk
    · rw [Function.update_of_ne hkh] at hk ⊢
      exact hI.holds k fk hk
  · intro k hk
    change Function.update s.heaps.heap h none k = none at hk
    change Function.update s.bags.ids h ∅ k = ∅
    rcases eq_or_ne k h with rfl | hkh
    · exact Function.update_self ..
    · rw [Function.update_of_ne hkh] at hk ⊢
      exact hI.freed k hk
  · intro k hk
    change Function.update s.heaps.heap h none k = none
    rcases eq_or_ne k h with rfl | hkh
    · exact Function.update_self ..
    · rw [Function.update_of_ne hkh]
      exact hI.unused k hk
  · exact fun k k' hkk => (hI.disjoint k k' hkk).mono (hsub k) (hsub k')
  · exact fun k p hp => hI.entry k p (hsub k hp)
  · exact fun k p hp => hI.key_ne k p (hsub k hp)

/-- **A heap that is placed** behind the pointer `h` leaves the others as they are, if what was written
for it are the nodes of `U`, which are in no other heap. -/
theorem place {U : Finset ℕ} {n : ℕ} (hholds : Holds m' fh' T)
    (hframe : FibMemory.Frame U s.heaps.mem m') (hU : ∀ k, k ≠ h → Disjoint (s.bags.ids k) U)
    (hT : ∀ k, k ≠ h → Disjoint (s.bags.ids k) T)
    (hentry : ∀ p ∈ T, entry' p = (m'.key p, m'.value p)) (hkey : ∀ p ∈ T, m'.key p ≠ ⊥)
    (hother : ∀ p, p ∉ U → p < s.heaps.mem.fresh → entry' p = s.bags.entry p)
    (hn : s.heaps.next ≤ n) (hh : h < n) :
    Inv ⟨{ mem := m', heap := Function.update s.heaps.heap h (some fh'), next := n },
      { ids := Function.update s.bags.ids h T, entry := entry' }⟩ := by
  -- what the other heaps hold is neither touched nor new
  have hnode : ∀ k, k ≠ h → ∀ p ∈ s.bags.ids k, p ∉ U ∧ p < s.heaps.mem.fresh :=
    fun k hk p hp => ⟨Finset.disjoint_left.mp (hU k hk) hp, hI.lt_fresh hp⟩
  have hsame : ∀ k, k ≠ h → ∀ p ∈ s.bags.ids k, m'.node p = s.heaps.mem.node p := fun k hk p hp =>
    hframe.node p (hnode k hk p hp).1 (hnode k hk p hp).2
  constructor
  · exact Nat.pos_iff_ne_zero.mp ((Nat.pos_of_ne_zero hI.fresh).trans_le hframe.fresh)
  · intro k fk hk
    change Function.update s.heaps.heap h (some fh') k = some fk at hk
    change Holds m' fk (Function.update s.bags.ids h T k)
    rcases eq_or_ne k h with rfl | hkh
    · rw [Function.update_self] at hk ⊢
      rwa [← Option.some.inj hk]
    · rw [Function.update_of_ne hkh] at hk ⊢
      exact (hI.holds k fk hk).frame hframe (hU k hkh)
  · intro k hk
    change Function.update s.heaps.heap h (some fh') k = none at hk
    change Function.update s.bags.ids h T k = ∅
    rcases eq_or_ne k h with rfl | hkh
    · rw [Function.update_self] at hk
      exact nomatch hk
    · rw [Function.update_of_ne hkh] at hk ⊢
      exact hI.freed k hk
  · intro k hk
    exact (Function.update_of_ne (hh.trans_le hk).ne' _ _).trans (hI.unused k (hn.trans hk))
  · intro k k' hkk
    change Disjoint (Function.update s.bags.ids h T k) (Function.update s.bags.ids h T k')
    rcases eq_or_ne k h with rfl | hkh
    · rw [Function.update_self, Function.update_of_ne hkk.symm]
      exact (hT k' hkk.symm).symm
    · rw [Function.update_of_ne hkh]
      rcases eq_or_ne k' h with rfl | hkh'
      · rw [Function.update_self]
        exact hT k hkh
      · rw [Function.update_of_ne hkh']
        exact hI.disjoint k k' hkk
  · intro k p hp
    change p ∈ Function.update s.bags.ids h T k at hp
    rcases eq_or_ne k h with rfl | hkh
    · rw [Function.update_self] at hp
      exact hentry p hp
    · rw [Function.update_of_ne hkh] at hp
      refine ((hother p (hnode k hkh p hp).1 (hnode k hkh p hp).2).trans (hI.entry k p hp)).trans ?_
      change _ = ((m'.node p).key, (m'.node p).value)
      rw [hsame k hkh p hp]
      rfl
  · intro k p hp
    change p ∈ Function.update s.bags.ids h T k at hp
    rcases eq_or_ne k h with rfl | hkh
    · rw [Function.update_self] at hp
      exact hkey p hp
    · rw [Function.update_of_ne hkh] at hp
      change (m'.node p).key ≠ ⊥
      rw [hsame k hkh p hp]
      exact hI.key_ne k p hp

/-- **An operation on one heap** leaves the others as they are. -/
theorem put (hh : s.heaps.heap h = some fh) (hholds : Holds m' fh' T)
    (hframe : FibMemory.Frame (s.bags.ids h) s.heaps.mem m')
    (hT : ∀ p ∈ T, p ∈ s.bags.ids h ∨ s.heaps.mem.fresh ≤ p)
    (hentry : ∀ p ∈ T, entry' p = (m'.key p, m'.value p)) (hkey : ∀ p ∈ T, m'.key p ≠ ⊥)
    (hother : ∀ p, p ∉ s.bags.ids h → p < s.heaps.mem.fresh → entry' p = s.bags.entry p) :
    Inv ⟨s.heaps.put h m' fh', ⟨Function.update s.bags.ids h T, entry'⟩⟩ := by
  have hnext : h < s.heaps.next := by
    by_contra hge
    exact nomatch hh.symm.trans (hI.unused h (not_lt.mp hge))
  refine hI.place hholds hframe (fun k hk => hI.disjoint k h hk) (fun k hk => ?_) hentry hkey hother
    le_rfl hnext
  refine Finset.disjoint_left.mpr fun p hp hpT => ?_
  rcases hT p hpT with hp' | hp'
  · exact Finset.disjoint_left.mp (hI.disjoint k h hk) hp hp'
  · exact absurd (hI.lt_fresh hp) (not_lt.mpr hp')

theorem insert (hh : s.heaps.heap h = some fh) {key : K} (hkey : key ≠ ⊥) (value : V) :
    ∃ w, s.heaps.exec maxDegree (.insert h key value) = .ok (s.heaps.mem.fresh, w) ∧
      Inv ⟨w, s.bags.after (.insert h key value) s.heaps.mem.fresh⟩ := by
  have hH := hI.holds h fh hh
  obtain ⟨m', fh', hrun, hH', hk, hv, hframe, -⟩ := insert_ok hH hI.fresh hkey value
  have hnew : ∀ p ∈ s.bags.ids h, p ≠ s.heaps.mem.fresh := fun p hp => (hI.lt_fresh hp).ne
  refine ⟨s.heaps.put h m' fh', ?_, hI.put hh hH' hframe (fun p hp => ?_) (fun p hp => ?_)
    (fun p hp => ?_) fun p _ hlt => Function.update_of_ne hlt.ne _ _⟩
  · rw [FibHeaps.exec, FibHeaps.deref_ok hh]
    change (s.heaps.mem.insert fh key value >>= _) = _
    rw [hrun]
    rfl
  · rcases Finset.mem_insert.mp hp with rfl | hp
    · exact .inr (le_refl _)
    · exact .inl hp
  · rw [hk, hv]
    rcases Finset.mem_insert.mp hp with rfl | hp
    · rw [if_pos rfl, if_pos rfl, Function.update_self]
    · rw [if_neg (hnew p hp), if_neg (hnew p hp), Function.update_of_ne (hnew p hp)]
      exact hI.entry h p hp
  · rw [hk]
    rcases Finset.mem_insert.mp hp with rfl | hp
    · rwa [if_pos rfl]
    · rw [if_neg (hnew p hp)]
      exact hI.key_ne h p hp

/-- The least entry leaves the heap. -/
theorem extractMin (hh : s.heaps.heap h = some fh) (hne : fh.min ≠ null)
    (hfits : FibMemory.Fits maxDegree s.heaps.mem fh) :
    ∃ w, s.heaps.exec maxDegree (.extractMin h) = .ok (fh.min, w) ∧
      Inv ⟨w, s.bags.after (.extractMin h) fh.min⟩ := by
  obtain ⟨m', fh', hrun, hH', hkept⟩ := extractMin_ok (hI.holds h fh hh) hne hfits (hI.fuel_le hh)
  refine ⟨s.heaps.put h m' fh', ?_, hI.put hh hH' hkept.frame
    (fun p hp => .inl (Finset.mem_of_mem_erase hp)) (fun p hp => ?_) (fun p hp => ?_)
    fun _ _ _ => rfl⟩
  · rw [FibHeaps.exec, FibHeaps.deref_ok hh]
    change (s.heaps.mem.extractMin maxDegree s.heaps.fuel fh >>= _) = _
    rw [hrun]
    rfl
  · rw [hkept.key, hkept.value]
    exact hI.entry h p (Finset.mem_of_mem_erase hp)
  · rw [hkept.key]
    exact hI.key_ne h p (Finset.mem_of_mem_erase hp)

theorem decreaseKey (hh : s.heaps.heap h = some fh) (hp : p ∈ s.bags.ids h) {key : K}
    (hle : key ≤ s.heaps.mem.key p) (hkey : key ≠ ⊥) :
    ∃ w, s.heaps.exec maxDegree (.decreaseKey h p key) = .ok (null, w) ∧
      Inv ⟨w, s.bags.after (.decreaseKey h p key) null⟩ := by
  have hH := hI.holds h fh hh
  have hfuel : (s.bags.ids h).card ≤ s.heaps.fuel :=
    le_trans (by nlinarith) (hI.fuel_le hh)
  obtain ⟨m', fh', hrun, hH', hk, hv, hframe, -⟩ :=
    decreaseKeyInternal_ok hH hp hle (fun _ : false = false => hkey) hfuel
  refine ⟨s.heaps.put h m' fh', ?_, ?_⟩
  · rw [FibHeaps.exec, FibHeaps.deref_ok hh]
    change (s.heaps.mem.decreaseKeyInternal s.heaps.fuel fh p key false >>= _) = _
    rw [hrun]
    rfl
  · have hput : Inv ⟨s.heaps.put h m' fh', ⟨Function.update s.bags.ids h (s.bags.ids h),
        Function.update s.bags.entry p (key, (s.bags.entry p).2)⟩⟩ := by
      refine hI.put hh hH' hframe (fun _ hq => .inl hq) (fun q hq => ?_) (fun q hq => ?_)
        fun q hq _ => Function.update_of_ne (ne_of_mem_of_not_mem hp hq).symm _ _
      · rw [hk, hv]
        by_cases hqp : q = p
        · rw [hqp, if_pos rfl, Function.update_self, hI.entry h p hp]
        · rw [if_neg hqp, Function.update_of_ne hqp]
          exact hI.entry h q hq
      · rw [hk]
        split_ifs
        · exact hkey
        · exact hI.key_ne h q hq
    rwa [Function.update_eq_self] at hput

theorem delete (hh : s.heaps.heap h = some fh) (hp : p ∈ s.bags.ids h)
    (hfits : s.Fitting maxDegree (.delete h p)) :
    ∃ w, s.heaps.exec maxDegree (.delete h p) = .ok (null, w) ∧
      Inv ⟨w, s.bags.after (.delete h p) null⟩ := by
  obtain ⟨m', fh', hrun, hH', hk, hv, hframe, -⟩ := delete_ok (hI.holds h fh hh) hp (hI.key_ne h)
    (fun m₁ fh₁ hrun₁ => hfits fh hh (m₁, fh₁) hrun₁) (hI.fuel_le hh)
  refine ⟨s.heaps.put h m' fh', ?_, hI.put hh hH' hframe
    (fun q hq => .inl (Finset.mem_of_mem_erase hq)) (fun q hq => ?_) (fun q hq => ?_)
    fun _ _ _ => rfl⟩
  · rw [FibHeaps.exec, FibHeaps.deref_ok hh]
    change (s.heaps.mem.delete maxDegree s.heaps.fuel fh p >>= _) = _
    rw [hrun]
    rfl
  · rw [hk q (Finset.ne_of_mem_erase hq), hv]
    exact hI.entry h q (Finset.mem_of_mem_erase hq)
  · rw [hk q (Finset.ne_of_mem_erase hq)]
    exact hI.key_ne h q (Finset.mem_of_mem_erase hq)

variable (maxDegree) in
theorem create : ∃ w, s.heaps.exec maxDegree .create = .ok (s.heaps.next, w) ∧
    Inv ⟨w, s.bags.after .create s.heaps.next⟩ :=
  ⟨_, rfl, hI.place (U := ∅) (.empty _) (Kept.refl _).frame (fun _ _ => Finset.disjoint_empty_right _)
    (fun _ _ => Finset.disjoint_empty_right _) (fun p hp => absurd hp (Finset.notMem_empty p))
    (fun p hp => absurd hp (Finset.notMem_empty p)) (fun _ _ _ => rfl) (Nat.le_succ _)
    (Nat.lt_succ_self _)⟩

/-- The heaps that `union` joins are freed, unless they have no nodes. -/
theorem release (h₁ h₂ : ℕ) (heap : ℕ → Option FibHeap) (hheap : heap = s.heaps.heap ∧ s.bags.ids h₁ = ∅ ∧
      s.bags.ids h₂ = ∅ ∨ heap = Function.update (Function.update s.heaps.heap h₁ none) h₂ none) :
    Inv ⟨{ s.heaps with heap := heap },
      { s.bags with ids := Function.update (Function.update s.bags.ids h₁ ∅) h₂ ∅ }⟩ := by
  rcases hheap with ⟨rfl, he₁, he₂⟩ | rfl
  · rw [← he₁, Function.update_eq_self, he₁, ← he₂, Function.update_eq_self]
    exact hI
  · exact (hI.free h₁).free h₂

theorem union (hne : h₁ ≠ h₂) {fh₁ fh₂ : FibHeap} (hh₁ : s.heaps.heap h₁ = some fh₁)
    (hh₂ : s.heaps.heap h₂ = some fh₂) :
    ∃ w, s.heaps.exec maxDegree (.union h₁ h₂) = .ok (s.heaps.next, w) ∧
      Inv ⟨w, s.bags.after (.union h₁ h₂) s.heaps.next⟩ := by
  have hH₁ := hI.holds h₁ fh₁ hh₁
  have hH₂ := hI.holds h₂ fh₂ hh₂
  obtain ⟨m', fh', hrun, hH', hkept⟩ := union_ok hH₁ hH₂ (hI.disjoint h₁ h₂ hne)
  set heap' := if fh₁.numNodes = 0 ∧ fh₂.numNodes = 0 then s.heaps.heap
    else Function.update (Function.update s.heaps.heap h₁ none) h₂ none with hheap'
  have hreleased := hI.release h₁ h₂ heap' (by
    rw [hheap']
    split_ifs with h0
    · exact .inl ⟨rfl, Finset.card_eq_zero.mp (hH₁.numNodes_eq.symm.trans h0.1),
        Finset.card_eq_zero.mp (hH₂.numNodes_eq.symm.trans h0.2)⟩
    · exact .inr rfl)
  -- the other heaps have none of the nodes that are joined
  have hjoin : ∀ k, Disjoint (Function.update (Function.update s.bags.ids h₁ ∅) h₂ ∅ k)
      (s.bags.ids h₁ ∪ s.bags.ids h₂) := by
    intro k
    rcases eq_or_ne k h₂ with rfl | hk₂
    · rw [Function.update_self]
      exact Finset.disjoint_empty_left _
    · rw [Function.update_of_ne hk₂]
      rcases eq_or_ne k h₁ with rfl | hk₁
      · rw [Function.update_self]
        exact Finset.disjoint_empty_left _
      · rw [Function.update_of_ne hk₁, Finset.disjoint_union_right]
        exact ⟨hI.disjoint k h₁ hk₁, hI.disjoint k h₂ hk₂⟩
  have hfrom : ∀ p ∈ s.bags.ids h₁ ∪ s.bags.ids h₂, ∃ j, p ∈ s.bags.ids j := fun p hp =>
    (Finset.mem_union.mp hp).elim (fun hp => ⟨h₁, hp⟩) fun hp => ⟨h₂, hp⟩
  refine ⟨⟨m', Function.update heap' s.heaps.next (some fh'), s.heaps.next + 1⟩, ?_,
    hreleased.place hH' hkept.frame (fun k _ => hjoin k) (fun k _ => hjoin k) (fun p hp => ?_)
      (fun p hp => ?_) (fun _ _ _ => rfl) (Nat.le_succ _) (Nat.lt_succ_self _)⟩
  · rw [FibHeaps.exec, FibHeaps.deref_ok hh₁, FibHeaps.deref_ok hh₂]
    change (s.heaps.mem.union fh₁ fh₂ >>= _) = _
    rw [hrun]
    rfl
  · obtain ⟨j, hj⟩ := hfrom p hp
    rw [hkept.key, hkept.value]
    exact hI.entry j p hj
  · obtain ⟨j, hj⟩ := hfrom p hp
    rw [hkept.key]
    exact hI.key_ne j p hj

end Inv

/-- **A call** keeps the heaps and their bags together, or the program exits. -/
theorem Inv.step {maxDegree : ℕ → ℕ} {s : FibSession K V} (hI : s.Inv) {c : FibCall K V}
    (hc : s.Called c) (hf : s.Fitting maxDegree c) :
    (∃ s', step maxDegree c s = .ok s' ∧ s'.Inv) ∨
      ∃ text, step maxDegree c s = .error (.exit text) := by
  have hgo : ∀ r w, s.heaps.exec maxDegree c = .ok (r, w) → Inv ⟨w, s.bags.after c r⟩ →
      ∃ s', FibSession.step maxDegree c s = .ok s' ∧ s'.Inv := by
    intro r w hrun hI'
    refine ⟨_, ?_, hI'⟩
    rw [FibSession.step, hrun]
    rfl
  have hexit : ∀ text, s.heaps.exec maxDegree c = .error (.exit text) →
      ∃ text, FibSession.step maxDegree c s = .error (.exit text) := by
    intro text hrun
    refine ⟨text, ?_⟩
    rw [FibSession.step, hrun]
    rfl
  -- a call whose arguments the code refuses ends in the exit, any other one keeps the invariant
  cases c with
  | create =>
      obtain ⟨w, hrun, hI'⟩ := hI.create maxDegree
      exact .inl (hgo _ w hrun hI')
  | insert h key value =>
      obtain ⟨fh, hh⟩ := Option.ne_none_iff_exists'.mp hc
      by_cases hkey : key = ⊥
      · subst hkey
        obtain ⟨text, hrun⟩ := insert_bot s.heaps.mem fh value
        refine .inr (hexit text ?_)
        rw [FibHeaps.exec, FibHeaps.deref_ok hh]
        change (s.heaps.mem.insert fh ⊥ value >>= _) = _
        rw [hrun]
        rfl
      · obtain ⟨w, hrun, hI'⟩ := hI.insert hh hkey value
        exact .inl (hgo _ w hrun hI')
  | extractMin h =>
      obtain ⟨fh, hh⟩ := Option.ne_none_iff_exists'.mp hc
      by_cases hmin : fh.min = null
      · obtain ⟨text, hrun⟩ := extractMin_null maxDegree s.heaps.fuel s.heaps.mem hmin
        refine .inr (hexit text ?_)
        rw [FibHeaps.exec, FibHeaps.deref_ok hh]
        change (s.heaps.mem.extractMin maxDegree s.heaps.fuel fh >>= _) = _
        rw [hrun]
        rfl
      · obtain ⟨w, hrun, hI'⟩ := hI.extractMin hh hmin (hf fh hh)
        exact .inl (hgo _ w hrun hI')
  | union h₁ h₂ =>
      obtain ⟨hne, hc₁, hc₂⟩ := hc
      obtain ⟨fh₁, hh₁⟩ := Option.ne_none_iff_exists'.mp hc₁
      obtain ⟨fh₂, hh₂⟩ := Option.ne_none_iff_exists'.mp hc₂
      obtain ⟨w, hrun, hI'⟩ := hI.union hne hh₁ hh₂
      exact .inl (hgo _ w hrun hI')
  | decreaseKey h p key =>
      obtain ⟨fh, hh⟩ := hI.exists_heap hc
      have hH := hI.holds h fh hh
      by_cases hkey : s.heaps.mem.key p < key ∨ key = ⊥
      · obtain ⟨text, hrun⟩ := decreaseKey_exit s.heaps.fuel fh (hH.ne_null hc)
          (hH.alive hc) hkey
        refine .inr (hexit text ?_)
        rw [FibHeaps.exec, FibHeaps.deref_ok hh]
        change (s.heaps.mem.decreaseKey s.heaps.fuel fh p key >>= _) = _
        rw [hrun]
        rfl
      · rw [not_or] at hkey
        obtain ⟨w, hrun, hI'⟩ := hI.decreaseKey hh hc (not_lt.mp hkey.1) hkey.2
        exact .inl (hgo _ w hrun hI')
  | delete h p =>
      obtain ⟨fh, hh⟩ := hI.exists_heap hc
      obtain ⟨w, hrun, hI'⟩ := hI.delete hh hc hf
      exact .inl (hgo _ w hrun hI')

/-- **Runs of calls** whose consolidations find heaps that fit keep the heaps and their bags together,
and stop only where the program exits. -/
theorem run_inv [Inhabited K] [Inhabited V] {maxDegree : ℕ → ℕ} {calls : List (FibCall K V)}
    (h : Along (step maxDegree) (fun s c => s.Called c ∧ s.Fitting maxDegree c) calls start) :
    (∀ s, runSteps (step maxDegree) calls start = .ok s → s.Inv) ∧
      ∀ e, runSteps (step maxDegree) calls start = .error e → ∃ text, e = .exit text := by
  refine run_invariant (fun _ _ g => g) (I := fun _ s => s.Inv) ?_ ?_ calls () .start h
  · rintro - s c s' hI ⟨hc, hf⟩ hs
    rcases hI.step hc hf with ⟨s₁, hs₁, hI₁⟩ | ⟨text, hs₁⟩
    · exact Except.ok.inj (hs₁.symm.trans hs) ▸ hI₁
    · exact nomatch hs₁.symm.trans hs
  · rintro - s c e hI ⟨hc, hf⟩ hs
    rcases hI.step hc hf with ⟨s₁, hs₁, -⟩ | ⟨text, hs₁⟩
    · exact nomatch hs₁.symm.trans hs
    · exact ⟨text, Except.error.inj (hs.symm.trans hs₁)⟩

end FibSession

end Goedb
