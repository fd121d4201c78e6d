import Goedb.Basic
import Goedb.Lib.Steps
import Mathlib.Algebra.Order.Monoid.WithTop
import Mathlib.Algebra.Order.Ring.Rat
import Mathlib.Data.List.AList
import Mathlib.Data.List.Sort
import Mathlib.Data.Multiset.Basic

/-!
# DataStruct — numbers and queues of the path searches

Weights are exact here, and `⊤` is `DBL_MAX`, which a weight that is added does not change.  `a_star`
also adds two distances of `DBL_MAX`: the sum is more than `DBL_MAX` (`Total`).

The searches are given a queue with the functions of `fib_heap_ul` that they use.  A queue is lawful in
some states if it keeps its entries as long as it is only asked for one there (`PrioQueue.LawfulIn`).  It is
uniform if it does not look at the values (`PrioQueue.Uniform`).
-/

namespace Goedb

/-! ### Numbers -/

/-- A dictionary with numbers as values. -/
abbrev NumDict (K : Type) := AList fun _ : Ulong => K

/-- `dict_ul_d`. -/
abbrev DistDict := NumDict (WithTop ℚ)

section NumDict

variable {K : Type}

/-- `dict_ul_d_get_direct`. -/
def NumDict.getDirect (d : NumDict K) (key : Ulong) : Except Fault K :=
  match d.lookup key with
  | some v => .ok v
  | none => .error (.exit "htable - get_direct: no such key!")

theorem NumDict.getDirect_ok {d : NumDict K} {key : Ulong} {v : K} (h : d.lookup key = some v) :
    d.getDirect key = .ok v := by rw [getDirect, h]

end NumDict

/-- A sum of distances and heuristics.  `⊤` is more than `DBL_MAX`. -/
def Total : Type := WithTop (WithTop ℚ)

namespace Total

instance : LinearOrder Total := inferInstanceAs (LinearOrder (WithTop (WithTop ℚ)))

instance : OrderTop Total := inferInstanceAs (OrderTop (WithTop (WithTop ℚ)))

/-- The sum of one distance. -/
def of (x : WithTop ℚ) : Total := WithTop.some x

@[elab_as_elim, cases_eliminator]
theorem cases {motive : Total → Prop} (top : motive ⊤) (of : ∀ x, motive (.of x)) (x : Total) :
    motive x := WithTop.recTopCoe top of x

/-- Of two sums that are `DBL_MAX` or more the sum is more than `DBL_MAX`. -/
protected def add : Total → Total → Total
  | some x, some y => if x = ⊤ ∧ y = ⊤ then ⊤ else .of (x + y)
  | _, _ => ⊤

instance : Add Total := ⟨Total.add⟩

instance : Zero Total := ⟨.of 0⟩

variable {x y : WithTop ℚ}

theorem of_add_of (h : ¬ (x = ⊤ ∧ y = ⊤)) : of x + of y = of (x + y) := if_neg h

example : of ⊤ + of ⊤ = ⊤ := rfl

/-- A weight is added as it is. -/
theorem of_add_coe (x : WithTop ℚ) (k : ℚ) : of x + of k = of (x + k) :=
  of_add_of fun h => WithTop.coe_ne_top h.2

theorem top_add (z : Total) : ⊤ + z = ⊤ := rfl

theorem add_top (z : Total) : z + ⊤ = ⊤ := by
  cases z <;> rfl

theorem of_le_of : of x ≤ of y ↔ x ≤ y := WithTop.coe_le_coe

theorem of_lt_of : of x < of y ↔ x < y := WithTop.coe_lt_coe

protected theorem add_comm (a b : Total) : a + b = b + a := by
  cases a with
  | top => rw [top_add, add_top]
  | of x =>
      cases b with
      | top => rw [top_add, add_top]
      | of y =>
          by_cases h : x = ⊤ ∧ y = ⊤
          · rw [h.1, h.2]
          · rw [of_add_of h, of_add_of fun h' => h h'.symm, add_comm]

protected theorem zero_add (a : Total) : 0 + a = a := by
  cases a with
  | top => exact add_top 0
  | of x => exact (of_add_of fun h => WithTop.zero_ne_top h.1).trans (congrArg of (zero_add x))

/-- What makes a sum of two distances more than `DBL_MAX`. -/
theorem of_add_of_eq : of x + of y = if x = ⊤ ∧ y = ⊤ then ⊤ else of (x + y) := rfl

protected theorem add_assoc (a b c : Total) : a + b + c = a + (b + c) := by
  cases a with
  | top => rw [top_add, top_add, top_add]
  | of x =>
      cases b with
      | top => rw [add_top, top_add, add_top]
      | of y =>
          cases c with
          | top => rw [add_top, add_top, add_top]
          | of z => cases x <;> cases y <;> cases z <;>
              simp [of_add_of_eq, top_add, add_top, ← WithTop.coe_add, add_assoc]

instance : AddCommMonoid Total where
  add_assoc := Total.add_assoc
  zero_add := Total.zero_add
  add_zero a := (Total.add_comm a 0).trans (Total.zero_add a)
  add_comm := Total.add_comm
  nsmul := nsmulRec

instance : IsOrderedAddMonoid Total where
  add_le_add_left a b h c := by
    cases b with
    | top =>
        rw [top_add]
        exact le_top
    | of y =>
        cases a with
        | top => exact absurd h (not_le.mpr (WithTop.coe_lt_top y))
        | of x =>
            cases c with
            | top => rw [add_top, add_top]
            | of z =>
                have hxy := of_le_of.mp h
                rw [of_add_of_eq, of_add_of_eq]
                by_cases hy : y = ⊤ ∧ z = ⊤
                · rw [if_pos hy]
                  exact le_top
                · have hx : ¬ (x = ⊤ ∧ z = ⊤) := fun hx => hy ⟨top_le_iff.mp (hx.1 ▸ hxy), hx.2⟩
                  rw [if_neg hy, if_neg hx]
                  exact of_le_of.mpr (add_le_add_left hxy z)

end Total

/-! ### Queues -/

/-- The functions of `fib_heap_ul`: entries are keys with values, and a node that is extracted is freed
after it was read. -/
structure PrioQueue (K : Type) where
  Carrier : Type
  create : Carrier
  insert : Carrier → K → Ulong → Except Fault Carrier
  extractMin : Carrier → Except Fault ((K × Ulong) × Carrier)
  numNodes : Carrier → ℕ

namespace PrioQueue

variable {K : Type}

/-- Asked for an entry in these states only, the queue neither loses nor invents entries. -/
structure LawfulIn (Q : PrioQueue K) (fits : Q.Carrier → Prop) where
  Has : Q.Carrier → Multiset (K × Ulong) → Prop
  create : Has Q.create 0
  insert : ∀ q es k v, Has q es → ∃ q', Q.insert q k v = .ok q' ∧ Has q' ((k, v) ::ₘ es)
  numNodes : ∀ q es, Has q es → Q.numNodes q = es.card
  extractMin : ∀ q es, Has q es → es ≠ 0 → fits q →
    ∃ x q' es', Q.extractMin q = .ok (x, q') ∧ es = x ::ₘ es' ∧ Has q' es'

/-- The queue neither loses nor invents entries. -/
abbrev Lawful (Q : PrioQueue K) := Q.LawfulIn fun _ => True

/-- No entry has a lesser key than the one that is extracted. -/
def LawfulIn.Least [LE K] {Q : PrioQueue K} {fits : Q.Carrier → Prop} (L : Q.LawfulIn fits) : Prop :=
  ∀ q es x q', L.Has q es → fits q → Q.extractMin q = .ok (x, q') → ∀ y ∈ es, x.1 ≤ y.1

/-- The entries have the same keys, and related values. -/
def RelatedEntries (R : Ulong → Ulong → Prop) (x y : K × Ulong) : Prop := x.1 = y.1 ∧ R x.2 y.2

/-- Related queues stay related, and hand back related values with the same keys. -/
structure Respects (Q : PrioQueue K) (R : Ulong → Ulong → Prop) (rel : Q.Carrier → Q.Carrier → Prop) :
    Prop where
  create : rel Q.create Q.create
  insert : ∀ q q' k v v', rel q q' → R v v' → Lib.Alike rel (Q.insert q k v) (Q.insert q' k v')
  numNodes : ∀ q q', rel q q' → Q.numNodes q' = Q.numNodes q
  extractMin : ∀ q q', rel q q' →
    Lib.Alike (fun r r' => RelatedEntries R r.1 r'.1 ∧ rel r.2 r'.2) (Q.extractMin q) (Q.extractMin q')

/-- The queue does not look at the values. -/
def Uniform (Q : PrioQueue K) : Prop := ∀ R, ∃ rel, Q.Respects R rel

/-! ### A queue in the order of the keys -/

variable [LinearOrder K]

variable (K) in
/-- The entries, the least keys first. -/
structure Sorted where
  list : List (K × Ulong)
  pairwise : list.Pairwise fun x y => x.1 ≤ y.1

/-- The entry is put behind those with a lesser key. -/
def insertSorted (x : K × Ulong) : List (K × Ulong) → List (K × Ulong)
  | [] => [x]
  | y :: l => if x.1 ≤ y.1 then x :: y :: l else y :: insertSorted x l

theorem perm_insertSorted (x : K × Ulong) (l : List (K × Ulong)) :
    (insertSorted x l).Perm (x :: l) := by
  induction l with
  | nil => exact .refl _
  | cons y l ih =>
      rw [insertSorted]
      split
      · exact .refl _
      · exact (ih.cons y).trans (.swap x y l)

theorem pairwise_insertSorted (x : K × Ulong) {l : List (K × Ulong)}
    (h : l.Pairwise fun x y => x.1 ≤ y.1) :
    (insertSorted x l).Pairwise fun x y => x.1 ≤ y.1 := by
  induction l with
  | nil => exact List.pairwise_singleton _ _
  | cons y l ih =>
      obtain ⟨hy, hl⟩ := List.pairwise_cons.mp h
      rw [insertSorted]
      split
      · rename_i hxy
        refine List.pairwise_cons.mpr ⟨fun z hz => ?_, h⟩
        rcases List.mem_cons.mp hz with rfl | hz
        · exact hxy
        · exact hxy.trans (hy z hz)
      · rename_i hxy
        refine List.pairwise_cons.mpr ⟨fun z hz => ?_, ih hl⟩
        rcases List.mem_cons.mp ((perm_insertSorted x l).mem_iff.mp hz) with rfl | hz
        · exact le_of_not_ge hxy
        · exact hy z hz

/-- The queue that keeps its entries in the order of the keys. -/
def sorted : PrioQueue K where
  Carrier := Sorted K
  create := ⟨[], .nil⟩
  insert q k v := .ok ⟨insertSorted (k, v) q.list, pairwise_insertSorted (k, v) q.pairwise⟩
  extractMin q :=
    match q with
    | ⟨[], _⟩ => .error (.exit "fibonacci_heap: minimum is not set.")
    | ⟨x :: l, h⟩ => .ok (x, ⟨l, h.tail⟩)
  numNodes q := q.list.length

/-- The queue keeps its entries. -/
def sortedLawful : (sorted : PrioQueue K).Lawful where
  Has q es := es = q.list
  create := rfl
  insert q es k v h := by
    refine ⟨_, rfl, ?_⟩
    rw [h]
    exact (Multiset.coe_eq_coe.mpr (perm_insertSorted (k, v) q.list)).symm
  numNodes q es h := by
    rw [h]
    rfl
  extractMin q es h hne _ := by
    obtain ⟨_ | ⟨x, l⟩, hl⟩ := q
    · exact absurd h hne
    · exact ⟨x, ⟨l, hl.tail⟩, l, rfl, h, rfl⟩

end PrioQueue

end Goedb
