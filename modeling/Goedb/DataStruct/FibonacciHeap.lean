import Goedb.Basic
import Goedb.Lib.Program
import Mathlib.Order.BoundedOrder.Basic

/-!
# DataStruct — Fibonacci heaps

`fibonacci_heap.h`: trees whose roots form a ring, as the children of every node do.  A pointer is an
address; nothing lives at the null pointer and at addresses that were freed, and `malloc` returns an
address that was never used.  Keys are of any linear order, and its least element is `-DBL_MAX`.  The
length of `nodes_w_degree` is a logarithm in floating point, so the function that gives it for the number
of nodes is a parameter.

`destroy` is left out.
-/

namespace Goedb

/-- `fib_heap_ul_node`. -/
structure FibNode (K V : Type) where
  key : K
  value : V
  parent : ℕ
  child : ℕ
  left : ℕ
  right : ℕ
  degree : ℕ
  mark : Bool
  deriving DecidableEq, Repr

/-- The memory the nodes lie in: what an address has, and whether it is allocated. -/
structure FibMemory (K V : Type) where
  node : ℕ → FibNode K V
  alive : ℕ → Bool
  /-- The next address that `malloc` returns. -/
  fresh : ℕ

/-- `fib_heap_ul`. -/
structure FibHeap where
  min : ℕ
  numNodes : ℕ
  deriving DecidableEq, Repr

namespace FibMemory

variable {K V : Type}

/-- `NULL`. -/
def null : ℕ := 0

/-- The node a pointer points at. -/
def deref (m : FibMemory K V) (p : ℕ) : Except Fault (FibNode K V) :=
  if m.alive p then .ok (m.node p) else .error .undefined

/-- The memory with the fields of one node assigned. -/
def assign (m : FibMemory K V) (p : ℕ) (f : FibNode K V → FibNode K V) : FibMemory K V :=
  { m with node := Function.update m.node p (f (m.node p)) }

/-- An assignment to fields of the node a pointer points at. -/
def write (m : FibMemory K V) (p : ℕ) (f : FibNode K V → FibNode K V) :
    Except Fault (FibMemory K V) :=
  if m.alive p then .ok (m.assign p f) else .error .undefined

/-- `malloc`, and the assignments to the fields of the new node. -/
def alloc (m : FibMemory K V) (n : FibNode K V) : FibMemory K V :=
  { node := Function.update m.node m.fresh n
    alive := Function.update m.alive m.fresh true
    fresh := m.fresh + 1 }

/-- `free`. -/
def free (m : FibMemory K V) (p : ℕ) : Except Fault (FibMemory K V) :=
  if m.alive p then .ok { m with alive := Function.update m.alive p false } else .error .undefined

/-! ### Rings -/

/-- The neighbours of `y` are linked to each other. -/
def unlink (m : FibMemory K V) (y : ℕ) : Except Fault (FibMemory K V) := do
  let n ← m.deref y
  let m ← m.write n.left fun c => { c with right := n.right }
  let n ← m.deref y
  m.write n.right fun c => { c with left := n.left }

/-- `y` is put to the right of `p`.  The callers do these four assignments in different orders, which
makes no difference: `y` is neither `p` nor to the right of `p` before. -/
def linkRight (m : FibMemory K V) (p y : ℕ) : Except Fault (FibMemory K V) := do
  let n ← m.deref p
  let m ← m.write y fun c => { c with right := n.right }
  let m ← m.write n.right fun c => { c with left := y }
  let m ← m.write y fun c => { c with left := p }
  m.write p fun c => { c with right := y }

/-! ### Insertion -/

variable [LinearOrder K] [OrderBot K]

/-- `fib_heap_ul_insert`. -/
def insert (m : FibMemory K V) (fh : FibHeap) (key : K) (value : V) :
    Except Fault (FibMemory K V × FibHeap) := do
  if key = ⊥ then
    .error (.exit "A key of value DBL_MAX is not allowed!Please use somthing greater thanthe min value of the type as smallest priority!")
  else
    let node := m.fresh
    let m := m.alloc ⟨key, value, null, null, null, null, 0, false⟩
    if fh.min = null then
      let m ← m.write node fun c => { c with left := node, right := node }
      return (m, { min := node, numNodes := fh.numNodes + 1 })
    else
      let m ← m.linkRight fh.min node
      let n ← m.deref fh.min
      let c ← m.deref node
      return (m, { min := if c.key < n.key then node else fh.min, numNodes := fh.numNodes + 1 })

/-! ### Consolidation -/

/-- `y` becomes a child of `x`. -/
def addChild (m : FibMemory K V) (x y : ℕ) : Except Fault (FibMemory K V) := do
  let n ← m.deref x
  if n.child ≠ null then m.linkRight n.child y
  else
    let m ← m.write x fun c => { c with child := y }
    m.write y fun c => { c with left := y, right := y }

/-- `fib_heap_ul_make_child`. -/
def makeChild (m : FibMemory K V) (x y : ℕ) : Except Fault (FibMemory K V) := do
  if x = null ∨ y = null then .error (.exit "fibonacci heap - make_child: Invalid Argumentd!")
  else
    let m ← m.unlink y
    let m ← m.write y fun c => { c with parent := x }
    let m ← m.addChild x y
    let m ← m.write y fun c => { c with mark := false }
    m.write x fun c => { c with degree := c.degree + 1 }

/-- The variables of `consolidate` that its loop changes. -/
structure Walk (K V : Type) where
  mem : FibMemory K V
  nodesWDegree : List ℕ
  first : ℕ

/-- The inner loop of `consolidate`, with the `n` places of `nodes_w_degree` from `d` on. -/
def mergeLoop : (n : ℕ) → (x d : ℕ) → Walk K V → Except Fault (ℕ × ℕ × Walk K V)
  | 0, _, _, _ => .error .undefined
  | n + 1, x, d, w => do
      let y := w.nodesWDegree.getD d null
      if y = null ∨ x = y then return (x, d, w)
      else
        let cx ← w.mem.deref x
        let cy ← w.mem.deref y
        let (x, y) := if cy.key < cx.key then (y, x) else (x, y)
        let mem ← w.mem.makeChild x y
        mergeLoop n x (d + 1)
          { mem := mem
            nodesWDegree := w.nodesWDegree.set d null
            first := if y = w.first then x else w.first }

/-- The loop of `consolidate` that makes all degrees unique. -/
def walkLoop : (fuel : ℕ) → (x : ℕ) → Walk K V → Except Fault (Walk K V)
  | 0, _, _ => .error .diverge
  | fuel + 1, x, w => do
      let n ← w.mem.deref x
      let (x, d, w) ← mergeLoop (w.nodesWDegree.length - n.degree) x n.degree w
      let w := { w with nodesWDegree := w.nodesWDegree.set d x }
      let n ← w.mem.deref x
      if n.right = w.first then return w
      else walkLoop fuel n.right w

/-- The loop that rebuilds the root list; the second result is `fh->min`. -/
def rebuild : (nodesWDegree : List ℕ) → FibMemory K V → (min : ℕ) → Except Fault (FibMemory K V × ℕ)
  | [], m, min => .ok (m, min)
  | x :: table, m, min =>
      if x = null then rebuild table m min
      else if min = null then do
        let m ← m.write x fun c => { c with left := x, right := x }
        rebuild table m x
      else do
        let m ← m.linkRight min x
        let cx ← m.deref x
        let c ← m.deref min
        rebuild table m (if cx.key < c.key then x else min)

/-- `fib_heap_ul_consolidate`. -/
def consolidate (maxDegree : ℕ → ℕ) (fuel : ℕ) (m : FibMemory K V) (fh : FibHeap) :
    Except Fault (FibMemory K V × FibHeap) := do
  if fh.min = null then .error (.exit "fibonacci heap - consolidate: Invalid Argumentd!")
  else
    let z ← m.deref fh.min
    let w ← walkLoop fuel z.right ⟨m, List.replicate (maxDegree fh.numNodes) null, z.right⟩
    let (m, min) ← rebuild w.nodesWDegree w.mem null
    return (m, { fh with min := min })

/-! ### The least entry -/

/-- The loop of `extract_min` that moves the children of `z` to the root list. -/
def liftChildren (z : ℕ) : (fuel node : ℕ) → FibMemory K V → Except Fault (FibMemory K V)
  | 0, _, _ => .error .diverge
  | fuel + 1, node, m =>
      if node = null then .ok m
      else do
        let n ← m.deref node
        let m ← m.write node fun c => { c with parent := null }
        let m ← m.unlink node
        let m ← m.linkRight z node
        liftChildren z fuel (if n.right ≠ node then n.right else null) m

/-- The end of `extract_min`: what is left in the root list is consolidated. -/
def settle (maxDegree : ℕ → ℕ) (fuel : ℕ) (m : FibMemory K V) (fh : FibHeap) :
    Except Fault (FibMemory K V × FibHeap) := do
  let z ← m.deref fh.min
  if z.right = fh.min then return (m, { fh with min := null })
  else consolidate maxDegree fuel m fh

/-- `fib_heap_ul_extract_min`; the first result is the node. -/
def extractMin (maxDegree : ℕ → ℕ) (fuel : ℕ) (m : FibMemory K V) (fh : FibHeap) :
    Except Fault (ℕ × FibMemory K V × FibHeap) := do
  if fh.min = null then .error (.exit "fibonacci_heap: minimum is not set.")
  else
    let z ← m.deref fh.min
    let m ← liftChildren fh.min fuel z.child m
    let m ← m.unlink fh.min
    let (m, fh') ← settle maxDegree fuel m fh
    return (fh.min, m, { fh' with numNodes := fh'.numNodes - 1 })

/-! ### Union -/

/-- The two root lists of `union` are joined. -/
def splice (m : FibMemory K V) (min₁ min₂ : ℕ) : Except Fault (FibMemory K V) := do
  let n₁ ← m.deref min₁
  let n₂ ← m.deref min₂
  let m ← m.write min₁ fun c => { c with right := min₂ }
  let m ← m.write min₂ fun c => { c with left := min₁ }
  let m ← m.write n₁.right fun c => { c with left := n₂.left }
  m.write n₂.left fun c => { c with right := n₁.right }

/-- `fib_heap_ul_union`. -/
def union (m : FibMemory K V) (fh₁ fh₂ : FibHeap) : Except Fault (FibMemory K V × FibHeap) := do
  if fh₁.numNodes = 0 ∧ fh₂.numNodes = 0 then return (m, { min := null, numNodes := 0 })
  else if fh₁.numNodes = 0 ∨ fh₂.numNodes = 0 then
    return (m, { min := if fh₁.numNodes = 0 then fh₂.min else fh₁.min
                 numNodes := fh₁.numNodes + fh₂.numNodes })
  else
    let m ← m.splice fh₁.min fh₂.min
    let n₂ ← m.deref fh₂.min
    let n ← m.deref fh₁.min
    return (m, { min := if n₂.key < n.key then fh₂.min else fh₁.min
                 numNodes := fh₁.numNodes + fh₂.numNodes })

/-! ### Lesser keys -/

/-- The node is taken out of the children of its parent. -/
def detach (m : FibMemory K V) (node parent : ℕ) : Except Fault (FibMemory K V) := do
  let p ← m.deref parent
  if p.degree = 1 then m.write parent fun c => { c with child := null }
  else
    let m ← m.unlink node
    let p ← m.deref parent
    let n ← m.deref node
    if node = p.child then m.write parent fun c => { c with child := n.right }
    else return m

/-- `fib_heap_ul_cut`. -/
def cut (m : FibMemory K V) (fh : FibHeap) (node parent : ℕ) : Except Fault (FibMemory K V) := do
  if node = null ∨ parent = null then .error (.exit "fibonacci heap - cut: Invalid Argumentd!")
  else
    let m ← m.detach node parent
    let m ← m.write parent fun c => { c with degree := c.degree - 1 }
    let m ← m.write node fun c => { c with parent := null, mark := false }
    m.linkRight fh.min node

/-- The loop of `cascading_cut`. -/
def cascadingLoop (fh : FibHeap) : (fuel node : ℕ) → FibMemory K V → Except Fault (FibMemory K V)
  | 0, _, _ => .error .diverge
  | fuel + 1, node, m => do
      let n ← m.deref node
      if n.parent = null then return m
      else if n.mark = false then m.write node fun c => { c with mark := true }
      else
        let m ← m.cut fh node n.parent
        cascadingLoop fh fuel n.parent m

/-- `fib_heap_ul_cascading_cut`. -/
def cascadingCut (fuel : ℕ) (m : FibMemory K V) (fh : FibHeap) (node : ℕ) :
    Except Fault (FibMemory K V) :=
  if node = null then .error (.exit "fibonacci heap - cascading_cut: Invalid Argumentd!")
  else cascadingLoop fh fuel node m

/-- The cuts of `decrease_key`, if the new key is less than the one of the parent. -/
def cutLesser (fuel : ℕ) (m : FibMemory K V) (fh : FibHeap) (node : ℕ) :
    Except Fault (FibMemory K V) := do
  let n ← m.deref node
  if n.parent = null then return m
  else
    let p ← m.deref n.parent
    if n.key < p.key then
      let m ← m.cut fh node n.parent
      cascadingCut fuel m fh n.parent
    else return m

/-- `fib_heap_ul_decrease_key_internal`. -/
def decreaseKeyInternal (fuel : ℕ) (m : FibMemory K V) (fh : FibHeap) (node : ℕ) (newKey : K)
    (delete : Bool) : Except Fault (FibMemory K V × FibHeap) := do
  if node = null then
    .error (.exit "fib heap - decrease key: Arguments null or previous key was larger then new key!")
  else
    let n ← m.deref node
    if n.key < newKey then
      .error (.exit "fib heap - decrease key: Arguments null or previous key was larger then new key!")
    else if delete = false ∧ newKey = ⊥ then
      .error (.exit "-DBL_MAX is reserved as priority!Please use somthing greater thanthat as smallest priority!")
    else
      let m ← m.write node fun c => { c with key := newKey }
      let m ← m.cutLesser fuel fh node
      let n ← m.deref node
      let c ← m.deref fh.min
      return (m, { fh with min := if n.key < c.key then node else fh.min })

/-- `fib_heap_ul_decrease_key`. -/
def decreaseKey (fuel : ℕ) (m : FibMemory K V) (fh : FibHeap) (node : ℕ) (newKey : K) :
    Except Fault (FibMemory K V × FibHeap) :=
  decreaseKeyInternal fuel m fh node newKey false

/-- `fib_heap_ul_delete`. -/
def delete (maxDegree : ℕ → ℕ) (fuel : ℕ) (m : FibMemory K V) (fh : FibHeap) (node : ℕ) :
    Except Fault (FibMemory K V × FibHeap) := do
  let (m, fh) ← decreaseKeyInternal fuel m fh node ⊥ true
  let (z, m, fh) ← extractMin maxDegree fuel m fh
  let m ← m.free z
  return (m, fh)

end FibMemory

end Goedb
