import Goedb.Basic
import Goedb.Lib.Program
import Goedb.Lib.Ring

/-!
# DataStruct — linked lists

`linked_list.h`: nodes with a pointer to the next and one to the previous node, the last node linked
to the first.  The lists of the page cache are of this kind: its free frames and its queue of
recently referenced frames.  A pointer is an address; nothing lives at the null pointer and at
addresses that were freed, and `calloc` returns an address that was never used.

The functions keep the links between the nodes (`Holds`).  They do not keep the two links that close
the ring: `remove` at either end leaves one of them pointing at the node that was freed.  Only
`moveBack` reads these links, for the last node.

* `append_ok`, `get_ok`, `remove_ok`: the functions on the list of the elements.
* `moveBack_ok`: `moveBack` does what `moved` says, unless it turns a ring that is not closed.
-/

namespace Goedb

open Lib

/-- A node of a linked list. -/
structure LinkedList.Cell (α : Type) where
  element : α
  prev : ℕ
  next : ℕ
  deriving DecidableEq, Repr

/-- A linked list, with the memory its nodes lie in. -/
structure LinkedList (α : Type) where
  head : ℕ
  tail : ℕ
  len : ℕ
  cells : ℕ → Option (LinkedList.Cell α)
  /-- The next address that `calloc` returns. -/
  fresh : ℕ

namespace LinkedList

variable {α : Type}

/-- `NULL`. -/
def null : ℕ := 0

/-- `create`. -/
def create : LinkedList α :=
  { head := null, tail := null, len := 0, cells := fun _ => none, fresh := 1 }

/-- The node a pointer points at. -/
def deref (ll : LinkedList α) (p : ℕ) : Except Fault (Cell α) :=
  match ll.cells p with
  | none => .error .undefined
  | some c => .ok c

/-- An assignment to fields of the node a pointer points at. -/
def modify (ll : LinkedList α) (p : ℕ) (f : Cell α → Cell α) : Except Fault (LinkedList α) := do
  let c ← ll.deref p
  return { ll with cells := Function.update ll.cells p (some (f c)) }

/-- `free`. -/
def free (ll : LinkedList α) (p : ℕ) : Except Fault (LinkedList α) := do
  let _ ← ll.deref p
  return { ll with cells := Function.update ll.cells p none }

/-- `calloc` of a node, with its fields set. -/
def alloc (ll : LinkedList α) (elem : α) (prev next : ℕ) : LinkedList α :=
  { ll with
    cells := Function.update ll.cells ll.fresh (some ⟨elem, prev, next⟩)
    fresh := ll.fresh + 1 }

/-- `append`. -/
def append (ll : LinkedList α) (elem : α) : Except Fault (LinkedList α) := do
  let node := ll.fresh
  if ll.tail = null then
    return { ll.alloc elem node node with head := node, tail := node, len := ll.len + 1 }
  else
    let ll := ll.alloc elem ll.tail ll.head
    let ll ← ll.modify ll.tail fun c => { c with next := node }
    let ll ← ll.modify ll.head fun c => { c with prev := node }
    return { ll with tail := node, len := ll.len + 1 }

/-- The loop of `get`. -/
def walk (ll : LinkedList α) : (n : ℕ) → (cur : ℕ) → Except Fault ℕ
  | 0, cur => .ok cur
  | n + 1, cur => do
      let c ← ll.deref cur
      walk ll n c.next

/-- `get`. -/
def get (ll : LinkedList α) (idx : ℕ) : Except Fault α := do
  if ll.len ≤ idx then .error (.exit "Linked List - get: Invalid Arguments!")
  else
    let cur ← ll.walk idx ll.head
    let c ← ll.deref cur
    return c.element

/-- The loop of `insert` and of `remove_internal`. -/
def walkPair (ll : LinkedList α) : (n : ℕ) → (cur next : ℕ) → Except Fault (ℕ × ℕ)
  | 0, cur, next => .ok (cur, next)
  | n + 1, _, next => do
      let c ← ll.deref next
      walkPair ll n next c.next

/-- `insert`. -/
def insert (ll : LinkedList α) (elem : α) (idx : ℕ) : Except Fault (LinkedList α) := do
  let new := ll.fresh
  if ll.len = 0 ∧ idx = 0 then
    return { ll.alloc elem new new with head := new, tail := new, len := ll.len + 1 }
  else if ll.len ≤ idx then .error (.exit "linked list - insert: Index out of bounds!")
  else if idx ≠ 0 ∧ idx ≠ ll.len then
    let (cur, next) ← ll.walkPair idx ll.head ll.head
    let ll ← (ll.alloc elem cur next).modify cur fun c => { c with next := new }
    let ll ← ll.modify next fun c => { c with prev := new }
    return { ll with len := ll.len + 1 }
  else
    let ll ← (ll.alloc elem ll.tail ll.head).modify ll.head fun c => { c with prev := new }
    let ll ← ll.modify ll.tail fun c => { c with next := new }
    if idx = 0 then return { ll with head := new, len := ll.len + 1 }
    else return { ll with tail := new, len := ll.len + 1 }

/-- `remove_internal`, for elements without a callback that frees them. -/
def remove (ll : LinkedList α) (idx : ℕ) : Except Fault (LinkedList α) := do
  if ll.len ≤ idx then .error (.exit "Linked list - remove internal: Invalid arguemnts!")
  else if ll.len = 1 ∧ idx = 0 then
    let ll ← ll.free ll.head
    return { ll with head := null, tail := null, len := ll.len - 1 }
  else if idx = 0 then
    let c ← ll.deref ll.head
    let ll ← ll.free ll.head
    let ll := { ll with head := c.next }
    let ll ← ll.modify ll.head fun d => { d with prev := ll.tail }
    return { ll with len := ll.len - 1 }
  else if idx = ll.len - 1 then
    let c ← ll.deref ll.tail
    let ll ← ll.free ll.tail
    let ll := { ll with tail := c.prev }
    let ll ← ll.modify ll.tail fun d => { d with next := ll.head }
    return { ll with len := ll.len - 1 }
  else
    let (cur, rem) ← ll.walkPair idx ll.head ll.head
    let c ← ll.deref rem
    let ll ← ll.modify cur fun d => { d with next := c.next }
    let ll ← ll.modify c.next fun d => { d with prev := cur }
    let ll ← ll.free rem
    return { ll with len := ll.len - 1 }

/-- `take`. -/
def take (ll : LinkedList α) (idx : ℕ) : Except Fault (α × LinkedList α) := do
  let result ← ll.get idx
  let ll ← ll.remove idx
  return (result, ll)

/-- `pop` of a queue. -/
def queuePop (ll : LinkedList α) : Except Fault (α × LinkedList α) := do
  let c ← ll.deref ll.head
  let ll ← ll.remove 0
  return (c.element, ll)

/-- The search of `move_back`, from the last node on: the number of nodes behind the one it finds,
and this node. -/
def findBack [DecidableEq α] (ll : LinkedList α) (elem : α) :
    (n i : ℕ) → (cur : ℕ) → Except Fault (Option (ℕ × ℕ))
  | 0, _, _ => .ok none
  | n + 1, i, cur => do
      let c ← ll.deref cur
      if c.element = elem then return some (i, cur)
      else findBack ll elem n (i + 1) c.prev

/-- The end of `move_back` for a node between the first and the last one. -/
def relinkBack (ll : LinkedList α) (cur : ℕ) : Except Fault (LinkedList α) := do
  let c ← ll.deref cur
  let ll ← ll.modify c.next fun d => { d with prev := c.prev }
  let c ← ll.deref cur
  let ll ← ll.modify c.prev fun d => { d with next := c.next }
  let ll ← ll.modify cur fun d => { d with next := ll.head, prev := ll.tail }
  let ll ← ll.modify ll.tail fun d => { d with next := cur }
  let ll ← ll.modify ll.head fun d => { d with prev := cur }
  return { ll with tail := cur }

/-- `move_back` of a queue. -/
def moveBack [DecidableEq α] (ll : LinkedList α) (elem : α) : Except Fault (LinkedList α) := do
  match ← ll.findBack elem ll.len 0 ll.tail with
  | none => ll.append elem
  | some (i, cur) =>
      if i = ll.len - 1 then return ll
      else if i = 0 then
        let c ← ll.deref ll.head
        return { ll with tail := ll.head, head := c.next }
      else ll.relinkBack cur

/-! ### Links -/

/-- The next pointer of the node at an address. -/
def nxt (ll : LinkedList α) (a : ℕ) : ℕ := (ll.cells a).elim null Cell.next

/-- The previous pointer of the node at an address. -/
def prv (ll : LinkedList α) (a : ℕ) : ℕ := (ll.cells a).elim null Cell.prev

/-- The element of the node at an address. -/
def elem (ll : LinkedList α) (a : ℕ) : Option α := (ll.cells a).map Cell.element

/-- The list has its nodes at the addresses `as`, in this order, with the elements `l`. -/
structure Holds (ll : LinkedList α) (as : List ℕ) (l : List α) : Prop where
  nodup : as.Nodup
  elems : as.map ll.elem = l.map some
  chain : List.IsChain (Links ll.nxt ll.prv) as
  head : ll.head = as.headD null
  tail : ll.tail = as.getLastD null
  len : ll.len = as.length
  alloc : ∀ a ∈ as, 0 < a ∧ a < ll.fresh
  pos : 0 < ll.fresh

/-- The list has the elements `l`. -/
def Rep (ll : LinkedList α) (l : List α) : Prop := ∃ as, ll.Holds as l

/-- The last node is linked to the first. -/
def Closed (ll : LinkedList α) : Prop :=
  ll.len = 0 ∨ ll.nxt ll.tail = ll.head ∧ ll.prv ll.head = ll.tail

instance (ll : LinkedList α) : Decidable ll.Closed := inferInstanceAs (Decidable (_ ∨ _))

/-- The elements of `n` nodes, from the one at `cur` on. -/
def toListFrom (ll : LinkedList α) : (n cur : ℕ) → List α
  | 0, _ => []
  | n + 1, cur =>
      match ll.cells cur with
      | none => []
      | some c => c.element :: toListFrom ll n c.next

/-- The elements of a list. -/
def toList (ll : LinkedList α) : List α := ll.toListFrom ll.len ll.head

variable {ll : LinkedList α} {as : List ℕ} {l : List α} {x : α}

/-- Every address of a list holds a node. -/
theorem cells_of_elem {a : ℕ} (h : ll.elem a = some x) :
    ll.cells a = some ⟨x, ll.prv a, ll.nxt a⟩ := by
  obtain ⟨c, hc, rfl⟩ := Option.map_eq_some_iff.mp h
  rw [prv, nxt, hc]
  rfl

theorem deref_ok {a : ℕ} (h : ll.elem a = some x) :
    ll.deref a = .ok ⟨x, ll.prv a, ll.nxt a⟩ := by
  rw [deref, cells_of_elem h]

/-- `ll'` is `ll` with its links replaced. -/
structure Rewired (ll : LinkedList α) (nxt prv : ℕ → ℕ) (ll' : LinkedList α) : Prop where
  elem : ll'.elem = ll.elem
  nxt : ll'.nxt = nxt
  prv : ll'.prv = prv
  head : ll'.head = ll.head
  tail : ll'.tail = ll.tail
  len : ll'.len = ll.len
  fresh : ll'.fresh = ll.fresh

theorem modify_ok {a : ℕ} (h : ll.elem a = some x) {f : Cell α → Cell α}
    (hf : ∀ c, (f c).element = c.element) :
    ∃ ll', ll.modify a f = .ok ll' ∧
      ll.Rewired (Function.update ll.nxt a (f ⟨x, ll.prv a, ll.nxt a⟩).next)
        (Function.update ll.prv a (f ⟨x, ll.prv a, ll.nxt a⟩).prev) ll' := by
  have hc := cells_of_elem h
  rw [modify, deref_ok h]
  refine ⟨_, rfl, funext fun b => ?_, funext fun b => ?_, funext fun b => ?_, rfl, rfl, rfl, rfl⟩
  · by_cases hb : b = a
    · subst hb
      simp only [elem, Function.update_self, Option.map_some, hf, hc]
    · simp only [elem, Function.update_of_ne hb]
  · by_cases hb : b = a
    · subst hb
      simp only [nxt, Function.update_self, Option.elim_some]
    · simp only [nxt, Function.update_of_ne hb]
  · by_cases hb : b = a
    · subst hb
      simp only [prv, Function.update_self, Option.elim_some]
    · simp only [prv, Function.update_of_ne hb]

section Rewired

variable {ll' ll'' : LinkedList α} {n p n' p' : ℕ → ℕ} {a : ℕ}

theorem Rewired.refl (ll : LinkedList α) : ll.Rewired ll.nxt ll.prv ll :=
  ⟨rfl, rfl, rfl, rfl, rfl, rfl, rfl⟩

theorem Rewired.trans (h : ll.Rewired n p ll') (h' : ll'.Rewired n' p' ll'') : ll.Rewired n' p' ll'' :=
  ⟨h'.elem.trans h.elem, h'.nxt, h'.prv, h'.head.trans h.head, h'.tail.trans h.tail,
    h'.len.trans h.len, h'.fresh.trans h.fresh⟩

theorem Rewired.deref_ok (h : ll.Rewired n p ll') (ha : ll.elem a = some x) :
    ll'.deref a = .ok ⟨x, p a, n a⟩ := by
  rw [LinkedList.deref_ok ((congrFun h.elem a).trans ha), h.nxt, h.prv]

theorem Rewired.modify (h : ll.Rewired n p ll') (ha : ll.elem a = some x) {f : Cell α → Cell α}
    (hf : ∀ c, (f c).element = c.element) :
    ∃ ll'', ll'.modify a f = .ok ll'' ∧
      ll.Rewired (Function.update n a (f ⟨x, p a, n a⟩).next)
        (Function.update p a (f ⟨x, p a, n a⟩).prev) ll'' := by
  obtain ⟨ll'', hm, hR⟩ := modify_ok ((congrFun h.elem a).trans ha) hf
  rw [h.nxt, h.prv] at hR
  exact ⟨ll'', hm, h.trans hR⟩

theorem Rewired.modify_next (h : ll.Rewired n p ll') (ha : ll.elem a = some x) (v : ℕ) :
    ∃ ll'', ll'.modify a (fun c => { c with next := v }) = .ok ll'' ∧
      ll.Rewired (Function.update n a v) p ll'' := by
  obtain ⟨ll'', hm, hR⟩ := h.modify ha (f := fun c => { c with next := v }) fun _ => rfl
  rw [Function.update_eq_self] at hR
  exact ⟨ll'', hm, hR⟩

theorem Rewired.modify_prev (h : ll.Rewired n p ll') (ha : ll.elem a = some x) (v : ℕ) :
    ∃ ll'', ll'.modify a (fun c => { c with prev := v }) = .ok ll'' ∧
      ll.Rewired n (Function.update p a v) ll'' := by
  obtain ⟨ll'', hm, hR⟩ := h.modify ha (f := fun c => { c with prev := v }) fun _ => rfl
  rw [Function.update_eq_self] at hR
  exact ⟨ll'', hm, hR⟩

end Rewired

/-- `ll'` is `ll` without the node at `a`. -/
structure Freed (ll : LinkedList α) (a : ℕ) (ll' : LinkedList α) : Prop where
  elem : ∀ b, b ≠ a → ll'.elem b = ll.elem b
  nxt : ∀ b, b ≠ a → ll'.nxt b = ll.nxt b
  prv : ∀ b, b ≠ a → ll'.prv b = ll.prv b
  head : ll'.head = ll.head
  tail : ll'.tail = ll.tail
  len : ll'.len = ll.len
  fresh : ll'.fresh = ll.fresh

theorem free_ok {a : ℕ} (h : ll.elem a = some x) : ∃ ll', ll.free a = .ok ll' ∧ ll.Freed a ll' := by
  rw [free, deref_ok h]
  refine ⟨_, rfl, fun b hb => ?_, fun b hb => ?_, fun b hb => ?_, rfl, rfl, rfl, rfl⟩
  · simp only [elem, Function.update_of_ne hb]
  · simp only [nxt, Function.update_of_ne hb]
  · simp only [prv, Function.update_of_ne hb]

/-- `ll'` is `ll` with a new node. -/
structure Allocated (ll : LinkedList α) (x : α) (prev next : ℕ) (ll' : LinkedList α) : Prop where
  elem : ∀ b, b ≠ ll.fresh → ll'.elem b = ll.elem b
  nxt : ∀ b, b ≠ ll.fresh → ll'.nxt b = ll.nxt b
  prv : ∀ b, b ≠ ll.fresh → ll'.prv b = ll.prv b
  new : ll'.elem ll.fresh = some x ∧ ll'.nxt ll.fresh = next ∧ ll'.prv ll.fresh = prev
  head : ll'.head = ll.head
  tail : ll'.tail = ll.tail
  len : ll'.len = ll.len
  fresh : ll'.fresh = ll.fresh + 1

theorem alloc_ok (ll : LinkedList α) (x : α) (prev next : ℕ) :
    ll.Allocated x prev next (ll.alloc x prev next) := by
  refine ⟨fun b hb => ?_, fun b hb => ?_, fun b hb => ?_, ⟨?_, ?_, ?_⟩, rfl, rfl, rfl, rfl⟩
  · simp only [elem, alloc, Function.update_of_ne hb]
  · simp only [nxt, alloc, Function.update_of_ne hb]
  · simp only [prv, alloc, Function.update_of_ne hb]
  · simp only [elem, alloc, Function.update_self, Option.map_some]
  · simp only [nxt, alloc, Function.update_self, Option.elim_some]
  · simp only [prv, alloc, Function.update_self, Option.elim_some]

namespace Holds

variable (h : ll.Holds as l)
include h

theorem length_eq : as.length = l.length := by
  have := congrArg List.length h.elems
  simpa using this

theorem exists_elem {a : ℕ} (ha : a ∈ as) : ∃ x ∈ l, ll.elem a = some x := by
  have hm : ll.elem a ∈ as.map ll.elem := List.mem_map_of_mem ha
  rw [h.elems, List.mem_map] at hm
  obtain ⟨x, hx, e⟩ := hm
  exact ⟨x, hx, e.symm⟩

theorem fresh_not_mem : ll.fresh ∉ as := fun ha => Nat.lt_irrefl _ (h.alloc _ ha).2

theorem null_not_mem : null ∉ as := fun ha => Nat.lt_irrefl _ (h.alloc _ ha).1

theorem head?_eq (hne : as ≠ []) : as.head? = some ll.head := by
  obtain ⟨a, t, rfl⟩ := List.exists_cons_of_ne_nil hne
  rw [h.head]
  rfl

theorem getLast?_eq (hne : as ≠ []) : as.getLast? = some ll.tail := by
  rw [h.tail, List.getLastD_eq_getLast?, List.getLast?_eq_some_getLast hne]
  rfl

theorem head_mem (hne : as ≠ []) : ll.head ∈ as := List.mem_of_mem_head? (h.head?_eq hne)

theorem tail_mem (hne : as ≠ []) : ll.tail ∈ as := List.mem_of_mem_getLast? (h.getLast?_eq hne)

theorem tail_eq_null_iff : ll.tail = null ↔ as = [] := by
  constructor
  · intro ht
    by_contra hne
    exact h.null_not_mem (ht ▸ h.tail_mem hne)
  · rintro rfl
    rw [h.tail]
    rfl

end Holds

theorem create_holds : (create : LinkedList α).Holds [] [] :=
  ⟨List.nodup_nil, rfl, List.isChain_nil, rfl, rfl, rfl, fun _ h => absurd h List.not_mem_nil,
    Nat.one_pos⟩

/-! ### One node more or less -/

/-- `ll'` is `ll` with a new node between the nodes at `b` and at `c`. -/
structure LinkedIn (ll : LinkedList α) (x : α) (b c : ℕ) (ll' : LinkedList α) : Prop where
  elem : ∀ u, u ≠ ll.fresh → ll'.elem u = ll.elem u
  nxt : ∀ u, u ≠ ll.fresh → u ≠ b → ll'.nxt u = ll.nxt u
  prv : ∀ u, u ≠ ll.fresh → u ≠ c → ll'.prv u = ll.prv u
  new : ll'.elem ll.fresh = some x
  before : Links ll'.nxt ll'.prv b ll.fresh
  behind : Links ll'.nxt ll'.prv ll.fresh c
  head : ll'.head = ll.head
  tail : ll'.tail = ll.tail
  len : ll'.len = ll.len
  fresh : ll'.fresh = ll.fresh + 1

section LinkedIn

variable {ll₁ ll' : LinkedList α} {b c : ℕ}

/-- A node is allocated, and its neighbours are linked to it. -/
theorem Allocated.linkedIn (hA : ll.Allocated x b c ll₁)
    (hR : ll₁.Rewired (Function.update ll₁.nxt b ll.fresh) (Function.update ll₁.prv c ll.fresh) ll')
    (hb : b ≠ ll.fresh) (hc : c ≠ ll.fresh) : ll.LinkedIn x b c ll' where
  elem u hu := by rw [hR.elem, hA.elem u hu]
  nxt u hu hub := by rw [hR.nxt, Function.update_of_ne hub, hA.nxt u hu]
  prv u hu huc := by rw [hR.prv, Function.update_of_ne huc, hA.prv u hu]
  new := by rw [hR.elem, hA.new.1]
  before := by
    rw [hR.nxt, hR.prv]
    exact ⟨Function.update_self .., by rw [Function.update_of_ne hc.symm, hA.new.2.2]⟩
  behind := by
    rw [hR.nxt, hR.prv]
    exact ⟨by rw [Function.update_of_ne hb.symm, hA.new.2.1], Function.update_self ..⟩
  head := hR.head.trans hA.head
  tail := hR.tail.trans hA.tail
  len := hR.len.trans hA.len
  fresh := hR.fresh.trans hA.fresh

end LinkedIn

theorem insertIdx_append {β : Type} (as bs : List β) (a : β) :
    (as ++ bs).insertIdx as.length a = as ++ a :: bs := by
  induction as with
  | nil => rfl
  | cons b as ih => rw [List.cons_append, List.length_cons, List.insertIdx_succ_cons, ih]; rfl

/-- **A new node** between the last node of `p` and the first one of `q`, around the ring. -/
theorem Holds.linkedIn {ll' : LinkedList α} {p q : List ℕ} {b c hd tl n : ℕ}
    (h : ll.Holds (p ++ q) l) (hL : ll.LinkedIn x b c ll')
    (hb : p.getLast? = some b ∨ p = [] ∧ q.getLast? = some b)
    (hc : q.head? = some c ∨ q = [] ∧ p.head? = some c)
    (hhd : hd = (p ++ ll.fresh :: q).headD null) (htl : tl = (p ++ ll.fresh :: q).getLastD null)
    (hn : n = ll.len + 1) :
    ({ ll' with head := hd, tail := tl, len := n } : LinkedList α).Holds (p ++ ll.fresh :: q)
      (l.insertIdx p.length x) := by
  have hnot : ∀ u ∈ p ++ q, u ≠ ll.fresh := fun u hu e => h.fresh_not_mem (e ▸ hu)
  have hperm : (p ++ ll.fresh :: q).Perm (ll.fresh :: (p ++ q)) := List.perm_middle
  -- the links that change are at the ends of `p` and `q`
  have hchain := List.isChain_append.mp h.chain
  have hparts := Ring.chain_parts ll'.nxt ll'.prv h.nodup hchain.1 hchain.2.1
    (fun u hu hp hq => hL.nxt u (hnot u hu) ?_) fun v hv hp hq => hL.prv v (hnot v hv) ?_
  · refine ⟨hperm.nodup_iff.mpr (List.nodup_cons.mpr ⟨h.fresh_not_mem, h.nodup⟩), ?_, ?_, hhd, htl, ?_,
      fun u hu => ?_, ?_⟩
    · change (p ++ ll.fresh :: q).map ll'.elem = _
      rw [← insertIdx_append, List.map_insertIdx, List.map_insertIdx, hL.new, ← h.elems,
        List.map_congr_left fun u hu => hL.elem u (hnot u hu)]
    · change List.IsChain (Links ll'.nxt ll'.prv) (p ++ ll.fresh :: q)
      rw [List.isChain_append, List.isChain_cons]
      refine ⟨hparts.1, ⟨fun v hv => ?_, hparts.2⟩, fun u hu v hv => ?_⟩
      · rcases hc with hc | ⟨rfl, -⟩
        · obtain rfl : c = v := Option.some.inj (hc.symm.trans hv)
          exact hL.behind
        · exact nomatch hv
      · obtain rfl : ll.fresh = v := Option.some.inj hv
        rcases hb with hb | ⟨rfl, -⟩
        · obtain rfl : b = u := Option.some.inj (hb.symm.trans hu)
          exact hL.before
        · exact nomatch hu
    · change n = _
      rw [hn, h.len, hperm.length_eq]
      rfl
    · change 0 < u ∧ u < ll'.fresh
      rw [hL.fresh]
      rcases List.mem_cons.mp (hperm.mem_iff.mp hu) with rfl | hu
      · exact ⟨h.pos, Nat.lt_succ_self _⟩
      · exact ⟨(h.alloc u hu).1, Nat.lt_succ_of_lt (h.alloc u hu).2⟩
    · change 0 < ll'.fresh
      rw [hL.fresh]
      exact Nat.succ_pos _
  · rintro rfl
    rcases hb with hb | ⟨-, hb⟩
    · exact hp hb
    · exact hq hb
  · rintro rfl
    rcases hc with hc | ⟨-, hc⟩
    · exact hq hc
    · exact hp hc

/-- **A node less**, between the last node of `p` and the first one of `q`. -/
theorem Holds.unlinked {p q : List ℕ} {a : ℕ} (h : ll.Holds (p ++ a :: q) l) (ll' : LinkedList α)
    (hd tl n : ℕ) (helem : ∀ u, u ≠ a → ll'.elem u = ll.elem u)
    (hnxt : ∀ u, u ≠ a → p.getLast? ≠ some u → q.getLast? ≠ some u → ll'.nxt u = ll.nxt u)
    (hprv : ∀ v, v ≠ a → p.head? ≠ some v → q.head? ≠ some v → ll'.prv v = ll.prv v)
    (hjoin : ∀ u ∈ p.getLast?, ∀ v ∈ q.head?, Links ll'.nxt ll'.prv u v)
    (hfresh : ll'.fresh = ll.fresh) (hhd : hd = (p ++ q).headD null)
    (htl : tl = (p ++ q).getLastD null) (hn : n = ll.len - 1) :
    ({ ll' with head := hd, tail := tl, len := n } : LinkedList α).Holds (p ++ q)
      (l.eraseIdx p.length) := by
  have hperm : (p ++ a :: q).Perm (a :: (p ++ q)) := List.perm_middle
  have hnodup := List.nodup_cons.mp (hperm.nodup_iff.mp h.nodup)
  have hnot : ∀ u ∈ p ++ q, u ≠ a := fun u hu e => hnodup.1 (e ▸ hu)
  have hmem : ∀ u ∈ p ++ q, u ∈ p ++ a :: q := fun u hu =>
    hperm.mem_iff.mpr (List.mem_cons_of_mem a hu)
  have hchain := List.isChain_append.mp h.chain
  have hparts := Ring.chain_parts ll'.nxt ll'.prv hnodup.2 hchain.1
    hchain.2.1.tail (fun u hu => hnxt u (hnot u hu)) fun v hv => hprv v (hnot v hv)
  refine ⟨hnodup.2, ?_, ?_, hhd, htl, ?_, fun u hu => ?_, ?_⟩
  · change (p ++ q).map ll'.elem = _
    rw [List.map_congr_left fun u hu => helem u (hnot u hu), ← List.eraseIdx_map, ← h.elems,
      List.eraseIdx_map, List.eraseIdx_append_of_length_le (Nat.le_refl _), Nat.sub_self]
    rfl
  · exact List.isChain_append.mpr ⟨hparts.1, hparts.2, hjoin⟩
  · change n = _
    rw [hn, h.len, hperm.length_eq]
    rfl
  · change 0 < u ∧ u < ll'.fresh
    rw [hfresh]
    exact h.alloc u (hmem u hu)
  · change 0 < ll'.fresh
    rw [hfresh]
    exact h.pos

/-! ### Appending -/

/-- The first node. -/
theorem Holds.single (h : ll.Holds [] l) (x : α) :
    ({ ll.alloc x ll.fresh ll.fresh with
        head := ll.fresh, tail := ll.fresh, len := ll.len + 1 } : LinkedList α).Holds [ll.fresh] [x] := by
  have hA := ll.alloc_ok x ll.fresh ll.fresh
  refine ⟨List.nodup_singleton _, congrArg (fun y => [y]) hA.new.1, List.isChain_singleton _, rfl, rfl,
    congrArg (· + 1) h.len, fun a ha => ?_, Nat.succ_pos _⟩
  rw [List.mem_singleton.mp ha]
  exact ⟨h.pos, Nat.lt_succ_self _⟩

theorem Holds.append_ok (h : ll.Holds as l) (x : α) :
    ∃ ll', ll.append x = .ok ll' ∧ ll'.Holds (as ++ [ll.fresh]) (l ++ [x]) ∧ ll'.Closed := by
  have hA := ll.alloc_ok x
  by_cases hne : as = []
  · subst hne
    obtain rfl : l = [] := List.length_eq_zero_iff.mp h.length_eq.symm
    rw [append, if_pos (h.tail_eq_null_iff.mpr rfl)]
    exact ⟨_, rfl, h.single x, .inr (hA ll.fresh ll.fresh).new.2⟩
  · have hh := h.head_mem hne
    have ht := h.tail_mem hne
    obtain ⟨eh, -, heh⟩ := h.exists_elem hh
    obtain ⟨et, -, het⟩ := h.exists_elem ht
    have hhf : ll.head ≠ ll.fresh := fun e => h.fresh_not_mem (e ▸ hh)
    have htf : ll.tail ≠ ll.fresh := fun e => h.fresh_not_mem (e ▸ ht)
    rw [append, if_neg (h.tail_eq_null_iff.not.mpr hne)]
    -- the new node, linked to its neighbours, then each of these linked to it
    have hA := hA ll.tail ll.head
    obtain ⟨ll₂, h₂, hR₂⟩ := (Rewired.refl _).modify_next ((hA.elem _ htf).trans het) ll.fresh
    obtain ⟨ll₃, h₃, hR₃⟩ := hR₂.modify_prev ((hA.elem _ hhf).trans heh) ll.fresh
    have hL := hA.linkedIn hR₃ htf hhf
    have hhead : ll₃.head = (as ++ [ll.fresh]).headD null := by
      obtain ⟨a, t, rfl⟩ := List.exists_cons_of_ne_nil hne
      exact hL.head.trans h.head
    have h' := h
    rw [← List.append_nil as] at h'
    have hH := h'.linkedIn hL (.inl (h.getLast?_eq hne)) (.inr ⟨rfl, h.head?_eq hne⟩) hhead
      (show ll.fresh = (as ++ [ll.fresh]).getLastD null by simp) (congrArg (· + 1) hL.len)
    rw [h.length_eq, List.insertIdx_length_self] at hH
    refine ⟨_, ?_, hH, .inr ?_⟩
    · change ((ll.alloc x ll.tail ll.head).modify ll.tail _ >>= fun ll₂ =>
        ll₂.modify ll₂.head (fun c => { c with prev := ll.fresh }) >>= fun ll₃ =>
        pure { ll₃ with tail := ll.fresh, len := ll₃.len + 1 }) = _
      rw [h₂, ok_bind, hR₂.head, hA.head, h₃]
      rfl
    · change ll₃.nxt ll.fresh = ll₃.head ∧ ll₃.prv ll₃.head = ll.fresh
      rw [hL.head]
      exact hL.behind

/-! ### Walking -/

theorem walk_ok (p : List ℕ) : ∀ {a cur : ℕ} {q : List ℕ},
    List.IsChain (Links ll.nxt ll.prv) (p ++ a :: q) → (∀ b ∈ p, ∃ x, ll.elem b = some x) →
    (p ++ [a]).head? = some cur → ll.walk p.length cur = .ok a := by
  induction p with
  | nil =>
      intro a cur q _ _ hcur
      cases hcur
      rfl
  | cons b p ih =>
      intro a cur q hc helem hcur
      cases hcur
      obtain ⟨x, hx⟩ := helem b List.mem_cons_self
      rw [List.length_cons, walk, deref_ok hx]
      rw [List.cons_append, List.isChain_cons] at hc
      refine ih hc.2 (fun c h => helem c (List.mem_cons_of_mem b h)) ?_
      have hhead : ∃ c, (p ++ [a]).head? = some c ∧ (p ++ a :: q).head? = some c := by
        cases p with
        | nil => exact ⟨a, rfl, rfl⟩
        | cons c p => exact ⟨c, rfl, rfl⟩
      obtain ⟨c, h₁, h₂⟩ := hhead
      rw [h₁, (hc.1 c h₂).1]

theorem walkPair_ok (p : List ℕ) : ∀ {x y cur : ℕ} {q : List ℕ},
    List.IsChain (Links ll.nxt ll.prv) (p ++ x :: y :: q) →
    (∀ b ∈ p ++ [x], ∃ e, ll.elem b = some e) → (p ++ [x]).head? = some cur →
    ∀ prev, ll.walkPair (p.length + 1) prev cur = .ok (x, y) := by
  induction p with
  | nil =>
      intro x y cur q hc helem hcur prev
      cases hcur
      obtain ⟨e, he⟩ := helem x (List.mem_singleton_self x)
      rw [List.length_nil, walkPair, deref_ok he]
      exact congrArg (fun v => Except.ok (x, v)) hc.rel.1
  | cons b p ih =>
      intro x y cur q hc helem hcur prev
      cases hcur
      obtain ⟨e, he⟩ := helem b List.mem_cons_self
      rw [List.length_cons, walkPair, deref_ok he]
      rw [List.cons_append, List.isChain_cons] at hc
      refine ih hc.2 (fun c h => helem c (List.mem_cons_of_mem b h)) ?_ b
      have hhead : ∃ c, (p ++ [x]).head? = some c ∧ (p ++ x :: y :: q).head? = some c := by
        cases p with
        | nil => exact ⟨x, rfl, rfl⟩
        | cons c p => exact ⟨c, rfl, rfl⟩
      obtain ⟨c, h₁, h₂⟩ := hhead
      rw [h₁, (hc.1 c h₂).1]

/-- The walk finds the nodes before and at an index. -/
theorem Holds.walkPair_ok {b c : ℕ} {p q : List ℕ} (h : ll.Holds (p ++ b :: c :: q) l) :
    ll.walkPair (p.length + 1) ll.head ll.head = .ok (b, c) := by
  refine LinkedList.walkPair_ok p h.chain (fun u hu => ?_) ?_ _
  · obtain ⟨e, -, he⟩ := h.exists_elem (show u ∈ p ++ b :: c :: q by
      rw [List.append_cons]
      exact List.mem_append_left _ hu)
    exact ⟨e, he⟩
  · rw [← h.head?_eq (List.append_ne_nil_of_right_ne_nil p (List.cons_ne_nil b _))]
    cases p <;> rfl

theorem Holds.get_ok (h : ll.Holds as l) {i : ℕ} (hi : l[i]? = some x) : ll.get i = .ok x := by
  have hlt : i < l.length := (List.getElem?_eq_some_iff.mp hi).1
  have hlt' : i < as.length := h.length_eq ▸ hlt
  obtain ⟨a, ha⟩ : ∃ a, as[i]? = some a := ⟨_, List.getElem?_eq_getElem hlt'⟩
  have hx : ll.elem a = some x := by
    have := congrArg (·[i]?) h.elems
    simp only [List.getElem?_map, ha, hi, Option.map_some, Option.some.injEq] at this
    exact this
  have hsplit : as = as.take i ++ a :: as.drop (i + 1) := by
    obtain ⟨_, rfl⟩ := List.getElem?_eq_some_iff.mp ha
    rw [List.cons_getElem_drop_succ, List.take_append_drop]
  have hlen : (as.take i).length = i := by rw [List.length_take, Nat.min_eq_left (Nat.le_of_lt hlt')]
  have hhead : (as.take i ++ [a]).head? = some ll.head := by
    have hne : as ≠ [] := List.ne_nil_of_length_pos (Nat.zero_lt_of_lt hlt')
    rw [← h.head?_eq hne]
    conv => rhs; rw [hsplit]
    cases as.take i <;> rfl
  have hwalk : ll.walk i ll.head = .ok a := by
    rw [← hlen]
    refine walk_ok (as.take i) (hsplit ▸ h.chain) (fun b hb => ?_) hhead
    obtain ⟨e, -, he⟩ := h.exists_elem (List.mem_of_mem_take hb)
    exact ⟨e, he⟩
  rw [get, if_neg (by rw [h.len]; exact Nat.not_le.mpr hlt'), hwalk]
  show (ll.deref a >>= _) = _
  rw [deref_ok hx]
  rfl

/-! ### Removing -/

theorem Holds.elems_eraseIdx (h : ll.Holds as l) (i : ℕ) :
    (as.eraseIdx i).map ll.elem = (l.eraseIdx i).map some := by
  rw [← List.eraseIdx_map, ← List.eraseIdx_map, h.elems]

theorem Holds.remove_single {a : ℕ} (h : ll.Holds [a] l) :
    ∃ ll', ll.remove 0 = .ok ll' ∧ ll'.Holds [] (l.eraseIdx 0) := by
  have hlen : ll.len = 1 := h.len
  have hhead : ll.head = a := h.head
  obtain ⟨x, -, hx⟩ := h.exists_elem (List.mem_singleton_self a)
  obtain ⟨ll₁, h₁, hF⟩ := free_ok hx
  have hl : l.eraseIdx 0 = [] := List.map_eq_nil_iff.mp (h.elems_eraseIdx 0).symm
  refine ⟨{ ll₁ with head := null, tail := null, len := ll₁.len - 1 }, ?_, ?_⟩
  · rw [remove, if_neg (by omega), if_pos ⟨hlen, rfl⟩, hhead, h₁]
    rfl
  · rw [hl]
    refine ⟨List.nodup_nil, rfl, List.isChain_nil, rfl, rfl, ?_,
      fun _ hm => absurd hm List.not_mem_nil, ?_⟩
    · show ll₁.len - 1 = 0
      rw [hF.len, hlen]
    · show 0 < ll₁.fresh
      rw [hF.fresh]
      exact h.pos

theorem Holds.remove_first {a b : ℕ} {t : List ℕ} (h : ll.Holds (a :: b :: t) l) :
    ∃ ll', ll.remove 0 = .ok ll' ∧ ll'.Holds (b :: t) (l.eraseIdx 0) := by
  have hlen : ll.len = t.length + 2 := h.len
  have hhead : ll.head = a := h.head
  have hnxt : ll.nxt a = b := h.chain.rel.1
  have hba : b ≠ a := by
    rintro rfl
    exact (List.nodup_cons.mp h.nodup).1 List.mem_cons_self
  obtain ⟨x, -, hx⟩ := h.exists_elem List.mem_cons_self
  obtain ⟨y, -, hy⟩ := h.exists_elem (List.mem_cons_of_mem a List.mem_cons_self)
  obtain ⟨ll₁, h₁, hF⟩ := free_ok hx
  obtain ⟨ll₂, h₂, hR⟩ := (Rewired.refl { ll₁ with head := b }).modify_prev
    ((hF.elem b hba).trans hy) ll₁.tail
  refine ⟨_, ?_, Holds.unlinked (p := []) h ll₂ ll₂.head ll₂.tail (ll₂.len - 1) (fun u hu => ?_)
    (fun u hu _ _ => ?_) (fun v hv _ hfirst => ?_) (fun u hu => nomatch hu)
    (hR.fresh.trans hF.fresh) hR.head (hR.tail.trans (hF.tail.trans h.tail))
    (congrArg (· - 1) (hR.len.trans hF.len))⟩
  · rw [remove, if_neg (by omega), if_neg (by omega), if_pos rfl, hhead, deref_ok hx]
    show (ll.free a >>= fun ll₁ => (LinkedList.mk (ll.nxt a) ll₁.tail ll₁.len ll₁.cells
      ll₁.fresh).modify (ll.nxt a) (fun d => { d with prev := ll₁.tail }) >>= fun ll₂ =>
      pure { ll₂ with len := ll₂.len - 1 }) = _
    rw [h₁, ok_bind, hnxt, h₂]
    rfl
  · rw [hR.elem]
    exact hF.elem u hu
  · rw [hR.nxt]
    exact hF.nxt u hu
  · rw [hR.prv, Function.update_of_ne fun e => hfirst (by simp [e])]
    exact hF.prv v hv

theorem Holds.remove_last {b c : ℕ} {p : List ℕ} (h : ll.Holds (p ++ [b, c]) l) :
    ∃ ll', ll.remove (p.length + 1) = .ok ll' ∧
      ll'.Holds (p ++ [b]) (l.eraseIdx (p.length + 1)) := by
  have hlen : ll.len = p.length + 2 := by rw [h.len, List.length_append]; rfl
  have htail : ll.tail = c := by
    have := h.getLast?_eq (List.append_ne_nil_of_right_ne_nil p (List.cons_ne_nil b [c]))
    simpa using this.symm
  have hprv : ll.prv c = b := (List.isChain_append.mp h.chain).2.1.rel.2
  have hbc : b ≠ c := by
    rintro rfl
    exact (List.nodup_cons.mp (List.nodup_append.mp h.nodup).2.1).1 List.mem_cons_self
  obtain ⟨x, -, hx⟩ := h.exists_elem (show c ∈ p ++ [b, c] by simp)
  obtain ⟨y, -, hy⟩ := h.exists_elem (show b ∈ p ++ [b, c] by simp)
  obtain ⟨ll₁, h₁, hF⟩ := free_ok hx
  obtain ⟨ll₂, h₂, hR⟩ := (Rewired.refl { ll₁ with tail := b }).modify_next
    ((hF.elem b hbc).trans hy) ll₁.head
  have hhead : ll₂.head = (p ++ [b] ++ []).headD null := by
    rw [hR.head]
    change ll₁.head = _
    rw [hF.head, h.head]
    cases p <;> rfl
  have h' := h
  rw [List.append_cons] at h'
  have hH := h'.unlinked ll₂ ll₂.head ll₂.tail (ll₂.len - 1)
    (fun u hu => ?_) (fun u hu hlast _ => ?_) (fun v hv _ _ => ?_) (fun _ _ v hv => nomatch hv)
    (hR.fresh.trans hF.fresh) hhead (hR.tail.trans (by simp))
    (congrArg (· - 1) (hR.len.trans hF.len))
  · rw [List.append_nil, List.length_append] at hH
    refine ⟨_, ?_, hH⟩
    rw [remove, if_neg (by omega), if_neg (by omega), if_neg (by omega), if_pos (by omega), htail,
      deref_ok hx]
    show (ll.free c >>= fun ll₁ => (LinkedList.mk ll₁.head (ll.prv c) ll₁.len ll₁.cells
      ll₁.fresh).modify (ll.prv c) (fun d => { d with next := ll₁.head }) >>= fun ll₂ =>
      pure { ll₂ with len := ll₂.len - 1 }) = _
    rw [h₁, ok_bind, hprv, h₂]
    rfl
  · rw [hR.elem]
    exact hF.elem u hu
  · rw [hR.nxt, Function.update_of_ne fun e => hlast (by simp [e])]
    exact hF.nxt u hu
  · rw [hR.prv]
    exact hF.prv v hv

theorem Holds.remove_middle {b c d : ℕ} {p q : List ℕ} (h : ll.Holds (p ++ b :: c :: d :: q) l) :
    ∃ ll', ll.remove (p.length + 1) = .ok ll' ∧
      ll'.Holds (p ++ b :: d :: q) (l.eraseIdx (p.length + 1)) := by
  have hlen : ll.len = p.length + q.length + 3 := by
    rw [h.len, List.length_append]
    simp only [List.length_cons]
    omega
  have hbc : b ≠ c := fun e => (List.nodup_cons.mp (List.nodup_append.mp h.nodup).2.1).1 (by simp [e])
  have hdc : d ≠ c := fun e =>
    (List.nodup_cons.mp (List.nodup_append.mp h.nodup).2.1.of_cons).1 (by simp [e])
  have hnxt : ll.nxt c = d := (List.isChain_append.mp h.chain).2.1.tail.rel.1
  obtain ⟨x, -, hx⟩ := h.exists_elem (show c ∈ p ++ b :: c :: d :: q by simp)
  obtain ⟨y, -, hy⟩ := h.exists_elem (show b ∈ p ++ b :: c :: d :: q by simp)
  obtain ⟨z, -, hz⟩ := h.exists_elem (show d ∈ p ++ b :: c :: d :: q by simp)
  -- the neighbours are linked past the cell, and then it is freed
  obtain ⟨ll₁, h₁, hR₁⟩ := (Rewired.refl ll).modify_next hy d
  obtain ⟨ll₂, h₂, hR₂⟩ := hR₁.modify_prev hz b
  obtain ⟨ll₃, h₃, hF⟩ := free_ok ((congrFun hR₂.elem c).trans hx)
  have hhead : ll₃.head = (p ++ [b] ++ d :: q).headD null := by
    rw [hF.head, hR₂.head, h.head]
    cases p <;> rfl
  have htail : ll₃.tail = (p ++ [b] ++ d :: q).getLastD null := by
    rw [hF.tail, hR₂.tail, h.tail]
    simp [List.getLastD_eq_getLast?, List.getLast?_append]
  have h' := h
  rw [List.append_cons] at h'
  have hH := h'.unlinked ll₃ ll₃.head ll₃.tail (ll₃.len - 1)
    (fun u hu => ?_) (fun u hu hlast _ => ?_) (fun v hv _ hfirst => ?_) (fun u hu v hv => ?_)
    (hF.fresh.trans hR₂.fresh) hhead htail (congrArg (· - 1) (hF.len.trans hR₂.len))
  · rw [List.append_assoc, List.length_append] at hH
    refine ⟨_, ?_, hH⟩
    rw [remove, if_neg (by omega), if_neg (by omega), if_neg (by omega), if_neg (by omega),
      h.walkPair_ok]
    show (ll.deref c >>= fun e => ll.modify b (fun d => { d with next := e.next }) >>= fun ll₁ =>
      ll₁.modify e.next (fun d => { d with prev := b }) >>= fun ll₂ => ll₂.free c >>= fun ll₃ =>
      pure { ll₃ with len := ll₃.len - 1 }) = _
    rw [deref_ok hx, ok_bind]
    show (ll.modify b (fun d => { d with next := ll.nxt c }) >>= fun ll₁ =>
      ll₁.modify (ll.nxt c) (fun d => { d with prev := b }) >>= fun ll₂ => ll₂.free c >>= fun ll₃ =>
      pure { ll₃ with len := ll₃.len - 1 }) = _
    rw [hnxt, h₁, ok_bind, h₂, ok_bind, h₃]
    rfl
  · rw [hF.elem u hu, hR₂.elem]
  · rw [hF.nxt u hu, hR₂.nxt, Function.update_of_ne fun e => hlast (by simp [e])]
  · rw [hF.prv v hv, hR₂.prv, Function.update_of_ne fun e => hfirst (by simp [e])]
  · obtain rfl : b = u := by simpa using hu
    obtain rfl : d = v := by simpa using hv
    rw [Links, hF.nxt b hbc, hF.prv d hdc, hR₂.nxt, hR₂.prv]
    exact ⟨Function.update_self .., Function.update_self ..⟩

/-- The two neighbours at an index and the one before. -/
theorem exists_neighbours {l : List ℕ} {i : ℕ} (hpos : 0 < i) (hi : i < l.length) :
    ∃ p b c q, l = p ++ b :: c :: q ∧ p.length + 1 = i := by
  have hlen : (l.take (i - 1)).length = i - 1 := by
    rw [List.length_take]
    omega
  match hd : l.drop (i - 1) with
  | b :: c :: q =>
      refine ⟨l.take (i - 1), b, c, q, ?_, by omega⟩
      rw [← hd, List.take_append_drop]
  | [] | [_] =>
      have := congrArg List.length hd
      rw [List.length_drop] at this
      simp only [List.length_nil, List.length_cons] at this
      omega

/-! ### Inserting -/

theorem Holds.insert_empty (h : ll.Holds [] l) (x : α) :
    ∃ ll', ll.insert x 0 = .ok ll' ∧ ll'.Rep [x] :=
  ⟨_, by rw [insert, if_pos ⟨h.len, rfl⟩]; rfl, _, h.single x⟩

theorem Holds.insert_first {a : ℕ} {t : List ℕ} (h : ll.Holds (a :: t) l) (x : α) :
    ∃ ll', ll.insert x 0 = .ok ll' ∧ ll'.Rep (x :: l) := by
  have hne := List.cons_ne_nil a t
  have hlen : ll.len = t.length + 1 := h.len
  have hhead : ll.head = a := h.head
  have ht := h.tail_mem hne
  have hnot : ∀ b ∈ a :: t, b ≠ ll.fresh := fun b hb e => h.fresh_not_mem (e ▸ hb)
  obtain ⟨eh, -, heh⟩ := h.exists_elem List.mem_cons_self
  obtain ⟨et, -, het⟩ := h.exists_elem ht
  have hA := ll.alloc_ok x ll.tail a
  -- the new node, then the links of its two neighbours to it
  obtain ⟨ll₂, h₂, hR₂⟩ := (Rewired.refl _).modify_prev
    ((hA.elem _ (hnot a List.mem_cons_self)).trans heh) ll.fresh
  obtain ⟨ll₃, h₃, hR₃⟩ := hR₂.modify_next ((hA.elem _ (hnot _ ht)).trans het) ll.fresh
  have hL := hA.linkedIn hR₃ (hnot _ ht) (hnot a List.mem_cons_self)
  have hH := Holds.linkedIn (p := []) h hL (.inr ⟨rfl, h.getLast?_eq hne⟩) (.inl rfl) rfl
    (hL.tail.trans h.tail) (congrArg (· + 1) hL.len)
  refine ⟨_, ?_, _, hH⟩
  rw [insert, if_neg (by omega), if_neg (by omega), if_neg (by omega), hhead, h₂, ok_bind, hR₂.tail,
    hA.tail, h₃]
  rfl

theorem Holds.insert_middle {b c : ℕ} {p q : List ℕ} (h : ll.Holds (p ++ b :: c :: q) l) (x : α) :
    ∃ ll', ll.insert x (p.length + 1) = .ok ll' ∧ ll'.Rep (l.insertIdx (p.length + 1) x) := by
  have hlen : ll.len = p.length + q.length + 2 := by
    rw [h.len, List.length_append]
    simp only [List.length_cons]
    omega
  have hnot : ∀ u ∈ p ++ b :: c :: q, u ≠ ll.fresh := fun u hu e => h.fresh_not_mem (e ▸ hu)
  have hb : b ≠ ll.fresh := hnot b (by simp)
  have hc : c ≠ ll.fresh := hnot c (by simp)
  obtain ⟨y, -, hy⟩ := h.exists_elem (show b ∈ p ++ b :: c :: q by simp)
  obtain ⟨z, -, hz⟩ := h.exists_elem (show c ∈ p ++ b :: c :: q by simp)
  have hA := ll.alloc_ok x b c
  obtain ⟨ll₂, h₂, hR₂⟩ := (Rewired.refl _).modify_next ((hA.elem b hb).trans hy) ll.fresh
  obtain ⟨ll₃, h₃, hR₃⟩ := hR₂.modify_prev ((hA.elem c hc).trans hz) ll.fresh
  have hL := hA.linkedIn hR₃ hb hc
  have hhead : ll₃.head = (p ++ [b] ++ ll.fresh :: c :: q).headD null := by
    rw [hL.head, h.head]
    cases p <;> rfl
  have htail : ll₃.tail = (p ++ [b] ++ ll.fresh :: c :: q).getLastD null := by
    rw [hL.tail, h.tail]
    simp [List.getLastD_eq_getLast?, List.getLast?_append]
  have h' := h
  rw [List.append_cons] at h'
  have hH := h'.linkedIn hL (.inl (by simp)) (.inl rfl) hhead htail (congrArg (· + 1) hL.len)
  rw [List.length_append] at hH
  refine ⟨_, ?_, _, hH⟩
  rw [insert, if_neg (by omega), if_neg (by omega), if_pos (by omega), h.walkPair_ok]
  show ((ll.alloc x b c).modify b (fun e => { e with next := ll.fresh }) >>= fun ll₂ =>
    ll₂.modify c (fun e => { e with prev := ll.fresh }) >>= fun ll₃ =>
    pure { ll₃ with len := ll₃.len + 1 }) = _
  rw [h₂, ok_bind, h₃]
  rfl

/-- `remove` takes out the element at the index. -/
theorem remove_ok (h : ll.Rep l) {i : ℕ} (hi : i < l.length) :
    ∃ ll', ll.remove i = .ok ll' ∧ ll'.Rep (l.eraseIdx i) := by
  obtain ⟨as, h⟩ := h
  rw [← h.length_eq] at hi
  rcases Nat.eq_zero_or_pos i with rfl | hpos
  · match as, h with
    | [], _ => exact absurd hi (Nat.not_lt_zero 0)
    | [a], h =>
        obtain ⟨ll', h₁, h₂⟩ := h.remove_single
        exact ⟨ll', h₁, _, h₂⟩
    | a :: b :: t, h =>
        obtain ⟨ll', h₁, h₂⟩ := h.remove_first
        exact ⟨ll', h₁, _, h₂⟩
  · obtain ⟨p, b, c, q, rfl, rfl⟩ := exists_neighbours hpos hi
    cases q with
    | nil =>
        obtain ⟨ll', h₁, h₂⟩ := h.remove_last
        exact ⟨ll', h₁, _, h₂⟩
    | cons d q =>
        obtain ⟨ll', h₁, h₂⟩ := h.remove_middle
        exact ⟨ll', h₁, _, h₂⟩

/-- `insert` puts the element at the index, which is that of an element, or 0. -/
theorem insert_ok (h : ll.Rep l) (x : α) {i : ℕ} (hi : i < l.length ∨ l = [] ∧ i = 0) :
    ∃ ll', ll.insert x i = .ok ll' ∧ ll'.Rep (l.insertIdx i x) := by
  obtain ⟨as, h⟩ := h
  rcases Nat.eq_zero_or_pos i with rfl | hpos
  · rw [List.insertIdx_zero]
    cases as with
    | nil =>
        obtain rfl : l = [] := List.length_eq_zero_iff.mp h.length_eq.symm
        exact h.insert_empty x
    | cons a t => exact h.insert_first x
  · have hlt : i < as.length := by
      rcases hi with hi | ⟨-, hi⟩
      · exact h.length_eq ▸ hi
      · omega
    obtain ⟨p, b, c, q, rfl, rfl⟩ := exists_neighbours hpos hlt
    exact h.insert_middle x

theorem append_ok (h : ll.Rep l) (x : α) :
    ∃ ll', ll.append x = .ok ll' ∧ ll'.Rep (l ++ [x]) ∧ ll'.Closed := by
  obtain ⟨as, h⟩ := h
  obtain ⟨ll', h₁, h₂, h₃⟩ := h.append_ok x
  exact ⟨ll', h₁, ⟨_, h₂⟩, h₃⟩

theorem get_ok (h : ll.Rep l) {i : ℕ} (hi : l[i]? = some x) : ll.get i = .ok x := by
  obtain ⟨as, h⟩ := h
  exact h.get_ok hi

theorem Rep.len_eq (h : ll.Rep l) : ll.len = l.length := by
  obtain ⟨as, h⟩ := h
  rw [h.len, h.length_eq]

theorem toListFrom_eq (as : List ℕ) : ∀ {l : List α}, as.map ll.elem = l.map some →
    List.IsChain (Links ll.nxt ll.prv) as → ll.toListFrom as.length (as.headD null) = l := by
  induction as with
  | nil =>
      intro l he _
      exact (List.map_eq_nil_iff.mp he.symm).symm
  | cons a as ih =>
      intro l he hc
      obtain ⟨x, l, rfl, hx, hl⟩ := List.map_eq_cons_iff.mp he.symm
      rw [List.length_cons, toListFrom, List.headD_cons, cells_of_elem hx.symm]
      cases as with
      | nil =>
          rw [List.map_eq_nil_iff.mp hl]
          rfl
      | cons b as =>
          have hn : ll.nxt a = b := (List.isChain_cons_cons.mp hc).1.1
          rw [hn]
          exact congrArg (x :: ·) (ih hl.symm (List.isChain_cons_cons.mp hc).2)

theorem Rep.toList_eq (h : ll.Rep l) : ll.toList = l := by
  obtain ⟨as, h⟩ := h
  rw [toList, h.len, h.head]
  exact toListFrom_eq as h.elems h.chain

theorem Rep.elem_head (h : ll.Rep (x :: l)) : ll.elem ll.head = some x := by
  obtain ⟨as, h⟩ := h
  obtain ⟨a, t, rfl⟩ := List.exists_cons_of_length_eq_add_one h.length_eq
  rw [h.head]
  exact (List.cons.inj h.elems).1

theorem queuePop_ok (h : ll.Rep (x :: l)) :
    ∃ ll', ll.queuePop = .ok (x, ll') ∧ ll'.Rep l := by
  obtain ⟨ll', h₁, h₂⟩ := remove_ok h (Nat.succ_pos _)
  refine ⟨ll', ?_, h₂⟩
  rw [queuePop, deref_ok h.elem_head, ok_bind, h₁]
  rfl

theorem take_ok (h : ll.Rep l) {i : ℕ} (hi : l[i]? = some x) :
    ∃ ll', ll.take i = .ok (x, ll') ∧ ll'.Rep (l.eraseIdx i) := by
  obtain ⟨ll', h₁, h₂⟩ := remove_ok h (List.getElem?_eq_some_iff.mp hi).1
  refine ⟨ll', ?_, h₂⟩
  rw [take, get_ok h hi, ok_bind, h₁]
  rfl

/-! ### Moving to the back -/

section MoveBack

variable [DecidableEq α]

/-- The list after `move_back`: the first element is not moved, and the last one takes the first one
to its back. -/
def moved (l : List α) (x : α) : List α :=
  if x ∉ l then l ++ [x]
  else if l.head? = some x then l
  else if l.getLast? = some x then l.tail ++ l.head?.toList
  else l.erase x ++ [x]

theorem moved_of_notMem (hx : x ∉ l) : moved l x = l ++ [x] := if_pos hx

theorem moved_first (x : α) (l : List α) : moved (x :: l) x = x :: l := by
  rw [moved, if_neg (not_not.mpr List.mem_cons_self), if_pos List.head?_cons]

theorem moved_last {y : α} (hxy : x ≠ y) (l : List α) :
    moved (y :: (l ++ [x])) x = l ++ [x] ++ [y] := by
  have hlast : (y :: (l ++ [x])).getLast? = some x := by
    rw [← List.cons_append, List.getLast?_append_cons]
    rfl
  have hhead : (y :: (l ++ [x])).head? ≠ some x := fun e => hxy (Option.some.inj e).symm
  rw [moved, if_neg (not_not.mpr (by simp)), if_neg hhead, if_pos hlast]
  rfl

theorem moved_middle {y z : α} {l₁ l₂ : List α} (hd : (y :: l₁ ++ x :: z :: l₂).Nodup) :
    moved (y :: l₁ ++ x :: z :: l₂) x = y :: l₁ ++ z :: l₂ ++ [x] := by
  obtain ⟨-, hd₂, hd₁⟩ := List.nodup_append.mp hd
  have hnot : x ∉ y :: l₁ := fun hm => hd₁ x hm x List.mem_cons_self rfl
  have hhead : (y :: l₁ ++ x :: z :: l₂).head? ≠ some x := fun e =>
    hnot (Option.some.inj e ▸ List.mem_cons_self)
  have hlast : (y :: l₁ ++ x :: z :: l₂).getLast? ≠ some x := by
    rw [List.getLast?_append_cons, List.getLast?_cons_cons]
    exact fun e => (List.nodup_cons.mp hd₂).1 (List.mem_of_mem_getLast? e)
  rw [moved, if_neg (not_not.mpr (by simp)), if_neg hhead, if_neg hlast,
    List.erase_append_right _ hnot, List.erase_cons_head]

/-- `move_back` adds an element that is not there, and changes nothing but the order else. -/
theorem moved_perm (l : List α) (x : α) : (moved l x).Perm (if x ∈ l then l else l ++ [x]) := by
  rw [moved]
  by_cases hx : x ∈ l
  · rw [if_neg (not_not.mpr hx), if_pos hx]
    split
    · exact List.Perm.refl l
    · split
      · cases l with
        | nil => exact List.Perm.refl _
        | cons a t => exact List.perm_append_comm
      · exact List.perm_append_comm.trans (List.perm_cons_erase hx).symm
  · rw [if_pos hx, if_neg hx]

theorem mem_moved {y : α} : y ∈ moved l x ↔ y ∈ l ∨ y = x := by
  rw [(moved_perm l x).mem_iff]
  split
  · rename_i hx
    constructor
    · exact .inl
    · rintro (h | rfl)
      · exact h
      · exact hx
  · rw [List.mem_append, List.mem_singleton]

theorem nodup_moved (h : l.Nodup) : (moved l x).Nodup := by
  rw [(moved_perm l x).nodup_iff]
  split
  · exact h
  · rename_i hx
    exact List.nodup_append.mpr ⟨h, List.nodup_singleton x, fun u hu v hv e =>
      hx (List.mem_singleton.mp hv ▸ e ▸ hu)⟩

theorem findBack_none (p : List ℕ) : ∀ {q : List ℕ} {i cur : ℕ},
    List.IsChain (Links ll.nxt ll.prv) (p ++ q) →
    (∀ b ∈ p, ∃ y, ll.elem b = some y ∧ y ≠ x) → p.getLast? = some cur ∨ p = [] →
    ll.findBack x p.length i cur = .ok none := by
  induction p using List.reverseRecOn with
  | nil =>
      intro q i cur _ _ _
      rfl
  | append_singleton p b ih =>
      intro q i cur hc helem hcur
      obtain ⟨y, hy, hne⟩ := helem b (by simp)
      obtain rfl : b = cur := by simpa using hcur
      rw [List.length_append, List.length_singleton, findBack, deref_ok hy, ok_bind, if_neg hne]
      rw [List.append_assoc] at hc
      refine ih hc (fun c h => helem c (List.mem_append_left _ h)) ?_
      rcases List.eq_nil_or_concat p with rfl | ⟨p, a, rfl⟩
      · exact .inr rfl
      · refine .inl ?_
        rw [List.concat_eq_append, List.append_assoc] at hc
        rw [List.concat_eq_append, List.getLast?_append_cons]
        exact congrArg some (List.isChain_append.mp hc).2.1.rel.2.symm

theorem findBack_some (p q : List ℕ) : ∀ {r : List ℕ} {a i cur : ℕ},
    List.IsChain (Links ll.nxt ll.prv) (p ++ a :: q ++ r) → ll.elem a = some x →
    (∀ b ∈ q, ∃ y, ll.elem b = some y ∧ y ≠ x) → (a :: q).getLast? = some cur →
    ll.findBack x (p ++ a :: q).length i cur = .ok (some (i + q.length, a)) := by
  induction q using List.reverseRecOn with
  | nil =>
      intro r a i cur _ ha _ hcur
      obtain rfl : a = cur := by simpa using hcur
      rw [List.length_append, List.length_singleton, findBack, deref_ok ha, ok_bind, if_pos rfl]
      rfl
  | append_singleton q b ih =>
      intro r a i cur hc ha helem hcur
      obtain ⟨y, hy, hne⟩ := helem b (by simp)
      rw [← List.cons_append, List.getLast?_append_cons, List.getLast?_singleton] at hcur
      obtain rfl : b = cur := Option.some.inj hcur
      have hlen : (p ++ a :: (q ++ [b])).length = (p ++ a :: q).length + 1 := by
        simp only [List.length_append, List.length_cons, List.length_nil]
        omega
      rw [hlen, findBack, deref_ok hy, ok_bind, if_neg hne]
      have hsplit : p ++ a :: (q ++ [b]) ++ r = p ++ a :: q ++ b :: r := by simp
      rw [hsplit] at hc
      have hlast : (a :: q).getLast? = some (ll.prv b) := by
        have := (List.isChain_append.mp hc).2.2 ((a :: q).getLast (List.cons_ne_nil a q))
          (by rw [List.getLast?_append_of_ne_nil _ (List.cons_ne_nil a q),
            List.getLast?_eq_some_getLast (List.cons_ne_nil a q)]; rfl) b rfl
        rw [List.getLast?_eq_some_getLast (List.cons_ne_nil a q), this.2]
      rw [ih hc ha (fun c h => helem c (List.mem_append_left _ h)) hlast, List.length_append,
        List.length_singleton, Nat.add_assoc, Nat.add_comm 1]

/-- What `move_back` does with the last node that has the element. -/
theorem Holds.moveBack_found {a : ℕ} {p q : List ℕ} (h : ll.Holds (p ++ a :: q) l)
    (ha : ll.elem a = some x) (hq : ∀ b ∈ q, ∃ y, ll.elem b = some y ∧ y ≠ x) :
    ll.moveBack x = if q.length = ll.len - 1 then .ok ll else if q.length = 0 then
      ll.deref ll.head >>= fun c => .ok { ll with tail := ll.head, head := c.next }
      else ll.relinkBack a := by
  have hc := h.chain
  rw [← List.append_nil (p ++ a :: q)] at hc
  have hlast : (a :: q).getLast? = some ll.tail := by
    rw [← h.getLast?_eq (List.append_ne_nil_of_right_ne_nil p (List.cons_ne_nil a q)),
      List.getLast?_append_cons]
  have hfind := findBack_some p q hc ha hq hlast (i := 0)
  rw [Nat.zero_add, ← h.len] at hfind
  rw [moveBack, hfind]
  rfl

/-- The last node moved to the back: the first node becomes the last one. -/
theorem Holds.moveBack_last_eq {a b : ℕ} {p : List ℕ} (h : ll.Holds (b :: (p ++ [a])) l)
    (ha : ll.elem a = some x) : ll.moveBack x = .ok { ll with tail := b, head := ll.nxt b } := by
  have hlen : ll.len = p.length + 2 := by
    rw [h.len]
    simp
  have hhead : ll.head = b := h.head
  obtain ⟨y, -, hy⟩ := h.exists_elem List.mem_cons_self
  rw [← List.cons_append] at h
  rw [h.moveBack_found ha fun c hc => absurd hc List.not_mem_nil, List.length_nil,
    if_neg (by omega), if_pos rfl, hhead, deref_ok hy]
  rfl

/-- The last node moved to the back of a closed ring: the ring is turned by one node. -/
theorem Holds.moveBack_last {a b : ℕ} {p : List ℕ} (h : ll.Holds (b :: (p ++ [a])) l)
    (ha : ll.elem a = some x) (hclosed : ll.Closed) :
    ∃ ll', ll.moveBack x = .ok ll' ∧ ll'.Holds (p ++ [a] ++ [b]) (l.tail ++ l.head?.toList) ∧
      ll'.Closed := by
  -- the ring is closed, so the old head is linked behind the old tail already
  have hlinks : ll.nxt a = b ∧ ll.prv b = a := by
    rcases hclosed with h₀ | hcl
    · rw [h.len] at h₀
      simp at h₀
    · have htail : ll.tail = a := by
        rw [h.tail, ← List.cons_append, List.getLastD_eq_getLast?, List.getLast?_append_cons]
        rfl
      rwa [htail, show ll.head = b from h.head] at hcl
  obtain ⟨c, t, hct⟩ : ∃ c t, p ++ [a] = c :: t :=
    List.exists_cons_of_ne_nil (List.append_ne_nil_of_right_ne_nil p (List.cons_ne_nil a []))
  have hbc : Links ll.nxt ll.prv b c := by
    have hc := h.chain
    rw [hct] at hc
    exact hc.rel
  refine ⟨_, h.moveBack_last_eq ha, ⟨?_, ?_, ?_, ?_, ?_, ?_, ?_, h.pos⟩, .inr ⟨rfl, ?_⟩⟩
  · have hd := h.nodup
    rw [List.nodup_cons] at hd
    exact List.nodup_append.mpr ⟨hd.2, List.nodup_singleton b, fun u hu v hv e =>
      hd.1 (List.mem_singleton.mp hv ▸ e ▸ hu)⟩
  · have he := h.elems
    show (p ++ [a] ++ [b]).map ll.elem = _
    cases l with
    | nil => cases he
    | cons z l =>
        rw [List.map_cons, List.map_cons, List.cons.injEq] at he
        rw [List.map_append, he.2, List.map_singleton, he.1]
        simp
  · show List.IsChain (Links ll.nxt ll.prv) (p ++ [a] ++ [b])
    rw [List.isChain_append]
    refine ⟨h.chain.tail, List.isChain_singleton b, fun u hu v hv => ?_⟩
    obtain rfl : a = u := by simpa using hu
    obtain rfl : b = v := by simpa using hv
    exact hlinks
  · show ll.nxt b = _
    rw [hct, hbc.1]
    rfl
  · simp
  · show ll.len = _
    rw [h.len]
    simp
  · intro u hu
    refine h.alloc u ?_
    simp only [List.mem_append, List.mem_cons, List.not_mem_nil, or_false] at hu ⊢
    tauto
  · show ll.prv (ll.nxt b) = b
    rw [hbc.1, hbc.2]

omit [DecidableEq α] in
/-- A node between the first and the last one moved to the back.  The ring is closed then. -/
theorem Holds.relinkBack_ok {a b d : ℕ} {p q : List ℕ} (h : ll.Holds (p ++ b :: a :: d :: q) l) :
    ∃ ll', ll.relinkBack a = .ok ll' ∧ ll'.Closed ∧
      ∀ l', (p ++ b :: d :: q ++ [a]).map ll.elem = l'.map some →
        ll'.Holds (p ++ b :: d :: q ++ [a]) l' := by
  rw [List.append_cons] at h
  rw [List.append_cons p b]
  have hne : p ++ [b] ++ a :: d :: q ≠ [] := by simp
  have hperm : (p ++ [b] ++ a :: d :: q).Perm (a :: (p ++ [b] ++ d :: q)) := List.perm_middle
  obtain ⟨ha, hnodup⟩ := List.nodup_cons.mp (hperm.nodup_iff.mp h.nodup)
  have hnot : ∀ u ∈ p ++ [b] ++ d :: q, u ≠ a := fun u hu e => ha (e ▸ hu)
  obtain ⟨hc₁, hc₂, hc₃⟩ := List.isChain_append.mp h.chain
  have hnxt : ll.nxt a = d := hc₂.rel.1
  have hprv : ll.prv a = b := (hc₃ b (by simp) a rfl).2
  -- the first node is before `a`, the last one behind it
  have hhead : (p ++ [b]).head? = some ll.head := by
    rw [← h.head?_eq hne]
    cases p <;> rfl
  have htail : (d :: q).getLast? = some ll.tail := by
    rw [← h.getLast?_eq hne, List.getLast?_append_cons, List.getLast?_cons_cons]
  have hh : ll.head ∈ p ++ [b] ++ d :: q := List.mem_append_left _ (List.mem_of_mem_head? hhead)
  have ht : ll.tail ∈ p ++ [b] ++ d :: q := List.mem_append_right _ (List.mem_of_mem_getLast? htail)
  have hb : b ∈ p ++ [b] ++ d :: q := by simp
  have hd : d ∈ p ++ [b] ++ d :: q := by simp
  have helem : ∀ u ∈ p ++ [b] ++ d :: q, ∃ x, ll.elem u = some x := fun u hu => by
    obtain ⟨x, -, hx⟩ := h.exists_elem (hperm.mem_iff.mpr (List.mem_cons_of_mem a hu))
    exact ⟨x, hx⟩
  obtain ⟨x, -, hx⟩ := h.exists_elem (hperm.mem_iff.mpr List.mem_cons_self)
  obtain ⟨y, hy⟩ := helem b hb
  obtain ⟨z, hz⟩ := helem d hd
  obtain ⟨eh, heh⟩ := helem ll.head hh
  obtain ⟨et, het⟩ := helem ll.tail ht
  obtain ⟨ll₁, h₁, hR₁⟩ := (Rewired.refl ll).modify_prev hz b
  obtain ⟨ll₂, h₂, hR₂⟩ := hR₁.modify_next hy d
  obtain ⟨ll₃, h₃, hR₃⟩ := hR₂.modify hx (f := fun c => { c with next := ll.head, prev := ll.tail })
    fun _ => rfl
  obtain ⟨ll₄, h₄, hR₄⟩ := hR₃.modify_next het a
  obtain ⟨ll₅, h₅, hR₅⟩ := hR₄.modify_prev heh a
  have hcross : ∀ u ∈ p ++ [b], ∀ v ∈ d :: q, u ≠ v := (List.nodup_append.mp hnodup).2.2
  have hparts := Ring.chain_parts ll₅.nxt ll₅.prv hnodup hc₁ hc₂.tail
    (fun u hu hfront hback => ?_) fun v hv hfront hback => ?_
  · refine ⟨{ ll₅ with tail := a }, ?_, .inr ⟨?_, ?_⟩, fun l' hl' => ⟨?_, ?_, ?_, ?_, ?_, ?_, ?_, ?_⟩⟩
    · rw [relinkBack, deref_ok hx, ok_bind]
      show (ll.modify (ll.nxt a) (fun d => { d with prev := ll.prv a }) >>= fun ll => ll.deref a >>=
        fun c => ll.modify c.prev (fun d => { d with next := c.next }) >>= fun ll =>
        ll.modify a (fun d => { d with next := ll.head, prev := ll.tail }) >>= fun ll =>
        ll.modify ll.tail (fun d => { d with next := a }) >>= fun ll =>
        ll.modify ll.head (fun d => { d with prev := a }) >>= fun ll =>
        pure { ll with tail := a }) = _
      rw [hnxt, hprv, h₁, ok_bind, hR₁.deref_ok hx, ok_bind, hnxt, Function.update_of_ne (hnot d hd).symm,
        hprv, h₂, ok_bind, hR₂.head, hR₂.tail, h₃, ok_bind, hR₃.tail, h₄, ok_bind, hR₄.head, h₅]
      rfl
    · show ll₅.nxt a = ll₅.head
      rw [hR₅.nxt, hR₅.head, Function.update_of_ne (hnot _ ht).symm, Function.update_self]
    · show ll₅.prv ll₅.head = a
      rw [hR₅.prv, hR₅.head, Function.update_self]
    · exact ((List.perm_append_singleton a _).trans hperm.symm).nodup_iff.mpr h.nodup
    · show (p ++ [b] ++ d :: q ++ [a]).map ll₅.elem = _
      rw [hR₅.elem, hl']
    · show List.IsChain (Links ll₅.nxt ll₅.prv) (p ++ [b] ++ d :: q ++ [a])
      refine List.isChain_append.mpr ⟨List.isChain_append.mpr ⟨hparts.1, hparts.2, ?_⟩,
        List.isChain_singleton a, ?_⟩
      · intro u hu v hv
        obtain rfl : b = u := by simpa using hu
        obtain rfl : d = v := Option.some.inj hv
        rw [Links, hR₅.nxt, hR₅.prv]
        refine ⟨?_, ?_⟩
        · rw [Function.update_of_ne (hcross b (by simp) _ (List.mem_of_mem_getLast? htail)),
            Function.update_of_ne (hnot b hb), Function.update_self]
        · rw [Function.update_of_ne (hcross _ (List.mem_of_mem_head? hhead) d List.mem_cons_self).symm,
            Function.update_of_ne (hnot d hd), Function.update_self]
      · intro u hu v hv
        rw [List.getLast?_append_cons, htail] at hu
        obtain rfl : ll.tail = u := Option.some.inj hu
        obtain rfl : a = v := Option.some.inj hv
        rw [Links, hR₅.nxt, hR₅.prv]
        exact ⟨Function.update_self .., by rw [Function.update_of_ne (hnot _ hh).symm, Function.update_self]⟩
    · show ll₅.head = _
      rw [hR₅.head, h.head]
      cases p <;> rfl
    · rw [List.getLastD_eq_getLast?, List.getLast?_append_cons]
      rfl
    · show ll₅.len = _
      rw [hR₅.len, h.len, hperm.length_eq, (List.perm_append_singleton a _).length_eq]
    · show ∀ u ∈ _, 0 < u ∧ u < ll₅.fresh
      rw [hR₅.fresh]
      exact fun u hu => h.alloc u (((List.perm_append_singleton a _).trans hperm.symm).mem_iff.mp hu)
    · show 0 < ll₅.fresh
      rw [hR₅.fresh]
      exact h.pos
  · have hut : u ≠ ll.tail := by
      rintro rfl
      exact hback htail
    rw [hR₅.nxt, Function.update_of_ne hut, Function.update_of_ne (hnot u hu),
      Function.update_of_ne fun e => hfront (by simp [e])]
  · have hvh : v ≠ ll.head := by
      rintro rfl
      exact hfront hhead
    rw [hR₅.prv, Function.update_of_ne hvh, Function.update_of_ne (hnot v hv),
      Function.update_of_ne fun e => hback (by simp [e])]

theorem Holds.moveBack_notMem (h : ll.Holds as l) (hx : x ∉ l) : ll.moveBack x = ll.append x := by
  have hc := h.chain
  rw [← List.append_nil as] at hc
  have hfind : ll.findBack x ll.len 0 ll.tail = .ok none := by
    rw [h.len]
    refine findBack_none as hc (fun b hb => ?_) ?_
    · obtain ⟨y, hy, he⟩ := h.exists_elem hb
      exact ⟨y, he, fun e => hx (e ▸ hy)⟩
    · by_cases hne : as = []
      · exact .inr hne
      · exact .inl (h.getLast?_eq hne)
  rw [moveBack, hfind]
  rfl

omit [DecidableEq α] in
/-- The addresses are split as the elements are. -/
theorem Holds.exists_split {l₁ l₂ : List α} (h : ll.Holds as (l₁ ++ x :: l₂)) :
    ∃ p a q, as = p ++ a :: q ∧ p.map ll.elem = l₁.map some ∧ ll.elem a = some x ∧
      q.map ll.elem = l₂.map some := by
  have he := h.elems
  rw [List.map_append, List.map_eq_append_iff] at he
  obtain ⟨p, as', rfl, hp, has⟩ := he
  rw [List.map_cons, List.map_eq_cons_iff] at has
  obtain ⟨a, q, rfl, ha, hq⟩ := has
  exact ⟨p, a, q, rfl, hp, ha, hq⟩

/-- **`move_back`** does what `moved` says, unless it would turn a ring that is not closed. -/
theorem moveBack_ok (h : ll.Rep l) (hd : l.Nodup)
    (hclosed : l.getLast? = some x → 2 ≤ l.length → ll.Closed) :
    ∃ ll', ll.moveBack x = .ok ll' ∧ ll'.Rep (moved l x) ∧
      (ll.Closed ∨ x ∉ l ∨ l.head? ≠ some x → ll'.Closed) := by
  obtain ⟨as, h⟩ := h
  by_cases hx : x ∈ l
  · obtain ⟨l₁, l₂, rfl⟩ := List.append_of_mem hx
    obtain ⟨p, a, q, rfl, hp, ha, hq⟩ := h.exists_split
    have hq' : ∀ b ∈ q, ∃ y, ll.elem b = some y ∧ y ≠ x := by
      intro b hb
      have hm : ll.elem b ∈ q.map ll.elem := List.mem_map_of_mem hb
      rw [hq, List.mem_map] at hm
      obtain ⟨y, hy, e⟩ := hm
      exact ⟨y, e.symm, fun exy => (List.nodup_cons.mp (List.nodup_append.mp hd).2.1).1 (exy ▸ hy)⟩
    have hlen : ll.len = (p ++ a :: q).length := h.len
    have hmove := h.moveBack_found ha hq'
    cases l₁ with
    | nil =>
        -- the first node is not moved
        obtain rfl : p = [] := List.map_eq_nil_iff.mp hp
        rw [if_pos (by rw [hlen]; simp)] at hmove
        refine ⟨ll, hmove, ?_, ?_⟩
        · rw [List.nil_append, moved_first]
          exact ⟨_, h⟩
        · rintro (hc | hn | hn)
          · exact hc
          · exact absurd hx hn
          · exact absurd rfl hn
    | cons y l₁ =>
        cases l₂ with
        | nil =>
            -- the last node takes the first one to its back
            obtain ⟨b, p, rfl, -, -⟩ := List.map_eq_cons_iff.mp hp
            obtain rfl : q = [] := List.map_eq_nil_iff.mp hq
            have hxy : x ≠ y := ((List.nodup_append.mp hd).2.2 y List.mem_cons_self x
              List.mem_cons_self).symm
            have hlast : (y :: l₁ ++ [x]).getLast? = some x := List.getLast?_concat ..
            have hlen₂ : 2 ≤ (y :: l₁ ++ [x]).length := by simp
            have hcl := hclosed hlast hlen₂
            rw [List.cons_append] at h
            obtain ⟨ll', h₁, h₂, h₃⟩ := h.moveBack_last ha hcl
            rw [List.cons_append, moved_last hxy]
            exact ⟨ll', h₁, ⟨_, h₂⟩, fun _ => h₃⟩
        | cons z l₂ =>
            obtain ⟨p, b, rfl⟩ := List.eq_nil_or_concat' p |>.resolve_left (by
              rintro rfl
              exact nomatch hp)
            cases q with
            | nil => exact nomatch hq
            | cons d q =>
                rw [if_neg (by rw [hlen]; simp only [List.length_append, List.length_cons]; omega),
                  if_neg (by simp)] at hmove
                rw [List.append_assoc] at h
                obtain ⟨ll', h₁, h₂, h₃⟩ := h.relinkBack_ok
                refine ⟨ll', hmove.trans h₁, ⟨_, h₃ _ ?_⟩, fun _ => h₂⟩
                rw [moved_middle hd, List.append_cons p b, List.map_append, List.map_append, hp, hq,
                  List.map_singleton, ha]
                simp
  · obtain ⟨ll', h₁, h₂, h₃⟩ := h.append_ok x
    rw [h.moveBack_notMem hx, moved_of_notMem hx]
    exact ⟨ll', h₁, ⟨_, h₂⟩, fun _ => h₃⟩

end MoveBack

end LinkedList

end Goedb
