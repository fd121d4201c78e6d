import Goedb.DataStruct.LinkedList
import Goedb.Lib.Block
import Mathlib.Data.List.Perm.Basic

/-!
# DataStruct — array lists

`array_list.h`: the elements lie at the beginning of a block that is reallocated to four times its length
when it is full.  The elements of some lists are pointers, which `remove` and `destroy` free if there is a
function for it; `take` hands an element out.

The sizes of the requests are computed modulo `2 ^ 64`.  Which requests `calloc` and `realloc` grant is a
parameter.

* `insert_ok`, `removeInternal_ok` and the others say what the functions do to the list of the elements.
-/

namespace Goedb

open Lib

/-- The size of an element, and the requests for memory that are granted. -/
structure Allocator where
  sizeofT : ℕ
  grants : (bytes : ℕ) → Bool

/-- The functions a list is given: `leq`, `lcopy` if there is one, and whether there is `lfree`. -/
structure ListCbs (α : Type) where
  leq : α → α → Bool
  lcopy : Option (α → α)
  lfree : Bool

/-- No request is granted that is too large for the computations of its size. -/
structure Allocator.Sound (A : Allocator) : Prop where
  sizeofT_pos : 0 < A.sizeofT
  grants_lt : ∀ bytes, A.grants bytes → bytes < 2 ^ 61

/-- `v = l->cbs.lcopy(v)`, if there is such a function. -/
def ListCbs.copy {α : Type} (cbs : ListCbs α) (v : α) : α :=
  match cbs.lcopy with
  | some copy => copy v
  | none => v

/-- An array list. -/
structure ArrayList (α : Type) where
  elements : Block α
  alloced : ℕ
  len : ℕ
  cbs : ListCbs α

/-- `initial_alloc`. -/
def initialAlloc : ℕ := 128

namespace ArrayList

variable {α : Type}

/-- An access to a block, which is undefined outside of it. -/
def access {β : Type} (x : Option β) : Except Fault β :=
  match x with
  | some b => .ok b
  | none => .error .undefined

/-- `create`. -/
def create (A : Allocator) (cbs : ListCbs α) : Except Fault (ArrayList α) :=
  if A.grants (initialAlloc * A.sizeofT) then
    .ok { elements := List.replicate initialAlloc none, alloced := initialAlloc, len := 0, cbs := cbs }
  else .error (.exit "Failed to allocate data array for array list!\n")

/-- `size`. -/
def size (l : ArrayList α) : ℕ := l.len

/-- The beginning of `insert`: a full list gets more cells. -/
def grow (A : Allocator) (l : ArrayList α) : Except Fault (ArrayList α) :=
  if l.alloced = l.len then
    let alloced := (l.alloced <<< 2) % 2 ^ 64
    let bytes := A.sizeofT * alloced % 2 ^ 64
    if A.grants bytes then
      .ok { l with elements := l.elements.resize (bytes / A.sizeofT), alloced := alloced }
    else .error (.exit "list - insert: Memory Allocation Failed!\n")
  else .ok l

/-- `insert`. -/
def insert (A : Allocator) (l : ArrayList α) (v : α) (idx : ℕ) : Except Fault (ArrayList α) :=
  if l.len < idx then .error (.exit "list - insert: Invalid Arguments!\n")
  else do
    let l ← l.grow A
    let elements ←
      if idx < l.len then access (l.elements.move (idx + 1) idx (l.len - idx)) else .ok l.elements
    let elements ← access (elements.store idx (l.cbs.copy v))
    return { l with elements := elements, len := l.len + 1 }

/-- `append`. -/
def append (A : Allocator) (l : ArrayList α) (v : α) : Except Fault (ArrayList α) := l.insert A v l.len

/-- The element that `remove_internal` frees, if it frees one. -/
def freedAt (l : ArrayList α) (idx : ℕ) (freeFlag : Bool) : Except Fault (List α) :=
  if freeFlag && l.cbs.lfree then do
    let x ← access (l.elements.load idx)
    return [x]
  else .ok []

/-- `remove_internal`; the first result are the elements that are freed. -/
def removeInternal (l : ArrayList α) (idx : ℕ) (freeFlag : Bool) :
    Except Fault (List α × ArrayList α) :=
  if l.len ≤ idx then .error (.exit "list - remove or take: Invalid Arguments!\n")
  else do
    let freed ← l.freedAt idx freeFlag
    let len := l.len - 1
    let elements ←
      if idx < len then access (l.elements.move idx (idx + 1) (len - idx)) else .ok l.elements
    return (freed, { l with elements := elements, len := len })

/-- `remove`. -/
def remove (l : ArrayList α) (idx : ℕ) : Except Fault (List α × ArrayList α) :=
  l.removeInternal idx true

/-- The loop of `index_of`, with `n` elements to go from index `i` on. -/
def indexOfLoop (l : ArrayList α) (v : α) : (n i : ℕ) → Except Fault (Option ℕ)
  | 0, _ => .ok none
  | n + 1, i => do
      let x ← access (l.elements.load i)
      if l.cbs.leq v x then return some i else indexOfLoop l v n (i + 1)

/-- `index_of`: the index it stores, if it returns 0. -/
def indexOf (l : ArrayList α) (v : α) : Except Fault (Option ℕ) := l.indexOfLoop v l.len 0

/-- `remove_elem`. -/
def removeElem (l : ArrayList α) (elem : α) : Except Fault (List α × ArrayList α) := do
  match ← l.indexOf elem with
  | none => .error (.exit "array list - remove element: Element not in list!\n")
  | some idx => l.removeInternal idx true

/-- `contains`. -/
def contains (l : ArrayList α) (elem : α) : Except Fault Bool := do
  let idx ← l.indexOf elem
  return idx.isSome

/-- `get`. -/
def get (l : ArrayList α) (idx : ℕ) : Except Fault α :=
  if l.len ≤ idx then
    .error (.exit s!"List - get: Buffer overflow! list length {l.len}, index accessed {idx} \n")
  else access (l.elements.load idx)

/-- `take`. -/
def take (l : ArrayList α) (idx : ℕ) : Except Fault (α × ArrayList α) := do
  let elem ← l.get idx
  let (_, l) ← l.removeInternal idx false
  return (elem, l)

/-- The loop of `destroy`. -/
def freeAll (l : ArrayList α) : (n i : ℕ) → Except Fault (List α)
  | 0, _ => .ok []
  | n + 1, i => do
      let x ← access (l.elements.load i)
      let xs ← freeAll l n (i + 1)
      return x :: xs

/-- `destroy`: the elements that are freed. -/
def destroy (l : ArrayList α) : Except Fault (List α) :=
  if l.cbs.lfree then l.freeAll l.len 0 else .ok []

/-! ### What the functions do to the list of the elements -/

/-- The elements lie at the beginning of a block of `room` cells, which was granted. -/
structure Rep (A : Allocator) (al : ArrayList α) (l : List α) (room : ℕ) : Prop where
  holds : al.elements.Holds l
  len : al.len = l.length
  alloced : al.alloced = room
  length : al.elements.length = room
  pos : 0 < room
  granted : A.sizeofT * room < 2 ^ 61

variable {A : Allocator} {al : ArrayList α} {l : List α} {room : ℕ}

theorem create_ok (cbs : ListCbs α) (hA : A.Sound) (h : A.grants (initialAlloc * A.sizeofT)) :
    ∃ al, create A cbs = .ok al ∧ al.Rep A [] initialAlloc ∧ al.cbs = cbs := by
  refine ⟨_, if_pos h, ⟨List.nil_prefix, rfl, rfl, List.length_replicate, by decide, ?_⟩, rfl⟩
  rw [Nat.mul_comm]
  exact hA.grants_lt _ h

/-- The cells that there are for the next element. -/
def nextRoom (A : Allocator) (l : List α) (room : ℕ) : Option ℕ :=
  if l.length = room then if A.grants (A.sizeofT * (4 * room)) then some (4 * room) else none
  else some room

/-- What is requested for four times the cells is computed without overflow. -/
theorem bytes_eq (hA : A.Sound) (hroom : A.sizeofT * room < 2 ^ 61) :
    (room <<< 2) % 2 ^ 64 = 4 * room ∧
      A.sizeofT * (4 * room) % 2 ^ 64 = A.sizeofT * (4 * room) := by
  have hle : room ≤ A.sizeofT * room := Nat.le_mul_of_pos_left room hA.sizeofT_pos
  have hfour : A.sizeofT * (4 * room) = 4 * (A.sizeofT * room) := by ring
  rw [Nat.shiftLeft_eq, hfour]
  constructor <;> omega

/-- There is a cell for the next element, if the request for it is granted. -/
theorem grow_ok (hA : A.Sound) (h : al.Rep A l room) {room' : ℕ} (hr : nextRoom A l room = some room') :
    ∃ al', al.grow A = .ok al' ∧ al'.Rep A l room' ∧ al'.cbs = al.cbs ∧ l.length < room' := by
  have hle := h.holds.length_le
  have hpos := h.pos
  rw [h.length] at hle
  rw [nextRoom] at hr
  split_ifs at hr with hfull hgrant
  · cases hr
    obtain ⟨hshift, hbytes⟩ := bytes_eq hA h.granted
    have hsize : A.sizeofT * (4 * room) / A.sizeofT = 4 * room := Nat.mul_div_cancel_left _ hA.sizeofT_pos
    have hlonger : al.elements.length ≤ 4 * room := by
      rw [h.length]
      omega
    have hgrow : al.grow A =
        .ok { al with elements := al.elements.resize (4 * room), alloced := 4 * room } := by
      rw [grow, h.alloced, h.len, if_pos hfull.symm, hshift]
      simp only [hbytes, hgrant, if_true, hsize]
    refine ⟨_, hgrow, ⟨h.holds.resize hlonger, h.len, rfl, Block.length_resize hlonger, by omega,
      hA.grants_lt _ hgrant⟩, rfl, by omega⟩
  · cases hr
    refine ⟨al, if_neg ?_, h, rfl, by omega⟩
    rw [h.alloced, h.len]
    exact Ne.symm hfull

theorem grow_exit (hA : A.Sound) (h : al.Rep A l room) (hr : nextRoom A l room = none) :
    ∃ text, al.grow A = .error (.exit text) := by
  rw [nextRoom] at hr
  split_ifs at hr with hfull hgrant
  obtain ⟨hshift, hbytes⟩ := bytes_eq hA h.granted
  refine ⟨_, (if_pos ?_).trans (if_neg ?_)⟩
  · rw [h.alloced, h.len, hfull]
  · rwa [h.alloced, hshift, hbytes]

/-- **`insert`** puts a copy of the element where it is told to. -/
theorem insert_ok (hA : A.Sound) (h : al.Rep A l room) (v : α) {idx room' : ℕ} (hidx : idx ≤ l.length)
    (hr : nextRoom A l room = some room') :
    ∃ al', al.insert A v idx = .ok al' ∧ al'.Rep A (l.insertIdx idx (al.cbs.copy v)) room' ∧
      al'.cbs = al.cbs := by
  obtain ⟨al₁, hgrow, h₁, hcbs, hroom⟩ := grow_ok hA h hr
  obtain ⟨p, q, rfl, rfl⟩ : ∃ p q, l = p ++ q ∧ idx = p.length :=
    ⟨l.take idx, l.drop idx, (List.take_append_drop idx l).symm, by rw [List.length_take]; omega⟩
  have hlen : al₁.len = p.length + q.length := by rw [h₁.len, List.length_append]
  have hinsert := LinkedList.insertIdx_append p q (al.cbs.copy v)
  rw [insert, if_neg (by rw [h.len]; omega), hgrow, ok_bind, hinsert]
  cases q with
  | nil =>
      rw [List.append_nil] at h₁ hroom
      obtain ⟨b, hstore, hb⟩ := Block.append_holds h₁.holds (h₁.length.symm ▸ hroom) (al.cbs.copy v)
      refine ⟨{ al₁ with elements := b, len := al₁.len + 1 }, ?_, ⟨hb, ?_, h₁.alloced, ?_, h₁.pos,
        h₁.granted⟩, hcbs⟩
      · rw [if_neg (by rw [hlen]; simp), hcbs]
        simp only [ok_bind, hstore, access]
        rfl
      · simp [hlen]
      · exact (Block.length_store hstore).trans h₁.length
  | cons c q =>
      obtain ⟨b₁, b₂, hmove, hstore, hb⟩ := Block.insert_holds h₁.holds (h₁.length.symm ▸ hroom)
        (al.cbs.copy v)
      refine ⟨{ al₁ with elements := b₂, len := al₁.len + 1 }, ?_, ⟨hb, ?_, h₁.alloced, ?_, h₁.pos,
        h₁.granted⟩, hcbs⟩
      · rw [if_pos (by rw [hlen, List.length_cons]; omega), hlen, Nat.add_sub_cancel_left, hmove, hcbs]
        simp only [ok_bind, hstore, access]
        rfl
      · simp only [hlen, List.length_append, List.length_cons]
        omega
      · exact (Block.length_store hstore).trans ((Block.length_move hmove).trans h₁.length)

theorem insert_exit (hA : A.Sound) (h : al.Rep A l room) (v : α) {idx : ℕ}
    (hbad : l.length < idx ∨ nextRoom A l room = none) :
    ∃ text, al.insert A v idx = .error (.exit text) := by
  by_cases hidx : l.length < idx
  · exact ⟨_, if_pos (h.len.symm ▸ hidx)⟩
  · obtain ⟨text, hgrow⟩ := grow_exit hA h (hbad.resolve_left hidx)
    refine ⟨text, ?_⟩
    rw [insert, if_neg (h.len.symm ▸ hidx), hgrow]
    rfl

/-- **`remove` and `take`**: the element goes, and it is freed if it is to be. -/
theorem removeInternal_ok (h : al.Rep A l room) {idx : ℕ} (hidx : idx < l.length) (freeFlag : Bool) :
    ∃ al', al.removeInternal idx freeFlag =
        .ok (if freeFlag && al.cbs.lfree then [l[idx]] else [], al') ∧
      al'.Rep A (l.eraseIdx idx) room ∧ al'.cbs = al.cbs := by
  have hload : access (al.elements.load idx) = .ok l[idx] := by rw [h.holds.load hidx]; rfl
  have hfreed : al.freedAt idx freeFlag =
      .ok (if freeFlag && al.cbs.lfree then [l[idx]] else []) := by
    rw [freedAt, hload]
    split <;> rfl
  obtain ⟨p, v, q, rfl, rfl⟩ : ∃ p v q, l = p ++ v :: q ∧ idx = p.length :=
    ⟨l.take idx, l[idx], l.drop (idx + 1), by rw [List.getElem_cons_drop, List.take_append_drop],
      by rw [List.length_take]; omega⟩
  have hlen : al.len = p.length + (q.length + 1) := by rw [h.len, List.length_append, List.length_cons]
  have herase : (p ++ v :: q).eraseIdx p.length = p ++ q := by
    rw [List.eraseIdx_append_of_length_le (Nat.le_refl _), Nat.sub_self, List.eraseIdx_cons_zero]
  rw [removeInternal, if_neg (by rw [hlen]; omega), hfreed, ok_bind, herase]
  cases q with
  | nil =>
      refine ⟨{ al with len := al.len - 1 }, ?_, ⟨?_, ?_, h.alloced, h.length, h.pos, h.granted⟩, rfl⟩
      · rw [if_neg (by rw [hlen]; simp), ok_bind]
        rfl
      · rw [List.append_nil]
        exact h.holds.of_append
      · simp [hlen]
  | cons c q =>
      obtain ⟨b, hmove, hb⟩ := Block.remove_holds h.holds
      refine ⟨{ al with elements := b, len := al.len - 1 }, ?_, ⟨hb, ?_, h.alloced, ?_, h.pos,
        h.granted⟩, rfl⟩
      · have hrest : al.len - 1 - p.length = (c :: q).length := by
          rw [hlen, List.length_cons]
          omega
        rw [if_pos (by rw [hlen, List.length_cons]; omega), hrest, hmove]
        rfl
      · simp only [hlen, List.length_append, List.length_cons]
        omega
      · exact (Block.length_move hmove).trans h.length

theorem removeInternal_exit (h : al.Rep A l room) {idx : ℕ} (hidx : l.length ≤ idx) (freeFlag : Bool) :
    ∃ text, al.removeInternal idx freeFlag = .error (.exit text) := ⟨_, if_pos (h.len.symm ▸ hidx)⟩

/-- The search goes along the elements from index `i` on. -/
theorem indexOfLoop_ok (h : al.Rep A l room) (v : α) (n : ℕ) : ∀ {i : ℕ}, i + n = l.length →
    al.indexOfLoop v n i = .ok (((l.drop i).findIdx? (al.cbs.leq v)).map (i + ·)) := by
  induction n with
  | zero =>
      intro i hi
      rw [List.drop_eq_nil_of_le (by omega)]
      rfl
  | succ n ih =>
      intro i hi
      have hlt : i < l.length := by omega
      rw [indexOfLoop, h.holds.load hlt, List.drop_eq_getElem_cons hlt, List.findIdx?_cons]
      simp only [access, ok_bind]
      split
      · rfl
      · rw [ih (by omega), Option.map_map]
        congr 2
        funext j
        exact Nat.add_right_comm i 1 j

theorem indexOf_ok (h : al.Rep A l room) (v : α) :
    al.indexOf v = .ok (l.findIdx? (al.cbs.leq v)) := by
  rw [indexOf, h.len, indexOfLoop_ok h v l.length (Nat.zero_add _), List.drop_zero]
  simp

theorem get_ok (h : al.Rep A l room) {idx : ℕ} (hidx : idx < l.length) : al.get idx = .ok l[idx] := by
  rw [get, if_neg (by rw [h.len]; omega), h.holds.load hidx]
  rfl

theorem get_exit (h : al.Rep A l room) {idx : ℕ} (hidx : l.length ≤ idx) :
    ∃ text, al.get idx = .error (.exit text) := ⟨_, if_pos (h.len.symm ▸ hidx)⟩

/-- All elements are freed at the end. -/
theorem freeAll_ok (h : al.Rep A l room) (n : ℕ) : ∀ {i : ℕ}, i + n = l.length →
    al.freeAll n i = .ok (l.drop i) := by
  induction n with
  | zero =>
      intro i hi
      rw [List.drop_eq_nil_of_le (by omega)]
      rfl
  | succ n ih =>
      intro i hi
      have hlt : i < l.length := by omega
      rw [freeAll, h.holds.load hlt, ih (by omega), List.drop_eq_getElem_cons hlt]
      rfl

theorem destroy_ok (h : al.Rep A l room) : al.destroy = .ok (if al.cbs.lfree then l else []) := by
  rw [destroy, h.len, freeAll_ok h l.length (Nat.zero_add _), List.drop_zero]
  split <;> rfl

end ArrayList

end Goedb
