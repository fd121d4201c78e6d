import Mathlib.Data.List.InsertIdx
import Mathlib.Data.List.TakeDrop

/-!
# Lib — blocks of memory

A block that was allocated is a list of cells, and a cell that nothing was stored in has no value.  Loads,
stores and moves are inside the block, or they are undefined.

An array that begins with the elements of a list takes a new element between them after a move to the
right (`insert_holds`), and closes the gap of an element with a move to the left (`remove_holds`).
-/

namespace Lib

/-- A block, with its cells. -/
abbrev Block (α : Type) := List (Option α)

namespace Block

variable {α : Type}

/-- What a cell holds. -/
def load (b : Block α) (i : ℕ) : Option α := (b[i]?).join

/-- The block with a value stored in a cell. -/
def store (b : Block α) (i : ℕ) (v : α) : Option (Block α) :=
  if i < b.length then some (b.set i (some v)) else none

/-- `memmove`: `n` cells are moved. -/
def move (b : Block α) (dst src n : ℕ) : Option (Block α) :=
  if dst + n ≤ b.length ∧ src + n ≤ b.length then
    some (b.take dst ++ (b.drop src).take n ++ b.drop (dst + n))
  else none

/-- `realloc` to `n` cells. -/
def resize (b : Block α) (n : ℕ) : Block α := b.take n ++ List.replicate (n - b.length) none

/-- The block begins with the elements of a list. -/
def Holds (b : Block α) (l : List α) : Prop := l.map some <+: b

variable {b b' : Block α} {l p q : List α} {v : α} {i n : ℕ}

theorem Holds.length_le (h : b.Holds l) : l.length ≤ b.length := by
  simpa using List.IsPrefix.length_le h

theorem Holds.load (h : b.Holds l) (hi : i < l.length) : b.load i = some l[i] := by
  obtain ⟨rest, rfl⟩ := h
  rw [Block.load, List.getElem?_append_left (by simpa using hi)]
  simp [hi]

theorem length_resize (h : b.length ≤ n) : (b.resize n).length = n := by
  rw [resize, List.take_of_length_le h, List.length_append, List.length_replicate]
  omega

/-- A larger block keeps its cells. -/
theorem Holds.resize (h : b.Holds l) (hn : b.length ≤ n) : (b.resize n).Holds l := by
  rw [Block.resize, List.take_of_length_le hn]
  exact h.trans (List.prefix_append _ _)

theorem length_move {dst src : ℕ} (h : b.move dst src n = some b') : b'.length = b.length := by
  rw [move, Option.ite_none_right_eq_some] at h
  obtain ⟨⟨hdst, hsrc⟩, h⟩ := h
  cases h
  simp only [List.length_append, List.length_take, List.length_drop]
  omega

theorem length_store (h : b.store i v = some b') : b'.length = b.length := by
  rw [store, Option.ite_none_right_eq_some] at h
  cases h.2
  exact List.length_set

/-- **A gap for an element**: the cells behind it are moved to the right. -/
theorem insert_holds (h : b.Holds (p ++ q)) (hroom : (p ++ q).length < b.length) (v : α) :
    ∃ b₁ b₂, b.move (p.length + 1) p.length q.length = some b₁ ∧
      b₁.store p.length v = some b₂ ∧ b₂.Holds (p ++ v :: q) := by
  obtain ⟨rest, rfl⟩ := h
  simp only [List.map_append, List.append_assoc, List.length_append, List.length_map] at hroom ⊢
  refine ⟨_, _, if_pos ?_, if_pos ?_, ?_⟩
  · simp only [List.length_append, List.length_map]
    omega
  · simp only [List.length_append, List.length_take, List.length_drop, List.length_map]
    omega
  · have htake : (p.map some ++ (q.map some ++ rest)).take (p.length + 1) =
        p.map some ++ (q.map some ++ rest).take 1 := by
      rw [List.take_append, List.length_map, Nat.add_sub_cancel_left,
        List.take_of_length_le (by simp)]
    have hdrop : ((p.map some ++ (q.map some ++ rest)).drop p.length).take q.length = q.map some := by
      rw [List.drop_left' (List.length_map _), List.take_left' (List.length_map _)]
    rw [htake, hdrop, Holds, List.map_append, List.map_cons, List.append_assoc, List.append_assoc,
      List.set_append_right _ _ (by simp), List.length_map, Nat.sub_self]
    obtain ⟨c, tail, hc⟩ := List.exists_cons_of_ne_nil (l := q.map some ++ rest)
      (List.ne_nil_of_length_pos (by rw [List.length_append, List.length_map]; omega))
    rw [hc, List.take_succ_cons, List.take_zero, List.cons_append, List.set_cons_zero, List.nil_append,
      List.prefix_append_right_inj, List.cons_prefix_cons]
    exact ⟨rfl, List.prefix_append _ _⟩

/-- The last element needs no gap. -/
theorem append_holds (h : b.Holds l) (hroom : l.length < b.length) (v : α) :
    ∃ b', b.store l.length v = some b' ∧ b'.Holds (l ++ [v]) := by
  obtain ⟨rest, rfl⟩ := h
  refine ⟨_, if_pos hroom, ?_⟩
  rw [List.length_append, List.length_map] at hroom
  obtain ⟨c, tail, rfl⟩ := List.exists_cons_of_ne_nil (l := rest)
    (List.ne_nil_of_length_pos (by omega))
  rw [List.set_append_right _ _ (by simp), List.length_map, Nat.sub_self, List.set_cons_zero, Holds,
    List.map_append, List.map_singleton]
  exact ⟨tail, by simp⟩

/-- **The gap of an element** is closed: the cells behind it are moved to the left. -/
theorem remove_holds (h : b.Holds (p ++ v :: q)) :
    ∃ b', b.move p.length (p.length + 1) q.length = some b' ∧ b'.Holds (p ++ q) := by
  obtain ⟨rest, rfl⟩ := h
  simp only [List.map_append, List.map_cons, List.append_assoc, List.cons_append]
  refine ⟨_, if_pos ?_, ?_⟩
  · simp only [List.length_append, List.length_cons, List.length_map]
    omega
  · have hdrop : ((p.map some ++ some v :: (q.map some ++ rest)).drop (p.length + 1)).take q.length =
        q.map some := by
      rw [List.drop_append, List.length_map, Nat.add_sub_cancel_left, List.drop_eq_nil_of_le (by simp),
        List.nil_append, List.drop_succ_cons, List.drop_zero, List.take_left' (List.length_map _)]
    rw [List.take_left' (List.length_map _), hdrop, Holds, List.map_append]
    exact List.prefix_append _ _

/-- The element behind which there is nothing leaves no gap. -/
theorem Holds.of_append (h : b.Holds (p ++ q)) : b.Holds p := by
  rw [Holds, List.map_append] at h
  exact (List.prefix_append _ _).trans h

end Block

end Lib
