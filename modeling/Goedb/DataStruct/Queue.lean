import Goedb.DataStruct.LinkedList
import Goedb.Lib.Steps

/-!
# DataStruct — queues

The queue that `QUEUE_IMPL` makes of a linked list, and runs of its calls against the same calls on
a list of distinct elements.

`move_back` searches from the last node on and counts the nodes behind the one it finds, but treats
the counts as positions from the head: at `len - 1`, which is the first node, it takes the element to
be at the back, and at 0, which is the last node, it moves the first node to the back, along links
that a removal may have left pointing at a freed node.  So it moves an element to the back exactly
when the element is not in the queue, or alone in it, or between the first and the last one
(`moveBack_moves_iff`).
-/

namespace Goedb

open Lib

variable {α : Type}

namespace Queue

/-- `push`. -/
def push (q : LinkedList α) (elem : α) : Except Fault (LinkedList α) := q.append elem

/-- The calls that change a queue. -/
inductive Call (α : Type) where
  | push (elem : α)
  | append (elem : α)
  | insert (elem : α) (idx : ℕ)
  | remove (idx : ℕ)
  | pop
  | moveBack (elem : α)

/-- A call on the queue. -/
def step [DecidableEq α] : Call α → LinkedList α → Except Fault (LinkedList α)
  | .push elem, q => push q elem
  | .append elem, q => q.append elem
  | .insert elem idx, q => q.insert elem idx
  | .remove idx, q => q.remove idx
  | .pop, q => do
      let (_, q) ← q.queuePop
      return q
  | .moveBack elem, q => q.moveBack elem

/-- A call on the sequence. -/
def Call.on [DecidableEq α] : Call α → List α → List α
  | .push elem, l => l ++ [elem]
  | .append elem, l => l ++ [elem]
  | .insert elem idx, l => l.insertIdx idx elem
  | .remove idx, l => l.eraseIdx idx
  | .pop, l => l.tail
  | .moveBack elem, l => l.erase elem ++ [elem]

/-- A call that `move_back` serves: the element is not in the sequence, or alone in it, or neither
its first nor its last one. -/
def Movable (l : List α) (elem : α) : Prop :=
  elem ∉ l ∨ l.length ≤ 1 ∨ l.head? ≠ some elem ∧ l.getLast? ≠ some elem

/-- A call that keeps the elements distinct, at an index that is there, and with an element that
`move_back` serves. -/
def Call.Served (l : List α) : Call α → Prop
  | .push elem => elem ∉ l
  | .append elem => elem ∉ l
  | .insert elem idx => elem ∉ l ∧ (idx < l.length ∨ l = [] ∧ idx = 0)
  | .remove idx => idx < l.length
  | .pop => l ≠ []
  | .moveBack elem => Movable l elem

/-- `move_back` follows nodes that are there and moves the element to the back. -/
def Moves [DecidableEq α] (q : LinkedList α) (l : List α) (elem : α) : Prop :=
  ∃ q', q.moveBack elem = .ok q' ∧ q'.Rep (l.erase elem ++ [elem])

variable {q : LinkedList α} {l : List α} {x : α}

theorem nodup_concat (h : l.Nodup) (hx : x ∉ l) : (l ++ [x]).Nodup :=
  List.nodup_append.mpr ⟨h, List.nodup_singleton x, fun _ hu _ hv e =>
    hx (List.mem_singleton.mp hv ▸ e ▸ hu)⟩

variable [DecidableEq α]

/-- What the list becomes is what the queue should become. -/
theorem moved_eq (h : Movable l x) : LinkedList.moved l x = l.erase x ++ [x] := by
  by_cases hx : x ∈ l
  · rw [LinkedList.moved, if_neg (not_not.mpr hx)]
    rcases h with hn | hlen | ⟨hfirst, hlast⟩
    · exact absurd hx hn
    · obtain ⟨y, rfl⟩ := List.length_eq_one_iff.mp
        (Nat.le_antisymm hlen (List.length_pos_of_mem hx))
      obtain rfl := List.mem_singleton.mp hx
      rw [if_pos (by rfl), List.erase_cons_head]
      rfl
    · rw [if_neg hfirst, if_neg hlast]
  · rw [LinkedList.moved, if_pos hx, List.erase_of_not_mem hx]

theorem nodup_moveBack (h : l.Nodup) : (l.erase x ++ [x]).Nodup :=
  nodup_concat (h.erase x) h.not_mem_erase

/-- The first of several elements stays where it is. -/
theorem not_moves_first {y : α} {t : List α} (h : q.Rep (x :: y :: t)) (hd : (x :: y :: t).Nodup) :
    ¬ Moves q (x :: y :: t) x := by
  have hne : (y :: t).getLast? ≠ some x := fun e =>
    (List.nodup_cons.mp hd).1 (List.mem_of_mem_getLast? e)
  obtain ⟨q', hrun, hrep, -⟩ := LinkedList.moveBack_ok h hd (x := x)
    fun hlast _ => absurd hlast (by rwa [List.getLast?_cons_cons])
  rintro ⟨q'', hrun', hrep'⟩
  obtain rfl : q' = q'' := Except.ok.inj (hrun.symm.trans hrun')
  have he := hrep.toList_eq.symm.trans hrep'.toList_eq
  rw [LinkedList.moved, if_neg (not_not.mpr List.mem_cons_self), if_pos (by rfl),
    List.erase_cons_head, List.cons_append, List.cons.injEq] at he
  exact (List.nodup_cons.mp hd).1 (he.1 ▸ List.mem_cons_self)

/-- In the place of the last of several elements the first one is moved, and the queue begins with
the second one. -/
theorem not_moves_last {y : α} {t : List α} (h : q.Rep (y :: t)) (hd : (y :: t).Nodup)
    (ht : t ≠ []) (hlast : t.getLast? = some x) : ¬ Moves q (y :: t) x := by
  obtain ⟨t, rfl⟩ : ∃ u, t = u ++ [x] := by
    obtain rfl := (List.getLast?_eq_some_getLast ht).symm.trans hlast |> Option.some.inj
    exact ⟨_, (List.dropLast_append_getLast ht).symm⟩
  obtain ⟨as, hH⟩ := h
  have he := hH.elems
  rw [List.map_cons, List.map_eq_cons_iff] at he
  obtain ⟨b, as, rfl, hb, he⟩ := he
  rw [List.map_append, List.map_eq_append_iff] at he
  obtain ⟨p, as', rfl, hp, has⟩ := he
  obtain ⟨a, rfl, ha⟩ := List.map_eq_singleton_iff.mp has
  rintro ⟨q', hrun, hrep⟩
  rw [hH.moveBack_last_eq ha, Except.ok.injEq] at hrun
  subst hrun
  -- the first node is now the one behind `b`
  have hx : x ∉ y :: t := fun hm => by
    rw [← List.cons_append, List.nodup_append] at hd
    exact hd.2.2 x hm x (List.mem_singleton_self x) rfl
  rw [← List.cons_append, List.erase_append_right _ hx, List.erase_cons_head, List.append_nil,
    List.cons_append] at hrep
  obtain ⟨c, r, hcr⟩ : ∃ c r, p ++ [a] = c :: r :=
    List.exists_cons_of_ne_nil (List.append_ne_nil_of_right_ne_nil p (List.cons_ne_nil a []))
  have hchain := hH.chain
  rw [hcr] at hchain
  have hy : q.elem c = some y := by
    rw [← hchain.rel.1]
    exact hrep.elem_head
  have hc : q.elem c ∈ (p ++ [a]).map q.elem := List.mem_map_of_mem (hcr ▸ List.mem_cons_self)
  rw [List.map_append, hp, List.map_singleton, ha, hy, ← List.map_singleton (f := some),
    ← List.map_append, List.mem_map_of_injective (Option.some_injective α)] at hc
  exact (List.nodup_cons.mp hd).1 hc

/-- **`move_back` of one queue.** -/
theorem moves_iff (h : q.Rep l) (hd : l.Nodup) (x : α) : Moves q l x ↔ Movable l x := by
  constructor
  · intro hm
    by_contra hn
    simp only [Movable, not_or, not_and, not_not, Nat.not_le, ne_eq] at hn
    obtain ⟨hx, hlen, himp⟩ := hn
    match l, h, hd, hlen with
    | y :: z :: t, h, hd, _ =>
        by_cases hy : y = x
        · subst hy
          exact not_moves_first h hd hm
        · have hlast := himp fun e => hy (Option.some.inj e)
          exact not_moves_last h hd (List.cons_ne_nil z t) (by rwa [List.getLast?_cons_cons] at hlast)
            hm
  · intro hm
    obtain ⟨q', hrun, hrep, -⟩ := LinkedList.moveBack_ok h hd (x := x) fun hlast hlen => by
      rcases hm with hn | hle | ⟨-, hne⟩
      · exact absurd (List.mem_of_mem_getLast? hlast) hn
      · omega
      · exact absurd hlast hne
    exact ⟨q', hrun, moved_eq hm ▸ hrep⟩

/-- One call. -/
theorem step_ok {c : Call α} (h : q.Rep l ∧ l.Nodup) (hc : c.Served l) :
    ∃ q', step c q = .ok q' ∧ q'.Rep (c.on l) ∧ (c.on l).Nodup := by
  obtain ⟨h, hd⟩ := h
  cases c with
  | push elem | append elem =>
      obtain ⟨q', hrun, hrep, -⟩ := LinkedList.append_ok h elem
      exact ⟨q', hrun, hrep, nodup_concat hd hc⟩
  | insert elem idx =>
      obtain ⟨q', hrun, hrep⟩ := LinkedList.insert_ok h elem hc.2
      refine ⟨q', hrun, hrep, ?_⟩
      have hle : idx ≤ l.length := by
        rcases hc.2 with hlt | ⟨-, rfl⟩
        · exact Nat.le_of_lt hlt
        · exact Nat.zero_le _
      exact (List.perm_insertIdx elem l hle).nodup_iff.mpr (List.nodup_cons.mpr ⟨hc.1, hd⟩)
  | remove idx =>
      obtain ⟨q', hrun, hrep⟩ := LinkedList.remove_ok h hc
      exact ⟨q', hrun, hrep, hd.eraseIdx idx⟩
  | pop =>
      obtain ⟨y, t, rfl⟩ := List.exists_cons_of_ne_nil hc
      obtain ⟨q', hrun, hrep⟩ := LinkedList.queuePop_ok h
      refine ⟨q', ?_, hrep, hd.tail⟩
      rw [step, hrun]
      rfl
  | moveBack elem =>
      obtain ⟨q', hrun, hrep⟩ := (moves_iff h hd elem).mpr hc
      exact ⟨q', hrun, hrep, nodup_moveBack hd⟩

/-- A run of such calls. -/
theorem run_ok (calls : List (Call α))
    (h : Along (fun c l => (.ok (Call.on c l) : Except Fault _)) Call.Served calls []) :
    ∃ q : LinkedList α, runSteps step calls LinkedList.create = .ok q ∧
      q.Rep (calls.foldl (fun l c => c.on l) []) ∧ (calls.foldl (fun l c => c.on l) []).Nodup :=
  runSteps_simulates Call.on (R := fun (q : LinkedList α) l => q.Rep l ∧ l.Nodup)
    (fun _ _ _ h hc => step_ok h hc) calls ⟨⟨[], LinkedList.create_holds⟩, List.nodup_nil⟩ h

/-- **`move_back` in every run of the calls**: in each queue that a run reaches it moves an element
to the back, along nodes that are there, exactly when it serves the element; and the queue is the
sequence that the calls make when it served each element of the run. -/
theorem moveBack_moves_iff (calls : List (Call α)) :
    (∀ (q : LinkedList α) l x, runSteps step calls LinkedList.create = .ok q → q.Rep l →
      l.Nodup → (Moves q l x ↔ Movable l x)) ∧
    (Along (fun c l => (.ok (Call.on c l) : Except Fault _)) Call.Served calls [] →
      ∃ q : LinkedList α, runSteps step calls LinkedList.create = .ok q ∧
        q.Rep (calls.foldl (fun l c => c.on l) []) ∧
        (calls.foldl (fun l c => c.on l) []).Nodup) :=
  ⟨fun _ _ x _ h hd => moves_iff h hd x, run_ok calls⟩

theorem moveBack_moves_iff_middle :
    (∀ (q : LinkedList ℕ) l x, runSteps step [.push 1, .push 2, .push 3, .moveBack 2]
      LinkedList.create = .ok q → q.Rep l → l.Nodup → (Moves q l x ↔ Movable l x)) ∧
    ∃ q : LinkedList ℕ, runSteps step [.push 1, .push 2, .push 3, .moveBack 2] LinkedList.create =
      .ok q ∧ q.Rep [1, 3, 2] :=
  have h := moveBack_moves_iff [Call.push 1, .push 2, .push 3, .moveBack 2]
  have ⟨q, hrun, hrep, _⟩ := h.2 ⟨(by decide : 1 ∉ []), (by decide : 2 ∉ [1]),
    (by decide : 3 ∉ [1, 2]), .inr (.inr (by decide)), trivial⟩
  ⟨h.1, q, hrun, hrep⟩

/-- With three elements, `move_back` of the last one moves the first one to the back.  After a `pop`
it does so along a link to the freed node, and a later call follows that link. -/
theorem moveBack_last_moves_first :
    (runSteps step [.push 1, .push 2, .push 3, .moveBack 3] LinkedList.create).map
        LinkedList.toList = .ok [2, 3, 1] ∧
      (runSteps step [.push 1, .push 2, .push 3, .pop, .moveBack 3, .moveBack 2, .moveBack 3]
        LinkedList.create).map LinkedList.toList = .error .undefined ∧
      ¬ ∀ (calls : List (Call ℕ)) (q : LinkedList ℕ) l x,
        runSteps step calls LinkedList.create = .ok q → q.Rep l → l.Nodup → Moves q l x := by
  refine ⟨by rfl, by rfl, fun hall => ?_⟩
  obtain ⟨q, hrun, hrep, hd⟩ := run_ok [Call.push 1, .push 2, .push 3] ⟨(by decide : 1 ∉ []),
    (by decide : 2 ∉ [1]), (by decide : 3 ∉ [1, 2]), trivial⟩
  exact not_moves_last hrep hd (by decide) (by rfl) (hall _ q _ 3 hrun hrep hd)

end Queue

end Goedb
