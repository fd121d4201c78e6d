import Goedb.DataStruct.LinkedList
import Goedb.Lib.Steps

/-!
# DataStruct — runs of calls on linked lists

The functions that `LINKED_LIST_IMPL`, `QUEUE_IMPL` and `STACK_IMPL` make, but for `move_back`, and runs
of their calls against the same calls on a list.  A list, a queue and a stack have the same nodes and the
same functions; a queue has its own `pop`, so has a stack, and a list has `take`.

A removal at one end leaves the link at the other end pointing at the node that was freed.  None of
these functions follows that link, so every call answers as the list does (`answers_as_list`).
-/

namespace Goedb

open Lib

variable {α : Type}

namespace LinkedList

/-- `size`. -/
def size (ll : LinkedList α) : ℕ := ll.len

variable [DecidableEq α]

/-- The loop of `index_of`. -/
def indexOfLoop (ll : LinkedList α) (elem : α) : (n i cur : ℕ) → Except Fault (Option ℕ)
  | 0, _, _ => .ok none
  | n + 1, i, cur => do
      let c ← ll.deref cur
      if c.element = elem then return some i
      else indexOfLoop ll elem n (i + 1) c.next

/-- `index_of`: the index it stores, if it returns 0. -/
def indexOf (ll : LinkedList α) (elem : α) : Except Fault (Option ℕ) :=
  ll.indexOfLoop elem ll.len 0 ll.head

/-- `contains`. -/
def contains (ll : LinkedList α) (elem : α) : Except Fault Bool := do
  let idx ← ll.indexOf elem
  return idx.isSome

/-- `remove_elem`. -/
def removeElem (ll : LinkedList α) (elem : α) : Except Fault (LinkedList α) := do
  match ← ll.indexOf elem with
  | none => .error (.exit "Linked List - remove elem: Element not in the list!")
  | some idx => ll.remove idx

omit [DecidableEq α] in
/-- `pop` of a stack. -/
def stackPop (ll : LinkedList α) : Except Fault (α × LinkedList α) := do
  let c ← ll.deref ll.tail
  let ll ← ll.remove (ll.len - 1)
  return (c.element, ll)

/-! ### What the functions do to the list of the elements -/

variable {ll : LinkedList α} {as : List ℕ} {l : List α} {x : α}

/-- The search goes along the nodes; it is over before it would leave the last one. -/
theorem indexOfLoop_ok (x : α) (as : List ℕ) : ∀ {l : List α} {i : ℕ}, as.map ll.elem = l.map some →
    List.IsChain (Links ll.nxt ll.prv) as →
    ll.indexOfLoop x as.length i (as.headD null) = .ok ((l.idxOf? x).map (i + ·)) := by
  induction as with
  | nil =>
      intro l i he _
      rw [List.map_eq_nil_iff.mp he.symm]
      rfl
  | cons a as ih =>
      intro l i he hc
      obtain ⟨y, l, rfl, hy, hl⟩ := List.map_eq_cons_iff.mp he.symm
      rw [List.length_cons, indexOfLoop, List.headD_cons, deref_ok hy.symm, ok_bind,
        List.idxOf?_cons]
      by_cases hyx : y = x
      · rw [if_pos hyx, if_pos (beq_iff_eq.mpr hyx)]
        rfl
      · rw [if_neg hyx, if_neg (by simpa using hyx), Option.map_map]
        have hnext : ll.indexOfLoop x as.length (i + 1) (ll.nxt a) =
            ll.indexOfLoop x as.length (i + 1) (as.headD null) := by
          cases as with
          | nil => rfl
          | cons b as => rw [(List.isChain_cons_cons.mp hc).1.1, List.headD_cons]
        refine (hnext.trans (ih hl.symm hc.tail)).trans ?_
        congr 2
        funext j
        exact Nat.add_right_comm i 1 j

theorem indexOf_ok (h : ll.Rep l) (x : α) : ll.indexOf x = .ok (l.idxOf? x) := by
  obtain ⟨as, h⟩ := h
  rw [indexOf, h.len, h.head, indexOfLoop_ok x as h.elems h.chain]
  simp

theorem contains_ok (h : ll.Rep l) (x : α) : ll.contains x = .ok (decide (x ∈ l)) := by
  rw [contains, indexOf_ok h, ok_bind]
  refine congrArg Except.ok ?_
  rw [Bool.eq_iff_iff, List.isSome_idxOf?, decide_eq_true_iff]

theorem removeElem_ok (h : ll.Rep l) (hx : x ∈ l) :
    ∃ ll', ll.removeElem x = .ok ll' ∧ ll'.Rep (l.erase x) := by
  obtain ⟨i, hi⟩ := Option.isSome_iff_exists.mp (List.isSome_idxOf?.mpr hx)
  have hlt : i < l.length := (List.idxOf?_eq_some_iff.mp hi).1
  obtain ⟨ll', hrun, hrep⟩ := remove_ok h hlt
  refine ⟨ll', ?_, ?_⟩
  · rw [removeElem, indexOf_ok h, ok_bind, hi]
    exact hrun
  · rw [List.erase_eq_eraseIdx, hi]
    exact hrep

omit [DecidableEq α] in
theorem Rep.elem_tail (h : ll.Rep (l ++ [x])) : ll.elem ll.tail = some x := by
  obtain ⟨as, h⟩ := h
  have he := h.elems
  rw [List.map_append, List.map_eq_append_iff] at he
  obtain ⟨p, as', rfl, -, has⟩ := he
  obtain ⟨a, rfl, ha⟩ := List.map_eq_singleton_iff.mp has
  rw [h.tail, List.getLastD_concat]
  exact ha

omit [DecidableEq α] in
theorem stackPop_ok (h : ll.Rep (l ++ [x])) : ∃ ll', ll.stackPop = .ok (x, ll') ∧ ll'.Rep l := by
  have hlen : ll.len - 1 = l.length := by
    rw [h.len_eq, List.length_append, List.length_singleton, Nat.add_sub_cancel]
  obtain ⟨ll', hrun, hrep⟩ := remove_ok h (i := l.length) (by simp)
  rw [List.eraseIdx_append_of_length_le (Nat.le_refl _), Nat.sub_self, List.eraseIdx_cons_zero,
    List.append_nil] at hrep
  refine ⟨ll', ?_, hrep⟩
  rw [stackPop, deref_ok h.elem_tail, ok_bind, hlen, hrun]
  rfl

/-! ### Where the program exits -/

omit [DecidableEq α] in
theorem get_exit (h : ll.Rep l) {i : ℕ} (hi : l.length ≤ i) :
    ∃ text, ll.get i = .error (.exit text) :=
  ⟨_, if_pos (h.len_eq ▸ hi)⟩

omit [DecidableEq α] in
theorem remove_exit (h : ll.Rep l) {i : ℕ} (hi : l.length ≤ i) :
    ∃ text, ll.remove i = .error (.exit text) :=
  ⟨_, if_pos (h.len_eq ▸ hi)⟩

omit [DecidableEq α] in
theorem insert_exit (h : ll.Rep l) (x : α) {i : ℕ} (hi : l.length ≤ i) (hne : ¬ (l = [] ∧ i = 0)) :
    ∃ text, ll.insert x i = .error (.exit text) := by
  refine ⟨_, (if_neg ?_).trans (if_pos (h.len_eq ▸ hi))⟩
  rw [h.len_eq, List.length_eq_zero_iff]
  exact hne

theorem removeElem_exit (h : ll.Rep l) (hx : x ∉ l) :
    ∃ text, ll.removeElem x = .error (.exit text) := by
  rw [removeElem, indexOf_ok h, List.idxOf?_eq_none_iff.mpr hx]
  exact ⟨_, rfl⟩

end LinkedList

/-! ### Runs -/

namespace ListRuns

/-- A call to one of the functions; `queuePop` and `stackPop` are `pop` of a queue and of a stack. -/
inductive Call (α : Type) where
  | append (elem : α)
  | push (elem : α)
  | insert (elem : α) (idx : ℕ)
  | remove (idx : ℕ)
  | removeElem (elem : α)
  | take (idx : ℕ)
  | queuePop
  | stackPop
  | get (idx : ℕ)
  | indexOf (elem : α)
  | contains (elem : α)
  | size

/-- What a call returns. -/
inductive Answer (α : Type) where
  | done
  | elem (x : α)
  | index (idx : Option ℕ)
  | truth (b : Bool)
  | size (n : ℕ)
  deriving DecidableEq

variable [DecidableEq α]

/-- A call on the linked list. -/
def exec : Call α → LinkedList α → Except Fault (Answer α × LinkedList α)
  | .append elem, ll => do
      let ll ← ll.append elem
      return (.done, ll)
  | .push elem, ll => do
      let ll ← ll.append elem
      return (.done, ll)
  | .insert elem idx, ll => do
      let ll ← ll.insert elem idx
      return (.done, ll)
  | .remove idx, ll => do
      let ll ← ll.remove idx
      return (.done, ll)
  | .removeElem elem, ll => do
      let ll ← ll.removeElem elem
      return (.done, ll)
  | .take idx, ll => do
      let (x, ll) ← ll.take idx
      return (.elem x, ll)
  | .queuePop, ll => do
      let (x, ll) ← ll.queuePop
      return (.elem x, ll)
  | .stackPop, ll => do
      let (x, ll) ← ll.stackPop
      return (.elem x, ll)
  | .get idx, ll => do
      let x ← ll.get idx
      return (.elem x, ll)
  | .indexOf elem, ll => do
      let idx ← ll.indexOf elem
      return (.index idx, ll)
  | .contains elem, ll => do
      let b ← ll.contains elem
      return (.truth b, ll)
  | .size, ll => .ok (.size ll.size, ll)

/-- A call on a list, if it has a meaning there. -/
def Call.on : Call α → List α → Option (Answer α × List α)
  | .append elem, l => some (.done, l ++ [elem])
  | .push elem, l => some (.done, l ++ [elem])
  | .insert elem idx, l =>
      if idx < l.length ∨ l = [] ∧ idx = 0 then some (.done, l.insertIdx idx elem) else none
  | .remove idx, l => if idx < l.length then some (.done, l.eraseIdx idx) else none
  | .removeElem elem, l => if elem ∈ l then some (.done, l.erase elem) else none
  | .take idx, l => l[idx]?.map fun x => (.elem x, l.eraseIdx idx)
  | .queuePop, l => l.head?.map fun x => (.elem x, l.tail)
  | .stackPop, l => l.getLast?.map fun x => (.elem x, l.dropLast)
  | .get idx, l => l[idx]?.map fun x => (.elem x, l)
  | .indexOf elem, l => some (.index (l.idxOf? elem), l)
  | .contains elem, l => some (.truth (decide (elem ∈ l)), l)
  | .size, l => some (.size l.length, l)

/-- A call on the linked list, after the answers so far. -/
def step (c : Call α) (s : LinkedList α × List (Answer α)) :
    Except Fault (LinkedList α × List (Answer α)) := do
  let (answer, ll) ← exec c s.1
  return (ll, s.2 ++ [answer])

/-- A call on the list, after the answers so far. -/
def listStep (c : Call α) (s : List α × List (Answer α)) : Except Unit (List α × List (Answer α)) :=
  match c.on s.1 with
  | some (answer, l) => .ok (l, s.2 ++ [answer])
  | none => .error ()

omit [DecidableEq α] in
/-- `pop` does not ask whether there is an element, so its callers do. -/
def Called (s : List α × List (Answer α)) : Call α → Prop
  | .queuePop => s.1 ≠ []
  | .stackPop => s.1 ≠ []
  | _ => True

omit [DecidableEq α] in
instance (s : List α × List (Answer α)) : ∀ c, Decidable (Called s c)
  | .queuePop => inferInstanceAs (Decidable (s.1 ≠ []))
  | .stackPop => inferInstanceAs (Decidable (s.1 ≠ []))
  | .append _ | .push _ | .insert _ _ | .remove _ | .removeElem _ | .take _ | .get _ | .indexOf _
  | .contains _ | .size => isTrue trivial

variable {ll : LinkedList α} {l l' : List α} {a : Answer α} {c : Call α}

/-- **A call with a meaning** answers as on the list. -/
theorem exec_ok (h : ll.Rep l) (hon : c.on l = some (a, l')) :
    ∃ ll', exec c ll = .ok (a, ll') ∧ ll'.Rep l' := by
  cases c with
  | append elem | push elem =>
      cases hon
      obtain ⟨ll', hrun, hrep, -⟩ := LinkedList.append_ok h elem
      exact ⟨ll', by rw [exec, hrun]; rfl, hrep⟩
  | insert elem idx =>
      rw [Call.on, Option.ite_none_right_eq_some] at hon
      obtain ⟨hidx, hon⟩ := hon
      cases hon
      obtain ⟨ll', hrun, hrep⟩ := LinkedList.insert_ok h elem hidx
      exact ⟨ll', by rw [exec, hrun]; rfl, hrep⟩
  | remove idx =>
      rw [Call.on, Option.ite_none_right_eq_some] at hon
      obtain ⟨hidx, hon⟩ := hon
      cases hon
      obtain ⟨ll', hrun, hrep⟩ := LinkedList.remove_ok h hidx
      exact ⟨ll', by rw [exec, hrun]; rfl, hrep⟩
  | removeElem elem =>
      rw [Call.on, Option.ite_none_right_eq_some] at hon
      obtain ⟨hmem, hon⟩ := hon
      cases hon
      obtain ⟨ll', hrun, hrep⟩ := LinkedList.removeElem_ok h hmem
      exact ⟨ll', by rw [exec, hrun]; rfl, hrep⟩
  | take idx =>
      obtain ⟨x, hx, hon⟩ := Option.map_eq_some_iff.mp hon
      cases hon
      obtain ⟨ll', hrun, hrep⟩ := LinkedList.take_ok h hx
      exact ⟨ll', by rw [exec, hrun]; rfl, hrep⟩
  | queuePop =>
      obtain ⟨x, hx, hon⟩ := Option.map_eq_some_iff.mp hon
      cases hon
      obtain ⟨t, rfl⟩ := List.head?_eq_some_iff.mp hx
      obtain ⟨ll', hrun, hrep⟩ := LinkedList.queuePop_ok h
      exact ⟨ll', by rw [exec, hrun]; rfl, hrep⟩
  | stackPop =>
      obtain ⟨x, hx, hon⟩ := Option.map_eq_some_iff.mp hon
      cases hon
      obtain ⟨t, rfl⟩ := List.getLast?_eq_some_iff.mp hx
      obtain ⟨ll', hrun, hrep⟩ := LinkedList.stackPop_ok h
      rw [List.dropLast_concat]
      exact ⟨ll', by rw [exec, hrun]; rfl, hrep⟩
  | get idx =>
      obtain ⟨x, hx, hon⟩ := Option.map_eq_some_iff.mp hon
      cases hon
      exact ⟨ll, by rw [exec, LinkedList.get_ok h hx]; rfl, h⟩
  | indexOf elem =>
      cases hon
      exact ⟨ll, by rw [exec, LinkedList.indexOf_ok h]; rfl, h⟩
  | contains elem =>
      cases hon
      exact ⟨ll, by rw [exec, LinkedList.contains_ok h]; rfl, h⟩
  | size =>
      cases hon
      exact ⟨ll, by rw [exec, LinkedList.size, h.len_eq], h⟩

/-- **A call without a meaning** is refused. -/
theorem exec_exit (answers : List (Answer α)) (h : ll.Rep l) (hc : Called (l, answers) c)
    (hon : c.on l = none) : ∃ text, exec c ll = .error (.exit text) := by
  cases c with
  | append elem | push elem | indexOf elem | contains elem | size => cases hon
  | insert elem idx =>
      rw [Call.on, ite_eq_right_iff] at hon
      have hidx : ¬ (idx < l.length ∨ l = [] ∧ idx = 0) := fun hidx => nomatch hon hidx
      rw [not_or] at hidx
      obtain ⟨text, hrun⟩ := LinkedList.insert_exit h elem (not_lt.mp hidx.1) hidx.2
      exact ⟨text, by rw [exec, hrun]; rfl⟩
  | remove idx =>
      rw [Call.on, ite_eq_right_iff] at hon
      have hidx : ¬ idx < l.length := fun hidx => nomatch hon hidx
      obtain ⟨text, hrun⟩ := LinkedList.remove_exit h (not_lt.mp hidx)
      exact ⟨text, by rw [exec, hrun]; rfl⟩
  | removeElem elem =>
      rw [Call.on, ite_eq_right_iff] at hon
      have hmem : elem ∉ l := fun hmem => nomatch hon hmem
      obtain ⟨text, hrun⟩ := LinkedList.removeElem_exit h hmem
      exact ⟨text, by rw [exec, hrun]; rfl⟩
  | take idx =>
      have hidx := List.getElem?_eq_none_iff.mp (Option.map_eq_none_iff.mp hon)
      obtain ⟨text, hrun⟩ := LinkedList.get_exit h hidx
      exact ⟨text, by rw [exec, LinkedList.take, hrun]; rfl⟩
  | queuePop => exact absurd (List.head?_eq_none_iff.mp (Option.map_eq_none_iff.mp hon)) hc
  | stackPop => exact absurd (List.getLast?_eq_none_iff.mp (Option.map_eq_none_iff.mp hon)) hc
  | get idx =>
      have hidx := List.getElem?_eq_none_iff.mp (Option.map_eq_none_iff.mp hon)
      obtain ⟨text, hrun⟩ := LinkedList.get_exit h hidx
      exact ⟨text, by rw [exec, hrun]; rfl⟩

section Step

variable {s : LinkedList α × List (Answer α)} {t t' : List α × List (Answer α)}
  (hR : s.1.Rep t.1 ∧ s.2 = t.2)
include hR

theorem step_ok (ht : listStep c t = .ok t') :
    ∃ s', step c s = .ok s' ∧ s'.1.Rep t'.1 ∧ s'.2 = t'.2 := by
  obtain ⟨hrep, hanswers⟩ := hR
  rw [listStep] at ht
  cases hon : c.on t.1 with
  | none =>
      rw [hon] at ht
      cases ht
  | some p =>
      rw [hon] at ht
      cases ht
      obtain ⟨ll', hrun, hrep'⟩ := exec_ok hrep hon
      refine ⟨(ll', s.2 ++ [p.1]), ?_, hrep', by rw [hanswers]⟩
      rw [step, hrun]
      rfl

theorem step_exit {e : Unit} (hc : Called t c) (ht : listStep c t = .error e) :
    ∃ e', step c s = .error e' ∧ ∃ text, e' = .exit text := by
  obtain ⟨hrep, -⟩ := hR
  rw [listStep] at ht
  cases hon : c.on t.1 with
  | some p =>
      rw [hon] at ht
      cases ht
  | none =>
      obtain ⟨text, hrun⟩ := exec_exit t.2 hrep hc hon
      refine ⟨.exit text, ?_, text, rfl⟩
      rw [step, hrun]
      rfl

end Step

/-- **A list, a queue or a stack answers as a list** in every run of calls.  Where a call has no meaning on
the list the program exits; no call follows a node that is not there. -/
theorem answers_as_list (calls : List (Call α)) (h : Along listStep Called calls ([], [])) :
    (∀ s, runSteps listStep calls ([], []) = .ok s →
      ∃ ll, runSteps step calls (LinkedList.create, []) = .ok (ll, s.2) ∧ ll.Rep s.1) ∧
    ∀ e, runSteps listStep calls ([], []) = .error e →
      ∃ text, runSteps step calls (LinkedList.create, []) = .error (.exit text) := by
  have hstart : (LinkedList.create : LinkedList α).Rep [] ∧ ([] : List (Answer α)) = [] :=
    ⟨⟨[], LinkedList.create_holds⟩, rfl⟩
  obtain ⟨hok, herror⟩ := runSteps_refines (R := fun s t => s.1.Rep t.1 ∧ s.2 = t.2)
    (fun _ _ _ _ hR _ ht => step_ok hR ht) (fun _ _ _ _ hR hc ht => step_exit hR hc ht) calls
    (s := (LinkedList.create, [])) hstart h
  refine ⟨fun s hs => ?_, fun e he => ?_⟩
  · obtain ⟨⟨ll, answers⟩, hrun, hrep, hanswers⟩ := hok s hs
    exact ⟨ll, hanswers ▸ hrun, hrep⟩
  · obtain ⟨e', hrun, text, rfl⟩ := herror e he
    exact ⟨text, hrun⟩

/-- Removals at both ends, and elements after them. -/
theorem answers_as_list_ends :
    ∃ ll, runSteps step [.push 4, .append 7, .insert 9 1, .push 4, .queuePop, .stackPop, .push 7,
        .indexOf 7, .removeElem 7, .take 1, .contains 7, .get 0, .size] (LinkedList.create, []) =
        .ok (ll, [.done, .done, .done, .done, .elem 4, .elem 4, .done, .index (some 1), .done, .elem 7,
          .truth false, .elem 9, .size 1]) ∧ ll.Rep [9] :=
  (answers_as_list _ (by decide)).1 ([9], _) (by decide)

end ListRuns

end Goedb
