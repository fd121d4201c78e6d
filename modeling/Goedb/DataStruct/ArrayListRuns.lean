import Goedb.DataStruct.ArrayList
import Goedb.Lib.Steps
import Mathlib.Algebra.Order.Group.Multiset
import Mathlib.Tactic.Abel

/-!
# DataStruct — runs of calls on array lists

Runs of calls against the same calls on a list.  No call reads or writes outside of the block or a cell in
which nothing was stored: where a call has no meaning on the list, or there is no memory, the program exits
(`keeps_elements`).

A list that frees its elements keeps an account of them: what was put in is in the list, was freed, or was
handed out, each once.
-/

namespace Goedb

open Lib

namespace ArrayListRuns

variable {α : Type}

/-- A call to one of the functions. -/
inductive Call (α : Type) where
  | insert (v : α) (idx : ℕ)
  | append (v : α)
  | remove (idx : ℕ)
  | removeElem (elem : α)
  | take (idx : ℕ)
  | get (idx : ℕ)
  | indexOf (v : α)
  | contains (elem : α)
  | size

/-- What a call returns. -/
inductive Answer (α : Type) where
  | done
  | taken (x : α)
  | elem (x : α)
  | index (idx : Option ℕ)
  | truth (b : Bool)
  | size (n : ℕ)
  deriving DecidableEq

/-- The element that is handed out. -/
def Answer.handed : Answer α → Option α
  | .taken x => some x
  | _ => none

/-- The list, what was freed, and the answers so far. -/
structure Session (α : Type) where
  list : ArrayList α
  freed : List α
  answers : List (Answer α)

/-- A call on the array list: its answer, what it frees, and the list. -/
def exec (A : Allocator) : Call α → ArrayList α → Except Fault (Answer α × List α × ArrayList α)
  | .insert v idx, l => do
      let l ← l.insert A v idx
      return (.done, [], l)
  | .append v, l => do
      let l ← l.append A v
      return (.done, [], l)
  | .remove idx, l => do
      let (freed, l) ← l.remove idx
      return (.done, freed, l)
  | .removeElem elem, l => do
      let (freed, l) ← l.removeElem elem
      return (.done, freed, l)
  | .take idx, l => do
      let (x, l) ← l.take idx
      return (.taken x, [], l)
  | .get idx, l => do
      let x ← l.get idx
      return (.elem x, [], l)
  | .indexOf v, l => do
      let idx ← l.indexOf v
      return (.index idx, [], l)
  | .contains elem, l => do
      let b ← l.contains elem
      return (.truth b, [], l)
  | .size, l => .ok (.size l.size, [], l)

/-- A call on the array list, in a session. -/
def step (A : Allocator) (c : Call α) (s : Session α) : Except Fault (Session α) := do
  let (answer, freed, l) ← exec A c s.list
  return ⟨l, s.freed ++ freed, s.answers ++ [answer]⟩

/-! ### The same calls on a list -/

/-- A list of elements, the cells there are for it, and what was freed and answered so far. -/
structure Account (α : Type) where
  list : List α
  room : ℕ
  freed : List α
  answers : List (Answer α)
  deriving DecidableEq

variable (A : Allocator) (cbs : ListCbs α)

/-- The removal of an element. -/
def removal (l : List α) (idx : ℕ) : Option (Answer α × List α × List α) :=
  l[idx]?.map fun x => (.done, if cbs.lfree then [x] else [], l.eraseIdx idx)

/-- A call on a list, if it has a meaning there: the answer, what it frees, and the list. -/
def Call.on : Call α → List α → Option (Answer α × List α × List α)
  | .insert v idx, l => if idx ≤ l.length then some (.done, [], l.insertIdx idx (cbs.copy v)) else none
  | .append v, l => some (.done, [], l ++ [cbs.copy v])
  | .remove idx, l => removal cbs l idx
  | .removeElem elem, l => (l.findIdx? (cbs.leq elem)).bind (removal cbs l)
  | .take idx, l => l[idx]?.map fun x => (.taken x, [], l.eraseIdx idx)
  | .get idx, l => l[idx]?.map fun x => (.elem x, [], l)
  | .indexOf v, l => some (.index (l.findIdx? (cbs.leq v)), [], l)
  | .contains elem, l => some (.truth (l.findIdx? (cbs.leq elem)).isSome, [], l)
  | .size, l => some (.size l.length, [], l)

/-- The cells there are after a call, if there is memory for them. -/
def Call.room : Call α → List α → ℕ → Option ℕ
  | .insert _ _, l, room => ArrayList.nextRoom A l room
  | .append _, l, room => ArrayList.nextRoom A l room
  | _, _, room => some room

/-- The elements that a call puts into the list. -/
def Call.put : Call α → List α
  | .insert v _ => [cbs.copy v]
  | .append v => [cbs.copy v]
  | _ => []

/-- A call on the account. -/
def accountStep (c : Call α) (t : Account α) : Except Unit (Account α) :=
  match c.on cbs t.list, c.room A t.list t.room with
  | some (answer, freed, l), some room => .ok ⟨l, room, t.freed ++ freed, t.answers ++ [answer]⟩
  | _, _ => .error ()

/-- A new list. -/
def Account.start : Account α := ⟨[], initialAlloc, [], []⟩

/-- The elements that the account tells of: in the list, freed, or handed out. -/
def Account.elements (t : Account α) : List α :=
  t.list ++ (t.freed ++ t.answers.filterMap Answer.handed)

/-! ### The calls -/

variable {A cbs} {al : ArrayList α} {l l' freed : List α} {room room' : ℕ} {c : Call α} {a : Answer α}

/-- **A call with a meaning**, for which there is memory, answers and frees as on the list. -/
theorem exec_ok (hA : A.Sound) (h : al.Rep A l room) (hcbs : al.cbs = cbs)
    (hon : c.on cbs l = some (a, freed, l')) (hroom : c.room A l room = some room') :
    ∃ al', exec A c al = .ok (a, freed, al') ∧ al'.Rep A l' room' ∧ al'.cbs = cbs := by
  subst hcbs
  have hremoval : ∀ {idx}, removal al.cbs l idx = some (a, freed, l') → ∃ hidx : idx < l.length,
      a = .done ∧ freed = (if al.cbs.lfree then [l[idx]] else []) ∧ l' = l.eraseIdx idx := by
    intro idx hr
    obtain ⟨x, hx, hr⟩ := Option.map_eq_some_iff.mp hr
    obtain ⟨hidx, rfl⟩ := List.getElem?_eq_some_iff.mp hx
    cases hr
    exact ⟨hidx, rfl, rfl, rfl⟩
  cases c with
  | insert v idx =>
      rw [Call.on, Option.ite_none_right_eq_some] at hon
      obtain ⟨hidx, hon⟩ := hon
      cases hon
      obtain ⟨al', hrun, hrep, hc⟩ := ArrayList.insert_ok hA h v hidx hroom
      exact ⟨al', by rw [exec, hrun]; rfl, hrep, hc⟩
  | append v =>
      cases hon
      obtain ⟨al', hrun, hrep, hc⟩ := ArrayList.insert_ok hA h v (Nat.le_refl _) hroom
      rw [List.insertIdx_length_self] at hrep
      exact ⟨al', by rw [exec, ArrayList.append, h.len, hrun]; rfl, hrep, hc⟩
  | remove idx =>
      cases hroom
      obtain ⟨hidx, rfl, rfl, rfl⟩ := hremoval hon
      obtain ⟨al', hrun, hrep, hc⟩ := ArrayList.removeInternal_ok h hidx true
      exact ⟨al', by rw [exec, ArrayList.remove, hrun]; rfl, hrep, hc⟩
  | removeElem elem =>
      cases hroom
      obtain ⟨idx, hfind, hon⟩ := Option.bind_eq_some_iff.mp hon
      obtain ⟨hidx, rfl, rfl, rfl⟩ := hremoval hon
      obtain ⟨al', hrun, hrep, hc⟩ := ArrayList.removeInternal_ok h hidx true
      refine ⟨al', ?_, hrep, hc⟩
      rw [exec, ArrayList.removeElem, ArrayList.indexOf_ok h, hfind]
      simp only [ok_bind, hrun]
      rfl
  | take idx =>
      cases hroom
      obtain ⟨x, hx, hon⟩ := Option.map_eq_some_iff.mp hon
      obtain ⟨hidx, rfl⟩ := List.getElem?_eq_some_iff.mp hx
      cases hon
      obtain ⟨al', hrun, hrep, hc⟩ := ArrayList.removeInternal_ok h hidx false
      exact ⟨al', by rw [exec, ArrayList.take, ArrayList.get_ok h hidx, ok_bind, hrun]; rfl, hrep, hc⟩
  | get idx =>
      cases hroom
      obtain ⟨x, hx, hon⟩ := Option.map_eq_some_iff.mp hon
      obtain ⟨hidx, rfl⟩ := List.getElem?_eq_some_iff.mp hx
      cases hon
      exact ⟨al, by rw [exec, ArrayList.get_ok h hidx]; rfl, h, rfl⟩
  | indexOf v =>
      cases hroom
      cases hon
      exact ⟨al, by rw [exec, ArrayList.indexOf_ok h]; rfl, h, rfl⟩
  | contains elem =>
      cases hroom
      cases hon
      exact ⟨al, by rw [exec, ArrayList.contains, ArrayList.indexOf_ok h]; rfl, h, rfl⟩
  | size =>
      cases hroom
      cases hon
      exact ⟨al, by rw [exec, ArrayList.size, h.len], h, rfl⟩

/-- **A call without a meaning**, or without memory, is refused. -/
theorem exec_exit (hA : A.Sound) (h : al.Rep A l room) (hcbs : al.cbs = cbs)
    (hbad : c.on cbs l = none ∨ c.room A l room = none) :
    ∃ text, exec A c al = .error (.exit text) := by
  subst hcbs
  have hbeyond : ∀ {β : Type} {f : α → β} {idx : ℕ}, l[idx]?.map f = none → l.length ≤ idx := fun hn =>
    List.getElem?_eq_none_iff.mp (Option.map_eq_none_iff.mp hn)
  cases c with
  | insert v idx =>
      have hidx : l.length < idx ∨ ArrayList.nextRoom A l room = none := hbad.imp_left fun hn => by
        rw [Call.on, ite_eq_right_iff] at hn
        exact not_le.mp fun hidx => nomatch hn hidx
      obtain ⟨text, hrun⟩ := ArrayList.insert_exit hA h v hidx
      exact ⟨text, by rw [exec, hrun]; rfl⟩
  | append v =>
      have hroom : l.length < l.length ∨ ArrayList.nextRoom A l room = none :=
        .inr (hbad.resolve_left (Option.some_ne_none _))
      obtain ⟨text, hrun⟩ := ArrayList.insert_exit hA h v hroom
      exact ⟨text, by rw [exec, ArrayList.append, h.len, hrun]; rfl⟩
  | remove idx =>
      have hidx := hbeyond (hbad.resolve_right (Option.some_ne_none _))
      obtain ⟨text, hrun⟩ := ArrayList.removeInternal_exit h hidx true
      exact ⟨text, by rw [exec, ArrayList.remove, hrun]; rfl⟩
  | removeElem elem =>
      have hon := hbad.resolve_right (Option.some_ne_none _)
      rw [Call.on] at hon
      rw [exec, ArrayList.removeElem, ArrayList.indexOf_ok h]
      cases hfind : l.findIdx? (al.cbs.leq elem) with
      | none => exact ⟨_, rfl⟩
      | some idx =>
          rw [hfind] at hon
          obtain ⟨text, hrun⟩ := ArrayList.removeInternal_exit h (hbeyond hon) true
          exact ⟨text, by simp only [ok_bind, hrun]; rfl⟩
  | take idx =>
      have hidx := hbeyond (hbad.resolve_right (Option.some_ne_none _))
      obtain ⟨text, hrun⟩ := ArrayList.get_exit h hidx
      exact ⟨text, by rw [exec, ArrayList.take, hrun]; rfl⟩
  | get idx =>
      have hidx := hbeyond (hbad.resolve_right (Option.some_ne_none _))
      obtain ⟨text, hrun⟩ := ArrayList.get_exit h hidx
      exact ⟨text, by rw [exec, hrun]; rfl⟩
  | indexOf v | contains elem | size => exact hbad.elim nofun nofun

/-! ### The account of the elements -/

theorem perm_eraseIdx {l : List α} {idx : ℕ} {x : α} (h : l[idx]? = some x) :
    (x :: l.eraseIdx idx).Perm l := by
  obtain ⟨hidx, rfl⟩ := List.getElem?_eq_some_iff.mp h
  exact List.getElem_cons_eraseIdx_perm hidx

/-- A call puts its element into the account, and none is lost. -/
theorem perm_of_on (hfree : cbs.lfree = true) (hon : c.on cbs l = some (a, freed, l')) :
    (c.put cbs ++ l).Perm (l' ++ (freed ++ a.handed.toList)) := by
  have hremoval : ∀ {idx}, removal cbs l idx = some (a, freed, l') →
      l.Perm (l' ++ (freed ++ a.handed.toList)) := by
    intro idx hr
    obtain ⟨x, hx, hr⟩ := Option.map_eq_some_iff.mp hr
    rw [hfree] at hr
    cases hr
    exact (perm_eraseIdx hx).symm.trans (List.perm_append_singleton _ _).symm
  cases c with
  | insert v idx =>
      rw [Call.on, Option.ite_none_right_eq_some] at hon
      obtain ⟨hidx, hon⟩ := hon
      cases hon
      simpa [Call.put, Answer.handed] using (List.perm_insertIdx (cbs.copy v) l hidx).symm
  | append v =>
      cases hon
      simpa [Call.put, Answer.handed] using (List.perm_append_singleton (cbs.copy v) l).symm
  | remove idx => exact hremoval hon
  | removeElem elem =>
      obtain ⟨idx, -, hon⟩ := Option.bind_eq_some_iff.mp hon
      exact hremoval hon
  | take idx =>
      obtain ⟨x, hx, hon⟩ := Option.map_eq_some_iff.mp hon
      cases hon
      exact (perm_eraseIdx hx).symm.trans (List.perm_append_singleton _ _).symm
  | get idx =>
      obtain ⟨x, -, hon⟩ := Option.map_eq_some_iff.mp hon
      cases hon
      simp [Call.put, Answer.handed]
  | indexOf v | contains elem | size =>
      cases hon
      simp [Call.put, Answer.handed]

/-- **No element is lost or told of twice** by a call. -/
theorem perm_step (hfree : cbs.lfree = true) {t t' : Account α}
    (h : accountStep A cbs c t = .ok t') : (c.put cbs ++ t.elements).Perm t'.elements := by
  rw [accountStep] at h
  split at h
  · rename_i answer freed l room hon hroom
    cases h
    have hp := Multiset.coe_eq_coe.mpr (perm_of_on hfree hon)
    have hanswer : [answer].filterMap Answer.handed = answer.handed.toList := by
      rw [List.filterMap_cons]
      cases answer.handed <;> rfl
    refine Multiset.coe_eq_coe.mp ?_
    simp only [Account.elements, List.filterMap_append, hanswer, ← Multiset.coe_add] at hp ⊢
    rw [← add_assoc, hp]
    abel
  · cases h

/-- … nor by a run of calls. -/
theorem perm_run (hfree : cbs.lfree = true) (calls : List (Call α)) : ∀ {t t' : Account α},
    runSteps (accountStep A cbs) calls t = .ok t' →
    (calls.flatMap (Call.put cbs) ++ t.elements).Perm t'.elements := by
  induction calls with
  | nil =>
      rintro t t' ⟨⟩
      exact .refl _
  | cons c calls ih =>
      intro t t' h
      rw [runSteps] at h
      cases hs : accountStep A cbs c t with
      | error e =>
          rw [hs] at h
          cases h
      | ok t₁ =>
          rw [hs] at h
          rw [List.flatMap_cons, List.append_assoc]
          have hfirst : (c.put cbs ++ (calls.flatMap (Call.put cbs) ++ t.elements)).Perm
              (calls.flatMap (Call.put cbs) ++ (c.put cbs ++ t.elements)) := by
            simp only [← List.append_assoc]
            exact List.perm_append_comm.append_right _
          exact hfirst.trans (((perm_step hfree hs).append_left _).trans (ih h))

/-! ### Runs -/

/-- The session holds the account. -/
structure Keeps (A : Allocator) (cbs : ListCbs α) (s : Session α) (t : Account α) : Prop where
  rep : s.list.Rep A t.list t.room
  cbs_eq : s.list.cbs = cbs
  freed : s.freed = t.freed
  answers : s.answers = t.answers

section Step

variable {s : Session α} {t t' : Account α} (hA : A.Sound) (hR : Keeps A cbs s t)
include hA hR

theorem step_ok (ht : accountStep A cbs c t = .ok t') : ∃ s', step A c s = .ok s' ∧ Keeps A cbs s' t' := by
  rw [accountStep] at ht
  split at ht
  · rename_i answer freed l room hon hroom
    cases ht
    obtain ⟨al', hrun, hrep, hcbs⟩ := exec_ok hA hR.rep hR.cbs_eq hon hroom
    refine ⟨⟨al', s.freed ++ freed, s.answers ++ [answer]⟩, ?_, hrep, hcbs, by rw [hR.freed],
      by rw [hR.answers]⟩
    rw [step, hrun]
    rfl
  · cases ht

theorem step_exit {e : Unit} (ht : accountStep A cbs c t = .error e) :
    ∃ e', step A c s = .error e' ∧ ∃ text, e' = .exit text := by
  have hbad : c.on cbs t.list = none ∨ c.room A t.list t.room = none := by
    rw [accountStep] at ht
    cases hon : c.on cbs t.list with
    | none => exact .inl rfl
    | some p =>
        cases hroom : c.room A t.list t.room with
        | none => exact .inr rfl
        | some room =>
            rw [hon, hroom] at ht
            cases ht
  obtain ⟨text, hrun⟩ := exec_exit hA hR.rep hR.cbs_eq hbad
  refine ⟨.exit text, ?_, text, rfl⟩
  rw [step, hrun]
  rfl

end Step

/-- **An array list keeps its elements** in every run of calls: it answers as the list, no access is outside
of its block or to a cell in which nothing was stored, and it exits where a call has no meaning on the list
or there is no memory.  A list that frees its elements frees each that was put in and not handed out once,
in the run or at its end. -/
theorem keeps_elements (cbs : ListCbs α) (hA : A.Sound) (hgrant : A.grants (initialAlloc * A.sizeofT))
    (calls : List (Call α)) :
    ∃ al, ArrayList.create A cbs = .ok al ∧
      (∀ t, runSteps (accountStep A cbs) calls Account.start = .ok t →
        ∃ al', runSteps (step A) calls ⟨al, [], []⟩ = .ok ⟨al', t.freed, t.answers⟩ ∧
          al'.Rep A t.list t.room ∧ al'.destroy = .ok (if cbs.lfree then t.list else []) ∧
          (cbs.lfree → (calls.flatMap (Call.put cbs)).Perm t.elements)) ∧
      ∀ e, runSteps (accountStep A cbs) calls Account.start = .error e →
        ∃ text, runSteps (step A) calls ⟨al, [], []⟩ = .error (.exit text) := by
  obtain ⟨al, hcreate, hrep, hcbs⟩ := ArrayList.create_ok cbs hA hgrant
  obtain ⟨hok, herror⟩ := runSteps_refines (R := Keeps A cbs)
    (fun _ _ c _ hR _ ht => step_ok (c := c) hA hR ht)
    (fun _ _ c _ hR _ ht => step_exit (c := c) hA hR ht) calls
    (s := ⟨al, [], []⟩) (t := Account.start) ⟨hrep, hcbs, rfl, rfl⟩
    (Along.of_forall calls (fun _ _ _ => trivial) _)
  refine ⟨al, hcreate, fun t ht => ?_, fun e he => ?_⟩
  · obtain ⟨⟨al', freed, answers⟩, hrun, hkeeps⟩ := hok t ht
    obtain ⟨hrep', hcbs', rfl, rfl⟩ := hkeeps
    refine ⟨al', hrun, hrep', ?_, fun hfree => ?_⟩
    · rw [ArrayList.destroy_ok hrep', hcbs']
    · simpa [Account.elements, Account.start] using perm_run hfree calls ht
  · obtain ⟨e', hrun, text, rfl⟩ := herror e he
    exact ⟨text, hrun⟩

/-- Pointers in a list that frees them. -/
theorem keeps_elements_pointers :
    ∃ al, ArrayList.create ⟨8, (· < 2 ^ 61)⟩ (⟨(· == ·), none, true⟩ : ListCbs ℕ) = .ok al ∧
      ∃ al', runSteps (step ⟨8, (· < 2 ^ 61)⟩) [.append 7, .insert 9 0, .insert 5 1, .indexOf 7, .take 1,
          .removeElem 9, .append 4, .contains 9, .get 0, .size] ⟨al, [], []⟩ =
          .ok ⟨al', [9], [.done, .done, .done, .index (some 2), .taken 5, .done, .done, .truth false,
            .elem 7, .size 2]⟩ ∧ al'.destroy = .ok [7, 4] := by
  obtain ⟨al, hcreate, hok, -⟩ := keeps_elements (A := ⟨8, (· < 2 ^ 61)⟩)
    (⟨(· == ·), none, true⟩ : ListCbs ℕ) ⟨by decide, fun _ h => of_decide_eq_true h⟩ (by decide)
    [.append 7, .insert 9 0, .insert 5 1, .indexOf 7, .take 1, .removeElem 9, .append 4, .contains 9,
      .get 0, .size]
  obtain ⟨al', hrun, -, hdestroy, -⟩ := hok ⟨[7, 4], 128, [9], [.done, .done, .done, .index (some 2),
    .taken 5, .done, .done, .truth false, .elem 7, .size 2]⟩ (by decide)
  exact ⟨al, hcreate, al', hrun, hdestroy⟩

end ArrayListRuns

end Goedb
