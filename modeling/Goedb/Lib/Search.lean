import Mathlib.Data.Finset.Card
import Mathlib.Data.List.Nodup
import Mathlib.Data.Option.Basic
import Mathlib.Logic.Relation

/-!
# Lib — searches in a graph

A search from `s` along edges: it takes a point from a queue, gives every successor without a level the
level after its own and notes the edge that led there, and queues these successors (`Search`).  Which
point is taken is a parameter, and so is the order in which the successors are found.

* `Forest`: the notes form a tree, and at the end exactly the points that are reached have levels.
* `Frontier`: if the first point of the queue is taken, the levels are the least numbers of steps
  (`Frontier.isDist`).
* `Ranked`: a point that has an edge to a point further down in the tree is the parent of that point
  (`Ranked.parent_of_ancestor`).
-/

namespace Lib

variable {α ε : Type*} {R R' : α → α → Prop} {s v w h : α} {k : ℕ}

/-! ### Steps -/

/-- `v` is reached from `s` in `k` steps. -/
inductive Hops (R : α → α → Prop) (s : α) : ℕ → α → Prop where
  | refl : Hops R s 0 s
  | step {k : ℕ} {v w : α} (hv : Hops R s k v) (hw : R v w) : Hops R s (k + 1) w

theorem exists_hops_iff : (∃ k, Hops R s k v) ↔ Relation.ReflTransGen R s v := by
  constructor
  · rintro ⟨k, hv⟩
    induction hv with
    | refl => exact .refl
    | step _ hw ih => exact ih.tail hw
  · intro hv
    induction hv with
    | refl => exact ⟨0, .refl⟩
    | tail _ hw ih =>
        obtain ⟨k, hk⟩ := ih
        exact ⟨k + 1, .step hk hw⟩

/-- The least number of steps from `s` to `v`. -/
def IsDist (R : α → α → Prop) (s v : α) (k : ℕ) : Prop := Hops R s k v ∧ ∀ j, Hops R s j v → k ≤ j

theorem Hops.mono (hR : ∀ v w, R v w → R' v w) (hv : Hops R s k v) : Hops R' s k v := by
  induction hv with
  | refl => exact .refl
  | step _ hw ih => exact .step ih (hR _ _ hw)

theorem isDist_congr (hR : ∀ v w, R v w ↔ R' v w) : IsDist R s v k ↔ IsDist R' s v k := by
  have h : ∀ j, Hops R s j v ↔ Hops R' s j v := fun j =>
    ⟨.mono fun v w => (hR v w).mp, .mono fun v w => (hR v w).mpr⟩
  rw [IsDist, IsDist, h]
  simp only [h]

/-! ### Searches -/

/-- What a search has found: the levels of points, and the point and the edge that led to each. -/
structure Found (α ε : Type*) where
  level : α → Option ℕ
  parent : α → Option (α × ε)

namespace Found

variable [DecidableEq α]

/-- Only the start is found. -/
def start (s : α) : Found α ε where
  level := Function.update (fun _ => none) s (some 0)
  parent _ := none

/-- The point `w` is found from `h`, which has the level `k`, along the edge `e`. -/
def add (t : Found α ε) (h : α) (k : ℕ) (e : ε) (w : α) : Found α ε where
  level := Function.update t.level w (some (k + 1))
  parent := Function.update t.parent w (some (h, e))

/-- The point before `v`, or `v` if there is none. -/
def up (t : Found α ε) (v : α) : α := (t.parent v).elim v Prod.fst

variable {t : Found α ε} {e : ε} {j : ℕ}

theorem level_add_of_ne (hne : v ≠ w) : (t.add h k e w).level v = t.level v :=
  Function.update_of_ne hne _ _

theorem level_add_self : (t.add h k e w).level w = some (k + 1) := Function.update_self ..

theorem parent_add_of_ne (hne : v ≠ w) : (t.add h k e w).parent v = t.parent v :=
  Function.update_of_ne hne _ _

theorem parent_add_self : (t.add h k e w).parent w = some (h, e) := Function.update_self ..

/-- Levels that are given are kept. -/
theorem level_add (hw : t.level w = none) (hv : t.level v = some j) :
    (t.add h k e w).level v = some j := by
  rw [level_add_of_ne, hv]
  rintro rfl
  rw [hw] at hv
  cases hv

theorem isSome_level_add (hw : t.level w = none) (hv : (t.level v).isSome) :
    ((t.add h k e w).level v).isSome := by
  obtain ⟨j, hj⟩ := Option.isSome_iff_exists.mp hv
  rw [level_add hw hj]
  rfl

theorem level_add_eq_some (hv : (t.add h k e w).level v = some j) :
    v = w ∧ j = k + 1 ∨ v ≠ w ∧ t.level v = some j := by
  by_cases hvw : v = w
  · subst hvw
    rw [level_add_self] at hv
    cases hv
    exact .inl ⟨rfl, rfl⟩
  · rw [level_add_of_ne hvw] at hv
    exact .inr ⟨hvw, hv⟩

theorem level_start_self : (start s : Found α ε).level s = some 0 := by
  simp only [start, Function.update_self]

theorem level_start_of_ne (hne : v ≠ s) : (start s : Found α ε).level v = none := by
  simp only [start, Function.update_of_ne hne]

theorem level_start_eq_some (hv : (start s : Found α ε).level v = some j) : v = s ∧ j = 0 := by
  by_cases hvs : v = s
  · subst hvs
    rw [level_start_self] at hv
    cases hv
    exact ⟨rfl, rfl⟩
  · rw [level_start_of_ne hvs] at hv
    cases hv

end Found

/-- The first point of the queue is taken. -/
def TakeFirst (queue : List α) (h : α) (rest : List α) : Prop := queue = h :: rest

/-- The last point of the queue is taken. -/
def TakeLast (queue : List α) (h : α) (rest : List α) : Prop := queue = rest ++ [h]

/-- The states of a search: what is found, the point whose successors are being found, and the queue. -/
inductive Search [DecidableEq α] (E : α → ε → α → Prop) (Take : List α → α → List α → Prop) (s : α) :
    Found α ε → Option α → List α → Prop where
  | start : Search E Take s (.start s) none [s]
  | take {t : Found α ε} {queue rest : List α} {h : α} (hs : Search E Take s t none queue)
      (ht : Take queue h rest) : Search E Take s t (some h) rest
  | add {t : Found α ε} {queue : List α} {h w : α} {k : ℕ} {e : ε}
      (hs : Search E Take s t (some h) queue) (hk : t.level h = some k) (hw : t.level w = none)
      (he : E h e w) : Search E Take s (t.add h k e w) (some h) (queue ++ [w])
  | done {t : Found α ε} {queue : List α} {h : α} (hs : Search E Take s t (some h) queue)
      (hd : ∀ e w, E h e w → (t.level w).isSome) : Search E Take s t none queue

/-- What is taken from the queue is one of its points. -/
def TakesOne (Take : List α → α → List α → Prop) : Prop :=
  ∀ queue h rest, Take queue h rest → queue.Perm (h :: rest)

theorem takesOne_first : TakesOne (@TakeFirst α) := by
  rintro queue h rest rfl
  exact .refl _

theorem takesOne_last : TakesOne (@TakeLast α) := by
  rintro queue h rest rfl
  exact List.perm_append_singleton h rest

variable {E : α → ε → α → Prop} {Take : List α → α → List α → Prop} {t : Found α ε}
  {current : Option α} {queue : List α}

/-! ### The tree -/

/-- The points found form a tree, and the points that are not `pending` are done. -/
structure Forest (E : α → ε → α → Prop) (s : α) (t : Found α ε) (pending : List α) : Prop where
  start : t.level s = some 0
  root : t.parent s = none
  found : ∀ v ∈ pending, (t.level v).isSome
  nodup : pending.Nodup
  isSome_parent : ∀ v, v ≠ s → ((t.parent v).isSome ↔ (t.level v).isSome)
  edge : ∀ v u e, t.parent v = some (u, e) → E u e v ∧
    ∃ k, t.level u = some k ∧ t.level v = some (k + 1)
  closed : ∀ v, (t.level v).isSome → v ∉ pending → ∀ e w, E v e w → (t.level w).isSome

namespace Forest

theorem congr {pending pending' : List α} (hF : Forest E s t pending)
    (hp : pending.Perm pending') : Forest E s t pending' where
  start := hF.start
  root := hF.root
  found v hv := hF.found v (hp.mem_iff.mpr hv)
  nodup := hp.nodup_iff.mp hF.nodup
  isSome_parent := hF.isSome_parent
  edge := hF.edge
  closed v hv hn := hF.closed v hv fun hm => hn (hp.mem_iff.mp hm)

theorem add [DecidableEq α] {pending : List α} {e : ε} (hF : Forest E s t pending) (hk : t.level h = some k)
    (hw : t.level w = none) (he : E h e w) : Forest E s (t.add h k e w) (pending ++ [w]) := by
  have hnew : ∀ {v}, (t.level v).isSome → v ≠ w := by
    rintro v hv rfl
    rw [hw] at hv
    cases hv
  have hsw : s ≠ w := hnew (by rw [hF.start]; rfl)
  refine ⟨Found.level_add hw hF.start, ?_, fun v hv => ?_, ?_, fun v hvs => ?_, fun v u e' hv => ?_,
    fun v hv hn e' x hx => ?_⟩
  · rw [Found.parent_add_of_ne hsw, hF.root]
  · rcases List.mem_append.mp hv with hv | hv
    · exact Found.isSome_level_add hw (hF.found v hv)
    · rw [List.mem_singleton.mp hv, Found.level_add_self]
      rfl
  · refine List.nodup_append.mpr ⟨hF.nodup, List.nodup_singleton w, fun v hv x hx => ?_⟩
    rw [List.mem_singleton.mp hx]
    exact hnew (hF.found v hv)
  · by_cases hvw : v = w
    · rw [hvw, Found.parent_add_self, Found.level_add_self]
      exact Iff.rfl
    · rw [Found.parent_add_of_ne hvw, Found.level_add_of_ne hvw]
      exact hF.isSome_parent v hvs
  · by_cases hvw : v = w
    · rw [hvw, Found.parent_add_self] at hv
      cases hv
      subst hvw
      exact ⟨he, k, Found.level_add hw hk, Found.level_add_self⟩
    · rw [Found.parent_add_of_ne hvw] at hv
      obtain ⟨hE, j, hj, hj'⟩ := hF.edge v u e' hv
      exact ⟨hE, j, Found.level_add hw hj, Found.level_add hw hj'⟩
  · obtain ⟨j, hj⟩ := Option.isSome_iff_exists.mp hv
    rcases Found.level_add_eq_some hj with ⟨rfl, -⟩ | ⟨-, hj⟩
    · exact absurd (List.mem_append_right _ (List.mem_singleton.mpr rfl)) hn
    · exact Found.isSome_level_add hw (hF.closed v (Option.isSome_of_eq_some hj)
        (fun hm => hn (List.mem_append_left _ hm)) e' x hx)

theorem done {pending : List α} (hF : Forest E s t (h :: pending))
    (hd : ∀ e w, E h e w → (t.level w).isSome) : Forest E s t pending where
  start := hF.start
  root := hF.root
  found v hv := hF.found v (List.mem_cons_of_mem _ hv)
  nodup := (List.nodup_cons.mp hF.nodup).2
  isSome_parent := hF.isSome_parent
  edge := hF.edge
  closed v hv hn e w hw := by
    by_cases hvh : v = h
    · subst hvh
      exact hd e w hw
    · exact hF.closed v hv (fun hm => (List.mem_cons.mp hm).elim hvh hn) e w hw

end Forest

/-- **Every search** finds a tree. -/
theorem Search.forest [DecidableEq α] (hT : TakesOne Take) (hs : Search E Take s t current queue) :
    Forest E s t (current.toList ++ queue) := by
  induction hs with
  | start =>
      refine ⟨Found.level_start_self, rfl, fun v hv => ?_, List.nodup_singleton s, fun v hvs => ?_,
        ?_, fun v hv hn => ?_⟩
      · rw [List.mem_singleton.mp hv, Found.level_start_self]
        rfl
      · rw [Found.level_start_of_ne hvs]
        exact Iff.rfl
      · rintro v u e ⟨⟩
      · obtain ⟨j, hj⟩ := Option.isSome_iff_exists.mp hv
        exact absurd (List.mem_singleton.mpr (Found.level_start_eq_some hj).1) hn
  | take _ ht ih => exact ih.congr (hT _ _ _ ht)
  | add _ hk hw he ih => exact ih.add hk hw he
  | done _ hd ih => exact ih.done hd

namespace Forest

/-- **At the end** exactly the points that are reached have levels. -/
theorem isSome_level_iff (hF : Forest E s t []) :
    (t.level v).isSome ↔ Relation.ReflTransGen (fun v w => ∃ e, E v e w) s v := by
  rw [← exists_hops_iff]
  constructor
  · intro hv
    obtain ⟨k, hk⟩ := Option.isSome_iff_exists.mp hv
    clear hv
    induction k generalizing v with
    | zero =>
        by_cases hvs : v = s
        · subst hvs
          exact ⟨0, .refl⟩
        · obtain ⟨⟨u, e⟩, hp⟩ := Option.isSome_iff_exists.mp
            ((hF.isSome_parent v hvs).mpr (Option.isSome_of_eq_some hk))
          obtain ⟨-, j, -, hj⟩ := hF.edge v u e hp
          rw [hk] at hj
          cases hj
    | succ k ih =>
        have hvs : v ≠ s := by
          rintro rfl
          rw [hF.start] at hk
          cases hk
        obtain ⟨⟨u, e⟩, hp⟩ := Option.isSome_iff_exists.mp
          ((hF.isSome_parent v hvs).mpr (Option.isSome_of_eq_some hk))
        obtain ⟨hE, j, hj, hj'⟩ := hF.edge v u e hp
        rw [hk] at hj'
        cases hj'
        obtain ⟨i, hi⟩ := ih hj
        exact ⟨i + 1, .step hi ⟨e, hE⟩⟩
  · rintro ⟨k, hv⟩
    induction hv with
    | refl => exact Option.isSome_of_eq_some hF.start
    | step _ hw ih =>
        obtain ⟨e, he⟩ := hw
        exact hF.closed _ ih List.not_mem_nil e _ he

/-- **Going up** from a point ends at the start, after as many steps as its level says. -/
theorem iterate_up {pending : List α} (hF : Forest E s t pending) :
    ∀ {k : ℕ} {v : α}, t.level v = some k → t.up^[k] v = s := by
  intro k
  induction k with
  | zero =>
      intro v hk
      by_contra hvs
      obtain ⟨⟨u, e⟩, hp⟩ := Option.isSome_iff_exists.mp
        ((hF.isSome_parent v hvs).mpr (Option.isSome_of_eq_some hk))
      obtain ⟨-, j, -, hj⟩ := hF.edge v u e hp
      rw [hk] at hj
      cases hj
  | succ k ih =>
      intro v hk
      have hvs : v ≠ s := by
        rintro rfl
        rw [hF.start] at hk
        cases hk
      obtain ⟨⟨u, e⟩, hp⟩ := Option.isSome_iff_exists.mp
        ((hF.isSome_parent v hvs).mpr (Option.isSome_of_eq_some hk))
      obtain ⟨-, j, hj, hj'⟩ := hF.edge v u e hp
      rw [hk] at hj'
      cases hj'
      rw [Function.iterate_succ_apply, Found.up, hp]
      exact ih hj

/-- Going up leads one level up at each step. -/
theorem level_iterate_up {pending : List α} (hF : Forest E s t pending) {j : ℕ} :
    ∀ {k : ℕ} {v : α}, j ≤ k → t.level v = some k → t.level (t.up^[j] v) = some (k - j) := by
  induction j with
  | zero => exact fun _ hk => hk
  | succ j ih =>
      intro k v hjk hk
      have hvs : v ≠ s := by
        rintro rfl
        rw [hF.start] at hk
        cases hk
        exact absurd hjk (Nat.not_succ_le_zero j)
      obtain ⟨⟨u, e⟩, hp⟩ := Option.isSome_iff_exists.mp
        ((hF.isSome_parent v hvs).mpr (Option.isSome_of_eq_some hk))
      obtain ⟨-, i, hi, hi'⟩ := hF.edge v u e hp
      rw [hk] at hi'
      cases hi'
      rw [Function.iterate_succ_apply, Found.up, hp, Nat.succ_sub_succ]
      exact ih (Nat.le_of_succ_le_succ hjk) hi

theorem isSome_level_up (hF : Forest E s t []) (hv : (t.level v).isSome) :
    (t.level (t.up v)).isSome := by
  rw [Found.up]
  cases hp : t.parent v with
  | none => exact hv
  | some p =>
      obtain ⟨-, k, hk, -⟩ := hF.edge v p.1 p.2 hp
      exact Option.isSome_of_eq_some hk

theorem isSome_level_iterate_up (hF : Forest E s t []) (j : ℕ) (hv : (t.level v).isSome) :
    (t.level (t.up^[j] v)).isSome := by
  induction j generalizing v with
  | zero => exact hv
  | succ j ih =>
      rw [Function.iterate_succ_apply]
      exact ih (hF.isSome_level_up hv)

end Forest

/-! ### How far a search goes -/

/-- The points of `U` without a level. -/
def Found.rest (t : Found α ε) (U : Finset α) : Finset α := U.filter (t.level · = none)

theorem Found.card_rest_add [DecidableEq α] {U : Finset α} {e : ε} (hU : w ∈ U) (hw : t.level w = none) :
    ((t.add h k e w).rest U).card + 1 = (t.rest U).card := by
  have herase : (t.add h k e w).rest U = (t.rest U).erase w := by
    ext v
    simp only [Found.rest, Finset.mem_filter, Finset.mem_erase]
    by_cases hvw : v = w
    · subst hvw
      simp [Found.level_add_self]
    · simp [Found.level_add_of_ne hvw, hvw]
  have hmem : w ∈ t.rest U := Finset.mem_filter.mpr ⟨hU, hw⟩
  rw [herase, Finset.card_erase_add_one hmem]

/-- In a set that no edge leaves, the levels are less than the number of points. -/
theorem Search.room [DecidableEq α] {U : Finset α} (hsU : s ∈ U) (hE : ∀ v e w, v ∈ U → E v e w → w ∈ U)
    (hs : Search E Take s t current queue) : (∀ v, (t.level v).isSome → v ∈ U) ∧
      ∀ v j, t.level v = some j → j + (t.rest U).card < U.card := by
  induction hs with
  | start =>
      refine ⟨fun v hv => ?_, fun v j hj => ?_⟩
      · obtain ⟨j, hj⟩ := Option.isSome_iff_exists.mp hv
        rwa [(Found.level_start_eq_some hj).1]
      · rw [(Found.level_start_eq_some hj).2, Nat.zero_add]
        refine Finset.card_lt_card (Finset.filter_ssubset.mpr ⟨s, hsU, ?_⟩)
        rw [Found.level_start_self]
        exact Option.some_ne_none 0
  | take _ _ ih => exact ih
  | @add t queue h w k e _ hk hw he ih =>
      obtain ⟨hin, hlt⟩ := ih
      have hwU := hE h e w (hin h (Option.isSome_of_eq_some hk)) he
      have hcard : ((t.add h k e w).rest U).card + 1 = (t.rest U).card := Found.card_rest_add hwU hw
      refine ⟨fun v hv => ?_, fun v j hj => ?_⟩
      · obtain ⟨j, hj⟩ := Option.isSome_iff_exists.mp hv
        rcases Found.level_add_eq_some hj with ⟨rfl, -⟩ | ⟨-, hj⟩
        · exact hwU
        · exact hin v (Option.isSome_of_eq_some hj)
      · rcases Found.level_add_eq_some hj with ⟨-, rfl⟩ | ⟨-, hj⟩
        · have := hlt _ _ hk
          omega
        · have := hlt v j hj
          omega
  | done _ _ ih => exact ih

/-! ### The first point is taken -/

/-- The levels are right as far as the search went, and `queue` is still to be expanded. -/
structure Frontier (R : α → α → Prop) (s : α) (level : α → Option ℕ) (queue : List α) : Prop where
  start : level s = some 0
  sound : ∀ v k, level v = some k → Hops R s k v
  labelled : ∀ v ∈ queue, (level v).isSome
  nodup : queue.Nodup
  sorted : queue.Pairwise fun v w => ∀ i j, level v = some i → level w = some j → i ≤ j
  near : ∀ v k w i, level v = some k → w ∈ queue → level w = some i → k ≤ i + 1
  closed : ∀ v k, level v = some k → v ∉ queue → ∀ w, R v w → ∃ j, level w = some j ∧ j ≤ k + 1

namespace Frontier

variable {level : α → Option ℕ}

/-- The search begins. -/
theorem singleton [DecidableEq α] (R : α → α → Prop) (s : α) :
    Frontier R s (Function.update (fun _ => none) s (some 0)) [s] := by
  have honly : ∀ v k, Function.update (fun _ => none) s (some 0) v = some k → v = s ∧ k = 0 := by
    intro v k hv
    by_cases hvs : v = s
    · subst hvs
      rw [Function.update_self] at hv
      cases hv
      exact ⟨rfl, rfl⟩
    · rw [Function.update_of_ne hvs] at hv
      cases hv
  refine ⟨Function.update_self .., fun v k hv => ?_, fun v hv => ?_, List.nodup_singleton s,
    List.pairwise_singleton _ s, fun v k w i hv _ _ => ?_, fun v k hv hn => ?_⟩
  · obtain ⟨rfl, rfl⟩ := honly v k hv
    exact .refl
  · rw [List.mem_singleton.mp hv, Function.update_self]
    rfl
  · rw [(honly v k hv).2]
    exact Nat.zero_le _
  · exact absurd (List.mem_singleton.mpr (honly v k hv).1) hn

/-- **A successor** of the point that is expanded gets its level, and is queued. -/
theorem extend [DecidableEq α] (hF : Frontier R s level (h :: queue)) (hk : level h = some k)
    (hw : level w = none) (hR : R h w) :
    Frontier R s (Function.update level w (some (k + 1))) (h :: (queue ++ [w])) := by
  have hold : ∀ {v j}, level v = some j → Function.update level w (some (k + 1)) v = some j := by
    intro v j hv
    rw [Function.update_of_ne, hv]
    rintro rfl
    rw [hw] at hv
    cases hv
  have hcases : ∀ {v j}, Function.update level w (some (k + 1)) v = some j →
      v = w ∧ j = k + 1 ∨ v ≠ w ∧ level v = some j := by
    intro v j hv
    by_cases hvw : v = w
    · subst hvw
      rw [Function.update_self] at hv
      cases hv
      exact .inl ⟨rfl, rfl⟩
    · rw [Function.update_of_ne hvw] at hv
      exact .inr ⟨hvw, hv⟩
  have hnew : w ∉ h :: queue := by
    intro hmem
    have := hF.labelled w hmem
    rw [hw] at this
    cases this
  -- the levels in the queue are that of its head or one more
  have hhead : ∀ v ∈ h :: queue, ∀ i, level v = some i → k ≤ i := by
    intro v hv i hi
    rcases List.mem_cons.mp hv with rfl | hv
    · rw [hk] at hi
      cases hi
      exact Nat.le_refl _
    · exact (List.pairwise_cons.mp hF.sorted).1 v hv k i hk hi
  have hmem : ∀ {v}, v ∈ h :: (queue ++ [w]) → v ≠ w → v ∈ h :: queue := by
    intro v hv hne
    simp only [List.mem_cons, List.mem_append, List.not_mem_nil, or_false] at hv ⊢
    rcases hv with rfl | hv | rfl
    · exact .inl rfl
    · exact .inr hv
    · exact absurd rfl hne
  rw [← List.cons_append] at *
  refine ⟨hold hF.start, fun v j hv => ?_, fun v hv => ?_, ?_, ?_, fun v j x i hv hx hi => ?_,
    fun v j hv hn x hx => ?_⟩
  · rcases hcases hv with ⟨rfl, rfl⟩ | ⟨-, hv⟩
    · exact .step (hF.sound h k hk) hR
    · exact hF.sound v j hv
  · by_cases hvw : v = w
    · rw [hvw, Function.update_self]
      rfl
    · rw [Function.update_of_ne hvw]
      exact hF.labelled v (hmem hv hvw)
  · exact List.nodup_append.mpr ⟨hF.nodup, List.nodup_singleton w, fun v hv x hx => by
      rw [List.mem_singleton.mp hx]
      rintro rfl
      exact hnew hv⟩
  · refine List.pairwise_append.mpr ⟨?_, List.pairwise_singleton _ w, fun v hv x hx i j hi hj => ?_⟩
    · refine hF.sorted.imp_of_mem fun {v x} hv hx hvx i j hi hj => ?_
      have hne : ∀ {y}, y ∈ h :: queue → y ≠ w := by
        rintro y hy rfl
        exact hnew hy
      rw [Function.update_of_ne (hne hv)] at hi
      rw [Function.update_of_ne (hne hx)] at hj
      exact hvx i j hi hj
    · rw [List.mem_singleton.mp hx, Function.update_self] at hj
      cases hj
      rcases hcases hi with ⟨rfl, -⟩ | ⟨-, hi⟩
      · exact absurd hv hnew
      · exact hF.near v i h k hi List.mem_cons_self hk
  · -- every level is at most that of the head and one more
    have hle : j ≤ k + 1 := by
      rcases hcases hv with ⟨rfl, rfl⟩ | ⟨-, hv⟩
      · exact Nat.le_refl _
      · exact hF.near v j h k hv List.mem_cons_self hk
    rcases hcases hi with ⟨rfl, rfl⟩ | ⟨hne, hi⟩
    · exact Nat.le_succ_of_le hle
    · exact Nat.le_trans hle (Nat.succ_le_succ (hhead x (hmem hx hne) i hi))
  · rcases hcases hv with ⟨rfl, -⟩ | ⟨hne, hv⟩
    · exact absurd (List.mem_append_right _ (List.mem_singleton.mpr rfl)) hn
    · obtain ⟨i, hi, hle⟩ := hF.closed v j hv (fun hm => hn (List.mem_append_left _ hm)) x hx
      exact ⟨i, hold hi, hle⟩

/-- **The point is expanded** once its successors have levels. -/
theorem pop (hF : Frontier R s level (h :: queue)) (hR : ∀ w, R h w → (level w).isSome) :
    Frontier R s level queue where
  start := hF.start
  sound := hF.sound
  labelled v hv := hF.labelled v (List.mem_cons_of_mem _ hv)
  nodup := (List.nodup_cons.mp hF.nodup).2
  sorted := (List.pairwise_cons.mp hF.sorted).2
  near v k w i hv hw hi := hF.near v k w i hv (List.mem_cons_of_mem _ hw) hi
  closed v k hv hn w hw := by
    by_cases hvh : v = h
    · subst hvh
      obtain ⟨j, hj⟩ := Option.isSome_iff_exists.mp (hR w hw)
      exact ⟨j, hj, hF.near w j v k hj List.mem_cons_self hv⟩
    · exact hF.closed v k hv (fun hm => (List.mem_cons.mp hm).elim hvh hn) w hw

/-- **The levels of a search that is done** are the least numbers of steps. -/
theorem isDist (hF : Frontier R s level []) : level v = some k ↔ IsDist R s v k := by
  have hreach : ∀ j v, Hops R s j v → ∃ i, level v = some i ∧ i ≤ j := by
    intro j v hv
    induction hv with
    | refl => exact ⟨0, hF.start, Nat.le_refl 0⟩
    | step _ hw ih =>
        obtain ⟨i, hi, hle⟩ := ih
        obtain ⟨i', hi', hle'⟩ := hF.closed _ i hi List.not_mem_nil _ hw
        exact ⟨i', hi', Nat.le_trans hle' (Nat.succ_le_succ hle)⟩
  constructor
  · intro hk
    refine ⟨hF.sound v k hk, fun j hj => ?_⟩
    obtain ⟨i, hi, hle⟩ := hreach j v hj
    rw [hk] at hi
    cases hi
    exact hle
  · rintro ⟨hv, hmin⟩
    obtain ⟨i, hi, hle⟩ := hreach k v hv
    rw [hi, Nat.le_antisymm hle (hmin i (hF.sound v i hi))]

end Frontier

/-- Two searches that are done have the same levels. -/
theorem Frontier.level_eq {level level' : α → Option ℕ} (hF : Frontier R s level [])
    (hF' : Frontier R' s level' []) (hR : ∀ v w, R v w ↔ R' v w) : level = level' := by
  funext v
  refine Option.ext fun k => ?_
  rw [hF.isDist, hF'.isDist, isDist_congr hR]

/-- **A search that takes the first point** keeps the levels right. -/
theorem Search.frontier [DecidableEq α] (hs : Search E TakeFirst s t current queue) :
    Frontier (fun v w => ∃ e, E v e w) s t.level (current.toList ++ queue) := by
  induction hs with
  | start => exact .singleton _ s
  | take _ ht ih =>
      cases ht
      exact ih
  | add _ hk hw he ih => exact ih.extend hk hw ⟨_, he⟩
  | done _ hd ih =>
      refine ih.pop fun w hw => ?_
      obtain ⟨e, he⟩ := hw
      exact hd e w he

/-! ### The order in which points are taken -/

/-- The points that are found and not queued were taken in the order of their ranks, all below
`bound`.  The parent of a point was taken before the point, and not after any other point that has an
edge to it. -/
structure Ranked (E : α → ε → α → Prop) (s : α) (t : Found α ε) (current : Option α)
    (queue : List α) (rank : α → ℕ) (bound : ℕ) : Prop where
  lt : ∀ v, (t.level v).isSome → v ∉ queue → rank v < bound
  current_max : ∀ h, current = some h → ∀ v, (t.level v).isSome → v ∉ queue → rank v ≤ rank h
  taken : ∀ v u e, t.parent v = some (u, e) → (t.level u).isSome ∧ u ∉ queue
  parent_lt : ∀ v u e, t.parent v = some (u, e) → v ∉ queue → rank u < rank v
  first : ∀ v e w, (t.level v).isSome → v ∉ queue → current ≠ some v → E v e w → w ≠ s →
    ∃ u e', t.parent w = some (u, e') ∧ rank u ≤ rank v

namespace Ranked

variable [DecidableEq α] {rank : α → ℕ} {bound : ℕ}

theorem start (E : α → ε → α → Prop) (s : α) :
    Ranked E s (.start s) none [s] (fun _ => 0) 0 := by
  have hin : ∀ v, ((Found.start s : Found α ε).level v).isSome → v ∈ [s] := by
    intro v hv
    obtain ⟨j, hj⟩ := Option.isSome_iff_exists.mp hv
    exact List.mem_singleton.mpr (Found.level_start_eq_some hj).1
  refine ⟨fun v hv hn => absurd (hin v hv) hn, ?_, ?_, ?_,
    fun v e w hv hn => absurd (hin v hv) hn⟩
  · rintro h ⟨⟩
  · rintro v u e ⟨⟩
  · rintro v u e ⟨⟩

/-- The point that is taken gets the next rank. -/
theorem take (hR : Ranked E s t none queue rank bound) {rest : List α}
    (hperm : queue.Perm (h :: rest)) :
    Ranked E s t (some h) rest (Function.update rank h bound) (bound + 1) := by
  have hh : h ∈ queue := hperm.mem_iff.mpr List.mem_cons_self
  have hout : ∀ {v}, v ∉ rest → v ≠ h → v ∉ queue := by
    intro v hn hvh hm
    exact (List.mem_cons.mp (hperm.mem_iff.mp hm)).elim hvh hn
  have hrest : ∀ {v}, v ∉ queue → v ∉ rest := fun hn hm =>
    hn (hperm.mem_iff.mpr (List.mem_cons_of_mem _ hm))
  refine ⟨fun v hv hn => ?_, fun h' he v hv hn => ?_, fun v u e hv => ?_, fun v u e hv hn => ?_,
    fun v e w hv hn hc he hws => ?_⟩
  · by_cases hvh : v = h
    · rw [hvh, Function.update_self]
      exact Nat.lt_succ_self _
    · rw [Function.update_of_ne hvh]
      exact Nat.lt_succ_of_lt (hR.lt v hv (hout hn hvh))
  · cases he
    rw [Function.update_self]
    by_cases hvh : v = h
    · rw [hvh, Function.update_self]
    · rw [Function.update_of_ne hvh]
      exact Nat.le_of_lt (hR.lt v hv (hout hn hvh))
  · exact ⟨(hR.taken v u e hv).1, hrest (hR.taken v u e hv).2⟩
  · obtain ⟨hu, huq⟩ := hR.taken v u e hv
    have huh : u ≠ h := fun e => huq (e ▸ hh)
    rw [Function.update_of_ne huh]
    by_cases hvh : v = h
    · rw [hvh, Function.update_self]
      exact hR.lt u hu huq
    · rw [Function.update_of_ne hvh]
      exact hR.parent_lt v u e hv (hout hn hvh)
  · have hvh : v ≠ h := fun e => hc (e ▸ rfl)
    obtain ⟨u, e', hp, hle⟩ := hR.first v e w hv (hout hn hvh) (by simp) he hws
    have huh : u ≠ h := fun e => (hR.taken w u e' hp).2 (e ▸ hh)
    refine ⟨u, e', hp, ?_⟩
    rw [Function.update_of_ne huh, Function.update_of_ne hvh]
    exact hle

/-- A point that is found waits in the queue, so that it has no rank yet. -/
theorem add (hR : Ranked E s t (some h) queue rank bound) (hF : Forest E s t (h :: queue)) {e : ε}
    (hk : t.level h = some k) (hw : t.level w = none) :
    Ranked E s (t.add h k e w) (some h) (queue ++ [w]) rank bound := by
  have hold : ∀ {v}, ((t.add h k e w).level v).isSome → v ∉ queue ++ [w] →
      (t.level v).isSome ∧ v ∉ queue := by
    intro v hv hn
    obtain ⟨j, hj⟩ := Option.isSome_iff_exists.mp hv
    rcases Found.level_add_eq_some hj with ⟨rfl, -⟩ | ⟨-, hj⟩
    · exact absurd (List.mem_append_right _ (List.mem_singleton.mpr rfl)) hn
    · exact ⟨Option.isSome_of_eq_some hj, fun hm => hn (List.mem_append_left _ hm)⟩
  have hin : ∀ {u}, (t.level u).isSome → u ∉ queue → u ∉ queue ++ [w] := by
    intro u hu hn hm
    rcases List.mem_append.mp hm with hm | hm
    · exact hn hm
    · rw [List.mem_singleton.mp hm, hw] at hu
      cases hu
  have hh : h ∉ queue := (List.nodup_cons.mp hF.nodup).1
  have hhs : (t.level h).isSome := Option.isSome_of_eq_some hk
  -- a point without a level has no parent yet
  have hpw : ∀ u e', t.parent w ≠ some (u, e') := by
    intro u e' hp
    obtain ⟨-, j, -, hj⟩ := hF.edge w u e' hp
    rw [hw] at hj
    cases hj
  refine ⟨fun v hv hn => hR.lt v (hold hv hn).1 (hold hv hn).2,
    fun h' he' v hv hn => hR.current_max h' he' v (hold hv hn).1 (hold hv hn).2,
    fun v u e' hv => ?_, fun v u e' hv hn => ?_, fun v e' x hv hn hc hx hxs => ?_⟩
  · by_cases hvw : v = w
    · rw [hvw, Found.parent_add_self] at hv
      cases hv
      exact ⟨Found.isSome_level_add hw hhs, hin hhs hh⟩
    · rw [Found.parent_add_of_ne hvw] at hv
      obtain ⟨hu, huq⟩ := hR.taken v u e' hv
      exact ⟨Found.isSome_level_add hw hu, hin hu huq⟩
  · by_cases hvw : v = w
    · exact absurd (List.mem_append_right _ (List.mem_singleton.mpr hvw)) hn
    · rw [Found.parent_add_of_ne hvw] at hv
      exact hR.parent_lt v u e' hv fun hm => hn (List.mem_append_left _ hm)
  · obtain ⟨u, e'', hp, hle⟩ := hR.first v e' x (hold hv hn).1 (hold hv hn).2 hc hx hxs
    refine ⟨u, e'', ?_, hle⟩
    rw [Found.parent_add_of_ne, hp]
    rintro rfl
    exact hpw u e'' hp

/-- What the current point has edges to has a parent that was not taken after it. -/
theorem done (hR : Ranked E s t (some h) queue rank bound) (hF : Forest E s t (h :: queue))
    (hd : ∀ e w, E h e w → (t.level w).isSome) : Ranked E s t none queue rank bound := by
  refine ⟨hR.lt, ?_, hR.taken, hR.parent_lt, fun v e w hv hn _ he hws => ?_⟩
  · rintro h' ⟨⟩
  · by_cases hvh : v = h
    · subst hvh
      obtain ⟨⟨u, e'⟩, hp⟩ := Option.isSome_iff_exists.mp
        ((hF.isSome_parent w hws).mpr (hd e w he))
      obtain ⟨hu, huq⟩ := hR.taken w u e' hp
      exact ⟨u, e', hp, hR.current_max v rfl u hu huq⟩
    · exact hR.first v e w hv hn (fun e => hvh (Option.some.inj e).symm) he hws

end Ranked

/-- **Every search** takes its points in some order. -/
theorem Search.ranked [DecidableEq α] (hT : TakesOne Take)
    (hs : Search E Take s t current queue) : ∃ rank bound, Ranked E s t current queue rank bound := by
  induction hs with
  | start => exact ⟨_, _, .start E s⟩
  | take hs ht ih =>
      obtain ⟨rank, bound, hR⟩ := ih
      exact ⟨_, _, hR.take (hT _ _ _ ht)⟩
  | add hs hk hw he ih =>
      obtain ⟨rank, bound, hR⟩ := ih
      exact ⟨rank, bound, hR.add (hs.forest hT) hk hw⟩
  | done hs hd ih =>
      obtain ⟨rank, bound, hR⟩ := ih
      exact ⟨rank, bound, hR.done (hs.forest hT) hd⟩

/-- The ranks fall on the way up. -/
theorem Ranked.rank_iterate_up {rank : α → ℕ} {bound : ℕ} (hR : Ranked E s t none [] rank bound)
    (j : ℕ) (v : α) : rank (t.up^[j] v) ≤ rank v := by
  induction j generalizing v with
  | zero => exact Nat.le_refl _
  | succ j ih =>
      rw [Function.iterate_succ_apply]
      refine Nat.le_trans (ih _) ?_
      rw [Found.up]
      cases hp : t.parent v with
      | none => exact Nat.le_refl _
      | some p => exact Nat.le_of_lt (hR.parent_lt v p.1 p.2 hp List.not_mem_nil)

/-- **An edge to a point further down in the tree** leads to a child. -/
theorem Ranked.parent_of_ancestor {rank : α → ℕ} {bound j : ℕ} {e : ε}
    (hR : Ranked E s t none [] rank bound) (hF : Forest E s t []) (hw : (t.level w).isSome)
    (hne : v ≠ w) (hup : t.up^[j] w = v) (he : E v e w) : ∃ e', t.parent w = some (v, e') := by
  have hws : w ≠ s := by
    rintro rfl
    have hfix : t.up w = w := by rw [Found.up, hF.root]; rfl
    rw [Function.iterate_fixed hfix] at hup
    exact hne hup.symm
  obtain ⟨j, rfl⟩ : ∃ i, j = i + 1 := by
    cases j with
    | zero => exact absurd hup.symm hne
    | succ j => exact ⟨j, rfl⟩
  obtain ⟨⟨u, e'⟩, hp⟩ := Option.isSome_iff_exists.mp ((hF.isSome_parent w hws).mpr hw)
  have hupw : t.up w = u := by rw [Found.up, hp]; rfl
  rw [Function.iterate_succ_apply, hupw] at hup
  have hu : (t.level u).isSome := by
    obtain ⟨-, k, hk, -⟩ := hF.edge w u e' hp
    exact Option.isSome_of_eq_some hk
  have hv : (t.level v).isSome := hup ▸ hF.isSome_level_iterate_up j hu
  obtain ⟨u', e'', hp', hle⟩ := hR.first v e w hv List.not_mem_nil (by simp) he hws
  rw [hp] at hp'
  cases hp'
  -- the parent of `w` was taken after `v`, unless it is `v`
  have huv : u = v := by
    cases hpu : t.parent u with
    | none =>
        have hfix : t.up u = u := by rw [Found.up, hpu]; rfl
        rw [Function.iterate_fixed hfix] at hup
        exact hup
    | some p =>
        cases j with
        | zero => exact hup
        | succ j =>
            have hupu : t.up u = p.1 := by rw [Found.up, hpu]; rfl
            rw [Function.iterate_succ_apply, hupu] at hup
            have h₁ := hR.rank_iterate_up j p.1
            rw [hup] at h₁
            have h₂ := hR.parent_lt u p.1 p.2 hpu List.not_mem_nil
            exact absurd (Nat.lt_of_le_of_lt h₁ h₂) (Nat.not_lt_of_ge hle)
  exact ⟨e', huv ▸ hp⟩

end Lib
