import Mathlib.Algebra.Group.Submonoid.Pointwise
import Mathlib.Algebra.Order.Monoid.WithTop
import Mathlib.Data.DFinsupp.WellFounded
import Mathlib.Data.Multiset.Basic
import Mathlib.Dynamics.PeriodicPts.Defs

/-!
# Lib — lowering labels along edges

Every point of a graph has a label, at first zero at `s` and infinite elsewhere.  A point is taken from
a queue, and every edge that leads from it to a point with a greater label than it gives lowers that
label, notes the edge and queues the point once more, under its new label (`Relax`).  Which point is
taken is a parameter, and a point may be in the queue many times.

* `Noted`: the labels are weights of walks, and the notes lead back to `s`, in whatever order the points
  are taken (`Noted.climbs_le`).
* `Shortest`: the edges from points that are not queued give no lower labels; if nothing is queued, the
  labels are the least weights (`Shortest.isLeast`) and the weights of the notes (`Shortest.climbs`).
* `Shortest.least_of_key`: the label of a point with the least key of the queue is a least weight.
* `Relax.turn_induction`: with finitely many weights, none negative, there are only finitely many
  turns.
-/

namespace Lib

variable {α ε K : Type*}

/-! ### Labels -/

/-- The labels, and for each the point and the edge from which it comes. -/
structure Labels (α ε K : Type*) where
  dist : α → WithTop K
  pred : α → Option (α × ε)

namespace Labels

variable [DecidableEq α] {t : Labels α ε K} {h v w : α} {e : ε} {d : WithTop K}

/-- The label of `w` is lowered to `d` from `h` along `e`. -/
def lower (t : Labels α ε K) (h : α) (e : ε) (w : α) (d : WithTop K) : Labels α ε K where
  dist := Function.update t.dist w d
  pred := Function.update t.pred w (some (h, e))

/-- The point before `v`, or `v` if there is none. -/
def up (t : Labels α ε K) (v : α) : α := (t.pred v).elim v Prod.fst

/-- Under its label, or as the start, `v` is queued. -/
def Queued (t : Labels α ε K) (queue : Multiset (WithTop K × α)) (v : α) : Prop :=
  (t.dist v, v) ∈ queue ∨ (⊤, v) ∈ queue

theorem dist_lower_self : (t.lower h e w d).dist w = d := by
  simp only [lower, Function.update_self]

theorem dist_lower_of_ne (hne : v ≠ w) : (t.lower h e w d).dist v = t.dist v := by
  simp only [lower, Function.update_of_ne hne]

theorem pred_lower_self : (t.lower h e w d).pred w = some (h, e) := by
  simp only [lower, Function.update_self]

theorem pred_lower_of_ne (hne : v ≠ w) : (t.lower h e w d).pred v = t.pred v := by
  simp only [lower, Function.update_of_ne hne]

theorem up_lower_self : (t.lower h e w d).up w = h := by
  rw [up, pred_lower_self]
  rfl

theorem up_lower_of_ne (hne : v ≠ w) : (t.lower h e w d).up v = t.up v := by
  rw [up, up, pred_lower_of_ne hne]

/-- Labels only get lower. -/
theorem dist_lower_le [Preorder K] (hd : d ≤ t.dist w) : (t.lower h e w d).dist v ≤ t.dist v := by
  by_cases hvw : v = w
  · rwa [hvw, dist_lower_self]
  · rw [dist_lower_of_ne hvw]

theorem dist_lower_ne_top (hv : t.dist v ≠ ⊤) (hd : d ≠ ⊤) : (t.lower h e w d).dist v ≠ ⊤ := by
  by_cases hvw : v = w
  · rwa [hvw, dist_lower_self]
  · rwa [dist_lower_of_ne hvw]

/-- The labels at first. -/
def start [Zero K] (s : α) : Labels α ε K where
  dist := Function.update (fun _ => ⊤) s 0
  pred _ := none

theorem dist_start_self [Zero K] {s : α} : (start s : Labels α ε K).dist s = 0 := by
  simp only [start, Function.update_self]

theorem dist_start_of_ne [Zero K] {s : α} (hne : v ≠ s) : (start s : Labels α ε K).dist v = ⊤ := by
  simp only [start, Function.update_of_ne hne]

theorem eq_of_dist_start [Zero K] {s : α} (hv : (start s : Labels α ε K).dist v ≠ ⊤) : v = s := by
  by_contra hne
  exact hv (dist_start_of_ne hne)

end Labels

variable [AddCommMonoid K]

/-- A walk from `s` to `v` has the weight. -/
inductive Weighs (E : α → ε → α → Prop) (weight : α → ε → K) (s : α) : K → α → Prop
  | refl : Weighs E weight s 0 s
  | step {k : K} {v w : α} {e : ε} (hv : Weighs E weight s k v) (he : E v e w) :
      Weighs E weight s (k + weight v e) w

namespace Weighs

variable {E : α → ε → α → Prop} {weight : α → ε → K} {s v : α} {k : K}

theorem mem {U : Finset α} (hs : s ∈ U) (hU : ∀ v e w, v ∈ U → E v e w → w ∈ U)
    (hv : Weighs E weight s k v) : v ∈ U := by
  induction hv with
  | refl => exact hs
  | step _ he ih => exact hU _ _ _ ih he

theorem mem_closure {S : Set K} (hS : ∀ v e w, E v e w → weight v e ∈ S)
    (hv : Weighs E weight s k v) : k ∈ AddSubmonoid.closure S := by
  induction hv with
  | refl => exact zero_mem _
  | step _ he ih => exact add_mem ih (AddSubmonoid.subset_closure (hS _ _ _ he))

/-- A walk goes on where another ends. -/
theorem trans {w : α} {j : K} (hv : Weighs E weight s k v) (hw : Weighs E weight v j w) :
    Weighs E weight s (k + j) w := by
  induction hw with
  | refl => rwa [add_zero]
  | step _ he ih => exact add_assoc k _ _ ▸ .step ih he

/-- Along edges that lead back, a walk leads back. -/
theorem symm (hE : ∀ v e w, E v e w → E w e v ∧ weight w e = weight v e)
    (hv : Weighs E weight s k v) : Weighs E weight v k s := by
  induction hv with
  | refl => exact .refl
  | @step k v w e _ he ih =>
      obtain ⟨hback, hweight⟩ := hE v e w he
      have hone : Weighs E weight w (0 + weight w e) v := .step .refl hback
      rw [zero_add, hweight] at hone
      exact add_comm (weight v e) k ▸ hone.trans ih

/-- The weights may be counted by another. -/
theorem map {M : Type*} [AddCommMonoid M] (f : K →+ M) (hv : Weighs E weight s k v) :
    Weighs E (fun u e => f (weight u e)) s (f k) v := by
  induction hv with
  | refl => exact f.map_zero ▸ .refl
  | step _ he ih => exact f.map_add _ _ ▸ .step ih he

/-- The points and the edges may have other names. -/
theorem relabel {α' ε' : Type*} {E' : α' → ε' → α' → Prop} {weight' : α' → ε' → K} (f : α → α')
    (g : ε → ε') (hE : ∀ v e w, E v e w → E' (f v) (g e) (f w) ∧ weight' (f v) (g e) = weight v e)
    (hv : Weighs E weight s k v) : Weighs E' weight' (f s) k (f v) := by
  induction hv with
  | refl => exact .refl
  | @step k v w e _ he ih =>
      obtain ⟨hedge, hweight⟩ := hE v e w he
      exact hweight ▸ .step ih hedge

/-- Two weights may be counted at once. -/
theorem exists_prod {M : Type*} [AddCommMonoid M] (weight' : α → ε → M)
    (hv : Weighs E weight s k v) :
    ∃ m, Weighs E (fun u e => (weight' u e, weight u e)) s (m, k) v := by
  induction hv with
  | refl => exact ⟨0, .refl⟩
  | step _ he ih =>
      obtain ⟨m, hm⟩ := ih
      exact ⟨_, .step hm he⟩

end Weighs

/-- The notes lead from `v` back to `s`, along edges of this weight in all, and through these points. -/
inductive Labels.Climbs (t : Labels α ε K) (weight : α → ε → K) (s : α) : K → List α → α → Prop
  | root : Climbs t weight s 0 [s] s
  | step {k : K} {l : List α} {u v : α} {e : ε} (hv : t.pred v = some (u, e)) (hl : v ∉ l)
      (hu : Climbs t weight s k l u) : Climbs t weight s (k + weight u e) (v :: l) v

/-- The points are found on the way up. -/
theorem Labels.Climbs.exists_iterate {t : Labels α ε K} {weight : α → ε → K} {s v w : α} {k : K}
    {l : List α} (h : t.Climbs weight s k l v) (hw : w ∈ l) : ∃ i, t.up^[i] v = w := by
  induction h with
  | root => exact ⟨0, (List.mem_singleton.mp hw).symm⟩
  | @step k l u v e hv _ _ ih =>
      rcases List.mem_cons.mp hw with rfl | hw
      · exact ⟨0, rfl⟩
      · obtain ⟨i, hi⟩ := ih hw
        refine ⟨i + 1, ?_⟩
        rw [Function.iterate_succ_apply, up, hv]
        exact hi

variable [LinearOrder K]

/-- The states of the labels, of the point that is expanded and of the queue. -/
inductive Relax [DecidableEq α] (E : α → ε → α → Prop) (weight : α → ε → K)
    (Take : WithTop K × α → Multiset (WithTop K × α) → Prop) (s : α) :
    Labels α ε K → Option α → Multiset (WithTop K × α) → Prop
  | start : Relax E weight Take s (.start s) none {(⊤, s)}
  | take {t : Labels α ε K} {x : WithTop K × α} {rest : Multiset (WithTop K × α)}
      (ht : Relax E weight Take s t none (x ::ₘ rest)) (hx : Take x rest) :
      Relax E weight Take s t (some x.2) rest
  | lower {t : Labels α ε K} {queue : Multiset (WithTop K × α)} {h w : α} {e : ε}
      (ht : Relax E weight Take s t (some h) queue) (he : E h e w)
      (hlt : t.dist h + weight h e < t.dist w) :
      Relax E weight Take s (t.lower h e w (t.dist h + weight h e)) (some h)
        ((t.dist h + weight h e, w) ::ₘ queue)
  | done {t : Labels α ε K} {queue : Multiset (WithTop K × α)} {h : α}
      (ht : Relax E weight Take s t (some h) queue)
      (hd : ∀ e w, E h e w → t.dist w ≤ t.dist h + weight h e) :
      Relax E weight Take s t none queue

/-- A point that is never taken stays in the queue. -/
theorem Relax.exists_mem_queue [DecidableEq α] {E : α → ε → α → Prop} {weight : α → ε → K}
    {Take : WithTop K × α → Multiset (WithTop K × α) → Prop} {s v : α} {t : Labels α ε K}
    {current : Option α} {queue : Multiset (WithTop K × α)} (hTake : ∀ x rest, Take x rest → x.2 ≠ v)
    (ht : Relax E weight Take s t current queue) (hv : t.dist v ≠ ⊤) : ∃ k, (k, v) ∈ queue := by
  induction ht with
  | start => exact ⟨⊤, Labels.eq_of_dist_start hv ▸ Multiset.mem_singleton_self _⟩
  | @take t x rest _ hx ih =>
      obtain ⟨k, hk⟩ := ih hv
      refine ⟨k, (Multiset.mem_cons.mp hk).resolve_left fun e => hTake x rest hx ?_⟩
      exact congrArg Prod.snd e.symm
  | @lower t queue h w e _ _ _ ih =>
      by_cases hvw : v = w
      · rw [hvw]
        exact ⟨_, Multiset.mem_cons_self _ _⟩
      · rw [Labels.dist_lower_of_ne hvw] at hv
        obtain ⟨k, hk⟩ := ih hv
        exact ⟨k, Multiset.mem_cons_of_mem hk⟩
  | done _ _ ih => exact ih hv

/-! ### What holds of the labels -/

/-- The labels are weights of walks, and the notes lead back to `s`. -/
structure Noted (E : α → ε → α → Prop) (weight : α → ε → K) (s : α) (t : Labels α ε K) : Prop where
  start : t.dist s = 0
  root : t.pred s = none
  walk : ∀ v (k : K), t.dist v = k → Weighs E weight s k v
  isSome_pred : ∀ v, v ≠ s → ((t.pred v).isSome ↔ t.dist v ≠ ⊤)
  edge : ∀ v u e, t.pred v = some (u, e) →
    E u e v ∧ t.dist u ≠ ⊤ ∧ t.dist u + weight u e ≤ t.dist v
  back : ∀ v, t.dist v ≠ ⊤ → ∃ k, t.up^[k] v = s

/-- The labels are right as far as they go: the edges from a point give no lower labels unless it is
being expanded or queued. -/
structure Shortest (E : α → ε → α → Prop) (weight : α → ε → K) (s : α) (t : Labels α ε K)
    (current : Option α) (queue : Multiset (WithTop K × α)) : Prop extends Noted E weight s t where
  expanded : ∀ h, current = some h → t.dist h ≠ ⊤
  queued : ∀ x ∈ queue, t.dist x.2 ≠ ⊤ ∧ t.dist x.2 ≤ x.1
  first : ∀ v, (⊤, v) ∈ queue → current = none ∧ queue = {(⊤, s)}
  closed : ∀ v, t.dist v ≠ ⊤ → current ≠ some v → ¬ t.Queued queue v → ∀ e w, E v e w →
    t.dist w ≤ t.dist v + weight v e

variable {E : α → ε → α → Prop} {weight : α → ε → K}
  {Take : WithTop K × α → Multiset (WithTop K × α) → Prop} {s v w h : α} {e : ε}
  {t t' : Labels α ε K} {current : Option α} {queue queue' rest : Multiset (WithTop K × α)}
  {x : WithTop K × α} {k : K}

namespace Noted

theorem start_noted [DecidableEq α] (E : α → ε → α → Prop) (weight : α → ε → K) (s : α) :
    Noted E weight s (.start s) := by
  refine ⟨Labels.dist_start_self, rfl, fun v k hv => ?_, fun v hne => ?_, ?_, fun v hv => ?_⟩
  · obtain rfl := Labels.eq_of_dist_start (by rw [hv]; exact WithTop.coe_ne_top)
    rw [Labels.dist_start_self] at hv
    rw [← WithTop.coe_injective hv]
    exact .refl
  · exact iff_of_false (fun h => by cases h) fun hv => hne (Labels.eq_of_dist_start hv)
  · rintro v u e ⟨⟩
  · exact ⟨0, Labels.eq_of_dist_start hv⟩

/-- No point that leads back to the start is found again on the way up. -/
theorem up_ne (hS : Noted E weight s t) {j i : ℕ} (hj : t.up^[j] v = s)
    (hp : t.pred v ≠ none) : t.up^[i] (t.up v) ≠ v := by
  intro hi
  have hfix : Function.IsFixedPt t.up s := by
    rw [Function.IsFixedPt, Labels.up, hS.root]
    rfl
  have hper : Function.IsPeriodicPt t.up (i + 1) v := hi
  have hv : t.up^[(i + 1) * (j + 1)] v = v := (hper.mul_const (j + 1)).eq
  have hs : t.up^[(i + 1) * (j + 1)] v = s := by
    have hle : j ≤ (i + 1) * (j + 1) := 
      (Nat.le_succ j).trans (Nat.le_mul_of_pos_left _ (Nat.succ_pos i))
    rw [← Nat.sub_add_cancel hle, Function.iterate_add_apply, hj]
    exact (hfix.iterate _).eq
  rw [hv] at hs
  exact hp (hs ▸ hS.root)

/-- The notes lead back along edges that do not weigh more than the label says. -/
theorem climbs_le [IsOrderedAddMonoid K] (hS : Noted E weight s t)
    (hv : t.dist v ≠ ⊤) : ∃ k l, t.Climbs weight s k l v ∧ k ≤ t.dist v := by
  obtain ⟨j, hj⟩ := hS.back v hv
  have hroot : ∃ k l, t.Climbs weight s k l s ∧ k ≤ t.dist s := ⟨0, [s], .root, hS.start.ge⟩
  induction j generalizing v with
  | zero => exact (show v = s from hj) ▸ hroot
  | succ j ih =>
      cases hp : t.pred v with
      | none =>
          have hvs : v = s := by
            by_contra hne
            have := (hS.isSome_pred v hne).mpr hv
            rw [hp] at this
            cases this
          exact hvs ▸ hroot
      | some p =>
          obtain ⟨-, hu, hle⟩ := hS.edge v p.1 p.2 hp
          have hup : t.up v = p.1 := by
            rw [Labels.up, hp]
            rfl
          have hj' : t.up^[j] p.1 = s := by rwa [Function.iterate_succ_apply, hup] at hj
          obtain ⟨k, l, hk, hku⟩ := ih hu hj'
          refine ⟨k + weight p.1 p.2, v :: l, .step hp (fun hl => ?_) hk, ?_⟩
          · obtain ⟨i, hi⟩ := hk.exists_iterate hl
            rw [← hup] at hi
            exact hS.up_ne hj (by simp [hp]) hi
          · rw [WithTop.coe_add]
            exact (add_le_add_left hku _).trans hle

/-- What the notes say is a walk. -/
theorem weighs_of_climbs {l : List α} (hS : Noted E weight s t)
    (hv : t.Climbs weight s k l v) : Weighs E weight s k v := by
  induction hv with
  | root => exact .refl
  | step hp _ _ ih => exact .step ih (hS.edge _ _ _ hp).1

end Noted

namespace Shortest

theorem singleton [DecidableEq α] (E : α → ε → α → Prop) (weight : α → ε → K) (s : α) :
    Shortest E weight s (.start s) none {(⊤, s)} := by
  refine ⟨.start_noted E weight s, fun h hh => ?_, fun x hx => ?_, fun v _ => ⟨rfl, rfl⟩,
    fun v hv _ hn => ?_⟩
  · cases hh
  · rw [Multiset.mem_singleton.mp hx, Labels.dist_start_self]
    exact ⟨WithTop.zero_ne_top, le_top⟩
  · obtain rfl := Labels.eq_of_dist_start hv
    exact absurd (.inr (Multiset.mem_singleton_self _)) hn

/-- **A point is taken** from the queue. -/
theorem take (hS : Shortest E weight s t none (x ::ₘ rest)) :
    Shortest E weight s t (some x.2) rest where
  toNoted := hS.toNoted
  expanded h hh := by
    cases hh
    exact (hS.queued x (Multiset.mem_cons_self x rest)).1
  queued y hy := hS.queued y (Multiset.mem_cons_of_mem hy)
  first v hv := by
    have hone := congrArg Multiset.card (hS.first v (Multiset.mem_cons_of_mem hv)).2
    have hpos := Multiset.card_pos_iff_exists_mem.mpr ⟨_, hv⟩
    rw [Multiset.card_cons, Multiset.card_singleton] at hone
    omega
  closed v hv hne hn := by
    have hvx : ∀ d : WithTop K, (d, v) ∈ x ::ₘ rest → (d, v) ∈ rest := by
      intro d hd
      rcases Multiset.mem_cons.mp hd with rfl | hd
      · exact absurd rfl hne
      · exact hd
    exact hS.closed v hv (by simp) fun hq => hn (hq.imp (hvx _) (hvx _))

/-- **A point is expanded.** -/
theorem done (hS : Shortest E weight s t (some h) queue)
    (hd : ∀ e w, E h e w → t.dist w ≤ t.dist h + weight h e) :
    Shortest E weight s t none queue where
  toNoted := hS.toNoted
  expanded h hh := by cases hh
  queued := hS.queued
  first v hv := ⟨rfl, (hS.first v hv).2⟩
  closed v hv _ hn e w he := by
    by_cases hvh : v = h
    · subst hvh
      exact hd e w he
    · exact hS.closed v hv (fun e => hvh (Option.some.inj e).symm) hn e w he

end Shortest

/-! ### Weights that are not negative -/

section Nonneg

variable [IsOrderedAddMonoid K] (hpos : ∀ v e w, E v e w → 0 ≤ weight v e)
include hpos

theorem Weighs.nonneg (hv : Weighs E weight s k v) : 0 ≤ k := by
  induction hv with
  | refl => exact le_refl 0
  | step _ he ih => exact add_nonneg ih (hpos _ _ _ he)

namespace Noted

theorem dist_le_add (he : E h e w) : t.dist h ≤ t.dist h + weight h e :=
  le_add_of_nonneg_right (WithTop.coe_nonneg.mpr (hpos h e w he))

/-- No label is negative. -/
theorem nonneg (hS : Noted E weight s t) (v : α) : 0 ≤ t.dist v := by
  cases hk : t.dist v with
  | top => exact le_top
  | coe k => exact WithTop.coe_nonneg.mpr ((hS.walk v k hk).nonneg hpos)

/-- The labels do not grow on the way up. -/
theorem dist_iterate_up (hS : Noted E weight s t) (j : ℕ) (v : α) :
    t.dist (t.up^[j] v) ≤ t.dist v := by
  induction j generalizing v with
  | zero => exact le_refl _
  | succ j ih =>
      rw [Function.iterate_succ_apply]
      refine (ih _).trans ?_
      rw [Labels.up]
      cases hp : t.pred v with
      | none => exact le_refl _
      | some p =>
          obtain ⟨he, -, hle⟩ := hS.edge v p.1 p.2 hp
          exact (dist_le_add hpos he).trans hle

variable [DecidableEq α]

/-- The notes still lead back after a label is lowered. -/
theorem back_lower (hS : Noted E weight s t) (hh : t.dist h ≠ ⊤) (he : E h e w)
    (hlt : t.dist h + weight h e < t.dist w) {k : ℕ} : ∀ {v : α}, t.up^[k] v = s →
    ∃ j, (t.lower h e w (t.dist h + weight h e)).up^[j] v = s := by
  -- no point above `h` has as great a label as `w`
  have hnot : ∀ j, t.up^[j] h ≠ w := by
    rintro j rfl
    exact absurd ((hS.dist_iterate_up hpos j h).trans (dist_le_add hpos he)) (not_le_of_gt hlt)
  have habove : ∀ j, (t.lower h e w (t.dist h + weight h e)).up^[j] h = t.up^[j] h := by
    intro j
    induction j with
    | zero => rfl
    | succ j ih =>
        rw [Function.iterate_succ_apply', ih, Labels.up_lower_of_ne (hnot j),
          Function.iterate_succ_apply']
  have hw : ∃ j, (t.lower h e w (t.dist h + weight h e)).up^[j] w = s := by
    obtain ⟨j, hj⟩ := hS.back h hh
    refine ⟨j + 1, ?_⟩
    rw [Function.iterate_succ_apply, Labels.up_lower_self, habove, hj]
  induction k with
  | zero => exact fun hv => ⟨0, hv⟩
  | succ k ih =>
      intro v hv
      by_cases hvw : v = w
      · rw [hvw]
        exact hw
      · obtain ⟨j, hj⟩ := ih hv
        refine ⟨j + 1, ?_⟩
        rw [Function.iterate_succ_apply, Labels.up_lower_of_ne hvw, hj]

/-- **A label is lowered.** -/
theorem lower (hS : Noted E weight s t) (hfin : t.dist h ≠ ⊤) (he : E h e w)
    (hlt : t.dist h + weight h e < t.dist w) :
    Noted E weight s (t.lower h e w (t.dist h + weight h e)) := by
  obtain ⟨k, hk⟩ := WithTop.ne_top_iff_exists.mp hfin
  -- a way back to `h` itself or to the start would be no shorter
  have hne : h ≠ w := by
    rintro rfl
    exact absurd (dist_le_add hpos he) (not_le_of_gt hlt)
  have hws : w ≠ s := by
    rintro rfl
    rw [hS.start] at hlt
    exact absurd ((hS.nonneg hpos h).trans (dist_le_add hpos he)) (not_le_of_gt hlt)
  have hd : t.dist h + weight h e ≠ ⊤ := (lt_top_of_lt hlt).ne
  have hle : ∀ v, (t.lower h e w (t.dist h + weight h e)).dist v ≤ t.dist v := fun v =>
    Labels.dist_lower_le (le_of_lt hlt)
  refine ⟨?_, ?_, fun v j hv => ?_, fun v hvs => ?_, fun v u e' hv => ?_, fun v hv => ?_⟩
  · rw [Labels.dist_lower_of_ne hws.symm, hS.start]
  · rw [Labels.pred_lower_of_ne hws.symm, hS.root]
  · by_cases hvw : v = w
    · subst hvw
      rw [Labels.dist_lower_self, ← hk, ← WithTop.coe_add] at hv
      rw [← WithTop.coe_injective hv]
      exact .step (hS.walk h k hk.symm) he
    · rw [Labels.dist_lower_of_ne hvw] at hv
      exact hS.walk v j hv
  · by_cases hvw : v = w
    · rw [hvw, Labels.pred_lower_self, Labels.dist_lower_self]
      exact iff_of_true rfl hd
    · rw [Labels.pred_lower_of_ne hvw, Labels.dist_lower_of_ne hvw]
      exact hS.isSome_pred v hvs
  · by_cases hvw : v = w
    · subst hvw
      rw [Labels.pred_lower_self] at hv
      cases hv
      rw [Labels.dist_lower_self, Labels.dist_lower_of_ne hne]
      exact ⟨he, hfin, le_refl _⟩
    · rw [Labels.pred_lower_of_ne hvw] at hv
      obtain ⟨hE, hu, hle'⟩ := hS.edge v u e' hv
      rw [Labels.dist_lower_of_ne hvw]
      exact ⟨hE, ne_top_of_le_ne_top hu (hle u), (add_le_add_left (hle u) _).trans hle'⟩
  · by_cases hvw : v = w
    · obtain ⟨j, hj⟩ := hS.back h hfin
      obtain ⟨i, hi⟩ := hS.back_lower hpos hfin he hlt hj
      refine ⟨i + 1, ?_⟩
      rw [hvw, Function.iterate_succ_apply, Labels.up_lower_self, hi]
    · rw [Labels.dist_lower_of_ne hvw] at hv
      obtain ⟨j, hj⟩ := hS.back v hv
      exact hS.back_lower hpos hfin he hlt hj

end Noted

namespace Shortest

/-- The least weight is the label, or not less than the keys. -/
theorem le_or_key_le (hS : Shortest E weight s t none queue) {m : WithTop K}
    (hm : ∀ x ∈ queue, m ≤ x.1) (htop : ∀ v, (⊤, v) ∉ queue) (hv : Weighs E weight s k v) :
    t.dist v ≤ k ∨ m ≤ k := by
  induction hv with
  | refl => exact .inl hS.start.le
  | @step k v w e hv he ih =>
      rw [WithTop.coe_add]
      have hle : (k : WithTop K) ≤ k + weight v e :=
        le_add_of_nonneg_right (WithTop.coe_nonneg.mpr (hpos v e w he))
      rcases ih with ih | ih
      · by_cases hq : (t.dist v, v) ∈ queue
        · exact .inr (((hm _ hq).trans ih).trans hle)
        · have hfin : t.dist v ≠ ⊤ := ne_top_of_le_ne_top WithTop.coe_ne_top ih
          have hclosed := hS.closed v hfin (by simp) (not_or_intro hq (htop v)) e w he
          exact .inl (hclosed.trans (add_le_add_left ih _))
      · exact .inr (ih.trans hle)

/-- **A point with the least key** has the least weight as its label. -/
theorem least_of_key (hS : Shortest E weight s t none (x ::ₘ rest)) (hx : x.2 ≠ s)
    (hle : ∀ y ∈ rest, x.1 ≤ y.1) (hv : Weighs E weight s k x.2) : t.dist x.2 ≤ k := by
  have hm : ∀ y ∈ x ::ₘ rest, x.1 ≤ y.1 := by
    intro y hy
    rcases Multiset.mem_cons.mp hy with rfl | hy
    · exact le_refl _
    · exact hle y hy
  have htop : ∀ v, (⊤, v) ∉ x ::ₘ rest := by
    intro v hv
    have hmem := Multiset.mem_cons_self x rest
    rw [(hS.first v hv).2, Multiset.mem_singleton] at hmem
    exact hx (congrArg Prod.snd hmem)
  rcases hS.le_or_key_le hpos hm htop hv with h | h
  · exact h
  · exact (hS.queued x (Multiset.mem_cons_self x rest)).2.trans h

/-- At the end no walk weighs less than the label of its end. -/
theorem le_of_weighs (hS : Shortest E weight s t none 0) (hv : Weighs E weight s k v) :
    t.dist v ≤ k :=
  (hS.le_or_key_le hpos (m := ⊤) (fun x hx => absurd hx (Multiset.notMem_zero x))
    (fun _ => Multiset.notMem_zero _) hv).resolve_right fun h =>
      WithTop.coe_ne_top (top_le_iff.mp h)

/-- **At the end** the labels are the least weights of walks. -/
theorem isLeast (hS : Shortest E weight s t none 0) :
    t.dist v = k ↔ IsLeast {k | Weighs E weight s k v} k := by
  constructor
  · intro hk
    refine ⟨hS.walk v k hk, fun j hj => ?_⟩
    have hle := hS.le_of_weighs hpos hj
    rw [hk] at hle
    exact WithTop.coe_le_coe.mp hle
  · rintro ⟨hk, hmin⟩
    have hle := hS.le_of_weighs hpos hk
    obtain ⟨j, hj⟩ := WithTop.ne_top_iff_exists.mp (ne_top_of_le_ne_top WithTop.coe_ne_top hle)
    rw [← hj] at hle ⊢
    rw [le_antisymm (WithTop.coe_le_coe.mp hle) (hmin (hS.walk v j hj.symm))]

theorem ne_top_iff (hS : Shortest E weight s t none 0) :
    t.dist v ≠ ⊤ ↔ ∃ k, Weighs E weight s k v := by
  constructor
  · intro hv
    obtain ⟨k, hk⟩ := WithTop.ne_top_iff_exists.mp hv
    exact ⟨k, hS.walk v k hk.symm⟩
  · rintro ⟨k, hk⟩
    exact ne_top_of_le_ne_top WithTop.coe_ne_top (hS.le_of_weighs hpos hk)

/-- **At the end** the notes lead back along edges that weigh as much as the label says. -/
theorem climbs (hS : Shortest E weight s t none 0) (hv : t.dist v = k) :
    ∃ l, t.Climbs weight s k l v := by
  obtain ⟨j, l, hj, hle⟩ := hS.climbs_le (v := v) (by rw [hv]; exact WithTop.coe_ne_top)
  rw [hv] at hle
  have hkj := ((hS.isLeast hpos).mp hv).2 (hS.weighs_of_climbs hj)
  rw [le_antisymm hkj (WithTop.coe_le_coe.mp hle)]
  exact ⟨l, hj⟩

variable [DecidableEq α]

/-- **A label is lowered**, and its point is queued. -/
theorem lower (hS : Shortest E weight s t (some h) queue) (he : E h e w)
    (hlt : t.dist h + weight h e < t.dist w) :
    Shortest E weight s (t.lower h e w (t.dist h + weight h e)) (some h)
      ((t.dist h + weight h e, w) ::ₘ queue) := by
  have hfin := hS.expanded h rfl
  have hd : t.dist h + weight h e ≠ ⊤ := (lt_top_of_lt hlt).ne
  have hle : ∀ v, (t.lower h e w (t.dist h + weight h e)).dist v ≤ t.dist v := fun v =>
    Labels.dist_lower_le (le_of_lt hlt)
  have hmono : ∀ v, t.dist v ≠ ⊤ → (t.lower h e w (t.dist h + weight h e)).dist v ≠ ⊤ :=
    fun v hv => ne_top_of_le_ne_top hv (hle v)
  refine ⟨hS.toNoted.lower hpos hfin he hlt, fun v hv => ?_, fun x hx => ?_, fun v hv => ?_,
    fun v hv hvh hn e' x hx => ?_⟩
  · exact hmono v (hS.expanded v hv)
  · rcases Multiset.mem_cons.mp hx with rfl | hx
    · rw [Labels.dist_lower_self]
      exact ⟨hd, le_refl _⟩
    · obtain ⟨hx₁, hx₂⟩ := hS.queued x hx
      exact ⟨hmono _ hx₁, (hle _).trans hx₂⟩
  · rcases Multiset.mem_cons.mp hv with hv | hv
    · exact absurd (congrArg Prod.fst hv).symm hd
    · cases (hS.first v hv).1
  · have hvw : v ≠ w := by
      rintro rfl
      refine hn (.inl ?_)
      rw [Labels.dist_lower_self]
      exact Multiset.mem_cons_self _ _
    rw [Labels.Queued, Labels.dist_lower_of_ne hvw] at hn
    rw [Labels.dist_lower_of_ne hvw] at hv ⊢
    refine (hle x).trans (hS.closed v hv hvh (fun hq => hn ?_) e' x hx)
    exact hq.imp Multiset.mem_cons_of_mem Multiset.mem_cons_of_mem

end Shortest

/-- **The labels are right** in every state. -/
theorem Relax.shortest [DecidableEq α] (ht : Relax E weight Take s t current queue) :
    Shortest E weight s t current queue := by
  induction ht with
  | start => exact .singleton E weight s
  | take _ _ ih => exact ih.take
  | lower _ he hlt ih => exact ih.lower hpos he hlt
  | done _ hd ih => exact ih.done hd

/-! ### One turn after the other -/

/-- The edges of `h` are tried one after the other. -/
def relaxEdges [DecidableEq α] (weight : α → ε → K) (h : α) :
    List (ε × α) → Labels α ε K → Multiset (WithTop K × α) →
      Labels α ε K × Multiset (WithTop K × α)
  | [], t, queue => (t, queue)
  | (e, w) :: edges, t, queue =>
      if t.dist h + weight h e < t.dist w then
        relaxEdges weight h edges (t.lower h e w (t.dist h + weight h e))
          ((t.dist h + weight h e, w) ::ₘ queue)
      else relaxEdges weight h edges t queue

/-- The labels are lower, or they are the same and fewer points are queued. -/
def Labels.Precedes (t' : Labels α ε K) (queue' : Multiset (WithTop K × α)) (t : Labels α ε K)
    (queue : Multiset (WithTop K × α)) : Prop :=
  (∀ v, t'.dist v ≤ t.dist v) ∧ ((∃ v, t'.dist v < t.dist v) ∨ queue'.card < queue.card)

section Turn

variable [DecidableEq α]

/-- Trying the edges of a point that has a label keeps the notes. -/
theorem Noted.relaxEdges (edges : List (ε × α)) : ∀ {t : Labels α ε K}
    {queue : Multiset (WithTop K × α)}, Noted E weight s t → t.dist h ≠ ⊤ →
    (∀ p ∈ edges, E h p.1 p.2) → Noted E weight s (relaxEdges weight h edges t queue).1 := by
  induction edges with
  | nil => exact fun hS _ _ => hS
  | cons p edges ih =>
      intro t queue hS hh hE
      have hE' : ∀ p ∈ edges, E h p.1 p.2 := fun p hp => hE p (List.mem_cons_of_mem _ hp)
      obtain ⟨e, w⟩ := p
      rw [Lib.relaxEdges]
      split
      · rename_i hlt
        exact ih (hS.lower hpos hh (hE _ List.mem_cons_self) hlt)
          (Labels.dist_lower_ne_top hh (lt_top_of_lt hlt).ne) hE'
      · exact ih hS hh hE'

theorem Relax.relaxEdges_aux (edges : List (ε × α)) : ∀ {t queue},
    Relax E weight Take s t (some h) queue → (∀ p ∈ edges, E h p.1 p.2) →
    Relax E weight Take s (relaxEdges weight h edges t queue).1 (some h)
      (relaxEdges weight h edges t queue).2 ∧
    (relaxEdges weight h edges t queue).1.dist h = t.dist h ∧
    (∀ p ∈ edges, (relaxEdges weight h edges t queue).1.dist p.2 ≤ t.dist h + weight h p.1) ∧
    (∀ v, (relaxEdges weight h edges t queue).1.dist v ≤ t.dist v) ∧
    ((∃ v, (relaxEdges weight h edges t queue).1.dist v < t.dist v) ∨
      (relaxEdges weight h edges t queue).2 = queue) := by
  induction edges with
  | nil => exact fun ht _ => ⟨ht, rfl, fun p hp => absurd hp List.not_mem_nil, fun v => le_refl _,
      .inr rfl⟩
  | cons p edges ih =>
      intro t queue ht hE
      obtain ⟨e, w⟩ := p
      have he : E h e w := hE _ List.mem_cons_self
      have hE' : ∀ p ∈ edges, E h p.1 p.2 := fun p hp => hE p (List.mem_cons_of_mem _ hp)
      rw [relaxEdges]
      split
      · rename_i hlt
        have hne : h ≠ w := by
          rintro rfl
          exact absurd (Noted.dist_le_add hpos he) (not_le_of_gt hlt)
        obtain ⟨ht', hh, hedges, hle, -⟩ := ih (ht.lower he hlt) hE'
        rw [Labels.dist_lower_of_ne hne] at hh hedges
        have hw := hle w
        rw [Labels.dist_lower_self] at hw
        refine ⟨ht', hh, fun p hp => ?_, fun v => (hle v).trans (Labels.dist_lower_le hlt.le),
          .inl ⟨w, hw.trans_lt hlt⟩⟩
        rcases List.mem_cons.mp hp with rfl | hp
        · exact hw
        · exact hedges p hp
      · rename_i hlt
        obtain ⟨ht', hh, hedges, hle, hlow⟩ := ih ht hE'
        refine ⟨ht', hh, fun p hp => ?_, hle, hlow⟩
        rcases List.mem_cons.mp hp with rfl | hp
        · exact (hle w).trans (le_of_not_gt hlt)
        · exact hedges p hp

/-- **A turn**: a point is taken, and all its edges are tried. -/
theorem Relax.turn (ht : Relax E weight Take s t none (x ::ₘ rest)) (hx : Take x rest)
    {edges : List (ε × α)} (hE : ∀ e w, (e, w) ∈ edges ↔ E x.2 e w) :
    Relax E weight Take s (relaxEdges weight x.2 edges t rest).1 none
      (relaxEdges weight x.2 edges t rest).2 ∧
    (relaxEdges weight x.2 edges t rest).1.Precedes (relaxEdges weight x.2 edges t rest).2 t
      (x ::ₘ rest) := by
  obtain ⟨ht', hh, hedges, hle, hlow⟩ :=
    (ht.take hx).relaxEdges_aux hpos edges fun p hp => (hE p.1 p.2).mp hp
  refine ⟨ht'.done fun e w he => ?_, hle, hlow.imp_right fun hq => ?_⟩
  · rw [hh]
    exact hedges (e, w) ((hE e w).mpr he)
  · rw [hq, Multiset.card_cons]
    exact Nat.lt_succ_self _

end Turn

end Nonneg

/-- The sums of finitely many weights, none of them negative, are well-ordered. -/
theorem isPWO_closure [IsOrderedAddMonoid K] {S : Set K} (hfin : S.Finite) :
    (∀ k ∈ S, 0 ≤ k) → (AddSubmonoid.closure S : Set K).IsPWO := by
  induction S, hfin using Set.Finite.induction_on with
  | empty =>
      intro _
      rw [AddSubmonoid.closure_empty]
      exact (Set.finite_singleton 0).isPWO
  | @insert a S _ _ ih =>
      intro hS
      -- the sums are those of multiples of `a` with sums of the others
      have ha : 0 ≤ a := hS a (Set.mem_insert a S)
      have hprod := (Set.IsPWO.of_linearOrder (Set.univ : Set ℕ)).prod
        (ih fun k hk => hS k (Set.mem_insert_of_mem a hk))
      have hmono : Monotone fun p : ℕ × K => p.1 • a + p.2 := fun p q hpq =>
        add_le_add (nsmul_le_nsmul_left ha hpq.1) hpq.2
      refine (hprod.image_of_monotone hmono).mono fun k hk => ?_
      rw [SetLike.mem_coe, Set.insert_eq, AddSubmonoid.closure_union, AddSubmonoid.mem_sup] at hk
      obtain ⟨m, hm, j, hj, rfl⟩ := hk
      obtain ⟨n, rfl⟩ := AddSubmonoid.mem_closure_singleton.mp hm
      exact ⟨(n, j), ⟨Set.mem_univ n, hj⟩, rfl⟩

/-- **There are only finitely many turns** with finitely many weights: what holds of a state if it holds of
all states that precede it holds of every state. -/
theorem Relax.turn_induction [DecidableEq α] [IsOrderedAddMonoid K] {U : Finset α}
    (hs : s ∈ U) (hU : ∀ v e w, v ∈ U → E v e w → w ∈ U) (hpos : ∀ v e w, E v e w → 0 ≤ weight v e)
    (hfin : {k | ∃ v e w, E v e w ∧ weight v e = k}.Finite)
    {motive : Labels α ε K → Multiset (WithTop K × α) → Prop}
    (turn : ∀ t queue, Relax E weight Take s t none queue →
      (∀ t' queue', Relax E weight Take s t' none queue' → t'.Precedes queue' t queue →
        motive t' queue') → motive t queue) :
    ∀ t queue, Relax E weight Take s t none queue → motive t queue := by
  have hsums := isPWO_closure hfin (by rintro k ⟨v, e, w, he, rfl⟩; exact hpos v e w he)
  -- labels are sums of weights or infinite
  let S : Set K := {k | ∃ v e w, E v e w ∧ weight v e = k}
  let T : Set (WithTop K) := insert ⊤ (WithTop.some '' (AddSubmonoid.closure S : Set K))
  have hT : T.IsPWO := (hsums.image_of_monotone WithTop.coe_mono).insert ⊤
  have hwf : WellFoundedLT T := ⟨hT.isWF⟩
  have hmem : ∀ {t queue}, Relax E weight Take s t none queue → ∀ v, t.dist v ∈ T := by
    intro t queue ht v
    cases hv : t.dist v with
    | top => exact .inl rfl
    | coe k =>
        exact .inr ⟨k, ((ht.shortest hpos).walk v k hv).mem_closure
          fun v e w he => ⟨v, e, w, he, rfl⟩, rfl⟩
  have hall : ∀ (g : U → T) (n : ℕ) (t queue), Relax E weight Take s t none queue →
      (∀ u, (g u : WithTop K) = t.dist u) → queue.card = n → motive t queue := by
    intro g
    induction g using WellFoundedLT.induction with
    | ind g ihg =>
        intro n
        induction n using Nat.strong_induction_on with
        | _ n ihn =>
            intro t queue ht hg hn
            refine turn t queue ht fun t' queue' ht' hprec => ?_
            let g' : U → T := fun u => ⟨t'.dist u, hmem ht' u⟩
            have hle : g' ≤ g := fun u => by
              show t'.dist u ≤ (g u : WithTop K)
              rw [hg]
              exact hprec.1 u
            rcases lt_or_eq_of_le hle with hlt | heq
            · exact ihg g' hlt _ t' queue' ht' (fun _ => rfl) rfl
            · have hsame : ∀ u, (g u : WithTop K) = t'.dist u := fun u => by rw [← heq]
              rcases hprec.2 with ⟨v, hv⟩ | hcard
              · obtain ⟨k, hk⟩ := WithTop.ne_top_iff_exists.mp (lt_top_of_lt hv).ne
                have hvU := ((ht'.shortest hpos).walk v k hk.symm).mem hs hU
                have := (hg ⟨v, hvU⟩).symm.trans (hsame ⟨v, hvU⟩)
                exact absurd hv (by rw [← this]; exact lt_irrefl _)
              · exact ihn _ (hn ▸ hcard) t' queue' ht' hsame rfl
  exact fun t queue ht => hall (fun u => ⟨t.dist u, hmem ht u⟩) _ t queue ht (fun _ => rfl) rfl

end Lib
