import Goedb.DataStruct.FibForest
import Mathlib.Algebra.BigOperators.Group.List.Basic

/-!
# DataStruct — the walk of `consolidate` over the roots

`Sweep` is the walk without the memory: the roots it has come past, in the order of their ring, and
their degrees.  A root that is reached is merged with the others of its degree (`merge`); the root it
ends in may be one that the walk came past before, from which it goes on to the right.  There it stops
too early if the root it is to stop at stands between that one and the roots still to come:
`comesPast` says that this does not happen.

While the walk comes past all roots it keeps the trees, and the table has every root it came past at its
degree (`Walking`).  Two roots of a degree `d` weigh as much as one of degree `d + 1`, if a root weighs
`2 ^ d`, so no degree outgrows the table whose places outnumber the bits of that weight.
-/

namespace Goedb

open Lib

/-! ### The walk without the memory -/

/-- The degrees, the roots that were come past, the root to stop at and the current one. -/
structure Sweep where
  deg : ℕ → ℕ
  visited : List ℕ
  first : ℕ
  x : ℕ

namespace Sweep

variable {K : Type} [LinearOrder K] (key : ℕ → K)

/-- The root that the current one is merged with. -/
def partner (s : Sweep) : Option ℕ := s.visited.find? fun y => y ≠ s.x ∧ s.deg y = s.deg s.x

/-- `w` gets the child `l`. -/
def give (s : Sweep) (w l : ℕ) : Sweep where
  deg := Function.update s.deg w (s.deg w + 1)
  visited := s.visited.erase l
  first := if l = s.first then w else s.first
  x := w

/-- The current root is merged until no other one has its degree, at most `n` times. -/
def merge : (n : ℕ) → Sweep → Sweep
  | 0, s => s
  | n + 1, s =>
      match s.partner with
      | none => s
      | some y => merge n (if key y < key s.x then s.give y s.x else s.give s.x y)

theorem merge_none {key : ℕ → K} {n : ℕ} {s : Sweep} (h : s.partner = none) :
    merge key (n + 1) s = s := by
  rw [merge, h]

theorem merge_some {n y : ℕ} {s : Sweep} (h : s.partner = some y) :
    merge key (n + 1) s = merge key n (if key y < key s.x then s.give y s.x else s.give s.x y) := by
  rw [merge, h]

/-- The root `u` is reached. -/
def reach (s : Sweep) (u : ℕ) : Sweep :=
  merge key (s.visited.length + 1) { s with visited := s.visited ++ [u], x := u }

/-- The roots that were come past and stand to the right of the current one. -/
def ahead (s : Sweep) : List ℕ := (s.visited.dropWhile (· ≠ s.x)).tail

theorem exists_ahead {s : Sweep} (h : s.x ∈ s.visited) : ∃ a, s.visited = a ++ s.x :: s.ahead := by
  obtain ⟨a, b, hab, hnot⟩ := List.eq_append_cons_of_mem h
  have ha : ∀ v ∈ a, decide (v ≠ s.x) = true := fun v hv =>
    decide_eq_true fun e => hnot (e ▸ hv)
  refine ⟨a, ?_⟩
  rw [ahead, hab, List.dropWhile_append_of_pos ha, List.dropWhile_cons_of_neg (by simp),
    List.tail_cons]

/-- The walk comes past all roots. -/
def comesPast : List ℕ → Sweep → Bool
  | [], _ => true
  | u :: us, s => (us = [] || (s.reach key u).first ∉ (s.reach key u).ahead) &&
      comesPast us (s.reach key u)

/-- The walk over a list of roots of these degrees begins. -/
def start (deg : ℕ → ℕ) (roots : List ℕ) : Sweep := ⟨deg, [], roots.headD 0, roots.headD 0⟩

/-- What the roots weigh. -/
def weight (deg : ℕ → ℕ) (roots : List ℕ) : ℕ := (roots.map fun r => 2 ^ deg r).sum

variable {deg : ℕ → ℕ} {roots : List ℕ} {l w : ℕ}

theorem pow_le_weight (h : w ∈ roots) : 2 ^ deg w ≤ weight deg roots :=
  List.single_le_sum (by simp) _ (List.mem_map_of_mem h)

theorem weight_cons (deg : ℕ → ℕ) (r : ℕ) (roots : List ℕ) :
    weight deg (r :: roots) = 2 ^ deg r + weight deg roots := by
  rw [weight, List.map_cons, List.sum_cons, weight]

theorem weight_perm (deg : ℕ → ℕ) {roots' : List ℕ} (h : roots.Perm roots') :
    weight deg roots = weight deg roots' :=
  (h.map _).sum_eq

/-- Two roots of one degree weigh as much as the one that gets the other. -/
theorem weight_give (hd : roots.Nodup) (hl : l ∈ roots) (hw : w ∈ roots) (hne : l ≠ w)
    (hdeg : deg l = deg w) :
    weight (Function.update deg w (deg w + 1)) (roots.erase l) = weight deg roots := by
  have hw' : w ∈ roots.erase l := (List.mem_erase_of_ne hne.symm).mpr hw
  have hperm : (roots.erase l).Perm (w :: (roots.erase l).erase w) := List.perm_cons_erase hw'
  have hrest : weight (Function.update deg w (deg w + 1)) ((roots.erase l).erase w) =
      weight deg ((roots.erase l).erase w) := by
    refine congrArg List.sum (List.map_congr_left fun r hr => ?_)
    have hne : r ≠ w := fun e => (hd.erase l).not_mem_erase (e ▸ hr)
    rw [Function.update_of_ne hne]
  calc weight (Function.update deg w (deg w + 1)) (roots.erase l)
      = 2 ^ (deg w + 1) + weight deg ((roots.erase l).erase w) := by
        rw [weight_perm _ hperm, weight_cons, Function.update_self, hrest]
    _ = 2 ^ deg l + (2 ^ deg w + weight deg ((roots.erase l).erase w)) := by
        rw [hdeg, pow_succ]
        omega
    _ = weight deg roots := by
        rw [← weight_cons, ← weight_perm deg hperm, ← weight_cons,
          ← weight_perm deg (List.perm_cons_erase hl)]

end Sweep

namespace FibMemory

open Sweep (merge)

variable {K V : Type} [LinearOrder K] {m m' : FibMemory K V} {S : Finset ℕ} {kids : ℕ → List ℕ}
  {key : ℕ → K} {w : Walk K V} {s : Sweep} {us : List ℕ} {cur : Option ℕ} {x y v d : ℕ}

/-! ### The table -/

theorem getD_set {l : List ℕ} {i j a : ℕ} (hi : i < l.length) :
    (l.set i a).getD j null = if j = i then a else l.getD j null := by
  rw [List.getD_eq_getElem?_getD, List.getElem?_set, List.getD_eq_getElem?_getD]
  by_cases hij : i = j
  · subst hij
    simp [hi]
  · rw [if_neg hij, if_neg (Ne.symm hij)]

/-- What holds while the walk goes on.  All roots that were come past but the one that is being merged
(`cur`) are in the table, at their degrees. -/
structure Walking (S : Finset ℕ) (key : ℕ → K) (w : Walk K V) (s : Sweep) (kids : ℕ → List ℕ)
    (us : List ℕ) (cur : Option ℕ) : Prop where
  trees : Trees w.mem S kids (s.visited ++ us)
  ordered : Ordered w.mem S kids
  key_eq : w.mem.key = key
  deg_eq : s.deg = w.mem.degree
  first_eq : s.first = w.first
  entry : ∀ v ∈ s.visited, some v ≠ cur → w.nodesWDegree.getD (s.deg v) null = v
  table : ∀ d, w.nodesWDegree.getD d null ≠ null → w.nodesWDegree.getD d null ∈ s.visited ∧
    s.deg (w.nodesWDegree.getD d null) = d ∧ some (w.nodesWDegree.getD d null) ≠ cur
  bound : Sweep.weight s.deg (s.visited ++ us) < 2 ^ w.nodesWDegree.length

namespace Walking

variable (h : Walking S key w s kids us cur)
include h

/-- **No degree outgrows the table.** -/
theorem deg_lt (hv : v ∈ s.visited ++ us) : s.deg v < w.nodesWDegree.length :=
  (Nat.pow_lt_pow_iff_right one_lt_two).mp ((Sweep.pow_le_weight hv).trans_lt h.bound)

theorem visited_nodup : s.visited.Nodup := (List.nodup_append.mp h.trees.roots_linked.nodup).1

theorem visited_ne_null (hv : v ∈ s.visited) : v ≠ null :=
  h.trees.root_ne_null (List.mem_append_left _ hv)

theorem alive (hv : v ∈ s.visited) : w.mem.alive v = true :=
  h.trees.alive v (h.trees.root_mem v (List.mem_append_left _ hv))

/-- No two roots in the table have one degree. -/
theorem eq_of_deg_eq (hx : x ∈ s.visited) (hy : y ∈ s.visited) (hxc : some x ≠ cur)
    (hyc : some y ≠ cur) (hdeg : s.deg x = s.deg y) : x = y := by
  rw [← h.entry x hx hxc, ← h.entry y hy hyc, hdeg]

end Walking

/-- A root that was come past gets another one of its degree. -/
theorem Walking.give {a b : ℕ} (h : Walking S key w s kids us (some s.x)) (ha : a ∈ s.visited)
    (hb : b ∈ s.visited) (hne : a ≠ b) (hdeg : s.deg a = s.deg b) (hx : s.x = a ∨ s.x = b)
    (hle : key a ≤ key b) :
    ∃ m' kids', w.mem.makeChild a b = .ok m' ∧
      Walking S key { mem := m', nodesWDegree := w.nodesWDegree.set (s.deg s.x) null
                      first := if b = w.first then a else w.first } (s.give a b) kids' us
        (some (s.give a b).x) ∧
      Kept S w.mem m' := by
  have hmem : ∀ {v}, v ∈ s.visited → v ∈ s.visited ++ us := List.mem_append_left us
  have hdx : s.deg s.x = s.deg a := by
    rcases hx with hx | hx
    · rw [hx]
    · rw [hx, hdeg]
  have hlt : s.deg s.x < w.nodesWDegree.length := hdx ▸ h.deg_lt (hmem ha)
  -- the other one of the two is the only root in the table of their degree
  have hother : ∀ v ∈ s.visited, v ≠ a → v ≠ b → s.deg v ≠ s.deg s.x := by
    intro v hv hva hvb hvd
    have hvx : some v ≠ some s.x := by
      rintro e
      rcases hx with hx | hx
      · exact hva ((Option.some.inj e).trans hx)
      · exact hvb ((Option.some.inj e).trans hx)
    rcases hx with hx | hx
    · exact hvb (h.eq_of_deg_eq hv hb hvx (fun e => hne ((Option.some.inj e).trans hx).symm)
        (hvd.trans (hdx.trans hdeg)))
    · exact hva (h.eq_of_deg_eq hv ha hvx (fun e => hne ((Option.some.inj e).trans hx))
        (hvd.trans hdx))
  have hdeg' : ∀ v, v ≠ a → (s.give a b).deg v = s.deg v := fun v hv => Function.update_of_ne hv _ _
  obtain ⟨m', hrun, htrees, hkept, hdegree⟩ := h.trees.makeChild (hmem ha) (hmem hb) hne
  have hperm : (s.visited ++ us).erase b = s.visited.erase b ++ us := List.erase_append_left _ hb
  have hweight := Sweep.weight_give h.trees.roots_linked.nodup (hmem hb) (hmem ha) hne.symm hdeg.symm
  rw [hperm] at htrees hweight
  have hwalking : Walking S key
      { mem := m', nodesWDegree := w.nodesWDegree.set (s.deg s.x) null
        first := if b = w.first then a else w.first }
      (s.give a b) (Function.update kids a (adopt b (kids a))) us (some (s.give a b).x) :=
    { trees := htrees
      ordered := by
        refine hkept.ordered (h.ordered.makeChild ?_)
        rw [h.key_eq]
        exact hle
      key_eq := (funext hkept.key).trans h.key_eq
      deg_eq := by
        funext v
        have hv := hdegree v
        rw [← h.deg_eq] at hv
        exact (Function.update_apply ..).trans hv.symm
      first_eq := by
        change (if b = s.first then a else s.first) = _
        rw [h.first_eq]
      entry := by
        intro v hv hva
        have hva' : v ≠ a := fun e => hva (congrArg some e)
        have hvb : v ≠ b := fun e => h.visited_nodup.not_mem_erase (e ▸ hv)
        have hv' := List.mem_of_mem_erase hv
        have hvx : some v ≠ some s.x := fun e =>
          hx.elim (fun hx => hva' ((Option.some.inj e).trans hx))
            fun hx => hvb ((Option.some.inj e).trans hx)
        rw [hdeg' v hva', getD_set hlt, if_neg (hother v hv' hva' hvb)]
        exact h.entry v hv' hvx
      table := by
        intro d hd
        rw [getD_set hlt] at hd ⊢
        split_ifs at hd ⊢ with hdx'
        · exact absurd rfl hd
        · obtain ⟨hv, hvd, -⟩ := h.table d hd
          have hva : w.nodesWDegree.getD d null ≠ a := fun e =>
            hdx' (hvd.symm.trans ((congrArg s.deg e).trans hdx.symm))
          have hvb : w.nodesWDegree.getD d null ≠ b := fun e =>
            hdx' (hvd.symm.trans ((congrArg s.deg e).trans (hdeg.symm.trans hdx.symm)))
          exact ⟨(List.mem_erase_of_ne hvb).mpr hv, (hdeg' _ hva).trans hvd,
            fun e => hva (Option.some.inj e)⟩
      bound := by
        rw [List.length_set]
        exact lt_of_eq_of_lt hweight h.bound }
  exact ⟨m', _, hrun, hwalking, hkept⟩

/-- The place of the table at the degree of the current root has the root it is merged with. -/
theorem Walking.partner_eq (h : Walking S key w s kids us (some s.x)) :
    (s.partner = none ∧ w.nodesWDegree.getD (s.deg s.x) null = null) ∨
    ∃ y, s.partner = some y ∧ w.nodesWDegree.getD (s.deg s.x) null = y ∧ y ∈ s.visited ∧ y ≠ s.x ∧
      s.deg y = s.deg s.x := by
  cases hp : s.partner with
  | none =>
      refine .inl ⟨rfl, ?_⟩
      by_contra hne
      obtain ⟨hv, hvd, hvx⟩ := h.table _ hne
      have hnone := List.find?_eq_none.mp hp _ hv
      simp only [decide_eq_true_eq, not_and] at hnone
      exact hnone (fun e => hvx (congrArg some e)) hvd
  | some y =>
      have hy := List.find?_some hp
      simp only [decide_eq_true_eq] at hy
      have hv := List.mem_of_find?_eq_some hp
      refine .inr ⟨y, rfl, ?_, hv, hy.1, hy.2⟩
      rw [← hy.2]
      exact h.entry y hv fun e => hy.1 (Option.some.inj e)

theorem give_first_mem {a b : ℕ} (ha : a ∈ s.visited) (hne : a ≠ b)
    (hf : s.first ∈ s.visited) : (s.give a b).first ∈ (s.give a b).visited := by
  change (if b = s.first then a else s.first) ∈ s.visited.erase b
  split_ifs with hb
  · exact (List.mem_erase_of_ne hne).mpr ha
  · exact (List.mem_erase_of_ne (Ne.symm hb)).mpr hf

theorem mergeLoop_succ {k : ℕ} (hy : w.nodesWDegree.getD d null = y) (hyn : y ≠ null) (hxy : x ≠ y)
    (hax : w.mem.alive x = true) (hay : w.mem.alive y = true) :
    mergeLoop (k + 1) x d w =
      if w.mem.key y < w.mem.key x then
        w.mem.makeChild y x >>= fun mem => mergeLoop k y (d + 1)
          { mem := mem
            nodesWDegree := w.nodesWDegree.set d null
            first := if x = w.first then y else w.first }
      else
        w.mem.makeChild x y >>= fun mem => mergeLoop k x (d + 1)
          { mem := mem
            nodesWDegree := w.nodesWDegree.set d null
            first := if y = w.first then x else w.first } := by
  have hnot : ¬ (y = null ∨ x = y) := not_or.mpr ⟨hyn, hxy⟩
  rw [mergeLoop, hy, if_neg hnot, deref_ok hax, deref_ok hay]
  by_cases hlt : (w.mem.node y).key < (w.mem.node x).key
  · have hlt' : w.mem.key y < w.mem.key x := hlt
    rw [if_pos hlt']
    simp only [Except.bind, bind, hlt, if_true]
  · have hlt' : ¬ w.mem.key y < w.mem.key x := hlt
    rw [if_neg hlt']
    simp only [Except.bind, bind, hlt, if_false]

/-- The inner loop ends in the sweep `s`: its current root is the one to put into the table, where its
place is free. -/
def MergedTo (S : Finset ℕ) (key : ℕ → K) (us : List ℕ) (w : Walk K V)
    (run : Except Fault (ℕ × ℕ × Walk K V)) (s : Sweep) : Prop :=
  ∃ w' kids, run = .ok (s.x, s.deg s.x, w') ∧ Walking S key w' s kids us (some s.x) ∧
    s.x ∈ s.visited ∧ s.first ∈ s.visited ∧ w'.nodesWDegree.length = w.nodesWDegree.length ∧
    Kept S w.mem w'.mem ∧ w'.nodesWDegree.getD (s.deg s.x) null = null

/-- **The inner loop** merges the current root until its degree is free in the table. -/
theorem mergeLoop_ok (n : ℕ) : ∀ {w : Walk K V} {s : Sweep} {kids : ℕ → List ℕ},
    Walking S key w s kids us (some s.x) → s.x ∈ s.visited → s.first ∈ s.visited →
    s.visited.length ≤ n →
    MergedTo S key us w (mergeLoop (w.nodesWDegree.length - s.deg s.x) s.x (s.deg s.x) w)
      (s.merge key n) := by
  induction n with
  | zero =>
      intro w s kids _ hx _ hn
      rw [List.length_eq_zero_iff.mp (Nat.le_zero.mp hn)] at hx
      exact absurd hx List.not_mem_nil
  | succ n ih =>
      intro w s kids h hx hf hn
      obtain ⟨k, hk⟩ : ∃ k, w.nodesWDegree.length - s.deg s.x = k + 1 := by
        have := h.deg_lt (List.mem_append_left us hx)
        exact ⟨w.nodesWDegree.length - s.deg s.x - 1, by omega⟩
      rw [hk]
      rcases h.partner_eq with ⟨hp, hnull⟩ | ⟨y, hp, hy, hyv, hyx, hyd⟩
      · rw [Sweep.merge_none hp, mergeLoop, hnull]
        exact ⟨w, kids, if_pos (.inl rfl), h, hx, hf, rfl, .refl _, hnull⟩
      -- whichever of the two becomes the child, the degree of the other is the next one
      · have hstep : ∀ a b, a ∈ s.visited → b ∈ s.visited → a ≠ b → s.deg a = s.deg b →
            (s.x = a ∨ s.x = b) → key a ≤ key b →
            MergedTo S key us w (w.mem.makeChild a b >>= fun mem => mergeLoop k a (s.deg s.x + 1)
                { mem := mem
                  nodesWDegree := w.nodesWDegree.set (s.deg s.x) null
                  first := if b = w.first then a else w.first }) (merge key n (s.give a b)) := by
          intro a b ha hb hne hdeg hxab hle
          obtain ⟨m', kids₁, hrun, hwalking, hkept⟩ := h.give ha hb hne hdeg hxab hle
          have hlen : (s.give a b).visited.length ≤ n := by
            have := List.length_erase_of_mem hb
            have := List.length_pos_of_mem hb
            have : (s.give a b).visited.length = (s.visited.erase b).length := rfl
            omega
          have hx' : (s.give a b).x ∈ (s.give a b).visited := (List.mem_erase_of_ne hne).mpr ha
          have hdegx : (s.give a b).deg (s.give a b).x = s.deg s.x + 1 := by
            have hself : (s.give a b).deg (s.give a b).x = s.deg a + 1 := Function.update_self ..
            rw [hself]
            rcases hxab with hx | hx
            · rw [hx]
            · rw [hx, hdeg]
          obtain ⟨w', kids', hrun', hwalking', hx'', hf', hlen', hkept', hnull⟩ := ih hwalking hx'
            (give_first_mem ha hne hf) hlen
          rw [List.length_set] at hrun' hlen'
          have hplaces : w.nodesWDegree.length - (s.give a b).deg (s.give a b).x = k := by
            rw [hdegx]
            omega
          rw [hplaces, hdegx] at hrun'
          rw [hrun]
          exact ⟨w', kids', hrun', hwalking', hx'', hf', hlen', hkept.trans hkept', hnull⟩
        rw [Sweep.merge_some key hp, mergeLoop_succ hy (h.visited_ne_null hyv) (Ne.symm hyx)
          (h.alive hx) (h.alive hyv), h.key_eq]
        by_cases hlt : key y < key s.x
        · rw [if_pos hlt, if_pos hlt]
          exact hstep y s.x hyv hx hyx hyd (.inr rfl) hlt.le
        · rw [if_neg hlt, if_neg hlt]
          exact hstep s.x y hx hyv (Ne.symm hyx) hyd.symm (.inl rfl) (not_lt.mp hlt)

/-! ### The walk -/

/-- The loop goes on to the right of `x`. -/
def walkOn (fuel x : ℕ) (w : Walk K V) : Except Fault (Walk K V) :=
  if w.mem.right x = w.first then .ok w else walkLoop fuel (w.mem.right x) w

theorem walkLoop_succ {fuel : ℕ} {w' : Walk K V} {x' d' : ℕ} (hx : w.mem.alive x = true)
    (hrun : mergeLoop (w.nodesWDegree.length - w.mem.degree x) x (w.mem.degree x) w =
      .ok (x', d', w')) (hx' : w'.mem.alive x' = true) :
    walkLoop (fuel + 1) x w = walkOn fuel x' { w' with nodesWDegree := w'.nodesWDegree.set d' x' } := by
  rw [walkLoop, deref_ok hx]
  change (mergeLoop (w.nodesWDegree.length - w.mem.degree x) x (w.mem.degree x) w >>= _) = _
  rw [hrun]
  change (w'.mem.deref x' >>= _) = _
  rw [deref_ok hx']
  rfl

theorem set_of_getD {l : List ℕ} (hd : d < l.length) (h : l.getD d null = x) : l.set d x = l := by
  rw [← h, List.getD_eq_getElem?_getD, List.getElem?_eq_getElem hd, Option.getD_some,
    List.set_getElem_self]

/-- A root that was come past stays as it is. -/
theorem Walking.walkLoop_visited (h : Walking S key w s kids us none) (hx : x ∈ s.visited)
    (fuel : ℕ) : walkLoop (fuel + 1) x w = walkOn fuel x w := by
  have hlt := h.deg_lt (List.mem_append_left us hx)
  have hentry := h.entry x hx (Option.some_ne_none x)
  rw [h.deg_eq] at hlt hentry
  obtain ⟨k, hk⟩ : ∃ k, w.nodesWDegree.length - w.mem.degree x = k + 1 :=
    ⟨w.nodesWDegree.length - w.mem.degree x - 1, by omega⟩
  have hrun : mergeLoop (w.nodesWDegree.length - w.mem.degree x) x (w.mem.degree x) w =
      .ok (x, w.mem.degree x, w) := by
    rw [hk, mergeLoop, hentry]
    exact if_pos (.inr rfl)
  rw [walkLoop_succ (h.alive hx) hrun (h.alive hx), set_of_getD hlt hentry]

/-- The walk goes on along roots that were come past. -/
theorem Walking.walkOn_along (h : Walking S key w s kids us none) {l : List ℕ} : ∀ {x : ℕ},
    (∀ v ∈ l, v ∈ s.visited) → (∀ v ∈ l, v ≠ w.first) →
    List.IsChain (fun u v => w.mem.right u = v) (x :: l) → ∀ fuel,
    walkOn (fuel + l.length) x w = walkOn fuel ((x :: l).getLast (List.cons_ne_nil x l)) w := by
  induction l with
  | nil => exact fun _ _ _ _ => rfl
  | cons v l ih =>
      intro x hvisited hfirst hchain fuel
      have hv : w.mem.right x = v := hchain.rel
      rw [walkOn, hv, if_neg (hfirst v List.mem_cons_self), List.length_cons, ← Nat.add_assoc,
        h.walkLoop_visited (hvisited v List.mem_cons_self),
        ih (fun u hu => hvisited u (List.mem_cons_of_mem v hu))
          (fun u hu => hfirst u (List.mem_cons_of_mem v hu)) hchain.tail,
        List.getLast_cons (List.cons_ne_nil v l)]

/-- **The walk ends** when all roots were come past: it goes around to the one to stop at. -/
theorem Walking.walkOn_ends (h : Walking S key w s kids [] none) (hx : x ∈ s.visited)
    (hf : s.first ∈ s.visited) {fuel : ℕ} (hfuel : s.visited.length ≤ fuel) :
    walkOn fuel x w = .ok w := by
  have hl := h.trees.roots_linked
  rw [List.append_nil] at hl
  obtain ⟨a, b, hab⟩ := List.append_of_mem hx
  have hrot : s.visited ~r x :: (b ++ a) := by
    rw [hab]
    exact ⟨a.length, by simp⟩
  obtain ⟨k, hk, hnot, hlen, hchain, hlast⟩ := (hl.rotate hrot).exists_way
    (hrot.perm.mem_iff.mp hf)
  have hlen' := hrot.perm.length_eq
  rw [List.length_cons] at hlen'
  obtain ⟨f, rfl⟩ : ∃ f, fuel = f + k.length := ⟨fuel - k.length, by omega⟩
  rw [h.walkOn_along (fun v hv => hrot.perm.mem_iff.mpr (List.mem_cons_of_mem x (hk v hv)))
    (fun v hv e => hnot ((e.trans h.first_eq.symm) ▸ hv)) hchain, walkOn, hlast, if_pos h.first_eq]

/-- The next root is reached if the one to stop at does not stand before it. -/
theorem Walking.walkOn_reaches {u : ℕ} (h : Walking S key w s kids (u :: us) none)
    (hx : s.x ∈ s.visited) (hf : s.first ∈ s.visited) (hahead : s.first ∉ s.ahead) (fuel : ℕ) :
    walkOn (fuel + s.ahead.length) s.x w = walkLoop fuel u w := by
  obtain ⟨a, ha⟩ := Sweep.exists_ahead hx
  have hring := h.trees.roots_linked
  rw [ha, List.append_assoc] at hring
  have hne : a ++ (s.x :: s.ahead ++ u :: us) ≠ [] := by simp
  have hchain : List.IsChain (fun x y => w.mem.right x = y) (a ++ (s.x :: s.ahead ++ u :: us)) :=
    ((Ring.iff_chain hne).mp hring.ring).1.imp fun _ _ h => h.1
  obtain ⟨hway, -, hlast⟩ := List.isChain_append.mp (List.isChain_append.mp hchain).2.1
  have hnext := hlast _ (List.getLast_mem_getLast? (List.cons_ne_nil s.x s.ahead)) u rfl
  have hvisited : ∀ v ∈ s.ahead, v ∈ s.visited := fun v hv => by
    rw [ha]
    exact List.mem_append_right a (List.mem_cons_of_mem _ hv)
  have huf : u ≠ w.first := by
    rw [← h.first_eq]
    rintro rfl
    exact (List.nodup_append.mp h.trees.roots_linked.nodup).2.2 _ hf _ List.mem_cons_self rfl
  rw [h.walkOn_along hvisited (fun v hv e => hahead ((e.trans h.first_eq.symm) ▸ hv)) hway, walkOn,
    hnext, if_neg huf]

/-- A root is come past when it is in the table. -/
theorem Walking.enter (h : Walking S key w s kids us (some s.x)) (hx : s.x ∈ s.visited)
    (hnull : w.nodesWDegree.getD (s.deg s.x) null = null) :
    Walking S key { w with nodesWDegree := w.nodesWDegree.set (s.deg s.x) s.x } s kids us none := by
  have hlt := h.deg_lt (List.mem_append_left us hx)
  exact
    { trees := h.trees
      ordered := h.ordered
      key_eq := h.key_eq
      deg_eq := h.deg_eq
      first_eq := h.first_eq
      entry := by
        intro v hv _
        rw [getD_set hlt]
        by_cases hvx : v = s.x
        · rw [hvx, if_pos rfl]
        · have hentry := h.entry v hv fun e => hvx (Option.some.inj e)
          have hne : s.deg v ≠ s.deg s.x := fun e => by
            rw [e, hnull] at hentry
            exact h.visited_ne_null hv hentry.symm
          rw [if_neg hne]
          exact hentry
      table := by
        intro d hd
        rw [getD_set hlt] at hd ⊢
        split_ifs at hd ⊢ with hdx
        · exact ⟨hx, hdx.symm, Option.some_ne_none _⟩
        · obtain ⟨hv, hvd, -⟩ := h.table d hd
          exact ⟨hv, hvd, Option.some_ne_none _⟩
      bound := by
        rw [List.length_set]
        exact h.bound }

/-- **A turn of the outer loop** at a root that is reached for the first time. -/
theorem Walking.turn {u : ℕ} (h : Walking S key w s kids (u :: us) none)
    (hf : s.first ∈ s.visited ++ [u]) :
    ∃ w' kids', (∀ fuel, walkLoop (fuel + 1) u w = walkOn fuel (s.reach key u).x w') ∧
      Walking S key w' (s.reach key u) kids' us none ∧ (s.reach key u).x ∈ (s.reach key u).visited ∧
      (s.reach key u).first ∈ (s.reach key u).visited ∧
      w'.nodesWDegree.length = w.nodesWDegree.length ∧ Kept S w.mem w'.mem := by
  have hlist : s.visited ++ u :: us = s.visited ++ [u] ++ us := List.append_cons ..
  have hu : ∀ v ∈ s.visited, some v ≠ some u := fun v hv e =>
    (List.nodup_append.mp h.trees.roots_linked.nodup).2.2 v hv u List.mem_cons_self
      (Option.some.inj e)
  have hwalking : Walking S key w { s with visited := s.visited ++ [u], x := u } kids us
      (some u) :=
    { h with
      trees := hlist ▸ h.trees
      entry := by
        intro v hv hvu
        rcases List.mem_append.mp hv with hv | hv
        · exact h.entry v hv (Option.some_ne_none v)
        · exact absurd (congrArg some (List.mem_singleton.mp hv)) hvu
      table := by
        intro d hd
        obtain ⟨hv, hvd, -⟩ := h.table d hd
        exact ⟨List.mem_append_left _ hv, hvd, hu _ hv⟩
      bound := hlist ▸ h.bound }
  obtain ⟨w', kids', hrun, hwalking', hx, hf', hlen, hkept, hnull⟩ := mergeLoop_ok
    (s.visited.length + 1) hwalking (List.mem_append_right _ List.mem_cons_self) hf (by simp)
  refine ⟨_, kids', fun fuel => ?_, hwalking'.enter hx hnull, hx, hf', ?_, hkept⟩
  · have hu' := h.trees.alive u (h.trees.root_mem u (by simp))
    change mergeLoop (w.nodesWDegree.length - s.deg u) u (s.deg u) w = _ at hrun
    rw [show s.deg u = w.mem.degree u from congrFun h.deg_eq u] at hrun
    exact walkLoop_succ hu' hrun (hwalking'.alive hx)
  · rw [List.length_set, hlen]

/-- **The outer loop** comes past all roots. -/
theorem walkLoop_ok (us : List ℕ) : ∀ {w : Walk K V} {s : Sweep} {kids : ℕ → List ℕ} {u : ℕ},
    Walking S key w s kids (u :: us) none → s.first ∈ s.visited ++ [u] →
    s.comesPast key (u :: us) = true → ∀ fuel, (us.length + 1) * (S.card + 1) ≤ fuel →
    ∃ w' s' kids', walkLoop fuel u w = .ok w' ∧ Walking S key w' s' kids' [] none ∧
      s'.visited ≠ [] ∧ w'.nodesWDegree.length = w.nodesWDegree.length ∧ Kept S w.mem w'.mem := by
  induction us with
  | nil =>
      intro w s kids u h hf _ fuel hfuel
      obtain ⟨w', kids', hgo, hw', hx, hf', hlen, hkept⟩ := h.turn hf
      have hcard := hw'.trees.length_roots_le
      rw [List.append_nil] at hcard
      rw [List.length_nil, Nat.zero_add, Nat.one_mul] at hfuel
      obtain ⟨fuel, rfl⟩ : ∃ k, fuel = k + 1 := ⟨fuel - 1, by omega⟩
      refine ⟨w', _, kids', ?_, hw', List.ne_nil_of_mem hx, hlen, hkept⟩
      rw [hgo]
      exact hw'.walkOn_ends hx hf' (by omega)
  | cons v us ih =>
      intro w s kids u h hf hpast fuel hfuel
      obtain ⟨w', kids', hgo, hw', hx, hf', hlen, hkept⟩ := h.turn hf
      rw [Sweep.comesPast, Bool.and_eq_true, Bool.or_eq_true, decide_eq_true_eq,
        decide_eq_true_eq] at hpast
      have hahead := hpast.1.resolve_left (List.cons_ne_nil v us)
      have hcard := hw'.trees.length_roots_le
      obtain ⟨a, ha⟩ := Sweep.exists_ahead hx
      rw [ha] at hcard
      simp only [List.length_append, List.length_cons] at hcard hfuel
      have hmul : (us.length + 1 + 1) * (S.card + 1) = (us.length + 1) * (S.card + 1) + (S.card + 1) :=
        Nat.succ_mul _ _
      obtain ⟨fuel, rfl⟩ : ∃ k, fuel = k + (s.reach key u).ahead.length + 1 :=
        ⟨fuel - (s.reach key u).ahead.length - 1, by omega⟩
      obtain ⟨w'', s'', kids'', hrun, hw'', hne, hlen', hkept'⟩ := ih hw'
        (List.mem_append_left _ hf') hpast.2 fuel (by omega)
      refine ⟨w'', s'', kids'', ?_, hw'', hne, hlen'.trans hlen, hkept.trans hkept'⟩
      rw [hgo, hw'.walkOn_reaches hx hf' hahead, hrun]

/-! ### `consolidate` -/

theorem getD_replicate (n d : ℕ) : (List.replicate n null).getD d null = null := by
  rw [List.getD_eq_getElem?_getD, List.getElem?_replicate]
  split_ifs
  · rfl
  · rfl

/-- The entries of the table are the roots. -/
theorem Walking.table_perm (h : Walking S key w s kids [] none) :
    (w.nodesWDegree.filter (· ≠ null)).Perm s.visited := by
  have hget : ∀ i (hi : i < w.nodesWDegree.length), w.nodesWDegree.getD i null = w.nodesWDegree[i] :=
    fun i hi => by rw [List.getD_eq_getElem?_getD, List.getElem?_eq_getElem hi, Option.getD_some]
  have hd : (w.nodesWDegree.filter (· ≠ null)).Nodup := by
    refine List.pairwise_filter.mpr (List.pairwise_iff_getElem.mpr fun i j hi hj hij hni _ e => ?_)
    have hni' : w.nodesWDegree.getD i null ≠ null := by
      rw [hget i hi]
      exact of_decide_eq_true hni
    have heq : w.nodesWDegree.getD i null = w.nodesWDegree.getD j null := by
      rw [hget i hi, hget j hj, e]
    have hi' := (h.table i hni').2.1
    have hj' := (h.table j (heq ▸ hni')).2.1
    rw [heq] at hi'
    omega
  refine (List.perm_ext_iff_of_nodup hd h.visited_nodup).mpr fun v => ?_
  rw [List.mem_filter, decide_eq_true_eq]
  constructor
  · rintro ⟨hv, hvn⟩
    obtain ⟨i, hi, rfl⟩ := List.getElem_of_mem hv
    rw [← hget i hi] at hvn ⊢
    exact (h.table i hvn).1
  · intro hv
    have hentry := h.entry v hv (Option.some_ne_none v)
    have hlt := h.deg_lt (List.mem_append_left [] hv)
    refine ⟨?_, h.visited_ne_null hv⟩
    rw [← hentry, hget _ hlt]
    exact List.getElem_mem hlt

/-- **`consolidate`** keeps the trees' nodes and their order, and its first root is the least. -/
theorem consolidate_ok (maxDegree : ℕ → ℕ) {fh : FibHeap} {r : ℕ} {rs : List ℕ} {fuel : ℕ}
    (h : Trees m S kids (r :: rs)) (ho : Ordered m S kids) (hmin : fh.min ≠ null)
    (halive : m.alive fh.min = true) (hright : m.right fh.min = r)
    (hpast : (Sweep.start m.degree (r :: rs)).comesPast m.key (r :: rs) = true)
    (hbound : Sweep.weight m.degree (r :: rs) < 2 ^ maxDegree fh.numNodes)
    (hfuel : (rs.length + 1) * (S.card + 1) ≤ fuel) :
    ∃ m' kids' l, consolidate maxDegree fuel m fh = .ok (m', { fh with min := l.headD null }) ∧
      Trees m' S kids' l ∧ Ordered m' S kids' ∧ HeadLeast m' l ∧ l ≠ [] ∧ Kept S m m' := by
  have hwalking : Walking S m.key ⟨m, List.replicate (maxDegree fh.numNodes) null, r⟩
      (Sweep.start m.degree (r :: rs)) kids (r :: rs) none :=
    { trees := h
      ordered := ho
      key_eq := rfl
      deg_eq := rfl
      first_eq := rfl
      entry := fun v hv => absurd hv List.not_mem_nil
      table := fun d hd => absurd (getD_replicate _ d) hd
      bound := by
        rw [List.length_replicate]
        exact hbound }
  -- the roots that are left stand in the table, and the ring is built from it
  obtain ⟨w, s, kids', hrun, hw, hne, -, hkept⟩ := walkLoop_ok rs hwalking List.mem_cons_self hpast
    fuel hfuel
  have htrees := hw.trees
  rw [List.append_nil] at htrees
  have hperm := hw.table_perm
  obtain ⟨m', l, hrun', hrel, hl, hperm', hk, hleast⟩ := rebuild_ok
    (m := w.mem) (l := []) ⟨Ring.nil, List.nodup_nil, fun u hu => absurd hu List.not_mem_nil⟩
    (fun u hu => absurd hu List.not_mem_nil) (fun u hu => absurd hu List.not_mem_nil)
    (hperm.nodup_iff.mpr hw.visited_nodup)
    fun u hu hun => hw.alive (hperm.mem_iff.mp (List.mem_filter.mpr ⟨hu, decide_eq_true hun⟩))
  rw [List.nil_append] at hperm'
  have hkept' : Kept S w.mem m' := .relinked hrel hk fun u hu =>
    htrees.root_mem u ((hperm'.trans hperm).mem_iff.mp hu)
  refine ⟨m', kids', l, ?_, htrees.relink hrel hl (hperm'.trans hperm) hk, hkept'.ordered hw.ordered,
    hleast.relinked hrel, ?_, hkept.trans hkept'⟩
  · rw [consolidate, if_neg hmin, deref_ok halive]
    change (walkLoop fuel (m.right fh.min)
      ⟨m, List.replicate (maxDegree fh.numNodes) null, m.right fh.min⟩ >>= _) = _
    rw [hright, hrun]
    change (rebuild w.nodesWDegree w.mem null >>= _) = _
    rw [List.headD_nil] at hrun'
    rw [hrun']
    rfl
  · rintro rfl
    exact hne (List.nil_perm.mp (hperm'.trans hperm))

end FibMemory

end Goedb
