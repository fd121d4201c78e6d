import Mathlib.Data.List.Cycle
import Mathlib.GroupTheory.Perm.List

/-!
# Lib — doubly linked rings

Cells of a type `α` are linked by two functions: `nxt x` is the cell after `x` and `prv x` the
cell before it.  `Ring nxt prv l` says that the cells of `l`, in this order, form one closed ring:
each is linked to the one after it, and the last to the first.  It is Mathlib's `Cycle.Chain` of
the relation "`nxt x = y` and `prv y = x`", so it does not depend on where the list starts.

The operations are proved for every pair of link functions that agree with the old ones away from
the cells an operation writes:

* `Ring.concat`, `Ring.insert`: a new cell between the last one and the first, or behind any cell;
* `Ring.erase`: a cell taken out, its two neighbours linked to each other;
* `Ring.splice`: two rings become one.

`Ring.map` carries a ring along an injection of the cells.

`Round nxt l` asks for the one half of a ring that a walk forwards needs: the cells of `l` follow
each other, and the last is followed by the first.  From one cell on there is one such list
(`Round.unique`).
-/

namespace Lib

variable {α β : Type*}

/-- `y` follows `x`, and `x` precedes `y`. -/
def Links (nxt prv : α → α) (x y : α) : Prop := nxt x = y ∧ prv y = x

/-- The cells of `l` form one closed ring, in this order. -/
def Ring (nxt prv : α → α) (l : List α) : Prop := Cycle.Chain (Links nxt prv) (l : Cycle α)

namespace Ring

variable {nxt prv nxt' prv' : α → α} {l : List α} {a x z : α}

@[simp] theorem nil : Ring nxt prv ([] : List α) := Cycle.Chain.nil _

theorem cons_iff : Ring nxt prv (a :: l) ↔ List.IsChain (Links nxt prv) (a :: (l ++ [a])) :=
  Cycle.chain_coe_cons _ a l

theorem singleton_iff : Ring nxt prv [a] ↔ nxt a = a ∧ prv a = a :=
  Cycle.chain_singleton _ a

/-- Closing a list by its head adds no cell. -/
theorem mem_of_mem_close {b u : α} {t : List α} (h : u ∈ b :: (t ++ [b])) : u ∈ b :: t := by
  rcases List.mem_cons.mp h with rfl | h
  · simp
  · rcases List.mem_append.mp h with h | h
    · exact List.mem_cons_of_mem _ h
    · simp_all

/-- A ring may be read from any of its cells. -/
theorem rotate {l m : List α} (h : l ~r m) : Ring nxt prv l ↔ Ring nxt prv m := by
  unfold Ring
  rw [Cycle.coe_eq_coe.mpr h]

/-- A ring is an open chain whose two ends are linked. -/
theorem iff_chain (hne : l ≠ []) :
    Ring nxt prv l ↔
      List.IsChain (Links nxt prv) l ∧ nxt (l.getLast hne) = l.head hne ∧
        prv (l.head hne) = l.getLast hne := by
  obtain ⟨a, t, rfl⟩ := List.exists_cons_of_ne_nil hne
  rw [cons_iff, ← List.cons_append, List.isChain_append]
  simp [Links, List.getLast?_eq_some_getLast (List.cons_ne_nil a t)]

/-- The open chain of a ring is read off the link functions away from its two ends. -/
theorem chain_congr (hd : l.Nodup) (h : List.IsChain (Links nxt prv) l)
    (hn : ∀ u ∈ l, l.getLast? ≠ some u → nxt' u = nxt u)
    (hp : ∀ v ∈ l, l.head? ≠ some v → prv' v = prv v) :
    List.IsChain (Links nxt' prv') l := by
  rw [List.isChain_iff_forall_rel_of_append_cons_cons] at h ⊢
  intro u v p q e
  obtain ⟨h₁, h₂⟩ := h e
  -- `u` is not the last cell, as `v` stands after it; `v` is not the first
  have hu : l.getLast? ≠ some u := by
    intro hu
    have hm : u ∈ v :: q := by
      rw [e, List.getLast?_append_of_ne_nil _ (List.cons_ne_nil _ _),
        List.getLast?_cons_cons] at hu
      exact List.mem_of_mem_getLast? hu
    rw [e] at hd
    exact (List.nodup_cons.mp (List.nodup_append.mp hd).2.1).1 hm
  have hv : l.head? ≠ some v := by
    intro hv
    have hm : v ∈ p ++ [u] := by
      cases p with
      | nil => simp_all
      | cons b p => simp_all
    have e' : l = (p ++ [u]) ++ v :: q := by simp [e]
    rw [e'] at hd
    exact (List.nodup_append.mp hd).2.2 v hm v (by simp) rfl
  exact ⟨(hn u (by simp [e]) hu).trans h₁, (hp v (by simp [e]) hv).trans h₂⟩

variable (nxt' prv') in
/-- Two open chains without a common cell stay chains when only the links of their ends change. -/
theorem chain_parts {m : List α} (hd : (l ++ m).Nodup) (hl : List.IsChain (Links nxt prv) l)
    (hm : List.IsChain (Links nxt prv) m)
    (hn : ∀ u ∈ l ++ m, l.getLast? ≠ some u → m.getLast? ≠ some u → nxt' u = nxt u)
    (hp : ∀ v ∈ l ++ m, l.head? ≠ some v → m.head? ≠ some v → prv' v = prv v) :
    List.IsChain (Links nxt' prv') l ∧ List.IsChain (Links nxt' prv') m := by
  obtain ⟨hdl, hdm, hne⟩ := List.nodup_append.mp hd
  refine ⟨chain_congr hdl hl (fun u hu hlast => ?_) fun v hv hhead => ?_,
    chain_congr hdm hm (fun u hu hlast => ?_) fun v hv hhead => ?_⟩
  · exact hn u (List.mem_append_left m hu) hlast fun h => hne u hu u (List.mem_of_getLast? h) rfl
  · exact hp v (List.mem_append_left m hv) hhead fun h => hne v hv v (List.mem_of_head? h) rfl
  · exact hn u (List.mem_append_right l hu) (fun h => hne u (List.mem_of_getLast? h) u hu rfl) hlast
  · exact hp v (List.mem_append_right l hv) (fun h => hne v (List.mem_of_head? h) v hv rfl) hhead

/-- A ring depends only on the links of its own cells. -/
theorem congr (h : Ring nxt prv l) (hn : ∀ u ∈ l, nxt' u = nxt u)
    (hp : ∀ v ∈ l, prv' v = prv v) : Ring nxt' prv' l := by
  cases l with
  | nil => simp
  | cons b t =>
      rw [cons_iff] at h ⊢
      refine List.IsChain.imp_of_mem_imp (fun u v hu hv huv => ?_) h
      exact ⟨(hn u (mem_of_mem_close hu)).trans huv.1, (hp v (mem_of_mem_close hv)).trans huv.2⟩

/-- **A new cell at the end.**  `x` stands between the old last cell and the first. -/
theorem concat (h : Ring nxt prv l) (hd : l.Nodup) (hne : l ≠ [])
    (hn : ∀ u ∈ l, l.getLast? ≠ some u → nxt' u = nxt u)
    (hp : ∀ v ∈ l, l.head? ≠ some v → prv' v = prv v)
    (hz : nxt' (l.getLast hne) = x ∧ prv' x = l.getLast hne)
    (ha : nxt' x = l.head hne ∧ prv' (l.head hne) = x) : Ring nxt' prv' (l ++ [x]) := by
  obtain ⟨hc, -, -⟩ := (iff_chain hne).mp h
  have hc' := chain_congr hd hc hn hp
  rw [iff_chain (by simp)]
  refine ⟨?_, ?_, ?_⟩
  · rw [List.isChain_append]
    refine ⟨hc', List.isChain_singleton x, fun u hu v hv => ?_⟩
    rw [List.getLast?_eq_some_getLast hne] at hu
    simp only [Option.mem_def, Option.some.injEq, List.head?_cons] at hu hv
    subst hu hv
    exact hz
  · rw [List.getLast_append_singleton, List.head_append_of_ne_nil hne]
    exact ha.1
  · rw [List.getLast_append_singleton, List.head_append_of_ne_nil hne]
    exact ha.2

/-- **The first cell taken out** of a ring of at least two. -/
theorem tail {t : List α} (h : Ring nxt prv (x :: a :: t)) (hd : (x :: a :: t).Nodup)
    (hn : ∀ u ∈ a :: t, (a :: t).getLast? ≠ some u → nxt' u = nxt u)
    (hp : ∀ v ∈ a :: t, v ≠ a → prv' v = prv v)
    (hz : nxt' ((a :: t).getLast (List.cons_ne_nil a t)) = a ∧
      prv' a = (a :: t).getLast (List.cons_ne_nil a t)) : Ring nxt' prv' (a :: t) := by
  obtain ⟨hc, -, -⟩ := (iff_chain (List.cons_ne_nil _ _)).mp h
  rw [iff_chain (List.cons_ne_nil a t)]
  refine ⟨?_, hz.1, hz.2⟩
  refine chain_congr hd.of_cons hc.tail hn fun v hv hne => hp v hv ?_
  rintro rfl
  exact hne rfl

/-- The last two cells of a ring are linked. -/
theorem links_concat {p : List α} {b : α} (h : Ring nxt prv (p ++ [a] ++ [b])) :
    Links nxt prv a b := by
  obtain ⟨hc, -, -⟩ := (iff_chain (by simp)).mp h
  exact (List.isChain_append.mp hc).2.2 a (by simp) b (by simp)

section Links

variable (h : Ring nxt prv l)
include h

theorem nxt_mem (hx : x ∈ l) : nxt x ∈ l := by
  obtain ⟨p, q, rfl⟩ := List.append_of_mem hx
  rw [rotate (m := x :: (q ++ p)) ⟨p.length, by simp⟩, cons_iff] at h
  cases hq : q ++ p with
  | nil =>
      rw [hq] at h
      have := (List.isChain_pair.mp h).1
      simp [this]
  | cons b t =>
      rw [hq] at h
      have e := (List.rel_of_isChain_cons_cons h).1
      have hb : b ∈ q ++ p := by simp [hq]
      rw [e]
      rcases List.mem_append.mp hb with hb | hb <;> simp [hb]

theorem prv_nxt (hx : x ∈ l) : prv (nxt x) = x := by
  obtain ⟨p, q, rfl⟩ := List.append_of_mem hx
  rw [rotate (m := x :: (q ++ p)) ⟨p.length, by simp⟩, cons_iff] at h
  cases hq : q ++ p with
  | nil =>
      rw [hq] at h
      obtain ⟨h₁, h₂⟩ := List.isChain_pair.mp h
      rw [h₁, h₂]
  | cons b t =>
      rw [hq] at h
      obtain ⟨h₁, h₂⟩ := List.rel_of_isChain_cons_cons h
      rw [h₁, h₂]

/-- Read backwards, a ring is a ring. -/
theorem reverse : Ring prv nxt l.reverse := by
  cases l with
  | nil => simp
  | cons b t =>
      rw [List.reverse_cons, rotate (show t.reverse ++ [b] ~r [b] ++ t.reverse from List.isRotated_append),
        List.singleton_append, cons_iff]
      rw [cons_iff] at h
      have e : b :: (t.reverse ++ [b]) = (b :: (t ++ [b])).reverse := by simp
      rw [e, List.isChain_reverse]
      exact h.imp fun u v huv => ⟨huv.2, huv.1⟩

theorem prv_mem (hx : x ∈ l) : prv x ∈ l := by
  have := nxt_mem (reverse h) (x := x) (by simpa using hx)
  simpa using this

theorem nxt_prv (hx : x ∈ l) : nxt (prv x) = x :=
  prv_nxt (reverse h) (by simpa using hx)

theorem prv_head (hne : l ≠ []) : prv (l.head hne) = l.getLast hne :=
  ((iff_chain hne).mp h).2.2

theorem nxt_getLast (hne : l ≠ []) : nxt (l.getLast hne) = l.head hne :=
  ((iff_chain hne).mp h).2.1

/-- A cell that follows itself is alone. -/
theorem eq_singleton_of_nxt_eq (hd : l.Nodup) (hx : x ∈ l) (he : nxt x = x) : l = [x] := by
  obtain ⟨p, q, rfl⟩ := List.append_of_mem hx
  rw [rotate (m := x :: (q ++ p)) ⟨p.length, by simp⟩, cons_iff] at h
  cases hq : q ++ p with
  | nil =>
      obtain ⟨rfl, rfl⟩ := List.append_eq_nil_iff.mp hq
      rfl
  | cons b t =>
      rw [hq] at h
      have e := (List.rel_of_isChain_cons_cons h).1
      have hb : b ∈ q ++ p := by simp [hq]
      rw [he] at e
      subst e
      rw [List.nodup_middle, List.nodup_cons, List.mem_append] at hd
      exact absurd (List.mem_append.mp hb).symm hd.1

theorem eq_singleton_of_prv_eq (hd : l.Nodup) (hx : x ∈ l) (he : prv x = x) : l = [x] := by
  have := eq_singleton_of_nxt_eq (reverse h) (by simpa using hd) (by simpa using hx) he
  simpa using congrArg List.reverse this

end Links

/-- Every list without duplicates is a ring, of its own permutation. -/
theorem formPerm [DecidableEq α] (hd : l.Nodup) : Ring l.formPerm l.formPerm.symm l := by
  cases l with
  | nil => simp
  | cons b t =>
      rw [iff_chain (List.cons_ne_nil b t)]
      have hlast : (b :: t).formPerm ((b :: t).getLast (List.cons_ne_nil b t)) = b :=
        List.formPerm_apply_getLast b t
      refine ⟨List.isChain_iff_getElem.mpr fun i hi => ?_, hlast, ?_⟩
      · have hi' := List.formPerm_apply_lt_getElem _ hd i hi
        exact ⟨hi', (Equiv.symm_apply_eq _).mpr hi'.symm⟩
      · exact (Equiv.symm_apply_eq _).mpr hlast.symm

/-- A ring says where the links of its cells lead. -/
theorem nxt_unique (h : Ring nxt prv l) (h' : Ring nxt' prv' l) (hx : x ∈ l) : nxt x = nxt' x := by
  obtain ⟨p, q, rfl⟩ := List.append_of_mem hx
  have hrot : p ++ x :: q ~r x :: (q ++ p) := ⟨p.length, by simp⟩
  rw [rotate hrot, cons_iff] at h h'
  cases hq : q ++ p with
  | nil =>
      rw [hq] at h h'
      exact (List.isChain_pair.mp h).1.trans (List.isChain_pair.mp h').1.symm
  | cons b t =>
      rw [hq] at h h'
      exact (List.rel_of_isChain_cons_cons h).1.trans (List.rel_of_isChain_cons_cons h').1.symm

theorem nxt_eq_formPerm [DecidableEq α] (h : Ring nxt prv l) (hd : l.Nodup) (hx : x ∈ l) :
    nxt x = l.formPerm x := nxt_unique h (formPerm hd) hx

theorem prv_eq_formPerm [DecidableEq α] (h : Ring nxt prv l) (hd : l.Nodup) (hx : x ∈ l) :
    prv x = l.formPerm.symm x :=
  nxt_unique (reverse h) (reverse (formPerm hd)) (List.mem_reverse.mpr hx)

/-- **A cell taken out** of a ring of at least two: its neighbours are linked to each other, and
every other link of the remaining cells is kept. -/
theorem erase [DecidableEq α] (h : Ring nxt prv l) (hd : l.Nodup) (hx : x ∈ l) (hne : l ≠ [x])
    (hn : ∀ u ∈ l, u ≠ x → u ≠ prv x → nxt' u = nxt u)
    (hp : ∀ v ∈ l, v ≠ x → v ≠ nxt x → prv' v = prv v)
    (hz : nxt' (prv x) = nxt x ∧ prv' (nxt x) = prv x) : Ring nxt' prv' (l.erase x) := by
  obtain ⟨p, q, rfl⟩ := List.append_of_mem hx
  have hrot : (p ++ x :: q) ~r (x :: (q ++ p)) := ⟨p.length, by simp⟩
  have hxp : x ∉ p := fun hp' => by
    rw [List.nodup_middle, List.nodup_cons] at hd
    exact hd.1 (List.mem_append_left _ hp')
  rw [List.erase_append_right _ hxp, List.erase_cons_head,
    rotate (m := q ++ p) ⟨p.length, by simp⟩]
  rw [rotate hrot] at h
  rw [hrot.nodup_iff] at hd
  have hmem : ∀ u, u ∈ q ++ p → u ∈ p ++ x :: q ∧ u ≠ x := fun u hu => by
    refine ⟨?_, ?_⟩
    · rcases List.mem_append.mp hu with hu | hu <;> simp [hu]
    · rintro rfl
      exact (List.nodup_cons.mp hd).1 hu
  cases hq : q ++ p with
  | nil =>
      obtain ⟨rfl, rfl⟩ := List.append_eq_nil_iff.mp hq
      exact absurd rfl hne
  | cons b t =>
      rw [hq] at h hd hmem
      have hb : nxt x = b := (List.rel_of_isChain_cons_cons (cons_iff.mp h)).1
      have hlast : prv x = (b :: t).getLast (List.cons_ne_nil b t) := by
        have := prv_head h (List.cons_ne_nil _ _)
        simpa using this
      refine tail h hd (fun u hu hul => ?_) (fun v hv hvb => ?_) ?_
      · obtain ⟨hu₁, hu₂⟩ := hmem u hu
        refine hn u hu₁ hu₂ fun e => hul ?_
        rw [List.getLast?_eq_some_getLast (List.cons_ne_nil b t), ← hlast, e]
      · obtain ⟨hv₁, hv₂⟩ := hmem v hv
        exact hp v hv₁ hv₂ fun e => hvb (e.trans hb)
      · rw [← hlast, ← hb]
        exact hz

/-- A cell that is put behind another one. -/
theorem insert {p : α} (h : Ring nxt prv (p :: l)) (hd : (p :: l).Nodup)
    (hn : ∀ u ∈ l, nxt' u = nxt u) (hp : ∀ v ∈ p :: l, v ≠ nxt p → prv' v = prv v)
    (hz : nxt' p = x ∧ prv' x = p) (ha : nxt' x = nxt p ∧ prv' (nxt p) = x) :
    Ring nxt' prv' (p :: x :: l) := by
  have hrot : p :: l ~r l ++ [p] := List.isRotated_append (l := [p])
  have hne : l ++ [p] ≠ [] := List.append_ne_nil_of_right_ne_nil l (List.cons_ne_nil p [])
  have hl := (rotate hrot).mp h
  have hlast : (l ++ [p]).getLast hne = p := List.getLast_append_singleton l
  have hhead := nxt_getLast hl hne
  rw [hlast] at hhead
  have hring : Ring nxt' prv' ((l ++ [p]) ++ [x]) := by
    refine concat hl (hrot.perm.nodup_iff.mp hd) hne (fun u hu hlast => ?_) (fun v hv hfirst => ?_) ?_ ?_
    · rcases List.mem_append.mp hu with hu | hu
      · exact hn u hu
      · rw [List.mem_singleton] at hu
        subst hu
        exact absurd (by simp) hlast
    · refine hp v (hrot.perm.mem_iff.mpr hv) fun e => hfirst ?_
      rw [e, hhead, List.head?_eq_some_head hne]
    · rwa [hlast]
    · rwa [← hhead]
  refine (rotate ?_).mp hring
  rw [List.append_assoc]
  exact List.isRotated_append (l := l)

/-- Two rings become one. -/
theorem splice {b : α} {k : List α} (h : Ring nxt prv (a :: l)) (h' : Ring nxt prv (b :: k))
    (hd : (a :: l).Nodup) (hd' : (b :: k).Nodup)
    (hn : ∀ u ∈ a :: l, u ≠ a → nxt' u = nxt u) (hp : ∀ v ∈ a :: l, v ≠ nxt a → prv' v = prv v)
    (hn' : ∀ u ∈ b :: k, u ≠ prv b → nxt' u = nxt u) (hp' : ∀ v ∈ b :: k, v ≠ b → prv' v = prv v)
    (hab : nxt' a = b ∧ prv' b = a) (hba : nxt' (prv b) = nxt a ∧ prv' (nxt a) = prv b) :
    Ring nxt' prv' (a :: (b :: k ++ l)) := by
  have hrot : a :: l ~r l ++ [a] := List.isRotated_append (l := [a])
  have hne : l ++ [a] ≠ [] := List.append_ne_nil_of_right_ne_nil l (List.cons_ne_nil a [])
  have hne' : b :: k ≠ [] := List.cons_ne_nil b k
  have hl := (rotate hrot).mp h
  have hfirst : (l ++ [a]).head hne = nxt a := by
    have hlast := nxt_getLast hl hne
    rwa [List.getLast_append_singleton, eq_comm] at hlast
  have hlast : (b :: k).getLast hne' = prv b := (prv_head h' hne').symm
  have hc : List.IsChain (Links nxt' prv') (l ++ [a]) := by
    refine chain_congr (hrot.perm.nodup_iff.mp hd) ((iff_chain hne).mp hl).1
      (fun u hu hul => hn u (hrot.perm.mem_iff.mpr hu) fun e => hul ?_)
      fun v hv hvf => hp v (hrot.perm.mem_iff.mpr hv) fun e => hvf ?_
    · rw [e, List.getLast?_append_cons, List.getLast?_singleton]
    · rw [e, ← hfirst, List.head?_eq_some_head hne]
  have hc' : List.IsChain (Links nxt' prv') (b :: k) := by
    refine chain_congr hd' ((iff_chain hne').mp h').1 (fun u hu hul => hn' u hu fun e => hul ?_)
      fun v hv hvf => hp' v hv fun e => hvf ?_
    · rw [e, ← hlast, List.getLast?_eq_some_getLast hne']
    · rw [e]
      rfl
  have hring : Ring nxt' prv' ((l ++ [a]) ++ (b :: k)) := by
    refine (iff_chain (List.append_ne_nil_of_left_ne_nil hne _)).mpr ⟨?_, ?_, ?_⟩
    · refine List.isChain_append.mpr ⟨hc, hc', fun u hu v hv => ?_⟩
      simp only [List.getLast?_append_cons, List.getLast?_singleton, Option.mem_def,
        Option.some.injEq, List.head?_cons] at hu hv
      subst hu hv
      exact hab
    · rw [List.getLast_append_of_ne_nil _ hne', List.head_append_of_ne_nil hne, hlast, hfirst]
      exact hba.1
    · rw [List.getLast_append_of_ne_nil _ hne', List.head_append_of_ne_nil hne, hlast, hfirst]
      exact hba.2
  refine (rotate ?_).mp hring
  rw [List.append_assoc]
  exact List.isRotated_append (l := l)
/-- A ring carried along a map of the cells that commutes with the links. -/
theorem map {f : α → β} {nxt'' prv'' : β → β} (h : Ring nxt prv l)
    (hn : ∀ u ∈ l, nxt'' (f u) = f (nxt u)) (hp : ∀ v ∈ l, prv'' (f v) = f (prv v)) :
    Ring nxt'' prv'' (l.map f) := by
  cases l with
  | nil => simp
  | cons b t =>
      rw [List.map_cons, cons_iff]
      rw [cons_iff] at h
      have e : f b :: (t.map f ++ [f b]) = (b :: (t ++ [b])).map f := by simp
      rw [e, List.isChain_map]
      refine List.IsChain.imp_of_mem_imp (fun u v hu hv huv => ?_) h
      exact ⟨(hn u (mem_of_mem_close hu)).trans (congrArg f huv.1),
        (hp v (mem_of_mem_close hv)).trans (congrArg f huv.2)⟩

end Ring

/-- The cells of `l` follow each other in this order, and the last is followed by the first. -/
def Round (nxt : α → α) (l : List α) : Prop := Cycle.Chain (fun x y => nxt x = y) (l : Cycle α)

namespace Round

variable {nxt nxt' : α → α} {l : List α} {a b : α}

theorem of_ring {prv : α → α} (h : Ring nxt prv l) : Round nxt l := h.imp fun _ _ h => h.1

@[simp] theorem nil : Round nxt ([] : List α) := Cycle.Chain.nil _

theorem cons_iff : Round nxt (a :: l) ↔ List.IsChain (fun x y => nxt x = y) (a :: (l ++ [a])) :=
  Cycle.chain_coe_cons _ a l

theorem singleton_iff : Round nxt [a] ↔ nxt a = a := Cycle.chain_singleton _ a

theorem rotate {m : List α} (h : l ~r m) : Round nxt l ↔ Round nxt m := by
  unfold Round
  rw [Cycle.coe_eq_coe.mpr h]

/-- It depends only on the links of its own cells. -/
theorem congr (h : Round nxt l) (hn : ∀ u ∈ l, nxt' u = nxt u) : Round nxt' l := by
  cases l with
  | nil => simp
  | cons b t =>
      rw [cons_iff] at h ⊢
      refine List.IsChain.imp_of_mem_imp (fun u v hu hv huv => ?_) h
      exact (hn u (Ring.mem_of_mem_close hu)).trans huv

/-- A walk carried along a map of the cells that commutes with the links. -/
theorem map {f : α → β} {nxt'' : β → β} (h : Round nxt l)
    (hn : ∀ u ∈ l, nxt'' (f u) = f (nxt u)) : Round nxt'' (l.map f) := by
  cases l with
  | nil => exact nil
  | cons b t =>
      rw [List.map_cons, cons_iff]
      rw [cons_iff] at h
      have e : f b :: (t.map f ++ [f b]) = (b :: (t ++ [b])).map f := by simp
      rw [e, List.isChain_map]
      refine List.IsChain.imp_of_mem_imp (fun u v hu hv huv => ?_) h
      rw [hn u (Ring.mem_of_mem_close hu), huv]

theorem head_nxt (h : Round nxt (a :: b :: l)) : nxt a = b := (cons_iff.mp h).rel

theorem middle_nxt {p q : List α} (h : Round nxt (p ++ a :: b :: q)) : nxt a = b := by
  have hr : p ++ a :: b :: q ~r a :: b :: q ++ p := List.isRotated_append
  exact head_nxt ((rotate hr).mp h)

theorem last_nxt {p : List α} (h : Round nxt (a :: (p ++ [b]))) : nxt b = a := by
  rw [← List.cons_append] at h
  have hr : (a :: p) ++ [b] ~r [b] ++ a :: p := List.isRotated_append
  exact head_nxt ((rotate hr).mp h)

/-- What follows a cell, up to the end `b`, is determined by the links. -/
theorem isChain_unique {t u : List α} (ht : b ∉ t) (hu : b ∉ u)
    (h : List.IsChain (fun x y => nxt x = y) (a :: (t ++ [b])))
    (h' : List.IsChain (fun x y => nxt x = y) (a :: (u ++ [b]))) : t = u := by
  induction t generalizing a u with
  | nil =>
      cases u with
      | nil => rfl
      | cons d u => exact absurd (h.rel.symm.trans h'.rel) fun e => hu (e ▸ List.mem_cons_self)
  | cons c t ih =>
      cases u with
      | nil => exact absurd (h'.rel.symm.trans h.rel) fun e => ht (e ▸ List.mem_cons_self)
      | cons d u =>
          obtain rfl : c = d := h.rel.symm.trans h'.rel
          rw [ih (fun hb => ht (List.mem_cons_of_mem _ hb)) (fun hb => hu (List.mem_cons_of_mem _ hb))
            h.tail h'.tail]

/-- From one cell the links go round through one list. -/
theorem unique {t u : List α} (h : Round nxt (a :: t)) (h' : Round nxt (a :: u))
    (hd : (a :: t).Nodup) (hd' : (a :: u).Nodup) : t = u :=
  isChain_unique (List.nodup_cons.mp hd).1 (List.nodup_cons.mp hd').1 (cons_iff.mp h) (cons_iff.mp h')

end Round

end Lib
