import Goedb.DataStruct.FibSweep

/-!
# DataStruct — the operations of a Fibonacci heap

`Holds m fh S` says that the nodes of the heap `fh` are those of `S`: they form trees that are ordered
by their keys, `min` points at a root with the least key of all, and `num_nodes` counts them.  Every
operation leads from such a heap to such a heap, with the nodes it says.  `extract_min` does so where the
walk over the roots comes past all of them and their weight leaves the table room (`Fits`).
-/

namespace Goedb

open Lib

namespace FibMemory

variable {K V : Type} [LinearOrder K] {m m' m'' : FibMemory K V} {S T : Finset ℕ}
  {kids : ℕ → List ℕ} {roots rest : List ℕ} {fh fh₁ fh₂ : FibHeap} {x y p z : ℕ}

/-- The nodes of the heap are those of `S`. -/
def Holds (m : FibMemory K V) (fh : FibHeap) (S : Finset ℕ) : Prop :=
  ∃ kids roots, Trees m S kids roots ∧ Ordered m S kids ∧ fh.min = roots.headD null ∧
    (∀ p ∈ S, m.key fh.min ≤ m.key p) ∧ fh.numNodes = S.card

/-- The root list begins with the least root. -/
theorem exists_rest (h : x = roots.headD null) (hx : x ≠ null) : ∃ rest, roots = x :: rest := by
  cases roots with
  | nil => exact absurd h hx
  | cons r rs => exact ⟨rs, by rw [h, List.headD_cons]⟩

namespace Holds

/-- A heap of trees whose least root is the least of all. -/
theorem of_trees (ht : Trees m S kids roots) (ho : Ordered m S kids) (hx : fh.min ∈ roots)
    (hle : ∀ r ∈ roots, m.key fh.min ≤ m.key r) (hn : fh.numNodes = S.card) : Holds m fh S := by
  obtain ⟨a, b, rfl⟩ := List.append_of_mem hx
  have hrot : a ++ fh.min :: b ~r fh.min :: (b ++ a) := ⟨a.length, by simp⟩
  refine ⟨kids, _, ht.rotate hrot, ho, rfl, fun p hp => ?_, hn⟩
  obtain ⟨r, hr, hrp⟩ := ht.exists_root_le ho p hp
  exact (hle r hr).trans hrp

/-- The lesser one of two nodes is taken, and no root is less than both. -/
theorem of_lesser {a b n : ℕ} (ht : Trees m S kids roots) (ho : Ordered m S kids) (ha : a ∈ roots)
    (hb : m.key b < m.key a → b ∈ roots)
    (hle : ∀ r ∈ roots, m.key a ≤ m.key r ∨ m.key b ≤ m.key r) (hn : n = S.card) :
    Holds m ⟨if m.key b < m.key a then b else a, n⟩ S := by
  by_cases hlt : m.key b < m.key a
  · rw [if_pos hlt]
    exact .of_trees ht ho (hb hlt) (fun r hr => (hle r hr).elim hlt.le.trans id) hn
  · rw [if_neg hlt]
    exact .of_trees ht ho ha (fun r hr => (hle r hr).elim id (not_lt.mp hlt).trans) hn

/-- The empty heap. -/
theorem empty (m : FibMemory K V) : Holds m { min := null, numNodes := 0 } ∅ := by
  refine ⟨fun _ => [], [], ?_, fun p hp => absurd hp (Finset.notMem_empty p), rfl,
    fun p hp => absurd hp (Finset.notMem_empty p), rfl⟩
  exact
    { ne_null := fun p hp => absurd hp (Finset.notMem_empty p)
      alive := fun p hp => absurd hp (Finset.notMem_empty p)
      lt_fresh := fun p hp => absurd hp (Finset.notMem_empty p)
      roots_linked := ⟨Ring.nil, List.nodup_nil, fun u hu => absurd hu List.not_mem_nil⟩
      kids_linked := fun p hp => absurd hp (Finset.notMem_empty p)
      root_mem := fun r hr => absurd hr List.not_mem_nil
      root_parent := fun r hr => absurd hr List.not_mem_nil
      kid_mem := fun p hp => absurd hp (Finset.notMem_empty p)
      kid_parent := fun p hp => absurd hp (Finset.notMem_empty p)
      covered := fun p hp => absurd hp (Finset.notMem_empty p)
      child_eq := fun p hp => absurd hp (Finset.notMem_empty p)
      degree_eq := fun p hp => absurd hp (Finset.notMem_empty p)
      ranked := ⟨id, fun p hp => absurd hp (Finset.notMem_empty p)⟩ }

section

variable (h : Holds m fh S)
include h

theorem ne_null (hp : p ∈ S) : p ≠ null := by
  obtain ⟨_, _, ht, -⟩ := h
  exact ht.ne_null p hp

theorem alive (hp : p ∈ S) : m.alive p = true := by
  obtain ⟨_, _, ht, -⟩ := h
  exact ht.alive p hp

theorem lt_fresh (hp : p ∈ S) : p < m.fresh := by
  obtain ⟨_, _, ht, -⟩ := h
  exact ht.lt_fresh p hp

theorem card_le_fresh : S.card ≤ m.fresh := by
  have hsub : S ⊆ Finset.range m.fresh := fun p hp => Finset.mem_range.mpr (h.lt_fresh hp)
  have := Finset.card_le_card hsub
  rwa [Finset.card_range] at this

/-- **`min` is a null pointer exactly if the heap is empty.** -/
theorem min_eq_null_iff : fh.min = null ↔ S = ∅ := by
  obtain ⟨kids, roots, ht, -, hmin, -⟩ := h
  rw [hmin]
  cases roots with
  | nil => exact ⟨fun _ => ht.eq_empty_of_roots rfl, fun _ => rfl⟩
  | cons r rs =>
      refine ⟨fun hnull => absurd hnull (ht.root_ne_null List.mem_cons_self), fun he => ?_⟩
      have hr := ht.root_mem r List.mem_cons_self
      rw [he] at hr
      exact absurd hr (Finset.notMem_empty r)

theorem min_mem (hne : fh.min ≠ null) : fh.min ∈ S := by
  obtain ⟨kids, roots, ht, -, hmin, -⟩ := h
  cases roots with
  | nil => exact absurd hmin hne
  | cons r rs =>
      rw [hmin]
      exact ht.root_mem r List.mem_cons_self

theorem min_ne_null (hp : p ∈ S) : fh.min ≠ null := by
  intro hnull
  rw [h.min_eq_null_iff.mp hnull] at hp
  exact Finset.notMem_empty p hp

theorem min_le (hp : p ∈ S) : m.key fh.min ≤ m.key p := by
  obtain ⟨_, _, -, -, -, hle, -⟩ := h
  exact hle p hp

theorem numNodes_eq : fh.numNodes = S.card := by
  obtain ⟨_, _, -, -, -, -, hn⟩ := h
  exact hn

theorem min_of_numNodes_ne (hn : fh.numNodes ≠ 0) : fh.min ≠ null := by
  rw [ne_eq, h.min_eq_null_iff]
  rintro rfl
  exact hn h.numNodes_eq

/-- The heap depends on its own nodes only. -/
theorem congr (hn : ∀ p ∈ S, m'.node p = m.node p) (ha : ∀ p ∈ S, m'.alive p = m.alive p)
    (hf : m.fresh ≤ m'.fresh) : Holds m' fh S := by
  have hmin : ∀ p ∈ S, fh.min ∈ S := fun p hp => h.min_mem (h.min_ne_null hp)
  obtain ⟨kids, roots, ht, ho, hhead, hle, hcard⟩ := h
  have hkey : ∀ p ∈ S, m'.key p = m.key p := fun p hp => congrArg FibNode.key (hn p hp)
  refine ⟨kids, roots, ht.congr (.of_node hn ha) hf, fun p hp c hc => ?_, hhead, fun p hp => ?_, hcard⟩
  · rw [hkey p hp, hkey c (ht.kid_mem p hp c hc)]
    exact ho p hp c hc
  · rw [hkey _ (hmin p hp), hkey p hp]
    exact hle p hp

/-- The operations on one heap leave another one as it is. -/
theorem frame (hT : Frame T m m') (hd : Disjoint S T) : Holds m' fh S :=
  h.congr (fun p hp => hT.node p (Finset.disjoint_left.mp hd hp) (h.lt_fresh hp))
    (fun p hp => hT.alive p (Finset.disjoint_left.mp hd hp) (h.lt_fresh hp)) hT.fresh

end

end Holds

/-! ### `insert` -/

/-- A heap stays when a node is allocated. -/
theorem Holds.alloc (n : FibNode K V) (h : Holds m fh S) : Holds (m.alloc n) fh S :=
  h.congr (fun _ hp => node_alloc_of_ne n (h.lt_fresh hp).ne)
    (fun _ hp => Function.update_of_ne (h.lt_fresh hp).ne _ _) (Nat.le_succ _)

/-- **`insert`** adds a node. -/
theorem insert_ok [OrderBot K] (h : Holds m fh S) (hf : m.fresh ≠ null) {k : K} (hk : k ≠ ⊥) (v : V) :
    ∃ m' fh', m.insert fh k v = .ok (m', fh') ∧ Holds m' fh' (Insert.insert m.fresh S) ∧
      (∀ u, m'.key u = if u = m.fresh then k else m.key u) ∧
      (∀ u, m'.value u = if u = m.fresh then v else m.value u) ∧ Frame S m m' ∧
      m'.fresh = m.fresh + 1 := by
  have hx : m.fresh ∉ S := fun hx => lt_irrefl _ (h.lt_fresh hx)
  have hcard' : fh.numNodes + 1 = (Insert.insert m.fresh S).card := by
    rw [Finset.card_insert_of_notMem hx, h.numNodes_eq]
  set n : FibNode K V := ⟨k, v, null, null, null, null, 0, false⟩ with hn
  set m₁ := m.alloc n with hm₁
  have hnew : m₁.node m.fresh = n := node_alloc_self n
  have hax : m₁.alive m.fresh = true := alive_alloc_self n
  have hkey : ∀ {m' : FibMemory K V}, Relinked m₁ m' →
      ∀ u, m'.key u = if u = m.fresh then k else m.key u := fun hrel u =>
    (hrel.key u).trans (key_alloc n u)
  have hvalue : ∀ {m' : FibMemory K V}, Relinked m₁ m' →
      ∀ u, m'.value u = if u = m.fresh then v else m.value u := fun hrel u =>
    (hrel.value u).trans (value_alloc n u)
  have h₁ : Holds m₁ fh S := h.alloc n
  obtain ⟨kids, roots, ht, ho, hmin, hle, -⟩ := h₁
  -- wherever it is linked in, the new node is a tree of its own
  have hgrown : ∀ {m' : FibMemory K V} {l : List ℕ}, Relinked m₁ m' → Linked m' l →
      l.Perm (m.fresh :: roots) → KeepsLinks l m₁ m' →
      Trees m' (Insert.insert m.fresh S) (Function.update kids m.fresh []) l ∧
      Ordered m' (Insert.insert m.fresh S) (Function.update kids m.fresh []) := by
    intro m' l hrel hl hperm hk
    refine ⟨ht.insert hx hf hax (Nat.lt_succ_self _) (congrArg FibNode.parent hnew)
      (congrArg FibNode.child hnew) (congrArg FibNode.degree hnew) hrel hl hperm hk,
      fun p hp c hc => ?_⟩
    rw [hrel.key, hrel.key]
    exact ho.insert m.fresh hx p hp c hc
  rw [FibMemory.insert, if_neg hk]
  dsimp only
  rw [← hm₁]
  by_cases hnull : fh.min = null
  · have hroots : roots = [] := by
      cases roots with
      | nil => rfl
      | cons r rs => exact absurd (hmin.symm.trans hnull) (ht.root_ne_null List.mem_cons_self)
    rw [if_pos hnull, write_ok hax]
    have hrel : Relinked m₁ (m₁.assign m.fresh fun c => { c with left := m.fresh, right := m.fresh }) :=
      .assign (.refl m₁) fun _ => rfl
    have hk₂ : KeepsLinks [m.fresh] m₁
        (m₁.assign m.fresh fun c => { c with left := m.fresh, right := m.fresh }) := by
      intro u hu
      rw [List.mem_singleton] at hu
      rw [right_assign, left_assign, if_neg hu, if_neg hu]
      exact ⟨rfl, rfl⟩
    obtain ⟨ht', ho'⟩ := hgrown hrel (linked_singleton hax) (by rw [hroots]) hk₂
    refine ⟨_, _, rfl, .of_trees ht' ho' List.mem_cons_self ?_ hcard', hkey hrel, hvalue hrel,
      frame_alloc n hrel hk₂ ?_, rfl⟩
    · intro r hr
      rw [List.mem_singleton.mp hr]
    · exact fun r hr => .inl (List.mem_singleton.mp hr)
  · obtain ⟨rest, rfl⟩ := exists_rest hmin hnull
    have hxl : m.fresh ∉ fh.min :: rest := fun hx' => hx (ht.root_mem _ hx')
    obtain ⟨m₂, hrun, hrel, hl, hk₂⟩ := linkRight_ok ht.roots_linked hax hxl
    have hperm : (fh.min :: m.fresh :: rest).Perm (m.fresh :: fh.min :: rest) :=
      List.Perm.swap ..
    obtain ⟨ht', ho'⟩ := hgrown hrel hl hperm hk₂
    have hmem : ∀ r ∈ fh.min :: m.fresh :: rest, r = m.fresh ∨ r ∈ S := fun r hr =>
      (List.mem_cons.mp (hperm.mem_iff.mp hr)).imp_right (ht.root_mem r)
    rw [if_neg hnull, hrun]
    change ∃ m' fh', (m₂.deref fh.min >>= fun n => m₂.deref m.fresh >>= _) = _ ∧ _
    rw [deref_ok (hl.alive _ List.mem_cons_self), deref_ok (hl.alive m.fresh (by simp))]
    refine ⟨_, _, rfl, .of_lesser ht' ho' List.mem_cons_self
      (fun _ => List.mem_cons_of_mem _ List.mem_cons_self) (fun r hr => ?_) hcard', hkey hrel,
      hvalue hrel, frame_alloc n hrel hk₂ hmem, by rw [hrel.fresh]; rfl⟩
    rcases hmem r hr with rfl | hr
    · exact .inr (le_refl _)
    · refine .inl ?_
      rw [hrel.key, hrel.key]
      exact hle r hr

theorem insert_bot [OrderBot K] (m : FibMemory K V) (fh : FibHeap) (v : V) :
    ∃ text, m.insert fh ⊥ v = .error (.exit text) := ⟨_, if_pos rfl⟩

/-! ### `union` -/

/-- **`union`** joins two heaps. -/
theorem union_ok (h₁ : Holds m fh₁ S) (h₂ : Holds m fh₂ T) (hd : Disjoint S T) :
    ∃ m' fh', m.union fh₁ fh₂ = .ok (m', fh') ∧ Holds m' fh' (S ∪ T) ∧ Kept (S ∪ T) m m' := by
  have hn₁ := h₁.numNodes_eq
  have hn₂ := h₂.numNodes_eq
  have hcard : fh₁.numNodes + fh₂.numNodes = (S ∪ T).card := by
    rw [Finset.card_union_of_disjoint hd, hn₁, hn₂]
  rw [union]
  by_cases h0₁ : fh₁.numNodes = 0
  · have hS : S = ∅ := Finset.card_eq_zero.mp (hn₁.symm.trans h0₁)
    subst hS
    rw [Finset.empty_union] at hcard ⊢
    by_cases h0₂ : fh₂.numNodes = 0
    · have hT : T = ∅ := Finset.card_eq_zero.mp (hn₂.symm.trans h0₂)
      subst hT
      rw [if_pos ⟨h0₁, h0₂⟩]
      exact ⟨m, _, rfl, Holds.empty m, .refl m⟩
    · rw [if_neg fun h => h0₂ h.2, if_pos (.inl h0₁), if_pos h0₁]
      obtain ⟨kids, roots, ht, ho, hmin, hle, -⟩ := h₂
      exact ⟨m, _, rfl, ⟨kids, roots, ht, ho, hmin, hle, hcard⟩, .refl m⟩
  · rw [if_neg fun h => h0₁ h.1]
    by_cases h0₂ : fh₂.numNodes = 0
    · have hT : T = ∅ := Finset.card_eq_zero.mp (hn₂.symm.trans h0₂)
      subst hT
      rw [Finset.union_empty] at hcard ⊢
      rw [if_pos (.inr h0₂), if_neg h0₁]
      obtain ⟨kids, roots, ht, ho, hmin, hle, -⟩ := h₁
      exact ⟨m, _, rfl, ⟨kids, roots, ht, ho, hmin, hle, hcard⟩, .refl m⟩
    · rw [if_neg (not_or.mpr ⟨h0₁, h0₂⟩)]
      have hne₁ := h₁.min_of_numNodes_ne h0₁
      have hne₂ := h₂.min_of_numNodes_ne h0₂
      obtain ⟨kids, roots, ht, ho, hmin, hle, -⟩ := h₁
      obtain ⟨kids', roots', ht', ho', hmin', hle', -⟩ := h₂
      obtain ⟨rest, rfl⟩ := exists_rest hmin hne₁
      obtain ⟨rest', rfl⟩ := exists_rest hmin' hne₂
      obtain ⟨m', hrun, hrel, hl, hk⟩ := splice_ok ht.roots_linked ht'.roots_linked fun u hu hu' =>
        Finset.disjoint_left.mp hd (ht.root_mem u hu) (ht'.root_mem u hu')
      have hmem : ∀ r, r ∈ fh₁.min :: (fh₂.min :: rest' ++ rest) ↔
          r ∈ fh₁.min :: rest ∨ r ∈ fh₂.min :: rest' := by
        intro r
        simp only [List.mem_cons, List.mem_append]
        tauto
      have htrees := ht.union ht' hd hrel hl hmem hk
      have hkept : Kept (S ∪ T) m m' := .relinked hrel hk htrees.root_mem
      rw [hrun]
      change ∃ m'' fh', (m'.deref fh₂.min >>= fun n₂ => m'.deref fh₁.min >>= _) = _ ∧ _
      rw [deref_ok (hl.alive fh₂.min (by simp)), deref_ok (hl.alive fh₁.min List.mem_cons_self)]
      refine ⟨m', _, rfl, .of_lesser htrees (hkept.ordered (ho.union ho' hd)) List.mem_cons_self
        (fun _ => by simp) (fun r hr => ?_) hcard, hkept⟩
      rw [hkept.key, hkept.key, hkept.key]
      exact (Finset.mem_union.mp (htrees.root_mem r hr)).imp (hle r) (hle' r)

/-! ### `extract_min` -/

/-- The nodes of a ring from `p` on, up to `stop` and at most `n`. -/
def ringFrom (m : FibMemory K V) (stop : ℕ) : (n p : ℕ) → List ℕ
  | 0, _ => []
  | n + 1, p => if p = stop then [] else p :: ringFrom m stop n (m.right p)

/-- The nodes of the ring of `p`. -/
def ringOf (m : FibMemory K V) (n p : ℕ) : List ℕ :=
  if p = null then [] else p :: ringFrom m p n (m.right p)

/-- The roots that `extract_min` leaves to `consolidate`, in the order in which it walks over them: the
children of the least node, the last one first, and the other roots. -/
def rootsLeft (m : FibMemory K V) (fh : FibHeap) : List ℕ :=
  (ringOf m fh.numNodes (m.child fh.min)).reverse ++
    ringFrom m fh.min fh.numNodes (m.right fh.min)

/-- The walk of `consolidate` over the roots that are left comes past all of them, and they weigh less
than the table has room for. -/
def Fits (maxDegree : ℕ → ℕ) (m : FibMemory K V) (fh : FibHeap) : Prop :=
  (Sweep.start m.degree (rootsLeft m fh)).comesPast m.key (rootsLeft m fh) = true ∧
    Sweep.weight m.degree (rootsLeft m fh) < 2 ^ maxDegree fh.numNodes

instance (maxDegree : ℕ → ℕ) (m : FibMemory K V) (fh : FibHeap) : Decidable (Fits maxDegree m fh) :=
  inferInstanceAs (Decidable (_ ∧ _))

omit [LinearOrder K] in
theorem ringFrom_eq {stop : ℕ} {l : List ℕ} : ∀ {n p : ℕ},
    List.IsChain (fun u v => m.right u = v) (p :: l) → stop ∉ l →
    m.right ((p :: l).getLast (List.cons_ne_nil p l)) = stop → l.length < n →
    ringFrom m stop n (m.right p) = l := by
  induction l with
  | nil =>
      intro n p _ _ hlast hn
      obtain ⟨n, rfl⟩ : ∃ k, n = k + 1 := ⟨n - 1, by simp at hn; omega⟩
      exact if_pos hlast
  | cons v l ih =>
      intro n p hchain hstop hlast hn
      rw [List.length_cons] at hn
      obtain ⟨n, rfl⟩ : ∃ k, n = k + 1 := ⟨n - 1, by omega⟩
      rw [List.mem_cons, not_or] at hstop
      rw [List.getLast_cons (List.cons_ne_nil v l)] at hlast
      rw [hchain.rel, ringFrom, if_neg (Ne.symm hstop.1),
        ih hchain.tail hstop.2 hlast (by omega)]

omit [LinearOrder K] in
/-- A ring is read off the links. -/
theorem Linked.ringFrom_eq {l : List ℕ} {n : ℕ} (h : Linked m (x :: l)) (hn : l.length < n) :
    ringFrom m x n (m.right x) = l := by
  obtain ⟨hchain, hlast, -⟩ := (Ring.iff_chain (List.cons_ne_nil x l)).mp h.ring
  exact FibMemory.ringFrom_eq (hchain.imp fun _ _ h => h.1) (List.nodup_cons.mp h.nodup).1 hlast hn

omit [LinearOrder K] in
theorem Linked.ringOf_eq {l : List ℕ} {n : ℕ} (h : Linked m l) (hnull : ∀ u ∈ l, u ≠ null)
    (hn : l.length ≤ n) : ringOf m n (l.headD null) = l := by
  cases l with
  | nil => exact if_pos rfl
  | cons x l =>
      rw [ringOf, List.headD_cons, if_neg (hnull x List.mem_cons_self), h.ringFrom_eq hn]

omit [LinearOrder K] in
theorem Trees.rootsLeft_eq (h : Trees m S kids (fh.min :: rest)) (hn : fh.numNodes = S.card) :
    rootsLeft m fh = (kids fh.min).reverse ++ rest := by
  have hmin := h.root_mem fh.min List.mem_cons_self
  have hkids := h.length_kids_le hmin
  rw [← hn] at hkids
  have hrest := h.length_roots_le
  rw [List.length_cons, ← hn] at hrest
  rw [rootsLeft, h.child_eq _ hmin, (h.kids_linked _ hmin).ringOf_eq
    (fun c hc => h.ne_null c (h.kid_mem _ hmin c hc)) hkids, h.roots_linked.ringFrom_eq hrest]

omit [LinearOrder K] in
/-- What is left of the trees when a root is taken out and its children are roots. -/
theorem Trees.lift (h : Trees m S kids (z :: rest)) (hl : Linked m' ((kids z).reverse ++ rest))
    (hlift : Lifted (kids z) m m') (hk : KeepsLinks (z :: ((kids z).reverse ++ rest)) m m') :
    Trees m' (S.erase z) kids ((kids z).reverse ++ rest) := by
  have hz : z ∈ S := h.root_mem z List.mem_cons_self
  have hmem : ∀ r, r ∈ (kids z).reverse ++ rest ↔ r ∈ kids z ∨ r ∈ rest := fun r => by
    rw [List.mem_append, List.mem_reverse]
  have hzrest : z ∉ rest := (List.nodup_cons.mp h.roots_linked.nodup).1
  have hrest : ∀ r ∈ rest, r ∉ kids z := fun r hr hrk =>
    h.kid_not_root hz hrk (List.mem_cons_of_mem z hr)
  have hnotz : ∀ p ∈ S, ∀ c ∈ kids p, c ≠ z := fun p hp c hc e =>
    h.kid_not_root hp hc (e ▸ List.mem_cons_self)
  -- no other node has a child that was lifted
  have hunique : ∀ p ∈ S.erase z, ∀ c ∈ kids p, c ∉ kids z := fun p hp c hc hcz =>
    Finset.ne_of_mem_erase hp (h.kid_unique (Finset.mem_of_mem_erase hp) hz hc hcz)
  exact
    { ne_null := fun p hp => h.ne_null p (Finset.mem_of_mem_erase hp)
      alive := by
        rw [hlift.alive]
        exact fun p hp => h.alive p (Finset.mem_of_mem_erase hp)
      lt_fresh := by
        rw [hlift.fresh]
        exact fun p hp => h.lt_fresh p (Finset.mem_of_mem_erase hp)
      roots_linked := hl
      kids_linked := by
        intro p hp
        have hpS := Finset.mem_of_mem_erase hp
        refine (h.kids_linked p hpS).of_keepsLinks hk (fun c hc hc' => ?_) hlift.alive
        rcases List.mem_cons.mp hc' with hcz | hc'
        · exact hnotz p hpS c hc hcz
        · rcases (hmem c).mp hc' with hc' | hc'
          · exact hunique p hp c hc hc'
          · exact h.kid_not_root hpS hc (List.mem_cons_of_mem z hc')
      root_mem := by
        intro r hr
        rcases (hmem r).mp hr with hr | hr
        · exact Finset.mem_erase.mpr ⟨h.kid_ne hz hr, h.kid_mem z hz r hr⟩
        · exact Finset.mem_erase.mpr ⟨fun e => hzrest (e ▸ hr),
            h.root_mem r (List.mem_cons_of_mem z hr)⟩
      root_parent := by
        intro r hr
        rw [hlift.parent]
        rcases (hmem r).mp hr with hr | hr
        · exact if_pos hr
        · rw [if_neg (hrest r hr)]
          exact h.root_parent r (List.mem_cons_of_mem z hr)
      kid_mem := by
        intro p hp c hc
        have hpS := Finset.mem_of_mem_erase hp
        exact Finset.mem_erase.mpr ⟨hnotz p hpS c hc, h.kid_mem p hpS c hc⟩
      kid_parent := by
        intro p hp c hc
        rw [hlift.parent, if_neg (hunique p hp c hc)]
        exact h.kid_parent p (Finset.mem_of_mem_erase hp) c hc
      covered := by
        intro c hc
        obtain ⟨hcz, hcS⟩ := Finset.mem_erase.mp hc
        rcases h.covered c hcS with hr | ⟨p, hp, hcp⟩
        · exact .inl ((hmem c).mpr (.inr ((List.mem_cons.mp hr).resolve_left hcz)))
        · by_cases hpz : p = z
          · exact .inl ((hmem c).mpr (.inl (hpz ▸ hcp)))
          · exact .inr ⟨p, Finset.mem_erase.mpr ⟨hpz, hp⟩, hcp⟩
      child_eq := fun p hp =>
        (hlift.child p).trans (h.child_eq p (Finset.mem_of_mem_erase hp))
      degree_eq := fun p hp =>
        (hlift.degree p).trans (h.degree_eq p (Finset.mem_of_mem_erase hp))
      ranked := by
        obtain ⟨rank, hrank⟩ := h.ranked
        exact ⟨rank, fun p hp => hrank p (Finset.mem_of_mem_erase hp)⟩ }

/-- What `extract_min` does to the roots that are left: there are none, or `consolidate` merges them. -/
theorem settle_ok {maxDegree : ℕ → ℕ} {fuel : ℕ} {l : List ℕ} (ht : Trees m S kids l)
    (ho : Ordered m S kids) (hne : fh.min ≠ null) (hz : m.alive fh.min = true) (hzl : fh.min ∉ l)
    (hright : m.right fh.min = l.headD fh.min)
    (hcomes : (Sweep.start m.degree l).comesPast m.key l = true)
    (hweight : Sweep.weight m.degree l < 2 ^ maxDegree fh.numNodes)
    (hcard : fh.numNodes - 1 = S.card) (hfuel : l.length * (S.card + 1) ≤ fuel) :
    ∃ m' min, settle maxDegree fuel m fh = .ok (m', { fh with min := min }) ∧
      Holds m' ⟨min, fh.numNodes - 1⟩ S ∧ Kept S m m' := by
  rw [settle, deref_ok hz]
  change ∃ m' min, (if m.right fh.min = fh.min then Except.ok (m, { fh with min := null }) else _) = _ ∧ _
  cases l with
  | nil =>
      have hself : m.right fh.min = fh.min := hright
      rw [if_pos hself]
      refine ⟨m, null, rfl, ⟨kids, [], ht, ho, rfl, fun p hp => ?_, hcard⟩, .refl m⟩
      rw [ht.eq_empty_of_roots rfl] at hp
      exact absurd hp (Finset.notMem_empty p)
  | cons r rs =>
      have hr : m.right fh.min = r := hright
      have hrz : m.right fh.min ≠ fh.min := by
        rw [hr]
        exact fun e => hzl (e ▸ List.mem_cons_self)
      obtain ⟨m', kids', l', hrun, ht', ho', hleast, hne', hkept⟩ :=
        consolidate_ok maxDegree ht ho hne hz hr hcomes hweight hfuel
      obtain ⟨r', rs', rfl⟩ := List.exists_cons_of_ne_nil hne'
      rw [if_neg hrz]
      exact ⟨m', r', hrun, .of_trees ht' ho' List.mem_cons_self hleast hcard, hkept⟩

/-- **`extract_min`** takes the least node out of a heap that fits. -/
theorem extractMin_ok {maxDegree : ℕ → ℕ} (h : Holds m fh S) (hne : fh.min ≠ null)
    (hfits : Fits maxDegree m fh) {fuel : ℕ} (hfuel : (S.card + 1) * (S.card + 1) ≤ fuel) :
    ∃ m' fh', m.extractMin maxDegree fuel fh = .ok (fh.min, m', fh') ∧
      Holds m' fh' (S.erase fh.min) ∧ Kept S m m' := by
  have hz := h.min_mem hne
  obtain ⟨kids, roots, ht, ho, hmin, hle, hcard⟩ := h
  obtain ⟨rest, rfl⟩ := exists_rest hmin hne
  rw [Fits, ht.rootsLeft_eq hcard] at hfits
  set l := (kids fh.min).reverse ++ rest with hl
  have hlength := ht.length_kids_le hz
  obtain ⟨m₁, hrun₁, hlift₁, hl₁, hk₁⟩ := liftChildren_ok (ht.kids_linked _ hz) ht.roots_linked
    (fun c hc => ht.kid_not_root hz hc) (fun c hc => ht.ne_null c (ht.kid_mem _ hz c hc))
    (show (kids fh.min).length < fuel by nlinarith)
  obtain ⟨m₂, hrun₂, hrel₂, hl₂, hk₂⟩ := unlink_ok hl₁ List.mem_cons_self
  rw [List.erase_cons_head] at hl₂ hk₂
  have hlift₂ := hlift₁.relink hrel₂
  have ht₂ := ht.lift hl₂ hlift₂ (hk₁.trans (hk₂.mono fun u => List.mem_cons_of_mem _))
  have hzl : fh.min ∉ l := (List.nodup_cons.mp hl₁.nodup).1
  have hlS : ∀ u ∈ l, u ∈ S := fun u hu => Finset.mem_of_mem_erase (ht₂.root_mem u hu)
  have hkept₂ : Kept S m m₂ := by
    refine ⟨hlift₂.key, hlift₂.value, fun u hu => ?_, hlift₂.alive, hlift₂.fresh⟩
    have hul : u ∉ l := fun hul => hu (hlS u hul)
    have huz : u ∉ fh.min :: l := fun hmem => (List.mem_cons.mp hmem).elim (fun e => hu (e ▸ hz)) hul
    have huk : u ∉ kids fh.min := fun huk => hu (ht.kid_mem _ hz u huk)
    rw [hlift₂.node, if_neg huk, (hk₂ u hul).1, (hk₂ u hul).2, (hk₁ u huz).1, (hk₁ u huz).2]
    rfl
  -- the node that is taken out still points at the first root that is left
  have hright : m₂.right fh.min = l.headD fh.min := (hk₂ _ hzl).1.trans hl₁.right_eq
  have hz₂ : m₂.alive fh.min = true := by
    rw [hkept₂.alive]
    exact ht.alive _ hz
  have hdegree : m₂.degree = m.degree := funext hlift₂.degree
  have hkey : m₂.key = m.key := funext hlift₂.key
  have hcard' : fh.numNodes - 1 = (S.erase fh.min).card := by
    rw [Finset.card_erase_of_mem hz, hcard]
  have hcardle := Finset.card_le_card (Finset.erase_subset fh.min S)
  have hlen : l.length ≤ S.card + 1 := ht₂.length_roots_le.trans (hcardle.trans (Nat.le_succ _))
  obtain ⟨m', min', hsettle, hH', hkept'⟩ := settle_ok ht₂
    (fun p hp => hkept₂.ordered ho p (Finset.mem_of_mem_erase hp)) hne hz₂ hzl hright
    (by rw [hdegree, hkey]; exact hfits.1) (by rw [hdegree]; exact hfits.2) hcard'
    ((Nat.mul_le_mul hlen (Nat.succ_le_succ hcardle)).trans hfuel)
  refine ⟨m', _, ?_, hH', hkept₂.trans (hkept'.mono (Finset.erase_subset fh.min S))⟩
  rw [extractMin, if_neg hne, deref_ok (ht.alive _ hz)]
  change (liftChildren fh.min fuel (m.child fh.min) m >>= _) = _
  rw [ht.child_eq _ hz, hrun₁]
  change (m₁.unlink fh.min >>= _) = _
  rw [hrun₂]
  change (settle maxDegree fuel m₂ fh >>= _) = _
  rw [hsettle]
  rfl

theorem extractMin_null (maxDegree : ℕ → ℕ) (fuel : ℕ) (m : FibMemory K V) (h : fh.min = null) :
    ∃ text, m.extractMin maxDegree fuel fh = .error (.exit text) := ⟨_, if_pos h⟩

/-! ### `decrease_key` and `delete` -/

omit [LinearOrder K] in
/-- A node that is no root is a child of its parent. -/
theorem Trees.mem_kids_parent (h : Trees m S kids roots) (hx : x ∈ S) (hp : m.parent x ≠ null) :
    m.parent x ∈ S ∧ x ∈ kids (m.parent x) := by
  rcases h.covered x hx with hr | ⟨p, hpS, hxp⟩
  · exact absurd (h.root_parent x hr) hp
  · rw [h.kid_parent p hpS x hxp]
    exact ⟨hpS, hxp⟩

/-- **The cascading cuts** leave trees: every cut adds a root, and there are no more roots than nodes. -/
theorem cascadingLoop_ok (fuel : ℕ) : ∀ {m : FibMemory K V} {kids : ℕ → List ℕ} {rest : List ℕ}
    {x : ℕ}, Trees m S kids (fh.min :: rest) → Ordered m S kids → x ∈ S →
    S.card < fuel + (rest.length + 1) →
    ∃ m' kids' rest', cascadingLoop fh fuel x m = .ok m' ∧ Trees m' S kids' (fh.min :: rest') ∧
      Ordered m' S kids' ∧ Kept S m m' := by
  induction fuel with
  | zero =>
      intro m kids rest x ht _ _ hlt
      have := ht.length_roots_le
      rw [List.length_cons] at this
      omega
  | succ fuel ih =>
      intro m kids rest x ht ho hx hlt
      rw [cascadingLoop, deref_ok (ht.alive x hx)]
      change ∃ m' kids' rest', (if m.parent x = null then Except.ok m
        else if (m.node x).mark = false then m.write x _
        else m.cut fh x (m.parent x) >>= fun m' => cascadingLoop fh fuel (m.parent x) m') = _ ∧ _
      by_cases hnull : m.parent x = null
      · rw [if_pos hnull]
        exact ⟨m, kids, rest, rfl, ht, ho, .refl m⟩
      · rw [if_neg hnull]
        by_cases hmark : (m.node x).mark = false
        · rw [if_pos hmark, write_ok (ht.alive x hx)]
          have hkept : Kept S m (m.assign x fun c => { c with mark := true }) :=
            .assign hx fun _ => ⟨rfl, rfl⟩
          exact ⟨_, kids, rest, rfl, ht.congr (.assign S m x fun _ => ⟨rfl, rfl, rfl, rfl, rfl⟩)
            (Nat.le_refl _), hkept.ordered ho, hkept⟩
        · obtain ⟨hp, hxp⟩ := ht.mem_kids_parent hx hnull
          obtain ⟨m', hrun, ht', hkept⟩ := ht.cut hp hxp
          obtain ⟨m'', kids'', rest'', hrun', ht'', ho'', hkept'⟩ := ih ht'
            (hkept.ordered (ho.cut _ x)) hp (by rw [List.length_cons]; omega)
          rw [if_neg hmark, hrun]
          exact ⟨m'', kids'', rest'', hrun', ht'', ho'', hkept.trans hkept'⟩

/-- The cuts bring the node `x` in order, which has got a lesser key. -/
theorem cutLesser_ok {fuel : ℕ} (ht : Trees m S kids (fh.min :: rest)) (hx : x ∈ S)
    (ho : ∀ p ∈ S, ∀ c ∈ kids p, c ≠ x → m.key p ≤ m.key c) (hfuel : S.card ≤ fuel) :
    ∃ m' kids' rest', m.cutLesser fuel fh x = .ok m' ∧ Trees m' S kids' (fh.min :: rest') ∧
      Ordered m' S kids' ∧ Kept S m m' := by
  rw [cutLesser, deref_ok (ht.alive x hx)]
  change ∃ m' kids' rest', (if m.parent x = null then Except.ok m
    else m.deref (m.parent x) >>= fun p => if m.key x < p.key then
      m.cut fh x (m.parent x) >>= fun m' => m'.cascadingCut fuel fh (m.parent x) else _) = _ ∧ _
  by_cases hnull : m.parent x = null
  · rw [if_pos hnull]
    refine ⟨m, kids, rest, rfl, ht, fun p hp c hc => ho p hp c hc ?_, .refl m⟩
    rintro rfl
    exact ht.ne_null p hp ((ht.kid_parent p hp c hc).symm.trans hnull)
  · obtain ⟨hp, hxp⟩ := ht.mem_kids_parent hx hnull
    rw [if_neg hnull, deref_ok (ht.alive _ hp)]
    change ∃ m' kids' rest', (if m.key x < m.key (m.parent x) then
      m.cut fh x (m.parent x) >>= fun m' => m'.cascadingCut fuel fh (m.parent x) else Except.ok m) = _ ∧ _
    by_cases hlt : m.key x < m.key (m.parent x)
    · obtain ⟨m₁, hrun₁, ht₁, hkept₁⟩ := ht.cut hp hxp
      have ho₁ : Ordered m₁ S (Function.update kids (m.parent x) ((kids (m.parent x)).erase x)) := by
        refine hkept₁.ordered fun q hq c hc => ?_
        by_cases hqp : q = m.parent x
        · subst hqp
          rw [Function.update_self] at hc
          refine ho _ hq c (List.mem_of_mem_erase hc) ?_
          rintro rfl
          exact (ht.kids_linked _ hq).nodup.not_mem_erase hc
        · rw [Function.update_of_ne hqp] at hc
          refine ho q hq c hc ?_
          rintro rfl
          exact hqp (ht.kid_unique hq hp hc hxp)
      obtain ⟨m₂, kids₂, rest₂, hrun₂, ht₂, ho₂, hkept₂⟩ := cascadingLoop_ok fuel ht₁ ho₁ hp
        (by rw [List.length_cons]; omega)
      refine ⟨m₂, kids₂, rest₂, ?_, ht₂, ho₂, hkept₁.trans hkept₂⟩
      rw [if_pos hlt, hrun₁]
      exact (if_neg (ht.ne_null _ hp)).trans hrun₂
    · rw [if_neg hlt]
      refine ⟨m, kids, rest, rfl, ht, fun q hq c hc => ?_, .refl m⟩
      by_cases hcx : c = x
      · rw [hcx] at hc ⊢
        rw [ht.kid_unique hq hp hc hxp]
        exact not_lt.mp hlt
      · exact ho q hq c hc hcx

variable [OrderBot K]

/-- **`decrease_key_internal`** gives a node a lesser key. -/
theorem decreaseKeyInternal_ok (h : Holds m fh S) (hx : x ∈ S) {k : K} (hk : k ≤ m.key x)
    {delete : Bool} (hbot : delete = false → k ≠ ⊥) {fuel : ℕ} (hfuel : S.card ≤ fuel) :
    ∃ m' fh', m.decreaseKeyInternal fuel fh x k delete = .ok (m', fh') ∧ Holds m' fh' S ∧
      (∀ u, m'.key u = if u = x then k else m.key u) ∧ (∀ u, m'.value u = m.value u) ∧
      Frame S m m' ∧ m'.fresh = m.fresh := by
  have hxn := h.ne_null hx
  have hminS : fh.min ∈ S := h.min_mem (h.min_ne_null hx)
  obtain ⟨kids, roots, ht, ho, hmin, hle, hcard⟩ := h
  obtain ⟨rest, rfl⟩ := exists_rest hmin (ht.ne_null _ hminS)
  have hax := ht.alive x hx
  set m₁ := m.assign x fun c => { c with key := k } with hm₁
  have hkey₁ : ∀ u, m₁.key u = if u = x then k else m.key u := by
    intro u
    rw [key, hm₁, node_assign]
    split_ifs <;> rfl
  have hvalue₁ : ∀ u, m₁.value u = m.value u := by
    intro u
    rw [value, hm₁, node_assign]
    split_ifs with hu
    · rw [hu]
      rfl
    · rfl
  have hother : ∀ u, u ≠ x → m₁.key u = m.key u := fun u hu => by rw [hkey₁, if_neg hu]
  have hless : ∀ u, m₁.key u ≤ m.key u := by
    intro u
    rw [hkey₁]
    split_ifs with hu
    · rwa [hu]
    · exact le_refl _
  have ht₁ : Trees m₁ S kids (fh.min :: rest) :=
    ht.congr (.assign S m x fun _ => ⟨rfl, rfl, rfl, rfl, rfl⟩) (Nat.le_refl _)
  have ho₁ : ∀ p ∈ S, ∀ c ∈ kids p, c ≠ x → m₁.key p ≤ m₁.key c := fun p hp c hc hcx =>
    (hless p).trans ((ho p hp c hc).trans_eq (hother c hcx).symm)
  obtain ⟨m₂, kids₂, rest₂, hrun₂, ht₂, ho₂, hkept₂⟩ := cutLesser_ok ht₁ hx ho₁ hfuel
  have hkey₂ : ∀ u, m₂.key u = if u = x then k else m.key u := fun u =>
    (hkept₂.key u).trans (hkey₁ u)
  have hframe : Frame S m m₂ := by
    refine .trans ⟨fun u hu _ => node_assign_of_ne _ ?_, fun _ _ _ => rfl, Nat.le_refl _⟩ hkept₂.frame
    rintro rfl
    exact hu hx
  have hold : ∀ p ∈ S, p ≠ x → m₂.key fh.min ≤ m₂.key p := fun p hp hpx => by
    rw [hkept₂.key, hkept₂.key, hother p hpx]
    exact (hless _).trans (hle p hp)
  -- no root has a lesser key than `x` if the others have a greater one
  have hroot : m₂.key x < m₂.key fh.min → x ∈ fh.min :: rest₂ := by
    intro hlt
    obtain ⟨r, hr, hrx⟩ := ht₂.exists_root_le ho₂ x hx
    by_cases hxr : r = x
    · rwa [← hxr]
    · exact absurd ((hold r (ht₂.root_mem r hr) hxr).trans hrx) (not_le.mpr hlt)
  refine ⟨m₂, _, ?_, .of_lesser ht₂ ho₂ List.mem_cons_self hroot (fun r hr => ?_) hcard, hkey₂,
    fun u => (hkept₂.value u).trans (hvalue₁ u), hframe, hkept₂.fresh⟩
  · rw [decreaseKeyInternal, if_neg hxn, deref_ok hax]
    change (if m.key x < k then _ else if delete = false ∧ k = ⊥ then _
      else m.write x (fun c => { c with key := k }) >>= _) = _
    rw [if_neg (not_lt.mpr hk), if_neg fun hb => hbot hb.1 hb.2, write_ok hax]
    change (m₁.cutLesser fuel fh x >>= _) = _
    rw [hrun₂]
    change (m₂.deref x >>= fun n => m₂.deref fh.min >>= _) = _
    rw [deref_ok (ht₂.alive x hx), deref_ok (ht₂.alive _ hminS)]
    rfl
  · by_cases hrx : r = x
    · exact .inr (hrx ▸ le_refl _)
    · exact .inl (hold r (ht₂.root_mem r hr) hrx)

theorem decreaseKey_exit (fuel : ℕ) (fh : FibHeap) (hx : x ≠ null) (ha : m.alive x = true) {k : K}
    (hk : m.key x < k ∨ k = ⊥) : ∃ text, m.decreaseKey fuel fh x k = .error (.exit text) := by
  rw [decreaseKey, decreaseKeyInternal, if_neg hx, deref_ok ha]
  by_cases hlt : m.key x < k
  · exact ⟨_, if_pos hlt⟩
  · exact ⟨_, (if_neg hlt).trans (if_pos ⟨rfl, hk.resolve_left hlt⟩)⟩

/-- **`delete`** takes a node out of a heap that fits when the node is the least one. -/
theorem delete_ok {maxDegree : ℕ → ℕ} {fuel : ℕ} (h : Holds m fh S) (hx : x ∈ S)
    (hkeys : ∀ p ∈ S, m.key p ≠ ⊥)
    (hfits : ∀ m₁ fh₁, m.decreaseKeyInternal fuel fh x ⊥ true = .ok (m₁, fh₁) → Fits maxDegree m₁ fh₁)
    (hfuel : (S.card + 1) * (S.card + 1) ≤ fuel) :
    ∃ m' fh', m.delete maxDegree fuel fh x = .ok (m', fh') ∧ Holds m' fh' (S.erase x) ∧
      (∀ u, u ≠ x → m'.key u = m.key u) ∧ (∀ u, m'.value u = m.value u) ∧ Frame S m m' ∧
      m'.fresh = m.fresh := by
  obtain ⟨m₁, fh₁, hrun₁, h₁, hkey₁, hvalue₁, hframe₁, hfresh₁⟩ :=
    decreaseKeyInternal_ok h hx (bot_le : ⊥ ≤ m.key x) (fun e : true = false => nomatch e)
      (show S.card ≤ fuel by nlinarith)
  have hne₁ : fh₁.min ≠ null := h₁.min_ne_null hx
  have hmin₁ : fh₁.min = x := by
    have hle := h₁.min_le hx
    rw [hkey₁ x, if_pos rfl, le_bot_iff, hkey₁] at hle
    by_contra hmx
    rw [if_neg hmx] at hle
    exact hkeys _ (h₁.min_mem hne₁) hle
  obtain ⟨m₂, fh₂, hrun₂, h₂, hkept₂⟩ := extractMin_ok h₁ hne₁ (hfits _ _ hrun₁) hfuel
  rw [hmin₁] at hrun₂ h₂
  have hfree : m₂.free x = .ok { m₂ with alive := Function.update m₂.alive x false } := by
    rw [free, hkept₂.alive, if_pos (h₁.alive hx)]
  refine ⟨{ m₂ with alive := Function.update m₂.alive x false }, fh₂, ?_, ?_, fun u hu => ?_,
    fun u => (hkept₂.value u).trans (hvalue₁ u), hframe₁.trans (hkept₂.frame.trans ?_),
    hkept₂.fresh.trans hfresh₁⟩
  · rw [delete, hrun₁]
    change (m₁.extractMin maxDegree fuel fh₁ >>= _) = _
    rw [hrun₂]
    change (m₂.free x >>= _) = _
    rw [hfree]
    rfl
  · exact h₂.congr (fun _ _ => rfl)
      (fun p hp => Function.update_of_ne (Finset.ne_of_mem_erase hp) _ _) (Nat.le_refl _)
  · exact (hkept₂.key u).trans ((hkey₁ u).trans (if_neg hu))
  · refine ⟨fun _ _ _ => rfl, fun u hu _ => Function.update_of_ne ?_ _ _, Nat.le_refl _⟩
    rintro rfl
    exact hu hx

end FibMemory

end Goedb
