import Goedb.DataStruct.FibRings
import Mathlib.Data.Finset.Lattice.Fold

/-!
# DataStruct — the trees of a Fibonacci heap

`Trees m S kids roots` says that the nodes of `S` form the trees whose roots are `roots`, in the order
of their ring, and in which `kids p` are the children of `p`, from `child` on.  What is said of all
roots and passes from a node to its children holds of all nodes (`Trees.climb`), so in trees that are
ordered by their keys the least root is the least node.

`make_child` takes a root and gives it to another one (`Trees.makeChild`); `cut` takes a child and makes
it a root (`Trees.cut`).
-/

namespace Goedb

open Lib

namespace FibMemory

variable {K V : Type} {m m' m'' : FibMemory K V} {S : Finset ℕ} {kids : ℕ → List ℕ}
  {roots : List ℕ} {x y p c z : ℕ}

/-- The nodes of `S` form trees. -/
structure Trees (m : FibMemory K V) (S : Finset ℕ) (kids : ℕ → List ℕ) (roots : List ℕ) : Prop where
  ne_null : ∀ p ∈ S, p ≠ null
  alive : ∀ p ∈ S, m.alive p = true
  lt_fresh : ∀ p ∈ S, p < m.fresh
  roots_linked : Linked m roots
  kids_linked : ∀ p ∈ S, Linked m (kids p)
  root_mem : ∀ r ∈ roots, r ∈ S
  root_parent : ∀ r ∈ roots, m.parent r = null
  kid_mem : ∀ p ∈ S, ∀ c ∈ kids p, c ∈ S
  kid_parent : ∀ p ∈ S, ∀ c ∈ kids p, m.parent c = p
  covered : ∀ c ∈ S, c ∈ roots ∨ ∃ p ∈ S, c ∈ kids p
  child_eq : ∀ p ∈ S, m.child p = (kids p).headD null
  degree_eq : ∀ p ∈ S, m.degree p = (kids p).length
  /-- No node is below itself. -/
  ranked : ∃ rank : ℕ → ℕ, ∀ p ∈ S, ∀ c ∈ kids p, rank c < rank p

/-- No child has a lesser key than its parent. -/
def Ordered (m : FibMemory K V) [LE K] (S : Finset ℕ) (kids : ℕ → List ℕ) : Prop :=
  ∀ p ∈ S, ∀ c ∈ kids p, m.key p ≤ m.key c

/-- The nodes of `S` have the same places in their trees. -/
structure SameLinks (S : Finset ℕ) (m m' : FibMemory K V) : Prop where
  parent : ∀ p ∈ S, m'.parent p = m.parent p
  child : ∀ p ∈ S, m'.child p = m.child p
  left : ∀ p ∈ S, m'.left p = m.left p
  right : ∀ p ∈ S, m'.right p = m.right p
  degree : ∀ p ∈ S, m'.degree p = m.degree p
  alive : ∀ p ∈ S, m'.alive p = m.alive p

theorem SameLinks.of_node (hn : ∀ p ∈ S, m'.node p = m.node p)
    (ha : ∀ p ∈ S, m'.alive p = m.alive p) : SameLinks S m m' where
  parent p hp := congrArg FibNode.parent (hn p hp)
  child p hp := congrArg FibNode.child (hn p hp)
  left p hp := congrArg FibNode.left (hn p hp)
  right p hp := congrArg FibNode.right (hn p hp)
  degree p hp := congrArg FibNode.degree (hn p hp)
  alive := ha

/-- Assignments to other fields. -/
theorem SameLinks.assign (S : Finset ℕ) (m : FibMemory K V) (p : ℕ) {f : FibNode K V → FibNode K V}
    (hf : ∀ c, (f c).parent = c.parent ∧ (f c).child = c.child ∧ (f c).left = c.left ∧
      (f c).right = c.right ∧ (f c).degree = c.degree) : SameLinks S m (m.assign p f) := by
  have hnode : ∀ u, (m.assign p f).node u = m.node u ∨ (m.assign p f).node u = f (m.node u) := by
    intro u
    by_cases hu : u = p
    · rw [hu]
      exact .inr (node_assign_self f)
    · exact .inl (node_assign_of_ne f hu)
  constructor
  · intro u _
    rcases hnode u with h | h
    · exact congrArg FibNode.parent h
    · exact (congrArg FibNode.parent h).trans (hf _).1
  · intro u _
    rcases hnode u with h | h
    · exact congrArg FibNode.child h
    · exact (congrArg FibNode.child h).trans (hf _).2.1
  · intro u _
    rcases hnode u with h | h
    · exact congrArg FibNode.left h
    · exact (congrArg FibNode.left h).trans (hf _).2.2.1
  · intro u _
    rcases hnode u with h | h
    · exact congrArg FibNode.right h
    · exact (congrArg FibNode.right h).trans (hf _).2.2.2.1
  · intro u _
    rcases hnode u with h | h
    · exact congrArg FibNode.degree h
    · exact (congrArg FibNode.degree h).trans (hf _).2.2.2.2
  · exact fun _ _ => rfl

/-- What the operations on the trees of `S` keep: the entries, and all other nodes. -/
structure Kept (S : Finset ℕ) (m m' : FibMemory K V) : Prop where
  key : ∀ u, m'.key u = m.key u
  value : ∀ u, m'.value u = m.value u
  node : ∀ u, u ∉ S → m'.node u = m.node u
  alive : m'.alive = m.alive
  fresh : m'.fresh = m.fresh

namespace Kept

theorem refl (m : FibMemory K V) : Kept S m m :=
  ⟨fun _ => rfl, fun _ => rfl, fun _ _ => rfl, rfl, rfl⟩

theorem trans (h : Kept S m m') (h' : Kept S m' m'') : Kept S m m'' :=
  ⟨fun u => (h'.key u).trans (h.key u), fun u => (h'.value u).trans (h.value u),
    fun u hu => (h'.node u hu).trans (h.node u hu), h'.alive.trans h.alive, h'.fresh.trans h.fresh⟩

theorem mono {T : Finset ℕ} (h : Kept S m m') (hS : S ⊆ T) : Kept T m m' :=
  { h with node := fun u hu => h.node u fun hu' => hu (hS hu') }

theorem relinked {l : List ℕ} (h : Relinked m m') (hk : KeepsLinks l m m') (hl : ∀ u ∈ l, u ∈ S) :
    Kept S m m' := by
  refine ⟨h.key, h.value, fun u hu => ?_, h.alive, h.fresh⟩
  obtain ⟨hr, hl'⟩ := hk u fun hu' => hu (hl u hu')
  exact h.node_eq hr hl'

theorem assign (hp : p ∈ S) {f : FibNode K V → FibNode K V}
    (hf : ∀ c, (f c).key = c.key ∧ (f c).value = c.value) : Kept S m (m.assign p f) := by
  refine ⟨fun u => ?_, fun u => ?_, fun u hu => node_assign_of_ne f fun e => hu (e ▸ hp), rfl, rfl⟩
  · rw [FibMemory.key, node_assign]
    split_ifs with hu
    · rw [hu]
      exact (hf _).1
    · rfl
  · rw [FibMemory.value, node_assign]
    split_ifs with hu
    · rw [hu]
      exact (hf _).2
    · rfl

theorem ordered [LE K] (h : Kept S m m') (ho : Ordered m S kids) : Ordered m' S kids := by
  intro p hp c hc
  rw [h.key, h.key]
  exact ho p hp c hc

end Kept

/-- Nothing changes but the nodes of `S` and those that are allocated. -/
structure Frame (S : Finset ℕ) (m m' : FibMemory K V) : Prop where
  node : ∀ u, u ∉ S → u < m.fresh → m'.node u = m.node u
  alive : ∀ u, u ∉ S → u < m.fresh → m'.alive u = m.alive u
  fresh : m.fresh ≤ m'.fresh

theorem Kept.frame (h : Kept S m m') : Frame S m m' :=
  ⟨fun u hu _ => h.node u hu, fun u _ _ => congrFun h.alive u, h.fresh.ge⟩

theorem Frame.trans (h : Frame S m m') (h' : Frame S m' m'') : Frame S m m'' :=
  ⟨fun u hu hlt => (h'.node u hu (hlt.trans_le h.fresh)).trans (h.node u hu hlt),
    fun u hu hlt => (h'.alive u hu (hlt.trans_le h.fresh)).trans (h.alive u hu hlt),
    h.fresh.trans h'.fresh⟩

section Alloc

variable (n : FibNode K V) {u : ℕ}

theorem node_alloc_self : (m.alloc n).node m.fresh = n := Function.update_self ..

theorem node_alloc_of_ne (hu : u ≠ m.fresh) : (m.alloc n).node u = m.node u :=
  Function.update_of_ne hu _ _

theorem key_alloc (u : ℕ) : (m.alloc n).key u = if u = m.fresh then n.key else m.key u := by
  rw [key]
  split_ifs with hu
  · rw [hu, node_alloc_self]
  · rw [node_alloc_of_ne n hu]
    rfl

theorem value_alloc (u : ℕ) : (m.alloc n).value u = if u = m.fresh then n.value else m.value u := by
  rw [value]
  split_ifs with hu
  · rw [hu, node_alloc_self]
  · rw [node_alloc_of_ne n hu]
    rfl

theorem alive_alloc_self : (m.alloc n).alive m.fresh = true := Function.update_self ..

/-- A node is allocated and put into a ring. -/
theorem frame_alloc {l : List ℕ} (hrel : Relinked (m.alloc n) m') (hk : KeepsLinks l (m.alloc n) m')
    (hl : ∀ r ∈ l, r = m.fresh ∨ r ∈ S) : Frame S m m' := by
  refine ⟨fun u hu hlt => ?_, fun u _ hlt => ?_, ?_⟩
  · obtain ⟨hr, hl'⟩ := hk u fun hul => (hl u hul).elim hlt.ne hu
    rw [hrel.node_eq hr hl', node_alloc_of_ne n hlt.ne]
  · rw [hrel.alive]
    exact Function.update_of_ne hlt.ne _ _
  · rw [hrel.fresh]
    exact Nat.le_succ _

end Alloc

namespace Trees

variable (h : Trees m S kids roots)
include h

theorem root_ne_null {r : ℕ} (hr : r ∈ roots) : r ≠ null := h.ne_null r (h.root_mem r hr)

theorem kid_not_root (hp : p ∈ S) (hc : c ∈ kids p) : c ∉ roots := fun hr =>
  h.ne_null p hp ((h.kid_parent p hp c hc).symm.trans (h.root_parent c hr))

theorem kid_unique {q : ℕ} (hp : p ∈ S) (hq : q ∈ S) (hc : c ∈ kids p) (hc' : c ∈ kids q) :
    p = q :=
  (h.kid_parent p hp c hc).symm.trans (h.kid_parent q hq c hc')

theorem kid_ne (hp : p ∈ S) (hc : c ∈ kids p) : c ≠ p := by
  obtain ⟨rank, hrank⟩ := h.ranked
  rintro rfl
  exact lt_irrefl _ (hrank c hp c hc)

/-- **From the roots down**: by induction on how far the rank is from the greatest one. -/
theorem climb {P : ℕ → Prop} (hroot : ∀ r ∈ roots, P r)
    (hkid : ∀ p ∈ S, P p → ∀ c ∈ kids p, P c) : ∀ c ∈ S, P c := by
  obtain ⟨rank, hrank⟩ := h.ranked
  have hle : ∀ c ∈ S, rank c ≤ S.sup rank := fun c hc => Finset.le_sup hc
  suffices hn : ∀ n, ∀ c ∈ S, S.sup rank - rank c = n → P c from fun c hc => hn _ c hc rfl
  intro n
  induction n using Nat.strong_induction_on with
  | _ n ih =>
      intro c hc hn
      rcases h.covered c hc with hr | ⟨p, hp, hcp⟩
      · exact hroot c hr
      · have hlt := hrank p hp c hcp
        have hlep := hle p hp
        exact hkid p hp (ih _ (by omega) p hp rfl) c hcp

/-- Over every node stands a root with no greater key. -/
theorem exists_root_le [Preorder K] (ho : Ordered m S kids) :
    ∀ c ∈ S, ∃ r ∈ roots, m.key r ≤ m.key c := by
  refine h.climb (fun r hr => ⟨r, hr, le_refl _⟩) fun p hp hle c hc => ?_
  obtain ⟨r, hr, hle⟩ := hle
  exact ⟨r, hr, hle.trans (ho p hp c hc)⟩

theorem eq_empty_of_roots (hr : roots = []) : S = ∅ := by
  refine Finset.eq_empty_of_forall_notMem fun c hc => ?_
  exact h.climb (P := fun _ => False) (fun r hmem => by simp [hr] at hmem) (fun _ _ hf _ _ => hf) c hc

theorem length_roots_le : roots.length ≤ S.card := by
  classical
  rw [← List.toFinset_card_of_nodup h.roots_linked.nodup]
  exact Finset.card_le_card fun r hr => h.root_mem r (List.mem_toFinset.mp hr)

theorem length_kids_le (hp : p ∈ S) : (kids p).length ≤ S.card := by
  classical
  rw [← List.toFinset_card_of_nodup (h.kids_linked p hp).nodup]
  exact Finset.card_le_card fun c hc => h.kid_mem p hp c (List.mem_toFinset.mp hc)

/-- The trees depend on the links of their own nodes only. -/
theorem congr (hn : SameLinks S m m') (hf : m.fresh ≤ m'.fresh) : Trees m' S kids roots := by
  have hlinked : ∀ {l : List ℕ}, Linked m l → (∀ u ∈ l, u ∈ S) → Linked m' l := fun hl hS =>
    hl.congr (fun u hu => hn.right u (hS u hu)) (fun u hu => hn.left u (hS u hu))
      fun u hu => hn.alive u (hS u hu)
  exact
    { h with
      alive := fun p hp => (hn.alive p hp).trans (h.alive p hp)
      lt_fresh := fun p hp => (h.lt_fresh p hp).trans_le hf
      roots_linked := hlinked h.roots_linked h.root_mem
      kids_linked := fun p hp => hlinked (h.kids_linked p hp) (h.kid_mem p hp)
      root_parent := fun r hr => (hn.parent r (h.root_mem r hr)).trans (h.root_parent r hr)
      kid_parent := fun p hp c hc =>
        (hn.parent c (h.kid_mem p hp c hc)).trans (h.kid_parent p hp c hc)
      child_eq := fun p hp => (hn.child p hp).trans (h.child_eq p hp)
      degree_eq := fun p hp => (hn.degree p hp).trans (h.degree_eq p hp) }

/-- The roots form another ring. -/
theorem relink {l : List ℕ} (hrel : Relinked m m') (hl : Linked m' l) (hperm : l.Perm roots)
    (hk : KeepsLinks l m m') : Trees m' S kids l := by
  have hmem : ∀ r ∈ l, r ∈ roots := fun r hr => hperm.mem_iff.mp hr
  exact
    { h with
      alive := by rw [hrel.alive]; exact h.alive
      lt_fresh := by rw [hrel.fresh]; exact h.lt_fresh
      roots_linked := hl
      kids_linked := fun p hp => (h.kids_linked p hp).of_keepsLinks hk
        (fun c hc hcl => h.kid_not_root hp hc (hmem c hcl)) hrel.alive
      root_mem := fun r hr => h.root_mem r (hmem r hr)
      root_parent := fun r hr => (hrel.parent r).trans (h.root_parent r (hmem r hr))
      kid_parent := fun p hp c hc => (hrel.parent c).trans (h.kid_parent p hp c hc)
      covered := fun c hc => (h.covered c hc).imp_left hperm.mem_iff.mpr
      child_eq := fun p hp => (hrel.child p).trans (h.child_eq p hp)
      degree_eq := fun p hp => (hrel.degree p).trans (h.degree_eq p hp) }

theorem rotate {l : List ℕ} (hr : roots ~r l) : Trees m S kids l :=
  h.relink (.refl m) (h.roots_linked.rotate hr) hr.perm.symm fun _ _ => ⟨rfl, rfl⟩

end Trees

/-- A node without children becomes a root. -/
theorem Trees.insert {l : List ℕ} (h : Trees m S kids roots) (hx : x ∉ S) (hxn : x ≠ null)
    (hxa : m.alive x = true) (hxf : x < m.fresh) (hparent : m.parent x = null)
    (hchild : m.child x = null) (hdegree : m.degree x = 0) (hrel : Relinked m m') (hl : Linked m' l)
    (hperm : l.Perm (x :: roots)) (hk : KeepsLinks l m m') :
    Trees m' (Insert.insert x S) (Function.update kids x []) l := by
  have hkids : ∀ p ∈ S, Function.update kids x [] p = kids p := fun p hp =>
    Function.update_of_ne (fun e => hx (by rwa [← e])) _ _
  have hkidsx : Function.update kids x [] x = [] := Function.update_self ..
  have hmem : ∀ r, r ∈ l ↔ r = x ∨ r ∈ roots := fun r => hperm.mem_iff.trans List.mem_cons
  -- only the ring of the roots is relinked, so the rings of children stay as they are
  have hnokid : ∀ p ∈ S, ∀ c ∈ kids p, c ∉ l := by
    intro p hp c hc hcl
    rcases (hmem c).mp hcl with rfl | hcr
    · exact hx (h.kid_mem p hp c hc)
    · exact h.kid_not_root hp hc hcr
  -- each field: the node `x`, which has no children, and the nodes of before
  exact
    { ne_null := (Finset.forall_mem_insert ..).mpr ⟨hxn, h.ne_null⟩
      alive := by
        rw [hrel.alive]
        exact (Finset.forall_mem_insert ..).mpr ⟨hxa, h.alive⟩
      lt_fresh := by
        rw [hrel.fresh]
        exact (Finset.forall_mem_insert ..).mpr ⟨hxf, h.lt_fresh⟩
      roots_linked := hl
      kids_linked := by
        refine (Finset.forall_mem_insert ..).mpr ⟨?_, fun p hp => ?_⟩
        · rw [hkidsx]
          exact ⟨Ring.nil, List.nodup_nil, fun u hu => absurd hu List.not_mem_nil⟩
        · rw [hkids p hp]
          exact (h.kids_linked p hp).of_keepsLinks hk (hnokid p hp) hrel.alive
      root_mem := by
        intro r hr
        rcases (hmem r).mp hr with rfl | hr
        · exact Finset.mem_insert_self r S
        · exact Finset.mem_insert_of_mem (h.root_mem r hr)
      root_parent := by
        intro r hr
        rw [hrel.parent]
        rcases (hmem r).mp hr with rfl | hr
        · exact hparent
        · exact h.root_parent r hr
      kid_mem := by
        refine (Finset.forall_mem_insert ..).mpr ⟨?_, fun p hp c hc => ?_⟩
        · rw [hkidsx]
          exact fun c hc => absurd hc List.not_mem_nil
        · rw [hkids p hp] at hc
          exact Finset.mem_insert_of_mem (h.kid_mem p hp c hc)
      kid_parent := by
        refine (Finset.forall_mem_insert ..).mpr ⟨?_, fun p hp c hc => ?_⟩
        · rw [hkidsx]
          exact fun c hc => absurd hc List.not_mem_nil
        · rw [hkids p hp] at hc
          rw [hrel.parent]
          exact h.kid_parent p hp c hc
      covered := by
        refine (Finset.forall_mem_insert ..).mpr ⟨.inl ((hmem x).mpr (.inl rfl)), fun c hc => ?_⟩
        rcases h.covered c hc with hr | ⟨p, hp, hcp⟩
        · exact .inl ((hmem c).mpr (.inr hr))
        · exact .inr ⟨p, Finset.mem_insert_of_mem hp, by rwa [hkids p hp]⟩
      child_eq := by
        refine (Finset.forall_mem_insert ..).mpr ⟨?_, fun p hp => ?_⟩
        · rw [hrel.child, hkidsx]
          exact hchild
        · rw [hrel.child, hkids p hp]
          exact h.child_eq p hp
      degree_eq := by
        refine (Finset.forall_mem_insert ..).mpr ⟨?_, fun p hp => ?_⟩
        · rw [hrel.degree, hkidsx]
          exact hdegree
        · rw [hrel.degree, hkids p hp]
          exact h.degree_eq p hp
      ranked := by
        obtain ⟨rank, hrank⟩ := h.ranked
        refine ⟨rank, (Finset.forall_mem_insert ..).mpr ⟨?_, fun p hp => ?_⟩⟩
        · rw [hkidsx]
          exact fun c hc => absurd hc List.not_mem_nil
        · rw [hkids p hp]
          exact hrank p hp }

theorem Ordered.insert [LE K] (h : Ordered m S kids) (x : ℕ) (hx : x ∉ S) :
    Ordered m (Insert.insert x S) (Function.update kids x []) := by
  refine (Finset.forall_mem_insert ..).mpr ⟨?_, fun p hp => ?_⟩
  · rw [Function.update_self]
    exact fun c hc => absurd hc List.not_mem_nil
  · rw [Function.update_of_ne (fun e => hx (by rwa [← e]))]
    exact h p hp

/-- The children in two sets of trees. -/
def joined (S : Finset ℕ) (kids kids' : ℕ → List ℕ) (p : ℕ) : List ℕ :=
  if p ∈ S then kids p else kids' p

/-- Two sets of trees, their roots in one ring. -/
theorem Trees.union {T : Finset ℕ} {kids' : ℕ → List ℕ} {roots' l : List ℕ} (h : Trees m S kids roots)
    (h' : Trees m T kids' roots') (hd : Disjoint S T) (hrel : Relinked m m') (hl : Linked m' l)
    (hmem : ∀ r, r ∈ l ↔ r ∈ roots ∨ r ∈ roots') (hk : KeepsLinks l m m') :
    Trees m' (S ∪ T) (joined S kids kids') l := by
  have hS : ∀ p ∈ S, joined S kids kids' p = kids p := fun p hp => if_pos hp
  have hT : ∀ p ∈ T, joined S kids kids' p = kids' p := fun p hp =>
    if_neg (Finset.disjoint_right.mp hd hp)
  have hnokid : ∀ p ∈ S, ∀ c ∈ kids p, c ∉ l := by
    intro p hp c hc hcl
    rcases (hmem c).mp hcl with hr | hr
    · exact h.kid_not_root hp hc hr
    · exact Finset.disjoint_left.mp hd (h.kid_mem p hp c hc) (h'.root_mem c hr)
  have hnokid' : ∀ p ∈ T, ∀ c ∈ kids' p, c ∉ l := by
    intro p hp c hc hcl
    rcases (hmem c).mp hcl with hr | hr
    · exact Finset.disjoint_left.mp hd (h.root_mem c hr) (h'.kid_mem p hp c hc)
    · exact h'.kid_not_root hp hc hr
  -- a node of either set keeps what it had there
  have hcase : ∀ {P : ℕ → Prop}, (∀ p ∈ S, P p) → (∀ p ∈ T, P p) → ∀ p ∈ S ∪ T, P p :=
    fun hPS hPT p hp => (Finset.mem_union.mp hp).elim (hPS p) (hPT p)
  exact
    { ne_null := hcase h.ne_null h'.ne_null
      alive := by
        rw [hrel.alive]
        exact hcase h.alive h'.alive
      lt_fresh := by
        rw [hrel.fresh]
        exact hcase h.lt_fresh h'.lt_fresh
      roots_linked := hl
      kids_linked := by
        intro p hp
        rcases Finset.mem_union.mp hp with hp | hp
        · rw [hS p hp]
          exact (h.kids_linked p hp).of_keepsLinks hk (hnokid p hp) hrel.alive
        · rw [hT p hp]
          exact (h'.kids_linked p hp).of_keepsLinks hk (hnokid' p hp) hrel.alive
      root_mem := fun r hr => ((hmem r).mp hr).elim
        (fun hr => Finset.mem_union_left T (h.root_mem r hr))
        fun hr => Finset.mem_union_right S (h'.root_mem r hr)
      root_parent := by
        intro r hr
        rw [hrel.parent]
        exact ((hmem r).mp hr).elim (h.root_parent r) (h'.root_parent r)
      kid_mem := by
        intro p hp c hc
        rcases Finset.mem_union.mp hp with hp | hp
        · rw [hS p hp] at hc
          exact Finset.mem_union_left T (h.kid_mem p hp c hc)
        · rw [hT p hp] at hc
          exact Finset.mem_union_right S (h'.kid_mem p hp c hc)
      kid_parent := by
        intro p hp c hc
        rw [hrel.parent]
        rcases Finset.mem_union.mp hp with hp | hp
        · rw [hS p hp] at hc
          exact h.kid_parent p hp c hc
        · rw [hT p hp] at hc
          exact h'.kid_parent p hp c hc
      covered := by
        intro c hc
        rcases Finset.mem_union.mp hc with hc | hc
        · rcases h.covered c hc with hr | ⟨p, hp, hcp⟩
          · exact .inl ((hmem c).mpr (.inl hr))
          · exact .inr ⟨p, Finset.mem_union_left T hp, by rwa [hS p hp]⟩
        · rcases h'.covered c hc with hr | ⟨p, hp, hcp⟩
          · exact .inl ((hmem c).mpr (.inr hr))
          · exact .inr ⟨p, Finset.mem_union_right S hp, by rwa [hT p hp]⟩
      child_eq := by
        intro p hp
        rw [hrel.child]
        rcases Finset.mem_union.mp hp with hp | hp
        · rw [hS p hp]
          exact h.child_eq p hp
        · rw [hT p hp]
          exact h'.child_eq p hp
      degree_eq := by
        intro p hp
        rw [hrel.degree]
        rcases Finset.mem_union.mp hp with hp | hp
        · rw [hS p hp]
          exact h.degree_eq p hp
        · rw [hT p hp]
          exact h'.degree_eq p hp
      ranked := by
        obtain ⟨rank, hrank⟩ := h.ranked
        obtain ⟨rank', hrank'⟩ := h'.ranked
        -- no child is in another set than its parent, so the two ranks never meet
        refine ⟨fun p => if p ∈ S then rank p else rank' p, fun p hp c hc => ?_⟩
        dsimp only
        rcases Finset.mem_union.mp hp with hp | hp
        · rw [hS p hp] at hc
          rw [if_pos hp, if_pos (h.kid_mem p hp c hc)]
          exact hrank p hp c hc
        · rw [hT p hp] at hc
          rw [if_neg (Finset.disjoint_right.mp hd hp),
            if_neg (Finset.disjoint_right.mp hd (h'.kid_mem p hp c hc))]
          exact hrank' p hp c hc }

theorem Ordered.union [LE K] {T : Finset ℕ} {kids' : ℕ → List ℕ} (h : Ordered m S kids)
    (h' : Ordered m T kids') (hd : Disjoint S T) : Ordered m (S ∪ T) (joined S kids kids') := by
  intro p hp c hc
  rcases Finset.mem_union.mp hp with hp | hp
  · rw [joined, if_pos hp] at hc
    exact h p hp c hc
  · rw [joined, if_neg (Finset.disjoint_right.mp hd hp)] at hc
    exact h' p hp c hc

/-- **Nodes move between the roots and the children of one node.** -/
theorem Trees.redistribute {ks' roots' : List ℕ} (h : Trees m S kids roots) (hp : p ∈ S)
    (hmem : ∀ u, u ∈ roots' ∨ u ∈ ks' ↔ u ∈ roots ∨ u ∈ kids p) (hroots' : Linked m' roots')
    (hks' : Linked m' ks') (hk : KeepsLinks (roots' ++ ks') m m') (halive : m'.alive = m.alive)
    (hfresh : m'.fresh = m.fresh) (hroot : ∀ r ∈ roots', m'.parent r = null)
    (hkid : ∀ c ∈ ks', m'.parent c = p)
    (hparent : ∀ u, u ∉ roots' → u ∉ ks' → m'.parent u = m.parent u)
    (hchild : ∀ u, m'.child u = if u = p then ks'.headD null else m.child u)
    (hdegree : ∀ u, m'.degree u = if u = p then ks'.length else m.degree u)
    (hranked : ∃ rank : ℕ → ℕ, ∀ q ∈ S, ∀ c ∈ Function.update kids p ks' q, rank c < rank q) :
    Trees m' S (Function.update kids p ks') roots' := by
  have hkids : ∀ q, q ≠ p → Function.update kids p ks' q = kids q := fun q hq =>
    Function.update_of_ne hq _ _
  have hkidsp : Function.update kids p ks' p = ks' := Function.update_self ..
  have hmemS : ∀ u, u ∈ roots' ∨ u ∈ ks' → u ∈ S := fun u hu =>
    ((hmem u).mp hu).elim (h.root_mem u) (h.kid_mem p hp u)
  -- the children of another node are not among those that move
  have hother : ∀ q ∈ S, q ≠ p → ∀ c ∈ kids q, c ∉ roots' ∧ c ∉ ks' := by
    intro q hq hqp c hc
    rw [← not_or, hmem, not_or]
    exact ⟨h.kid_not_root hq hc, fun hc' => hqp (h.kid_unique hq hp hc hc')⟩
  exact
    { ne_null := h.ne_null
      alive := by rw [halive]; exact h.alive
      lt_fresh := by rw [hfresh]; exact h.lt_fresh
      roots_linked := hroots'
      kids_linked := by
        intro q hq
        by_cases hqp : q = p
        · rwa [hqp, hkidsp]
        · rw [hkids q hqp]
          refine (h.kids_linked q hq).of_keepsLinks hk (fun c hc => ?_) halive
          rw [List.mem_append, not_or]
          exact hother q hq hqp c hc
      root_mem := fun r hr => hmemS r (.inl hr)
      root_parent := hroot
      kid_mem := by
        intro q hq c hc
        by_cases hqp : q = p
        · rw [hqp, hkidsp] at hc
          exact hmemS c (.inr hc)
        · rw [hkids q hqp] at hc
          exact h.kid_mem q hq c hc
      kid_parent := by
        intro q hq c hc
        by_cases hqp : q = p
        · rw [hqp, hkidsp] at hc
          rw [hqp]
          exact hkid c hc
        · rw [hkids q hqp] at hc
          obtain ⟨hcr, hck⟩ := hother q hq hqp c hc
          exact (hparent c hcr hck).trans (h.kid_parent q hq c hc)
      covered := by
        intro c hc
        by_cases hmoved : c ∈ roots ∨ c ∈ kids p
        · exact ((hmem c).mpr hmoved).imp_right fun hc' => ⟨p, hp, by rwa [hkidsp]⟩
        · obtain ⟨q, hq, hcq⟩ := (h.covered c hc).resolve_left fun hr => hmoved (.inl hr)
          have hqp : q ≠ p := fun e => hmoved (.inr (e ▸ hcq))
          exact .inr ⟨q, hq, by rwa [hkids q hqp]⟩
      child_eq := by
        intro q hq
        rw [hchild]
        split_ifs with hqp
        · rw [hqp, hkidsp]
        · rw [hkids q hqp]
          exact h.child_eq q hq
      degree_eq := by
        intro q hq
        rw [hdegree]
        split_ifs with hqp
        · rw [hqp, hkidsp]
        · rw [hkids q hqp]
          exact h.degree_eq q hq
      ranked := hranked }

/-! ### A root becomes a child -/

/-- The children with a new one, which stands behind the first. -/
def adopt (y : ℕ) : List ℕ → List ℕ
  | [] => [y]
  | c :: ks => c :: y :: ks

theorem mem_adopt {y u : ℕ} {ks : List ℕ} : u ∈ adopt y ks ↔ u = y ∨ u ∈ ks := by
  cases ks with
  | nil => simp [adopt]
  | cons c ks =>
      simp only [adopt, List.mem_cons]
      exact or_left_comm

theorem length_adopt (y : ℕ) (ks : List ℕ) : (adopt y ks).length = ks.length + 1 := by
  cases ks <;> rfl

theorem addChild_ok {ks : List ℕ} (hne : x ≠ y) (hx : m.alive x = true) (hy : m.alive y = true)
    (hks : Linked m ks) (hnull : ∀ c ∈ ks, c ≠ null) (hyks : y ∉ ks)
    (hchild : m.child x = ks.headD null) :
    ∃ m', m.addChild x y = .ok m' ∧ Linked m' (adopt y ks) ∧ KeepsLinks (adopt y ks) m m' ∧
      m'.alive = m.alive ∧ m'.fresh = m.fresh ∧
      ∀ u, m'.node u = { m.node u with
        child := if u = x then (adopt y ks).headD null else m.child u
        left := m'.left u, right := m'.right u } := by
  have hchild' : (m.node x).child = ks.headD null := hchild
  rw [addChild, deref_ok hx]
  cases ks with
  | nil =>
      -- the first child is a ring of its own
      set m₁ := m.assign x fun c => { c with child := y } with hm₁
      have hy₁ : m₁.alive y = true := hy
      have hkeeps₁ : KeepsLinks [] m m₁ := keepsLinks_assign _ fun _ => ⟨rfl, rfl⟩
      refine ⟨m₁.assign y fun c => { c with left := y, right := y }, ?_, linked_singleton hy₁, ?_, rfl,
        rfl, fun u => ?_⟩
      · change (if (m.node x).child ≠ null then _ else (m.write x _ >>= _)) = _
        have hnil : (m.node x).child = null := hchild'
        rw [if_neg (not_not_intro hnil), write_ok hx]
        exact write_ok hy₁ _
      · intro u hu
        have hne : u ≠ y := fun e => hu (e ▸ List.mem_cons_self)
        rw [right_assign, left_assign, if_neg hne, if_neg hne]
        exact hkeeps₁ u List.not_mem_nil
      · by_cases hux : u = x
        · simp [hm₁, node_assign, adopt, left, right, hux, hne]
        · by_cases huy : u = y
          · simp [hm₁, node_assign, child, left, right, huy, hne.symm]
          · simp [hm₁, node_assign, child, left, right, hux, huy]
  | cons c ks =>
      -- the pointer of the parent stays where it is, and `y` goes to the right of it
      have hc : (m.node x).child = c := hchild'
      obtain ⟨m', hrun, hrel, hl, hk⟩ := linkRight_ok hks hy hyks
      refine ⟨m', ?_, hl, hk, hrel.alive, hrel.fresh, fun u => ?_⟩
      · change (if (m.node x).child ≠ null then m.linkRight (m.node x).child y else _) = _
        rw [hc, if_pos (hnull c List.mem_cons_self), hrun]
      · rw [hrel.node]
        have : (if u = x then c else m.child u) = m.child u := by
          split_ifs with e
          · rw [e]
            exact hc.symm
          · rfl
        rw [adopt, List.headD_cons, this]
        rfl

/-- What `make_child` does to the ring of the one and to the children of the other. -/
theorem makeChild_links {ks : List ℕ} (hne : x ≠ y) (hxn : x ≠ null) (hyn : y ≠ null)
    (hroots : Linked m roots) (hxr : x ∈ roots) (hyr : y ∈ roots) (hks : Linked m ks)
    (hnull : ∀ c ∈ ks, c ≠ null) (hd : ∀ c ∈ ks, c ∉ roots) (hchild : m.child x = ks.headD null) :
    ∃ m', m.makeChild x y = .ok m' ∧ Linked m' (roots.erase y) ∧ Linked m' (adopt y ks) ∧
      KeepsLinks (roots.erase y ++ adopt y ks) m m' ∧ m'.alive = m.alive ∧ m'.fresh = m.fresh ∧
      ∀ u, m'.node u = { m.node u with
        parent := if u = y then x else m.parent u
        child := if u = x then (adopt y ks).headD null else m.child u
        left := m'.left u, right := m'.right u
        degree := if u = x then m.degree x + 1 else m.degree u
        mark := if u = y then false else (m.node u).mark } := by
  have hyks : y ∉ ks := fun hy => hd y hy hyr
  have hdisj : ∀ u ∈ roots.erase y, u ∉ adopt y ks := by
    intro u hu hu'
    rcases mem_adopt.mp hu' with rfl | hu'
    · exact hroots.nodup.not_mem_erase hu
    · exact hd u hu' (List.mem_of_mem_erase hu)
  obtain ⟨m₁, hrun₁, hrel₁, hroots₁, hk₁⟩ := unlink_ok hroots hyr
  have halive₁ : ∀ u, m.alive u = true → m₁.alive u = true := fun u hu => by rwa [hrel₁.alive]
  -- the assignments to the other fields keep all links
  set m₂ := m₁.assign y fun c => { c with parent := x } with hm₂
  have hk₂ : KeepsLinks (roots.erase y) m m₂ := hk₁.assign y fun _ => ⟨rfl, rfl⟩
  have hy₁ : m₁.alive y = true := halive₁ y (hroots.alive y hyr)
  have hx₂ : m₂.alive x = true := halive₁ x (hroots.alive x hxr)
  have hks₂ : Linked m₂ ks := hks.of_keepsLinks hk₂
    (fun c hc hc' => hd c hc (List.mem_of_mem_erase hc')) hrel₁.alive
  have hchild₂ : m₂.child x = ks.headD null := by
    rw [child, hm₂, node_assign_of_ne _ hne]
    exact (hrel₁.child x).trans hchild
  obtain ⟨m₃, hrun₃, hadopt₃, hk₃, halive₃, hfresh₃, hnode₃⟩ :=
    addChild_ok hne hx₂ hy₁ hks₂ hnull hyks hchild₂
  set m₄ := m₃.assign y fun c => { c with mark := false } with hm₄
  set m₅ := m₄.assign x fun c => { c with degree := c.degree + 1 } with hm₅
  have hk₄ : KeepsLinks [] m₃ m₄ := keepsLinks_assign _ fun _ => ⟨rfl, rfl⟩
  have hk₅ : KeepsLinks [] m₃ m₅ := hk₄.assign x fun _ => ⟨rfl, rfl⟩
  have hlinked₅ : ∀ {l : List ℕ}, Linked m₃ l → Linked m₅ l := fun hl =>
    hl.of_keepsLinks hk₅ (fun _ _ => List.not_mem_nil) rfl
  have halive : m₅.alive = m.alive := halive₃.trans hrel₁.alive
  have hroots₂ : Linked m₂ (roots.erase y) := hroots₁.assign y fun _ => ⟨rfl, rfl⟩
  have hroots₃ : Linked m₃ (roots.erase y) := hroots₂.of_keepsLinks hk₃ hdisj halive₃
  refine ⟨m₅, ?_, hlinked₅ hroots₃, hlinked₅ hadopt₃, .trans ?_ (hk₅.mono ?_), halive,
    hfresh₃.trans hrel₁.fresh, fun u => ?_⟩
  · have hy₃ : m₃.alive y = true := by
      rw [halive₃]
      exact hy₁
    have hx₄ : m₄.alive x = true := by
      rw [hm₄, alive_assign, halive₃]
      exact hx₂
    rw [makeChild, if_neg (not_or.mpr ⟨hxn, hyn⟩), hrun₁]
    change m₁.write y _ >>= _ = _
    rw [write_ok hy₁]
    change m₂.addChild x y >>= _ = _
    rw [hrun₃]
    change m₃.write y _ >>= _ = _
    rw [write_ok hy₃]
    exact write_ok hx₄ _
  · exact (hk₂.mono fun u => List.mem_append_left _).trans (hk₃.mono fun u => List.mem_append_right _)
  · exact fun u hu => absurd hu List.not_mem_nil
  · obtain ⟨hright, hleft⟩ := hk₅ u List.not_mem_nil
    rw [hleft, hright]
    by_cases hux : u = x
    · simp [hm₅, hm₄, hm₂, hux, hne, node_assign, hnode₃, hrel₁.node, parent, degree]
    · by_cases huy : u = y
      · simp [hm₅, hm₄, hm₂, huy, hne.symm, node_assign, hnode₃, hrel₁.node, child, degree]
      · simp [hm₅, hm₄, hm₂, hux, huy, node_assign, hnode₃, hrel₁.node, parent, child, degree]

/-- **A root becomes the child of another one.** -/
theorem Trees.makeChild (h : Trees m S kids roots) (hx : x ∈ roots) (hy : y ∈ roots) (hne : x ≠ y) :
    ∃ m', m.makeChild x y = .ok m' ∧
      Trees m' S (Function.update kids x (adopt y (kids x))) (roots.erase y) ∧ Kept S m m' ∧
      ∀ u, m'.degree u = if u = x then m.degree x + 1 else m.degree u := by
  have hxS := h.root_mem x hx
  have hyS := h.root_mem y hy
  obtain ⟨m', hrun, hroots', hadopt', hk, halive, hfresh, hnode⟩ := makeChild_links hne
    (h.root_ne_null hx) (h.root_ne_null hy) h.roots_linked hx hy (h.kids_linked x hxS)
    (fun c hc => h.ne_null c (h.kid_mem x hxS c hc)) (fun c hc => h.kid_not_root hxS hc)
    (h.child_eq x hxS)
  have hparent : ∀ u, m'.parent u = if u = y then x else m.parent u := fun u =>
    congrArg FibNode.parent (hnode u)
  have hchild : ∀ u, m'.child u = if u = x then (adopt y (kids x)).headD null else m.child u :=
    fun u => congrArg FibNode.child (hnode u)
  have hdegree : ∀ u, m'.degree u = if u = x then m.degree x + 1 else m.degree u := fun u =>
    congrArg FibNode.degree (hnode u)
  have hmem : ∀ u, u ∈ roots.erase y ∨ u ∈ adopt y (kids x) ↔ u ∈ roots ∨ u ∈ kids x := by
    intro u
    rw [mem_adopt]
    by_cases huy : u = y
    · simp [huy, hy]
    · rw [List.mem_erase_of_ne huy, or_iff_right huy]
  have hmemS : ∀ u ∈ roots.erase y ++ adopt y (kids x), u ∈ S := fun u hu =>
    ((hmem u).mp (List.mem_append.mp hu)).elim (h.root_mem u) (h.kid_mem x hxS u)
  have hranked : ∃ rank : ℕ → ℕ, ∀ p ∈ S, ∀ c ∈ Function.update kids x (adopt y (kids x)) p,
      rank c < rank p := by
    obtain ⟨rank, hrank⟩ := h.ranked
    -- `x` has no parent, so its rank may grow
    refine ⟨Function.update rank x (max (rank x) (rank y + 1)), fun p hp c hc => ?_⟩
    by_cases hpx : p = x
    · rw [hpx, Function.update_self, mem_adopt] at hc
      rw [hpx, Function.update_self]
      rcases hc with rfl | hc
      · rw [Function.update_of_ne hne.symm]
        omega
      · rw [Function.update_of_ne (h.kid_ne hxS hc)]
        have := hrank x hxS c hc
        omega
    · rw [Function.update_of_ne hpx] at hc
      have hcx : c ≠ x := fun e => h.kid_not_root hp hc (e ▸ hx)
      rw [Function.update_of_ne hpx, Function.update_of_ne hcx]
      exact hrank p hp c hc
  refine ⟨m', hrun, h.redistribute hxS hmem hroots' hadopt' hk halive hfresh (fun r hr => ?_)
    (fun c hc => ?_) (fun u _ hu => ?_) hchild (fun u => ?_) hranked,
    ⟨fun u => ?_, fun u => ?_, fun u hu => ?_, halive, hfresh⟩, hdegree⟩
  · have hry : r ≠ y := fun e => h.roots_linked.nodup.not_mem_erase (e ▸ hr)
    rw [hparent, if_neg hry]
    exact h.root_parent r (List.mem_of_mem_erase hr)
  · rw [hparent]
    split_ifs with hcy
    · rfl
    · exact h.kid_parent x hxS c ((mem_adopt.mp hc).resolve_left hcy)
  · rw [hparent, if_neg fun e => hu (mem_adopt.mpr (.inl e))]
  · rw [hdegree, length_adopt, h.degree_eq x hxS]
  · rw [key, hnode]
    rfl
  · rw [value, hnode]
    rfl
  · obtain ⟨hr, hl⟩ := hk u fun hu' => hu (hmemS u hu')
    have hux : u ≠ x := fun e => hu (e ▸ hxS)
    have huy : u ≠ y := fun e => hu (e ▸ hyS)
    rw [hnode, if_neg huy, if_neg hux, if_neg hux, if_neg huy, hr, hl]
    rfl

/-- What is ordered stays so when the lesser one gets the other. -/
theorem Ordered.makeChild [LE K] {a b : ℕ} (h : Ordered m S kids) (hle : m.key a ≤ m.key b) :
    Ordered m S (Function.update kids a (adopt b (kids a))) := by
  intro p hp c hc
  by_cases hpa : p = a
  · rw [hpa, Function.update_self, mem_adopt] at hc
    rw [hpa] at hp ⊢
    rcases hc with rfl | hc
    · exact hle
    · exact h a hp c hc
  · rw [Function.update_of_ne hpa] at hc
    exact h p hp c hc

/-! ### A child becomes a root -/

theorem detach_ok {ks : List ℕ} (hp : m.alive p = true) (hks : Linked m ks) (hx : x ∈ ks)
    (hchild : m.child p = ks.headD null) (hdegree : m.degree p = ks.length) :
    ∃ m', m.detach x p = .ok m' ∧ Linked m' (ks.erase x) ∧ KeepsLinks (ks.erase x) m m' ∧
      m'.alive = m.alive ∧ m'.fresh = m.fresh ∧
      ∀ u, m'.node u = { m.node u with
        child := if u = p then (ks.erase x).headD null else m.child u
        left := m'.left u, right := m'.right u } := by
  have hdegree' : (m.node p).degree = ks.length := hdegree
  rw [detach, deref_ok hp]
  change ∃ m', (if (m.node p).degree = 1 then _ else _) = _ ∧ _
  -- an only child is not unlinked: the pointer to its ring goes
  by_cases hone : (m.node p).degree = 1
  · obtain ⟨c, rfl⟩ := List.length_eq_one_iff.mp (hdegree'.symm.trans hone)
    obtain rfl := List.mem_singleton.mp hx
    have hk : KeepsLinks [] m (m.assign p fun c => { c with child := null }) :=
      keepsLinks_assign _ fun _ => ⟨rfl, rfl⟩
    rw [if_pos hone, write_ok hp, List.erase_cons_head]
    refine ⟨_, rfl, ⟨Ring.nil, List.nodup_nil, fun u hu => absurd hu List.not_mem_nil⟩, hk, rfl, rfl,
      fun u => ?_⟩
    rw [(hk u List.not_mem_nil).1, (hk u List.not_mem_nil).2]
    by_cases hup : u = p
    · simp [hup, left, right]
    · rw [node_assign_of_ne _ hup, if_neg hup]
      rfl
  · obtain ⟨m₁, hrun₁, hrel₁, hl₁, hk₁⟩ := unlink_ok hks hx
    have hp₁ : m₁.alive p = true := by rwa [hrel₁.alive]
    have hx₁ : m₁.alive x = true := by
      rw [hrel₁.alive]
      exact hks.alive x hx
    rw [if_neg hone, hrun₁]
    change ∃ m', (m₁.deref p >>= fun p' => m₁.deref x >>= _) = _ ∧ _
    rw [deref_ok hp₁, deref_ok hx₁]
    change ∃ m', (if x = (m₁.node p).child then m₁.write p _ else Except.ok m₁) = _ ∧ _
    have hchild₁ : (m₁.node p).child = ks.headD null := (hrel₁.child p).trans hchild
    have hset : ∀ c, c = (ks.erase x).headD null → ∀ u,
        (m₁.assign p fun n => { n with child := c }).node u = { m.node u with
          child := if u = p then (ks.erase x).headD null else m.child u
          left := m₁.left u, right := m₁.right u } := by
      rintro c rfl u
      by_cases hup : u = p
      · simp [hup, hrel₁.node]
      · rw [node_assign_of_ne _ hup, if_neg hup, hrel₁.node]
        rfl
    rw [hchild₁]
    obtain ⟨c, t, rfl⟩ := List.exists_cons_of_ne_nil (List.ne_nil_of_mem hx)
    rw [List.headD_cons]
    -- the pointer of the parent moves on if it points at `x`
    by_cases hxc : x = c
    · subst hxc
      obtain ⟨d, t, rfl⟩ : ∃ d t', t = d :: t' := by
        refine List.exists_cons_of_ne_nil fun ht => hone ?_
        rw [hdegree', ht, List.length_singleton]
      have hlink : KeepsLinks [] m₁ (m₁.assign p fun n => { n with child := (m₁.node x).right }) :=
        keepsLinks_assign _ fun _ => ⟨rfl, rfl⟩
      rw [List.erase_cons_head] at *
      have hnext : (m₁.node x).right = d := by
        have hkeep := (hk₁ x (List.nodup_cons.mp hks.nodup).1).1
        exact hkeep.trans hks.right_eq
      rw [if_pos rfl, write_ok hp₁]
      refine ⟨_, rfl, hl₁.of_keepsLinks hlink (fun _ _ => List.not_mem_nil) rfl,
        hk₁.trans (hlink.mono fun _ hu => absurd hu List.not_mem_nil), hrel₁.alive, hrel₁.fresh,
        fun u => ?_⟩
      rw [(hlink u List.not_mem_nil).1, (hlink u List.not_mem_nil).2]
      exact hset _ hnext u
    · rw [if_neg hxc]
      refine ⟨m₁, rfl, hl₁, hk₁, hrel₁.alive, hrel₁.fresh, fun u => ?_⟩
      have hsame : (if u = p then ((c :: t).erase x).headD null else m.child u) = m.child u := by
        rw [List.erase_cons_tail (by simpa using Ne.symm hxc), List.headD_cons]
        split_ifs with hup
        · rw [hup]
          exact hchild.symm
        · rfl
      rw [hsame, hrel₁.node]
      rfl

/-- What `cut` does to the children of the one and to the ring of roots. -/
theorem cut_links {ks rest : List ℕ} {fh : FibHeap} (hne : x ≠ p) (hxn : x ≠ null) (hpn : p ≠ null)
    (hp : m.alive p = true) (hks : Linked m ks) (hx : x ∈ ks) (hroots : Linked m (fh.min :: rest))
    (hd : ∀ c ∈ ks, c ∉ fh.min :: rest) (hchild : m.child p = ks.headD null)
    (hdegree : m.degree p = ks.length) :
    ∃ m', m.cut fh x p = .ok m' ∧ Linked m' (ks.erase x) ∧ Linked m' (fh.min :: x :: rest) ∧
      KeepsLinks (ks.erase x ++ fh.min :: x :: rest) m m' ∧ m'.alive = m.alive ∧
      m'.fresh = m.fresh ∧
      ∀ u, m'.node u = { m.node u with
        parent := if u = x then null else m.parent u
        child := if u = p then (ks.erase x).headD null else m.child u
        left := m'.left u, right := m'.right u
        degree := if u = p then m.degree p - 1 else m.degree u
        mark := if u = x then false else (m.node u).mark } := by
  have hdisj : ∀ u ∈ ks.erase x, u ∉ fh.min :: x :: rest := by
    intro u hu hu'
    have hnot := hd u (List.mem_of_mem_erase hu)
    have hux : u ≠ x := fun e => hks.nodup.not_mem_erase (e ▸ hu)
    simp_all
  obtain ⟨m₁, hrun₁, hl₁, hk₁, halive₁, hfresh₁, hnode₁⟩ := detach_ok hp hks hx hchild hdegree
  set m₂ := m₁.assign p fun c => { c with degree := c.degree - 1 } with hm₂
  set m₃ := m₂.assign x fun c => { c with parent := null, mark := false } with hm₃
  have hk₂ : KeepsLinks (ks.erase x) m m₂ := hk₁.assign p fun _ => ⟨rfl, rfl⟩
  have hk₃ : KeepsLinks (ks.erase x) m m₃ := hk₂.assign x fun _ => ⟨rfl, rfl⟩
  have hl₂ : Linked m₂ (ks.erase x) := hl₁.assign p fun _ => ⟨rfl, rfl⟩
  have hl₃ : Linked m₃ (ks.erase x) := hl₂.assign x fun _ => ⟨rfl, rfl⟩
  have hroots₃ : Linked m₃ (fh.min :: rest) :=
    hroots.of_keepsLinks hk₃ (fun u hu hu' => hd u (List.mem_of_mem_erase hu') hu) halive₁
  have hp₁ : m₁.alive p = true := by rwa [halive₁]
  have hx₁ : m₁.alive x = true := by
    rw [halive₁]
    exact hks.alive x hx
  obtain ⟨m₄, hrun₄, hrel₄, hroots₄, hk₄⟩ := linkRight_ok hroots₃ (y := x) hx₁ (hd x hx)
  refine ⟨m₄, ?_, hl₃.of_keepsLinks hk₄ hdisj hrel₄.alive, hroots₄, ?_, hrel₄.alive.trans halive₁,
    hrel₄.fresh.trans hfresh₁, fun u => ?_⟩
  · rw [cut, if_neg (not_or.mpr ⟨hxn, hpn⟩), hrun₁]
    change m₁.write p _ >>= _ = _
    rw [write_ok hp₁]
    change m₂.write x _ >>= _ = _
    rw [write_ok (m := m₂) hx₁]
    exact hrun₄
  · exact (hk₃.mono fun u => List.mem_append_left _).trans (hk₄.mono fun u => List.mem_append_right _)
  · rw [hrel₄.node]
    by_cases hup : u = p
    · simp [hm₃, hm₂, hup, hne.symm, node_assign, hnode₁, parent, degree]
    · by_cases hux : u = x
      · simp [hm₃, hm₂, hux, hne, node_assign, hnode₁, child, degree]
      · simp [hm₃, hm₂, hup, hux, node_assign, hnode₁, parent, child, degree]

/-- **A child becomes a root**, next to the least one. -/
theorem Trees.cut {rest : List ℕ} {fh : FibHeap} (h : Trees m S kids (fh.min :: rest)) (hp : p ∈ S)
    (hx : x ∈ kids p) :
    ∃ m', m.cut fh x p = .ok m' ∧
      Trees m' S (Function.update kids p ((kids p).erase x)) (fh.min :: x :: rest) ∧ Kept S m m' := by
  have hxS := h.kid_mem p hp x hx
  have hne := h.kid_ne hp hx
  obtain ⟨m', hrun, hks', hroots', hk, halive, hfresh, hnode⟩ := cut_links hne (h.ne_null x hxS)
    (h.ne_null p hp) (h.alive p hp) (h.kids_linked p hp) hx h.roots_linked
    (fun c hc => h.kid_not_root hp hc) (h.child_eq p hp) (h.degree_eq p hp)
  have hparent : ∀ u, m'.parent u = if u = x then null else m.parent u := fun u =>
    congrArg FibNode.parent (hnode u)
  have hchild : ∀ u, m'.child u = if u = p then ((kids p).erase x).headD null else m.child u :=
    fun u => congrArg FibNode.child (hnode u)
  have hdegree : ∀ u, m'.degree u = if u = p then m.degree p - 1 else m.degree u := fun u =>
    congrArg FibNode.degree (hnode u)
  -- roots and children are the same nodes as before, on either side of `x`
  have hmem : ∀ u, u ∈ fh.min :: x :: rest ∨ u ∈ (kids p).erase x ↔
      u ∈ fh.min :: rest ∨ u ∈ kids p := by
    intro u
    by_cases hux : u = x
    · simp [hux, hx]
    · rw [List.mem_erase_of_ne hux]
      simp [hux]
  have hmemS : ∀ u ∈ fh.min :: x :: rest ++ (kids p).erase x, u ∈ S := fun u hu =>
    ((hmem u).mp (List.mem_append.mp hu)).elim (h.root_mem u) (h.kid_mem p hp u)
  have hk' : KeepsLinks (fh.min :: x :: rest ++ (kids p).erase x) m m' :=
    hk.mono fun u => (List.perm_append_comm.mem_iff).mp
  have hranked : ∃ rank : ℕ → ℕ, ∀ q ∈ S, ∀ c ∈ Function.update kids p ((kids p).erase x) q,
      rank c < rank q := by
    obtain ⟨rank, hrank⟩ := h.ranked
    refine ⟨rank, fun q hq c hc => hrank q hq c ?_⟩
    by_cases hqp : q = p
    · rw [hqp, Function.update_self] at hc
      rw [hqp]
      exact List.mem_of_mem_erase hc
    · rwa [Function.update_of_ne hqp] at hc
  refine ⟨m', hrun, h.redistribute hp hmem hroots' hks' hk' halive hfresh (fun r hr => ?_)
    (fun c hc => ?_) (fun u hu _ => ?_) hchild (fun u => ?_) hranked,
    ⟨fun u => ?_, fun u => ?_, fun u hu => ?_, halive, hfresh⟩⟩
  · rw [hparent]
    split_ifs with hrx
    · rfl
    · simp only [List.mem_cons, hrx, false_or] at hr
      exact h.root_parent r (List.mem_cons.mpr hr)
  · have hcx : c ≠ x := fun e => (h.kids_linked p hp).nodup.not_mem_erase (e ▸ hc)
    rw [hparent, if_neg hcx]
    exact h.kid_parent p hp c (List.mem_of_mem_erase hc)
  · rw [hparent, if_neg fun e => hu (by simp [e])]
  · rw [hdegree, List.length_erase_of_mem hx, h.degree_eq p hp]
  · rw [key, hnode]
    rfl
  · rw [value, hnode]
    rfl
  · obtain ⟨hr, hl⟩ := hk' u fun hu' => hu (hmemS u hu')
    have hup : u ≠ p := fun e => hu (e ▸ hp)
    have hux : u ≠ x := fun e => hu (e ▸ hxS)
    rw [hnode, if_neg hux, if_neg hup, if_neg hup, if_neg hux, hr, hl]
    rfl

/-- What is ordered stays so without a child. -/
theorem Ordered.cut [LE K] (h : Ordered m S kids) (p x : ℕ) :
    Ordered m S (Function.update kids p ((kids p).erase x)) := by
  intro q hq c hc
  by_cases hqp : q = p
  · rw [hqp, Function.update_self] at hc
    rw [hqp] at hq ⊢
    exact h p hq c (List.mem_of_mem_erase hc)
  · rw [Function.update_of_ne hqp] at hc
    exact h q hq c hc

end FibMemory

end Goedb
