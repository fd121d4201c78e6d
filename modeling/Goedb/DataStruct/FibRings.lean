import Goedb.DataStruct.FibonacciHeap
import Goedb.Lib.Ring
import Mathlib.Tactic.SplitIfs

/-!
# DataStruct — the rings of a Fibonacci heap

What the assignments to `left` and `right` do to the rings of roots and children: a node is unlinked
from its ring, put to the right of another one, and the children of a node are moved to the ring of the
roots, one after the other.  All other fields are kept (`Relinked`), and so are the links of the nodes
outside the rings concerned.
-/

namespace Goedb

open Lib

namespace FibMemory

variable {K V : Type} {m m' m'' : FibMemory K V} {x y p z : ℕ} {l : List ℕ}

/-! ### Fields -/

def key (m : FibMemory K V) (p : ℕ) : K := (m.node p).key

def value (m : FibMemory K V) (p : ℕ) : V := (m.node p).value

def parent (m : FibMemory K V) (p : ℕ) : ℕ := (m.node p).parent

def child (m : FibMemory K V) (p : ℕ) : ℕ := (m.node p).child

def left (m : FibMemory K V) (p : ℕ) : ℕ := (m.node p).left

def right (m : FibMemory K V) (p : ℕ) : ℕ := (m.node p).right

def degree (m : FibMemory K V) (p : ℕ) : ℕ := (m.node p).degree

theorem deref_ok (h : m.alive p = true) : m.deref p = .ok (m.node p) := if_pos h

theorem write_ok (h : m.alive p = true) (f : FibNode K V → FibNode K V) :
    m.write p f = .ok (m.assign p f) := if_pos h

/-- The nodes outside a list of nodes keep their links. -/
def KeepsLinks (l : List ℕ) (m m' : FibMemory K V) : Prop :=
  ∀ x, x ∉ l → m'.right x = m.right x ∧ m'.left x = m.left x

/-- A field that an assignment does not write. -/
theorem ite_eq_self {β : Type} (g : ℕ → β) : (if x = p then g p else g x) = g x := by
  split_ifs with h
  · rw [h]
  · rfl

section Assign

variable (f : FibNode K V → FibNode K V)

theorem node_assign (x : ℕ) : (m.assign p f).node x = if x = p then f (m.node p) else m.node x :=
  Function.update_apply ..

@[simp] theorem node_assign_self : (m.assign p f).node p = f (m.node p) := by
  rw [node_assign, if_pos rfl]

theorem node_assign_of_ne (h : x ≠ p) : (m.assign p f).node x = m.node x := by
  rw [node_assign, if_neg h]

@[simp] theorem alive_assign : (m.assign p f).alive = m.alive := rfl

@[simp] theorem fresh_assign : (m.assign p f).fresh = m.fresh := rfl

theorem node_right (p : ℕ) : (m.node p).right = m.right p := rfl

theorem node_left (p : ℕ) : (m.node p).left = m.left p := rfl

@[simp] theorem right_assign (x : ℕ) :
    (m.assign p f).right x = if x = p then (f (m.node p)).right else m.right x := by
  rw [right, node_assign, apply_ite FibNode.right]
  rfl

@[simp] theorem left_assign (x : ℕ) :
    (m.assign p f).left x = if x = p then (f (m.node p)).left else m.left x := by
  rw [left, node_assign, apply_ite FibNode.left]
  rfl

theorem keepsLinks_assign (hf : ∀ c, (f c).left = c.left ∧ (f c).right = c.right) :
    KeepsLinks [] m (m.assign p f) := by
  intro x _
  rw [right_assign, left_assign, (hf _).1, (hf _).2]
  exact ⟨ite_eq_self m.right, ite_eq_self m.left⟩

end Assign

/-- Everything but the links of the rings is the same. -/
structure Relinked (m m' : FibMemory K V) : Prop where
  node : ∀ x, m'.node x = { m.node x with left := m'.left x, right := m'.right x }
  alive : m'.alive = m.alive
  fresh : m'.fresh = m.fresh

namespace Relinked

theorem refl (m : FibMemory K V) : Relinked m m := ⟨fun _ => rfl, rfl, rfl⟩

section

variable (h : Relinked m m')
include h

theorem trans (h' : Relinked m' m'') : Relinked m m'' :=
  ⟨fun x => by rw [h'.node, h.node], h'.alive.trans h.alive, h'.fresh.trans h.fresh⟩

theorem key (x : ℕ) : m'.key x = m.key x := by rw [FibMemory.key, h.node]; rfl

theorem value (x : ℕ) : m'.value x = m.value x := by rw [FibMemory.value, h.node]; rfl

theorem parent (x : ℕ) : m'.parent x = m.parent x := by rw [FibMemory.parent, h.node]; rfl

theorem child (x : ℕ) : m'.child x = m.child x := by rw [FibMemory.child, h.node]; rfl

theorem degree (x : ℕ) : m'.degree x = m.degree x := by rw [FibMemory.degree, h.node]; rfl

/-- A node whose links are the same is the same. -/
theorem node_eq (hr : m'.right x = m.right x) (hl : m'.left x = m.left x) :
    m'.node x = m.node x := by
  rw [h.node, hr, hl]
  rfl

theorem assign {f : FibNode K V → FibNode K V}
    (hf : ∀ c, f c = { c with left := (f c).left, right := (f c).right }) :
    Relinked m (m'.assign p f) := by
  refine h.trans ⟨fun x => ?_, rfl, rfl⟩
  rw [left_assign, right_assign]
  by_cases hx : x = p
  · rw [hx, node_assign_self, if_pos rfl, if_pos rfl]
    exact hf _
  · rw [node_assign_of_ne f hx, if_neg hx, if_neg hx]
    rfl

end

end Relinked

/-! ### One assignment after the other -/

theorem unlink_links (hy : m.alive y = true) (hl : m.alive (m.left y) = true)
    (hr : m.alive (m.right y) = true) : ∃ m', m.unlink y = .ok m' ∧ Relinked m m' ∧
      (∀ x, m'.right x = if x = m.left y then m.right y else m.right x) ∧
      ∀ x, m'.left x = if x = m.right y then m.left y else m.left x := by
  refine ⟨(m.assign (m.left y) fun c => { c with right := m.right y }).assign (m.right y)
    fun c => { c with left := m.left y }, ?_, ?_, fun x => ?_, fun x => ?_⟩
  · simp [unlink, deref_ok, write_ok, hy, hl, hr, node_left, node_right, ite_eq_self]
  · exact .assign (.assign (.refl m) fun _ => rfl) fun _ => rfl
  · simp only [right_assign, node_right]
    grind
  · simp only [left_assign, node_left]
    grind

theorem linkRight_links (hp : m.alive p = true) (hy : m.alive y = true)
    (hr : m.alive (m.right p) = true) :
    ∃ m', m.linkRight p y = .ok m' ∧ Relinked m m' ∧
      (∀ x, m'.right x = if x = p then y else if x = y then m.right p else m.right x) ∧
      ∀ x, m'.left x = if x = y then p else if x = m.right p then y else m.left x := by
  refine ⟨(((m.assign y fun c => { c with right := m.right p }).assign (m.right p)
    fun c => { c with left := y }).assign y fun c => { c with left := p }).assign p
    fun c => { c with right := y }, ?_, ?_, fun x => ?_, fun x => ?_⟩
  · simp [linkRight, deref_ok, write_ok, hp, hy, hr, node_right]
  · exact .assign (.assign (.assign (.assign (.refl m) fun _ => rfl) fun _ => rfl) fun _ => rfl)
      fun _ => rfl
  · simp only [right_assign, node_right]
    grind
  · simp only [left_assign, node_left]
    grind

/-! ### Rings -/

/-- The links of a ring, and what its nodes are. -/
structure Linked (m : FibMemory K V) (l : List ℕ) : Prop where
  ring : Ring m.right m.left l
  nodup : l.Nodup
  alive : ∀ u ∈ l, m.alive u = true

/-- A ring whose nodes keep their links. -/
theorem Linked.congr (h : Linked m l) (hr : ∀ u ∈ l, m'.right u = m.right u)
    (hl : ∀ u ∈ l, m'.left u = m.left u) (ha : ∀ u ∈ l, m'.alive u = m.alive u) : Linked m' l :=
  ⟨h.ring.congr hr hl, h.nodup, fun u hu => (ha u hu).trans (h.alive u hu)⟩

theorem Linked.rotate {l' : List ℕ} (h : Linked m l) (hr : l ~r l') : Linked m l' :=
  ⟨(Ring.rotate hr).mp h.ring, hr.perm.nodup_iff.mp h.nodup,
    fun u hu => h.alive u (hr.perm.mem_iff.mpr hu)⟩

theorem Linked.right_mem (h : Linked m l) (hx : x ∈ l) : m.right x ∈ l := h.ring.nxt_mem hx

theorem Linked.left_mem (h : Linked m l) (hx : x ∈ l) : m.left x ∈ l := h.ring.prv_mem hx

/-- The way around a ring, from its first node to any. -/
theorem Linked.exists_way {l : List ℕ} (h : Linked m (x :: l)) (hy : y ∈ x :: l) :
    ∃ k, (∀ v ∈ k, v ∈ l) ∧ y ∉ k ∧ k.length ≤ l.length ∧
      List.IsChain (fun u v => m.right u = v) (x :: k) ∧
      m.right ((x :: k).getLast (List.cons_ne_nil x k)) = y := by
  obtain ⟨hchain, hlast, -⟩ := (Ring.iff_chain (List.cons_ne_nil x l)).mp h.ring
  have hchain' : List.IsChain (fun u v => m.right u = v) (x :: l) := hchain.imp fun _ _ h => h.1
  rcases List.mem_cons.mp hy with rfl | hy
  · exact ⟨l, fun _ hv => hv, (List.nodup_cons.mp h.nodup).1, Nat.le_refl _, hchain', hlast⟩
  · obtain ⟨k, k', rfl⟩ := List.append_of_mem hy
    rw [← List.cons_append, List.isChain_append] at hchain'
    have hnot : y ∉ k := fun hk =>
      (List.nodup_append.mp (List.nodup_cons.mp h.nodup).2).2.2 y hk y List.mem_cons_self rfl
    refine ⟨k, fun v hv => List.mem_append_left _ hv, hnot, ?_, hchain'.1,
      hchain'.2.2 _ (List.getLast_mem_getLast? _) y rfl⟩
    rw [List.length_append]
    omega

/-- **A node is unlinked.**  Its own links stay. -/
theorem unlink_ok (h : Linked m l) (hy : y ∈ l) : ∃ m', m.unlink y = .ok m' ∧ Relinked m m' ∧
    Linked m' (l.erase y) ∧ KeepsLinks (l.erase y) m m' := by
  obtain ⟨m', hrun, hrel, hright, hleft⟩ := unlink_links (h.alive y hy)
    (h.alive _ (h.left_mem hy)) (h.alive _ (h.right_mem hy))
  have hne : l ≠ [y] → m.left y ≠ y ∧ m.right y ≠ y := fun hne =>
    ⟨fun e => hne (h.ring.eq_singleton_of_prv_eq h.nodup hy e),
      fun e => hne (h.ring.eq_singleton_of_nxt_eq h.nodup hy e)⟩
  refine ⟨m', hrun, hrel, ⟨?_, h.nodup.erase y, ?_⟩, fun x hx => ?_⟩
  · by_cases hl : l = [y]
    · rw [hl, List.erase_cons_head]
      exact Ring.nil
    · refine h.ring.erase h.nodup hy hl (fun u _ _ hu => ?_) (fun v _ _ hv => ?_) ⟨?_, ?_⟩
      · rw [hright, if_neg hu]
      · rw [hleft, if_neg hv]
      · rw [hright, if_pos rfl]
      · rw [hleft, if_pos rfl]
  · rw [hrel.alive]
    exact fun u hu => h.alive u (List.mem_of_mem_erase hu)
  · rw [hright, hleft]
    by_cases hl : l = [y]
    · subst hl
      obtain ⟨hr, hl⟩ := Ring.singleton_iff.mp h.ring
      refine ⟨?_, ?_⟩
      · split_ifs with e
        · rw [e, hl]
        · rfl
      · split_ifs with e
        · rw [e, hr]
        · rfl
    · have hnot : ∀ u ∈ l, u ≠ y → x ≠ u := fun u hu hne e => hx (e ▸ (List.mem_erase_of_ne hne).mpr hu)
      rw [if_neg (hnot _ (h.left_mem hy) (hne hl).1), if_neg (hnot _ (h.right_mem hy) (hne hl).2)]
      exact ⟨rfl, rfl⟩

/-- **A node is put to the right of the first one.** -/
theorem linkRight_ok (h : Linked m (p :: l)) (hy : m.alive y = true) (hn : y ∉ p :: l) :
    ∃ m', m.linkRight p y = .ok m' ∧ Relinked m m' ∧ Linked m' (p :: y :: l) ∧
      KeepsLinks (p :: y :: l) m m' := by
  have hmem : m.right p ∈ p :: l := h.right_mem List.mem_cons_self
  obtain ⟨m', hrun, hrel, hright, hleft⟩ := linkRight_links (h.alive p List.mem_cons_self) hy
    (h.alive _ hmem)
  rw [List.mem_cons, not_or] at hn
  have hne : m.right p ≠ y := fun e => (List.mem_cons.mp hmem).elim (fun e' => hn.1 (e ▸ e'))
    fun hl => hn.2 (e ▸ hl)
  have hd := List.nodup_cons.mp h.nodup
  refine ⟨m', hrun, hrel, ⟨h.ring.insert h.nodup ?_ ?_ ⟨?_, ?_⟩ ⟨?_, ?_⟩, ?_, ?_⟩, fun x hx => ?_⟩
  · intro u hu
    rw [hright, if_neg (fun e : u = p => hd.1 (e ▸ hu)), if_neg fun e : u = y => hn.2 (e ▸ hu)]
  · intro v hv hvr
    rw [hleft, if_neg, if_neg hvr]
    rintro rfl
    exact (List.mem_cons.mp hv).elim hn.1 hn.2
  · rw [hright, if_pos rfl]
  · rw [hleft, if_pos rfl]
  · rw [hright, if_neg hn.1, if_pos rfl]
  · rw [hleft, if_neg hne, if_pos rfl]
  · refine List.nodup_cons.mpr ⟨?_, List.nodup_cons.mpr ⟨hn.2, hd.2⟩⟩
    rw [List.mem_cons, not_or]
    exact ⟨fun e => hn.1 e.symm, hd.1⟩
  · rw [hrel.alive]
    rintro u hu
    rcases List.mem_cons.mp hu with rfl | hu
    · exact h.alive _ List.mem_cons_self
    · rcases List.mem_cons.mp hu with rfl | hu
      · exact hy
      · exact h.alive u (List.mem_cons_of_mem _ hu)
  · simp only [List.mem_cons, not_or] at hx
    have hxr : x ≠ m.right p := fun e =>
      (List.mem_cons.mp (e ▸ hmem)).elim hx.1 hx.2.2
    rw [hright, hleft, if_neg hx.1, if_neg hx.2.1, if_neg hx.2.1, if_neg hxr]
    exact ⟨rfl, rfl⟩

/-- **Two rings are joined.** -/
theorem splice_ok {a b : ℕ} {k : List ℕ} (h : Linked m (a :: l)) (h' : Linked m (b :: k))
    (hd : ∀ u ∈ a :: l, u ∉ b :: k) :
    ∃ m', m.splice a b = .ok m' ∧ Relinked m m' ∧ Linked m' (a :: (b :: k ++ l)) ∧
      KeepsLinks (a :: (b :: k ++ l)) m m' := by
  have ha := h.alive a List.mem_cons_self
  have hb := h'.alive b List.mem_cons_self
  have hra : m.right a ∈ a :: l := h.right_mem List.mem_cons_self
  have hlb : m.left b ∈ b :: k := h'.left_mem List.mem_cons_self
  set m' := (((m.assign a fun c => { c with right := b }).assign b
    fun c => { c with left := a }).assign (m.right a) fun c => { c with left := m.left b }).assign
    (m.left b) fun c => { c with right := m.right a } with hm'
  have hright : ∀ x, m'.right x = if x = m.left b then m.right a else if x = a then b else m.right x := by
    intro x
    simp only [hm', right_assign, node_right]
    grind
  have hleft : ∀ x, m'.left x = if x = m.right a then m.left b else if x = b then a else m.left x := by
    intro x
    simp only [hm', left_assign, node_left]
    grind
  have hlbl : ∀ u ∈ a :: l, u ≠ m.left b := fun u hu e => hd u hu (e ▸ hlb)
  have hbl : ∀ u ∈ a :: l, u ≠ b := fun u hu e => hd u hu (e ▸ List.mem_cons_self)
  have hrk : ∀ u ∈ b :: k, u ≠ m.right a := fun u hu e => hd _ hra (e ▸ hu)
  have hak : ∀ u ∈ b :: k, u ≠ a := fun u hu e => hd a List.mem_cons_self (e ▸ hu)
  have hmem : ∀ u, u ∈ a :: (b :: k ++ l) ↔ u ∈ a :: l ∨ u ∈ b :: k := by
    intro u
    simp only [List.mem_cons, List.mem_append]
    tauto
  refine ⟨m', ?_, ?_, ⟨h.ring.splice h'.ring h.nodup h'.nodup ?_ ?_ ?_ ?_ ⟨?_, ?_⟩ ⟨?_, ?_⟩, ?_, ?_⟩,
    fun x hx => ?_⟩
  · simp [splice, deref_ok, write_ok, ha, hb, h.alive _ hra, h'.alive _ hlb, node_right, node_left, hm']
  · exact .assign (.assign (.assign (.assign (.refl m) fun _ => rfl) fun _ => rfl) fun _ => rfl)
      fun _ => rfl
  · intro u hu hua
    rw [hright, if_neg (hlbl u hu), if_neg hua]
  · intro v hv hva
    rw [hleft, if_neg hva, if_neg (hbl v hv)]
  · intro u hu hub
    rw [hright, if_neg hub, if_neg (hak u hu)]
  · intro v hv hvb
    rw [hleft, if_neg (hrk v hv), if_neg hvb]
  · rw [hright, if_neg (hlbl a List.mem_cons_self), if_pos rfl]
  · rw [hleft, if_neg (hrk b List.mem_cons_self), if_pos rfl]
  · rw [hright, if_pos rfl]
  · rw [hleft, if_pos rfl]
  · have hperm : (a :: (b :: k ++ l)).Perm (a :: l ++ b :: k) :=
      .cons a (List.perm_append_comm)
    exact hperm.nodup_iff.mpr (List.nodup_append.mpr ⟨h.nodup, h'.nodup, fun u hu v hv e =>
      hd u hu (e ▸ hv)⟩)
  · intro u hu
    change m.alive u = true
    exact ((hmem u).mp hu).elim (h.alive u) (h'.alive u)
  · rw [hmem, not_or] at hx
    have hxa : x ≠ a := fun e => hx.1 (e ▸ List.mem_cons_self)
    have hxb : x ≠ b := fun e => hx.2 (e ▸ List.mem_cons_self)
    have hxl : x ≠ m.left b := fun e => hx.2 (e ▸ hlb)
    have hxr : x ≠ m.right a := fun e => hx.1 (e ▸ hra)
    rw [hright, hleft, if_neg hxl, if_neg hxa, if_neg hxr, if_neg hxb]
    exact ⟨rfl, rfl⟩

/-! ### The children of the least node -/

theorem KeepsLinks.mono {l' : List ℕ} (h : KeepsLinks l m m') (hl : ∀ x ∈ l, x ∈ l') :
    KeepsLinks l' m m' :=
  fun x hx => h x fun hx' => hx (hl x hx')

theorem KeepsLinks.trans (h : KeepsLinks l m m') (h' : KeepsLinks l m' m'') : KeepsLinks l m m'' :=
  fun x hx => ⟨(h' x hx).1.trans (h x hx).1, (h' x hx).2.trans (h x hx).2⟩

theorem Linked.of_keepsLinks {l' : List ℕ} (h : Linked m l) (hk : KeepsLinks l' m m')
    (hd : ∀ u ∈ l, u ∉ l') (ha : m'.alive = m.alive) : Linked m' l :=
  h.congr (fun u hu => (hk u (hd u hu)).1) (fun u hu => (hk u (hd u hu)).2)
    fun u _ => congrFun ha u

/-- An assignment to other fields keeps the rings. -/
theorem Linked.assign (h : Linked m l) (p : ℕ) {f : FibNode K V → FibNode K V}
    (hf : ∀ c, (f c).left = c.left ∧ (f c).right = c.right) : Linked (m.assign p f) l :=
  h.of_keepsLinks (keepsLinks_assign f hf) (fun _ _ => List.not_mem_nil) rfl

theorem KeepsLinks.assign (h : KeepsLinks l m m') (p : ℕ) {f : FibNode K V → FibNode K V}
    (hf : ∀ c, (f c).left = c.left ∧ (f c).right = c.right) : KeepsLinks l m (m'.assign p f) :=
  h.trans ((keepsLinks_assign f hf).mono fun _ hu => absurd hu List.not_mem_nil)

/-- On the right of a node stands the next one, or the node itself. -/
theorem Linked.right_eq (h : Linked m (x :: l)) : m.right x = l.headD x := by
  cases l with
  | nil => exact (Ring.singleton_iff.mp h.ring).1
  | cons y l => exact ((Ring.cons_iff.mp h.ring).rel).1

/-- What `extract_min` takes for the next child. -/
theorem Linked.next_or_null {c : ℕ} {ks : List ℕ} (h : Linked m (c :: ks)) :
    (if m.right c ≠ c then m.right c else null) = ks.headD null := by
  rw [h.right_eq]
  cases ks with
  | nil => exact if_neg (not_not_intro rfl)
  | cons d ks =>
      have hne : d ≠ c := fun e => (List.nodup_cons.mp h.nodup).1 (e ▸ List.mem_cons_self)
      exact if_pos hne

/-- What lifting the children `ks` to the ring of `z` changes. -/
structure Lifted (ks : List ℕ) (m m' : FibMemory K V) : Prop where
  node : ∀ x, m'.node x = { m.node x with
    parent := if x ∈ ks then null else m.parent x, left := m'.left x, right := m'.right x }
  alive : m'.alive = m.alive
  fresh : m'.fresh = m.fresh

namespace Lifted

variable {ks : List ℕ} (h : Lifted ks m m')
include h

theorem key (x : ℕ) : m'.key x = m.key x := by rw [FibMemory.key, h.node]; rfl

theorem value (x : ℕ) : m'.value x = m.value x := by rw [FibMemory.value, h.node]; rfl

theorem child (x : ℕ) : m'.child x = m.child x := by rw [FibMemory.child, h.node]; rfl

theorem degree (x : ℕ) : m'.degree x = m.degree x := by rw [FibMemory.degree, h.node]; rfl

theorem parent (x : ℕ) : m'.parent x = if x ∈ ks then null else m.parent x := by
  rw [FibMemory.parent, h.node]

theorem relink (h' : Relinked m' m'') : Lifted ks m m'' where
  node x := by rw [h'.node, h.node]
  alive := h'.alive.trans h.alive
  fresh := h'.fresh.trans h.fresh

end Lifted

/-- **The children are lifted**, the last of them to the place next to `z`. -/
theorem liftChildren_ok {ks : List ℕ} : ∀ {rs : List ℕ} {m : FibMemory K V} {fuel : ℕ},
    Linked m ks → Linked m (z :: rs) → (∀ c ∈ ks, c ∉ z :: rs) → (∀ c ∈ ks, c ≠ null) →
    ks.length < fuel →
    ∃ m', m.liftChildren z fuel (ks.headD null) = .ok m' ∧ Lifted ks m m' ∧
      Linked m' (z :: (ks.reverse ++ rs)) ∧ KeepsLinks (z :: (ks.reverse ++ rs)) m m' := by
  -- by induction on the children that are left: the first of them goes to the right of `z`
  induction ks with
  | nil =>
      intro rs m fuel _ hz _ _ hfuel
      obtain ⟨fuel, rfl⟩ : ∃ k, fuel = k + 1 := ⟨fuel - 1, by simp at hfuel; omega⟩
      exact ⟨m, if_pos rfl, ⟨fun _ => rfl, rfl, rfl⟩, hz, fun _ _ => ⟨rfl, rfl⟩⟩
  | cons c ks ih =>
      intro rs m fuel hks hz hd hnull hfuel
      obtain ⟨fuel, rfl⟩ : ∃ k, fuel = k + 1 := ⟨fuel - 1, by simp at hfuel; omega⟩
      have hc : m.alive c = true := hks.alive c List.mem_cons_self
      set m₀ := m.assign c fun n => { n with parent := null } with hm₀
      have hks₀ : Linked m₀ (c :: ks) := hks.assign c fun _ => ⟨rfl, rfl⟩
      have hz₀ : Linked m₀ (z :: rs) := hz.assign c fun _ => ⟨rfl, rfl⟩
      obtain ⟨m₁, hrun₁, hrel₁, hks₁, hk₁⟩ := unlink_ok hks₀ List.mem_cons_self
      rw [List.erase_cons_head] at hks₁ hk₁
      have hz₁ : Linked m₁ (z :: rs) := hz₀.of_keepsLinks hk₁
        (fun u hu hu' => hd u (List.mem_cons_of_mem _ hu') hu) hrel₁.alive
      have hcz : c ∉ z :: rs := hd c List.mem_cons_self
      have hc₁ : m₁.alive c = true := by
        rw [hrel₁.alive]
        exact hc
      obtain ⟨m₂, hrun₂, hrel₂, hz₂, hk₂⟩ := linkRight_ok hz₁ hc₁ hcz
      have hdisj : ∀ u ∈ ks, u ∉ z :: c :: rs := fun u hu => by
        have := hd u (List.mem_cons_of_mem _ hu)
        have := fun e : u = c => (List.nodup_cons.mp hks.nodup).1 (e ▸ hu)
        simp_all
      have hks₂ : Linked m₂ ks := hks₁.of_keepsLinks hk₂ hdisj hrel₂.alive
      obtain ⟨m', hrun, hlift, hz', hk'⟩ := ih hks₂ hz₂ hdisj
        (fun u hu => hnull u (List.mem_cons_of_mem _ hu)) (show ks.length < fuel by simpa using hfuel)
      refine ⟨m', ?_, ?_, ?_, ?_⟩
      · have hnext := hks.next_or_null
        rw [liftChildren, List.headD_cons, if_neg (hnull c List.mem_cons_self), deref_ok hc]
        change m.write c _ >>= _ = _
        rw [write_ok hc]
        change m₀.unlink c >>= _ = _
        rw [hrun₁]
        change m₁.linkRight z c >>= _ = _
        rw [hrun₂]
        change liftChildren z fuel (if m.right c ≠ c then m.right c else null) m₂ = _
        rw [hnext, hrun]
      · refine ⟨fun x => ?_, ?_, ?_⟩
        · rw [hlift.node, hrel₂.parent, hrel₁.parent, hrel₂.node, hrel₁.node]
          by_cases hx : x = c
          · subst hx
            simp [hm₀, parent]
          · simp [hm₀, parent, hx, node_assign_of_ne]
        · rw [hlift.alive, hrel₂.alive, hrel₁.alive]
          rfl
        · rw [hlift.fresh, hrel₂.fresh, hrel₁.fresh]
          rfl
      · simpa using hz'
      · have h₀ : KeepsLinks (z :: ((c :: ks).reverse ++ rs)) m m₀ :=
          .assign (fun _ _ => ⟨rfl, rfl⟩) c fun _ => ⟨rfl, rfl⟩
        have h₁ : KeepsLinks (z :: ((c :: ks).reverse ++ rs)) m₀ m₁ :=
          hk₁.mono fun x hx => by simp [hx]
        have h₂ : KeepsLinks (z :: ((c :: ks).reverse ++ rs)) m₁ m₂ :=
          hk₂.mono fun x hx => by grind
        have h₃ : KeepsLinks (z :: ((c :: ks).reverse ++ rs)) m₂ m' :=
          hk'.mono fun x hx => by simpa using hx
        exact ((h₀.trans h₁).trans h₂).trans h₃

/-! ### The new root list -/

/-- A node alone. -/
theorem linked_singleton (hx : m.alive x = true) :
    Linked (m.assign x fun c => { c with left := x, right := x }) [x] := by
  refine ⟨Ring.singleton_iff.mpr ⟨?_, ?_⟩, List.nodup_singleton x, fun u hu => ?_⟩
  · rw [right_assign, if_pos rfl]
  · rw [left_assign, if_pos rfl]
  · rw [List.mem_singleton.mp hu]
    exact hx

section Rebuild

variable [LinearOrder K]

/-- The ring begins with a least node. -/
def HeadLeast (m : FibMemory K V) (l : List ℕ) : Prop := ∀ u ∈ l, m.key (l.headD null) ≤ m.key u

theorem HeadLeast.relinked (h : HeadLeast m l) (hr : Relinked m m') : HeadLeast m' l := by
  intro u hu
  rw [hr.key, hr.key]
  exact h u hu

/-- An entry of the table is put into the new ring. -/
theorem rebuild_cons (table : List ℕ) (hl : Linked m l) (hnull : ∀ u ∈ l, u ≠ null)
    (hleast : HeadLeast m l) (hxn : x ≠ null) (hx : m.alive x = true) (hxl : x ∉ l) :
    ∃ m₁ l₁, rebuild (x :: table) m (l.headD null) = rebuild table m₁ (l₁.headD null) ∧
      Relinked m m₁ ∧ Linked m₁ l₁ ∧ l₁.Perm (l ++ [x]) ∧ KeepsLinks l₁ m m₁ ∧ HeadLeast m l₁ := by
  rw [rebuild, if_neg hxn]
  cases l with
  | nil =>
      rw [if_pos List.headD_nil, write_ok hx]
      refine ⟨_, [x], rfl, .assign (.refl m) fun _ => rfl, linked_singleton hx, .refl _,
        fun u hu => ?_, by simp [HeadLeast]⟩
      rw [List.mem_singleton] at hu
      rw [right_assign, left_assign, if_neg hu, if_neg hu]
      exact ⟨rfl, rfl⟩
  | cons a rest =>
      rw [List.headD_cons, if_neg (hnull a List.mem_cons_self)]
      obtain ⟨m₁, hrun, hrel, hl₁, hk⟩ := linkRight_ok hl hx hxl
      have hax : m₁.alive x = true := hl₁.alive x (by simp)
      have haa : m₁.alive a = true := hl₁.alive a List.mem_cons_self
      have hperm : (a :: x :: rest).Perm (a :: rest ++ [x]) :=
        .cons a (List.perm_append_singleton x rest).symm
      have hgo : (do
          let m ← m.linkRight a x
          let cx ← m.deref x
          let c ← m.deref a
          rebuild table m (if cx.key < c.key then x else a)) =
          rebuild table m₁ (if m.key x < m.key a then x else a) := by
        rw [hrun, ← hrel.key, ← hrel.key]
        change (m₁.deref x >>= fun cx => m₁.deref a >>= _) = _
        rw [deref_ok hax, deref_ok haa]
        rfl
      by_cases hlt : m.key x < m.key a
      · rw [if_pos hlt] at hgo
        have hrot : a :: x :: rest ~r x :: (rest ++ [a]) := ⟨1, rfl⟩
        refine ⟨m₁, x :: (rest ++ [a]), hgo, hrel, hl₁.rotate hrot, hrot.perm.symm.trans hperm,
          hk.mono fun u hu => hrot.perm.mem_iff.mp hu, fun u hu => ?_⟩
        rcases List.mem_cons.mp (hrot.perm.mem_iff.mpr hu) with rfl | hu
        · exact hlt.le
        · rcases List.mem_cons.mp hu with rfl | hu
          · exact le_refl _
          · exact hlt.le.trans (hleast u (List.mem_cons_of_mem _ hu))
      · rw [if_neg hlt] at hgo
        refine ⟨m₁, a :: x :: rest, hgo, hrel, hl₁, hperm, hk, fun u hu => ?_⟩
        rcases List.mem_cons.mp hu with rfl | hu
        · exact le_refl _
        · rcases List.mem_cons.mp hu with rfl | hu
          · exact not_lt.mp hlt
          · exact hleast u (List.mem_cons_of_mem _ hu)

/-- **The root list is rebuilt** from the entries of the table that are no null pointers. -/
theorem rebuild_ok {table : List ℕ} : ∀ {m : FibMemory K V} {l : List ℕ},
    Linked m l → (∀ u ∈ l, u ≠ null) → HeadLeast m l →
    (l ++ table.filter (· ≠ null)).Nodup → (∀ u ∈ table, u ≠ null → m.alive u = true) →
    ∃ m' l', rebuild table m (l.headD null) = .ok (m', l'.headD null) ∧ Relinked m m' ∧
      Linked m' l' ∧ l'.Perm (l ++ table.filter (· ≠ null)) ∧ KeepsLinks l' m m' ∧
      HeadLeast m l' := by
  induction table with
  | nil =>
      intro m l hl _ hleast _ _
      exact ⟨m, l, rfl, .refl m, hl, by simp, fun _ _ => ⟨rfl, rfl⟩, hleast⟩
  | cons x table ih =>
      intro m l hl hnull hleast hd halive
      have halive' : ∀ u ∈ table, u ≠ null → m.alive u = true := fun u hu =>
        halive u (List.mem_cons_of_mem _ hu)
      by_cases hxn : x = null
      · have hfilter : (x :: table).filter (· ≠ null) = table.filter (· ≠ null) := by simp [hxn]
        rw [hfilter] at hd ⊢
        rw [rebuild, if_pos hxn]
        exact ih hl hnull hleast hd halive'
      · have hfilter : (x :: table).filter (· ≠ null) = x :: table.filter (· ≠ null) := by
          simp [hxn]
        rw [hfilter, List.append_cons] at hd ⊢
        have hxl : x ∉ l := fun h =>
          (List.nodup_append.mp (List.nodup_append.mp hd).1).2.2 x h x (by simp) rfl
        obtain ⟨m₁, l₁, hgo, hrel₁, hl₁, hperm₁, hk₁, hleast₁⟩ := rebuild_cons table hl hnull hleast
          hxn (halive x List.mem_cons_self hxn) hxl
        have hnull₁ : ∀ u ∈ l₁, u ≠ null := by
          intro u hu
          rcases List.mem_append.mp (hperm₁.mem_iff.mp hu) with hu | hu
          · exact hnull u hu
          · rw [List.mem_singleton.mp hu]
            exact hxn
        obtain ⟨m', l', hrun, hrel, hl', hperm, hk, hleast'⟩ := ih hl₁ hnull₁
          (hleast₁.relinked hrel₁) ((hperm₁.append_right _).nodup_iff.mpr hd)
          (by rw [hrel₁.alive]; exact halive')
        refine ⟨m', l', hgo.trans hrun, hrel₁.trans hrel, hl', hperm.trans (hperm₁.append_right _),
          .trans (hk₁.mono fun u hu => ?_) hk, fun u hu => ?_⟩
        · exact hperm.mem_iff.mpr (List.mem_append_left _ hu)
        · rw [← hrel₁.key, ← hrel₁.key u]
          exact hleast' u hu

end Rebuild

end FibMemory

end Goedb
