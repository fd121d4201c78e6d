import Goedb.DataStruct.FibQueue

/-!
# DataStruct — a Fibonacci heap does not look at its values

Two heaps whose nodes have the same fields but for the values (`FibMemory.SameBut`) go through the same
links and compare the same keys.  So every function ends alike on both, one lemma each, and the queue of
the searches is uniform, whether it fits or not (`PrioQueue.uniform_fibHeap`).
-/

namespace Goedb

open Lib

namespace FibMemory

variable {K V : Type} {R : V → V → Prop}

/-- The fields of two nodes are the same but for the values, which are related. -/
def SameNode (R : V → V → Prop) (n n' : FibNode K V) : Prop :=
  ∃ v, R n.value v ∧ n' = { n with value := v }

/-- The nodes that are allocated are the same but for their values. -/
structure SameBut (R : V → V → Prop) (m m' : FibMemory K V) : Prop where
  alive : m'.alive = m.alive
  fresh : m'.fresh = m.fresh
  node : ∀ p, m.alive p = true → SameNode R (m.node p) (m'.node p)

/-- What a function returns besides the memory is the same. -/
def SameWith {β : Type} (R : V → V → Prop) (r r' : FibMemory K V × β) : Prop :=
  SameBut R r.1 r'.1 ∧ r'.2 = r.2

/-- The variables of `consolidate` are the same. -/
structure SameWalk (R : V → V → Prop) (w w' : Walk K V) : Prop where
  mem : SameBut R w.mem w'.mem
  nodesWDegree : w'.nodesWDegree = w.nodesWDegree
  first : w'.first = w.first

/-! ### One access -/

/-- An assignment that does not depend on the value. -/
theorem SameNode.map {n n' : FibNode K V} {f : FibNode K V → FibNode K V} (h : SameNode R n n')
    (hf : ∀ n v, f { n with value := v } = { f n with value := v }) : SameNode R (f n) (f n') := by
  obtain ⟨v, hv, rfl⟩ := h
  have hvalue : (f n).value = n.value := by
    rw [show f n = { f n with value := n.value } from hf n n.value]
  exact ⟨v, hvalue.symm ▸ hv, hf n v⟩

namespace SameBut

variable {m m' : FibMemory K V} (h : SameBut R m m')
include h

theorem deref (p : ℕ) : Alike (SameNode R) (m.deref p) (m'.deref p) := by
  rw [FibMemory.deref, FibMemory.deref, h.alive]
  split
  · rename_i hp
    exact .ok (h.node p hp)
  · exact .error _

/-- The fields that are assigned do not depend on the value. -/
theorem write (p : ℕ) {f : FibNode K V → FibNode K V}
    (hf : ∀ n v, f { n with value := v } = { f n with value := v }) :
    Alike (SameBut R) (m.write p f) (m'.write p f) := by
  rw [FibMemory.write, FibMemory.write, h.alive]
  split
  · rename_i hp
    refine .ok ⟨h.alive, h.fresh, fun q hq => ?_⟩
    by_cases hqp : q = p
    · rw [hqp, node_assign_self, node_assign_self]
      exact (h.node p hp).map hf
    · rw [node_assign_of_ne _ hqp, node_assign_of_ne _ hqp]
      exact h.node q hq
  · exact .error _

theorem alloc {n n' : FibNode K V} (hn : SameNode R n n') : SameBut R (m.alloc n) (m'.alloc n') := by
  refine ⟨?_, congrArg (· + 1) h.fresh, fun q hq => ?_⟩
  · rw [FibMemory.alloc, FibMemory.alloc, h.alive, h.fresh]
  · show SameNode R (Function.update m.node m.fresh n q) (Function.update m'.node m'.fresh n' q)
    rw [h.fresh]
    by_cases hqp : q = m.fresh
    · rw [hqp, Function.update_self, Function.update_self]
      exact hn
    · have hold : Function.update m.alive m.fresh true q = true := hq
      rw [Function.update_of_ne hqp] at hold ⊢
      rw [Function.update_of_ne hqp]
      exact h.node q hold

theorem free (p : ℕ) : Alike (SameBut R) (m.free p) (m'.free p) := by
  rw [FibMemory.free, FibMemory.free, h.alive]
  split
  · refine .ok ⟨rfl, h.fresh, fun q hq => h.node q ?_⟩
    have hleft : Function.update m.alive p false q = true := hq
    by_cases hqp : q = p
    · rw [hqp, Function.update_self] at hleft
      cases hleft
    · rwa [Function.update_of_ne hqp] at hleft
  · exact .error _

/-! ### Rings -/

theorem unlink (y : ℕ) : Alike (SameBut R) (m.unlink y) (m'.unlink y) := by
  refine (h.deref y).bind fun n n' hn => ?_
  obtain ⟨v, -, rfl⟩ := hn
  refine (h.write _ fun _ _ => rfl).bind fun m₁ m₁' h₁ => ?_
  refine (h₁.deref y).bind fun n n' hn => ?_
  obtain ⟨v, -, rfl⟩ := hn
  exact h₁.write _ fun _ _ => rfl

theorem linkRight (p y : ℕ) : Alike (SameBut R) (m.linkRight p y) (m'.linkRight p y) := by
  refine (h.deref p).bind fun n n' hn => ?_
  obtain ⟨v, -, rfl⟩ := hn
  refine (h.write y fun _ _ => rfl).bind fun m₁ m₁' h₁ => ?_
  refine (h₁.write _ fun _ _ => rfl).bind fun m₂ m₂' h₂ => ?_
  exact (h₂.write y fun _ _ => rfl).bind fun m₃ m₃' h₃ => h₃.write p fun _ _ => rfl

theorem addChild (x y : ℕ) : Alike (SameBut R) (m.addChild x y) (m'.addChild x y) := by
  refine (h.deref x).bind fun n n' hn => ?_
  obtain ⟨v, -, rfl⟩ := hn
  split
  · exact h.linkRight _ y
  · exact (h.write x fun _ _ => rfl).bind fun m₁ m₁' h₁ => h₁.write y fun _ _ => rfl

theorem makeChild (x y : ℕ) : Alike (SameBut R) (m.makeChild x y) (m'.makeChild x y) := by
  rw [FibMemory.makeChild, FibMemory.makeChild]
  split
  · exact .error _
  · refine (h.unlink y).bind fun m₁ m₁' h₁ => ?_
    refine (h₁.write y fun _ _ => rfl).bind fun m₂ m₂' h₂ => ?_
    refine (h₂.addChild x y).bind fun m₃ m₃' h₃ => ?_
    exact (h₃.write y fun _ _ => rfl).bind fun m₄ m₄' h₄ => h₄.write x fun _ _ => rfl

variable [LinearOrder K] [OrderBot K]

/-! ### Insertion -/

theorem insert (fh : FibHeap) (key : K) {value value' : V} (hvalue : R value value') :
    Alike (SameWith R) (m.insert fh key value) (m'.insert fh key value') := by
  rw [FibMemory.insert, FibMemory.insert]
  split
  · exact .error _
  · have h₁ := h.alloc (n := ⟨key, value, null, null, null, null, 0, false⟩) ⟨value', hvalue, rfl⟩
    rw [h.fresh]
    split
    · exact (h₁.write m.fresh fun _ _ => rfl).bind fun m₂ m₂' h₂ => .ok ⟨h₂, rfl⟩
    · refine (h₁.linkRight fh.min m.fresh).bind fun m₂ m₂' h₂ => ?_
      refine (h₂.deref fh.min).bind fun n n' hn => ?_
      refine (h₂.deref m.fresh).bind fun c c' hc => ?_
      obtain ⟨v, -, rfl⟩ := hn
      obtain ⟨u, -, rfl⟩ := hc
      exact .ok ⟨h₂, rfl⟩

end SameBut

/-! ### The loops -/

theorem SameBut.liftChildren (z fuel : ℕ) : ∀ (node : ℕ) {m m' : FibMemory K V}, SameBut R m m' →
    Alike (SameBut R) (FibMemory.liftChildren z fuel node m)
      (FibMemory.liftChildren z fuel node m') := by
  induction fuel with
  | zero => exact fun node m m' h => .error _
  | succ fuel ih =>
      intro node m m' h
      rw [FibMemory.liftChildren, FibMemory.liftChildren]
      split
      · exact .ok h
      · refine (h.deref node).bind fun n n' hn => ?_
        obtain ⟨v, -, rfl⟩ := hn
        refine (h.write node fun _ _ => rfl).bind fun m₁ m₁' h₁ => ?_
        refine (h₁.unlink node).bind fun m₂ m₂' h₂ => ?_
        exact (h₂.linkRight z node).bind fun m₃ m₃' h₃ => ih _ h₃

section Loops

variable [LinearOrder K]

theorem SameWalk.mergeLoop (n : ℕ) : ∀ (x d : ℕ) {w w' : Walk K V}, SameWalk R w w' →
    Alike (fun r r' => r'.1 = r.1 ∧ r'.2.1 = r.2.1 ∧ SameWalk R r.2.2 r'.2.2)
      (FibMemory.mergeLoop n x d w) (FibMemory.mergeLoop n x d w') := by
  induction n with
  | zero => exact fun x d w w' h => .error _
  | succ n ih =>
      intro x d w w' h
      rw [FibMemory.mergeLoop, FibMemory.mergeLoop, h.nodesWDegree, h.first]
      dsimp only
      split
      · exact .ok ⟨rfl, rfl, h⟩
      · refine (h.mem.deref x).bind fun cx cx' hx => ?_
        refine (h.mem.deref _).bind fun cy cy' hy => ?_
        obtain ⟨u, -, rfl⟩ := hx
        obtain ⟨v, -, rfl⟩ := hy
        -- the keys are the same, so the same one of the two becomes the child
        dsimp only
        split
        · exact (h.mem.makeChild _ _).bind fun m m' hm => ih _ _ ⟨hm, rfl, rfl⟩
        · exact (h.mem.makeChild _ _).bind fun m m' hm => ih _ _ ⟨hm, rfl, rfl⟩

theorem SameWalk.walkLoop (fuel : ℕ) : ∀ (x : ℕ) {w w' : Walk K V}, SameWalk R w w' →
    Alike (SameWalk R) (FibMemory.walkLoop fuel x w) (FibMemory.walkLoop fuel x w') := by
  induction fuel with
  | zero => exact fun x w w' h => .error _
  | succ fuel ih =>
      intro x w w' h
      rw [FibMemory.walkLoop, FibMemory.walkLoop, h.nodesWDegree]
      refine (h.mem.deref x).bind fun n n' hn => ?_
      obtain ⟨v, -, rfl⟩ := hn
      refine (h.mergeLoop _ x n.degree).bind fun r r' hr => ?_
      obtain ⟨y, d, w₁⟩ := r
      obtain ⟨y', d', w₁'⟩ := r'
      obtain ⟨rfl, rfl, h₁⟩ := hr
      dsimp only
      rw [h₁.nodesWDegree]
      refine (h₁.mem.deref y').bind fun n n' hn => ?_
      obtain ⟨v, -, rfl⟩ := hn
      rw [h₁.first]
      split
      · exact .ok ⟨h₁.mem, rfl, rfl⟩
      · exact ih _ ⟨h₁.mem, rfl, rfl⟩

theorem SameBut.rebuild (table : List ℕ) : ∀ {m m' : FibMemory K V} (min : ℕ), SameBut R m m' →
    Alike (SameWith R) (FibMemory.rebuild table m min) (FibMemory.rebuild table m' min) := by
  induction table with
  | nil => exact fun min h => .ok ⟨h, rfl⟩
  | cons x table ih =>
      intro m m' min h
      rw [FibMemory.rebuild, FibMemory.rebuild]
      split
      · exact ih min h
      · split
        · exact (h.write x fun _ _ => rfl).bind fun m₁ m₁' h₁ => ih x h₁
        · refine (h.linkRight min x).bind fun m₁ m₁' h₁ => ?_
          refine (h₁.deref x).bind fun cx cx' hx => ?_
          refine (h₁.deref min).bind fun c c' hc => ?_
          obtain ⟨u, -, rfl⟩ := hx
          obtain ⟨v, -, rfl⟩ := hc
          exact ih _ h₁

end Loops

/-! ### The least entry -/

namespace SameBut

variable [LinearOrder K] {m m' : FibMemory K V} (h : SameBut R m m')
include h

theorem consolidate (maxDegree : ℕ → ℕ) (fuel : ℕ) (fh : FibHeap) :
    Alike (SameWith R) (m.consolidate maxDegree fuel fh) (m'.consolidate maxDegree fuel fh) := by
  rw [FibMemory.consolidate, FibMemory.consolidate]
  split
  · exact .error _
  · refine (h.deref fh.min).bind fun z z' hz => ?_
    obtain ⟨v, -, rfl⟩ := hz
    have hstart : SameWalk R ⟨m, List.replicate (maxDegree fh.numNodes) null, z.right⟩
        ⟨m', List.replicate (maxDegree fh.numNodes) null, z.right⟩ := ⟨h, rfl, rfl⟩
    refine (hstart.walkLoop fuel z.right).bind fun w w' hw => ?_
    rw [hw.nodesWDegree]
    refine (hw.mem.rebuild _ null).bind fun r r' hr => ?_
    obtain ⟨m₁, min⟩ := r
    obtain ⟨m₁', min'⟩ := r'
    obtain ⟨h₁, rfl⟩ := hr
    exact .ok ⟨h₁, rfl⟩

theorem settle (maxDegree : ℕ → ℕ) (fuel : ℕ) (fh : FibHeap) :
    Alike (SameWith R) (m.settle maxDegree fuel fh) (m'.settle maxDegree fuel fh) := by
  refine (h.deref fh.min).bind fun z z' hz => ?_
  obtain ⟨v, -, rfl⟩ := hz
  split
  · exact .ok ⟨h, rfl⟩
  · exact h.consolidate maxDegree fuel fh

/-- The node that is extracted is the same. -/
theorem extractMin (maxDegree : ℕ → ℕ) (fuel : ℕ) (fh : FibHeap) :
    Alike (fun r r' => r'.1 = r.1 ∧ SameWith R r.2 r'.2) (m.extractMin maxDegree fuel fh)
      (m'.extractMin maxDegree fuel fh) := by
  rw [FibMemory.extractMin, FibMemory.extractMin]
  split
  · exact .error _
  · refine (h.deref fh.min).bind fun z z' hz => ?_
    obtain ⟨v, -, rfl⟩ := hz
    refine (liftChildren fh.min fuel z.child h).bind fun m₁ m₁' h₁ => ?_
    refine (h₁.unlink fh.min).bind fun m₂ m₂' h₂ => ?_
    refine (h₂.settle maxDegree fuel fh).bind fun r r' hr => ?_
    obtain ⟨m₃, fh₃⟩ := r
    obtain ⟨m₃', fh₃'⟩ := r'
    obtain ⟨h₃, rfl⟩ := hr
    exact .ok ⟨rfl, h₃, rfl⟩

end SameBut

end FibMemory

/-! ### The queue -/

namespace PrioQueue

variable {K : Type} [LinearOrder K] [OrderTop K]

/-- **The queue of the searches** treats its values as tokens. -/
theorem uniform_fibHeap (maxDegree : ℕ → ℕ) : (fibHeap maxDegree : PrioQueue K).Uniform := by
  intro R
  refine ⟨fun q q' => FibMemory.SameBut R q.mem q'.mem ∧ q'.heap = q.heap, ?_, ?_, ?_, ?_⟩
  · exact ⟨⟨rfl, rfl, fun p hp => by cases hp⟩, rfl⟩
  · rintro ⟨m, fh⟩ ⟨m', fh'⟩ k v v' ⟨h, rfl⟩ hv
    refine (h.insert fh' (k : WithBot K) hv).bind fun r r' hr => ?_
    obtain ⟨m₁, fh₁⟩ := r
    obtain ⟨m₁', fh₁'⟩ := r'
    exact .ok hr
  · rintro q q' ⟨-, h⟩
    exact congrArg FibHeap.numNodes h
  · rintro ⟨m, fh⟩ ⟨m', fh'⟩ ⟨h, rfl⟩
    have hfuel : FibQueue.fuel (⟨m', fh'⟩ : FibQueue K) = FibQueue.fuel (⟨m, fh'⟩ : FibQueue K) := by
      rw [FibQueue.fuel, FibQueue.fuel, show m'.fresh = m.fresh from h.fresh]
    show Alike _ (FibQueue.extractMin maxDegree _) (FibQueue.extractMin maxDegree _)
    rw [FibQueue.extractMin, FibQueue.extractMin, hfuel]
    refine (h.extractMin maxDegree _ fh').bind fun r r' hr => ?_
    obtain ⟨z, m₁, fh₁⟩ := r
    obtain ⟨z', m₁', fh₁'⟩ := r'
    obtain ⟨rfl, h₁, rfl⟩ := hr
    refine (h₁.deref z').bind fun n n' hn => ?_
    obtain ⟨v, hv, rfl⟩ := hn
    exact (h₁.free z').bind fun m₂ m₂' h₂ => .ok ⟨⟨rfl, hv⟩, h₂, rfl⟩

end PrioQueue

end Goedb
