import Goedb.DataStruct.Buckets
import Mathlib.Data.Finset.Card

/-!
# DataStruct — sets

`set.h`, over the buckets of `Buckets.lean`: an entry is its own key.

`SET_REMOVE` takes one off `num_used` when the element is in the head of its bucket, and does not
when it is in the chain behind it, where `HTABLE_REMOVE` does.  What a set holds is not touched by
that, but its size is: each such removal leaves it one too large.  So after any sequence of inserts
and of removals of present elements a set answers as the mathematical set exactly when every removal
found its element in a head (`HSet.answers_iff_heads`).
-/

namespace Goedb

open Lib

variable {T : Type}

/-- The structure that `SET_STRUCTS` declares. -/
abbrev HSet (T : Type) := Table T

namespace HSet

/-- The tables of `set.h`.  `REHASH_FILLING_RATIO_S` is the `float` next to 0.8, and its product with
a power of two is exact. -/
def params (T : Type) (hashFn : T → ℕ → ℕ) : TableParams T T where
  key := id
  hash := hashFn
  merge c _ := c
  filled numBuckets := numBuckets * 13421773 / 2 ^ 24
  merge_eq _ _ h := h.symm

/-- `BUCKET_START_S`. -/
def bucketStart : ℕ := 32

/-- `typename##_create`, with the seed that `rand` returns. -/
def create [Inhabited T] (seed : ℕ) : HSet T := ⟨Table.noBuckets bucketStart, bucketStart, 0, seed⟩

/-- `typename##_size`. -/
def size (s : HSet T) : ℕ := s.numUsed

variable [DecidableEq T] (hashFn : T → ℕ → ℕ)

/-- `typename##_insert`. -/
def insert [Inhabited T] (s : HSet T) (elem : T) : Except Fault (HSet T) :=
  Table.insert (params T hashFn) s elem

/-- `typename##_remove`: behind the head, `num_used` stays. -/
def remove (s : HSet T) (elem : T) : Except Fault (HSet T) :=
  let idx := s.bucketIdx (params T hashFn) elem
  match s.buckets[idx]? with
  | none => .error .undefined
  | some b =>
      match Table.unlink (params T hashFn) elem b with
      | none => .error (.exit "set - remove: No such element!")
      | some (b', true) =>
          .ok { s with buckets := s.buckets.set idx b', numUsed := s.numUsed - 1 }
      | some (b', false) => .ok { s with buckets := s.buckets.set idx b' }

/-- `typename##_contains`. -/
def contains (s : HSet T) (elem : T) : Except Fault Bool := do
  return (← s.find (params T hashFn) elem).isSome

/-! ### Runs -/

/-- The calls that change a set. -/
inductive Call (T : Type) where
  | insert (elem : T)
  | remove (elem : T)

/-- A call on the set. -/
def step [Inhabited T] : Call T → HSet T → Except Fault (HSet T)
  | .insert elem, s => s.insert hashFn elem
  | .remove elem, s => s.remove hashFn elem

/-- A call on the mathematical set. -/
def Call.on : Call T → Finset T → Finset T
  | .insert elem, X => Insert.insert elem X
  | .remove elem, X => X.erase elem

/-- A removal is of an element that is there. -/
def Call.Present (X : Finset T) : Call T → Prop
  | .insert _ => True
  | .remove elem => elem ∈ X

/-- A removal finds its element in the head of its bucket. -/
def Call.InHead (s : HSet T) : Call T → Prop
  | .insert _ => True
  | .remove elem => ∀ b, s.buckets[s.bucketIdx (params T hashFn) elem]? = some b → b.entry = elem

/-- The set answers as the mathematical set. -/
structure Answers (s : HSet T) (X : Finset T) : Prop where
  contains : ∀ elem, s.contains hashFn elem = .ok (decide (elem ∈ X))
  size : s.size = X.card
  iterator : ∃ elems : List T, elems.Nodup ∧ elems.toFinset = X ∧
    ∀ n, s.answers Table.iteratorCreate n = elems[n]?

/-- The set holds the elements, and counts some more. -/
structure Holds (s : HSet T) (X : Finset T) (more : ℕ) : Prop where
  sound : Table.Sound (params T hashFn) s
  cells : s.cells.toFinset = X
  numUsed : s.numUsed = s.cells.length + more

variable {hashFn} {s : HSet T} {X : Finset T} {more : ℕ}

theorem Holds.nodup (h : Holds hashFn s X more) : s.cells.Nodup := by
  have := h.sound.nodup
  rwa [show (params T hashFn).key = id from rfl, List.map_id] at this

/-- An empty set holds nothing, and counts right. -/
theorem Holds.create [Inhabited T] (seed : ℕ) : Holds hashFn (create seed) ∅ 0 := by
  have hcells : (HSet.create seed : HSet T).cells = [] := Table.cells_noBuckets _
  exact ⟨Table.sound_noBuckets _ (by decide) _ _, by rw [hcells]; rfl, by rw [hcells]; rfl⟩

theorem Holds.insert [Inhabited T] (h : Holds hashFn s X more) (elem : T) :
    ∃ s', s.insert hashFn elem = .ok s' ∧ Holds hashFn s' (Insert.insert elem X) more := by
  obtain ⟨s', hrun, hsound, hcells, hused⟩ := Table.insert_ok h.sound elem
  refine ⟨s', hrun, hsound, ?_, ?_⟩
  · ext x
    rw [List.mem_toFinset, hcells.mem_iff, List.mem_cons, Finset.mem_insert, ← h.cells,
      List.mem_toFinset, Table.others, List.mem_filter]
    by_cases hx : x = elem
    · simp [hx]
    · simp [hx, params]
  · have := h.numUsed
    omega

/-- A removal counts right when it finds its element in a head, and one too many otherwise. -/
theorem Holds.remove (h : Holds hashFn s X more) {elem : T} (helem : elem ∈ X) :
    ∃ s' more', s.remove hashFn elem = .ok s' ∧ Holds hashFn s' (X.erase elem) more' ∧
      (more' = 0 ↔ more = 0 ∧ Call.InHead hashFn s (.remove elem)) := by
  have hk : elem ∈ s.cells.map (params T hashFn).key := by
    rw [show (params T hashFn).key = id from rfl, List.map_id, ← List.mem_toFinset, h.cells]
    exact helem
  obtain ⟨b, b', head, hb, hunlink, hhead, hset⟩ := Table.unlink_ok h.sound hk
  have hin : Call.InHead hashFn s (.remove elem) ↔ head = true := by
    rw [hhead]
    exact ⟨fun hall => hall b hb, fun e b₁ hb₁ => by rw [hb, Option.some.injEq] at hb₁; rwa [← hb₁]⟩
  have helems : ∀ cs : List T, cs.Perm (Table.others (params T hashFn) elem s.cells) →
      cs.toFinset = X.erase elem := fun cs hcs => by
    ext x
    rw [List.mem_toFinset, hcs.mem_iff, Finset.mem_erase, ← h.cells, List.mem_toFinset,
      Table.others, List.mem_filter, decide_eq_true_iff]
    exact and_comm
  have hused := h.numUsed
  cases head with
  | true =>
    obtain ⟨hsound, hcells, hlen⟩ := hset (s.numUsed - 1)
    refine ⟨_, more, by simp only [HSet.remove, hb, hunlink], ⟨hsound, helems _ hcells, ?_⟩, ?_⟩
    · simp only at hlen ⊢
      omega
    · rw [hin, and_iff_left rfl]
  | false =>
    obtain ⟨hsound, hcells, hlen⟩ := hset s.numUsed
    refine ⟨_, more + 1, by simp only [HSet.remove, hb, hunlink],
      ⟨hsound, helems _ hcells, ?_⟩, ?_⟩
    · simp only at hlen ⊢
      omega
    · rw [hin]
      simp

/-- A set that holds some elements answers rightly when it counts no more. -/
theorem Holds.answers_iff (h : Holds hashFn s X more) : Answers hashFn s X ↔ more = 0 := by
  have hcard : s.cells.length = X.card := by
    rw [← h.cells, List.toFinset_card_of_nodup h.nodup]
  have hused := h.numUsed
  constructor
  · intro ha
    have := ha.size
    rw [HSet.size] at this
    omega
  · intro hmore
    refine ⟨fun elem => ?_, ?_, s.cells, h.nodup, h.cells, Table.answers_eq s⟩
    · obtain ⟨r, hr, hspec⟩ := Table.find_ok h.sound elem
      rw [HSet.contains, hr]
      refine congrArg Except.ok ?_
      rw [Bool.eq_iff_iff, decide_eq_true_iff, ← h.cells, List.mem_toFinset,
        Option.isSome_iff_exists]
      constructor
      · rintro ⟨c, hc⟩
        obtain ⟨hmem, hkey⟩ := (hspec c).mp hc
        rwa [← show c = elem from hkey]
      · exact fun hmem => ⟨elem, (hspec elem).mpr ⟨hmem, rfl⟩⟩
    · rw [HSet.size]
      omega

/-- A run counts no more than it holds when it did so before and every removal found its element in
a head. -/
theorem Holds.run [Inhabited T] (calls : List (Call T)) : ∀ {s : HSet T} {X : Finset T} {more : ℕ},
    Holds hashFn s X more →
    Along (fun c X => (.ok (Call.on c X) : Except Fault _)) Call.Present calls X →
    ∃ s' more', runSteps (step hashFn) calls s = .ok s' ∧
      Holds hashFn s' (calls.foldl (fun X c => c.on X) X) more' ∧
      (more' = 0 ↔ more = 0 ∧ Along (step hashFn) (Call.InHead hashFn) calls s) := by
  induction calls with
  | nil =>
    intro s X more h _
    exact ⟨s, more, rfl, h, by simp [Along]⟩
  | cons c calls ih =>
    rintro s X more h ⟨hc, ht⟩
    have hstep : ∃ s₁ more₁, step hashFn c s = .ok s₁ ∧ Holds hashFn s₁ (c.on X) more₁ ∧
        (more₁ = 0 ↔ more = 0 ∧ Call.InHead hashFn s c) := by
      cases c with
      | insert elem =>
        obtain ⟨s₁, hrun, h₁⟩ := h.insert elem
        exact ⟨s₁, more, hrun, h₁, by simp [Call.InHead]⟩
      | remove elem => exact h.remove hc
    obtain ⟨s₁, more₁, hrun₁, h₁, hmore₁⟩ := hstep
    obtain ⟨s', more', hrun, h', hmore⟩ := ih h₁ ht
    refine ⟨s', more', ?_, h', ?_⟩
    · rw [runSteps, hrun₁]
      exact hrun
    · rw [hmore, hmore₁, Along, hrun₁, and_assoc]

/-- **A set made by the macros answers as the mathematical set** after a sequence of inserts and of
removals of present elements exactly when every removal found its element in the head of its
bucket. -/
theorem answers_iff_heads [Inhabited T] (hashFn : T → ℕ → ℕ) (seed : ℕ) (calls : List (Call T))
    (h : Along (fun c X => (.ok (Call.on c X) : Except Fault _)) Call.Present calls ∅) :
    ∃ s, runSteps (step hashFn) calls (create seed) = .ok s ∧
      (Answers hashFn s (calls.foldl (fun X c => c.on X) ∅) ↔
        Along (step hashFn) (Call.InHead hashFn) calls (create seed)) := by
  obtain ⟨s, more, hrun, hs, hmore⟩ := Holds.run calls (Holds.create seed) h
  exact ⟨s, hrun, by rw [hs.answers_iff, hmore, and_iff_right rfl]⟩

/-- Two elements in one bucket, and the one in the head is removed. -/
theorem answers_iff_heads_first :
    ∃ s, runSteps (step fun _ _ => 0) [.insert 1, .insert 2, .remove 1] (create 7 : HSet ℕ) = .ok s ∧
      Answers (fun _ _ => 0) s {2} := by
  obtain ⟨s, hrun, hiff⟩ := answers_iff_heads (fun _ _ => 0) 7 [.insert 1, .insert 2, .remove 1]
    ⟨trivial, trivial, Finset.mem_insert_of_mem (Finset.mem_insert_self 1 ∅), trivial⟩
  refine ⟨s, hrun, hiff.mpr ⟨trivial, trivial, fun b hb => ?_, trivial⟩⟩
  cases hb
  rfl

/-- Two elements in one bucket, and the one in the chain is removed: the size stays 2. -/
theorem size_after_chain_removal :
    ¬ ∃ s, runSteps (step fun _ _ => 0) [.insert 1, .insert 2, .remove 2] (create 7 : HSet ℕ) =
        .ok s ∧ Answers (fun _ _ => 0) s {1} := by
  rintro ⟨s, hrun, h⟩
  have hsize : (runSteps (step fun _ _ => 0) [.insert 1, .insert 2, .remove 2]
      (create 7 : HSet ℕ)).map size = .ok 2 := by rfl
  rw [hrun] at hsize
  cases (Except.ok.inj hsize).symm.trans h.size

end HSet

end Goedb
