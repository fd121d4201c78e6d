import Goedb.DataStruct.Buckets
import Mathlib.Data.List.AList

/-!
# DataStruct — hash tables

`htable.h`, over the buckets of `Buckets.lean`: an entry is a key with its value, and a key inserted
again gets the new value.  After any sequence of inserts and of removals of keys that are there, the
table answers as the finite map under the same operations (`HTable.refines`), for every hash
function and every seed.

The dictionaries of the repository copy no keys and no values: their `key_copy`, `value_copy`,
`key_free` and `value_free` are `NULL`.
-/

namespace Goedb

open Lib

variable {K V : Type}

/-- The structure that `HTABLE_STRUCTS` declares. -/
abbrev HTable (K V : Type) := Table (K × V)

namespace HTable

/-- The tables of `htable.h`.  `REHASH_FILLING_RATIO` is the `float` next to 0.6, and its product with
a power of two is exact. -/
def params (K V : Type) (hashFn : K → ℕ → ℕ) : TableParams (K × V) K where
  key := Prod.fst
  hash := hashFn
  merge c e := (c.1, e.2)
  filled numBuckets := numBuckets * 10066330 / 2 ^ 24
  merge_eq _ _ h := Prod.ext h.symm rfl

/-- `BUCKET_START`. -/
def bucketStart : ℕ := 8

/-- `typename##_create`, with the seed that `rand` returns. -/
def create [Inhabited K] [Inhabited V] (seed : ℕ) : HTable K V :=
  ⟨Table.noBuckets bucketStart, bucketStart, 0, seed⟩

/-- `typename##_size`. -/
def size (ht : HTable K V) : ℕ := ht.numUsed

variable [DecidableEq K] (hashFn : K → ℕ → ℕ)

/-- `typename##_insert`. -/
def insert [Inhabited K] [Inhabited V] (ht : HTable K V) (key : K) (val : V) : Except Fault (HTable K V) :=
  Table.insert (params K V hashFn) ht (key, val)

/-- `typename##_remove`. -/
def remove (ht : HTable K V) (key : K) : Except Fault (HTable K V) :=
  let idx := ht.bucketIdx (params K V hashFn) key
  match ht.buckets[idx]? with
  | none => .error .undefined
  | some b =>
      match Table.unlink (params K V hashFn) key b with
      | none => .error (.exit "htable - remove: No such key!")
      | some (b', _) =>
          .ok { ht with buckets := ht.buckets.set idx b', numUsed := ht.numUsed - 1 }

/-- `typename##_get`, `none` when it returns -1. -/
def get (ht : HTable K V) (key : K) : Except Fault (Option V) := do
  let cell ← ht.find (params K V hashFn) key
  return cell.map Prod.snd

/-- `typename##_get_direct`. -/
def getDirect (ht : HTable K V) (key : K) : Except Fault V := do
  match ← ht.get hashFn key with
  | some val => return val
  | none => .error (.exit "htable - get_direct: no such key!")

/-- `typename##_contains`. -/
def contains (ht : HTable K V) (key : K) : Except Fault Bool := do
  return (← ht.get hashFn key).isSome

/-! ### Runs -/

/-- The calls that change a table. -/
inductive Call (K V : Type) where
  | insert (key : K) (val : V)
  | remove (key : K)

/-- A call on the table. -/
def step [Inhabited K] [Inhabited V] : Call K V → HTable K V → Except Fault (HTable K V)
  | .insert key val, ht => ht.insert hashFn key val
  | .remove key, ht => ht.remove hashFn key

/-- A call on the finite map. -/
def Call.on : Call K V → (AList fun _ : K => V) → AList fun _ : K => V
  | .insert key val, d => d.insert key val
  | .remove key, d => d.erase key

/-- A removal is of a key that is there. -/
def Call.Present (d : AList fun _ : K => V) : Call K V → Prop
  | .insert _ _ => True
  | .remove key => key ∈ d

/-- The table answers as the finite map. -/
structure Answers (ht : HTable K V) (d : AList fun _ : K => V) : Prop where
  get : ∀ key, ht.get hashFn key = .ok (d.lookup key)
  getDirect : ∀ key, ht.getDirect hashFn key =
    match d.lookup key with
    | some val => .ok val
    | none => .error (.exit "htable - get_direct: no such key!")
  contains : ∀ key, ht.contains hashFn key = .ok (decide (key ∈ d))
  size : ht.size = d.keys.length
  iterator : ∃ pairs : List (K × V), pairs.Perm (d.entries.map fun e => (e.1, e.2)) ∧
    ∀ n, ht.answers Table.iteratorCreate n = pairs[n]?

/-- The table holds the entries of the finite map and counts them. -/
structure Holds (ht : HTable K V) (d : AList fun _ : K => V) : Prop where
  sound : Table.Sound (params K V hashFn) ht
  cells : ht.cells.Perm (d.entries.map fun e => (e.1, e.2))
  numUsed : ht.numUsed = ht.cells.length

variable {hashFn} {ht : HTable K V} {d : AList fun _ : K => V}

/-- Without a key, the entries are those with other keys. -/
theorem kerase_eq_filter {es : List (Sigma fun _ : K => V)} (h : es.NodupKeys) (key : K) :
    es.kerase key = es.filter fun e => decide (e.1 ≠ key) := by
  induction es with
  | nil => rfl
  | cons e es ih =>
    rw [List.nodupKeys_cons] at h
    by_cases he : key = e.1
    · rw [List.kerase_cons_eq he, List.filter_cons_of_neg (by simp [he]), eq_comm,
        List.filter_eq_self]
      intro e' he'
      rw [he]
      exact decide_eq_true fun hkey => h.1 (hkey ▸ List.mem_map_of_mem he')
    · rw [List.kerase_cons_ne he, List.filter_cons_of_pos (by simpa using Ne.symm he), ih h.2]

theorem Holds.others (h : Holds hashFn ht d) (key : K) :
    (Table.others (params K V hashFn) key ht.cells).Perm
      ((d.erase key).entries.map fun e => (e.1, e.2)) := by
  have herase : (d.erase key).entries = _ := kerase_eq_filter d.nodupKeys key
  refine (h.cells.filter _).trans ?_
  rw [List.filter_map, herase]
  exact .refl _

theorem Holds.mem_cells (h : Holds hashFn ht d) (key : K) (val : V) :
    (key, val) ∈ ht.cells ↔ d.lookup key = some val := by
  rw [h.cells.mem_iff, ← Option.mem_def, AList.mem_lookup_iff, List.mem_map]
  constructor
  · rintro ⟨e, he, rfl, rfl⟩
    exact he
  · exact fun he => ⟨_, he, rfl⟩

omit [DecidableEq K] in
/-- An empty table holds nothing. -/
theorem Holds.create [Inhabited K] [Inhabited V] (seed : ℕ) : Holds hashFn (create seed : HTable K V) ∅ := by
  refine ⟨Table.sound_noBuckets _ (by decide) _ _, ?_, ?_⟩
  · rw [Table.cells, HTable.create, Table.cells_noBuckets]
    exact .refl _
  · rw [Table.cells, HTable.create, Table.cells_noBuckets]
    rfl

theorem Holds.insert [Inhabited K] [Inhabited V] (h : Holds hashFn ht d) (key : K) (val : V) :
    ∃ ht', ht.insert hashFn key val = .ok ht' ∧ Holds hashFn ht' (d.insert key val) := by
  obtain ⟨ht', hrun, hsound, hcells, hused⟩ := Table.insert_ok h.sound (key, val)
  refine ⟨ht', hrun, hsound, hcells.trans ?_, ?_⟩
  · rw [AList.entries_insert, List.map_cons]
    exact (h.others key).cons _
  · have := h.numUsed
    omega

theorem Holds.remove (h : Holds hashFn ht d) {key : K} (hkey : key ∈ d) :
    ∃ ht', ht.remove hashFn key = .ok ht' ∧ Holds hashFn ht' (d.erase key) := by
  obtain ⟨val, hval⟩ := Option.isSome_iff_exists.mp (AList.lookup_isSome.mpr hkey)
  have hk : key ∈ ht.cells.map (params K V hashFn).key :=
    List.mem_map.mpr ⟨(key, val), (h.mem_cells key val).mpr hval, rfl⟩
  obtain ⟨b, b', head, hb, hunlink, -, hset⟩ := Table.unlink_ok h.sound hk
  obtain ⟨hsound, hcells, hlen⟩ := hset (ht.numUsed - 1)
  refine ⟨_, ?_, hsound, hcells.trans (h.others key), ?_⟩
  · simp only [HTable.remove, hb, hunlink]
  · have := h.numUsed
    simp only at hlen ⊢
    omega

theorem Holds.step [Inhabited K] [Inhabited V] (h : Holds hashFn ht d) {c : Call K V}
    (hc : c.Present d) : ∃ ht', step hashFn c ht = .ok ht' ∧ Holds hashFn ht' (c.on d) := by
  cases c with
  | insert key val => exact h.insert key val
  | remove key => exact h.remove hc

/-- What a table holds, it answers. -/
theorem Holds.answers (h : Holds hashFn ht d) : Answers hashFn ht d := by
  have hget : ∀ key, ht.get hashFn key = .ok (d.lookup key) := fun key => by
    obtain ⟨r, hr, hspec⟩ := Table.find_ok h.sound key
    rw [HTable.get, hr]
    refine congrArg Except.ok (Option.ext fun val => ?_)
    rw [← h.mem_cells, Option.map_eq_some_iff]
    constructor
    · rintro ⟨c, hc, rfl⟩
      obtain ⟨hmem, hkey⟩ := (hspec c).mp hc
      rwa [← hkey]
    · exact fun hmem => ⟨_, (hspec _).mpr ⟨hmem, rfl⟩, rfl⟩
  refine ⟨hget, fun key => ?_, fun key => ?_, ?_, ht.cells, h.cells, Table.answers_eq ht⟩
  · rw [HTable.getDirect, hget]
    cases d.lookup key <;> rfl
  · rw [HTable.contains, hget]
    refine congrArg Except.ok ?_
    rw [Bool.eq_iff_iff, decide_eq_true_iff, AList.lookup_isSome]
  · rw [HTable.size, h.numUsed, h.cells.length_eq, List.length_map, AList.keys, List.keys,
      List.length_map]

/-- **A table made by the macros is a finite map**: after any sequence of inserts and of removals of
present keys, whatever the hash function and the seed, it answers as the map does. -/
theorem refines [Inhabited K] [Inhabited V] (hashFn : K → ℕ → ℕ) (seed : ℕ) (calls : List (Call K V))
    (h : Along (fun c d => (.ok (Call.on c d) : Except Fault _)) Call.Present calls ∅) :
    ∃ ht, runSteps (step hashFn) calls (create seed) = .ok ht ∧
      Answers hashFn ht (calls.foldl (fun d c => c.on d) ∅) := by
  obtain ⟨ht, hrun, hht⟩ := runSteps_simulates (R := Holds hashFn) Call.on
    (fun _ _ _ hd hc => hd.step hc) calls (Holds.create seed) h
  exact ⟨ht, hrun, hht.answers⟩

/-- Two keys in one bucket, a removal of the head, a key inserted again. -/
theorem refines_one_bucket :
    ∃ ht, runSteps (step fun _ _ => 0)
        [.insert 1 10, .insert 2 20, .remove 1, .insert 2 21] (create 7 : HTable ℕ ℕ) = .ok ht ∧
      Answers (fun _ _ => 0) ht
        ([Call.insert 1 10, .insert 2 20, .remove 1, .insert 2 21].foldl (fun d c => c.on d) ∅) :=
  refines _ _ _ ⟨trivial, trivial, AList.mem_keys.mpr (by decide), trivial, trivial⟩

end HTable

end Goedb
