import Goedb.Basic
import Mathlib.Data.List.AList

/-!
# DataStruct — dictionaries

`dict_ul_ul` of `htable.h`, as the finite map it stands for: a list of keys with their values, no key
twice, in the order in which an iterator returns them.  The order of the C code depends on the hash
function and its seed; what is proved about a `Dict` holds for every order of its entries.  That a
table of `htable.h` answers as the map is `HTable.refines`.
-/

namespace Goedb

/-- `dict_ul_ul`. -/
abbrev Dict := AList fun _ : Ulong => Ulong

namespace Dict

/-- `dict_ul_ul_size`. -/
def size (d : Dict) : ℕ := d.entries.length

/-- `dict_ul_ul_remove`. -/
def remove (d : Dict) (key : Ulong) : Except Fault Dict :=
  if key ∈ d then .ok (d.erase key) else .error (.exit "htable - remove: No such key!")

/-- `dict_ul_ul_get_direct`. -/
def getDirect (d : Dict) (key : Ulong) : Except Fault Ulong :=
  match d.lookup key with
  | some v => .ok v
  | none => .error (.exit "htable - get_direct: no such key!")

/-- Every value with its key inserted, in the order of the iterator. -/
def inverse (d : Dict) : Dict := d.entries.foldl (fun inv e => inv.insert e.2 e.1) ∅

/-- The keys `l` with their values under `f`. -/
def of (l : List Ulong) (f : Ulong → Ulong) : Dict := (l.map fun k => ⟨k, f k⟩).toAList

variable {d : Dict} {k v : Ulong}

theorem remove_ok (h : d.lookup k = some v) : d.remove k = .ok (d.erase k) :=
  if_pos (AList.lookup_isSome.mp (Option.isSome_of_eq_some h))

theorem getDirect_ok (h : d.lookup k = some v) : d.getDirect k = .ok v := by rw [getDirect, h]

theorem size_eq_card {D : Finset Ulong} (h : ∀ k, (d.lookup k).isSome ↔ k ∈ D) :
    d.size = D.card := by
  have hkeys : d.keys.toFinset = D := by
    ext k
    rw [List.mem_toFinset, ← h, AList.lookup_isSome, AList.mem_keys]
  rw [← hkeys, List.toFinset_card_of_nodup d.keys_nodup, size, AList.keys, List.keys,
    List.length_map]

theorem lookup_insert {β : Type} (d : AList fun _ : Ulong => β) (k : Ulong) (b : β) (x : Ulong) :
    (d.insert k b).lookup x = if x = k then some b else d.lookup x := by
  split
  · rename_i e
    rw [e, AList.lookup_insert]
  · rename_i e
    exact AList.lookup_insert_ne e

/-- A new key hides no other. -/
theorem lookup_insert_keeps {k' v' : Ulong} (hk : d.lookup k = none) (hk' : d.lookup k' = some v') :
    (d.insert k v).lookup k' = some v' := by
  rw [lookup_insert, if_neg]
  · exact hk'
  · rintro rfl
    rw [hk] at hk'
    cases hk'

/-- A loop that inserts the value `f k` at every key `k` of a list. -/
theorem lookup_foldl_insert {β : Type} (f : Ulong → β) (l : List Ulong) :
    ∀ (d : AList fun _ : Ulong => β) (x : Ulong),
      (l.foldl (fun d k => d.insert k (f k)) d).lookup x =
        if x ∈ l then some (f x) else d.lookup x := by
  induction l with
  | nil => exact fun d x => (if_neg List.not_mem_nil).symm
  | cons k l ih =>
      intro d x
      rw [List.foldl_cons, ih, lookup_insert]
      by_cases hx : x = k
      · rw [hx, if_pos rfl, if_pos List.mem_cons_self]
        split <;> rfl
      · rw [if_neg hx]
        simp only [List.mem_cons, hx, false_or]

theorem lookup_of (l : List Ulong) (f : Ulong → Ulong) (x : Ulong) :
    (of l f).lookup x = if x ∈ l then some (f x) else none := by
  rw [of, AList.lookup_to_alist]
  induction l with
  | nil => rfl
  | cons k l ih =>
      rw [List.map_cons]
      by_cases h : k = x
      · subst h
        rw [List.dlookup_cons_eq, if_pos List.mem_cons_self]
      · rw [List.dlookup_cons_ne _ _ (Ne.symm h), ih]
        simp [Ne.symm h]

theorem lookup_foldl_of_not_mem {es : List (Sigma fun _ : Ulong => Ulong)} :
    ∀ {acc : Dict}, v ∉ es.map (·.2) →
      (es.foldl (fun inv e => inv.insert e.2 e.1) acc).lookup v = acc.lookup v := by
  induction es with
  | nil =>
      intro acc _
      rfl
  | cons e es ih =>
      intro acc h
      rw [List.map_cons, List.mem_cons, not_or] at h
      rw [List.foldl_cons, ih h.2, AList.lookup_insert_ne h.1]

theorem lookup_foldl_of_mem {es : List (Sigma fun _ : Ulong => Ulong)} :
    ∀ {acc : Dict}, (es.map (·.2)).Nodup → (⟨k, v⟩ : Sigma fun _ : Ulong => Ulong) ∈ es →
      (es.foldl (fun inv e => inv.insert e.2 e.1) acc).lookup v = some k := by
  induction es with
  | nil =>
      intro acc _ h
      cases h
  | cons e es ih =>
      intro acc hd h
      rw [List.map_cons, List.nodup_cons] at hd
      rcases List.mem_cons.mp h with rfl | h
      · rw [List.foldl_cons, lookup_foldl_of_not_mem hd.1, AList.lookup_insert]
      · exact ih hd.2 h

/-- The inverse of a dictionary that maps no two keys to one value. -/
theorem lookup_inverse (hinj : ∀ k k' v, d.lookup k = some v → d.lookup k' = some v → k = k') :
    d.inverse.lookup v = some k ↔ d.lookup k = some v := by
  have hd : (d.entries.map (·.2)).Nodup := by
    refine List.Nodup.map_on ?_ d.nodupKeys.nodup
    intro e he e' he' hv
    have h := AList.mem_lookup_iff.mpr he
    have h' := AList.mem_lookup_iff.mpr he'
    have hk := hinj e.1 e'.1 e'.2 (hv ▸ h) h'
    exact Sigma.ext hk (heq_of_eq hv)
  constructor
  · intro h
    by_contra hne
    have hv : v ∉ d.entries.map (·.2) := by
      intro hm
      obtain ⟨e, he, rfl⟩ := List.mem_map.mp hm
      rw [inverse, lookup_foldl_of_mem hd he] at h
      cases h
      exact hne (AList.mem_lookup_iff.mpr he)
    rw [inverse, lookup_foldl_of_not_mem hv, AList.lookup_empty] at h
    cases h
  · intro h
    exact lookup_foldl_of_mem hd (AList.mem_lookup_iff.mp h)

end Dict

end Goedb
