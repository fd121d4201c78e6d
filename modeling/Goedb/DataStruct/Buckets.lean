import Goedb.Basic
import Goedb.Lib.Steps

/-!
# DataStruct — buckets with overflow chains

What the macros of `htable.h` and `set.h` have in common: an array of buckets, each one a head with
a chain of further cells, and an element is looked for in the bucket that its hash selects.  When
the array fills up, the elements are added one by one to one of twice the size.

`cells` is what a table holds.  A table is `Sound` when every cell is in the bucket of its key and no
key is there twice.  An element added takes the place of what has its key (`addToBucket_ok`), a
rehash loses nothing (`rehash_ok`), and an iterator returns the cells (`answers_eq`).

The chains are lists: a cell is reached from its bucket only, and is freed when it leaves the chain.
-/

namespace Goedb

open Lib

/-- `typename##_bucket`: the head in the array, and the cells behind it. -/
structure Bucket (E : Type) where
  entry : E
  isUsed : Bool
  next : List E

/-- The structure of a table. -/
structure Table (E : Type) where
  buckets : List (Bucket E)
  numBuckets : ℕ
  numUsed : ℕ
  seed : ℕ

/-- What a table is made with: the key of an entry, the hash function, what becomes of a cell whose
key is added again, and `(size_t)(num_buckets * RATIO)`. -/
structure TableParams (E K : Type) where
  key : E → K
  hash : K → ℕ → ℕ
  merge : E → E → E
  filled : ℕ → ℕ
  merge_eq : ∀ c e, key e = key c → merge c e = e

namespace Table

variable {E K : Type} [DecidableEq K] (p : TableParams E K)

/-- `typename##_bucket_idx`. -/
def bucketIdx (t : Table E) (k : K) : ℕ :=
  if 0 < t.numBuckets then p.hash k t.seed % t.numBuckets else p.hash k t.seed

/-- The walk of `typename##_add_to_bucket` over a chain, and whether it added a cell. -/
def addToChain (e : E) : List E → List E × Bool
  | [] => ([e], true)
  | c :: cs =>
      if p.key e = p.key c then (p.merge c e :: cs, false)
      else
        let (cs', fresh) := addToChain e cs
        (c :: cs', fresh)

/-- `typename##_add_to_bucket`. -/
def addToBucket (t : Table E) (e : E) (rehash : Bool) : Except Fault (Table E) :=
  let idx := t.bucketIdx p (p.key e)
  match t.buckets[idx]? with
  | none => .error .undefined
  | some b =>
      if b.isUsed = false then
        .ok { t with
          buckets := t.buckets.set idx { b with entry := e, isUsed := true }
          numUsed := if rehash then t.numUsed else t.numUsed + 1 }
      else if p.key e = p.key b.entry then
        .ok { t with buckets := t.buckets.set idx { b with entry := p.merge b.entry e } }
      else
        let (next, fresh) := addToChain p e b.next
        .ok { t with
          buckets := t.buckets.set idx { b with next := next }
          numUsed := if fresh && !rehash then t.numUsed + 1 else t.numUsed }

/-- The element is added anew, in `typename##_rehash`. -/
def readd (t : Table E) (e : E) : Except Fault (Table E) := t.addToBucket p e true

/-- Zeroed buckets, from `calloc`. -/
def noBuckets [Inhabited E] (n : ℕ) : List (Bucket E) := List.replicate n ⟨default, false, []⟩

/-- `typename##_rehash`. -/
def rehash [Inhabited E] (t : Table E) : Except Fault (Table E) :=
  if t.numUsed + 1 < p.filled t.numBuckets ∨ 2 ^ 31 ≤ t.numBuckets then .ok t
  else
    t.buckets.foldlM
      (fun t b =>
        if b.isUsed = false then .ok t
        else do
          let t ← t.readd p b.entry
          b.next.foldlM (readd p) t)
      { t with numBuckets := 2 * t.numBuckets, buckets := noBuckets (2 * t.numBuckets) }

/-- `typename##_insert`. -/
def insert [Inhabited E] (t : Table E) (e : E) : Except Fault (Table E) := do
  let t ← t.rehash p
  t.addToBucket p e false

/-- The search for a key, in its bucket. -/
def find (t : Table E) (k : K) : Except Fault (Option E) :=
  match t.buckets[t.bucketIdx p k]? with
  | none => .error .undefined
  | some b =>
      if b.isUsed = false then .ok none
      else .ok ((b.entry :: b.next).find? fun c => p.key c = k)

/-- A cell taken out of a chain, `none` when the key is not there. -/
def unchain (k : K) : List E → Option (List E)
  | [] => none
  | c :: cs => if p.key c = k then some cs else (unchain k cs).map (c :: ·)

/-- The bucket that a removal of the key leaves, `none` when the key is not there, and whether the
key was in the head, which the first cell behind it then takes the place of. -/
def unlink (k : K) (b : Bucket E) : Option (Bucket E × Bool) :=
  if b.isUsed = false then none
  else if p.key b.entry = k then
    match b.next with
    | c :: cs => some ({ b with entry := c, next := cs }, true)
    | [] => some ({ b with isUsed := false }, true)
  else (unchain p k b.next).map fun next => ({ b with next := next }, false)

/-- `typename##_iterator`: the cells from `cur` on, and the index of the next bucket. -/
structure Iterator (E : Type) where
  cur : List E
  idx : ℕ

/-- `typename##_iterator_create`. -/
def iteratorCreate : Iterator E := ⟨[], 0⟩

/-- `typename##_iterator_next`, `none` when it returns -1. -/
def iteratorNext (t : Table E) (hi : Iterator E) : Option E × Iterator E :=
  match hi.cur with
  | c :: cs => (some c, { hi with cur := cs })
  | [] =>
      let idx := hi.idx + ((t.buckets.drop hi.idx).takeWhile fun b => !b.isUsed).length
      match t.buckets[idx]? with
      | none => (none, { hi with idx := idx })
      | some b => (some b.entry, ⟨b.next, idx + 1⟩)

/-- What the call number `n` of an iterator returns. -/
def answers (t : Table E) : Iterator E → ℕ → Option E
  | hi, 0 => (t.iteratorNext hi).1
  | hi, n + 1 => t.answers (t.iteratorNext hi).2 n

end Table

/-! ### What a table holds -/

/-- The cells of a bucket. -/
def Bucket.cells {E : Type} (b : Bucket E) : List E := if b.isUsed then b.entry :: b.next else []

theorem Bucket.cells_used {E : Type} {b : Bucket E} (h : b.isUsed = true) :
    b.cells = b.entry :: b.next := if_pos h

theorem Bucket.cells_unused {E : Type} {b : Bucket E} (h : b.isUsed = false) : b.cells = [] :=
  if_neg (by simp [h])

namespace Table

variable {E K : Type} {p : TableParams E K} {t t' : Table E} {k : K} {e : E}

/-- The cells of a table, bucket by bucket. -/
def cells (t : Table E) : List E := t.buckets.flatMap Bucket.cells

/-- Every cell is in the bucket of its key, and no key is there twice. -/
structure Sound (p : TableParams E K) (t : Table E) : Prop where
  length : t.buckets.length = t.numBuckets
  pos : 0 < t.numBuckets
  placed : ∀ (i : ℕ) (b : Bucket E), t.buckets[i]? = some b → ∀ c ∈ b.cells, t.bucketIdx p (p.key c) = i
  unused : ∀ (i : ℕ) (b : Bucket E), t.buckets[i]? = some b → b.isUsed = false → b.next = []
  nodup : (t.cells.map p.key).Nodup

theorem Sound.exists_bucket (h : Sound p t) (k : K) : ∃ b, t.buckets[t.bucketIdx p k]? = some b := by
  have hlt : t.bucketIdx p k < t.buckets.length := by
    rw [bucketIdx, if_pos h.pos, h.length]
    exact Nat.mod_lt _ h.pos
  exact ⟨_, List.getElem?_eq_getElem hlt⟩

/-- One bucket and the rest of a table. -/
theorem exists_rest {bs : List (Bucket E)} {i : ℕ} {b : Bucket E} (hi : bs[i]? = some b) :
    ∃ rest, (bs.flatMap Bucket.cells).Perm (b.cells ++ rest) ∧
      (∀ b', ((bs.set i b').flatMap Bucket.cells).Perm (b'.cells ++ rest)) ∧
      ∀ c ∈ rest, ∃ (j : ℕ) (b' : Bucket E), j ≠ i ∧ bs[j]? = some b' ∧ c ∈ b'.cells := by
  induction bs generalizing i with
  | nil => cases hi
  | cons a bs ih =>
    cases i with
    | zero =>
      rw [List.getElem?_cons_zero, Option.some.injEq] at hi
      subst hi
      refine ⟨bs.flatMap Bucket.cells, .refl _, fun b' => .refl _, fun c hc => ?_⟩
      obtain ⟨b', hb', hc⟩ := List.mem_flatMap.mp hc
      obtain ⟨j, hj⟩ := List.mem_iff_getElem?.mp hb'
      exact ⟨j + 1, b', Nat.succ_ne_zero j, by rwa [List.getElem?_cons_succ], hc⟩
    | succ i =>
      rw [List.getElem?_cons_succ] at hi
      obtain ⟨rest, hrest, hset, hother⟩ := ih hi
      refine ⟨a.cells ++ rest, ?_, fun b' => ?_, fun c hc => ?_⟩
      · rw [List.flatMap_cons]
        exact (hrest.append_left _).trans (List.perm_append_comm_assoc ..)
      · rw [List.set_cons_succ, List.flatMap_cons]
        exact ((hset b').append_left _).trans (List.perm_append_comm_assoc ..)
      · rcases List.mem_append.mp hc with hc | hc
        · exact ⟨0, a, (Nat.succ_ne_zero i).symm, rfl, hc⟩
        · obtain ⟨j, b', hj, hb', hc⟩ := hother c hc
          exact ⟨j + 1, b', fun e => hj (Nat.succ.inj e), by rwa [List.getElem?_cons_succ], hc⟩

/-- The other buckets do not hold the key. -/
theorem Sound.key_ne (h : Sound p t) {i j : ℕ} {b : Bucket E} (hk : t.bucketIdx p k = i)
    (hj : j ≠ i) (hb : t.buckets[j]? = some b) {c : E} (hc : c ∈ b.cells) : p.key c ≠ k := by
  intro e
  have := h.placed j b hb c hc
  rw [e, hk] at this
  exact hj this.symm

theorem Sound.nodup_bucket (h : Sound p t) {i : ℕ} {b : Bucket E} (hb : t.buckets[i]? = some b) :
    (b.cells.map p.key).Nodup := by
  obtain ⟨rest, hrest, -, -⟩ := exists_rest hb
  have := (hrest.map p.key).nodup_iff.mp h.nodup
  rw [List.map_append] at this
  exact (List.nodup_append.mp this).1

variable [DecidableEq K]

/-- The cells with other keys. -/
def others (p : TableParams E K) (k : K) (cs : List E) : List E := cs.filter fun c => p.key c ≠ k

theorem others_eq_self {cs : List E} (h : ∀ c ∈ cs, p.key c ≠ k) : others p k cs = cs :=
  List.filter_eq_self.mpr fun c hc => by simpa using h c hc

/-- A bucket in which at most one new cell stands for what had its key. -/
theorem Sound.setBucket (h : Sound p t) {i : ℕ} {b : Bucket E} (b' : Bucket E) (new : List E)
    (hb : t.buckets[i]? = some b) (hk : t.bucketIdx p k = i) (hnew : ∀ c ∈ new, p.key c = k)
    (hlen : new.length ≤ 1) (hcells : b'.cells.Perm (new ++ others p k b.cells))
    (hnext : b'.isUsed = false → b'.next = []) (n : ℕ) :
    let t' : Table E := { t with buckets := t.buckets.set i b', numUsed := n }
    Sound p t' ∧ t'.cells.Perm (new ++ others p k t.cells) ∧
      t'.cells.length + b.cells.length = t.cells.length + b'.cells.length := by
  obtain ⟨rest, hrest, hset, hother⟩ := exists_rest hb
  have hi : i < t.buckets.length := (List.getElem?_eq_some_iff.mp hb).1
  have hothers : others p k rest = rest := others_eq_self fun c hc => by
    obtain ⟨j, bj, hj, hbj, hcj⟩ := hother c hc
    exact h.key_ne hk hj hbj hcj
  have hold : (others p k t.cells).Perm (others p k b.cells ++ rest) := by
    have := hrest.filter fun c => decide (p.key c ≠ k)
    rw [List.filter_append] at this
    exact this.trans (by rw [show rest.filter _ = rest from hothers]; rfl)
  have hperm : ((t.buckets.set i b').flatMap Bucket.cells).Perm (new ++ others p k t.cells) := by
    refine (hset b').trans ?_
    refine (hcells.append_right rest).trans ?_
    rw [List.append_assoc]
    exact hold.symm.append_left new
  refine ⟨⟨?_, h.pos, fun j bj hj c hc => ?_, fun j bj hj => ?_, ?_⟩, hperm, ?_⟩
  · rw [List.length_set]
    exact h.length
  · rw [List.getElem?_set] at hj
    by_cases hij : i = j
    · rw [if_pos hij, if_pos (hij ▸ hi), Option.some.injEq] at hj
      subst hj
      rcases List.mem_append.mp (hcells.mem_iff.mp hc) with hc | hc
      · rw [hnew c hc, ← hij]
        exact hk
      · rw [← hij]
        exact h.placed i b hb c (List.mem_of_mem_filter hc)
    · rw [if_neg hij] at hj
      exact h.placed j bj hj c hc
  · rw [List.getElem?_set] at hj
    by_cases hij : i = j
    · rw [if_pos hij, if_pos (hij ▸ hi), Option.some.injEq] at hj
      subst hj
      exact hnext
    · rw [if_neg hij] at hj
      exact h.unused j bj hj
  · refine ((hperm.map p.key).nodup_iff).mpr ?_
    rw [List.map_append, List.nodup_append]
    refine ⟨?_, ?_, ?_⟩
    · match new, hlen with
      | [], _ => exact List.nodup_nil
      | [c], _ => exact List.nodup_singleton _
    · exact h.nodup.sublist (List.filter_sublist.map p.key)
    · intro x hx y hy
      obtain ⟨c, hc, rfl⟩ := List.mem_map.mp hx
      obtain ⟨d, hd, rfl⟩ := List.mem_map.mp hy
      have hd' : p.key d ≠ k := by simpa using (List.mem_filter.mp hd).2
      rw [hnew c hc]
      exact hd'.symm
  · have h₁ := hrest.length_eq
    have h₂ := (hset b').length_eq
    rw [List.length_append] at h₁ h₂
    simp only [cells]
    omega

/-! ### Adding -/

/-- A chain with an element added: it stands for what had its key. -/
theorem addToChain_perm (e : E) {cs : List E} (h : (cs.map p.key).Nodup) :
    (addToChain p e cs).1.Perm (e :: others p (p.key e) cs) ∧
      (addToChain p e cs).1.length = cs.length + if (addToChain p e cs).2 then 1 else 0 := by
  induction cs with
  | nil => exact ⟨.refl _, rfl⟩
  | cons c cs ih =>
    rw [List.map_cons, List.nodup_cons] at h
    rw [addToChain]
    by_cases hc : p.key e = p.key c
    · have hrest : ∀ d ∈ cs, p.key d ≠ p.key e := fun d hd hde =>
        h.1 (List.mem_map.mpr ⟨d, hd, hde.trans hc⟩)
      rw [if_pos hc, p.merge_eq c e hc, others, List.filter_cons_of_neg (by simp [hc])]
      exact ⟨by rw [show cs.filter _ = cs from others_eq_self hrest], rfl⟩
    · obtain ⟨ihPerm, ihLen⟩ := ih h.2
      rw [if_neg hc, others, List.filter_cons_of_pos (by simpa using Ne.symm hc)]
      refine ⟨(ihPerm.cons c).trans (List.Perm.swap e c _), ?_⟩
      simp only [List.length_cons, ihLen]
      omega

/-- An element added stands for the cell that had its key, and `num_used` counts what is new. -/
theorem addToBucket_ok (h : Sound p t) (e : E) (rehash : Bool) :
    ∃ t', t.addToBucket p e rehash = .ok t' ∧ Sound p t' ∧
      t'.cells.Perm (e :: others p (p.key e) t.cells) ∧
      t'.numUsed + (if rehash then 0 else t.cells.length) =
        t.numUsed + (if rehash then 0 else t'.cells.length) := by
  obtain ⟨b, hb⟩ := h.exists_bucket (p.key e)
  have hnodup := h.nodup_bucket hb
  have hset := fun b' => h.setBucket b' [e] hb rfl (by simp) le_rfl
  simp only [addToBucket, hb]
  -- an unused bucket takes the entry itself; a used one merges it with its own entry or hands it to
  -- its chain
  by_cases hused : b.isUsed = false
  · have hnext := h.unused _ b hb hused
    have hold := Bucket.cells_unused hused
    have hnew : ({ b with entry := e, isUsed := true } : Bucket E).cells = [e] := by
      rw [Bucket.cells_used rfl, hnext]
    rw [if_pos hused]
    obtain ⟨hsound, hperm, hlen⟩ := hset { b with entry := e, isUsed := true }
      (by rw [hnew, hold]; exact .refl _) (by simp) (if rehash then t.numUsed else t.numUsed + 1)
    refine ⟨_, rfl, hsound, hperm, ?_⟩
    rw [hnew, hold] at hlen
    simp only [cells, List.length_nil, List.length_singleton] at hlen ⊢
    cases rehash with
    | false => simp only [Bool.false_eq_true, if_false]; omega
    | true => simp only [if_true]
  have hused' : b.isUsed = true := by simpa using hused
  have hold := Bucket.cells_used hused'
  rw [hold, List.map_cons, List.nodup_cons] at hnodup
  rw [if_neg hused]
  by_cases hhead : p.key e = p.key b.entry
  · have hrest : ∀ d ∈ b.next, p.key d ≠ p.key e := fun d hd hde =>
      hnodup.1 (List.mem_map.mpr ⟨d, hd, hde.trans hhead⟩)
    have hnew : ({ b with entry := p.merge b.entry e } : Bucket E).cells = e :: b.next := by
      rw [p.merge_eq _ _ hhead]
      exact Bucket.cells_used hused'
    rw [if_pos hhead]
    obtain ⟨hsound, hperm, hlen⟩ := hset { b with entry := p.merge b.entry e }
      (by
        rw [hnew, hold, others, List.filter_cons_of_neg (by simp [hhead]),
          show b.next.filter _ = b.next from others_eq_self hrest]
        exact .refl _)
      (by simp [hused']) t.numUsed
    refine ⟨_, rfl, hsound, hperm, ?_⟩
    rw [hnew, hold] at hlen
    simp only [cells, List.length_cons] at hlen ⊢
    cases rehash with
    | false => simp only [Bool.false_eq_true, if_false]; omega
    | true => simp only [if_true]
  · obtain ⟨hchain, hchainLen⟩ := addToChain_perm e hnodup.2
    have hnew : ({ b with next := (addToChain p e b.next).1 } : Bucket E).cells =
        b.entry :: (addToChain p e b.next).1 := Bucket.cells_used hused'
    rw [if_neg hhead]
    obtain ⟨hsound, hperm, hlen⟩ := hset { b with next := (addToChain p e b.next).1 }
      (by
        rw [hnew, hold, others, List.filter_cons_of_pos (by simpa using Ne.symm hhead)]
        exact (hchain.cons b.entry).trans (List.Perm.swap e b.entry _))
      (by simp [hused'])
      (if (addToChain p e b.next).2 && !rehash then t.numUsed + 1 else t.numUsed)
    refine ⟨_, rfl, hsound, hperm, ?_⟩
    rw [hnew, hold] at hlen
    simp only [cells, List.length_cons, hchainLen] at hlen ⊢
    cases rehash with
    | true => simp only [Bool.not_true, Bool.and_false, Bool.false_eq_true, if_false, if_true]
    | false =>
      simp only [Bool.not_false, Bool.and_true, Bool.false_eq_true, if_false]
      cases hfresh : (addToChain p e b.next).2 with
      | false => simp only [hfresh, Bool.false_eq_true, if_false] at hlen ⊢; omega
      | true => simp only [hfresh, if_true] at hlen ⊢; omega

/-- Elements with new keys, added one after the other. -/
theorem foldlM_readd (es : List E) (h : Sound p t) (hnew : ((es ++ t.cells).map p.key).Nodup) :
    ∃ t', es.foldlM (readd p) t = .ok t' ∧ Sound p t' ∧ t'.cells.Perm (es ++ t.cells) ∧
      t'.numUsed = t.numUsed := by
  induction es generalizing t with
  | nil => exact ⟨t, rfl, h, .refl _, rfl⟩
  | cons e es ih =>
    obtain ⟨t₁, hadd, hsound, hperm, hused⟩ := addToBucket_ok h e true
    rw [List.cons_append, List.map_cons, List.nodup_cons] at hnew
    have hothers : others p (p.key e) t.cells = t.cells := others_eq_self fun c hc hce =>
      hnew.1 (List.mem_map.mpr ⟨c, List.mem_append_right _ hc, hce⟩)
    rw [hothers] at hperm
    have hmiddle : (es ++ t₁.cells).Perm (e :: (es ++ t.cells)) :=
      (hperm.append_left es).trans List.perm_middle
    have hnew₁ : ((es ++ t₁.cells).map p.key).Nodup := by
      refine ((hmiddle.map p.key).nodup_iff).mpr ?_
      rw [List.map_cons, List.nodup_cons]
      exact hnew
    obtain ⟨t', hfold, hsound', hperm', hused'⟩ := ih hsound hnew₁
    refine ⟨t', ?_, hsound', hperm'.trans hmiddle, hused'.trans hused⟩
    rw [List.foldlM_cons, readd, hadd]
    exact hfold

/-! ### A rehash -/

theorem cells_noBuckets [Inhabited E] (n : ℕ) : (noBuckets n : List (Bucket E)).flatMap
    Bucket.cells = [] := by
  rw [noBuckets, List.flatMap_eq_nil_iff]
  intro b hb
  rw [List.eq_of_mem_replicate hb]
  rfl

omit [DecidableEq K] in
theorem sound_noBuckets [Inhabited E] (p : TableParams E K) {n : ℕ} (hn : 0 < n) (used seed : ℕ) :
    Sound p ⟨noBuckets n, n, used, seed⟩ := by
  have hmem : ∀ (i : ℕ) (b : Bucket E), (noBuckets n)[i]? = some b → b = ⟨default, false, []⟩ :=
    fun i b hb => List.eq_of_mem_replicate (List.mem_of_getElem? hb)
  refine ⟨List.length_replicate, hn, fun i b hb c hc => ?_, fun i b hb _ => ?_, ?_⟩
  · rw [hmem i b hb] at hc
    cases hc
  · rw [hmem i b hb]
  · rw [cells, cells_noBuckets]
    exact List.nodup_nil

/-- The loops over the buckets and over their chains add the cells, one after the other. -/
theorem foldlM_buckets (bs : List (Bucket E)) (t : Table E) :
    bs.foldlM
      (fun t b =>
        if b.isUsed = false then .ok t
        else do
          let t ← t.readd p b.entry
          b.next.foldlM (readd p) t) t =
      (bs.flatMap Bucket.cells).foldlM (readd p) t := by
  induction bs generalizing t with
  | nil => rfl
  | cons b bs ih =>
    rw [List.foldlM_cons, List.flatMap_cons, List.foldlM_append]
    simp only [ih]
    cases hused : b.isUsed with
    | false => rw [Bucket.cells, hused]; rfl
    | true =>
      rw [Bucket.cells, hused, if_neg (by decide), if_pos rfl, List.foldlM_cons]

/-- A rehash loses nothing and adds nothing. -/
theorem rehash_ok [Inhabited E] (h : Sound p t) :
    ∃ t', t.rehash p = .ok t' ∧ Sound p t' ∧ t'.cells.Perm t.cells ∧ t'.numUsed = t.numUsed := by
  rw [rehash]
  split
  · exact ⟨t, rfl, h, .refl _, rfl⟩
  · have hempty := sound_noBuckets p (show 0 < 2 * t.numBuckets by have := h.pos; omega) t.numUsed
      t.seed
    have hcells : (⟨noBuckets (2 * t.numBuckets), 2 * t.numBuckets, t.numUsed, t.seed⟩ :
        Table E).cells = [] := cells_noBuckets _
    obtain ⟨t', hfold, hsound, hperm, hused⟩ := foldlM_readd t.cells hempty
      (by rw [hcells, List.append_nil]; exact h.nodup)
    rw [hcells, List.append_nil] at hperm
    exact ⟨t', (foldlM_buckets _ _).trans hfold, hsound, hperm, hused⟩

/-- An insert. -/
theorem insert_ok [Inhabited E] (h : Sound p t) (e : E) :
    ∃ t', t.insert p e = .ok t' ∧ Sound p t' ∧
      t'.cells.Perm (e :: others p (p.key e) t.cells) ∧
      t'.numUsed + t.cells.length = t.numUsed + t'.cells.length := by
  obtain ⟨t₁, hrehash, hsound₁, hperm₁, hused₁⟩ := rehash_ok h
  obtain ⟨t', hadd, hsound, hperm, hused⟩ := addToBucket_ok hsound₁ e false
  refine ⟨t', ?_, hsound, hperm.trans ((hperm₁.filter _).cons e), ?_⟩
  · rw [insert, hrehash]
    exact hadd
  · rw [hperm₁.length_eq, hused₁] at hused
    exact hused

/-! ### Looking -/

/-- The search finds the cell of the key. -/
theorem find_ok (h : Sound p t) (k : K) :
    ∃ r, t.find p k = .ok r ∧ ∀ c, r = some c ↔ c ∈ t.cells ∧ p.key c = k := by
  obtain ⟨b, hb⟩ := h.exists_bucket k
  obtain ⟨rest, hrest, -, hother⟩ := exists_rest hb
  have hnodup := h.nodup_bucket hb
  have hmem : ∀ c, c ∈ t.cells ∧ p.key c = k ↔ c ∈ b.cells ∧ p.key c = k := fun c => by
    refine and_congr_left fun hc => ?_
    rw [cells, hrest.mem_iff, List.mem_append, or_iff_left]
    intro hin
    obtain ⟨j, bj, hj, hbj, hcj⟩ := hother c hin
    exact h.key_ne rfl hj hbj hcj hc
  have hfind : ∀ cs : List E, (cs.map p.key).Nodup → ∀ c,
      cs.find? (fun c => p.key c = k) = some c ↔ c ∈ cs ∧ p.key c = k := fun cs hcs c => by
    induction cs with
    | nil => simp
    | cons d cs ih =>
      rw [List.map_cons, List.nodup_cons] at hcs
      rw [List.find?_cons]
      by_cases hd : p.key d = k
      · simp only [hd, decide_true, Option.some.injEq, List.mem_cons]
        constructor
        · rintro rfl
          exact ⟨.inl rfl, hd⟩
        · rintro ⟨rfl | hc, hck⟩
          · rfl
          · exact absurd (List.mem_map.mpr ⟨c, hc, hck.trans hd.symm⟩) hcs.1
      · simp only [hd, decide_false, ih hcs.2, List.mem_cons]
        refine and_congr_left fun hck => ?_
        rw [or_iff_right]
        rintro rfl
        exact hd hck
  simp only [find, hb]
  by_cases hused : b.isUsed = false
  · refine ⟨none, if_pos hused, fun c => ?_⟩
    rw [hmem, Bucket.cells, hused]
    simp
  · have hcells : b.cells = b.entry :: b.next := by rw [Bucket.cells, if_pos (by simpa using hused)]
    refine ⟨_, if_neg hused, fun c => ?_⟩
    rw [hmem, hcells, hfind _ (by rwa [← hcells])]

/-! ### Removing -/

/-- A cell taken out of a chain leaves the others. -/
theorem unchain_ok {cs : List E} (h : (cs.map p.key).Nodup) (hk : k ∈ cs.map p.key) :
    unchain p k cs = some (others p k cs) := by
  induction cs with
  | nil => cases hk
  | cons c cs ih =>
    rw [List.map_cons, List.nodup_cons] at h
    rw [List.map_cons, List.mem_cons] at hk
    rw [unchain]
    by_cases hc : p.key c = k
    · have hrest : ∀ d ∈ cs, p.key d ≠ k := fun d hd hdk =>
        h.1 (List.mem_map.mpr ⟨d, hd, hdk.trans hc.symm⟩)
      rw [if_pos hc, others, List.filter_cons_of_neg (by simp [hc]),
        show cs.filter _ = cs from others_eq_self hrest]
    · have hcons : others p k (c :: cs) = c :: others p k cs :=
        List.filter_cons_of_pos (by simpa using hc)
      rw [if_neg hc, ih h.2 (hk.resolve_left (Ne.symm hc)), hcons]
      rfl

/-- A bucket without a key holds its other cells. -/
theorem unlink_bucket {b : Bucket E} (h : (b.cells.map p.key).Nodup) (hk : k ∈ b.cells.map p.key) :
    ∃ b' head, unlink p k b = some (b', head) ∧ (head = true ↔ p.key b.entry = k) ∧
      b'.cells = others p k b.cells ∧ (b'.isUsed = false → b'.next = []) := by
  by_cases hused : b.isUsed = false
  · rw [Bucket.cells_unused hused] at hk
    cases hk
  have hused' : b.isUsed = true := by simpa using hused
  have hold := Bucket.cells_used hused'
  rw [hold, List.map_cons, List.nodup_cons] at h
  rw [hold, List.map_cons, List.mem_cons] at hk
  rw [unlink, if_neg hused, hold]
  by_cases hhead : p.key b.entry = k
  · have hrest : ∀ d ∈ b.next, p.key d ≠ k := fun d hd hdk =>
      h.1 (List.mem_map.mpr ⟨d, hd, hdk.trans hhead.symm⟩)
    rw [if_pos hhead, others, List.filter_cons_of_neg (by simp [hhead]),
      show b.next.filter _ = b.next from others_eq_self hrest]
    cases hnext : b.next with
    | nil => exact ⟨_, true, rfl, by simp [hhead], rfl, fun _ => rfl⟩
    | cons c cs =>
      refine ⟨_, true, rfl, by simp [hhead], ?_, by simp [hused']⟩
      exact Bucket.cells_used hused'
  · have hcons : others p k (b.entry :: b.next) = b.entry :: others p k b.next :=
      List.filter_cons_of_pos (by simpa using hhead)
    rw [if_neg hhead, unchain_ok h.2 (hk.resolve_left (Ne.symm hhead)), hcons]
    exact ⟨_, false, rfl, by simp [hhead], Bucket.cells_used hused', by simp [hused']⟩

/-- Without a key, a list of cells is one shorter. -/
theorem length_others {cs : List E} (h : (cs.map p.key).Nodup) (hk : k ∈ cs.map p.key) :
    (others p k cs).length + 1 = cs.length := by
  induction cs with
  | nil => cases hk
  | cons c cs ih =>
    rw [List.map_cons, List.nodup_cons] at h
    rw [List.map_cons, List.mem_cons] at hk
    by_cases hc : p.key c = k
    · have hrest : ∀ d ∈ cs, p.key d ≠ k := fun d hd hdk =>
        h.1 (List.mem_map.mpr ⟨d, hd, hdk.trans hc.symm⟩)
      rw [others, List.filter_cons_of_neg (by simp [hc]),
        show cs.filter _ = cs from others_eq_self hrest, List.length_cons]
    · have hcons : others p k (c :: cs) = c :: others p k cs :=
        List.filter_cons_of_pos (by simpa using hc)
      rw [hcons, List.length_cons, List.length_cons, ih h.2 (hk.resolve_left (Ne.symm hc))]

/-- A removal of a key that is there leaves the other cells, whatever `num_used` becomes. -/
theorem unlink_ok (h : Sound p t) (hk : k ∈ t.cells.map p.key) :
    ∃ b b' head, t.buckets[t.bucketIdx p k]? = some b ∧ unlink p k b = some (b', head) ∧
      (head = true ↔ p.key b.entry = k) ∧
      ∀ n, let t' : Table E :=
          { t with buckets := t.buckets.set (t.bucketIdx p k) b', numUsed := n }
        Sound p t' ∧ t'.cells.Perm (others p k t.cells) ∧ t'.cells.length + 1 = t.cells.length := by
  obtain ⟨b, hb⟩ := h.exists_bucket k
  obtain ⟨rest, hrest, -, hother⟩ := exists_rest hb
  have hin : k ∈ b.cells.map p.key := by
    obtain ⟨c, hc, rfl⟩ := List.mem_map.mp hk
    rcases List.mem_append.mp (hrest.mem_iff.mp hc) with hc | hc
    · exact List.mem_map_of_mem hc
    · obtain ⟨j, bj, hj, hbj, hcj⟩ := hother c hc
      exact absurd rfl (h.key_ne rfl hj hbj hcj)
  obtain ⟨b', head, hunlink, hhead, hcells, hnext⟩ := unlink_bucket (h.nodup_bucket hb) hin
  refine ⟨b, b', head, hb, hunlink, hhead, fun n => ?_⟩
  obtain ⟨hsound, hperm, -⟩ := h.setBucket b' [] hb rfl (by simp) (by simp)
    (by rw [hcells]; exact .refl _) hnext n
  refine ⟨hsound, hperm, ?_⟩
  rw [hperm.length_eq]
  exact length_others h.nodup hk

/-! ### Iterators -/

/-- What an iterator has still to return. -/
def remaining (t : Table E) (hi : Iterator E) : List E :=
  hi.cur ++ (t.buckets.drop hi.idx).flatMap Bucket.cells

theorem used_of_takeWhile {bs : List (Bucket E)} {b : Bucket E}
    (h : bs[(bs.takeWhile fun b => !b.isUsed).length]? = some b) : b.isUsed = true := by
  induction bs with
  | nil => cases h
  | cons a bs ih =>
    cases hused : a.isUsed with
    | false =>
      rw [List.takeWhile_cons_of_pos (by rw [hused]; rfl), List.length_cons,
        List.getElem?_cons_succ] at h
      exact ih h
    | true =>
      rw [List.takeWhile_cons_of_neg (by rw [hused]; decide), List.length_nil,
        List.getElem?_cons_zero, Option.some.injEq] at h
      rw [← h, hused]

theorem flatMap_takeWhile_unused (bs : List (Bucket E)) :
    bs.flatMap Bucket.cells =
      (bs.drop (bs.takeWhile fun b => !b.isUsed).length).flatMap Bucket.cells := by
  induction bs with
  | nil => rfl
  | cons b bs ih =>
    cases hused : b.isUsed with
    | false =>
      rw [List.flatMap_cons, List.takeWhile_cons_of_pos (by rw [hused]; rfl), List.length_cons,
        List.drop_succ_cons, ← ih, Bucket.cells, hused]
      rfl
    | true => rw [List.takeWhile_cons_of_neg (by rw [hused]; decide)]; rfl

/-- A call of the iterator returns the next cell, and -1 when there is none. -/
theorem iteratorNext_eq (t : Table E) (hi : Iterator E) :
    (t.iteratorNext hi).1 = (t.remaining hi).head? ∧
      t.remaining (t.iteratorNext hi).2 = (t.remaining hi).tail := by
  obtain ⟨cur, idx⟩ := hi
  cases cur with
  | cons c cs => exact ⟨rfl, rfl⟩
  | nil =>
    simp only [iteratorNext, remaining, List.nil_append]
    set skipped := ((t.buckets.drop idx).takeWhile fun b => !b.isUsed).length with hskipped
    have hdrop : (t.buckets.drop idx).flatMap Bucket.cells =
        (t.buckets.drop (idx + skipped)).flatMap Bucket.cells := by
      rw [flatMap_takeWhile_unused, ← hskipped, List.drop_drop]
    rw [hdrop]
    cases hb : t.buckets[idx + skipped]? with
    | none =>
      have hnil : t.buckets.drop (idx + skipped) = [] :=
        List.drop_eq_nil_of_le (List.getElem?_eq_none_iff.mp hb)
      simp [hnil]
    | some b =>
      obtain ⟨hlt, hget⟩ := List.getElem?_eq_some_iff.mp hb
      have hused : b.isUsed = true := used_of_takeWhile (by
        rw [← hskipped, List.getElem?_drop, hb])
      rw [List.drop_eq_getElem_cons hlt, hget, List.flatMap_cons, Bucket.cells_used hused]
      exact ⟨rfl, rfl⟩

/-- The calls of an iterator return the cells that remain, one after the other, and then -1. -/
theorem answers_eq_remaining (t : Table E) (hi : Iterator E) (n : ℕ) :
    t.answers hi n = (t.remaining hi)[n]? := by
  induction n generalizing hi with
  | zero => rw [answers, (iteratorNext_eq t hi).1, List.head?_eq_getElem?]
  | succ n ih => rw [answers, ih, (iteratorNext_eq t hi).2, List.getElem?_tail]

theorem answers_eq (t : Table E) (n : ℕ) : t.answers iteratorCreate n = t.cells[n]? :=
  answers_eq_remaining t iteratorCreate n

end Table

end Goedb
