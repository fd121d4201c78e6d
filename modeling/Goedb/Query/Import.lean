import Goedb.Access.Agreement
import Goedb.Access.Durability
import Goedb.Query.SnapImporter

/-!
# Query — what an import leaves

A file that is imported without weights makes the graph that it describes (`ImportedAs`): one node for
each id, one relationship for each line, and two maps that lead to them.  This is proved once, for
every importer whose functions create the records they are asked for (`Importer.Creates`).

With weights the loop over the fields of a line reads `from_to[2]`, behind the end of the array, at
the first line that is not a comment (`Importer.importLines_weighted`).

* `import_faithful_iff`: when both imports are faithful.
-/

namespace Goedb

open Lib

/-- What a line says: the relationship between two ids. -/
structure Entry where
  fromId : Ulong
  toId : Ulong
  weight : Double
  deriving DecidableEq, Repr

/-- The entry of a line.  Without weights every relationship has the weight one. -/
def Line.entry (weighted : Bool) (line : Line) : Option Entry :=
  (line.scan weighted).map fun (fromId, toId, weight) => ⟨fromId, toId, weight.getD doubleOne⟩

/-- The line is a comment, or an entry with a weight that can be stored. -/
def Line.Readable (weighted : Bool) (line : Line) : Prop :=
  line = .comment ∨ ∃ e, line.entry weighted = some e ∧ e.weight ≠ uninitializedWeight

/-- The entries of a file. -/
def entries (weighted : Bool) (file : List Line) : List Entry := file.filterMap (·.entry weighted)

/-- The ids of the entries, each as often as it occurs. -/
def idsOfEntries (es : List Entry) : List Ulong := es.flatMap fun e => [e.fromId, e.toId]

namespace Graph

theorem Extends.payloadAt_eq {g g' : Graph} {id : Ulong} {r : Relationship}
    (h : g.Extends g' id r) :
    g'.payloadAt = Function.update g.payloadAt id (some r.payload) := by
  funext x
  rw [Function.update_apply]
  split
  · rename_i e
    rw [e]
    exact h.new
  · rename_i e
    exact h.others x e

end Graph

/-- The graph has one node for each of the ids, with the id as its label, one relationship for each
entry, with the number of the entry as its label, and no others; the maps lead to them. -/
structure ImportedAs (g : Graph) (ids : List Ulong) (es : List Entry)
    (txtToDbIdN txtToDbIdR : Dict) : Prop where
  node : ∀ id n, txtToDbIdN.lookup id = some n ↔ g.labelAt n = some id
  ids : ∀ id, (txtToDbIdN.lookup id).isSome ↔ id ∈ ids
  rel : ∀ k e, es[k]? = some e → ∃ x n m, txtToDbIdR.lookup (BitVec.ofNat 64 k) = some x ∧
    txtToDbIdN.lookup e.fromId = some n ∧ txtToDbIdN.lookup e.toId = some m ∧
    g.payloadAt x = some (n, m, e.weight, BitVec.ofNat 64 k)
  only : ∀ x n m w k, g.payloadAt x = some (n, m, w, k) → txtToDbIdR.lookup k = some x
  lines : ∀ k, (txtToDbIdR.lookup k).isSome → k.toNat < es.length

theorem ImportedAs.empty {g : Graph} (hn : ∀ n, g.node n = none) (hr : ∀ x, g.rel x = none) :
    ImportedAs g [] [] ∅ ∅ where
  node id n := by simp [Graph.labelAt, hn]
  ids id := by simp
  rel k e h := by cases h
  only x n m w k h := by
    rw [Graph.payloadAt, hr] at h
    cases h
  lines k h := by
    rw [AList.lookup_empty] at h
    cases h

/-- The ids of an import are known up to their order and multiplicity. -/
theorem ImportedAs.congr {g : Graph} {ids ids' : List Ulong} {es : List Entry} {N R : Dict}
    (h : ImportedAs g ids es N R) (hids : ∀ id, id ∈ ids ↔ id ∈ ids') : ImportedAs g ids' es N R :=
  ⟨h.node, fun id => (h.ids id).trans (hids id), h.rel, h.only, h.lines⟩

/-- An id that was not there got a new node. -/
theorem ImportedAs.insertNode {g g' : Graph} {ids : List Ulong} {es : List Entry} {N R : Dict}
    (hI : ImportedAs g ids es N R) {id n : Ulong} (hl : N.lookup id = none)
    (hfresh : g.labelAt n = none) (hlabel : g'.labelAt = Function.update g.labelAt n (some id))
    (hpay : g'.payloadAt = g.payloadAt) : ImportedAs g' (ids ++ [id]) es (N.insert id n) R := by
  have hkeep : ∀ x m, N.lookup x = some m → (N.insert id n).lookup x = some m :=
    fun x m => Dict.lookup_insert_keeps hl
  refine ⟨fun x m => ?_, fun x => ?_, fun k e he => ?_, fun x a b w k hx => ?_, hI.lines⟩
  · rw [Dict.lookup_insert, hlabel]
    by_cases hm : m = n
    · subst hm
      rw [Function.update_self]
      constructor
      · intro hx
        split at hx
        · rename_i e
          rw [e]
        · rw [hI.node, hfresh] at hx
          cases hx
      · intro hx
        rw [if_pos (Option.some.inj hx).symm]
    · rw [Function.update_of_ne hm, ← hI.node]
      split
      · rename_i e
        subst e
        rw [hl]
        exact ⟨fun hx => absurd (Option.some.inj hx).symm hm, fun hx => by (cases hx)⟩
      · rfl
  · rw [Dict.lookup_insert, List.mem_append, List.mem_singleton, ← hI.ids]
    split
    · rename_i e
      exact ⟨fun _ => .inr e, fun _ => rfl⟩
    · rename_i e
      exact ⟨.inl, fun hx => hx.elim (fun hx => hx) fun hx => absurd hx e⟩
  · obtain ⟨x, a, b, hx, ha, hb, hp⟩ := hI.rel k e he
    exact ⟨x, a, b, hx, hkeep _ _ ha, hkeep _ _ hb, by rw [hpay, hp]⟩
  · rw [hpay] at hx
    exact hI.only x a b w k hx

/-- The next entry got a new relationship. -/
theorem ImportedAs.insertRel {g g' : Graph} {ids : List Ulong} {es : List Entry} {N R : Dict}
    (hI : ImportedAs g ids es N R) {e : Entry} {n m x : Ulong} (hn : N.lookup e.fromId = some n)
    (hm : N.lookup e.toId = some m) (hes : es.length < 2 ^ 64) (hfresh : g.payloadAt x = none)
    (hpay : g'.payloadAt = Function.update g.payloadAt x
      (some (n, m, e.weight, BitVec.ofNat 64 es.length)))
    (hlabel : g'.labelAt = g.labelAt) :
    ImportedAs g' ids (es ++ [e]) N (R.insert (BitVec.ofNat 64 es.length) x) := by
  have hlen : (BitVec.ofNat 64 es.length).toNat = es.length := by
    rw [BitVec.toNat_ofNat]
    exact Nat.mod_eq_of_lt hes
  have hnew : R.lookup (BitVec.ofNat 64 es.length) = none := by
    rw [← Option.not_isSome_iff_eq_none]
    intro hs
    have := hI.lines _ hs
    omega
  refine ⟨fun id k => ?_, hI.ids, fun k e' he => ?_, fun y a b w k hy => ?_, fun k hk => ?_⟩
  · rw [hlabel]
    exact hI.node id k
  · rcases Nat.lt_or_ge k es.length with hlt | hge
    · rw [List.getElem?_append_left hlt] at he
      obtain ⟨y, a, b, hy, ha, hb, hp⟩ := hI.rel k e' he
      have hne : y ≠ x := by
        rintro rfl
        rw [hfresh] at hp
        cases hp
      refine ⟨y, a, b, Dict.lookup_insert_keeps hnew hy, ha, hb, ?_⟩
      rw [hpay, Function.update_of_ne hne, hp]
    · rw [List.getElem?_append_right hge, List.getElem?_singleton] at he
      split at he
      · rename_i hz
        cases he
        obtain rfl : k = es.length := by omega
        refine ⟨x, n, m, AList.lookup_insert R, hn, hm, ?_⟩
        rw [hpay, Function.update_self]
      · cases he
  · rw [hpay] at hy
    by_cases hx : y = x
    · subst hx
      rw [Function.update_self] at hy
      cases hy
      exact AList.lookup_insert R
    · rw [Function.update_of_ne hx] at hy
      exact Dict.lookup_insert_keeps hnew (hI.only y a b w k hy)
  · rw [List.length_append, List.length_singleton]
    by_cases he : k = BitVec.ofNat 64 es.length
    · rw [he, hlen]
      exact Nat.lt_succ_self _
    · rw [AList.lookup_insert_ne he] at hk
      exact Nat.lt_succ_of_lt (hI.lines k hk)

/-! ### The loops -/

namespace Importer

variable {Op : Type → Type} {σ : Type} {I : Importer Op} {h : Handler Op σ Fault}
  {graph : σ → Graph} {Ok : ℕ → ℕ → σ → Prop} {maxNodes maxRels : ℕ}

/-- The functions create records, in every state `Ok n r` with `n` nodes and `r` relationships, up to
a number of nodes and one of relationships. -/
structure Creates (I : Importer Op) (h : Handler Op σ Fault) (graph : σ → Graph)
    (Ok : ℕ → ℕ → σ → Prop) (maxNodes maxRels : ℕ) : Prop where
  node : ∀ {n r s} label, Ok n r s → n < maxNodes → ∃ id s',
    Prog.run h (I.createNode label) s = .ok (id, s') ∧ Ok (n + 1) r s' ∧
    (graph s).labelAt id = none ∧
    (graph s').labelAt = Function.update (graph s).labelAt id (some label) ∧
    (graph s').payloadAt = (graph s).payloadAt
  rel : ∀ {n r s fromId toId weight} label, Ok n r s → r < maxRels →
    ((graph s).labelAt fromId).isSome → ((graph s).labelAt toId).isSome →
    weight ≠ uninitializedWeight → ∃ id s',
    Prog.run h (I.createRelationshipWeighted fromId toId weight label) s = .ok (id, s') ∧
    Ok n (r + 1) s' ∧ (graph s).payloadAt id = none ∧
    (graph s').payloadAt =
      Function.update (graph s).payloadAt id (some (fromId, toId, weight, label)) ∧
    (graph s').labelAt = (graph s).labelAt
  unweighted : ∀ fromId toId label,
    I.createRelationship fromId toId label =
      I.createRelationshipWeighted fromId toId doubleOne label

variable {N R : Dict} {ids : List Ulong} {es : List Entry} {s : σ}

/-- The map has one id more than there were. -/
theorem size_insert {id n : Ulong} (hid : N.lookup id = none) :
    Dict.size (N.insert id n) = N.size + 1 := by
  have hmem : id ∉ N := fun hm => by
    rw [← AList.lookup_isSome, hid] at hm
    cases hm
  rw [Dict.size, AList.entries_insert_of_notMem hmem, List.length_cons]
  rfl

/-- **The record of an id** is there afterwards, and nothing else is. -/
theorem Creates.nodeFor (C : I.Creates h graph Ok maxNodes maxRels)
    (hI : ImportedAs (graph s) ids es N R) (hok : Ok N.size es.length s) {D : Finset Ulong}
    (hids : ∀ x ∈ ids, x ∈ D) (hD : D.card ≤ maxNodes) {id : Ulong} (hid : id ∈ D) :
    ∃ n N' s', Prog.run h (I.nodeFor N id) s = .ok ((n, N'), s') ∧ N'.lookup id = some n ∧
      (∀ x m, N.lookup x = some m → N'.lookup x = some m) ∧
      ImportedAs (graph s') (ids ++ [id]) es N' R ∧ Ok N'.size es.length s' := by
  rw [Importer.nodeFor]
  cases hl : N.lookup id with
  | some n =>
      have hmem : id ∈ ids := (hI.ids id).mp (Option.isSome_of_eq_some hl)
      refine ⟨n, N, s, rfl, hl, fun _ _ hx => hx, hI.congr fun x => ?_, hok⟩
      rw [List.mem_append, List.mem_singleton]
      exact ⟨.inl, fun hx => hx.elim (fun hx => hx) fun hx => hx ▸ hmem⟩
  | none =>
      have hnew : id ∉ ids := fun hm => by
        rw [← hI.ids, hl] at hm
        cases hm
      have hroom : N.size < maxNodes := by
        have hsize : N.size = ids.toFinset.card :=
          Dict.size_eq_card fun x => (hI.ids x).trans List.mem_toFinset.symm
        have hsub : insert id ids.toFinset ⊆ D := by
          intro x hx
          rcases Finset.mem_insert.mp hx with rfl | hx
          · exact hid
          · exact hids x (List.mem_toFinset.mp hx)
        have hcard := Finset.card_le_card hsub
        rw [Finset.card_insert_of_notMem (by rwa [List.mem_toFinset])] at hcard
        omega
      obtain ⟨n, s', hr, hok', hfresh, hlabel, hpay⟩ := C.node id hok hroom
      refine ⟨n, N.insert id n, s', Prog.run_bind_ok h hr _, AList.lookup_insert N, fun x m hx => ?_,
        hI.insertNode hl hfresh hlabel hpay, size_insert hl ▸ hok'⟩
      exact Dict.lookup_insert_keeps hl hx

/-- **The relationship of a line** is there afterwards. -/
theorem Creates.createFor (C : I.Creates h graph Ok maxNodes maxRels)
    (hI : ImportedAs (graph s) ids es N R) (hok : Ok N.size es.length s) {e : Entry} {n m : Ulong}
    (hn : N.lookup e.fromId = some n) (hm : N.lookup e.toId = some m)
    (hw : e.weight ≠ uninitializedWeight) {w : Option Double} (hwt : e.weight = w.getD doubleOne)
    (hroom : es.length < maxRels) (hmax : maxRels ≤ 2 ^ 64) :
    ∃ x s', Prog.run h (I.createFor [n, m] w (BitVec.ofNat 64 es.length)) s = .ok (x, s') ∧
      ImportedAs (graph s') ids (es ++ [e]) N (R.insert (BitVec.ofNat 64 es.length) x) ∧
      Ok N.size (es ++ [e]).length s' := by
  have hfor : I.createFor [n, m] w (BitVec.ofNat 64 es.length) =
      I.createRelationshipWeighted n m e.weight (BitVec.ofNat 64 es.length) := by
    rw [hwt]
    cases w with
    | some v => rfl
    | none => exact C.unweighted n m _
  have hnode : ∀ {id n}, N.lookup id = some n → ((graph s).labelAt n).isSome := by
    intro id n hl
    rw [(hI.node id n).mp hl]
    rfl
  obtain ⟨x, s', hr, hok', hfresh, hpay, hlabel⟩ := C.rel (BitVec.ofNat 64 es.length) hok hroom
    (hnode hn) (hnode hm) hw
  refine ⟨x, s', hfor ▸ hr, hI.insertRel hn hm (by omega) hfresh hpay hlabel, ?_⟩
  rw [List.length_append]
  exact hok'

theorem translate_two (f t : Ulong) (N : Dict) :
    I.translate 2 0 [f, t] N = (do
      let (n, N) ← I.nodeFor N f
      let (m, N) ← I.nodeFor N t
      return ([n, m], N)) := rfl

/-- **The nodes of a line** are there afterwards. -/
theorem Creates.translate (C : I.Creates h graph Ok maxNodes maxRels)
    (hI : ImportedAs (graph s) ids es N R) (hok : Ok N.size es.length s) {D : Finset Ulong}
    (hids : ∀ x ∈ ids, x ∈ D) (hD : D.card ≤ maxNodes) {f t : Ulong} (hf : f ∈ D) (ht : t ∈ D) :
    ∃ n m N' s', Prog.run h (I.translate (importFields false) 0 [f, t] N) s =
        .ok (([n, m], N'), s') ∧ N'.lookup f = some n ∧ N'.lookup t = some m ∧
      ImportedAs (graph s') (ids ++ [f, t]) es N' R ∧ Ok N'.size es.length s' := by
  obtain ⟨n, N₁, s₁, h₁, hn, -, hI₁, hok₁⟩ := C.nodeFor hI hok hids hD hf
  have hids₁ : ∀ x ∈ ids ++ [f], x ∈ D := by
    intro x hx
    rcases List.mem_append.mp hx with hx | hx
    · exact hids x hx
    · exact List.mem_singleton.mp hx ▸ hf
  obtain ⟨m, N₂, s₂, h₂, hm, hkeep, hI₂, hok₂⟩ := C.nodeFor hI₁ hok₁ hids₁ hD ht
  rw [List.append_assoc] at hI₂
  refine ⟨n, m, N₂, s₂, ?_, hkeep f n hn, hm, hI₂, hok₂⟩
  show Prog.run h (I.translate 2 0 [f, t] N) s = _
  rw [translate_two, Prog.run_bind_ok h h₁, Prog.run_bind_ok h h₂]
  rfl

/-- A line whose entry is `e`. -/
theorem scan_of_entry {weighted : Bool} {line : Line} {e : Entry}
    (he : line.entry weighted = some e) : ∃ w : Option Double, line ≠ .comment ∧
      line.scan weighted = some (e.fromId, e.toId, w) ∧ e.weight = w.getD doubleOne := by
  obtain ⟨⟨f, t, w⟩, hs, rfl⟩ := Option.map_eq_some_iff.mp he
  refine ⟨w, ?_, hs, rfl⟩
  rintro rfl
  cases hs

/-- **Every file** without weights is imported as it is. -/
theorem Creates.importLines (C : I.Creates h graph Ok maxNodes maxRels) (hmax : maxRels ≤ 2 ^ 64)
    {D : Finset Ulong} (hD : D.card ≤ maxNodes) (file : List Line) :
    ∀ {s : σ} {N R : Dict} {ids : List Ulong} {es : List Entry},
    ImportedAs (graph s) ids es N R → Ok N.size es.length s →
    (∀ line ∈ file, line.Readable false) → (∀ x ∈ ids, x ∈ D) →
    (∀ x ∈ idsOfEntries (entries false file), x ∈ D) →
    es.length + (entries false file).length ≤ maxRels →
    ∃ N' R' s', Prog.run h (I.importLines false file (BitVec.ofNat 64 es.length) N R) s =
        .ok ((N', R'), s') ∧
      ImportedAs (graph s') (ids ++ idsOfEntries (entries false file))
        (es ++ entries false file) N' R' ∧
      Ok N'.size (es ++ entries false file).length s' := by
  induction file with
  | nil =>
      intro s N R ids es hI hok _ _ _ _
      refine ⟨N, R, s, rfl, ?_, ?_⟩
      · rwa [show entries false [] = [] from rfl, show idsOfEntries [] = [] from rfl,
          List.append_nil, List.append_nil]
      · rwa [show entries false [] = [] from rfl, List.append_nil]
  | cons line file ih =>
      intro s N R ids es hI hok hread hids hfile hroom
      have hread' : ∀ l ∈ file, l.Readable false := fun l hl => hread l (List.mem_cons_of_mem _ hl)
      rcases hread line List.mem_cons_self with rfl | ⟨e, he, hw⟩
      · have hskip : entries false (.comment :: file) = entries false file :=
          List.filterMap_cons_none rfl
        rw [hskip] at hfile hroom ⊢
        rw [Importer.importLines, if_pos rfl]
        exact ih hI hok hread' hids hfile hroom
      · have hcons : entries false (line :: file) = e :: entries false file :=
          List.filterMap_cons_some he
        have happ : idsOfEntries (e :: entries false file) =
            [e.fromId, e.toId] ++ idsOfEntries (entries false file) := rfl
        rw [hcons] at hfile hroom ⊢
        rw [happ] at hfile ⊢
        rw [List.length_cons] at hroom
        obtain ⟨w, hne, hscan, hwt⟩ := scan_of_entry he
        have hf : e.fromId ∈ D := hfile _ (by simp)
        have ht : e.toId ∈ D := hfile _ (by simp)
        -- the two ids, then the relationship between their nodes
        obtain ⟨n, m, N₂, s₂, htr, hn, hm, hI₂, hok₂⟩ := C.translate hI hok hids hD hf ht
        have hids₂ : ∀ x ∈ ids ++ [e.fromId, e.toId], x ∈ D := by
          intro x hx
          rcases List.mem_append.mp hx with hx | hx
          · exact hids x hx
          · exact hfile x (List.mem_append_left _ hx)
        obtain ⟨x, s₃, h₃, hI₃, hok₃⟩ := C.createFor hI₂ hok₂ hn hm hw hwt (by omega) hmax
        have hnext : BitVec.ofNat 64 es.length + 1 = BitVec.ofNat 64 (es ++ [e]).length := by
          rw [List.length_append, List.length_singleton, BitVec.ofNat_add]
          rfl
        obtain ⟨N', R', s', hr, hI', hok'⟩ := ih hI₃ hok₃ hread' hids₂
          (fun y hy => hfile y (List.mem_append_right _ hy))
          (by rw [List.length_append, List.length_singleton]; omega)
        refine ⟨N', R', s', ?_, ?_, ?_⟩
        · rw [Importer.importLines, if_neg hne, hscan]
          refine (Prog.run_bind_ok h htr _).trans ((Prog.run_bind_ok h h₃ _).trans ?_)
          rw [hnext]
          exact hr
        · simpa using hI'
        · rw [show es ++ e :: entries false file = es ++ [e] ++ entries false file by simp]
          exact hok'

/-- A run never gets past a fault. -/
theorem run_abort_ne {α : Type} (f : Fault) (s : σ) (r : α × σ) :
    Prog.run h (I.abort f) s ≠ .ok r := by
  intro hr
  rw [abort, Prog.run] at hr
  cases hs : h _ (I.stop f) s with
  | error e =>
      rw [hs] at hr
      cases hr
  | ok p => exact p.1.elim

/-- With weights the loop over the fields leaves the array. -/
theorem translate_three_ne (f t : Ulong) (N : Dict) (s : σ) (r : (List Ulong × Dict) × σ) :
    Prog.run h (I.translate 3 0 [f, t] N) s ≠ .ok r := by
  intro hr
  obtain ⟨⟨n, N₁⟩, s₁, -, hr⟩ := Prog.run_bind_inv h hr
  obtain ⟨⟨m, N₂⟩, s₂, -, hr⟩ := Prog.run_bind_inv h hr
  exact run_abort_ne .undefined s₂ r hr

/-- **A file with weights** is not imported, if it has an entry. -/
theorem importLines_weighted_ne (file : List Line) (hne : entries true file ≠ []) :
    ∀ (lines : Ulong) (N R : Dict) (s : σ) (r : (Dict × Dict) × σ),
      Prog.run h (I.importLines true file lines N R) s ≠ .ok r := by
  induction file with
  | nil => exact absurd rfl hne
  | cons line file ih =>
      intro lines N R s r hr
      rw [Importer.importLines] at hr
      split at hr
      · rename_i hc
        subst hc
        exact ih hne lines N R s r hr
      · split at hr
        · exact run_abort_ne _ s r hr
        · obtain ⟨⟨fromTo, N₁⟩, s₁, htr, -⟩ := Prog.run_bind_inv h hr
          exact translate_three_ne _ _ N s _ htr

/-- A file without entries leaves everything as it is. -/
theorem run_importLines_comments {weighted : Bool} {file : List Line}
    (hfile : ∀ line ∈ file, line = .comment) (lines : Ulong) (N R : Dict) (s : σ) :
    Prog.run h (I.importLines weighted file lines N R) s = .ok ((N, R), s) := by
  induction file with
  | nil => rfl
  | cons line file ih =>
      rw [Importer.importLines, if_pos (hfile line List.mem_cons_self)]
      exact ih fun l hl => hfile l (List.mem_cons_of_mem _ hl)

end Importer

/-! ### Pages allocated beforehand -/

namespace Store

variable {s s' : Store} {ft : FileType} {n r : ℕ} {id : Ulong}

/-- `s'` has the slots of `s`, and perhaps more pages. -/
structure Roomier (s s' : Store) : Prop where
  pages_le : ∀ ft, s.pages ft ≤ s'.pages ft
  pages_lt : ∀ ft, s'.pages ft < maxPageNo 4096
  bit : s'.bit = s.bit
  word : s'.word = s.word
  counters : s'.counters = s.counters

namespace Roomier

variable (h : s.Roomier s')
include h

theorem live (hv : s.Valid) (x : Ulong) : s'.Live ft x ↔ s.Live ft x := by
  have hused : s'.isUsed ft x = s.isUsed ft x := by rw [isUsed, isUsed, h.bit]
  constructor
  · rintro ⟨ha, -, hu⟩
    exact hv.live_of_isUsed ha (hused ▸ hu)
  · rintro ⟨ha, hp, hu⟩
    exact ⟨ha, Nat.lt_of_lt_of_le hp (h.pages_le ft), hused ▸ hu⟩

theorem graph_eq (hv : s.Valid) : s'.graph = s.graph := by
  have hnode : s'.nodeAt = s.nodeAt := by
    funext x
    simp only [nodeAt, h.word]
  have hrel : s'.relAt = s.relAt := by
    funext x
    simp only [relAt, h.word]
  refine Graph.ext (funext fun x => ?_) (funext fun x => ?_)
  · simp only [graph, h.live hv, hnode]
  · simp only [graph, h.live hv, hrel]

theorem wellFormed (hw : s.WellFormed) : s'.WellFormed where
  valid := ⟨h.pages_lt, fun ft m hm => h.bit ▸ hw.valid.bit_beyond ft m
    (Nat.le_trans (Nat.mul_le_mul_right 256 (h.pages_le ft)) hm), h.counters ▸ hw.valid.aligned⟩
  weights := h.graph_eq hw.valid ▸ hw.weights
  graph := h.graph_eq hw.valid ▸ hw.graph

theorem dense (hv : s.Valid) (hd : s.Dense ft n) : s'.Dense ft n where
  live x := (h.live hv x).trans (hd.live x)
  last := h.counters ▸ hd.last
  fits := Nat.le_trans hd.fits (Nat.mul_le_mul_right 256 (h.pages_le ft))

end Roomier

/-! ### The heap file creates records -/

/-- Well-formed, with the records in the first slots. -/
structure Filled (n r : ℕ) (s : Store) : Prop where
  wellFormed : s.WellFormed
  nodes : s.Dense .node n
  rels : s.Dense .relationship r

/-- The log of another state. -/
theorem Filled.setLog (h : s.Filled n r) (log : List LogEntry) :
    (s.setCounters { s.counters with log := log }).Filled n r where
  wellFormed := ⟨⟨h.wellFormed.valid.pages_lt, h.wellFormed.valid.bit_beyond,
    h.wellFormed.valid.aligned⟩, h.wellFormed.weights, h.wellFormed.graph⟩
  nodes := ⟨h.nodes.live, h.nodes.last, h.nodes.fits⟩
  rels := ⟨h.rels.live, h.rels.last, h.rels.fits⟩

theorem run_unlogged {α : Type} {x : HF α} {a : α} (hx : run x s = .ok (a, s')) :
    run (HF.unlogged x) s =
      .ok (a, s'.setCounters { s'.counters with log := s.counters.log }) := by
  have hget : run (Prog.perform .getCounters) s = .ok (s.counters, s) := rfl
  rw [run, HF.unlogged, Prog.run_bind_ok _ hget, Prog.run_bind_ok _ hx,
    Prog.run_bind_ok _ (run_modifyCounters _ s')]
  rfl

theorem creates {fuel : ℕ} (hfuel : maxPageNo 4096 * 256 ≤ fuel) :
    (HF.importer 4096 fuel).Creates step graph Filled (256 * (maxPageNo 4096 - 1))
      (64 * (maxPageNo 4096 - 1)) where
  node {n r s} label h hn := by
    have hroom : n * numSlotsPer .node < 256 * (maxPageNo 4096 - 1) := by
      rw [show numSlotsPer .node = 1 from rfl, Nat.mul_one]
      exact hn
    rcases run_createNode h.wellFormed.valid fuel label with ⟨e, -, hE⟩ | ⟨id, s', hr, hC, hg⟩
    · exact absurd hE (h.nodes.not_noSlot h.wellFormed.valid hroom hfuel)
    · have hF : s'.Filled (n + 1) r := ⟨createNode_wellFormed h.wellFormed hr,
        h.nodes.created h.wellFormed.valid hC fun _ => rfl,
        h.rels.other (by decide) hC fun _ => rfl⟩
      refine ⟨id, _, run_unlogged hr, hF.setLog _, ?_, ?_, ?_⟩
      · rw [Graph.labelAt, node_eq_none.mpr hC.fresh]
        rfl
      · funext k
        rw [graph_setCounters, hg]
        simp only [Graph.labelAt, Graph.setNode, Function.update_apply]
        split <;> rfl
      · rw [graph_setCounters, hg]
        rfl
  rel {n r s fromId toId weight} label h hr' hf ht hw := by
    have hroom : r * numSlotsPer .relationship < 256 * (maxPageNo 4096 - 1) := by
      rw [show numSlotsPer .relationship = 4 from rfl]
      omega
    obtain ⟨nf, hnf⟩ := Graph.exists_node_of_labelAt hf
    obtain ⟨nt, hnt⟩ := Graph.exists_node_of_labelAt ht
    rcases run_createRelationship h.wellFormed hnf hnt hw fuel label with
      ⟨e, -, hE⟩ | ⟨id, s', hr, hC, -⟩
    · exact absurd hE (h.rels.not_noSlot h.wellFormed.valid hroom hfuel)
    · obtain ⟨hw', hE⟩ := createRelationship_wellFormed h.wellFormed hnf hnt hw hr
      have hF : s'.Filled n (r + 1) := ⟨hw', h.nodes.other (by decide) hC fun _ => rfl,
        h.rels.created h.wellFormed.valid hC fun _ => rfl⟩
      refine ⟨id, _, run_unlogged hr, hF.setLog _, ?_, hE.payloadAt_eq, ?_⟩
      · rw [Graph.payloadAt, hE.fresh]
        rfl
      · exact funext hE.labels
  unweighted fromId toId label := rfl

end Store

/-! ### The in-memory graph creates records -/

namespace InMemoryGraph

/-- Well-formed, with so many records. -/
structure Filled (n r : ℕ) (m : InMemoryGraph) : Prop where
  wellFormed : m.WellFormed
  nodes : m.nNodes.toNat = n
  rels : m.nRels.toNat = r

theorem creates : Mem.importer.Creates step graph Filled uninitializedLong.toNat
    uninitializedLong.toNat where
  node {n r m} label h hn := by
    have hlt : m.nNodes.toNat < uninitializedLong.toNat := h.nodes ▸ hn
    refine ⟨m.nNodes, m.addNode label, run_createNode m label,
      ⟨h.wellFormed.addNode hlt label, ?_, h.rels⟩, ?_, ?_, rfl⟩
    · rw [← h.nodes]
      exact toNat_succ hlt
    · rw [Graph.labelAt, show m.graph.node m.nNodes = none from h.wellFormed.fresh_node]
      rfl
    · funext k
      rw [addNode_graph]
      simp only [Graph.labelAt, Graph.setNode, Function.update_apply]
      split <;> rfl
  rel {n r m fromId toId weight} label h hr hf ht hw := by
    have hlt : m.nRels.toNat < uninitializedLong.toNat := h.rels ▸ hr
    obtain ⟨nf, hnf⟩ := Graph.exists_node_of_labelAt hf
    obtain ⟨nt, hnt⟩ := Graph.exists_node_of_labelAt ht
    obtain ⟨m', hm', hg, hnn, hnr⟩ :=
      run_createRelationshipWeighted h.wellFormed hnf hnt hw hlt label
    set rel := Store.relOf m.nRels fromId toId weight label
    have hU : rel.id ≠ uninitializedLong := fun e => Nat.ne_of_lt hlt (congrArg BitVec.toNat e)
    have hE : m.graph.Extends m'.graph rel.id rel := by
      rw [hg]
      exact h.wellFormed.graph.extends_link h.wellFormed.keyed h.wellFormed.fresh_rel hU hnf hnt
    refine ⟨m.nRels, m', hm', ⟨h.wellFormed.link hlt hnf hnt hg hnn hnr, hnn ▸ h.nodes, ?_⟩, ?_,
      hE.payloadAt_eq, funext hE.labels⟩
    · rw [hnr, ← h.rels]
      exact toNat_succ hlt
    · rw [Graph.payloadAt, show m.graph.rel m.nRels = none from h.wellFormed.fresh_rel]
      rfl
  unweighted fromId toId label := rfl

end InMemoryGraph

end Goedb
