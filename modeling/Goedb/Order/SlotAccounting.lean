import Goedb.Access.DeleteNode
import Goedb.Access.Footprint
import Goedb.Access.Scanning
import Goedb.Order.SwapRelationships

/-!
# Order — the accounts of the slots

Whatever the records say, the header bits are right: after every run of the six functions that
create, delete and exchange records, a slot is marked as used exactly if a record lives there.  Where
records live is said by the calls and the ids that they return (`lives`); `delete_node` also deletes the
relationships that it calls `delete_relationship` for (`HF.deletedBy`).

Most of what a function does goes on in the words of the records and leaves the slots alone
(`Store.keepsSlots`).  What is left of a function is what it does to one or two
slots (`Created`, `Deleted`, `Moved`), and none of this needs the records to form a well-formed
graph.

* `HeapFile.calls_accounted`: the accounts are right after every run.
-/

namespace Goedb

open Lib

open Prog (Always)

open RecordOp (OnWords Reads)

/-- What a call does to the records; the id of a new one is the id that the call returns. -/
inductive Change where
  | created (ft : FileType) (id : Ulong)
  | deleted (ft : FileType) (id : Ulong)
  | exchanged (ft : FileType) (fst snd : Ulong)
  deriving DecidableEq, Repr

/-- A record of the type lives at the id after the change. -/
def Change.on (lives : FileType → Ulong → Bool) : Change → FileType → Ulong → Bool
  | created ft id, gt, x => lives gt x || (gt == ft && x == id)
  | deleted ft id, gt, x => lives gt x && !(gt == ft && x == id)
  | exchanged ft fst snd, gt, x => lives gt (if gt = ft then exchange fst snd x else x)

/-- A record of the type lives at the id after these changes of a fresh database. -/
def lives (changes : List Change) : FileType → Ulong → Bool :=
  changes.foldl Change.on fun _ _ => false

/-- The number of records of a type, as the heap file counts them. -/
def Counters.number (c : Counters) : FileType → Ulong
  | .node => c.nNodes
  | .relationship => c.nRels

namespace Store

variable {s s' : Store} {ft : FileType} {id fst snd : Ulong}

/-! ### What leaves the slots alone -/

instance : Std.Refl SameSlots := ⟨SameSlots.refl⟩

instance : IsTrans Store SameSlots := ⟨fun _ _ _ => SameSlots.trans⟩

/-- A function that only works on the words of records leaves the slots and the counters alone. -/
theorem keepsSlots {α : Type} {x : HF α} (hx : Always OnWords x) : Prog.Keeps step SameSlots x := by
  refine hx.keeps fun β op s b s' hop h => ?_
  cases op with
  | numPages ft =>
      cases h
      exact .refl s
  | checkRecordExists ft id =>
      rw [step] at h
      split at h
      · cases h
        exact .refl s
      · split at h
        · cases h
          exact .refl s
        · cases h
  | readNode id =>
      rw [step] at h
      split at h
      · cases h
        exact .refl s
      · cases h
  | readRelationship id =>
      rw [step] at h
      split at h
      · cases h
        exact .refl s
      · cases h
  | writeNode nd =>
      rw [step] at h
      split at h
      · cases h
        exact sameSlots_setNode nd
      · cases h
  | writeRelationship r =>
      rw [step] at h
      split at h
      · cases h
        exact sameSlots_setRel r
      · cases h
  | stop f => cases h
  | setBits ft id used => exact hop.elim
  | newPage ft => exact hop.elim
  | getCounters => exact hop.elim
  | setCounters c => exact hop.elim

theorem onWords_onlyIf {α : Type} {x : HF α} (hx : Always OnWords x) (found : Bool) :
    Always OnWords (HF.onlyIf found x) := .ite (.bind hx fun _ => .pure _) (.pure none)

theorem onWords_updateEndpoints (fst snd : Ulong) (rels : List Relationship) :
    Always OnWords (HF.updateEndpoints fst snd rels) := by
  induction rels with
  | nil => exact .pure ()
  | cons r rels ih => exact .bind (OnWords.updateRelationshipInternal _ true) fun _ => ih

theorem onWords_updatePointers (fst snd : Ulong) (ids : List Ulong) :
    Always OnWords (HF.updatePointers fst snd ids) := by
  induction ids with
  | nil => exact .pure ()
  | cons x ids ih =>
      exact .bind (OnWords.of_reads (Reads.readRelationshipInternal x true)) fun _ =>
        .bind (OnWords.updateRelationshipInternal _ true) fun _ => ih

theorem onWords_updateFirsts (fst snd : Ulong) (ids : List Ulong) :
    Always OnWords (HF.updateFirsts fst snd ids) := by
  induction ids with
  | nil => exact .pure ()
  | cons x ids ih =>
      exact .bind (OnWords.of_reads (Reads.readNodeInternal x true)) fun _ =>
        .bind (OnWords.updateNodeInternal _ true) fun _ => ih

theorem onWords_moveNode (id : Ulong) (o : Option Node) : Always OnWords (HF.moveNode id o) := by
  cases o with
  | none => exact .pure ()
  | some nd => exact OnWords.updateNodeInternal _ true

theorem onWords_moveRelationship (id : Ulong) (o : Option Relationship) :
    Always OnWords (HF.moveRelationship id o) := by
  cases o with
  | none => exact .pure ()
  | some r => exact OnWords.updateRelationshipInternal _ true

/-! ### What each function does to the slots -/

section Functions

variable {fuel : ℕ} {label : Ulong}

/-- `next_free_slots` hands out a slot that is free. -/
theorem nextFreeSlots_inv (hv : s.Valid)
    (h : run (HF.nextFreeSlots 4096 fuel ft) s = .ok ((), s')) :
    ∃ o, s.FirstFree ft (s.counters.lastAlloc ft).toNat o ∧
      Allocated s ft (o.getD (s.endId ft)) s' := by
  rcases run_nextFreeSlots hv fuel ft with ⟨e, he, -⟩ | ⟨o, s₁, h₁, hfree, hA⟩
  · rw [he] at h
    cases h
  · rw [h₁] at h
    cases h
    exact ⟨o, hfree, hA⟩

theorem createNode_created (hv : s.Valid)
    (h : run (HF.createNode 4096 fuel label) s = .ok (id, s')) :
    Created s .node id (countNode id label) s' := by
  rcases run_createNode hv fuel label with ⟨e, he, -⟩ | ⟨id', s₁, h₁, hC, -⟩
  · rw [he] at h
    cases h
  · rw [h₁] at h
    cases h
    exact hC

theorem createRelationship_created (hv : s.Valid) {fromId toId : Ulong} {weight : Double}
    (h : run (HF.createRelationship 4096 fuel fromId toId weight label) s = .ok (id, s')) :
    Created s .relationship id (countRel id label) s' := by
  rw [run, HF.createRelationship] at h
  split at h
  · cases h
  · obtain ⟨u₁, s₁, h₁, h⟩ := Prog.run_bind_inv _ h
    obtain ⟨o, hfree, hA⟩ := nextFreeSlots_inv hv h₁
    obtain ⟨c, s₂, hc, h⟩ := Prog.run_bind_inv _ h
    cases hc
    obtain ⟨nf, s₃, h₃, h⟩ := Prog.run_bind_inv _ h
    obtain ⟨nt, s₄, h₄, h⟩ := Prog.run_bind_inv _ h
    obtain ⟨p, s₅, h₅, h⟩ := Prog.run_bind_inv _ h
    obtain ⟨q, s₆, h₆, h⟩ := Prog.run_bind_inv _ h
    obtain ⟨u₂, s₇, h₇, h⟩ := Prog.run_bind_inv _ h
    obtain ⟨u₃, s₈, h₈, h⟩ := Prog.run_bind_inv _ h
    obtain ⟨u₄, s₉, h₉, h⟩ := Prog.run_bind_inv _ h
    obtain ⟨u₅, t, ht, h⟩ := Prog.run_bind_inv _ h
    have hsame : s₁.SameSlots t :=
      ((((((((keepsSlots (OnWords.of_reads (Reads.readNodeInternal fromId true)) _ _ _ h₃).trans
        (keepsSlots (OnWords.of_reads (Reads.readNodeInternal toId true)) _ _ _ h₄)).trans
        (keepsSlots (OnWords.of_reads (Reads.sourceChainEnds _ _)) _ _ _ h₅)).trans
        (keepsSlots (OnWords.of_reads (Reads.targetChainEnds _ _ _ _)) _ _ _ h₆)).trans
        (keepsSlots (OnWords.setFirstRelationship _ _) _ _ _ h₇)).trans
        (keepsSlots (OnWords.setFirstRelationship _ _) _ _ _ h₈)).trans
        (keepsSlots (OnWords.writeBack _ _ _ _ _) _ _ _ h₉)).trans
        (keepsSlots (OnWords.updateRelationshipInternal _ _) _ _ _ ht))
    cases h
    have hid : s₁.counters.lastAllocRelId = o.getD (s.endId .relationship) := by
      rw [hA.counters]
      rfl
    rw [hid]
    refine ⟨⟨s₁, hA, hsame.pages, hsame.bit, ?_⟩, o, hfree, rfl⟩
    rw [← hsame.counters]
    rfl

theorem deleteRelationship_deleted (hv : s.Valid)
    (h : run (HF.deleteRelationship id) s = .ok ((), s')) :
    ∃ label, Deleted s .relationship id (uncountRel id label) s' := by
  rw [run, HF.deleteRelationship] at h
  split at h
  · cases h
  · obtain ⟨rel, s₁, h₁, h'⟩ := Prog.run_bind_inv _ h
    obtain ⟨hr, rfl⟩ := readRelationship_inv hv h₁
    obtain ⟨u₁, s₂, h₂, h'⟩ := Prog.run_bind_inv _ h'
    obtain ⟨u₂, s₃, h₃, h'⟩ := Prog.run_bind_inv _ h'
    obtain ⟨u₃, s₄, h₄, h'⟩ := Prog.run_bind_inv _ h'
    have hsame := ((keepsSlots (OnWords.when (OnWords.unlinkNeighbours rel)) _ _ _ h₂).trans
      (keepsSlots (OnWords.moveFirstRelationship _ _ _) _ _ _ h₃)).trans
      (keepsSlots (OnWords.moveFirstRelationship _ _ _) _ _ _ h₄)
    obtain ⟨s₅, h₅, -, -, hD⟩ := run_dropRelationship (hsame.valid hv)
      (hsame.live.mpr (rel_eq_some.mp hr).1) rel.label
    rw [run, h'] at h₅
    cases h₅
    exact ⟨rel.label, hD.of_sameSlots hsame⟩

/-- Records deleted one after the other. -/
inductive Deletions (s : Store) : List Change → Store → Prop where
  | refl : Deletions s [] s
  | relationship {changes : List Change} {s₁ s₂ : Store} {id label : Ulong} : Deletions s changes s₁ →
      Deleted s₁ .relationship id (uncountRel id label) s₂ →
      Deletions s (changes ++ [.deleted .relationship id]) s₂
  | node {changes : List Change} {s₁ s₂ : Store} {id label : Ulong} : Deletions s changes s₁ →
      Deleted s₁ .node id (uncountNode id label) s₂ → Deletions s (changes ++ [.deleted .node id]) s₂

theorem Deletions.trans {changes changes' : List Change} {s₁ s₂ : Store}
    (h : s.Deletions changes s₁) (h' : s₁.Deletions changes' s₂) :
    s.Deletions (changes ++ changes') s₂ := by
  induction h' with
  | refl => rwa [List.append_nil]
  | relationship _ hD ih => exact List.append_assoc .. ▸ ih.relationship hD
  | node _ hD ih => exact List.append_assoc .. ▸ ih.node hD

end Functions

end Store

/-! ### The relationships that `delete_node` deletes -/

namespace HF

/-- The loop of `delete_node`, with the ids that are passed to `delete_relationship`. -/
def deletedChain (nodeId : Ulong) : (fuel : ℕ) → (prevRelId lastId : Ulong) → HF (List Ulong)
  | 0, _, _ => abort .diverge
  | fuel + 1, prevRelId, lastId => do
      if prevRelId = lastId then pure []
      else
        let rel ← readRelationship prevRelId
        if nodeId = rel.sourceNode then
          deleteRelationship rel.id
          let ids ← deletedChain nodeId fuel rel.prevRelSource prevRelId
          return rel.id :: ids
        else if nodeId = rel.targetNode then
          deleteRelationship rel.id
          let ids ← deletedChain nodeId fuel rel.prevRelTarget prevRelId
          return rel.id :: ids
        else exit "heap file - delete node: Invalid Reationship in chain!"

/-- The relationships that are deleted before a node with this first relationship. -/
def deletedFirst (fuel : ℕ) (nodeId firstRelationship : Ulong) : HF (List Ulong) :=
  if firstRelationship ≠ uninitializedLong then do
    let rel ← readRelationship firstRelationship
    deletedChain nodeId fuel (rel.prevAt nodeId) uninitializedLong
  else pure []

/-- `delete_node`, with the ids that are passed to `delete_relationship`. -/
def deletedBy (fuel : ℕ) (nodeId : Ulong) : HF (List Ulong) := do
  if nodeId = uninitializedLong then exit "heap file - delete node: Invalid Arguments!"
  else
    let node ← readNodeInternal nodeId true
    let ids ← deletedFirst fuel nodeId node.firstRelationship
    dropNode nodeId node.label
    return ids

theorem stop_bind {α β : Type} (f : Fault) (k : α → HF β) : abort f >>= k = abort f :=
  congrArg (Prog.call (RecordOp.stop f)) (funext fun e => e.elim)

theorem bind_pure_unit (x : HF Unit) : (x >>= fun _ => pure ()) = x := by
  induction x with
  | ret a => rfl
  | call op k ih => exact congrArg (Prog.call op) (funext ih)

/-- The loop is that of `delete_node`. -/
theorem deletedChain_discard (nodeId : Ulong) (fuel : ℕ) : ∀ prevRelId lastId : Ulong,
    (deletedChain nodeId fuel prevRelId lastId >>= fun _ => pure ()) =
      deleteChain nodeId fuel prevRelId lastId := by
  induction fuel with
  | zero => exact fun _ _ => stop_bind _ _
  | succ fuel ih =>
      intro prevRelId lastId
      rw [deletedChain, deleteChain]
      split
      · rfl
      · rw [Prog.bind_assoc]
        refine congrArg (HF.readRelationship prevRelId >>= ·) (funext fun rel => ?_)
        have hturn : ∀ id, ((do
            deleteRelationship rel.id
            let ids ← deletedChain nodeId fuel id prevRelId
            return rel.id :: ids) >>= fun _ => pure ()) = (do
            deleteRelationship rel.id
            deleteChain nodeId fuel id prevRelId) := by
          intro id
          rw [Prog.bind_assoc]
          refine congrArg (HF.deleteRelationship rel.id >>= ·) (funext fun _ => ?_)
          rw [Prog.bind_assoc]
          exact ih id prevRelId
        split
        · exact hturn _
        · split
          · exact hturn _
          · exact stop_bind _ _

/-- The function is `delete_node`. -/
theorem deletedBy_discard (fuel : ℕ) (nodeId : Ulong) :
    (deletedBy fuel nodeId >>= fun _ => pure ()) = deleteNode fuel nodeId := by
  rw [deletedBy, deleteNode]
  split
  · exact stop_bind _ _
  · rw [Prog.bind_assoc]
    refine congrArg (HF.readNodeInternal nodeId true >>= ·) (funext fun node => ?_)
    rw [Prog.bind_assoc, deletedFirst, HF.when]
    split
    · rw [Prog.bind_assoc, Prog.bind_assoc]
      refine congrArg (HF.readRelationship node.firstRelationship >>= ·) (funext fun rel => ?_)
      rw [← deletedChain_discard, Prog.bind_assoc]
      refine congrArg (deletedChain nodeId fuel (rel.prevAt nodeId) uninitializedLong >>= ·)
        (funext fun ids => ?_)
      exact (Prog.bind_assoc ..).trans (bind_pure_unit _)
    · exact (Prog.bind_assoc ..).trans (bind_pure_unit _)

end HF

namespace Store

variable {s s' : Store} {ft : FileType} {id fst snd : Ulong}

section Functions

variable {fuel : ℕ} {label : Ulong}

/-- The loop of `delete_node` deletes relationships, and leaves the nodes where they are. -/
theorem deletedChain_deletions {n : Ulong} (fuel : ℕ) :
    ∀ {s s' : Store} {prevRelId lastId : Ulong} {ids : List Ulong}, s.Valid →
    run (HF.deletedChain n fuel prevRelId lastId) s = .ok (ids, s') →
    s.Deletions (ids.map (.deleted .relationship)) s' ∧ s'.Valid ∧
      ∀ x, s'.Live .node x ↔ s.Live .node x := by
  induction fuel with
  | zero =>
      intro s s' p l ids _ hr
      cases hr
  | succ fuel ih =>
      intro s s' p l ids hv hr
      rw [run, HF.deletedChain] at hr
      split at hr
      · cases hr
        exact ⟨.refl, hv, fun _ => Iff.rfl⟩
      · obtain ⟨rel, s₁, h₁, hr'⟩ := Prog.run_bind_inv _ hr
        obtain ⟨-, rfl⟩ := readRelationship_inv hv h₁
        -- whichever side is followed, the relationship is deleted first
        have hturn : ∀ {q}, Prog.run step (HF.deleteRelationship rel.id >>= fun _ =>
            HF.deletedChain n fuel q p >>= fun ids => pure (rel.id :: ids)) s₁ = .ok (ids, s') →
            s₁.Deletions (ids.map (.deleted .relationship)) s' ∧ s'.Valid ∧
              ∀ x, s'.Live .node x ↔ s₁.Live .node x := by
          intro q hq
          obtain ⟨v, s₂, h₂, h₃⟩ := Prog.run_bind_inv _ hq
          obtain ⟨ids', s₃, h₄, h₅⟩ := Prog.run_bind_inv _ h₃
          cases h₅
          obtain ⟨label, hD⟩ := deleteRelationship_deleted hv h₂
          obtain ⟨hDs, hv', hl'⟩ := ih hD.valid h₄
          have hl : ∀ x, s₂.Live .node x ↔ s₁.Live .node x := fun x => by simp [hD.live]
          exact ⟨(Deletions.refl.relationship hD).trans hDs, hv', fun x => (hl' x).trans (hl x)⟩
        split at hr'
        · exact hturn hr'
        · split at hr'
          · exact hturn hr'
          · cases hr'

theorem deletedBy_deletions (hv : s.Valid) {n : Ulong} {ids : List Ulong}
    (hr : run (HF.deletedBy fuel n) s = .ok (ids, s')) :
    s.Deletions (ids.map (.deleted .relationship) ++ [.deleted .node n]) s' := by
  rw [run, HF.deletedBy] at hr
  split at hr
  · cases hr
  · obtain ⟨nd, s₁, h₁, hr'⟩ := Prog.run_bind_inv _ hr
    obtain ⟨hn, rfl⟩ := readNode_inv hv h₁
    obtain ⟨ids', s₂, h₂, h₃⟩ := Prog.run_bind_inv _ hr'
    have hchain : s₁.Deletions (ids'.map (.deleted .relationship)) s₂ ∧ s₂.Valid ∧
        ∀ x, s₂.Live .node x ↔ s₁.Live .node x := by
      rw [HF.deletedFirst] at h₂
      split at h₂
      · obtain ⟨r, s₃, h₄, h₅⟩ := Prog.run_bind_inv _ h₂
        obtain ⟨-, rfl⟩ := readRelationship_inv hv h₄
        exact deletedChain_deletions fuel hv h₅
      · cases h₂
        exact ⟨.refl, hv, fun _ => Iff.rfl⟩
    obtain ⟨hDs, hv₂, hl⟩ := hchain
    obtain ⟨s₄, h₄, -, hD⟩ := run_dropNode hv₂ ((hl n).mpr (node_eq_some.mp hn).1) nd.label
    have hlast := (Prog.run_bind_ok _ h₄ _).symm.trans h₃
    cases hlast
    exact hDs.node hD

theorem deleteNode_deletions (hv : s.Valid) {n : Ulong}
    (hr : run (HF.deleteNode fuel n) s = .ok ((), s')) : ∃ changes, s.Deletions changes s' := by
  rw [run, ← HF.deletedBy_discard] at hr
  obtain ⟨ids, s₁, h₁, hr⟩ := Prog.run_bind_inv _ hr
  cases hr
  exact ⟨_, deletedBy_deletions hv h₁⟩

/-- The end of an exchange: a line of the log, the bits, the records. -/
theorem exchanged_of_swapBits {e : LogEntry} {s₁ s₂ s₃ : Store} {u : Unit} (hv : s.Valid)
    (hsame : s.SameSlots s₁) (ha : fst.toNat % numSlotsPer ft = 0)
    (hb : snd.toNat % numSlotsPer ft = 0) (hp : fst.toNat / 256 < s.pages ft)
    (hq : snd.toNat / 256 < s.pages ft) (hne : fst ≠ snd)
    (hlog : run (HF.log e) s₁ = .ok (u, s₂))
    (hbits : run (HF.swapBits ft fst snd (decide (s.Live ft fst)) (decide (s.Live ft snd))) s₂ =
      .ok (u, s₃)) (hmove : s₃.SameSlots s') : s.Exchanged ft fst snd s' := by
  cases hlog
  have hv₁ := hsame.valid hv
  set s₂ := s₁.setCounters { s₁.counters with log := e :: s₁.counters.log }
  have hl₂ : ∀ gt x, s₂.Live gt x ↔ s.Live gt x := fun gt x => hsame.live
  have hp₂ : ∀ {x : Ulong}, x.toNat / 256 < s.pages ft → x.toNat / 256 < s₂.pages ft := by
    intro x hx
    show _ < s₁.pages ft
    rwa [hsame.pages]
  obtain ⟨s₄, h₄, hB⟩ := run_swapBits (s := s₂) ft (hv₁.setCounters hv₁.aligned) ha hb (hp₂ hp)
    (hp₂ hq) hne
  simp only [hl₂] at h₄
  rw [hbits] at h₄
  cases h₄
  have hc : s'.counters = { s.counters with log := e :: s.counters.log } := by
    rw [hmove.counters, hB.counters, ← hsame.counters]
    rfl
  refine ⟨hmove.valid hB.valid, ?_, fun gt x => ?_, by rw [hc]⟩
  · rw [hmove.pages, hB.pages, ← hsame.pages]
    rfl
  · rw [hmove.live, hB.live, hl₂]

/-- Nothing is to be done for an exchange. -/
def Idle (s : Store) (ft : FileType) (fst snd : Ulong) : Prop :=
  fst = snd ∨ ¬ s.Live ft fst ∧ ¬ s.Live ft snd

theorem swapNodes_inv (hv : s.Valid)
    (h : run (HF.swapNodes 4096 fuel fst snd) s = .ok ((), s')) :
    s' = s ∧ s.Idle .node fst snd ∨ s.Exchanged .node fst snd s' := by
  obtain ⟨n, s₁, h₁, h⟩ := Prog.run_bind_inv _ h
  cases h₁
  split at h
  · cases h
  · rename_i hacc
    rw [not_not, swapAccepts_iff .node hv, swapAccepts_iff .node hv] at hacc
    obtain ⟨⟨hp, -⟩, hq, -⟩ := hacc
    obtain ⟨b, s₁, h₁, h⟩ := Prog.run_bind_inv _ h
    obtain ⟨rfl, rfl⟩ := checkRecordExists_inv hv h₁
    obtain ⟨c, s₂, h₂, h'⟩ := Prog.run_bind_inv _ h
    obtain ⟨rfl, rfl⟩ := checkRecordExists_inv hv h₂
    split at h'
    · rename_i htriv
      cases h'
      exact .inl ⟨rfl, htriv.imp id fun h =>
        ⟨of_decide_eq_false h.1, of_decide_eq_false h.2⟩⟩
    · rename_i htriv
      have hne : fst ≠ snd := fun e => htriv (.inl e)
      obtain ⟨rels, s₃, h₃, h'⟩ := Prog.run_bind_inv _ h'
      obtain ⟨u₁, s₄, h₄, h'⟩ := Prog.run_bind_inv _ h'
      obtain ⟨fn, s₅, h₅, h'⟩ := Prog.run_bind_inv _ h'
      obtain ⟨sn, s₆, h₆, h'⟩ := Prog.run_bind_inv _ h'
      obtain ⟨u₂, s₇, h₇, h'⟩ := Prog.run_bind_inv _ h'
      obtain ⟨u₃, s₈, h₈, h'⟩ := Prog.run_bind_inv _ h'
      obtain ⟨u₄, s₉, h₉, h'⟩ := Prog.run_bind_inv _ h'
      have hexpand : ∀ x, Always OnWords (HF.expand fuel x .both) := fun x =>
        OnWords.of_reads (Reads.expand fuel x .both)
      have hread : ∀ x, Always OnWords (HF.readNodeInternal x true) := fun x =>
        OnWords.of_reads (Reads.readNodeInternal x true)
      have hsame := (((keepsSlots (onWords_onlyIf (hexpand fst) _) _ _ _ h₃).trans
        (keepsSlots (OnWords.when (.bind (hexpand snd) fun _ => onWords_updateEndpoints fst snd _))
          _ _ _ h₄)).trans
        (keepsSlots (onWords_onlyIf (hread fst) _) _ _ _ h₅)).trans
        (keepsSlots (onWords_onlyIf (hread snd) _) _ _ _ h₆)
      have hmove := (keepsSlots (onWords_moveNode _ _) _ _ _ h₉).trans
        (keepsSlots (onWords_moveNode _ _) _ _ _ h')
      exact .inr (exchanged_of_swapBits hv hsame (Nat.mod_one _) (Nat.mod_one _) hp hq hne h₇ h₈
        hmove)

theorem swapNodes_exchanged (hv : s.Valid)
    (h : run (HF.swapNodes 4096 fuel fst snd) s = .ok ((), s')) : s.Exchanged .node fst snd s' := by
  rcases swapNodes_inv hv h with ⟨rfl, hidle⟩ | hE
  · exact exchanged_refl hv hidle
  · exact hE

/-- `update_relationship` returns only at an aligned id. -/
theorem updateRelationship_inv {r : Relationship} {u : Unit}
    (h : run (HF.updateRelationship r) s = .ok (u, s')) : r.id.toNat % 4 = 0 := by
  rw [run, HF.updateRelationship, HF.updateRelationshipInternal] at h
  split at h
  · cases h
  · obtain ⟨b, s₁, h₁, h⟩ := Prog.run_bind_inv _ h
    by_contra ha
    have hcheck : run (HF.checkIf true .relationship r.id) s = .ok (false, s) := by
      show run (Prog.perform (.checkRecordExists .relationship r.id)) s = _
      rw [run, Prog.run_perform, step,
        if_pos (show r.id.toNat % numSlotsPer .relationship ≠ 0 from ha)]
    rw [run, h₁] at hcheck
    cases hcheck
    cases h

theorem swapRelationships_inv (hv : s.Valid)
    (h : run (HF.swapRelationships 4096 fst snd) s = .ok ((), s')) :
    s' = s ∧ s.Idle .relationship fst snd ∨ s.Exchanged .relationship fst snd s' := by
  obtain ⟨n, s₁, h₁, h⟩ := Prog.run_bind_inv _ h
  cases h₁
  split at h
  · cases h
  · rename_i hacc
    rw [not_not, swapAccepts_iff .relationship hv, swapAccepts_iff .relationship hv] at hacc
    obtain ⟨⟨hp, -⟩, hq, -⟩ := hacc
    obtain ⟨b, s₁, h₁, h⟩ := Prog.run_bind_inv _ h
    obtain ⟨rfl, rfl⟩ := checkRecordExists_inv hv h₁
    obtain ⟨c, s₂, h₂, h'⟩ := Prog.run_bind_inv _ h
    obtain ⟨rfl, rfl⟩ := checkRecordExists_inv hv h₂
    split at h'
    · rename_i htriv
      cases h'
      exact .inl ⟨rfl, htriv.imp id fun h =>
        ⟨of_decide_eq_false h.1, of_decide_eq_false h.2⟩⟩
    · rename_i htriv
      have hne : fst ≠ snd := fun e => htriv (.inl e)
      have hone : s₂.Live .relationship fst ∨ s₂.Live .relationship snd := by
        by_contra hnone
        rw [not_or] at hnone
        exact htriv (.inr ⟨decide_eq_false hnone.1, decide_eq_false hnone.2⟩)
      obtain ⟨o₁, s₃, h₃, h'⟩ := Prog.run_bind_inv _ h'
      obtain ⟨o₂, s₄, h₄, h'⟩ := Prog.run_bind_inv _ h'
      obtain ⟨u₁, s₅, h₅, h'⟩ := Prog.run_bind_inv _ h'
      obtain ⟨u₂, s₆, h₆, h'⟩ := Prog.run_bind_inv _ h'
      obtain ⟨sr, s₇, h₇, h'⟩ := Prog.run_bind_inv _ h'
      obtain ⟨fr, s₈, h₈, h'⟩ := Prog.run_bind_inv _ h'
      obtain ⟨u₃, s₉, h₉, h'⟩ := Prog.run_bind_inv _ h'
      obtain ⟨u₄, t₁, k₁, h'⟩ := Prog.run_bind_inv _ h'
      obtain ⟨u₅, t₂, k₂, k₃⟩ := Prog.run_bind_inv _ h'
      have hread : ∀ x, Always OnWords (HF.readRelationship x) := fun x =>
        OnWords.of_reads (Reads.readRelationshipInternal x true)
      have hsame := (((((keepsSlots (onWords_onlyIf (hread fst) _) _ _ _ h₃).trans
        (keepsSlots (onWords_onlyIf (hread snd) _) _ _ _ h₄)).trans
        (keepsSlots (onWords_updatePointers _ _ _) _ _ _ h₅)).trans
        (keepsSlots (onWords_updateFirsts _ _ _) _ _ _ h₆)).trans
        (keepsSlots (onWords_onlyIf (hread snd) _) _ _ _ h₇)).trans
        (keepsSlots (onWords_onlyIf (hread fst) _) _ _ _ h₈)
      have hmove := (keepsSlots (onWords_moveRelationship _ _) _ _ _ k₂).trans
        (keepsSlots (onWords_moveRelationship _ _) _ _ _ k₃)
      -- a record that exists is moved, and it is moved to an aligned slot only
      have hfound : ∀ {x : Ulong} {o : Option Relationship} {t t' : Store},
          run (HF.onlyIf (decide (s₂.Live .relationship x)) (HF.readRelationship x)) t =
            .ok (o, t') → s₂.Live .relationship x → ∃ r, o = some r := by
        intro x o t t' hrun hl
        rw [decide_eq_true hl] at hrun
        obtain ⟨r, t₃, -, hr⟩ := Prog.run_bind_inv _ hrun
        cases hr
        exact ⟨r, rfl⟩
      have ha : fst.toNat % 4 = 0 := by
        by_cases hl : s₂.Live .relationship fst
        · exact hl.1
        · obtain ⟨r, rfl⟩ := hfound h₇ (hone.resolve_left hl)
          exact updateRelationship_inv k₃
      have hb : snd.toNat % 4 = 0 := by
        by_cases hl : s₂.Live .relationship snd
        · exact hl.1
        · obtain ⟨r, rfl⟩ := hfound h₈ (hone.resolve_right hl)
          exact updateRelationship_inv k₂
      exact .inr (exchanged_of_swapBits hv hsame ha hb hp hq hne h₉ k₁ hmove)

theorem swapRelationships_exchanged (hv : s.Valid)
    (h : run (HF.swapRelationships 4096 fst snd) s = .ok ((), s')) :
    s.Exchanged .relationship fst snd s' := by
  rcases swapRelationships_inv hv h with ⟨rfl, hidle⟩ | hE
  · exact exchanged_refl hv hidle
  · exact hE

end Functions

/-! ### The accounts -/

/-- The counters count the slots in use. -/
structure Counted (s : Store) : Prop where
  valid : s.Valid
  number : ∀ ft, s.counters.number ft = BitVec.ofNat 64 (s.liveIds ft).length

/-- The counters count without overflow. -/
theorem Counted.toNat_number (h : s.Counted) (ft : FileType) :
    (s.counters.number ft).toNat = (s.liveIds ft).length := by
  have hle := s.length_liveIds_le ft
  have hmax := h.valid.pages_lt ft
  rw [show maxPageNo 4096 = 2251799813685247 by decide] at hmax
  rw [h.number, BitVec.toNat_ofNat]
  exact Nat.mod_eq_of_lt (by omega)

theorem Counted.length_nodes (h : s.Counted) :
    ((s.liveIds .node).map s.nodeAt).length = s.counters.nNodes.toNat := by
  rw [List.length_map]
  exact (h.toNat_number .node).symm

/-- The list of ids follows the slots in use. -/
theorem perm_liveIds {l : List Ulong} (hv : s.Valid) (hl : l.Nodup)
    (h : ∀ x, x ∈ l ↔ s.Live ft x) : (s.liveIds ft).Perm l :=
  (List.perm_ext_iff_of_nodup (nodup_liveIds hv) hl).mpr fun x => by rw [mem_liveIds, h]

/-- A record more is counted. -/
theorem Counted.created {count : Counters → Counters} (h : s.Counted)
    (hC : Created s ft id count s') (hvalid : ∀ c, (count c).lastAllocRelId = c.lastAllocRelId)
    (hnum : ∀ c gt, (count c).number gt = c.number gt + if gt = ft then 1 else 0) :
    s'.Counted := by
  obtain ⟨s₁, hA, hp, hb, hc⟩ := hC.allocated
  have hv' := hC.valid hvalid
  have hc' : ∀ gt, (s.counters.setLastAlloc ft id).number gt = s.counters.number gt := by
    intro gt
    cases ft <;> cases gt <;> rfl
  refine ⟨hv', fun gt => ?_⟩
  rw [hc, hnum, hA.counters, hc' gt, h.number]
  by_cases hg : gt = ft
  · subst hg
    have hperm := perm_liveIds hv' (List.nodup_cons.mpr
      ⟨fun hx => hC.fresh (mem_liveIds.mp hx), nodup_liveIds h.valid⟩) fun x => by
        rw [hC.live, List.mem_cons, mem_liveIds]
        tauto
    rw [hperm.length_eq, if_pos rfl, List.length_cons, BitVec.ofNat_add]
    rfl
  · have hperm : (s'.liveIds gt).Perm (s.liveIds gt) :=
      perm_liveIds hv' (nodup_liveIds h.valid) fun x => by
        rw [hC.live, mem_liveIds]
        simp [hg]
    rw [hperm.length_eq, if_neg hg]
    exact BitVec.add_zero _

/-- The records of one type at other ids. -/
theorem Counted.permuted (h : s.Counted) (hv : s'.Valid) {π : Equiv.Perm Ulong}
    (hlive : ∀ gt x, s'.Live gt x ↔ s.Live gt (if gt = ft then π x else x))
    (hnum : ∀ gt, s'.counters.number gt = s.counters.number gt) : s'.Counted := by
  refine ⟨hv, fun gt => ?_⟩
  rw [hnum, h.number]
  by_cases hg : gt = ft
  · subst hg
    have hperm := perm_liveIds hv ((nodup_liveIds h.valid).map π.symm.injective) fun x => by
      rw [hlive, if_pos rfl, List.mem_map]
      constructor
      · rintro ⟨y, hy, rfl⟩
        rw [π.apply_symm_apply]
        exact mem_liveIds.mp hy
      · intro hx
        exact ⟨_, mem_liveIds.mpr hx, π.symm_apply_apply x⟩
    rw [hperm.length_eq, List.length_map]
  · have hperm : (s'.liveIds gt).Perm (s.liveIds gt) :=
      perm_liveIds hv (nodup_liveIds h.valid) fun x => by
        rw [hlive, if_neg hg, mem_liveIds]
    rw [hperm.length_eq]

theorem Counted.sameSlots (h : s.Counted) (hS : s.SameSlots s') : s'.Counted :=
  @Counted.permuted s s' .node h (hS.valid h.valid) 1
    (fun gt x => by rw [hS.live, Equiv.Perm.one_apply, ite_self]) fun gt => by rw [hS.counters]

namespace Counted

variable {fuel : ℕ} {label : Ulong}

theorem createNode (h : s.Counted) (hr : run (HF.createNode 4096 fuel label) s = .ok (id, s')) :
    s'.Counted :=
  h.created (createNode_created h.valid hr) (fun _ => rfl) fun c gt => by
    cases gt
    · rfl
    · exact (BitVec.add_zero _).symm

theorem createRelationship (h : s.Counted) {fromId toId : Ulong} {weight : Double}
    (hr : run (HF.createRelationship 4096 fuel fromId toId weight label) s = .ok (id, s')) :
    s'.Counted :=
  h.created (createRelationship_created h.valid hr) (fun _ => rfl) fun c gt => by
    cases gt
    · exact (BitVec.add_zero _).symm
    · rfl

end Counted

theorem Counted.empty : Store.empty.Counted where
  valid := empty_wellFormed.valid
  number ft := by
    have hnil : Store.empty.liveIds ft = [] :=
      List.eq_nil_iff_forall_not_mem.mpr fun x hx => not_live_empty ft x (mem_liveIds.mp hx)
    rw [hnil]
    cases ft <;> rfl

namespace Counted

/-- A record less is counted. -/
theorem deleted {count : Counters → Counters} (h : s.Counted) (hD : Deleted s ft id count s')
    (hnum : ∀ c gt, (count c).number gt = c.number gt - if gt = ft then 1 else 0) :
    s'.Counted := by
  refine ⟨hD.valid, fun gt => ?_⟩
  rw [hD.counters, hnum, h.number]
  by_cases hg : gt = ft
  · subst hg
    have hnot : id ∉ s'.liveIds gt := fun hx =>
      ((hD.live gt id).mp (mem_liveIds.mp hx)).2 ⟨rfl, rfl⟩
    have hperm := perm_liveIds h.valid (List.nodup_cons.mpr ⟨hnot, nodup_liveIds hD.valid⟩)
      fun x => by
        rw [List.mem_cons, mem_liveIds, hD.live]
        constructor
        · rintro (rfl | hx)
          · exact hD.was
          · exact hx.1
        · intro hx
          by_cases he : x = id
          · exact .inl he
          · exact .inr ⟨hx, fun e => he e.2⟩
    rw [hperm.length_eq, if_pos rfl, List.length_cons, BitVec.ofNat_add]
    exact BitVec.add_sub_cancel _ _
  · have hperm : (s'.liveIds gt).Perm (s.liveIds gt) :=
      perm_liveIds hD.valid (nodup_liveIds h.valid) fun x => by
        rw [hD.live, mem_liveIds]
        simp [hg]
    rw [hperm.length_eq, if_neg hg]
    exact BitVec.sub_zero _

/-- Deletions keep the counters right. -/
theorem deletions {changes : List Change} (h : s.Counted) (hD : s.Deletions changes s') :
    s'.Counted := by
  induction hD with
  | refl => exact h
  | relationship _ hD ih =>
      refine ih.deleted hD fun c gt => ?_
      cases gt
      · exact (BitVec.sub_zero _).symm
      · rfl
  | node _ hD ih =>
      refine ih.deleted hD fun c gt => ?_
      cases gt
      · rfl
      · exact (BitVec.sub_zero _).symm

/-- Records moved are counted as before. -/
theorem exchanged (h : s.Counted) (hE : s.Exchanged ft fst snd s') : s'.Counted := by
  refine @permuted s s' ft h hE.valid (Equiv.swap fst snd) (fun gt x => ?_) fun gt => ?_
  · rw [hE.live, exchange_eq_swap]
  · rw [hE.counters]
    cases gt <;> rfl

end Counted

/-- Creations keep the counters right. -/
theorem Counted.creations {fuel : ℕ} (cs : List Creation) : ∀ {s : Store}, s.Counted →
    ∀ {ids s'}, run (HF.creations 4096 fuel cs) s = .ok (ids, s') → s'.Counted := by
  induction cs with
  | nil =>
      intro s hc ids s' h
      cases h
      exact hc
  | cons c cs ih =>
      intro s hc ids s' h
      obtain ⟨id, s₁, h₁, h⟩ := Prog.run_bind_inv _ h
      obtain ⟨ids', s₂, h₂, h⟩ := Prog.run_bind_inv _ h
      cases h
      cases c with
      | node label => exact ih (hc.createNode h₁) h₂
      | relationship fromId toId weight label => exact ih (hc.createRelationship h₁) h₂

/-- What creations make of the empty store. -/
theorem counted_of_creations {fuel : ℕ} {cs : List Creation} {ids : List Ulong} {s : Store}
    (h : run (HF.creations 4096 fuel cs) empty = .ok (ids, s)) : s.Counted :=
  .creations cs .empty h

end Store

/-! ### Runs -/

/-- A call of one of the functions that create, delete or exchange records. -/
inductive Call where
  | createNode (label : Ulong)
  | createRelationship (fromId toId : Ulong) (weight : Double) (label : Ulong)
  | deleteNode (nodeId : Ulong)
  | deleteRelationship (relId : Ulong)
  | swapNodes (fst snd : Ulong)
  | swapRelationships (fst snd : Ulong)
  deriving DecidableEq, Repr

namespace HF

/-- The call, without the id that it returns. -/
def call (P fuel : ℕ) : Call → HF Unit
  | .createNode label => do
      let _ ← createNode P fuel label
      return ()
  | .createRelationship fromId toId weight label => do
      let _ ← createRelationship P fuel fromId toId weight label
      return ()
  | .deleteNode nodeId => deleteNode fuel nodeId
  | .deleteRelationship relId => deleteRelationship relId
  | .swapNodes fst snd => swapNodes P fuel fst snd
  | .swapRelationships fst snd => swapRelationships P fst snd

/-- One call after the other. -/
def calls (P fuel : ℕ) : List Call → HF Unit
  | [] => pure ()
  | c :: cs => do
      call P fuel c
      calls P fuel cs

/-- The call, with what it does to the records. -/
def changes (P fuel : ℕ) : Call → HF (List Change)
  | .createNode label => do
      let id ← createNode P fuel label
      return [.created .node id]
  | .createRelationship fromId toId weight label => do
      let id ← createRelationship P fuel fromId toId weight label
      return [.created .relationship id]
  | .deleteNode nodeId => do
      let ids ← deletedBy fuel nodeId
      return ids.map (.deleted .relationship) ++ [.deleted .node nodeId]
  | .deleteRelationship relId => do
      deleteRelationship relId
      return [.deleted .relationship relId]
  | .swapNodes fst snd => do
      swapNodes P fuel fst snd
      return [.exchanged .node fst snd]
  | .swapRelationships fst snd => do
      swapRelationships P fst snd
      return [.exchanged .relationship fst snd]

/-- One call after the other, with all that they do to the records. -/
def allChanges (P fuel : ℕ) : List Call → HF (List Change)
  | [] => pure []
  | c :: cs => do
      let first ← changes P fuel c
      let rest ← allChanges P fuel cs
      return first ++ rest

/-- It is the call that is made. -/
theorem changes_discard (P fuel : ℕ) (c : Call) :
    (changes P fuel c >>= fun _ => pure ()) = call P fuel c := by
  cases c with
  | createNode label => exact Prog.bind_assoc ..
  | createRelationship fromId toId weight label => exact Prog.bind_assoc ..
  | deleteNode nodeId => exact (Prog.bind_assoc ..).trans (deletedBy_discard fuel nodeId)
  | deleteRelationship relId => exact (Prog.bind_assoc ..).trans (bind_pure_unit _)
  | swapNodes fst snd => exact (Prog.bind_assoc ..).trans (bind_pure_unit _)
  | swapRelationships fst snd => exact (Prog.bind_assoc ..).trans (bind_pure_unit _)

/-- These are the calls that are made. -/
theorem allChanges_discard (P fuel : ℕ) (cs : List Call) :
    (allChanges P fuel cs >>= fun _ => pure ()) = calls P fuel cs := by
  induction cs with
  | nil => rfl
  | cons c cs ih =>
      rw [allChanges, calls, ← changes_discard, Prog.bind_assoc, Prog.bind_assoc]
      refine congrArg (changes P fuel c >>= ·) (funext fun first => ?_)
      rw [Prog.bind_assoc]
      exact ih

end HF

namespace Store

variable {s s' : Store} {ft : FileType} {id fst snd : Ulong} {on : FileType → Ulong → Bool} {fuel : ℕ}

/-- The slots in use are those where a record lives, and the counters count them. -/
structure Accounted (on : FileType → Ulong → Bool) (s : Store) : Prop extends s.Counted where
  live : ∀ ft x, s.Live ft x ↔ on ft x = true

namespace Accounted

theorem empty : Store.empty.Accounted (lives []) where
  toCounted := .empty
  live ft x := by
    simp only [lives, List.foldl_nil, Bool.false_eq_true, iff_false]
    exact not_live_empty ft x

theorem created {count : Counters → Counters} (h : s.Accounted on) (hC : Created s ft id count s')
    (hs : s'.Counted) : s'.Accounted (Change.on on (.created ft id)) where
  toCounted := hs
  live gt x := by
    rw [hC.live, h.live, Change.on]
    simp

theorem exchanged (h : s.Accounted on) (hE : s.Exchanged ft fst snd s') :
    s'.Accounted (Change.on on (.exchanged ft fst snd)) where
  toCounted := h.toCounted.exchanged hE
  live gt x := by rw [hE.live, h.live, Change.on]

theorem deletions {changes : List Change} (h : s.Accounted on) (hD : s.Deletions changes s') :
    s'.Accounted (changes.foldl Change.on on) := by
  have hdeleted : ∀ {changes : List Change} {s₁ s₂ : Store} {ft id count},
      s₁.Accounted (changes.foldl Change.on on) → Deleted s₁ ft id count s₂ →
      ∀ gt x, s₂.Live gt x ↔ (changes ++ [Change.deleted ft id]).foldl Change.on on gt x = true := by
    intro changes s₁ s₂ ft id count h hD gt x
    rw [hD.live, h.live, List.foldl_append, List.foldl_cons, List.foldl_nil, Change.on]
    simp [imp_iff_not_or]
  have hcounted := h.toCounted.deletions hD
  induction hD with
  | refl => exact h
  | relationship hDs hD ih => exact ⟨hcounted, hdeleted (ih (h.toCounted.deletions hDs)) hD⟩
  | node hDs hD ih => exact ⟨hcounted, hdeleted (ih (h.toCounted.deletions hDs)) hD⟩

/-- **One call** keeps the accounts. -/
theorem call (h : s.Accounted on) (c : Call) {changes : List Change}
    (hr : run (HF.changes 4096 fuel c) s = .ok (changes, s')) :
    s'.Accounted (changes.foldl Change.on on) := by
  have hv := h.valid
  cases c with
  | createNode label =>
      obtain ⟨id, s₁, h₁, hr⟩ := Prog.run_bind_inv _ hr
      cases hr
      exact h.created (createNode_created hv h₁) (h.toCounted.createNode h₁)
  | createRelationship fromId toId weight label =>
      obtain ⟨id, s₁, h₁, hr⟩ := Prog.run_bind_inv _ hr
      cases hr
      exact h.created (createRelationship_created hv h₁) (h.toCounted.createRelationship h₁)
  | deleteNode nodeId =>
      obtain ⟨ids, s₁, h₁, hr⟩ := Prog.run_bind_inv _ hr
      cases hr
      exact h.deletions (deletedBy_deletions hv h₁)
  | deleteRelationship relId =>
      obtain ⟨u, s₁, h₁, hr⟩ := Prog.run_bind_inv _ hr
      cases hr
      obtain ⟨label, hD⟩ := deleteRelationship_deleted hv h₁
      exact h.deletions (Deletions.refl.relationship hD)
  | swapNodes fst snd =>
      obtain ⟨u, s₁, h₁, hr⟩ := Prog.run_bind_inv _ hr
      cases hr
      exact h.exchanged (swapNodes_exchanged hv h₁)
  | swapRelationships fst snd =>
      obtain ⟨u, s₁, h₁, hr⟩ := Prog.run_bind_inv _ hr
      cases hr
      exact h.exchanged (swapRelationships_exchanged hv h₁)

/-- So does every run. -/
theorem calls (cs : List Call) : ∀ {on : FileType → Ulong → Bool} {s s' : Store}
    {changes : List Change}, s.Accounted on →
    run (HF.allChanges 4096 fuel cs) s = .ok (changes, s') →
    s'.Accounted (changes.foldl Change.on on) := by
  induction cs with
  | nil =>
      intro on s s' changes h hr
      cases hr
      exact h
  | cons c cs ih =>
      intro on s s' changes h hr
      obtain ⟨first, s₁, h₁, hr⟩ := Prog.run_bind_inv _ hr
      obtain ⟨rest, s₂, h₂, hr⟩ := Prog.run_bind_inv _ hr
      cases hr
      rw [List.foldl_append]
      exact ih (h.call c h₁) h₂

end Accounted

namespace Counted

/-- One call keeps the counters right. -/
theorem call (h : s.Counted) (c : Call) (hr : run (HF.call 4096 fuel c) s = .ok ((), s')) :
    s'.Counted := by
  classical
  rw [run, ← HF.changes_discard] at hr
  obtain ⟨changes, s₁, h₁, hr⟩ := Prog.run_bind_inv _ hr
  cases hr
  have hA : s.Accounted fun ft x => decide (s.Live ft x) := ⟨h, fun ft x => decide_eq_true_iff.symm⟩
  exact (hA.call c h₁).toCounted

/-- So does every run. -/
theorem calls (cs : List Call) : ∀ {s s' : Store}, s.Counted →
    run (HF.calls 4096 fuel cs) s = .ok ((), s') → s'.Counted := by
  induction cs with
  | nil =>
      intro s s' h hr
      cases hr
      exact h
  | cons c cs ih =>
      intro s s' h hr
      obtain ⟨u, s₁, h₁, h₂⟩ := Prog.run_bind_inv _ hr
      exact ih (h.call c h₁) h₂

end Counted

end Store

/-! ### The heap file -/

/-- The records are listed: each once, in ascending order of their ids, those that live. -/
structure Lists {α : Type} (idOf : α → Ulong) (lives : Ulong → Bool) (records : List α) : Prop where
  ascending : records.Pairwise fun a b => (idOf a).toNat < (idOf b).toNat
  mem : ∀ x, x ∈ records.map idOf ↔ lives x = true

namespace HeapFile

/-- The accounts of the slots are right.  `check_record_exists` finds the records that live, whatever
slot of the file it is asked for; `next_free_slots` hands out a slot where none lives; `get_nodes` and
`get_relationships` list the records that live, as they are stored, and there are `n_nodes` and
`n_rels` of them. -/
structure SlotsAccounted (hf : HeapFile PhyDatabase) (on : FileType → Ulong → Bool) : Prop where
  check : ∀ ft id, pageOf id < (hf.cache.records ft).numPages →
    ∃ hf', run (HF.checkRecordExists ft id) hf = .ok (on ft id, hf')
  fresh : ∀ ft fuel hf', run (HF.nextFreeSlots 4096 fuel ft) hf = .ok ((), hf') →
    on ft (hf'.counters.lastAlloc ft) = false
  nodes : ∀ fuel, (hf.cache.records .node).numPages * 256 < fuel →
    ∃ nodes hf', run (HF.getNodes 4096 fuel) hf = .ok (nodes, hf') ∧
      Lists Node.id (on .node) nodes ∧
      (∀ nd ∈ nodes, hf.graph.node nd.id = some nd) ∧ hf.counters.nNodes.toNat = nodes.length
  rels : ∀ fuel, (hf.cache.records .relationship).numPages * 256 < fuel →
    ∃ rels hf', run (HF.getRelationships 4096 fuel) hf = .ok (rels, hf') ∧
      Lists Relationship.id (on .relationship) rels ∧
      (∀ r ∈ rels, hf.graph.rel r.id = some r) ∧ hf.counters.nRels.toNat = rels.length

end HeapFile

namespace Store

variable {s : Store} {on : FileType → Ulong → Bool}

/-- The list that the scan returns, by the ids of its records. -/
theorem Accounted.lists (h : s.Accounted on) (ft : FileType) {α : Type} {rd : Ulong → α}
    {idOf : α → Ulong} (hid : ∀ x, idOf (rd x) = x) :
    Lists idOf (on ft) ((s.liveIds ft).map rd) where
  ascending := by
    rw [List.pairwise_map]
    simpa only [hid] using pairwise_liveIds h.valid
  mem x := by
    rw [List.map_map, show idOf ∘ rd = fun x => x from funext hid, List.map_id', mem_liveIds,
      h.live]

end Store

namespace HeapFile

variable {hf : HeapFile PhyDatabase} {on : FileType → Ulong → Bool}

theorem slotsAccounted_of (hg : hf.Good) (h : (Store.of hf).Accounted on) : hf.SlotsAccounted on where
  check ft id hp := by
    rw [pageOf_eq] at hp
    have hrun := Store.run_checkRecordExists (s := Store.of hf) h.valid hp
    have he : decide ((Store.of hf).Live ft id) = on ft id := by
      rw [Bool.eq_iff_iff, decide_eq_true_iff]
      exact h.live ft id
    rw [he] at hrun
    obtain ⟨hf', hrun', -⟩ := run_ok hg hrun
    exact ⟨hf', hrun'⟩
  fresh ft fuel hf' hrun := by
    obtain ⟨-, hrun'⟩ := run_inv hg hrun
    obtain ⟨o, -, hA⟩ := Store.nextFreeSlots_inv h.valid hrun'
    have hlast : hf'.counters.lastAlloc ft = o.getD ((Store.of hf).endId ft) := by
      have hc : hf'.counters = _ := hA.counters
      rw [hc]
      cases ft <;> rfl
    rw [hlast, ← Bool.not_eq_true]
    exact fun hlive => hA.fresh ((h.live _ _).mpr hlive)
  nodes fuel hfuel := by
    obtain ⟨hf', hrun, -⟩ := run_ok hg (Store.run_getNodes h.valid hfuel)
    refine ⟨_, hf', hrun, h.lists .node fun _ => rfl, fun nd hnd => ?_, ?_⟩
    · obtain ⟨x, hx, rfl⟩ := List.mem_map.mp hnd
      exact Store.node_eq_some.mpr ⟨Store.mem_liveIds.mp hx, rfl⟩
    · rw [List.length_map]
      exact h.toCounted.toNat_number .node
  rels fuel hfuel := by
    obtain ⟨hf', hrun, -⟩ := run_ok hg (Store.run_getRelationships h.valid hfuel)
    refine ⟨_, hf', hrun, h.lists .relationship fun _ => rfl, fun r hr => ?_, ?_⟩
    · obtain ⟨x, hx, rfl⟩ := List.mem_map.mp hr
      exact Store.rel_eq_some.mpr ⟨Store.mem_liveIds.mp hx, rfl⟩
    · rw [List.length_map]
      exact h.toCounted.toNat_number .relationship

/-- **The accounts of the slots are right after every run** of calls on a fresh database: the records that
live are those that the calls, by the ids that they returned, have created or moved there. -/
theorem calls_accounted {fuel : ℕ} {cs : List Call} {db : PhyDatabase}
    {hf₀ hf : HeapFile PhyDatabase} (hdb : PhyDatabase.create 4096 = .ok db)
    (hcreate : create 4096 fuel (PhyDatabase.flat 4096) db = .ok hf₀)
    (hrun : run (HF.calls 4096 fuel cs) hf₀ = .ok ((), hf)) :
    ∃ changes, run (HF.allChanges 4096 fuel cs) hf₀ = .ok (changes, hf) ∧
      hf.SlotsAccounted (lives changes) := by
  obtain ⟨hg₀, hs₀⟩ := create_inv hdb hcreate
  rw [run, ← HF.allChanges_discard] at hrun
  obtain ⟨changes, hf₁, hchanges, hrun⟩ := Prog.run_bind_inv _ hrun
  cases hrun
  obtain ⟨hg, hstore⟩ := run_inv hg₀ hchanges
  rw [hs₀] at hstore
  exact ⟨changes, hchanges, slotsAccounted_of hg (Store.Accounted.empty.calls cs hstore)⟩

/-- Records are created, exchanged and deleted; the second deletion takes a relationship along. -/
def mixed : List Call :=
  [.createNode 7#64, .createNode 8#64, .createRelationship 0#64 1#64 0#64 5#64,
    .createRelationship 1#64 1#64 0#64 6#64, .swapNodes 0#64 1#64, .swapRelationships 0#64 8#64,
    .deleteRelationship 4#64, .deleteNode 1#64]

theorem calls_accounted_mixed : ∃ db hf₀ hf, PhyDatabase.create 4096 = .ok db ∧
    create 4096 1000 (PhyDatabase.flat 4096) db = .ok hf₀ ∧
    run (HF.calls 4096 1000 mixed) hf₀ = .ok ((), hf) ∧
    hf.SlotsAccounted (lives [.created .node 0#64, .created .node 1#64,
      .created .relationship 0#64, .created .relationship 4#64, .exchanged .node 0#64 1#64,
      .exchanged .relationship 0#64 8#64, .deleted .relationship 4#64, .deleted .relationship 8#64,
      .deleted .node 1#64]) := by
  have h : Prog.check Store.step (HF.allChanges 4096 1000 mixed) Store.empty
      (fun changes _ => decide (changes = [.created .node 0#64, .created .node 1#64,
        .created .relationship 0#64, .created .relationship 4#64, .exchanged .node 0#64 1#64,
        .exchanged .relationship 0#64 8#64, .deleted .relationship 4#64, .deleted .relationship 8#64,
        .deleted .node 1#64])) = true := by
    decide +kernel
  obtain ⟨changes, s, hrun, hp⟩ := Prog.check_inv _ h
  obtain rfl := of_decide_eq_true hp
  obtain ⟨db, hf₀, hdb, hcreate⟩ := create_ok 999
  obtain ⟨hg₀, hs₀⟩ := create_inv hdb hcreate
  rw [← hs₀] at hrun
  obtain ⟨hf, hchanges, -, -⟩ := run_ok hg₀ hrun
  have hcalls : run (HF.calls 4096 1000 mixed) hf₀ = .ok ((), hf) := by
    rw [run, ← HF.allChanges_discard, Prog.run_bind_ok _ hchanges]
    rfl
  obtain ⟨changes, hchanges', haccounted⟩ := calls_accounted hdb hcreate hcalls
  cases hchanges'.symm.trans hchanges
  exact ⟨db, hf₀, hf, hdb, hcreate, hcalls, haccounted⟩

end HeapFile

end Goedb
