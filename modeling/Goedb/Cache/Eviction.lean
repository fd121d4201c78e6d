import Goedb.Cache.Transparency
import Mathlib.Data.List.Dedup

/-!
# Cache — which frames are evicted

Two properties of the runs of `pin_page` and `unpin_page`.

* The order.  Without bulk import the frames that were unpinned longest ago are evicted first
  (`evictsInOrder`).  `move_back` keeps this order unless the frame is at either end of the queue: the
  first one it does not move, and for the last one it moves the first.
* The availability.  A page can be pinned while there is a frame that is not pinned
  (`frameAvailable`).  Bulk import does not keep the queue, so this holds while bulk import is only
  ended when all frames that `evict` would have to find are in the queue.

Both leave a `pin_count` that overflows to zero aside.
-/

namespace Goedb

open Lib

namespace PageCache

/-- `UINT_MAX`. -/
def uintMax : Uint := 0xFFFFFFFF#32

/-- The frame holds a page that is not pinned. -/
def Evictable (pc : PageCache) (f : ℕ) : Prop :=
  (pc.frames f).key.isSome = true ∧ (pc.frames f).pinCount = 0

instance (pc : PageCache) : DecidablePred pc.Evictable := fun _ =>
  inferInstanceAs (Decidable (_ ∧ _))

/-- The pin does not overflow the frame's `pin_count`. -/
def Counts (pc : PageCache) (k : PageKey) : Prop :=
  ((pc.pageMap k).all fun f => (pc.frames f).pinCount ≠ uintMax) = true

instance (pc : PageCache) (k : PageKey) : Decidable (pc.Counts k) :=
  inferInstanceAs (Decidable (_ = _))

variable {P : ℕ} {pc pc' : PageCache} {free queue : List ℕ} {k : PageKey} {f : ℕ}

theorem Counts.pinCount_ne (h : pc.Counts k) (hk : pc.pageMap k = some f) :
    (pc.frames f).pinCount + 1 ≠ 0 := by
  rw [Counts, hk] at h
  have hne : (pc.frames f).pinCount ≠ uintMax := by simpa using h
  intro e
  refine hne ?_
  rw [uintMax]
  generalize (pc.frames f).pinCount = c at e
  bv_omega

/-- All frames that `evict` may take are in the queue. -/
def Queued (pc : PageCache) (queue : List ℕ) : Prop :=
  ∀ k f, pc.pageMap k = some f → (pc.frames f).pinCount = 0 → f ∈ queue

/-- `pin_page` keeps the frames in the queue, but for those it evicts and the one it pins. -/
theorem Queued.pinPage (h : pc.Inv P free queue) (hq : pc.Queued queue) (hc : pc.Counts k)
    (hb : pc.bulkImport = false) (hp : pc.pinPage P k = .ok (f, pc')) :
    ∃ free' queue', pc'.Inv P free' queue' ∧ pc'.Queued queue' ∧ queue'.Sublist queue ∧
      pc'.bulkImport = false ∧ pc'.nFrames = pc.nFrames := by
  rcases pinPage_inv h hp with ⟨hk, rfl⟩ | ⟨hk, rest, -, hI, hL⟩
  · refine ⟨free, queue, h.setFrame hk (h.mapped k f hk).2.2 (h.clean k f hk), ?_, .refl queue, hb,
      rfl⟩
    intro k' g hk' hpin
    simp only [setFrame, Function.update_apply] at hpin
    split at hpin
    · exact absurd hpin (hc.pinCount_ne hk)
    · exact hq k' g hk' hpin
  · have hqa : pc.queueAfter free queue = queue.filter fun f => f ∉ pc.victims free queue := by
      rw [queueAfter, if_neg (by simp [hb])]
    refine ⟨rest, _, hI, ?_, ?_, hL.bulkImport.trans hb, hL.nFrames⟩
    · intro k' g hk' hpin
      have hgf : g ≠ f := by
        rintro rfl
        rw [hL.frame] at hpin
        cases hpin
      rw [hL.pinCount g hgf] at hpin
      rw [hL.pageMap] at hk'
      split at hk'
      · exact absurd (Option.some.inj hk').symm hgf
      · rw [Option.filter_eq_some_iff] at hk'
        rw [hqa, List.mem_filter]
        exact ⟨hq k' g hk'.1 hpin, hk'.2⟩
    · rw [hqa]
      exact List.filter_sublist

/-- `unpin_page` puts the frame into the queue. -/
theorem Queued.unpinPage {queue' : List ℕ} (hq : pc.Queued queue) (hU : pc.Unpinned f pc')
    (hm : ∀ g, g ∈ queue' ↔ g ∈ queue ∨ g = f) : pc'.Queued queue' := by
  intro k g hk hpin
  rw [hU.pageMap] at hk
  rw [hU.frames] at hpin
  rw [hm]
  split at hpin
  · rename_i e
    exact .inr e
  · exact .inl (hq k g hk hpin)

/-! ### The order -/

/-- The frames that were unpinned, with the one that a step unpins. -/
def recorded (pc : PageCache) (step : CacheStep) (history : List ℕ) : List ℕ :=
  match step with
  | .unpinPage k => history ++ (pc.pageMap k).toList
  | _ => history

/-- The frames that the steps unpin, in this order. -/
def history (P : ℕ) (steps : List CacheStep) (pc : PageCache) : List ℕ :=
  ghost (exec P) recorded steps pc []

/-- Of the frames that can be evicted the ones to evict: those whose last occurrence in the history
is furthest in the past, in this order.  `dedup` keeps the last occurrences. -/
def leastRecent (pc : PageCache) (history : List ℕ) : List ℕ :=
  (history.dedup.filter fun f => decide (pc.Evictable f)).take evictLruK

/-- Whenever a page is pinned after the steps and frames have to be evicted for it, these are the
`leastRecent` ones, and as many as there are up to `EVICT_LRU_K`. -/
def EvictsInOrder (P : ℕ) (db : PhyDatabase) (nFrames : ℕ) (steps : List CacheStep) : Prop :=
  ∀ pc pc', create db nFrames = .ok pc → runSteps (exec P) steps pc = .ok pc' →
    ∀ k f pc'', pc'.pageMap k = none → pc'.freeFrames.toList = [] →
      pc'.pinPage P k = .ok (f, pc'') →
      f :: pc''.freeFrames.toList = pc'.leastRecent (history P steps pc) ∧
      (∀ k', k' ≠ k → pc''.pageMap k' =
        (pc'.pageMap k').filter fun g => g ∉ pc'.leastRecent (history P steps pc)) ∧
      (pc'.leastRecent (history P steps pc)).length =
        min evictLruK ((List.range nFrames).filter fun g => decide (pc'.Evictable g)).length

/-- A pin, or an unpin of a frame that is not at either end of the queue, unless it is alone. -/
def KeepsOrder (pc : PageCache) : CacheStep → Prop
  | .pinPage k => pc.Counts k
  | .unpinPage k => pc.recentlyReferenced.len ≤ 1 ∨
      pc.recentlyReferenced.toList.head? ≠ pc.pageMap k ∧
      pc.recentlyReferenced.toList.getLast? ≠ pc.pageMap k
  | _ => False

instance (pc : PageCache) : ∀ step, Decidable (pc.KeepsOrder step)
  | .pinPage _ => inferInstanceAs (Decidable (pc.Counts _))
  | .unpinPage _ => inferInstanceAs (Decidable (_ ∨ _ ∧ _))
  | .write _ _ | .newPage _ | .flushAllPages | .changeNFrames _ | .setBulkImport _ =>
      isFalse not_false

/-- The last occurrences after one more element. -/
theorem dedup_concat (h : List ℕ) (f : ℕ) :
    (h ++ [f]).dedup = (h.dedup.filter fun g => g ≠ f) ++ [f] := by
  induction h with
  | nil => rfl
  | cons a h ih =>
      by_cases ha : a ∈ h
      · rw [List.cons_append, List.dedup_cons_of_mem (List.mem_append_left _ ha), ih,
          List.dedup_cons_of_mem ha]
      · rw [List.dedup_cons_of_notMem ha]
        by_cases haf : a = f
        · rw [List.cons_append, List.dedup_cons_of_mem (by simp [haf]), ih,
            List.filter_cons_of_neg (by simp [haf])]
        · rw [List.cons_append, List.dedup_cons_of_notMem (by simp [ha, haf]), ih,
            List.filter_cons_of_pos (by simp [haf])]
          rfl

/-- Away from the ends of the queue `move_back` moves a frame to the back. -/
theorem moved_sublist {h : List ℕ} (hq : queue.Sublist h.dedup)
    (hf : queue.length ≤ 1 ∨ queue.head? ≠ some f ∧ queue.getLast? ≠ some f) :
    (LinkedList.moved queue f).Sublist (h ++ [f]).dedup := by
  have hd : queue.Nodup := hq.nodup (List.nodup_dedup h)
  have hmoved : LinkedList.moved queue f = (queue.filter fun g => g ≠ f) ++ [f] := by
    rw [LinkedList.moved]
    by_cases hm : f ∈ queue
    · rw [if_neg (not_not.mpr hm)]
      rcases hf with hlen | ⟨hhead, hlast⟩
      · obtain ⟨g, rfl⟩ : ∃ g, queue = [g] := List.length_eq_one_iff.mp
          (Nat.le_antisymm hlen (List.length_pos_of_mem hm))
        rw [List.mem_singleton.mp hm]
        simp
      · rw [if_neg hhead, if_neg hlast, hd.erase_eq_filter]
        refine congrArg (· ++ [f]) (List.filter_congr fun g _ => ?_)
        by_cases e : g = f <;> simp [e]
    · rw [if_pos hm, List.filter_eq_self.mpr]
      intro g hg
      have : g ≠ f := by
        rintro rfl
        exact hm hg
      simp [this]
  rw [hmoved, dedup_concat]
  exact (hq.filter _).append (.refl [f])

/-- The queue has the frames that can be evicted, in the order of the history. -/
structure Ordered (P : ℕ) (nFrames : ℕ) (history : List ℕ) (pc : PageCache) (free queue : List ℕ) :
    Prop where
  inv : pc.Inv P free queue
  queued : pc.Queued queue
  sublist : queue.Sublist history.dedup
  history_lt : ∀ f ∈ history, f < nFrames
  bulkImport : pc.bulkImport = false
  nFrames : pc.nFrames = nFrames

/-- **One step** keeps the order. -/
theorem Ordered.exec {n : ℕ} {h : List ℕ} {step : CacheStep} (ho : Ordered P n h pc free queue)
    (hs : pc.KeepsOrder step) (he : PageCache.exec P step pc = .ok pc') :
    ∃ free' queue', Ordered P n (pc.recorded step h) pc' free' queue' := by
  cases step with
  | pinPage k =>
      obtain ⟨⟨f, pc₁⟩, hp, he⟩ := bind_inv he
      cases he
      obtain ⟨free', queue', hI, hq, hsub, hb, hn⟩ :=
        ho.queued.pinPage ho.inv hs ho.bulkImport hp
      exact ⟨free', queue', hI, hq, hsub.trans ho.sublist, ho.history_lt, hb, hn.trans ho.nFrames⟩
  | unpinPage k =>
      obtain ⟨f, hk, hpin⟩ := unpinPage_inv he
      have hends : queue.length ≤ 1 ∨ queue.head? ≠ some f ∧ queue.getLast? ≠ some f := by
        rw [← ho.inv.queue_rep.len_eq, ← ho.inv.queue_rep.toList_eq, ← hk]
        exact hs
      obtain ⟨pc₁, h₁, hI, hU, -⟩ := unpinPage_ok ho.inv hk hpin fun _ hlast hlen => by
        rcases hends with hle | ⟨-, hne⟩
        · omega
        · exact absurd hlast hne
      rw [PageCache.exec, h₁] at he
      cases he
      rw [queueUnpinned, if_neg (by simp [ho.bulkImport])] at hI
      rw [recorded, hk]
      refine ⟨free, _, hI, ho.queued.unpinPage hU fun g => LinkedList.mem_moved,
        moved_sublist ho.sublist hends, fun g hg => ?_, hU.bulkImport.trans ho.bulkImport,
        hU.nFrames.trans ho.nFrames⟩
      rcases List.mem_append.mp hg with hg | hg
      · exact ho.history_lt g hg
      · rw [List.mem_singleton.mp hg, ← ho.nFrames]
        exact (ho.inv.mapped k f hk).1
  | write k g => exact hs.elim
  | newPage ft => exact hs.elim
  | flushAllPages => exact hs.elim
  | changeNFrames n => exact hs.elim
  | setBulkImport b => exact hs.elim

/-- With no free frame, a frame can be evicted if it is in the queue and not pinned. -/
theorem Ordered.evictable_iff {n : ℕ} {h : List ℕ} (ho : Ordered P n h pc [] queue) (hf : f < n) :
    pc.Evictable f ↔ f ∈ pc.unpinned queue := by
  obtain ⟨k, hk⟩ := ho.inv.used_frame f (ho.nFrames ▸ hf) List.not_mem_nil
  have hkey := (ho.inv.mapped k f hk).2.2
  rw [mem_unpinned, Evictable, hkey]
  exact ⟨fun he => ⟨ho.queued k f hk he.2, he.2⟩, fun he => ⟨rfl, he.2⟩⟩

/-- With no free frame, the frames of the queue that are not pinned are the ones that can be evicted,
in the order of the history. -/
theorem Ordered.unpinned_eq {n : ℕ} {h : List ℕ} (ho : Ordered P n h pc [] queue) :
    pc.unpinned queue = h.dedup.filter fun f => decide (pc.Evictable f) := by
  have hlt : ∀ f ∈ queue, f < n := fun f hf => ho.nFrames ▸ ho.inv.queue_lt f hf
  have hfilter : pc.unpinned queue = queue.filter fun f => decide (pc.Evictable f) := by
    refine List.filter_congr fun f hf => decide_eq_decide.mpr ?_
    rw [ho.evictable_iff (hlt f hf), mem_unpinned]
    exact ⟨fun hp => ⟨hf, hp⟩, fun hp => hp.2⟩
  rw [hfilter]
  refine (ho.sublist.filter _).eq_of_length_le (List.Subperm.length_le ?_)
  refine List.Nodup.subperm ((List.nodup_dedup h).filter _) fun f hf => ?_
  rw [List.mem_filter, List.mem_dedup] at hf
  have hu := (ho.evictable_iff (ho.history_lt f hf.1)).mp (of_decide_eq_true hf.2)
  rw [List.mem_filter]
  exact ⟨(mem_unpinned.mp hu).1, hf.2⟩

theorem Ordered.count_eq {n : ℕ} {h : List ℕ} (ho : Ordered P n h pc [] queue) :
    (pc.unpinned queue).length = ((List.range n).filter fun g => decide (pc.Evictable g)).length := by
  refine List.Perm.length_eq ((List.perm_ext_iff_of_nodup (ho.inv.queue_nodup.filter _)
    (List.nodup_range.filter _)).mpr fun f => ?_)
  show f ∈ pc.unpinned queue ↔ _
  rw [List.mem_filter, List.mem_range, decide_eq_true_iff]
  constructor
  · intro hf
    have hlt : f < n := ho.nFrames ▸ ho.inv.queue_lt f (mem_unpinned.mp hf).1
    exact ⟨hlt, (ho.evictable_iff hlt).mpr hf⟩
  · rintro ⟨hlt, he⟩
    exact (ho.evictable_iff hlt).mp he

/-- **The order of eviction**, for pins and for unpins away from the ends of the queue. -/
theorem evictsInOrder {db : PhyDatabase} {n : ℕ} {steps : List CacheStep}
    (hs : ∀ pc, create db n = .ok pc → Along (exec P) KeepsOrder steps pc) :
    EvictsInOrder P db n steps := by
  intro pc pc' hc hr k f pc'' hk hfree hp
  have hstart : ∃ free queue, Ordered P n [] pc free queue := by
    obtain ⟨pc₁, h₁, hI, -, hn₁, hb₁, hmap, -, -⟩ := emptyFrames_ok P db n false
    rw [create, h₁] at hc
    cases hc
    refine ⟨_, _, hI, fun k f hk => ?_, .refl _, fun f hf => absurd hf List.not_mem_nil, hb₁, hn₁⟩
    rw [hmap] at hk
    cases hk
  have hstep : ∀ h pc step pc', (∃ free queue, Ordered P n h pc free queue) → pc.KeepsOrder step →
      exec P step pc = .ok pc' → ∃ free queue, Ordered P n (pc.recorded step h) pc' free queue := by
    rintro h pc step pc' ⟨free, queue, ho⟩ hs he
    exact ho.exec hs he
  obtain ⟨free, queue, ho⟩ := (run_invariant recorded (E := fun _ => True) hstep
    (fun _ _ _ _ _ _ _ => trivial) steps [] hstart (hs pc hc)).1 pc' hr
  obtain rfl : free = [] := ho.inv.free_rep.toList_eq.symm.trans hfree
  have hvictims : pc'.victims [] queue = pc'.leastRecent (history P steps pc) := by
    rw [victims, if_neg (not_not.mpr rfl), if_neg (by simp [ho.bulkImport]), ho.unpinned_eq]
    rfl
  rcases pinPage_inv ho.inv hp with ⟨hk', -⟩ | ⟨-, rest, hroom, hI, hL⟩
  · rw [hk] at hk'
    cases hk'
  · rw [List.nil_append, hvictims] at hroom
    rw [hvictims] at hL
    refine ⟨?_, fun k' hne => ?_, ?_⟩
    · rw [hI.free_rep.toList_eq, hroom]
    · rw [hL.pageMap, if_neg hne]
    · rw [leastRecent, List.length_take, ← ho.count_eq, ho.unpinned_eq]
      rfl

/-- The header page of a file type. -/
def headerPage (ft : FileType) : PageKey := ⟨.header, ft, 0⟩

/-- The catalogue's page. -/
def cataloguePage : PageKey := ⟨.catalogue, .node, 0⟩

theorem evictsInOrder_two :
    EvictsInOrder 4096 (.fresh 4096) 2 [.pinPage (headerPage .node),
      .pinPage (headerPage .relationship), .unpinPage (headerPage .node),
      .unpinPage (headerPage .relationship)] :=
  evictsInOrder (by decide +kernel)

/-- Two pages are unpinned, then the first one is pinned and unpinned again. -/
def unpinsFirst : List CacheStep :=
  [.pinPage (headerPage .node), .pinPage (headerPage .relationship), .unpinPage (headerPage .node),
    .unpinPage (headerPage .relationship), .pinPage (headerPage .node),
    .unpinPage (headerPage .node)]

/-- The frame that was unpinned last is evicted first: it was the first of the queue. -/
theorem unpinsFirst_not_inOrder : ¬ EvictsInOrder 4096 (.fresh 4096) 2 unpinsFirst := by
  intro h
  have hfirst : (create (.fresh 4096) 2 >>= fun pc => runSteps (exec 4096) unpinsFirst pc >>= fun pc' =>
      pc'.pinPage 4096 cataloguePage >>= fun r => pure (decide (pc'.pageMap cataloguePage = none ∧
        pc'.freeFrames.toList = [] ∧
        r.1 :: r.2.freeFrames.toList ≠ pc'.leastRecent (history 4096 unpinsFirst pc)))) =
      .ok true := by
    decide +kernel
  obtain ⟨pc, hc, hfirst⟩ := bind_inv hfirst
  obtain ⟨pc', hr, hfirst⟩ := bind_inv hfirst
  obtain ⟨⟨f, pc''⟩, hp, hfirst⟩ := bind_inv hfirst
  obtain ⟨hk, hfree, hne⟩ := of_decide_eq_true (Except.ok.inj hfirst)
  exact hne (h pc pc' hc hr cataloguePage f pc'' hk hfree hp).1

/-! ### The availability -/

/-- A page that exists can be pinned after the steps while there is a frame that is not pinned. -/
def FrameAvailable (P : ℕ) (db : PhyDatabase) (nFrames : ℕ) (steps : List CacheStep) : Prop :=
  ∀ pc pc', create db nFrames = .ok pc → runSteps (exec P) steps pc = .ok pc' →
    ∀ k, (k.fk = .catalogue → k.ft = .node) → pc'.pdb.InFile k → k.pageNo < maxPageNo P →
      (∃ f < nFrames, (pc'.frames f).pinCount = 0) → ∃ r, pc'.pinPage P k = .ok r

/-- A pin; a safe unpin; bulk import switched on, or off when all frames that can be evicted are in
the queue. -/
def KeepsAvailable (pc : PageCache) : CacheStep → Prop
  | .pinPage k => pc.Counts k
  | .unpinPage k => pc.Safe (.unpinPage k)
  | .setBulkImport b => b = false →
      ∀ f < pc.nFrames, pc.Evictable f → f ∈ pc.recentlyReferenced.toList
  | _ => False

instance (pc : PageCache) : ∀ step, Decidable (pc.KeepsAvailable step)
  | .pinPage _ => inferInstanceAs (Decidable (pc.Counts _))
  | .unpinPage k => inferInstanceAs (Decidable (pc.Safe (.unpinPage k)))
  | .setBulkImport _ => inferInstanceAs (Decidable (_ → _))
  | .write _ _ | .newPage _ | .flushAllPages | .changeNFrames _ => isFalse not_false

/-- Without bulk import the queue has all frames that can be evicted. -/
structure Available (P : ℕ) (nFrames : ℕ) (pc : PageCache) (free queue : List ℕ) : Prop where
  inv : pc.Inv P free queue
  queued : pc.bulkImport = false → pc.Queued queue
  nFrames : pc.nFrames = nFrames

/-- **One step** keeps the frames available. -/
theorem Available.exec {n : ℕ} {step : CacheStep} (ha : Available P n pc free queue)
    (hs : pc.KeepsAvailable step) (he : PageCache.exec P step pc = .ok pc') :
    ∃ free' queue', Available P n pc' free' queue' := by
  cases step with
  | pinPage k =>
      obtain ⟨⟨f, pc₁⟩, hp, he⟩ := bind_inv he
      cases he
      cases hb : pc.bulkImport with
      | false =>
          obtain ⟨free', queue', hI, hq, -, -, hn⟩ := (ha.queued hb).pinPage ha.inv hs hb hp
          exact ⟨free', queue', hI, fun _ => hq, hn.trans ha.nFrames⟩
      | true =>
          rcases pinPage_inv ha.inv hp with ⟨hk, rfl⟩ | ⟨-, rest, -, hI, hL⟩
          · refine ⟨free, queue, ha.inv.setFrame hk (ha.inv.mapped k f hk).2.2
              (ha.inv.clean k f hk), fun e => ?_, ha.nFrames⟩
            rw [show (pc.setFrame f _).bulkImport = true from hb] at e
            cases e
          · refine ⟨rest, _, hI, fun e => ?_, hL.nFrames.trans ha.nFrames⟩
            rw [hL.bulkImport, hb] at e
            cases e
  | unpinPage k =>
      obtain ⟨f, hk, hpin⟩ := unpinPage_inv he
      obtain ⟨pc₁, h₁, hI, hU, -⟩ := unpinPage_ok ha.inv hk hpin fun hb hlast hlen =>
        hs hb (ha.inv.queue_rep.len_eq ▸ hlen) (by rw [ha.inv.queue_rep.toList_eq, hlast, hk])
      rw [PageCache.exec, h₁] at he
      cases he
      refine ⟨free, _, hI, fun e => ?_, hU.nFrames.trans ha.nFrames⟩
      rw [hU.bulkImport] at e
      rw [queueUnpinned, if_neg (by simp [e])]
      exact (ha.queued e).unpinPage hU fun g => LinkedList.mem_moved
  | setBulkImport b =>
      cases he
      refine ⟨free, queue, ?_, fun e k f hk hpin => ?_, ha.nFrames⟩
      · exact ⟨ha.inv.free_rep, ha.inv.queue_rep, ha.inv.free_nodup, ha.inv.queue_nodup,
          ha.inv.queue_lt, ha.inv.free_frame, ha.inv.used_frame, ha.inv.mapped, ha.inv.in_file,
          ha.inv.clean⟩
      · obtain ⟨hf, -, hkey⟩ := ha.inv.mapped k f hk
        rw [← ha.inv.queue_rep.toList_eq]
        exact hs e f hf ⟨by rw [hkey]; rfl, hpin⟩
  | write k g => exact hs.elim
  | newPage ft => exact hs.elim
  | flushAllPages => exact hs.elim
  | changeNFrames n => exact hs.elim

/-- A frame that is not pinned is free, or among the victims. -/
theorem Available.room {n : ℕ} (ha : Available P n pc free queue) (hf : f < n)
    (hpin : (pc.frames f).pinCount = 0) : free ++ pc.victims free queue ≠ [] := by
  intro e
  obtain ⟨rfl, hv⟩ := List.append_eq_nil_iff.mp e
  rw [← ha.nFrames] at hf
  rw [victims, if_neg (not_not.mpr rfl)] at hv
  cases hb : pc.bulkImport with
  | true =>
      rw [if_pos hb] at hv
      have hm : f ∈ pc.unpinned (List.range pc.nFrames) :=
        mem_unpinned.mpr ⟨List.mem_range.mpr hf, hpin⟩
      rw [hv] at hm
      cases hm
  | false =>
      rw [if_neg (by simp [hb]), List.take_eq_nil_iff] at hv
      obtain ⟨k, hk⟩ := ha.inv.used_frame f hf List.not_mem_nil
      have hm : f ∈ pc.unpinned queue := mem_unpinned.mpr ⟨ha.queued hb k f hk hpin, hpin⟩
      rw [hv.resolve_left (by decide)] at hm
      cases hm

/-- **A frame is available** after pins, unpins and switches of bulk import that leave no frame
behind. -/
theorem frameAvailable {db : PhyDatabase} {n : ℕ} {steps : List CacheStep}
    (hs : ∀ pc, create db n = .ok pc → Along (exec P) KeepsAvailable steps pc) :
    FrameAvailable P db n steps := by
  intro pc pc' hc hr k hcat hin hmax ⟨f, hf, hpin⟩
  have hstart : ∃ free queue, Available P n pc free queue := by
    obtain ⟨pc₁, h₁, hI, -, hn₁, -, hmap, -, -⟩ := emptyFrames_ok P db n false
    rw [create, h₁] at hc
    cases hc
    refine ⟨_, _, hI, fun _ k f hk => ?_, hn₁⟩
    rw [hmap] at hk
    cases hk
  have hstep : ∀ (_ : Unit) pc step pc', (∃ free queue, Available P n pc free queue) →
      pc.KeepsAvailable step → exec P step pc = .ok pc' →
      ∃ free queue, Available P n pc' free queue := by
    rintro - pc step pc' ⟨free, queue, ha⟩ hs he
    exact ha.exec hs he
  obtain ⟨free, queue, ha⟩ := (run_invariant (fun _ _ g => g) (E := fun _ => True) hstep
    (fun _ _ _ _ _ _ _ => trivial) steps () hstart (hs pc hc)).1 pc' hr
  have hcat' : ¬ (k.fk = .catalogue ∧ k.ft ≠ .node) := fun h => h.2 (hcat h.1)
  cases hk : pc'.pageMap k with
  | some g => exact ⟨_, pinPage_hit ha.inv hcat' hk⟩
  | none =>
      obtain ⟨g, rest, hroom⟩ := List.exists_cons_of_ne_nil (ha.room hf hpin)
      obtain ⟨pc'', hp, -⟩ := pinPage_miss ha.inv hcat' hin hmax hk hroom
      exact ⟨_, hp⟩

theorem frameAvailable_one :
    FrameAvailable 4096 (.fresh 4096) 1 [.setBulkImport true, .pinPage (headerPage .node),
      .unpinPage (headerPage .node), .pinPage (headerPage .relationship), .setBulkImport false,
      .unpinPage (headerPage .relationship)] :=
  frameAvailable (by decide +kernel)

/-- A page is pinned and unpinned during a bulk import. -/
def bulkImports : List CacheStep :=
  [.setBulkImport true, .pinPage (headerPage .node), .unpinPage (headerPage .node),
    .setBulkImport false]

/-- The only frame is not pinned and not in the queue: no page to evict is found. -/
theorem bulkImports_not_available :
    ∃ pc pc', create (.fresh 4096) 1 = .ok pc ∧ runSteps (exec 4096) bulkImports pc = .ok pc' ∧
      pc'.pdb.InFile (headerPage .relationship) ∧ (pc'.frames 0).pinCount = 0 ∧
      pc'.pinPage 4096 (headerPage .relationship) = .error (.exit
        "page cache - evict: could not find a page to evict, as all pages are pinned!") := by
  have hlast : (create (.fresh 4096) 1 >>= fun pc => runSteps (exec 4096) bulkImports pc >>= fun pc' =>
      pure (decide (pc'.pdb.InFile (headerPage .relationship) ∧ (pc'.frames 0).pinCount = 0 ∧
        fault? (pc'.pinPage 4096 (headerPage .relationship)) = some (.exit
          "page cache - evict: could not find a page to evict, as all pages are pinned!")))) =
      .ok true := by
    decide +kernel
  obtain ⟨pc, hc, hlast⟩ := bind_inv hlast
  obtain ⟨pc', hr, hlast⟩ := bind_inv hlast
  obtain ⟨hin, hpin, hfault⟩ := of_decide_eq_true (Except.ok.inj hlast)
  exact ⟨pc, pc', hc, hr, hin, hpin, fault?_eq_some.mp hfault⟩

end PageCache

end Goedb
