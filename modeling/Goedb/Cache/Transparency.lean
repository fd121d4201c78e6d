import Goedb.Cache.Frames
import Goedb.Io.Accounting
import Goedb.Lib.Steps

/-!
# Cache — transparency

What a client of the page cache does is a list of steps (`CacheStep`).  A write is any change of the
bytes of a pinned page; `write_ulong`, `write_uchar`, `write_double` and each page's part of
`write_bits` are such changes, and a `write_bits` that leaves its page also pins and unpins the page
it goes on at.

Seen through the cache the pages are a flat array, `memory`, that only writes change.  That is so in
every run in which no `unpin_page` moves the last frame of the queue while the ring of its nodes is
not closed (`Safe`): there `move_back` makes a node the last one whose link leads to a node that was
freed.
-/

namespace Goedb

open Lib

/-- A step of a client of the page cache. -/
inductive CacheStep where
  | pinPage (k : PageKey)
  | unpinPage (k : PageKey)
  /-- The bytes of a pinned page are changed. -/
  | write (k : PageKey) (f : PageData → PageData)
  | newPage (ft : FileType)
  | flushAllPages
  | changeNFrames (nFrames : ℕ)
  /-- `pc->bulk_import = b`. -/
  | setBulkImport (b : Bool)

/-- The pages of a database; beyond the end of a file they are zeros. -/
def PhyDatabase.pages (db : PhyDatabase) (k : PageKey) : PageData :=
  (db.file k.fk k.ft).page k.pageNo

/-- What a step does to a flat array of pages. -/
def CacheStep.effect : CacheStep → (PageKey → PageData) → PageKey → PageData
  | .write k f, mem => Function.update mem k (f (mem k))
  | _, mem => mem

/-- The flat array of pages after some steps. -/
def memory (steps : List CacheStep) (mem : PageKey → PageData) : PageKey → PageData :=
  steps.foldl (fun mem step => step.effect mem) mem

namespace PageCache

/-- Bytes of a page in a frame are changed, as `write_ulong`, `write_uchar` and `write_double` do; the
text of each names its type.  A page in no frame is not pinned: there is no pointer to it. -/
def write (pc : PageCache) (k : PageKey) (f : PageData → PageData) : Except Fault PageCache :=
  match pc.pageMap k with
  | none => .error (.exit "page - write: Invalid arguments!")
  | some frame =>
      let page := pc.frames frame
      .ok (pc.setFrame frame { page with dirty := true, data := f page.data })

/-- What a step does to the page cache. -/
def exec (P : ℕ) : CacheStep → PageCache → Except Fault PageCache
  | .pinPage k, pc => do
      let (_, pc) ← pc.pinPage P k
      return pc
  | .unpinPage k, pc => pc.unpinPage P k
  | .write k f, pc => pc.write k f
  | .newPage ft, pc => do
      let (_, pc) ← pc.newPage P ft
      return pc
  | .flushAllPages, pc => pc.flushAllPages P
  | .changeNFrames n, pc => pc.changeNFrames P n
  | .setBulkImport b, pc => .ok { pc with bulkImport := b }

/-- The step does not turn a ring that is not closed, and leaves the cache at least one frame. -/
def Safe (pc : PageCache) : CacheStep → Prop
  | .unpinPage k => pc.bulkImport = false → 2 ≤ pc.recentlyReferenced.len →
      pc.recentlyReferenced.toList.getLast? = pc.pageMap k → pc.recentlyReferenced.Closed
  | .changeNFrames n => 1 ≤ n
  | _ => True

instance (pc : PageCache) : ∀ step, Decidable (pc.Safe step)
  | .unpinPage _ => inferInstanceAs (Decidable (_ → _ → _ → _))
  | .changeNFrames _ => inferInstanceAs (Decidable (_ ≤ _))
  | .pinPage _ | .write _ _ | .newPage _ | .flushAllPages | .setBulkImport _ => isTrue trivial

/-- A page is in at most one frame; a frame is in the list of free frames, once, or the page map leads
to it from one page, the one it says it holds. -/
structure Consistent (pc : PageCache) : Prop where
  free_nodup : pc.freeFrames.toList.Nodup
  free_lt : ∀ f ∈ pc.freeFrames.toList, f < pc.nFrames
  mapped : ∀ k f, pc.pageMap k = some f → f < pc.nFrames ∧ (pc.frames f).key = some k
  one_frame : ∀ k f g, f < pc.nFrames → g < pc.nFrames → (pc.frames f).key = some k →
    (pc.frames g).key = some k → f = g
  free_or_mapped : ∀ f < pc.nFrames, (f ∈ pc.freeFrames.toList ∧ ∀ k, pc.pageMap k ≠ some f) ∨
    f ∉ pc.freeFrames.toList ∧ ∃! k, pc.pageMap k = some f

/-- **Transparency** of a run over the pages of `db` in `nFrames` frames: it has a meaning, and where
it does not exit a page that is then pinned has the bytes of the flat array. -/
def Transparent (P : ℕ) (db : PhyDatabase) (nFrames : ℕ) (steps : List CacheStep) : Prop :=
  ∀ pc, create db nFrames = .ok pc →
    Exits (runSteps (exec P) steps pc) ∧
    ∀ pc', runSteps (exec P) steps pc = .ok pc' → pc'.Consistent ∧
      ∀ k f pc'', k.fk ≠ .catalogue → pc'.pinPage P k = .ok (f, pc'') →
        (pc''.frames f).data = memory steps db.pages k

variable {P : ℕ} {pc pc' : PageCache} {free queue : List ℕ} {k : PageKey} {f : ℕ}

theorem Inv.consistent (h : pc.Inv P free queue) : pc.Consistent := by
  have hfree := h.free_rep.toList_eq
  have hkey : ∀ k f, f < pc.nFrames → (pc.frames f).key = some k → pc.pageMap k = some f := by
    intro k f hf hk
    by_cases hm : f ∈ free
    · rw [(h.free_frame f hm).2.1] at hk
      cases hk
    · obtain ⟨k', hk'⟩ := h.used_frame f hf hm
      rw [(h.mapped k' f hk').2.2] at hk
      rwa [← Option.some.inj hk]
  refine ⟨hfree ▸ h.free_nodup, fun f hf => (h.free_frame f (hfree ▸ hf)).1, fun k f hk =>
    ⟨(h.mapped k f hk).1, (h.mapped k f hk).2.2⟩, fun k f g hf hg hkf hkg => ?_, fun f hf => ?_⟩
  · have e := (hkey k f hf hkf).symm.trans (hkey k g hg hkg)
    exact Option.some.inj e
  · rw [hfree]
    by_cases hm : f ∈ free
    · exact .inl ⟨hm, fun k hk => (h.mapped k f hk).2.1 hm⟩
    · obtain ⟨k, hk⟩ := h.used_frame f hf hm
      exact .inr ⟨hm, k, hk, fun k' hk' => h.key_inj hk' hk⟩

/-- The pages of the cache are those of a flat array. -/
structure Shows (P : ℕ) (pc : PageCache) (mem : PageKey → PageData) : Prop where
  inv : ∃ free queue, pc.Inv P free queue
  nFrames_pos : 1 ≤ pc.nFrames
  content : ∀ k, k.fk ≠ .catalogue → pc.content k = mem k

namespace Shows

variable {mem : PageKey → PageData}

/-- What leaves the pages as they are leaves the flat array as it is. -/
theorem of_samePages (h : pc.Shows P mem) (hI : pc'.Inv P free queue)
    (hn : pc'.nFrames = pc.nFrames) (hS : pc.SamePages pc') : pc'.Shows P mem where
  inv := ⟨free, queue, hI⟩
  nFrames_pos := hn ▸ h.nFrames_pos
  content k hk := (hS.content k hk).trans (h.content k hk)

/-- A page that is pinned has the bytes of the flat array. -/
theorem pinPage (h : pc.Shows P mem) (hp : pc.pinPage P k = .ok (f, pc')) :
    pc'.Shows P mem ∧ pc'.pageMap k = some f := by
  obtain ⟨free, queue, hI⟩ := h.inv
  rcases pinPage_inv hI hp with ⟨hk, rfl⟩ | ⟨-, rest, -, hI', hL⟩
  · exact ⟨h.of_samePages (hI.setFrame hk (hI.mapped k f hk).2.2 (hI.clean k f hk)) rfl
      (hI.samePages_setFrame hk rfl), hk⟩
  · exact ⟨h.of_samePages hI' hL.nFrames hL.pages, by rw [hL.pageMap, if_pos rfl]⟩

theorem unpinPage (h : pc.Shows P mem) (hs : pc.Safe (.unpinPage k)) :
    (∀ pc', pc.unpinPage P k = .ok pc' → pc'.Shows P mem) ∧ Exits (pc.unpinPage P k) := by
  obtain ⟨free, queue, hI⟩ := h.inv
  cases hk : pc.pageMap k with
  | none =>
      rw [PageCache.unpinPage, hk]
      exact ⟨fun _ e => by (cases e), .exit _⟩
  | some f =>
      by_cases hpin : (pc.frames f).pinCount = 0
      · have hexit : pc.unpinPage P k =
            .error (.exit "page cache - unpin page: Page is not pinned!") := by
          rw [PageCache.unpinPage, hk]
          simp only [hI.checkBounds_ok hk, ok_bind, if_pos hpin]
        rw [hexit]
        exact ⟨fun _ e => by (cases e), .exit _⟩
      · obtain ⟨pc₁, h₁, hI₁, hU, -⟩ := unpinPage_ok hI hk hpin fun hb hlast hlen =>
          hs hb (hI.queue_rep.len_eq ▸ hlen) (by rw [hI.queue_rep.toList_eq, hlast, hk])
        rw [h₁]
        refine ⟨?_, .ok _⟩
        rintro pc' ⟨⟩
        exact h.of_samePages hI₁ hU.nFrames hU.pages

theorem write (h : pc.Shows P mem) {g : PageData → PageData} :
    (∀ pc', pc.write k g = .ok pc' → pc'.Shows P (Function.update mem k (g (mem k)))) ∧
      Exits (pc.write k g) := by
  obtain ⟨free, queue, hI⟩ := h.inv
  unfold PageCache.write
  split
  · exact ⟨fun _ e => by (cases e), .exit _⟩
  · rename_i f hk
    refine ⟨?_, .ok _⟩
    rintro pc' ⟨⟩
    refine ⟨⟨free, queue, hI.setFrame hk (hI.mapped k f hk).2.2 fun _ e => by (cases e)⟩,
      h.nFrames_pos, fun k' hk' => ?_⟩
    rw [hI.content_setFrame hk, Function.update_apply]
    split
    · rename_i e
      rw [← e] at hk
      rw [← e, ← h.content k' hk', content_of_mapped hk]
    · exact h.content k' hk'

theorem newPage (h : pc.Shows P mem) (ft : FileType) :
    (∀ a pc', pc.newPage P ft = .ok (a, pc') → pc'.Shows P mem) ∧ Exits (pc.newPage P ft) := by
  obtain ⟨free, queue, hI⟩ := h.inv
  -- the cache over the files with the page added
  have hgrown : ∀ db', pc.pdb.allocatePages P ft 1 = .ok db' →
      ({ pc with pdb := db' } : PageCache).Shows P mem := by
    intro db' hdb
    obtain ⟨hI', hc⟩ := hI.grow (PhyDatabase.allocatePages_grows hdb).1
    exact ⟨⟨free, queue, hI'⟩, h.nFrames_pos, fun k hk => (hc k hk).trans (h.content k hk)⟩
  refine ⟨fun a pc' hp => ?_, ?_⟩
  · obtain ⟨db', hdb, hp⟩ := bind_inv hp
    obtain ⟨⟨g, pc₁⟩, hpin, hp⟩ := bind_inv hp
    cases hp
    exact ((hgrown db' hdb).pinPage hpin).1
  · refine .bind (PhyDatabase.exits_allocatePages _ _ _) fun db' hdb => ?_
    obtain ⟨free', queue', hI'⟩ := (hgrown db' hdb).inv
    exact .bind (exits_pinPage hI' _) fun _ _ => .ok _

theorem flushAllPages (h : pc.Shows P mem) :
    (∀ pc', pc.flushAllPages P = .ok pc' → pc'.Shows P mem) ∧ Exits (pc.flushAllPages P) := by
  obtain ⟨free, queue, hI⟩ := h.inv
  by_cases hpin : ∀ f < pc.nFrames, (pc.frames f).pinCount = 0
  · obtain ⟨pc₁, h₁, hI₁, hF, -⟩ := flushAllPages_ok hI hpin
    rw [h₁]
    refine ⟨?_, .ok _⟩
    rintro pc' ⟨⟩
    exact h.of_samePages hI₁ hF.nFrames hF.pages
  · obtain ⟨msg, he⟩ := flushAllPages_error hI hpin
    rw [he]
    exact ⟨fun _ e => by (cases e), .exit _⟩

theorem changeNFrames (h : pc.Shows P mem) {n : ℕ} (hn : 1 ≤ n) :
    (∀ pc', pc.changeNFrames P n = .ok pc' → pc'.Shows P mem) ∧ Exits (pc.changeNFrames P n) := by
  obtain ⟨free, queue, hI⟩ := h.inv
  by_cases hpin : ∀ f < pc.nFrames, (pc.frames f).pinCount = 0
  · obtain ⟨pc₁, h₁, hI₁, hn₁, hS⟩ := changeNFrames_ok hI h.nFrames_pos hpin n
    rw [h₁]
    refine ⟨?_, .ok _⟩
    rintro pc' ⟨⟩
    exact ⟨⟨_, _, hI₁⟩, hn₁ ▸ hn, fun k hk => (hS.content k hk).trans (h.content k hk)⟩
  · obtain ⟨msg, he⟩ := flushAllPages_error hI hpin
    rw [PageCache.changeNFrames, he]
    exact ⟨fun _ e => by (cases e), .exit _⟩

/-- **One step.** -/
theorem exec (h : pc.Shows P mem) {step : CacheStep} (hs : pc.Safe step) :
    (∀ pc', PageCache.exec P step pc = .ok pc' → pc'.Shows P (step.effect mem)) ∧
      Exits (PageCache.exec P step pc) := by
  cases step with
  | pinPage k =>
      obtain ⟨free, queue, hI⟩ := h.inv
      refine ⟨fun pc' hp => ?_, .bind (exits_pinPage hI k) fun _ _ => .ok _⟩
      obtain ⟨⟨f, pc₁⟩, hpin, hp⟩ := bind_inv hp
      cases hp
      exact (h.pinPage hpin).1
  | unpinPage k => exact h.unpinPage hs
  | write k g => exact h.write
  | newPage ft =>
      obtain ⟨hok, hexit⟩ := h.newPage ft
      refine ⟨fun pc' hp => ?_, .bind hexit fun _ _ => .ok _⟩
      obtain ⟨⟨a, pc₁⟩, hnew, hp⟩ := bind_inv hp
      cases hp
      exact hok a pc' hnew
  | flushAllPages => exact h.flushAllPages
  | changeNFrames n => exact h.changeNFrames hs
  | setBulkImport b =>
      obtain ⟨free, queue, hI⟩ := h.inv
      refine ⟨?_, .ok _⟩
      rintro pc' ⟨⟩
      exact ⟨⟨free, queue, hI.free_rep, hI.queue_rep, hI.free_nodup, hI.queue_nodup, hI.queue_lt,
        hI.free_frame, hI.used_frame, hI.mapped, hI.in_file, hI.clean⟩, h.nFrames_pos, h.content⟩

end Shows

theorem create_shows {db : PhyDatabase} {n : ℕ} (hn : 1 ≤ n) (hc : create db n = .ok pc) :
    pc.Shows P db.pages := by
  obtain ⟨pc₁, h₁, hI, hdb, hn₁, -, hmap, -, -⟩ := emptyFrames_ok P db n false
  rw [create, h₁] at hc
  cases hc
  refine ⟨⟨_, _, hI⟩, hn₁ ▸ hn, fun k _ => ?_⟩
  rw [content_of_not_mapped (hmap k), hdb]
  rfl

/-! ### Functions that reach pages -/

/-- The steps behind a call. -/
def stepsOf {β : Type} : PageOp β → List CacheStep
  | .pinPage k => [.pinPage k]
  | .unpinPage k => [.unpinPage k]
  | .putData k data => [.write k fun _ => data]
  | .newPage ft => [.newPage ft]
  | .numPages _ | .requirePinned _ _ | .getData _ | .stop _ => []

/-- The steps of a function of the access layer, such as `write_ulong` or `write_bits`. -/
def trace {α : Type} (P : ℕ) : Prog PageOp α → PageCache → List CacheStep
  | .ret _, _ => []
  | .call op k, pc => stepsOf op ++
      match handler P _ op pc with
      | .ok (b, pc') => trace P (k b) pc'
      | .error _ => []

theorem handler_eq_exec {β : Type} {op : PageOp β} {b : β} (h : handler P β op pc = .ok (b, pc')) :
    runSteps (exec P) (stepsOf op) pc = .ok pc' := by
  cases op with
  | numPages ft =>
      cases h
      rfl
  | pinPage k =>
      obtain ⟨⟨f, pc₁⟩, hp, h⟩ := bind_inv h
      cases h
      simp only [stepsOf, runSteps, exec, hp, ok_bind]
      rfl
  | unpinPage k =>
      obtain ⟨pc₁, hp, h⟩ := bind_inv h
      cases h
      simp only [stepsOf, runSteps, exec, hp]
  | requirePinned k msg =>
      simp only [handler] at h
      split at h
      · cases h
        rfl
      · cases h
  | getData k =>
      simp only [handler] at h
      split at h
      · cases h
      · cases h
        rfl
  | putData k data =>
      simp only [handler] at h
      split at h
      · cases h
      · rename_i f hk
        cases h
        simp only [stepsOf, runSteps, exec, write, hk]
  | newPage ft =>
      obtain ⟨⟨⟨n, f⟩, pc₁⟩, hp, h⟩ := bind_inv h
      cases h
      simp only [stepsOf, runSteps, exec, hp, ok_bind]
      rfl
  | stop e => cases h

/-- A function of the access layer that returns has taken its steps. -/
theorem run_trace {α : Type} (p : Prog PageOp α) : ∀ {pc pc' : PageCache} {a : α},
    Prog.run (handler P) p pc = .ok (a, pc') →
    runSteps (exec P) (trace P p pc) pc = .ok pc' := by
  induction p with
  | ret b =>
      intro pc pc' a h
      cases h
      rfl
  | call op k ih =>
      intro pc pc' a h
      simp only [Prog.run] at h
      rw [trace]
      cases ho : handler P _ op pc with
      | error e =>
          rw [ho] at h
          cases h
      | ok q =>
          rw [ho] at h
          exact (runSteps_append _ (handler_eq_exec ho)).trans (ih q.1 h)

/-! ### Runs -/

/-- **Transparency.**  A run whose steps are safe shows the pages as a flat array. -/
theorem run_transparent {db : PhyDatabase} {n : ℕ} {steps : List CacheStep} (hn : 1 ≤ n)
    (hs : ∀ pc, create db n = .ok pc → Along (exec P) Safe steps pc) :
    Transparent P db n steps := by
  intro pc hc
  obtain ⟨hok, herror⟩ := run_invariant (fun _ => CacheStep.effect)
    (I := fun mem pc => pc.Shows P mem) (E := fun e => ∃ msg, e = .exit msg)
    (fun mem pc step pc' h hs he => (h.exec hs).1 pc' he)
    (fun mem pc step e h hs he => (h.exec hs).2 e he) steps db.pages
    (create_shows hn hc) (hs pc hc)
  refine ⟨herror, fun pc' hr => ?_⟩
  have h := hok pc' hr
  rw [ghost_eq_foldl steps hr] at h
  obtain ⟨free, queue, hI⟩ := h.inv
  refine ⟨hI.consistent, fun k f pc'' hk hp => ?_⟩
  obtain ⟨h', hm⟩ := h.pinPage hp
  rw [← content_of_mapped hm]
  exact h'.content k hk

/-- A record page of nodes. -/
def nodePage (n : ℕ) : PageKey := ⟨.records, .node, n⟩

/-- Two pages in one frame, written in turn. -/
theorem run_transparent_swap :
    Transparent 4096 (.fresh 4096) 1 [.newPage .node, .write (nodePage 0) fun _ _ => 7,
      .unpinPage (nodePage 0), .newPage .node, .unpinPage (nodePage 1)] :=
  run_transparent (by decide) (by decide +kernel)

/-- Three pages in three frames; the first one is evicted while the two others are pinned, then all
are unpinned again. -/
def turnsOpenRing : List CacheStep :=
  [.newPage .node, .newPage .node, .newPage .node, .unpinPage (nodePage 0), .unpinPage (nodePage 1),
    .unpinPage (nodePage 2), .pinPage (nodePage 1), .pinPage (nodePage 2), .newPage .node,
    .unpinPage (nodePage 2), .unpinPage (nodePage 1), .unpinPage (nodePage 3)]

/-- The queue is turned while its ring is not closed, and a freed node is written. -/
theorem turnsOpenRing_not_transparent :
    ¬ Transparent 4096 (.fresh 4096) 3 turnsOpenRing := by
  intro h
  obtain ⟨pc, hc⟩ : ∃ pc, create (.fresh 4096) 3 = .ok pc := ⟨_, rfl⟩
  have hrun : fault? (create (.fresh 4096) 3 >>= runSteps (exec 4096) turnsOpenRing) =
      some .undefined := by
    decide +kernel
  rw [hc, ok_bind, fault?_eq_some] at hrun
  obtain ⟨msg, e⟩ := (h pc hc).1 _ hrun
  cases e

end PageCache

end Goedb
