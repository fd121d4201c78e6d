import Goedb.Cache.PageCache

/-!
# Cache — the frames of the page cache

`PageCache.Inv P pc free queue` is the invariant of the page cache, with the frames in its free list
and in its queue: a frame is free or the page map leads to it, from the one page that it holds; a
frame that is not dirty holds what the page's file has.  The queue is only known to hold frames, none
of them twice: which ones depends on the mode.

For each part of the page cache there is one lemma that says when it returns, and what it does to the
lists, to the page map and to the pages.

* `evictFrame_ok`: a frame goes from the page map to the free list; no page changes.
* `makeRoom_ok`: `victims` are evicted, where there is no free frame.
* `pinPage_hit`, `pinPage_miss`, `unpinPage_ok`.
-/

namespace Goedb

open Lib

/-- A computation that returns or exits. -/
def Exits {α : Type} (x : Except Fault α) : Prop := ∀ e, x = .error e → ∃ msg, e = .exit msg

theorem Exits.bind {α β : Type} {x : Except Fault α} {g : α → Except Fault β} (hx : Exits x)
    (hg : ∀ a, x = .ok a → Exits (g a)) : Exits (x >>= g) := by
  cases x with
  | error e =>
      rintro _ ⟨⟩
      exact hx e rfl
  | ok a => exact hg a rfl

theorem Exits.ok {α : Type} (a : α) : Exits (.ok a : Except Fault α) := fun _ h => by (cases h)

theorem Exits.exit {α : Type} (msg : String) : Exits (.error (.exit msg) : Except Fault α) :=
  fun _ h => by
    cases h
    exact ⟨msg, rfl⟩

namespace PhyDatabase

variable {P : ℕ} {db : PhyDatabase} {k : PageKey}

theorem setPage_eq_setFile (db : PhyDatabase) (k : PageKey) (data : PageData) :
    db.setPage k data = db.setFile k.fk k.ft ((db.file k.fk k.ft).setPage k.pageNo data) := by
  obtain ⟨fk, ft, n⟩ := k
  cases fk <;> rfl

theorem writePage_ok (h : db.InFile k) (hk : k.pageNo < maxPageNo P) (data : PageData) :
    db.writePage P k data = .ok (db.setPage k data) := by
  rw [writePage, DiskFile.writePage_ok h (Nat.le_of_lt hk), setPage_eq_setFile]
  rfl

/-- A page of a header or of records after any page was written. -/
theorem page_file_setPage_of_ne (h : db.InFile k) {k' : PageKey} (hk' : k'.fk ≠ .catalogue)
    (data : PageData) :
    ((db.setPage k data).file k'.fk k'.ft).page k'.pageNo =
      if k' = k then data else (db.file k'.fk k'.ft).page k'.pageNo := by
  by_cases hk : k.fk = .catalogue
  · rw [if_neg (by rintro rfl; exact hk' hk)]
    obtain ⟨fk, ft, n⟩ := k
    obtain ⟨fk', ft', n'⟩ := k'
    cases hk
    cases fk' with
    | catalogue => exact absurd rfl hk'
    | header => rfl
    | records => rfl
  · exact page_file_setPage h hk k' data

theorem catalogue_setPage (hk : k.fk ≠ .catalogue) (data : PageData) :
    (db.setPage k data).catalogue = db.catalogue := by
  rw [setPage]
  split
  · rename_i h
    exact absurd h hk
  · rfl
  · rfl

theorem remainingHeaderBits_setPage (data : PageData) :
    (db.setPage k data).remainingHeaderBits = db.remainingHeaderBits := by
  rw [setPage]
  split <;> rfl

theorem checkBounds_inv (h : db.checkBounds P k = .ok ()) :
    k.pageNo < maxPageNo P ∧ db.InFile k := by
  unfold checkBounds at h
  split at h
  · cases h
  · rename_i hb
    rw [not_or, Nat.not_le, Nat.not_le] at hb
    exact hb

/-- Pages of zeros are added, to files of headers and of records. -/
structure Grows (db db' : PhyDatabase) : Prop where
  numPages : ∀ fk ft, fk ≠ .catalogue → (db.file fk ft).numPages ≤ (db'.file fk ft).numPages
  catalogue : db'.catalogue.numPages = db.catalogue.numPages
  page : ∀ k : PageKey, k.fk ≠ .catalogue →
    (db'.file k.fk k.ft).page k.pageNo = (db.file k.fk k.ft).page k.pageNo

theorem grow_inv {df df' : DiskFile} {n : ℕ} (h : df.grow P n = .ok df') : df.GrownBy n df' := by
  unfold DiskFile.grow at h
  split at h
  · cases h
  · split at h
    · cases h
    · cases h
      exact df.grownBy_append n

theorem growHeader_inv {df df' : DiskFile} {r r' n : ℕ}
    (h : growHeader P df r n = .ok (df', r')) : ∃ m, df.GrownBy m df' := by
  unfold growHeader at h
  split at h
  · obtain ⟨df₁, h₁, h⟩ := bind_inv h
    cases h
    exact ⟨_, grow_inv h₁⟩
  · cases h
    exact ⟨0, .refl df⟩

theorem allocatePages_grows {ft : FileType} {n : ℕ} {db' : PhyDatabase}
    (h : db.allocatePages P ft n = .ok db') :
    db.Grows db' ∧ (db'.records ft).numPages = (db.records ft).numPages + n := by
  obtain ⟨records, h₁, h⟩ := bind_inv h
  obtain ⟨⟨header, r⟩, h₂, h⟩ := bind_inv h
  obtain ⟨buf, h₃, h⟩ := bind_inv h
  obtain ⟨cat, h₄, h⟩ := bind_inv h
  cases h
  have hR := grow_inv h₁
  obtain ⟨m, hH⟩ := growHeader_inv h₂
  refine ⟨⟨fun fk gt hfk => ?_, ?_, fun k hk => ?_⟩, ?_⟩
  · cases fk with
    | catalogue => exact absurd rfl hfk
    | header =>
        by_cases e : gt = ft
        · subst e
          simp only [file, Function.update_self, hH.numPages]
          exact Nat.le_add_right _ _
        · simp only [file, Function.update_of_ne e]
          exact Nat.le_refl _
    | records =>
        by_cases e : gt = ft
        · subst e
          simp only [file, Function.update_self, hR.numPages]
          exact Nat.le_add_right _ _
        · simp only [file, Function.update_of_ne e]
          exact Nat.le_refl _
  · unfold DiskFile.writePage at h₄
    split at h₄
    · cases h₄
    · split at h₄
      · cases h₄
      · cases h₄
        exact DiskFile.numPages_setPage ..
  · obtain ⟨fk, gt, i⟩ := k
    cases fk with
    | catalogue => exact absurd rfl hk
    | header =>
        by_cases e : gt = ft
        · subst e
          simp only [file, Function.update_self, hH.page]
        · simp only [file, Function.update_of_ne e]
    | records =>
        by_cases e : gt = ft
        · subst e
          simp only [file, Function.update_self, hR.page]
        · simp only [file, Function.update_of_ne e]
  · simp only [Function.update_self, hR.numPages]

theorem exits_grow (df : DiskFile) (n : ℕ) : Exits (df.grow P n) := by
  unfold DiskFile.grow
  split
  · exact .exit _
  · split
    · exact .exit _
    · exact .ok _

theorem exits_readPage (df : DiskFile) (n : ℕ) : Exits (df.readPage P n) := by
  unfold DiskFile.readPage
  split
  · exact .exit _
  · split
    · exact .exit _
    · exact .ok _

theorem exits_writePage (df : DiskFile) (n : ℕ) (data : PageData) :
    Exits (df.writePage P n data) := by
  unfold DiskFile.writePage
  split
  · exact .exit _
  · split
    · exact .exit _
    · exact .ok _

theorem exits_allocatePages (db : PhyDatabase) (ft : FileType) (n : ℕ) :
    Exits (db.allocatePages P ft n) := by
  refine .bind (exits_grow _ _) fun records _ => .bind ?_ fun p _ =>
    .bind (exits_readPage _ _) fun buf _ => .bind (exits_writePage _ _ _) fun cat _ => .ok _
  unfold growHeader
  split
  · exact .bind (exits_grow _ _) fun _ _ => .ok _
  · exact .ok _

end PhyDatabase

namespace PageCache

/-- The bytes of a page, in a frame or in its file. -/
def content (pc : PageCache) (k : PageKey) : PageData :=
  match pc.pageMap k with
  | some f => (pc.frames f).data
  | none => (pc.pdb.file k.fk k.ft).page k.pageNo

/-- No page of the catalogue is in a frame. -/
def NoCatalogue (pc : PageCache) : Prop := ∀ k, k.fk = .catalogue → pc.pageMap k = none

/-- The page cache with the frames in its free list and in its queue. -/
structure Inv (P : ℕ) (pc : PageCache) (free queue : List ℕ) : Prop where
  free_rep : pc.freeFrames.Rep free
  queue_rep : pc.recentlyReferenced.Rep queue
  free_nodup : free.Nodup
  queue_nodup : queue.Nodup
  queue_lt : ∀ f ∈ queue, f < pc.nFrames
  free_frame : ∀ f ∈ free, f < pc.nFrames ∧ (pc.frames f).key = none ∧
    (pc.frames f).pinCount = 0 ∧ (pc.frames f).dirty = false
  used_frame : ∀ f, f < pc.nFrames → f ∉ free → ∃ k, pc.pageMap k = some f
  mapped : ∀ k f, pc.pageMap k = some f → f < pc.nFrames ∧ f ∉ free ∧ (pc.frames f).key = some k
  in_file : ∀ k f, pc.pageMap k = some f → pc.pdb.InFile k ∧ k.pageNo < maxPageNo P
  clean : ∀ k f, pc.pageMap k = some f → k.fk ≠ .catalogue → (pc.frames f).dirty = false →
    (pc.frames f).data = (pc.pdb.file k.fk k.ft).page k.pageNo

/-- The pages are the same, wherever they are. -/
structure SamePages (pc pc' : PageCache) : Prop where
  numPages : ∀ fk ft, (pc'.pdb.file fk ft).numPages = (pc.pdb.file fk ft).numPages
  content : ∀ k, k.fk ≠ .catalogue → pc'.content k = pc.content k
  catalogue : pc.NoCatalogue → pc'.pdb.catalogue = pc.pdb.catalogue
  remaining : pc'.pdb.remainingHeaderBits = pc.pdb.remainingHeaderBits

variable {P : ℕ} {pc pc' pc'' : PageCache} {free queue : List ℕ} {k : PageKey} {f : ℕ}

theorem content_of_mapped (h : pc.pageMap k = some f) : pc.content k = (pc.frames f).data := by
  rw [content, h]

theorem content_of_not_mapped (h : pc.pageMap k = none) :
    pc.content k = (pc.pdb.file k.fk k.ft).page k.pageNo := by
  rw [content, h]

theorem SamePages.refl (pc : PageCache) : pc.SamePages pc :=
  ⟨fun _ _ => rfl, fun _ _ => rfl, fun _ => rfl, rfl⟩

theorem SamePages.trans (h : pc.SamePages pc') (h' : pc'.SamePages pc'')
    (hcat : pc.NoCatalogue → pc'.NoCatalogue) : pc.SamePages pc'' where
  numPages fk ft := (h'.numPages fk ft).trans (h.numPages fk ft)
  content k hk := (h'.content k hk).trans (h.content k hk)
  catalogue hn := (h'.catalogue (hcat hn)).trans (h.catalogue hn)
  remaining := h'.remaining.trans h.remaining

theorem SamePages.inFile (h : pc.SamePages pc') : pc'.pdb.InFile k ↔ pc.pdb.InFile k := by
  rw [PhyDatabase.InFile, PhyDatabase.InFile, h.numPages]

namespace Inv

variable (h : pc.Inv P free queue)
include h

/-- A page is in one frame. -/
theorem key_inj {k' : PageKey} (hk : pc.pageMap k = some f) (hk' : pc.pageMap k' = some f) :
    k = k' := by
  have h₁ := (h.mapped k f hk).2.2
  rw [(h.mapped k' f hk').2.2] at h₁
  exact (Option.some.inj h₁).symm

end Inv

/-! ### Flushing -/

/-- A frame was written back. -/
structure Flushed (pc : PageCache) (f : ℕ) (pc' : PageCache) : Prop where
  frames : ∀ g, pc'.frames g =
    if g = f then { pc.frames f with dirty := false } else pc.frames g
  pageMap : pc'.pageMap = pc.pageMap
  nFrames : pc'.nFrames = pc.nFrames
  freeFrames : pc'.freeFrames = pc.freeFrames
  queue : pc'.recentlyReferenced = pc.recentlyReferenced
  bulkImport : pc'.bulkImport = pc.bulkImport
  pages : pc.SamePages pc'

section Write

/-- The dirty frame `f`, which holds the page `k`, written back. -/
def written (pc : PageCache) (f : ℕ) (k : PageKey) : PageCache :=
  ({ pc with pdb := pc.pdb.setPage k (pc.frames f).data } : PageCache).setFrame f
    { pc.frames f with dirty := false }

variable (h : pc.Inv P free queue) (hk : pc.pageMap k = some f)

theorem written_frames (pc : PageCache) (f : ℕ) (k : PageKey) (g : ℕ) :
    (pc.written f k).frames g = if g = f then { pc.frames f with dirty := false } else pc.frames g :=
  Function.update_apply ..

theorem written_data (pc : PageCache) (f : ℕ) (k : PageKey) (g : ℕ) :
    ((pc.written f k).frames g).data = (pc.frames g).data := by
  rw [written_frames]
  split
  · rename_i e
    rw [e]
  · rfl

theorem written_numPages (pc : PageCache) (f : ℕ) (k : PageKey) (fk : FileKind) (ft : FileType) :
    ((pc.written f k).pdb.file fk ft).numPages = (pc.pdb.file fk ft).numPages :=
  PhyDatabase.numPages_file_setPage _ _ ⟨fk, ft, 0⟩ _

include h hk

theorem written_page {k' : PageKey} (hk' : k'.fk ≠ .catalogue) :
    ((pc.written f k).pdb.file k'.fk k'.ft).page k'.pageNo =
      if k' = k then (pc.frames f).data else (pc.pdb.file k'.fk k'.ft).page k'.pageNo :=
  PhyDatabase.page_file_setPage_of_ne (h.in_file k f hk).1 hk' _

theorem written_inv : (pc.written f k).Inv P free queue := by
  refine ⟨h.free_rep, h.queue_rep, h.free_nodup, h.queue_nodup, h.queue_lt, fun g hg => ?_,
    h.used_frame, fun k' g hk' => ?_, fun k' g hk' => ?_, fun k' g hk' hcat hclean => ?_⟩
  · rw [written_frames, if_neg (by rintro rfl; exact (h.mapped k g hk).2.1 hg)]
    exact h.free_frame g hg
  · refine ⟨(h.mapped k' g hk').1, (h.mapped k' g hk').2.1, ?_⟩
    rw [written_frames]
    split
    · rename_i e
      subst e
      exact (h.mapped k' g hk').2.2
    · exact (h.mapped k' g hk').2.2
  · refine ⟨?_, (h.in_file k' g hk').2⟩
    rw [PhyDatabase.InFile, written_numPages]
    exact (h.in_file k' g hk').1
  · rw [written_data, written_page h hk hcat]
    by_cases e : k' = k
    · obtain rfl : f = g := Option.some.inj (hk.symm.trans (e ▸ hk'))
      rw [if_pos e]
    · rw [if_neg e]
      refine h.clean k' g hk' hcat ?_
      rwa [written_frames, if_neg] at hclean
      rintro rfl
      exact e (h.key_inj hk' hk)

theorem written_samePages : pc.SamePages (pc.written f k) := by
  refine ⟨written_numPages pc f k, fun k' hk' => ?_, fun hn => ?_,
    PhyDatabase.remainingHeaderBits_setPage _⟩
  · cases hm : pc.pageMap k' with
    | some g =>
        rw [content_of_mapped hm, content_of_mapped (show (pc.written f k).pageMap k' = some g from hm),
          written_data]
    | none =>
        rw [content_of_not_mapped hm,
          content_of_not_mapped (show (pc.written f k).pageMap k' = none from hm), written_page h hk hk',
          if_neg]
        rintro rfl
        exact nomatch hk.symm.trans hm
  · refine PhyDatabase.catalogue_setPage (fun e => ?_) _
    exact nomatch (hn k e).symm.trans hk

end Write

theorem flushPage_ok (h : pc.Inv P free queue) (hf : f < pc.nFrames)
    (hpin : (pc.frames f).pinCount = 0) :
    ∃ pc', pc.flushPage P f = .ok pc' ∧ pc'.Inv P free queue ∧ pc.Flushed f pc' := by
  rw [flushPage, if_neg (not_not.mpr hpin)]
  by_cases hdirty : (pc.frames f).dirty = true
  · -- a dirty frame holds a page
    have hfree : f ∉ free := fun hm => by
      have := (h.free_frame f hm).2.2.2
      rw [hdirty] at this
      cases this
    obtain ⟨k, hk⟩ := h.used_frame f hf hfree
    have hkey := (h.mapped k f hk).2.2
    obtain ⟨hin, hmax⟩ := h.in_file k f hk
    refine ⟨pc.written f k, ?_, written_inv h hk, written_frames pc f k, rfl, rfl, rfl, rfl, rfl,
      written_samePages h hk⟩
    rw [if_pos hdirty, written]
    generalize pc.frames f = candidate at hkey
    obtain ⟨key, pinCount, dirty, data⟩ := candidate
    subst hkey
    simp only [PhyDatabase.writePage_ok hin hmax, ok_bind]
    rfl
  · rw [Bool.not_eq_true] at hdirty
    refine ⟨pc, if_neg (by simp [hdirty]), h, fun g => ?_, rfl, rfl, rfl, rfl, rfl, .refl pc⟩
    split
    · rename_i e
      rw [e]
      simp [← hdirty]
    · rfl

/-! ### Evicting frames -/

/-- The frames `vs` were evicted. -/
structure Evicted (pc : PageCache) (vs : List ℕ) (pc' : PageCache) : Prop where
  frames : ∀ g, g ∉ vs → pc'.frames g = pc.frames g
  pinCount : ∀ g, (pc'.frames g).pinCount = (pc.frames g).pinCount
  pageMap : ∀ k, pc'.pageMap k = (pc.pageMap k).filter fun f => f ∉ vs
  nFrames : pc'.nFrames = pc.nFrames
  bulkImport : pc'.bulkImport = pc.bulkImport
  pages : pc.SamePages pc'

theorem Evicted.noCatalogue {vs : List ℕ} (h : pc.Evicted vs pc') (hn : pc.NoCatalogue) :
    pc'.NoCatalogue := by
  intro k hk
  rw [h.pageMap, hn k hk]
  rfl

theorem Evicted.refl (pc : PageCache) : pc.Evicted [] pc where
  frames _ _ := rfl
  pinCount _ := rfl
  pageMap k := by cases pc.pageMap k <;> rfl
  nFrames := rfl
  bulkImport := rfl
  pages := .refl pc

theorem Evicted.trans {vs vs' : List ℕ} (h : pc.Evicted vs pc') (h' : pc'.Evicted vs' pc'') :
    pc.Evicted (vs ++ vs') pc'' where
  frames g hg := by
    rw [List.mem_append, not_or] at hg
    rw [h'.frames g hg.2, h.frames g hg.1]
  pinCount g := (h'.pinCount g).trans (h.pinCount g)
  pageMap k := by
    rw [h'.pageMap, h.pageMap, Option.filter_filter]
    congr 1
    funext f
    simp
  nFrames := h'.nFrames.trans h.nFrames
  bulkImport := h'.bulkImport.trans h.bulkImport
  pages := h.pages.trans h'.pages h.noCatalogue

/-- The frame `f` went from the page `k` to the free list. -/
structure Unmapped (pc : PageCache) (k : PageKey) (f : ℕ) (pc' : PageCache) : Prop where
  frames : ∀ g, pc'.frames g =
    if g = f then { pc.frames f with key := none, data := zeroPage } else pc.frames g
  pageMap : ∀ k', pc'.pageMap k' = if k' = k then none else pc.pageMap k'
  nFrames : pc'.nFrames = pc.nFrames
  queue : pc'.recentlyReferenced = pc.recentlyReferenced
  pdb : pc'.pdb = pc.pdb

namespace Unmapped

variable (hU : pc.Unmapped k f pc') (hI : pc.Inv P free queue) (hk : pc.pageMap k = some f)
  (hdirty : (pc.frames f).dirty = false)
include hU hI hk

/-- The other pages are where they were. -/
theorem mapped {k' : PageKey} {g : ℕ} (hk' : pc'.pageMap k' = some g) :
    g ≠ f ∧ pc.pageMap k' = some g := by
  rw [hU.pageMap] at hk'
  split at hk'
  · cases hk'
  · rename_i hne
    refine ⟨?_, hk'⟩
    rintro rfl
    exact hne (hI.key_inj hk' hk)

include hdirty

theorem inv (hpin : (pc.frames f).pinCount = 0) (hrep : pc'.freeFrames.Rep (free ++ [f])) :
    pc'.Inv P (free ++ [f]) queue := by
  obtain ⟨hf, hfree, -⟩ := hI.mapped k f hk
  refine ⟨hrep, hU.queue ▸ hI.queue_rep, ?_, hI.queue_nodup, hU.nFrames ▸ hI.queue_lt, fun g hg => ?_,
    fun g hg hgf => ?_, fun k' g hk' => ?_, fun k' g hk' => ?_, fun k' g hk' hcat hclean => ?_⟩
  · exact List.nodup_append.mpr ⟨hI.free_nodup, List.nodup_singleton f, fun a ha b hb e =>
      hfree (List.mem_singleton.mp hb ▸ e ▸ ha)⟩
  · rw [hU.frames, hU.nFrames]
    rcases List.mem_append.mp hg with hg' | hg'
    · rw [if_neg (by rintro rfl; exact hfree hg')]
      exact hI.free_frame g hg'
    · rw [List.mem_singleton.mp hg', if_pos rfl]
      exact ⟨hf, rfl, hpin, hdirty⟩
  · rw [List.mem_append, List.mem_singleton, not_or] at hgf
    obtain ⟨k', hk'⟩ := hI.used_frame g (hU.nFrames ▸ hg) hgf.1
    refine ⟨k', ?_⟩
    rw [hU.pageMap, if_neg, hk']
    rintro rfl
    exact hgf.2 (Option.some.inj (hk'.symm.trans hk))
  · obtain ⟨hgf, hk₁⟩ := hU.mapped hI hk hk'
    obtain ⟨hg, hgfree, hgkey⟩ := hI.mapped k' g hk₁
    refine ⟨hU.nFrames ▸ hg, ?_, ?_⟩
    · rw [List.mem_append, List.mem_singleton, not_or]
      exact ⟨hgfree, hgf⟩
    · rw [hU.frames, if_neg hgf, hgkey]
  · rw [hU.pdb]
    exact hI.in_file k' g (hU.mapped hI hk hk').2
  · obtain ⟨hgf, hk₁⟩ := hU.mapped hI hk hk'
    rw [hU.frames, if_neg hgf] at hclean ⊢
    rw [hU.pdb]
    exact hI.clean k' g hk₁ hcat hclean

/-- The page is on disk as it was in the frame. -/
theorem samePages : pc.SamePages pc' := by
  refine ⟨fun _ _ => by rw [hU.pdb], fun k' hcat => ?_, fun _ => by rw [hU.pdb], by rw [hU.pdb]⟩
  cases hm : pc'.pageMap k' with
  | some g =>
      obtain ⟨hgf, hk₁⟩ := hU.mapped hI hk hm
      rw [content_of_mapped hm, content_of_mapped hk₁, hU.frames, if_neg hgf]
  | none =>
      rw [content_of_not_mapped hm, hU.pdb]
      by_cases e : k' = k
      · subst e
        rw [content_of_mapped hk]
        exact (hI.clean k' f hk hcat hdirty).symm
      · rw [hU.pageMap, if_neg e] at hm
        rw [content_of_not_mapped hm]

end Unmapped

theorem evictFrame_ok (h : pc.Inv P free queue) (hf : f < pc.nFrames) (hfree : f ∉ free)
    (hpin : (pc.frames f).pinCount = 0) :
    ∃ pc', pc.evictFrame P f = .ok pc' ∧ pc'.Inv P (free ++ [f]) queue ∧ pc.Evicted [f] pc' ∧
      pc'.recentlyReferenced = pc.recentlyReferenced := by
  obtain ⟨pc₁, h₁, hI, hF⟩ := flushPage_ok h hf hpin
  obtain ⟨k, hk⟩ := hI.used_frame f (hF.nFrames ▸ hf) hfree
  have hkey := (hI.mapped k f hk).2.2
  have hpin₁ : (pc₁.frames f).pinCount = 0 := by rw [hF.frames, if_pos rfl, hpin]
  have hdirty₁ : (pc₁.frames f).dirty = false := by rw [hF.frames, if_pos rfl]
  obtain ⟨fl, hfl, hrep, -⟩ := LinkedList.append_ok hI.free_rep f
  set pc' := ({ pc₁ with pageMap := Function.update pc₁.pageMap k none, freeFrames := fl } :
    PageCache).setFrame f { pc₁.frames f with key := none, data := zeroPage } with hpc'
  -- the flush comes first, so nothing is lost with the page
  have hU : pc₁.Unmapped k f pc' :=
    ⟨fun _ => Function.update_apply .., fun _ => Function.update_apply .., rfl, rfl, rfl⟩
  refine ⟨pc', ?_, hU.inv hI hk hdirty₁ hpin₁ hrep, ⟨fun g hg => ?_, fun g => ?_, fun k' => ?_,
    hF.nFrames, hF.bulkImport, ?_⟩, hF.queue⟩
  · simp only [evictFrame, h₁, ok_bind]
    rw [hpc']
    generalize pc₁.frames f = candidate at hkey
    obtain ⟨key, pinCount, dirty, data⟩ := candidate
    subst hkey
    simp only [ok_bind, hk, Option.isNone_some, hfl]
    rfl
  · rw [List.mem_singleton] at hg
    rw [hU.frames, if_neg hg, hF.frames, if_neg hg]
  · rw [hU.frames]
    split
    · rename_i e
      rw [e, hpin]
      exact hpin₁
    · rw [hF.frames]
      split
      · rename_i e
        rw [e]
      · rfl
  · rw [hU.pageMap, hF.pageMap]
    split
    · rename_i e
      have hk₀ : pc.pageMap k = some f := hF.pageMap ▸ hk
      rw [e, hk₀]
      simp [Option.filter]
    · rename_i hne
      cases hm : pc.pageMap k' with
      | none => rfl
      | some g =>
          have hgf : g ≠ f := by
            rintro rfl
            exact hne (h.key_inj hm (hF.pageMap ▸ hk))
          simp [Option.filter, hgf]
  · refine hF.pages.trans (hU.samePages hI hk hdirty₁) fun hn k' hk' => ?_
    rw [hF.pageMap]
    exact hn k' hk'

/-- The frames of a list that are not pinned. -/
def unpinned (pc : PageCache) (l : List ℕ) : List ℕ := l.filter fun f => (pc.frames f).pinCount = 0

theorem Evicted.unpinned_eq {vs : List ℕ} (h : pc.Evicted vs pc') (l : List ℕ) :
    pc'.unpinned l = pc.unpinned l := by
  simp only [unpinned, h.pinCount]

theorem unpinned_cons_of_zero {l : List ℕ} (h : (pc.frames f).pinCount = 0) :
    pc.unpinned (f :: l) = f :: pc.unpinned l :=
  List.filter_cons_of_pos (by simpa using h)

theorem unpinned_cons_of_ne {l : List ℕ} (h : (pc.frames f).pinCount ≠ 0) :
    pc.unpinned (f :: l) = pc.unpinned l :=
  List.filter_cons_of_neg (by simpa using h)

theorem mem_unpinned {l : List ℕ} : f ∈ pc.unpinned l ↔ f ∈ l ∧ (pc.frames f).pinCount = 0 := by
  simp [unpinned]

/-- The elements at the indices taken out, one after the other. -/
inductive Erases : List ℕ → List ℕ → List ℕ → Prop where
  | nil (l : List ℕ) : Erases [] l l
  | cons {i : ℕ} {is l l' : List ℕ} (hi : i < l.length) (h : Erases is (l.eraseIdx i) l') :
      Erases (i :: is) l l'

theorem removeAll_ok {is l l' : List ℕ} (h : Erases is l l') :
    ∀ {q : LinkedList ℕ}, q.Rep l → ∃ q', removeAll q is = .ok q' ∧ q'.Rep l' := by
  induction h with
  | nil l =>
      intro q hq
      exact ⟨q, rfl, hq⟩
  | cons hi _ ih =>
      intro q hq
      obtain ⟨q₁, h₁, hq₁⟩ := LinkedList.remove_ok hq hi
      obtain ⟨q₂, h₂, hq₂⟩ := ih hq₁
      refine ⟨q₂, ?_, hq₂⟩
      rw [removeAll, h₁]
      exact h₂

/-- An evicted frame at the front of the queue goes; the rest is kept as without it. -/
theorem filter_notMem_cons {l : List ℕ} (hf : f ∉ l) (vs : List ℕ) :
    (f :: l).filter (fun g => g ∉ f :: vs) = l.filter fun g => g ∉ vs := by
  rw [List.filter_cons_of_neg (by simp)]
  refine List.filter_congr fun g hg => ?_
  have hgf : g ≠ f := by
    rintro rfl
    exact hf hg
  simp [hgf]

/-- The first loop of `evict`, from the candidate `todo` on: `kept` are the frames before it that are
not evicted. -/
theorem evictLoop_ok (todo : List ℕ) : ∀ (passed kept evictIndex : List ℕ) {free : List ℕ}
    {pc : PageCache},
    pc.Inv P free (passed ++ todo) → (∀ f ∈ todo, f ∉ free) → evictIndex.length < evictLruK →
    (∀ l, Erases evictIndex (passed ++ l) (kept ++ l)) →
    ∃ vs evictIndex' pc', vs = (pc.unpinned todo).take (evictLruK - evictIndex.length) ∧
      evictLoop P todo.length passed.length evictIndex pc = .ok (evictIndex', pc') ∧
      pc'.Inv P (free ++ vs) (passed ++ todo) ∧ pc.Evicted vs pc' ∧
      pc'.recentlyReferenced = pc.recentlyReferenced ∧
      evictIndex'.length = evictIndex.length + vs.length ∧
      Erases evictIndex' (passed ++ todo) (kept ++ todo.filter fun f => f ∉ vs) := by
  induction todo with
  | nil =>
      intro passed kept evictIndex free pc h _ _ hE
      refine ⟨[], evictIndex, pc, ?_, rfl, ?_, .refl pc, rfl, rfl, hE []⟩
      · rw [unpinned, List.filter_nil, List.take_nil]
      · rwa [List.append_nil free]
  | cons f todo ih =>
      intro passed kept evictIndex free pc h hfree hlt hE
      have hget : pc.recentlyReferenced.get passed.length = .ok f :=
        LinkedList.get_ok h.queue_rep (by simp)
      have hf : f < pc.nFrames := h.queue_lt f (by simp)
      have hnot : f ∉ todo := by
        have := (List.nodup_append.mp h.queue_nodup).2.1
        exact (List.nodup_cons.mp this).1
      have hassoc : passed ++ f :: todo = (passed ++ [f]) ++ todo := by simp
      have hlen : (passed ++ [f]).length = passed.length + 1 := by simp
      rw [List.length_cons, evictLoop, hget, ok_bind]
      -- a frame that is not pinned is evicted; the loop ends with the last that may be
      by_cases hpin : (pc.frames f).pinCount = 0
      · obtain ⟨pc₁, h₁, hI, hev, hq⟩ := evictFrame_ok h hf (hfree f List.mem_cons_self) hpin
        have hE' : ∀ l, Erases (passed.length :: evictIndex) (passed ++ f :: l) (kept ++ l) := by
          intro l
          refine .cons (by simp) ?_
          rw [List.eraseIdx_append_of_length_le (Nat.le_refl _), Nat.sub_self]
          exact hE l
        rw [if_pos hpin, h₁, ok_bind]
        by_cases hK : evictLruK ≤ evictIndex.length + 1
        · rw [if_pos hK]
          refine ⟨[f], _, pc₁, ?_, rfl, hI, hev, hq, rfl, ?_⟩
          · rw [unpinned_cons_of_zero hpin, show evictLruK - evictIndex.length = 1 by omega]
            rfl
          · rw [filter_notMem_cons hnot, List.filter_eq_self.mpr (by simp)]
            exact hE' todo
        · rw [if_neg hK]
          rw [hassoc] at hI ⊢
          obtain ⟨vs, evictIndex', pc₂, hvs, h₂, hI₂, hev₂, hq₂, hlen₂, hE₂⟩ :=
            ih (passed ++ [f]) kept (passed.length :: evictIndex) hI (fun g hg hm => by
              rcases List.mem_append.mp hm with hm | hm
              · exact hfree g (List.mem_cons_of_mem f hg) hm
              · exact hnot (List.mem_singleton.mp hm ▸ hg))
              (by rw [List.length_cons]; omega) (fun l => by rw [List.append_assoc]; exact hE' l)
          refine ⟨f :: vs, evictIndex', pc₂, ?_, ?_, ?_, ?_, hq₂.trans hq, ?_, ?_⟩
          · rw [unpinned_cons_of_zero hpin, hvs, hev.unpinned_eq, List.length_cons,
              show evictLruK - evictIndex.length = (evictLruK - (evictIndex.length + 1)) + 1 by
                omega]
            rfl
          · rw [← hlen]
            exact h₂
          · rwa [List.append_assoc] at hI₂
          · exact hev.trans hev₂
          · rw [hlen₂, List.length_cons, List.length_cons]
            omega
          · rw [filter_notMem_cons hnot]
            exact hE₂
      · rw [if_neg hpin]
        rw [hassoc] at h ⊢
        obtain ⟨vs, evictIndex', pc₂, hvs, h₂, hI₂, hev₂, hq₂, hlen₂, hE₂⟩ :=
          ih (passed ++ [f]) (kept ++ [f]) evictIndex h
            (fun g hg => hfree g (List.mem_cons_of_mem f hg)) hlt
            (fun l => by rw [List.append_assoc, List.append_assoc]; exact hE (f :: l))
        refine ⟨vs, evictIndex', pc₂, ?_, ?_, hI₂, hev₂, hq₂, hlen₂, ?_⟩
        · rw [unpinned_cons_of_ne hpin, hvs]
        · rw [← hlen]
          exact h₂
        · have hf' : f ∉ vs := by
            rw [hvs]
            intro hm
            exact hnot (mem_unpinned.mp (List.mem_of_mem_take hm)).1
          rw [List.filter_cons_of_pos (by simpa using hf')]
          rwa [List.append_assoc kept] at hE₂

/-- The frames that are evicted when a page is to be read. -/
def victims (pc : PageCache) (free queue : List ℕ) : List ℕ :=
  if free ≠ [] then []
  else if pc.bulkImport then pc.unpinned (List.range pc.nFrames)
  else (pc.unpinned queue).take evictLruK

/-- The queue after these are evicted. -/
def queueAfter (pc : PageCache) (free queue : List ℕ) : List ℕ :=
  if pc.bulkImport then queue else queue.filter fun f => f ∉ pc.victims free queue

theorem evict_ok (h : pc.Inv P [] queue) (hne : pc.unpinned queue ≠ []) :
    ∃ pc', pc.evict P = .ok pc' ∧ pc'.Inv P ((pc.unpinned queue).take evictLruK)
      (queue.filter fun f => f ∉ (pc.unpinned queue).take evictLruK) ∧
      pc.Evicted ((pc.unpinned queue).take evictLruK) pc' := by
  obtain ⟨vs, evictIndex, pc₁, hvs, h₁, hI, hev, hq, hlen, hE⟩ := evictLoop_ok queue [] [] [] h
    (fun f _ => List.not_mem_nil) (by decide) fun l => .nil l
  rw [List.length_nil, Nat.sub_zero] at hvs
  rw [List.nil_append] at hI
  obtain ⟨q, hrem, hqrep⟩ := removeAll_ok hE (hq ▸ h.queue_rep : pc₁.recentlyReferenced.Rep queue)
  have hpos : evictIndex.length ≠ 0 := by
    rw [hlen, hvs, List.length_nil, Nat.zero_add]
    obtain ⟨a, t, e⟩ := List.exists_cons_of_ne_nil hne
    rw [e]
    exact Nat.succ_ne_zero _
  rw [List.nil_append] at hqrep
  refine ⟨{ pc₁ with recentlyReferenced := q }, ?_, ?_, ?_⟩
  · rw [evict, h.queue_rep.len_eq]
    rw [List.length_nil] at h₁
    rw [h₁, ok_bind]
    simp only [hrem, ok_bind, if_neg hpos]
    rfl
  · rw [← hvs]
    exact ⟨hI.free_rep, hqrep, hI.free_nodup, hI.queue_nodup.filter _, fun f hf =>
      hI.queue_lt f (List.mem_of_mem_filter hf), hI.free_frame, hI.used_frame, hI.mapped,
      hI.in_file, hI.clean⟩
  · rw [← hvs]
    exact ⟨hev.frames, hev.pinCount, hev.pageMap, hev.nFrames, hev.bulkImport,
      hev.pages.numPages, hev.pages.content, hev.pages.catalogue, hev.pages.remaining⟩

theorem evict_error (h : pc.Inv P [] queue) (hne : pc.unpinned queue = []) :
    pc.evict P = .error (.exit
      "page cache - evict: could not find a page to evict, as all pages are pinned!") := by
  obtain ⟨vs, evictIndex, pc₁, hvs, h₁, -, -, hq, hlen, hE⟩ := evictLoop_ok queue [] [] [] h
    (fun f _ => List.not_mem_nil) (by decide) fun l => .nil l
  obtain ⟨q, hrem, -⟩ := removeAll_ok hE (hq ▸ h.queue_rep : pc₁.recentlyReferenced.Rep queue)
  rw [hne, List.take_nil] at hvs
  rw [hvs, List.length_nil, Nat.add_zero] at hlen
  rw [List.length_nil] at h₁
  rw [evict, h.queue_rep.len_eq, h₁, ok_bind]
  simp only [hrem, ok_bind, if_pos hlen]

theorem bulkEvictLoop_ok (l : List ℕ) : ∀ (evicted : ℕ) {free : List ℕ} {pc : PageCache},
    pc.Inv P free queue → l.Nodup → (∀ f ∈ l, f < pc.nFrames ∧ f ∉ free) →
    ∃ pc', bulkEvictLoop P l evicted pc = .ok (evicted + (pc.unpinned l).length, pc') ∧
      pc'.Inv P (free ++ pc.unpinned l) queue ∧ pc.Evicted (pc.unpinned l) pc' := by
  induction l with
  | nil =>
      intro evicted free pc h _ _
      refine ⟨pc, rfl, ?_, .refl pc⟩
      rwa [unpinned, List.filter_nil, List.append_nil]
  | cons f l ih =>
      intro evicted free pc h hd hl
      obtain ⟨hf, hfree⟩ := hl f List.mem_cons_self
      rw [List.nodup_cons] at hd
      rw [bulkEvictLoop]
      by_cases hpin : (pc.frames f).pinCount = 0
      · obtain ⟨pc₁, h₁, hI, hev, -⟩ := evictFrame_ok h hf hfree hpin
        obtain ⟨pc₂, h₂, hI₂, hev₂⟩ := ih (evicted + 1) hI hd.2 fun g hg => by
          refine ⟨hev.nFrames ▸ (hl g (List.mem_cons_of_mem f hg)).1, fun hm => ?_⟩
          rcases List.mem_append.mp hm with hm | hm
          · exact (hl g (List.mem_cons_of_mem f hg)).2 hm
          · exact hd.1 (List.mem_singleton.mp hm ▸ hg)
        rw [hev.unpinned_eq] at h₂ hI₂ hev₂
        rw [unpinned_cons_of_zero hpin, if_pos hpin, h₁, ok_bind]
        refine ⟨pc₂, ?_, ?_, hev.trans hev₂⟩
        · rw [h₂, List.length_cons, Nat.add_assoc, Nat.add_comm 1]
        · rwa [List.append_assoc] at hI₂
      · rw [unpinned_cons_of_ne hpin, if_neg hpin]
        exact ih evicted h hd.2 fun g hg => hl g (List.mem_cons_of_mem f hg)

theorem bulkEvict_ok (h : pc.Inv P [] queue) (hne : pc.unpinned (List.range pc.nFrames) ≠ []) :
    ∃ pc', pc.bulkEvict P = .ok pc' ∧
      pc'.Inv P (pc.unpinned (List.range pc.nFrames)) queue ∧
      pc.Evicted (pc.unpinned (List.range pc.nFrames)) pc' := by
  obtain ⟨pc', h₁, hI, hev⟩ := bulkEvictLoop_ok (List.range pc.nFrames) 0 h List.nodup_range
    fun f hf => ⟨List.mem_range.mp hf, List.not_mem_nil⟩
  refine ⟨pc', ?_, hI, hev⟩
  rw [bulkEvict, h₁, ok_bind]
  exact if_neg (by rw [Nat.zero_add]; exact fun e => hne (List.length_eq_zero_iff.mp e))

theorem bulkEvict_error (h : pc.Inv P [] queue)
    (hne : pc.unpinned (List.range pc.nFrames) = []) :
    pc.bulkEvict P = .error (.exit
      "page cache - bulk evict: could not find a page to evict, as all pages are pinned!") := by
  obtain ⟨pc', h₁, -, -⟩ := bulkEvictLoop_ok (List.range pc.nFrames) 0 h List.nodup_range
    fun f hf => ⟨List.mem_range.mp hf, List.not_mem_nil⟩
  rw [bulkEvict, h₁, ok_bind, hne]
  rfl

/-- **There is a free frame** after frames were evicted where there was none before. -/
theorem makeRoom_ok (h : pc.Inv P free queue) (hne : free ++ pc.victims free queue ≠ []) :
    ∃ pc', pc.makeRoom P = .ok pc' ∧
      pc'.Inv P (free ++ pc.victims free queue) (pc.queueAfter free queue) ∧
      pc.Evicted (pc.victims free queue) pc' := by
  rw [makeRoom, h.free_rep.len_eq]
  by_cases hfree : free = []
  · subst hfree
    rw [if_pos List.length_nil]
    rw [victims, if_neg (not_not.mpr rfl)] at hne ⊢
    rw [queueAfter, victims, if_neg (not_not.mpr rfl)]
    split
    · rename_i hb
      rw [if_pos hb] at hne
      exact bulkEvict_ok h hne
    · rename_i hb
      rw [if_neg hb] at hne
      refine evict_ok h fun e => hne ?_
      rw [e]
      rfl
  · rw [if_neg (fun e => hfree (List.length_eq_zero_iff.mp e)), victims, if_pos hfree,
      List.append_nil, queueAfter, victims, if_pos hfree]
    refine ⟨pc, rfl, ?_, .refl pc⟩
    split
    · exact h
    · rwa [List.filter_eq_self.mpr fun f _ => by simp]

/-- All pages are pinned, or those that are not are not to be found. -/
theorem makeRoom_error (h : pc.Inv P free queue) (hne : free ++ pc.victims free queue = []) :
    ∃ msg, pc.makeRoom P = .error (.exit msg) := by
  rw [List.append_eq_nil_iff] at hne
  obtain ⟨rfl, hv⟩ := hne
  rw [makeRoom, h.free_rep.len_eq, if_pos List.length_nil]
  rw [victims, if_neg (not_not.mpr rfl)] at hv
  split
  · rename_i hb
    rw [if_pos hb] at hv
    exact ⟨_, bulkEvict_error h hv⟩
  · rename_i hb
    rw [if_neg hb, List.take_eq_nil_iff] at hv
    exact ⟨_, evict_error h (hv.resolve_left (by decide))⟩

/-! ### Pinning -/

/-- A frame that holds a page is changed, and goes on to hold it. -/
theorem Inv.setFrame (h : pc.Inv P free queue) (hk : pc.pageMap k = some f) {fr : Frame}
    (hkey : fr.key = some k) (hclean : k.fk ≠ .catalogue → fr.dirty = false →
      fr.data = (pc.pdb.file k.fk k.ft).page k.pageNo) : (pc.setFrame f fr).Inv P free queue := by
  have hframes : ∀ g, (pc.setFrame f fr).frames g = if g = f then fr else pc.frames g :=
    fun g => Function.update_apply ..
  have hfree := (h.mapped k f hk).2.1
  refine ⟨h.free_rep, h.queue_rep, h.free_nodup, h.queue_nodup, h.queue_lt, fun g hg => ?_,
    h.used_frame, fun k' g hk' => ?_, h.in_file, fun k' g hk' hcat hd => ?_⟩
  · rw [hframes, if_neg (by rintro rfl; exact hfree hg)]
    exact h.free_frame g hg
  · refine ⟨(h.mapped k' g hk').1, (h.mapped k' g hk').2.1, ?_⟩
    rw [hframes]
    split
    · rename_i e
      subst e
      rw [hkey, h.key_inj hk hk']
    · exact (h.mapped k' g hk').2.2
  · rw [hframes] at hd ⊢
    split at hd
    · rename_i e
      subst e
      obtain rfl := h.key_inj hk hk'
      rw [if_pos rfl]
      exact hclean hcat hd
    · rename_i e
      rw [if_neg e]
      exact h.clean k' g hk' hcat hd

/-- The pages after a frame is changed. -/
theorem Inv.content_setFrame (h : pc.Inv P free queue) (hk : pc.pageMap k = some f) (fr : Frame)
    (k' : PageKey) : (pc.setFrame f fr).content k' = if k' = k then fr.data else pc.content k' := by
  have hframes : ∀ g, (pc.setFrame f fr).frames g = if g = f then fr else pc.frames g :=
    fun g => Function.update_apply ..
  have hmap : (pc.setFrame f fr).pageMap = pc.pageMap := rfl
  cases hm : pc.pageMap k' with
  | none =>
      rw [content_of_not_mapped hm, content_of_not_mapped (hmap ▸ hm), if_neg]
      · rfl
      · rintro rfl
        rw [hk] at hm
        cases hm
  | some g =>
      rw [content_of_mapped hm, content_of_mapped (hmap ▸ hm), hframes]
      by_cases e : k' = k
      · subst e
        obtain rfl : f = g := Option.some.inj (hk.symm.trans hm)
        rw [if_pos rfl, if_pos rfl]
      · rw [if_neg e, if_neg]
        rintro rfl
        exact e (h.key_inj hm hk)

theorem Inv.samePages_setFrame (h : pc.Inv P free queue) (hk : pc.pageMap k = some f) {fr : Frame}
    (hdata : fr.data = (pc.frames f).data) : pc.SamePages (pc.setFrame f fr) where
  numPages _ _ := rfl
  content k' _ := by
    rw [h.content_setFrame hk]
    split
    · rename_i e
      rw [e, hdata, content_of_mapped hk]
    · rfl
  catalogue _ := rfl
  remaining := rfl

theorem Inv.checkBounds_ok (h : pc.Inv P free queue) (hk : pc.pageMap k = some f) :
    pc.pdb.checkBounds P k = .ok () :=
  PhyDatabase.checkBounds_ok (h.in_file k f hk).2 (h.in_file k f hk).1

/-- `pin_page` of a page that is in a frame. -/
theorem pinPage_hit (h : pc.Inv P free queue) (hcat : ¬ (k.fk = .catalogue ∧ k.ft ≠ .node))
    (hk : pc.pageMap k = some f) :
    pc.pinPage P k = .ok (f, pc.setFrame f { pc.frames f with
      pinCount := (pc.frames f).pinCount + 1 }) := by
  rw [pinPage, if_neg hcat, h.checkBounds_ok hk, ok_bind, hk]
  rfl

/-- The page `k` was read into the frame `f`, after the frames `vs` were evicted. -/
structure Loaded (pc : PageCache) (k : PageKey) (f : ℕ) (vs : List ℕ) (pc' : PageCache) : Prop where
  frame : pc'.frames f = ⟨some k, 1, false, (pc'.pdb.file k.fk k.ft).page k.pageNo⟩
  frames : ∀ g, g ≠ f → g ∉ vs → pc'.frames g = pc.frames g
  pinCount : ∀ g, g ≠ f → (pc'.frames g).pinCount = (pc.frames g).pinCount
  pageMap : ∀ k', pc'.pageMap k' =
    if k' = k then some f else (pc.pageMap k').filter fun g => g ∉ vs
  nFrames : pc'.nFrames = pc.nFrames
  bulkImport : pc'.bulkImport = pc.bulkImport
  pages : pc.SamePages pc'

/-- The page `k`, which no frame had, went from the disk to the free frame `f`. -/
structure Filled (pc : PageCache) (k : PageKey) (f : ℕ) (pc' : PageCache) : Prop where
  frames : ∀ g, pc'.frames g =
    if g = f then ⟨some k, 1, false, (pc.pdb.file k.fk k.ft).page k.pageNo⟩ else pc.frames g
  pageMap : ∀ k', pc'.pageMap k' = if k' = k then some f else pc.pageMap k'
  nFrames : pc'.nFrames = pc.nFrames
  queue : pc'.recentlyReferenced = pc.recentlyReferenced
  pdb : pc'.pdb = pc.pdb

namespace Filled

variable {rest : List ℕ} (hF : pc.Filled k f pc') (hI : pc.Inv P (f :: rest) queue)
include hF hI

/-- The other pages are where they were. -/
theorem mapped {k' : PageKey} {g : ℕ} (hne : k' ≠ k) (hk' : pc'.pageMap k' = some g) :
    g ≠ f ∧ pc.pageMap k' = some g := by
  rw [hF.pageMap, if_neg hne] at hk'
  refine ⟨?_, hk'⟩
  rintro rfl
  exact (hI.mapped k' g hk').2.1 List.mem_cons_self

variable (hk : pc.pageMap k = none)
include hk

theorem inv (hin : pc.pdb.InFile k) (hmax : k.pageNo < maxPageNo P)
    (hrep : pc'.freeFrames.Rep rest) : pc'.Inv P rest queue := by
  have hnodup := List.nodup_cons.mp hI.free_nodup
  refine ⟨hrep, hF.queue ▸ hI.queue_rep, hnodup.2, hI.queue_nodup, hF.nFrames ▸ hI.queue_lt,
    fun g hg => ?_, fun g hg hgf => ?_, fun k' g hk' => ?_, fun k' g hk' => ?_,
    fun k' g hk' hcat hclean => ?_⟩
  · rw [hF.frames, hF.nFrames, if_neg (by rintro rfl; exact hnodup.1 hg)]
    exact hI.free_frame g (List.mem_cons_of_mem f hg)
  · by_cases e : g = f
    · exact ⟨k, by rw [hF.pageMap, if_pos rfl, e]⟩
    · obtain ⟨k', hk'⟩ := hI.used_frame g (hF.nFrames ▸ hg) (by
        rw [List.mem_cons, not_or]
        exact ⟨e, hgf⟩)
      refine ⟨k', ?_⟩
      rw [hF.pageMap, if_neg, hk']
      rintro rfl
      rw [hk] at hk'
      cases hk'
  · by_cases e : k' = k
    · rw [hF.pageMap, if_pos e] at hk'
      cases hk'
      refine ⟨hF.nFrames ▸ (hI.free_frame f List.mem_cons_self).1, hnodup.1, ?_⟩
      rw [hF.frames, if_pos rfl, e]
    · obtain ⟨hgf, hk₁⟩ := hF.mapped hI e hk'
      obtain ⟨hg, hfree, hkey⟩ := hI.mapped k' g hk₁
      refine ⟨hF.nFrames ▸ hg, fun hm => hfree (List.mem_cons_of_mem f hm), ?_⟩
      rw [hF.frames, if_neg hgf, hkey]
  · rw [hF.pdb]
    by_cases e : k' = k
    · rw [e]
      exact ⟨hin, hmax⟩
    · exact hI.in_file k' g (hF.mapped hI e hk').2
  · rw [hF.pdb]
    by_cases e : k' = k
    · rw [hF.pageMap, if_pos e] at hk'
      cases hk'
      rw [hF.frames, if_pos rfl, e]
    · obtain ⟨hgf, hk₁⟩ := hF.mapped hI e hk'
      rw [hF.frames, if_neg hgf] at hclean ⊢
      exact hI.clean k' g hk₁ hcat hclean

/-- The page is in the frame as it was on disk. -/
theorem samePages : pc.SamePages pc' := by
  refine ⟨fun _ _ => by rw [hF.pdb], fun k' hcat => ?_, fun _ => by rw [hF.pdb], by rw [hF.pdb]⟩
  by_cases e : k' = k
  · have hk' : pc'.pageMap k' = some f := by rw [hF.pageMap, if_pos e]
    rw [content_of_mapped hk', hF.frames, if_pos rfl, e, content_of_not_mapped hk]
  · cases hm : pc'.pageMap k' with
    | some g =>
        obtain ⟨hgf, hk₁⟩ := hF.mapped hI e hm
        rw [content_of_mapped hm, content_of_mapped hk₁, hF.frames, if_neg hgf]
    | none =>
        have hm₁ : pc.pageMap k' = none := by rwa [hF.pageMap, if_neg e] at hm
        rw [content_of_not_mapped hm, content_of_not_mapped hm₁, hF.pdb]

end Filled

/-- `pin_page` of a page that is in no frame. -/
theorem pinPage_miss (h : pc.Inv P free queue) (hcat : ¬ (k.fk = .catalogue ∧ k.ft ≠ .node))
    (hin : pc.pdb.InFile k) (hmax : k.pageNo < maxPageNo P) (hk : pc.pageMap k = none)
    {rest : List ℕ} (hroom : free ++ pc.victims free queue = f :: rest) :
    ∃ pc', pc.pinPage P k = .ok (f, pc') ∧ pc'.Inv P rest (pc.queueAfter free queue) ∧
      pc.Loaded k f (pc.victims free queue) pc' := by
  obtain ⟨pc₁, h₁, hI, hev⟩ := makeRoom_ok h (hroom ▸ List.cons_ne_nil f rest)
  rw [hroom] at hI
  obtain ⟨fl, htake, hrep⟩ := LinkedList.take_ok hI.free_rep (i := 0) rfl
  have hin₁ : pc₁.pdb.InFile k := hev.pages.inFile.mpr hin
  have hk₁ : pc₁.pageMap k = none := by rw [hev.pageMap, hk]; rfl
  have hread := DiskFile.readPage_ok hin₁ (Nat.le_of_lt hmax)
  set pc' := ({ pc₁ with freeFrames := fl, pageMap := Function.update pc₁.pageMap k (some f) } :
    PageCache).setFrame f ⟨some k, 1, false, (pc₁.pdb.file k.fk k.ft).page k.pageNo⟩
  have hF : pc₁.Filled k f pc' :=
    ⟨fun _ => Function.update_apply .., fun _ => Function.update_apply .., rfl, rfl, rfl⟩
  refine ⟨pc', ?_, hF.inv hI hk₁ hin₁ hmax hrep, ⟨?_, fun g hg hgv => ?_, fun g hg => ?_,
    fun k' => ?_, hev.nFrames, hev.bulkImport,
    hev.pages.trans (hF.samePages hI hk₁) hev.noCatalogue⟩⟩
  · rw [pinPage, if_neg hcat, PhyDatabase.checkBounds_ok hmax hin, ok_bind, hk]
    show pc.loadPage P k = _
    rw [loadPage, h₁, ok_bind, htake, ok_bind]
    simp only [hread, ok_bind]
    rfl
  · rw [hF.frames, if_pos rfl]
    rfl
  · rw [hF.frames, if_neg hg, hev.frames g hgv]
  · rw [hF.frames, if_neg hg, hev.pinCount]
  · rw [hF.pageMap, hev.pageMap]

/-- The queue after a frame's page was unpinned. -/
def queueUnpinned (pc : PageCache) (queue : List ℕ) (f : ℕ) : List ℕ :=
  if pc.bulkImport then queue else LinkedList.moved queue f

/-- The page `k` in the frame `f` was unpinned. -/
structure Unpinned (pc : PageCache) (f : ℕ) (pc' : PageCache) : Prop where
  frames : ∀ g, pc'.frames g =
    if g = f then { pc.frames f with pinCount := (pc.frames f).pinCount - 1 } else pc.frames g
  pageMap : pc'.pageMap = pc.pageMap
  nFrames : pc'.nFrames = pc.nFrames
  bulkImport : pc'.bulkImport = pc.bulkImport
  pages : pc.SamePages pc'

/-- `unpin_page` of a pinned page, unless it turns a ring that is not closed. -/
theorem unpinPage_ok (h : pc.Inv P free queue) (hk : pc.pageMap k = some f)
    (hpin : (pc.frames f).pinCount ≠ 0)
    (hclosed : pc.bulkImport = false → queue.getLast? = some f → 2 ≤ queue.length →
      pc.recentlyReferenced.Closed) :
    ∃ pc', pc.unpinPage P k = .ok pc' ∧ pc'.Inv P free (pc.queueUnpinned queue f) ∧
      pc.Unpinned f pc' ∧
      (pc.bulkImport = false → pc.recentlyReferenced.Closed ∨ f ∉ queue ∨ queue.head? ≠ some f →
        pc'.recentlyReferenced.Closed) := by
  set fr : Frame := { pc.frames f with pinCount := (pc.frames f).pinCount - 1 }
  have hI : (pc.setFrame f fr).Inv P free queue :=
    h.setFrame hk (h.mapped k f hk).2.2 fun hc hd => h.clean k f hk hc hd
  have hS : pc.SamePages (pc.setFrame f fr) := h.samePages_setFrame hk rfl
  have hframes : ∀ g, (pc.setFrame f fr).frames g = if g = f then fr else pc.frames g :=
    fun g => Function.update_apply ..
  have hrun : pc.unpinPage P k = if pc.bulkImport then .ok (pc.setFrame f fr)
      else pc.recentlyReferenced.moveBack f >>= fun q =>
        pure { pc.setFrame f fr with recentlyReferenced := q } := by
    rw [unpinPage, hk]
    simp only [h.checkBounds_ok hk, ok_bind, if_neg hpin]
    rfl
  rw [hrun, queueUnpinned]
  cases hb : pc.bulkImport with
  | true => exact ⟨_, rfl, hI, ⟨hframes, rfl, rfl, rfl, hS⟩, fun e => by (cases e)⟩
  | false =>
      obtain ⟨q, hq, hrep, hcl⟩ := LinkedList.moveBack_ok h.queue_rep h.queue_nodup (hclosed hb)
      refine ⟨{ pc.setFrame f fr with recentlyReferenced := q }, ?_, ?_, ⟨hframes, rfl, rfl, rfl,
        hS.numPages, hS.content, hS.catalogue, hS.remaining⟩, fun _ => hcl⟩
      · rw [if_neg (by simp), hq]
        rfl
      · rw [if_neg (by simp)]
        refine ⟨hI.free_rep, hrep, hI.free_nodup, LinkedList.nodup_moved hI.queue_nodup,
          fun g hg => ?_, hI.free_frame, hI.used_frame, hI.mapped, hI.in_file, hI.clean⟩
        rcases LinkedList.mem_moved.mp hg with hg | rfl
        · exact hI.queue_lt g hg
        · exact (hI.mapped k g hk).1

/-- Only a pinned page is unpinned. -/
theorem unpinPage_inv (hp : pc.unpinPage P k = .ok pc') :
    ∃ f, pc.pageMap k = some f ∧ (pc.frames f).pinCount ≠ 0 := by
  unfold unpinPage at hp
  split at hp
  · cases hp
  · rename_i f hk
    obtain ⟨_, -, hp⟩ := bind_inv hp
    refine ⟨f, hk, fun e => ?_⟩
    rw [if_pos e] at hp
    cases hp

/-! ### All frames -/

/-- The frames `l` were written back. -/
structure FlushedAll (pc : PageCache) (l : List ℕ) (pc' : PageCache) : Prop where
  frames : ∀ g, pc'.frames g =
    if g ∈ l then { pc.frames g with dirty := false } else pc.frames g
  pageMap : pc'.pageMap = pc.pageMap
  nFrames : pc'.nFrames = pc.nFrames
  queue : pc'.recentlyReferenced = pc.recentlyReferenced
  bulkImport : pc'.bulkImport = pc.bulkImport
  pages : pc.SamePages pc'

theorem forFrames_flushPage_ok (l : List ℕ) : ∀ {pc : PageCache}, pc.Inv P free queue →
    (∀ f ∈ l, f < pc.nFrames ∧ (pc.frames f).pinCount = 0) →
    ∃ pc', forFrames (flushPage P) pc l = .ok pc' ∧ pc'.Inv P free queue ∧
      pc.FlushedAll l pc' := by
  induction l with
  | nil =>
      intro pc h _
      exact ⟨pc, rfl, h, fun g => (if_neg List.not_mem_nil).symm, rfl, rfl, rfl, rfl, .refl pc⟩
  | cons f l ih =>
      intro pc h hl
      obtain ⟨hf, hpin⟩ := hl f List.mem_cons_self
      obtain ⟨pc₁, h₁, hI, hF⟩ := flushPage_ok h hf hpin
      have hpin₁ : ∀ g, (pc₁.frames g).pinCount = (pc.frames g).pinCount := by
        intro g
        rw [hF.frames]
        split
        · rename_i e
          rw [e]
        · rfl
      obtain ⟨pc₂, h₂, hI₂, hF₂⟩ := ih hI fun g hg => by
        rw [hF.nFrames, hpin₁]
        exact hl g (List.mem_cons_of_mem f hg)
      refine ⟨pc₂, ?_, hI₂, fun g => ?_, hF₂.pageMap.trans hF.pageMap, hF₂.nFrames.trans hF.nFrames,
        hF₂.queue.trans hF.queue, hF₂.bulkImport.trans hF.bulkImport,
        hF.pages.trans hF₂.pages fun hn k hk => ?_⟩
      · rw [forFrames, h₁]
        exact h₂
      · by_cases e : g = f
        · subst e
          rw [hF₂.frames, hF.frames, if_pos rfl, if_pos List.mem_cons_self]
          split <;> rfl
        · have hg : pc₁.frames g = pc.frames g := by rw [hF.frames, if_neg e]
          rw [hF₂.frames, hg]
          simp only [List.mem_cons, e, false_or]
      · rw [hF.pageMap]
        exact hn k hk

/-- A page that is pinned is not written back. -/
theorem forFrames_flushPage_error (l : List ℕ) : ∀ {pc : PageCache}, pc.Inv P free queue →
    (∀ f ∈ l, f < pc.nFrames) → (∃ f ∈ l, (pc.frames f).pinCount ≠ 0) →
    ∃ msg, forFrames (flushPage P) pc l = .error (.exit msg) := by
  induction l with
  | nil =>
      rintro pc - - ⟨f, hf, -⟩
      exact absurd hf List.not_mem_nil
  | cons f l ih =>
      intro pc h hl hex
      by_cases hpin : (pc.frames f).pinCount = 0
      · obtain ⟨pc₁, h₁, hI, hF⟩ := flushPage_ok h (hl f List.mem_cons_self) hpin
        obtain ⟨g, hg, hgpin⟩ := hex
        have hgf : g ≠ f := by
          rintro rfl
          exact hgpin hpin
        rw [forFrames, h₁]
        refine ih hI (fun g hg => hF.nFrames ▸ hl g (List.mem_cons_of_mem f hg))
          ⟨g, (List.mem_cons.mp hg).resolve_left hgf, ?_⟩
        rwa [hF.frames, if_neg hgf]
      · refine ⟨"page cache - flush page: Page is pinned!", ?_⟩
        rw [forFrames, flushPage, if_pos hpin]
        rfl

theorem appendAll_ok (is : List ℕ) : ∀ {ll : LinkedList ℕ} {l : List ℕ}, ll.Rep l →
    ∃ ll', appendAll ll is = .ok ll' ∧ ll'.Rep (l ++ is) := by
  induction is with
  | nil =>
      intro ll l h
      exact ⟨ll, rfl, by rwa [List.append_nil]⟩
  | cons i is ih =>
      intro ll l h
      obtain ⟨ll₁, h₁, hr₁, -⟩ := LinkedList.append_ok h i
      obtain ⟨ll₂, h₂, hr₂⟩ := ih hr₁
      refine ⟨ll₂, ?_, ?_⟩
      · rw [appendAll, h₁]
        exact h₂
      · rwa [List.append_assoc] at hr₂

/-- A cache without pages. -/
theorem emptyFrames_ok (P : ℕ) (pdb : PhyDatabase) (n : ℕ) (b : Bool) :
    ∃ pc, emptyFrames pdb n b = .ok pc ∧ pc.Inv P (List.range n) [] ∧ pc.pdb = pdb ∧
      pc.nFrames = n ∧ pc.bulkImport = b ∧ (∀ k, pc.pageMap k = none) ∧
      (∀ f, pc.frames f = Frame.create) ∧ pc.recentlyReferenced = .create := by
  obtain ⟨fl, h, hrep⟩ := appendAll_ok (List.range n) ⟨[], LinkedList.create_holds⟩
  rw [emptyFrames, h]
  refine ⟨_, rfl, ⟨hrep, ⟨[], LinkedList.create_holds⟩, List.nodup_range, List.nodup_nil, ?_, ?_, ?_,
    ?_, ?_, ?_⟩, rfl, rfl, rfl, fun _ => rfl, fun _ => rfl, rfl⟩
  · exact fun f hf => absurd hf List.not_mem_nil
  · exact fun f hf => ⟨List.mem_range.mp hf, rfl, rfl, rfl⟩
  · exact fun f hf hfree => absurd (List.mem_range.mpr hf) hfree
  · intro k f hk
    cases hk
  · intro k f hk
    cases hk
  · intro k f hk
    cases hk

/-- `flush_all_pages`, then no frame: the files have all the pages. -/
theorem flushAllPages_ok (h : pc.Inv P free queue)
    (hpin : ∀ f < pc.nFrames, (pc.frames f).pinCount = 0) :
    ∃ pc', pc.flushAllPages P = .ok pc' ∧ pc'.Inv P free queue ∧
      pc.FlushedAll (List.range pc.nFrames) pc' ∧
      ∀ k, k.fk ≠ .catalogue → (pc'.pdb.file k.fk k.ft).page k.pageNo = pc.content k := by
  obtain ⟨pc', h₁, hI, hF⟩ := forFrames_flushPage_ok (List.range pc.nFrames) h fun f hf =>
    ⟨List.mem_range.mp hf, hpin f (List.mem_range.mp hf)⟩
  refine ⟨pc', h₁, hI, hF, fun k hk => ?_⟩
  rw [← hF.pages.content k hk]
  cases hm : pc'.pageMap k with
  | none => rw [content_of_not_mapped hm]
  | some f =>
      rw [content_of_mapped hm]
      refine (hI.clean k f hm hk ?_).symm
      have hf := (hI.mapped k f hm).1
      rw [hF.nFrames] at hf
      rw [hF.frames, if_pos (List.mem_range.mpr hf)]

theorem flushAllPages_error (h : pc.Inv P free queue)
    (hpin : ¬ ∀ f < pc.nFrames, (pc.frames f).pinCount = 0) :
    ∃ msg, pc.flushAllPages P = .error (.exit msg) := by
  push Not at hpin
  obtain ⟨f, hf, hne⟩ := hpin
  exact forFrames_flushPage_error _ h (fun g hg => List.mem_range.mp hg)
    ⟨f, List.mem_range.mpr hf, hne⟩

/-- After a flush the frames can be freed. -/
theorem destroyFrames_ok (hn : 1 ≤ pc.nFrames) (hpin : ∀ f < pc.nFrames, (pc.frames f).pinCount = 0)
    (hdirty : ∀ f < pc.nFrames, (pc.frames f).dirty = false) : pc.destroyFrames = .ok () := by
  rw [destroyFrames, if_neg (by omega), if_neg]
  rw [Bool.not_eq_true, List.any_eq_false]
  intro f hf
  rw [List.mem_range] at hf
  simp [hpin f hf, hdirty f hf]

/-- Pages are added behind the cache's back: the pages it has stay the same. -/
theorem Inv.grow (h : pc.Inv P free queue) {db' : PhyDatabase} (hG : pc.pdb.Grows db') :
    ({ pc with pdb := db' } : PageCache).Inv P free queue ∧
      ∀ k, k.fk ≠ .catalogue → ({ pc with pdb := db' } : PageCache).content k = pc.content k := by
  refine ⟨⟨h.free_rep, h.queue_rep, h.free_nodup, h.queue_nodup, h.queue_lt, h.free_frame,
    h.used_frame, h.mapped, fun k f hk => ⟨?_, (h.in_file k f hk).2⟩, fun k f hk hc hd => ?_⟩,
    fun k hk => ?_⟩
  · have hin := (h.in_file k f hk).1
    by_cases hc : k.fk = .catalogue
    · obtain ⟨fk, ft, n⟩ := k
      cases hc
      exact Nat.lt_of_lt_of_le hin (Nat.le_of_eq hG.catalogue.symm)
    · exact Nat.lt_of_lt_of_le hin (hG.numPages k.fk k.ft hc)
  · rw [hG.page k hc]
    exact h.clean k f hk hc hd
  · unfold content
    simp only [hG.page k hk]

theorem exits_checkBounds (db : PhyDatabase) (k : PageKey) : Exits (db.checkBounds P k) := by
  unfold PhyDatabase.checkBounds
  split
  · exact .exit _
  · exact .ok _

/-- `pin_page` returns a frame that has the page, or one that had none and gets it. -/
theorem pinPage_inv (h : pc.Inv P free queue) (hp : pc.pinPage P k = .ok (f, pc')) :
    (pc.pageMap k = some f ∧ pc' = pc.setFrame f { pc.frames f with
      pinCount := (pc.frames f).pinCount + 1 }) ∨
    (pc.pageMap k = none ∧ ∃ rest, free ++ pc.victims free queue = f :: rest ∧
      pc'.Inv P rest (pc.queueAfter free queue) ∧
      pc.Loaded k f (pc.victims free queue) pc') := by
  by_cases hcat : k.fk = .catalogue ∧ k.ft ≠ .node
  · rw [pinPage, if_pos hcat] at hp
    cases hp
  · cases hk : pc.pageMap k with
    | some g =>
        rw [pinPage_hit h hcat hk] at hp
        cases hp
        exact .inl ⟨rfl, rfl⟩
    | none =>
        rw [pinPage, if_neg hcat] at hp
        obtain ⟨_, hb, hp⟩ := bind_inv hp
        obtain ⟨hmax, hin⟩ := PhyDatabase.checkBounds_inv hb
        rw [hk] at hp
        cases hroom : free ++ pc.victims free queue with
        | nil =>
            obtain ⟨msg, he⟩ := makeRoom_error h hroom
            simp only [loadPage, he] at hp
            cases hp
        | cons g rest =>
            obtain ⟨pc₁, h₁, hI, hL⟩ := pinPage_miss h hcat hin hmax hk hroom
            rw [pinPage, if_neg hcat, hb, ok_bind, hk] at h₁
            rw [h₁] at hp
            cases hp
            exact .inr ⟨rfl, rest, rfl, hI, hL⟩

theorem exits_pinPage (h : pc.Inv P free queue) (k : PageKey) : Exits (pc.pinPage P k) := by
  by_cases hcat : k.fk = .catalogue ∧ k.ft ≠ .node
  · rw [pinPage, if_pos hcat]
    exact .exit _
  · cases hk : pc.pageMap k with
    | some g =>
        rw [pinPage_hit h hcat hk]
        exact .ok _
    | none =>
        rw [pinPage, if_neg hcat]
        refine .bind (exits_checkBounds _ _) fun _ hb => ?_
        obtain ⟨hmax, hin⟩ := PhyDatabase.checkBounds_inv hb
        cases hroom : free ++ pc.victims free queue with
        | nil =>
            obtain ⟨msg, he⟩ := makeRoom_error h hroom
            rw [hk]
            simp only [loadPage, he]
            exact .exit _
        | cons g rest =>
            obtain ⟨pc₁, h₁, -, -⟩ := pinPage_miss h hcat hin hmax hk hroom
            rw [pinPage, if_neg hcat, hb, ok_bind] at h₁
            rw [h₁]
            exact .ok _

/-- `page_cache_change_n_frames` writes all pages back and starts anew. -/
theorem changeNFrames_ok (h : pc.Inv P free queue) (hn : 1 ≤ pc.nFrames)
    (hpin : ∀ f < pc.nFrames, (pc.frames f).pinCount = 0) (n : ℕ) :
    ∃ pc', pc.changeNFrames P n = .ok pc' ∧ pc'.Inv P (List.range n) [] ∧ pc'.nFrames = n ∧
      pc.SamePages pc' := by
  obtain ⟨pc₁, h₁, hI, hF, hdisk⟩ := flushAllPages_ok h hpin
  have hpin₁ : ∀ f < pc₁.nFrames, (pc₁.frames f).pinCount = 0 := by
    intro f hf
    rw [hF.nFrames] at hf
    rw [hF.frames, if_pos (List.mem_range.mpr hf)]
    exact hpin f hf
  have hdirty₁ : ∀ f < pc₁.nFrames, (pc₁.frames f).dirty = false := by
    intro f hf
    rw [hF.nFrames] at hf
    rw [hF.frames, if_pos (List.mem_range.mpr hf)]
  obtain ⟨pc₂, h₂, hI₂, hdb, hn₂, -, hmap, -, -⟩ := emptyFrames_ok P pc₁.pdb n pc₁.bulkImport
  refine ⟨pc₂, ?_, hI₂, hn₂, fun fk ft => ?_, fun k hk => ?_, fun hc => ?_, ?_⟩
  · rw [changeNFrames, h₁, ok_bind, if_neg, destroyFrames_ok (hF.nFrames ▸ hn) hpin₁ hdirty₁]
    · exact h₂
    · rw [Bool.not_eq_true, List.any_eq_false]
      intro f hf
      simp [hpin₁ f (List.mem_range.mp hf)]
  · rw [hdb, hF.pages.numPages]
  · rw [content_of_not_mapped (hmap k), hdb, hdisk k hk]
  · rw [hdb, hF.pages.catalogue hc]
  · rw [hdb, hF.pages.remaining]

end PageCache

end Goedb
