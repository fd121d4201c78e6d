import Goedb.Cache.Eviction
import Goedb.Lib.Follows

/-!
# Cache — one page at a time

The functions of the access layer pin a page, read and write it, and unpin it before they pin the
next one.  Used in this way the page cache behaves as flat pages do, with any number of frames and
whatever it evicts: between two pins it is `Quiet`, with the page in hand it is `Held`.

During a bulk import nothing is asked of the queue, which `bulk_evict` does not look at.  Without it,
that the ring of the queue may not be closed after an eviction does no harm here.  The page that the
eviction made room for is the only one that is pinned; its frame is not in the queue, and is appended
to it when the page is unpinned, which closes the ring.
-/

namespace Goedb

open Lib

namespace PageCache

/-- The pages in the frames and in the files are those of a database. -/
structure Mirrors (pc : PageCache) (db : PhyDatabase) : Prop where
  numPages : ∀ fk ft, (db.file fk ft).numPages = (pc.pdb.file fk ft).numPages
  page : ∀ k, k.fk ≠ .catalogue → db.pages k = pc.content k
  catalogue : db.catalogue = pc.pdb.catalogue
  remaining : db.remainingHeaderBits = pc.pdb.remainingHeaderBits

/-- No page is pinned, and the queue is in order, if it is used. -/
structure Quiet (P : ℕ) (pc : PageCache) (free queue : List ℕ) : Prop where
  inv : pc.Inv P free queue
  unpinned : ∀ f < pc.nFrames, (pc.frames f).pinCount = 0
  queued : pc.bulkImport = false → pc.Queued queue
  disjoint : pc.bulkImport = false → ∀ f ∈ queue, f ∉ free
  closed : pc.bulkImport = false → pc.recentlyReferenced.Closed
  noCatalogue : pc.NoCatalogue
  nFrames_pos : 1 ≤ pc.nFrames

/-- The page `k`, in the frame `f`, is the one that is pinned. -/
structure Held (P : ℕ) (pc : PageCache) (k : PageKey) (f : ℕ) (free queue : List ℕ) : Prop where
  inv : pc.Inv P free queue
  mapped : pc.pageMap k = some f
  pinned : (pc.frames f).pinCount = 1
  unpinned : ∀ g < pc.nFrames, g ≠ f → (pc.frames g).pinCount = 0
  queued : pc.bulkImport = false → ∀ k' g, pc.pageMap k' = some g → g ≠ f → g ∈ queue
  disjoint : pc.bulkImport = false → ∀ g ∈ queue, g ∉ free
  closed : pc.bulkImport = false → f ∈ queue → pc.recentlyReferenced.Closed
  noCatalogue : pc.NoCatalogue
  nFrames_pos : 1 ≤ pc.nFrames

variable {P : ℕ} {pc pc' : PageCache} {db : PhyDatabase} {free queue : List ℕ} {k : PageKey} {f : ℕ}

theorem Mirrors.of_samePages (h : pc.Mirrors db) (hS : pc.SamePages pc') (hn : pc.NoCatalogue) :
    pc'.Mirrors db where
  numPages fk ft := (h.numPages fk ft).trans (hS.numPages fk ft).symm
  page k hk := (h.page k hk).trans (hS.content k hk).symm
  catalogue := h.catalogue.trans (hS.catalogue hn).symm
  remaining := h.remaining.trans hS.remaining.symm

theorem Mirrors.checkBounds (h : pc.Mirrors db) (k : PageKey) :
    pc.pdb.checkBounds P k = db.checkBounds P k := by
  rw [PhyDatabase.checkBounds, PhyDatabase.checkBounds, h.numPages]

/-! ### Pin and unpin -/

theorem Quiet.pinPage (h : pc.Quiet P free queue) (hk : k.fk ≠ .catalogue)
    (hb : pc.pdb.checkBounds P k = .ok ()) :
    ∃ f pc' free' queue', pc.pinPage P k = .ok (f, pc') ∧ pc'.Held P k f free' queue' ∧
      pc.SamePages pc' := by
  obtain ⟨hmax, hin⟩ := PhyDatabase.checkBounds_inv hb
  have hcat : ¬ (k.fk = .catalogue ∧ k.ft ≠ .node) := fun hc => hk hc.1
  cases hm : pc.pageMap k with
  | some f =>
      set fr : Frame := { pc.frames f with pinCount := (pc.frames f).pinCount + 1 }
      have hframes : ∀ g, (pc.setFrame f fr).frames g = if g = f then fr else pc.frames g :=
        fun g => Function.update_apply ..
      have hf := (h.inv.mapped k f hm).1
      refine ⟨f, pc.setFrame f fr, free, queue, pinPage_hit h.inv hcat hm, ⟨?_, hm, ?_, ?_, ?_,
        h.disjoint, fun hb _ => h.closed hb, h.noCatalogue, h.nFrames_pos⟩,
        h.inv.samePages_setFrame hm rfl⟩
      · exact h.inv.setFrame hm (h.inv.mapped k f hm).2.2 (h.inv.clean k f hm)
      · rw [hframes, if_pos rfl]
        show (pc.frames f).pinCount + 1 = 1
        rw [h.unpinned f hf]
        rfl
      · intro g hg hne
        rw [hframes, if_neg hne]
        exact h.unpinned g hg
      · intro hb k' g hk' _
        exact h.queued hb k' g hk' (h.unpinned g (h.inv.mapped k' g hk').1)
  | none =>
      have ha : Available P pc.nFrames pc free queue := ⟨h.inv, h.queued, rfl⟩
      obtain ⟨f, rest, hroom⟩ := List.exists_cons_of_ne_nil
        (ha.room h.nFrames_pos (h.unpinned 0 h.nFrames_pos))
      obtain ⟨pc', hp, hI, hL⟩ := pinPage_miss h.inv hcat hin hmax hm hroom
      have hqueue : pc.bulkImport = false →
          pc.queueAfter free queue = queue.filter fun g => g ∉ pc.victims free queue := by
        intro hb
        rw [queueAfter, if_neg (by simp [hb])]
      -- the frames that are free now were free before, or are no longer in the queue
      have hleave : pc.bulkImport = false → ∀ g ∈ f :: rest, g ∉ pc.queueAfter free queue := by
        intro hb g hg hq
        rw [hqueue hb, List.mem_filter] at hq
        rw [← hroom] at hg
        rcases List.mem_append.mp hg with hg | hg
        · exact h.disjoint hb g hq.1 hg
        · exact of_decide_eq_true hq.2 hg
      have hbulk := hL.bulkImport
      refine ⟨f, pc', rest, _, hp, ⟨hI, ?_, ?_, ?_, ?_, ?_, ?_, ?_, hL.nFrames ▸ h.nFrames_pos⟩,
        hL.pages⟩
      · rw [hL.pageMap, if_pos rfl]
      · rw [hL.frame]
      · intro g hg hne
        rw [hL.pinCount g hne]
        exact h.unpinned g (hL.nFrames ▸ hg)
      · intro hb k' g hk' hne
        rw [hbulk] at hb
        rw [hL.pageMap] at hk'
        split at hk'
        · exact absurd (Option.some.inj hk').symm hne
        · rw [Option.filter_eq_some_iff] at hk'
          rw [hqueue hb, List.mem_filter]
          exact ⟨h.queued hb k' g hk'.1 (h.unpinned g (h.inv.mapped k' g hk'.1).1), hk'.2⟩
      · exact fun hb g hq hg => hleave (hbulk ▸ hb) g (List.mem_cons_of_mem f hg) hq
      · exact fun hb hq => absurd hq (hleave (hbulk ▸ hb) f List.mem_cons_self)
      · intro k' hk'
        rw [hL.pageMap, if_neg (by rintro rfl; exact hk hk'), h.noCatalogue k' hk']
        rfl

theorem Held.unpinPage (h : pc.Held P k f free queue) :
    ∃ pc' queue', pc.unpinPage P k = .ok pc' ∧ pc'.Quiet P free queue' ∧ pc.SamePages pc' := by
  have hpin : (pc.frames f).pinCount ≠ 0 := by
    rw [h.pinned]
    decide
  obtain ⟨pc', hu, hI, hU, hclosed⟩ := unpinPage_ok h.inv h.mapped hpin fun hb hlast _ =>
    h.closed hb (List.mem_of_mem_getLast? hlast)
  have hbulk := hU.bulkImport
  have hmem : pc.bulkImport = false → ∀ g, g ∈ pc.queueUnpinned queue f ↔ g ∈ queue ∨ g = f := by
    intro hb g
    rw [queueUnpinned, if_neg (by simp [hb]), LinkedList.mem_moved]
  refine ⟨pc', _, hu, ⟨hI, fun g hg => ?_, fun hb k' g hk' _ => ?_, fun hb g hg => ?_, fun hb => ?_,
    ?_, hU.nFrames ▸ h.nFrames_pos⟩, hU.pages⟩
  · rw [hU.frames]
    split
    · show (pc.frames f).pinCount - 1 = 0
      rw [h.pinned]
      rfl
    · rename_i hne
      exact h.unpinned g (hU.nFrames ▸ hg) hne
  · rw [hbulk] at hb
    rw [hU.pageMap] at hk'
    rw [hmem hb]
    by_cases e : g = f
    · exact .inr e
    · exact .inl (h.queued hb k' g hk' e)
  · rw [hbulk] at hb
    rcases (hmem hb g).mp hg with hg | rfl
    · exact h.disjoint hb g hg
    · exact (h.inv.mapped k g h.mapped).2.1
  · rw [hbulk] at hb
    refine hclosed hb ?_
    by_cases hq : f ∈ queue
    · exact .inl (h.closed hb hq)
    · exact .inr (.inl hq)
  · intro k' hk'
    rw [hU.pageMap]
    exact h.noCatalogue k' hk'

/-! ### The cache follows flat pages -/

/-- Between two pins the cache shows the pages of the database. -/
def QuietAs (P : ℕ) (pc : PageCache) (db : PhyDatabase) : Prop :=
  (∃ free queue, pc.Quiet P free queue) ∧ pc.Mirrors db

/-- With the page `k` in hand the cache shows the pages of the database. -/
def HeldAs (P : ℕ) (k : PageKey) (pc : PageCache) (db : PhyDatabase) : Prop :=
  (∃ f free queue, pc.Held P k f free queue) ∧ pc.Mirrors db

/-- The calls on the page in hand. -/
def OnPage (k : PageKey) : ∀ β, PageOp β → Prop
  | _, .requirePinned k' _ => k' = k
  | _, .getData k' => k' = k
  | _, .putData k' _ => k' = k
  | _, .stop _ => True
  | _, .numPages _ => False
  | _, .pinPage _ => False
  | _, .unpinPage _ => False
  | _, .newPage _ => False

open Prog (Follows Always)

/-- `pin_page`. -/
theorem follows_pinPage (h : QuietAs P pc db) (hk : k.fk ≠ .catalogue) :
    Follows (HeldAs P k) (Prog.run (handler P) (.perform (.pinPage k)) pc)
      (Prog.run (PhyDatabase.flat P) (.perform (.pinPage k)) db) := by
  obtain ⟨⟨free, queue, hQ⟩, hM⟩ := h
  rw [Prog.run_perform, Prog.run_perform]
  have hflat : PhyDatabase.flat P _ (.pinPage k) db = db.checkBounds P k >>= fun _ => .ok ((), db) := by
    rw [PhyDatabase.flat, if_neg (fun hc => hk hc.1)]
    rfl
  rw [hflat, ← hM.checkBounds]
  cases hb : pc.pdb.checkBounds P k with
  | error e =>
      have hp : pc.pinPage P k = .error e := by
        rw [PageCache.pinPage, if_neg (fun hc => hk hc.1), hb]
        rfl
      rw [handler, hp]
      exact .error e e
  | ok u =>
      obtain ⟨f, pc', free', queue', hp, hH, hS⟩ := hQ.pinPage hk hb
      rw [handler, hp]
      exact .ok () ⟨⟨f, free', queue', hH⟩, hM.of_samePages hS hQ.noCatalogue⟩

/-- `unpin_page` of the page in hand. -/
theorem follows_unpinPage (h : HeldAs P k pc db) :
    Follows (QuietAs P) (Prog.run (handler P) (.perform (.unpinPage k)) pc)
      (Prog.run (PhyDatabase.flat P) (.perform (.unpinPage k)) db) := by
  obtain ⟨⟨f, free, queue, hH⟩, hM⟩ := h
  obtain ⟨pc', queue', hu, hQ, hS⟩ := hH.unpinPage
  rw [Prog.run_perform, Prog.run_perform, handler, hu, PhyDatabase.flat, ← hM.checkBounds,
    hH.inv.checkBounds_ok hH.mapped]
  exact .ok () ⟨⟨free, queue', hQ⟩, hM.of_samePages hS hH.noCatalogue⟩

/-- Bytes of the page in hand are written. -/
theorem Held.putData (h : pc.Held P k f free queue) (hM : pc.Mirrors db) (hk : k.fk ≠ .catalogue)
    (data : PageData) :
    HeldAs P k (pc.setFrame f { pc.frames f with data := data, dirty := true })
      (db.setPage k data) := by
  set fr : Frame := { pc.frames f with data := data, dirty := true }
  have hframes : ∀ g, (pc.setFrame f fr).frames g = if g = f then fr else pc.frames g :=
    fun g => Function.update_apply ..
  have hin : db.InFile k := by
    rw [PhyDatabase.InFile, hM.numPages]
    exact (h.inv.in_file k f h.mapped).1
  refine ⟨⟨f, free, queue, h.inv.setFrame h.mapped (h.inv.mapped k f h.mapped).2.2
    fun _ e => by (cases e), h.mapped, ?_, fun g hg hne => ?_, h.queued, h.disjoint, h.closed,
    h.noCatalogue, h.nFrames_pos⟩, fun fk ft => ?_, fun k' hk' => ?_, ?_, ?_⟩
  · rw [hframes, if_pos rfl]
    exact h.pinned
  · rw [hframes, if_neg hne]
    exact h.unpinned g hg hne
  · exact (PhyDatabase.numPages_file_setPage _ _ ⟨fk, ft, 0⟩ _).trans (hM.numPages fk ft)
  · rw [h.inv.content_setFrame h.mapped, ← hM.page k' hk']
    exact PhyDatabase.page_file_setPage hin hk k' data
  · exact (PhyDatabase.catalogue_setPage hk data).trans hM.catalogue
  · exact (PhyDatabase.remainingHeaderBits_setPage data).trans hM.remaining

/-- Code on the page in hand. -/
theorem follows_onPage {α : Type} {x : Prog PageOp α} (hx : Always (OnPage k) x)
    (hk : k.fk ≠ .catalogue) (h : HeldAs P k pc db) :
    Follows (HeldAs P k) (Prog.run (handler P) x pc) (Prog.run (PhyDatabase.flat P) x db) := by
  refine Prog.run_follows (fun β op pc db hop h => ?_) x h (hx.meets db)
  have hheld := h
  obtain ⟨⟨f, free, queue, hH⟩, hM⟩ := h
  cases op with
  | requirePinned k' msg =>
      obtain rfl : k' = k := hop
      have hpin : ((pc.pageMap k').any fun f => (pc.frames f).pinCount ≠ 0) = true := by
        rw [hH.mapped, Option.any_some, hH.pinned]
        rfl
      rw [handler, if_pos hpin]
      exact .ok () hheld
  | getData k' =>
      obtain rfl : k' = k := hop
      have hdata : handler P _ (.getData k') pc = .ok (db.pages k', pc) := by
        simp only [handler, hH.mapped]
        rw [hM.page k' hk, content_of_mapped hH.mapped]
      rw [hdata]
      exact .ok _ hheld
  | putData k' data =>
      obtain rfl : k' = k := hop
      simp only [handler, hH.mapped]
      exact .ok () (hH.putData hM hk data)
  | stop e => exact .error e e
  | numPages ft => exact hop.elim
  | pinPage k' => exact hop.elim
  | unpinPage k' => exact hop.elim
  | newPage ft => exact hop.elim

/-! ### New pages -/

theorem grow_alike {df df' : DiskFile} (h : df.numPages = df'.numPages) (n : ℕ) :
    (∃ d d', df.grow P n = .ok d ∧ df'.grow P n = .ok d' ∧ d.numPages = d'.numPages) ∨
      ∃ e, df.grow P n = .error e ∧ df'.grow P n = .error e := by
  unfold DiskFile.grow
  rw [h]
  split
  · exact .inr ⟨_, rfl, rfl⟩
  · split
    · exact .inr ⟨_, rfl, rfl⟩
    · refine .inl ⟨_, _, rfl, rfl, ?_⟩
      rw [(df.grownBy_append n).numPages, (df'.grownBy_append n).numPages, h]

theorem growHeader_alike {df df' : DiskFile} (h : df.numPages = df'.numPages) (r n : ℕ) :
    (∃ d d' r', PhyDatabase.growHeader P df r n = .ok (d, r') ∧
      PhyDatabase.growHeader P df' r n = .ok (d', r') ∧ d.numPages = d'.numPages) ∨
      ∃ e, PhyDatabase.growHeader P df r n = .error e ∧
        PhyDatabase.growHeader P df' r n = .error e := by
  by_cases hr : r < n
  · simp only [PhyDatabase.growHeader, if_pos hr]
    rcases grow_alike (P := P) h (PhyDatabase.divUp (PhyDatabase.divUp (n - r) charBit) P) with
      ⟨d, d', h₁, h₂, he⟩ | ⟨e, h₁, h₂⟩
    · rw [h₁, h₂]
      exact .inl ⟨d, d', _, rfl, rfl, he⟩
    · rw [h₁, h₂]
      exact .inr ⟨e, rfl, rfl⟩
  · simp only [PhyDatabase.growHeader, if_neg hr]
    exact .inl ⟨df, df', _, rfl, rfl, h⟩

/-- `allocate_pages` on two databases that differ in the bytes of their pages only. -/
theorem allocatePages_alike {db db' : PhyDatabase}
    (hn : ∀ fk ft, (db.file fk ft).numPages = (db'.file fk ft).numPages)
    (hcat : db.catalogue = db'.catalogue) (hr : db.remainingHeaderBits = db'.remainingHeaderBits)
    (ft : FileType) (n : ℕ) :
    (∃ d d', db.allocatePages P ft n = .ok d ∧ db'.allocatePages P ft n = .ok d' ∧
      (∀ fk gt, (d.file fk gt).numPages = (d'.file fk gt).numPages) ∧
      d.catalogue = d'.catalogue ∧ d.remainingHeaderBits = d'.remainingHeaderBits) ∨
      (∃ e, db.allocatePages P ft n = .error e) ∧ ∃ e, db'.allocatePages P ft n = .error e := by
  simp only [PhyDatabase.allocatePages, hr, hcat]
  rcases grow_alike (P := P) (hn .records ft) n with ⟨d, d', hd, hd', hrec⟩ | ⟨e, hd, hd'⟩
  -- a step that fails in one fails in the other
  case inr =>
    simp only [PhyDatabase.file] at hd hd'
    rw [hd, hd']
    exact .inr ⟨⟨e, rfl⟩, ⟨e, rfl⟩⟩
  simp only [PhyDatabase.file] at hd hd'
  rw [hd, hd', ok_bind, ok_bind]
  rcases growHeader_alike (P := P) (hn .header ft) (db'.remainingHeaderBits ft)
      (n * slotsPerPage P % 2 ^ 64) with ⟨c, c', r, hc, hc', hhead⟩ | ⟨e, hc, hc'⟩
  case inr =>
    simp only [PhyDatabase.file] at hc hc'
    rw [hc, hc']
    exact .inr ⟨⟨e, rfl⟩, ⟨e, rfl⟩⟩
  simp only [PhyDatabase.file] at hc hc'
  rw [hc, hc', ok_bind, ok_bind]
  cases hbuf : db'.catalogue.readPage P 0 with
  | error e => exact .inr ⟨⟨e, rfl⟩, ⟨e, rfl⟩⟩
  | ok buf =>
      simp only [ok_bind]
      generalize db'.catalogue.writePage P 0 _ = written
      cases written with
      | error e => exact .inr ⟨⟨e, rfl⟩, ⟨e, rfl⟩⟩
      | ok cat =>
          refine .inl ⟨_, _, rfl, rfl, fun fk gt => ?_, rfl, rfl⟩
          cases fk with
          | catalogue => rfl
          | header =>
              simp only [PhyDatabase.file, Function.update_apply]
              split
              · exact hhead
              · exact hn .header gt
          | records =>
              simp only [PhyDatabase.file, Function.update_apply]
              split
              · exact hrec
              · exact hn .records gt

/-- `allocate_pages` behind the cache. -/
theorem QuietAs.allocatePages (h : QuietAs P pc db) (ft : FileType) (n : ℕ) :
    (∃ db₁ db', pc.pdb.allocatePages P ft n = .ok db₁ ∧ db.allocatePages P ft n = .ok db' ∧
      QuietAs P { pc with pdb := db₁ } db') ∨
      (∃ e, pc.pdb.allocatePages P ft n = .error e) ∧ ∃ e, db.allocatePages P ft n = .error e := by
  obtain ⟨⟨free, queue, hQ⟩, hM⟩ := h
  rcases allocatePages_alike (P := P) hM.numPages hM.catalogue hM.remaining ft n with
    ⟨db', db₁, hdb', hdb₁, hnum, hcat, hrem⟩ | ⟨he, he'⟩
  · obtain ⟨hI, hcontent⟩ := hQ.inv.grow (PhyDatabase.allocatePages_grows hdb₁).1
    refine .inl ⟨db₁, db', hdb₁, hdb', ⟨free, queue, hI, hQ.unpinned, hQ.queued, hQ.disjoint,
      hQ.closed, hQ.noCatalogue, hQ.nFrames_pos⟩, hnum, fun k hk => ?_, hcat, hrem⟩
    rw [hcontent k hk, ← hM.page k hk]
    exact (PhyDatabase.allocatePages_grows hdb').1.page k hk
  · exact .inr ⟨he', he⟩

/-- `new_page`: the page is in hand. -/
theorem follows_newPage (h : QuietAs P pc db) (ft : FileType) :
    (∃ pageNo pc' db', Prog.run (handler P) (.perform (.newPage ft)) pc = .ok (pageNo, pc') ∧
      Prog.run (PhyDatabase.flat P) (.perform (.newPage ft)) db = .ok (pageNo, db') ∧
      HeldAs P ⟨.records, ft, pageNo⟩ pc' db') ∨
    (∃ e, Prog.run (handler P) (.perform (.newPage ft)) pc = .error e) ∧
      ∃ e, Prog.run (PhyDatabase.flat P) (.perform (.newPage ft)) db = .error e := by
  simp only [Prog.run_perform, handler, PageCache.newPage, PhyDatabase.flat]
  rcases h.allocatePages ft 1 with ⟨db₁, db', hdb₁, hdb', ⟨free, queue, hQ₁⟩, hM₁⟩ | ⟨⟨e, he⟩, ⟨e', he'⟩⟩
  case inr =>
    rw [he, he']
    exact .inr ⟨⟨e, rfl⟩, ⟨e', rfl⟩⟩
  rw [hdb', hdb₁]
  simp only [ok_bind]
  have hno : (db'.records ft).numPages = (db₁.records ft).numPages := hM₁.numPages .records ft
  rw [hno]
  set k : PageKey := ⟨.records, ft, (db₁.records ft).numPages - 1⟩
  have hk : k.fk ≠ .catalogue := by
    rintro ⟨⟩
  have hbounds := hM₁.checkBounds (P := P) k
  cases hb : db'.checkBounds P k with
  | error e =>
      rw [hb] at hbounds
      have hp : ({ pc with pdb := db₁ } : PageCache).pinPage P k = .error e := by
        rw [PageCache.pinPage, if_neg (fun hc => hk hc.1), hbounds]
        rfl
      rw [hp]
      exact .inr ⟨⟨e, rfl⟩, ⟨e, rfl⟩⟩
  | ok u =>
      rw [hb] at hbounds
      obtain ⟨f, pc', free', queue', hp, hH, hS⟩ := hQ₁.pinPage hk hbounds
      rw [hp]
      exact .inl ⟨_, pc', db', rfl, rfl, ⟨f, free', queue', hH⟩,
        hM₁.of_samePages hS hQ₁.noCatalogue⟩

/-! ### Creating and destroying the cache -/

theorem create_quietAs {n : ℕ} (hn : 1 ≤ n) (hc : create db n = .ok pc) : QuietAs P pc db := by
  obtain ⟨pc₁, h₁, hI, hdb, hn₁, -, hmap, hframes, hqueue⟩ := emptyFrames_ok P db n false
  rw [create, h₁] at hc
  cases hc
  refine ⟨⟨_, _, hI, fun f _ => by rw [hframes]; rfl, fun _ k f hk => ?_,
    fun _ f hf => absurd hf List.not_mem_nil, fun _ => ?_, fun k _ => hmap k, hn₁ ▸ hn⟩,
    fun fk ft => by rw [hdb], fun k _ => ?_, by rw [hdb], by rw [hdb]⟩
  · rw [hmap] at hk
    cases hk
  · rw [hqueue]
    exact .inl rfl
  · rw [content_of_not_mapped (hmap k), hdb]
    rfl

/-- `page_cache_destroy` leaves the pages in the files. -/
theorem QuietAs.destroy (h : QuietAs P pc db) : pc.destroy P = .ok db := by
  obtain ⟨⟨free, queue, hQ⟩, hM⟩ := h
  obtain ⟨pc', h₁, hI, hF, hdisk⟩ := flushAllPages_ok hQ.inv hQ.unpinned
  have hfile : ∀ fk ft, fk ≠ .catalogue → pc'.pdb.file fk ft = db.file fk ft := by
    intro fk ft hfk
    refine DiskFile.eq_of ((hF.pages.numPages fk ft).trans (hM.numPages fk ft).symm) fun i => ?_
    exact (hdisk ⟨fk, ft, i⟩ hfk).trans (hM.page ⟨fk, ft, i⟩ hfk).symm
  have hdb : pc'.pdb = db := by
    have hcat := (hF.pages.catalogue hQ.noCatalogue).trans hM.catalogue.symm
    have hheader : pc'.pdb.header = db.header := funext fun ft => hfile .header ft (by rintro ⟨⟩)
    have hrecords : pc'.pdb.records = db.records := funext fun ft => hfile .records ft (by rintro ⟨⟩)
    have hrem := hF.pages.remaining.trans hM.remaining.symm
    revert hcat hheader hrecords hrem
    cases pc'.pdb
    cases db
    rintro ⟨⟩ ⟨⟩ ⟨⟩ ⟨⟩
    rfl
  have hframes : ∀ f < pc'.nFrames, (pc'.frames f).pinCount = 0 ∧ (pc'.frames f).dirty = false := by
    intro f hf
    rw [hF.nFrames] at hf
    rw [hF.frames, if_pos (List.mem_range.mpr hf)]
    exact ⟨hQ.unpinned f hf, rfl⟩
  rw [PageCache.destroy, h₁, ok_bind, destroyFrames_ok (hF.nFrames ▸ hQ.nFrames_pos)
    (fun f hf => (hframes f hf).1) fun f hf => (hframes f hf).2, ok_bind, hdb]
  rfl

end PageCache

end Goedb
