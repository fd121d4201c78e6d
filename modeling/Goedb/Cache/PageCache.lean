import Goedb.Cache.Pages
import Goedb.DataStruct.LinkedList

/-!
# Cache — the page cache

`page_cache.c` and the frames of `page.c`.  A frame holds a copy of a page while the page map leads
from the page to the frame; a frame that holds no page is in the list of free frames.  A page that is
not in a frame is read into one when it is pinned; without a free frame, frames whose pages are not
pinned are evicted first, the dirty ones written back.

There are two ways to evict.  `evict` takes up to `EVICT_LRU_K` frames from the front of the queue of
recently referenced frames, to whose back a frame is moved when its page is unpinned.  During a
bulk import the queue is left alone and `bulkEvict` takes all frames that are not pinned.

The counters of pins and unpins and the log of the page cache are left out; memory is never
exhausted.  A pointer to a page is only used while the page is pinned, so the calls of `PageOp` name
the page and not the frame.
-/

namespace Goedb

open Lib

/-- `unsigned int`. -/
abbrev Uint := BitVec 32

/-- `EVICT_LRU_K`, a tenth of `CACHE_N_PAGES` and one. -/
def evictLruK : ℕ := 1 + 100 / 10

/-- `page`: a frame.  No key is `invalid`, `invalid_ft` and `ULONG_MAX`. -/
structure Frame where
  key : Option PageKey
  pinCount : Uint
  dirty : Bool
  data : PageData

/-- `page_create`. -/
def Frame.create : Frame := { key := none, pinCount := 0, dirty := false, data := zeroPage }

/-- `page_cache`. -/
structure PageCache where
  pdb : PhyDatabase
  nFrames : ℕ
  frames : ℕ → Frame
  freeFrames : LinkedList ℕ
  recentlyReferenced : LinkedList ℕ
  pageMap : PageKey → Option ℕ
  bulkImport : Bool

namespace PhyDatabase

/-- The disk file of a kind and a type replaced. -/
def setFile (db : PhyDatabase) (fk : FileKind) (ft : FileType) (df : DiskFile) : PhyDatabase :=
  match fk with
  | .catalogue => { db with catalogue := df }
  | .header => { db with header := Function.update db.header ft df }
  | .records => { db with records := Function.update db.records ft df }

/-- `write_page` on the file of a page. -/
def writePage (P : ℕ) (db : PhyDatabase) (k : PageKey) (data : PageData) :
    Except Fault PhyDatabase := do
  let df ← (db.file k.fk k.ft).writePage P k.pageNo data
  return db.setFile k.fk k.ft df

end PhyDatabase

namespace PageCache

/-- A frame replaced. -/
def setFrame (pc : PageCache) (frame : ℕ) (f : Frame) : PageCache :=
  { pc with frames := Function.update pc.frames frame f }

/-- Frames appended to a list. -/
def appendAll (ll : LinkedList ℕ) : List ℕ → Except Fault (LinkedList ℕ)
  | [] => .ok ll
  | i :: is => do
      let ll ← ll.append i
      appendAll ll is

/-- The part of `page_cache_create` that `page_cache_change_n_frames` repeats: frames without
pages. -/
def emptyFrames (pdb : PhyDatabase) (nFrames : ℕ) (bulkImport : Bool) : Except Fault PageCache := do
  let freeFrames ← appendAll .create (List.range nFrames)
  return { pdb := pdb
           nFrames := nFrames
           frames := fun _ => Frame.create
           freeFrames := freeFrames
           recentlyReferenced := .create
           pageMap := fun _ => none
           bulkImport := bulkImport }

/-- `page_cache_create`. -/
def create (pdb : PhyDatabase) (nFrames : ℕ) : Except Fault PageCache :=
  emptyFrames pdb nFrames false

/-- `flush_page`. -/
def flushPage (P : ℕ) (pc : PageCache) (frame : ℕ) : Except Fault PageCache := do
  let candidate := pc.frames frame
  if candidate.pinCount ≠ 0 then .error (.exit "page cache - flush page: Page is pinned!")
  else if candidate.dirty then
    match candidate.key with
    | none => .error (.exit "page cache - pin page: Invalid kind of file!")
    | some k =>
        let pdb ← pc.pdb.writePage P k candidate.data
        return { pc with pdb := pdb }.setFrame frame { candidate with dirty := false }
  else return pc

/-- A loop over frames. -/
def forFrames (f : PageCache → ℕ → Except Fault PageCache) (pc : PageCache) :
    List ℕ → Except Fault PageCache
  | [] => .ok pc
  | i :: is => do
      let pc ← f pc i
      forFrames f pc is

/-- `flush_all_pages`. -/
def flushAllPages (P : ℕ) (pc : PageCache) : Except Fault PageCache :=
  forFrames (flushPage P) pc (List.range pc.nFrames)

/-- What `evict` and `bulk_evict` do to a frame: it is flushed, taken out of the page map and added
to the free frames.  `page_map[invalid][invalid_ft]` is out of bounds. -/
def evictFrame (P : ℕ) (pc : PageCache) (frame : ℕ) : Except Fault PageCache := do
  let pc ← pc.flushPage P frame
  let candidate := pc.frames frame
  match candidate.key with
  | none => .error .undefined
  | some k =>
      if (pc.pageMap k).isNone then .error (.exit "htable - remove: No such key!")
      else
        let freeFrames ← pc.freeFrames.append frame
        return { pc with pageMap := Function.update pc.pageMap k none
                         freeFrames := freeFrames }.setFrame frame
          { candidate with key := none, data := zeroPage }

/-- The first loop of `evict`, with `n` candidates to go from `i` on: the indices of the evicted
frames in the queue, the last one first. -/
def evictLoop (P : ℕ) : (n i : ℕ) → (evictIndex : List ℕ) → PageCache →
    Except Fault (List ℕ × PageCache)
  | 0, _, evictIndex, pc => .ok (evictIndex, pc)
  | n + 1, i, evictIndex, pc => do
      let candidate ← pc.recentlyReferenced.get i
      if (pc.frames candidate).pinCount = 0 then
        let pc ← pc.evictFrame P candidate
        if evictLruK ≤ evictIndex.length + 1 then return (i :: evictIndex, pc)
        else evictLoop P n (i + 1) (i :: evictIndex) pc
      else evictLoop P n (i + 1) evictIndex pc

/-- The second loop of `evict`: from back to front, so that the indices stay right. -/
def removeAll (queue : LinkedList ℕ) : List ℕ → Except Fault (LinkedList ℕ)
  | [] => .ok queue
  | i :: is => do
      let queue ← queue.remove i
      removeAll queue is

/-- `evict`. -/
def evict (P : ℕ) (pc : PageCache) : Except Fault PageCache := do
  let (evictIndex, pc) ← evictLoop P pc.recentlyReferenced.len 0 [] pc
  let queue ← removeAll pc.recentlyReferenced evictIndex
  if evictIndex.length = 0 then
    .error (.exit
      "page cache - evict: could not find a page to evict, as all pages are pinned!")
  else return { pc with recentlyReferenced := queue }

/-- The loop of `bulk_evict` over the frames, with the number of those that were evicted. -/
def bulkEvictLoop (P : ℕ) : List ℕ → (evicted : ℕ) → PageCache → Except Fault (ℕ × PageCache)
  | [], evicted, pc => .ok (evicted, pc)
  | i :: is, evicted, pc => do
      if (pc.frames i).pinCount = 0 then
        let pc ← pc.evictFrame P i
        bulkEvictLoop P is (evicted + 1) pc
      else bulkEvictLoop P is evicted pc

/-- `bulk_evict`. -/
def bulkEvict (P : ℕ) (pc : PageCache) : Except Fault PageCache := do
  let (evicted, pc) ← bulkEvictLoop P (List.range pc.nFrames) 0 pc
  if evicted = 0 then
    .error (.exit
      "page cache - bulk evict: could not find a page to evict, as all pages are pinned!")
  else return pc

/-- The eviction of `pin_page`, where there is no free frame. -/
def makeRoom (P : ℕ) (pc : PageCache) : Except Fault PageCache :=
  if pc.freeFrames.len = 0 then
    if pc.bulkImport then pc.bulkEvict P else pc.evict P
  else .ok pc

/-- The page read into a free frame, pinned. -/
def loadPage (P : ℕ) (pc : PageCache) (k : PageKey) : Except Fault (ℕ × PageCache) := do
  let pc ← pc.makeRoom P
  let (frame, freeFrames) ← pc.freeFrames.take 0
  let data ← (pc.pdb.file k.fk k.ft).readPage P k.pageNo
  return (frame, { pc with freeFrames := freeFrames
                           pageMap := Function.update pc.pageMap k (some frame) }.setFrame frame
    { key := some k, pinCount := 1, dirty := false, data := data })

/-- `pin_page`, with the number of the frame the page is in. -/
def pinPage (P : ℕ) (pc : PageCache) (k : PageKey) : Except Fault (ℕ × PageCache) := do
  if k.fk = .catalogue ∧ k.ft ≠ .node then
    .error (.exit "page cache - pin page: Invalid Arguments!")
  else
    pc.pdb.checkBounds P k
    match pc.pageMap k with
    | some frame =>
        let page := pc.frames frame
        return (frame, pc.setFrame frame { page with pinCount := page.pinCount + 1 })
    | none => pc.loadPage P k

/-- `unpin_page`. -/
def unpinPage (P : ℕ) (pc : PageCache) (k : PageKey) : Except Fault PageCache := do
  match pc.pageMap k with
  | none => .error (.exit "page cache - unpin page: Invalid Arguments!")
  | some frame =>
      pc.pdb.checkBounds P k
      let page := pc.frames frame
      if page.pinCount = 0 then .error (.exit "page cache - unpin page: Page is not pinned!")
      else
        let pc := pc.setFrame frame { page with pinCount := page.pinCount - 1 }
        if pc.bulkImport then return pc
        else
          let queue ← pc.recentlyReferenced.moveBack frame
          return { pc with recentlyReferenced := queue }

/-- `new_page`, with the number of the page and of its frame. -/
def newPage (P : ℕ) (pc : PageCache) (ft : FileType) : Except Fault ((ℕ × ℕ) × PageCache) := do
  let pdb ← pc.pdb.allocatePages P ft 1
  let pageNo := (pdb.records ft).numPages - 1
  let (frame, pc) ← { pc with pdb := pdb }.pinPage P ⟨.records, ft, pageNo⟩
  return ((pageNo, frame), pc)

/-- The frames freed, as `page_cache_destroy` and `page_cache_change_n_frames` do it.  The data of
all frames is freed through the first one. -/
def destroyFrames (pc : PageCache) : Except Fault Unit := do
  if pc.nFrames = 0 then .error .undefined
  else if (List.range pc.nFrames).any fun f =>
      (pc.frames f).pinCount ≠ 0 || (pc.frames f).dirty then
    .error (.exit "page - destroy: page is dirty or pinned!")
  else .ok ()

/-- `page_cache_destroy`, with the database it leaves. -/
def destroy (P : ℕ) (pc : PageCache) : Except Fault PhyDatabase := do
  let pc ← pc.flushAllPages P
  pc.destroyFrames
  return pc.pdb

/-- `page_cache_change_n_frames`. -/
def changeNFrames (P : ℕ) (pc : PageCache) (nFrames : ℕ) : Except Fault PageCache := do
  let pc ← pc.flushAllPages P
  if (List.range pc.nFrames).any fun f => (pc.frames f).pinCount ≠ 0 then
    .error (.exit ("page cache - change n frames: Can not change the frame size if there are still " ++
      "pinned pages!"))
  else
    pc.destroyFrames
    emptyFrames pc.pdb nFrames pc.bulkImport

/-- What each call that reaches a page does to the page cache. -/
def handler (P : ℕ) : Handler PageOp PageCache Fault
  | _, .numPages ft, pc => .ok ((pc.pdb.records ft).numPages, pc)
  | _, .pinPage k, pc => do
      let (_, pc) ← pc.pinPage P k
      return ((), pc)
  | _, .unpinPage k, pc => do
      let pc ← pc.unpinPage P k
      return ((), pc)
  | _, .requirePinned k msg, pc =>
      if (pc.pageMap k).any fun frame => (pc.frames frame).pinCount ≠ 0 then .ok ((), pc)
      else .error (.exit msg)
  | _, .getData k, pc =>
      match pc.pageMap k with
      | none => .error .undefined
      | some frame => .ok ((pc.frames frame).data, pc)
  | _, .putData k data, pc =>
      match pc.pageMap k with
      | none => .error .undefined
      | some frame => .ok ((), pc.setFrame frame { pc.frames frame with data, dirty := true })
  | _, .newPage ft, pc => do
      let ((pageNo, _), pc) ← pc.newPage P ft
      return (pageNo, pc)
  | _, .stop f, _ => .error f

end PageCache

end Goedb
