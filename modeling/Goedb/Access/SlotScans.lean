import Goedb.Access.Creation
import Goedb.Access.Looking
import Goedb.Access.Scanning
import Goedb.Lib.Trace

/-!
# Access — which slots are visited

`get_nodes`, `get_relationships` and the search of `next_free_slots` keep the slot in an
`unsigned char` and give it eight bits of the id.  The number of slots in a page is a sixteenth of
the page size.  With pages of 4 KiB the two agree; with larger pages the slot starts over at zero
before it reaches the end of the page.

* `HeapFile.scansSlots_iff`: all slots are visited exactly if the pages have 4 KiB, or there are none.
-/

namespace Goedb

open Lib

open Prog (Keeps)

/-- The place that an existence check looks at, as page and slot. -/
def placeOf : ∀ β, RecordOp β → Option (ℕ × ℕ)
  | _, .checkRecordExists _ id => some (pageOf id, slotOf id)
  | _, _ => none

/-- The places of records from a slot on in a file of `n` pages, in ascending order. -/
def placesFrom (P : ℕ) (ft : FileType) (n start : ℕ) : List (ℕ × ℕ) :=
  (List.range' start ((n * slotsPerPage P - start) / numSlotsPer ft) (numSlotsPer ft)).map fun j =>
    (j / slotsPerPage P, j % slotsPerPage P)

namespace HeapFile

open PhyDatabase

/-- The places that a function looks at. -/
def looks {α : Type} (P : ℕ) (x : HF α) (hf : HeapFile PhyDatabase) : List (ℕ × ℕ) :=
  Prog.trace placeOf (step P (flat P)) x hf

/-- The function returns, and looks at all places in the record file. -/
def Visits {α : Type} (P : ℕ) (ft : FileType) (x : HF α) (hf : HeapFile PhyDatabase) : Prop :=
  (∃ r hf', Prog.run (step P (flat P)) x hf = .ok (r, hf')) ∧
    (looks P x hf).filter (·.1 < (hf.cache.records ft).numPages) =
      placesFrom P ft (hf.cache.records ft).numPages 0

/-- The search of `next_free_slots`. -/
def search (P fuel : ℕ) (ft : FileType) (hf : HeapFile PhyDatabase) : HF (Option Ulong) :=
  let prev := hf.counters.lastAlloc ft
  HF.findFreeSlot P ft fuel prev (pageOf prev) (slotOf prev)

/-- The places that the search of `next_free_slots` has before it. -/
def ahead (P : ℕ) (ft : FileType) (hf : HeapFile PhyDatabase) : List (ℕ × ℕ) :=
  let prev := hf.counters.lastAlloc ft
  placesFrom P ft (hf.cache.records ft).numPages (pageOf prev * slotsPerPage P + slotOf prev)

/-- The functions that list records and the search for free slots come to an end, and visit the
places in order; the search gives up after the last one. -/
structure ScansSlots (P : ℕ) (hf : HeapFile PhyDatabase) : Prop where
  nodes : ∃ fuel, Visits P .node (HF.getNodes P fuel) hf
  relationships : ∃ fuel, Visits P .relationship (HF.getRelationships P fuel) hf
  free : ∀ ft, ∃ fuel o hf', Prog.run (step P (flat P)) (search P fuel ft hf) hf = .ok (o, hf') ∧
    looks P (search P fuel ft hf) hf <+: ahead P ft hf ∧
    (o = none → looks P (search P fuel ft hf) hf = ahead P ft hf)

/-- A heap file with pages of `P` bytes: the header has no bits for records beyond the record file. -/
structure Sound (P : ℕ) (hf : HeapFile PhyDatabase) : Prop where
  accounts : hf.cache.Accounts P
  clear : ∀ ft i, (hf.cache.records ft).numPages * slotsPerPage P ≤ i →
    pageBit ((hf.cache.header ft).page (i / (P * charBit))) (i % (P * charBit)) = false
  aligned : hf.counters.lastAllocRelId.toNat % 4 = 0

end HeapFile

/-! ### Pages of 4 KiB -/

namespace Store

variable {s : Store} {ft : FileType}

/-- The places that a function looks at. -/
def looks {α : Type} (s : Store) (x : HF α) : List (ℕ × ℕ) := Prog.trace placeOf step x s

theorem looks_bind_ok {α β : Type} {x : HF α} {a : α} {s' : Store} (hx : run x s = .ok (a, s'))
    (f : α → HF β) : s.looks (x >>= f) = s.looks x ++ s'.looks (f a) := Prog.trace_bind_ok hx f

theorem looks_check {k : ℕ} (hk : k < 2 ^ 63) :
    s.looks (HF.checkRecordExists ft (BitVec.ofNat 64 k)) = [(k / 256, k % 256)] := by
  rw [looks, HF.checkRecordExists, Prog.trace_perform, placeOf, pageOf_eq, slotOf_eq,
    BitVec.toNat_ofNat, Nat.mod_eq_of_lt (by omega)]
  rfl

theorem placesFrom_eq_cons {n k : ℕ} (hk : k % numSlotsPer ft = 0) (hp : k / 256 < n) :
    placesFrom 4096 ft n k = (k / 256, k % 256) :: placesFrom 4096 ft n (k + numSlotsPer ft) := by
  have hS : slotsPerPage 4096 = 256 := rfl
  have hlen : (n * 256 - k) / numSlotsPer ft =
      (n * 256 - (k + numSlotsPer ft)) / numSlotsPer ft + 1 := by
    rcases numSlotsPer_cases ft with hn | hn <;> rw [hn] at hk ⊢ <;> omega
  rw [placesFrom, placesFrom, hS, hlen, List.range'_succ, List.map_cons]

theorem placesFrom_eq_nil {n k : ℕ} (hp : n ≤ k / 256) : placesFrom 4096 ft n k = [] := by
  have hS : slotsPerPage 4096 = 256 := rfl
  rw [placesFrom, hS, show n * 256 - k = 0 by omega, Nat.zero_div]
  rfl

section Scan

variable {α : Type} {read : Ulong → HF α} {rd : Ulong → α}

theorem looks_readIf (hread : ∀ id, s.Live ft id → run (read id) s = .ok (rd id, s))
    (hquiet : ∀ id, s.Live ft id → s.looks (read id) = []) (id : Ulong) :
    s.looks (HF.readIf read id (decide (s.Live ft id))) = [] := by
  by_cases hl : s.Live ft id
  · rw [HF.readIf, if_pos (decide_eq_true hl), looks_bind_ok (hread id hl), hquiet id hl]
    rfl
  · rw [HF.readIf, if_neg (by simpa using hl)]
    rfl

/-- The scan from slot `k` on, where `m + 1` records are left. -/
theorem looks_scan (hv : s.Valid) (hread : ∀ id, s.Live ft id → run (read id) s = .ok (rd id, s))
    (hquiet : ∀ id, s.Live ft id → s.looks (read id) = []) (m : ℕ) : ∀ {k fuel : ℕ},
    k % numSlotsPer ft = 0 → k + (m + 1) * numSlotsPer ft = s.pages ft * 256 → m < fuel →
    s.looks (HF.scan 4096 ft read fuel (BitVec.ofNat 64 k) (k / 256) (k % 256)) =
      placesFrom 4096 ft (s.pages ft) k := by
  have hn := numSlotsPer_cases ft
  have hmax := hv.pages_lt ft
  rw [show maxPageNo 4096 = 2251799813685247 by decide] at hmax
  have hpages : run (Prog.perform (.numPages ft)) s = .ok (s.pages ft, s) := rfl
  -- one turn looks at its slot, whether a record is there or not
  have hturn : ∀ {k fuel : ℕ}, k % numSlotsPer ft = 0 → k / 256 < s.pages ft →
      s.looks (HF.scan 4096 ft read (fuel + 1) (BitVec.ofNat 64 k) (k / 256) (k % 256)) =
        (k / 256, k % 256) :: s.looks
          (if (k + numSlotsPer ft) / 256 < s.pages ft then
            HF.scan 4096 ft read fuel
                (HF.recordId ((k + numSlotsPer ft) / 256) ((k + numSlotsPer ft) % 256))
                ((k + numSlotsPer ft) / 256) ((k + numSlotsPer ft) % 256) >>= fun rest =>
              pure ((if s.Live ft (BitVec.ofNat 64 k) then [BitVec.ofNat 64 k] else []).map rd ++
                rest)
          else pure ((if s.Live ft (BitVec.ofNat 64 k) then [BitVec.ofNat 64 k] else []).map rd)) := by
    intro k fuel hk hp
    have hid : (BitVec.ofNat 64 k).toNat / 256 < s.pages ft := by
      rw [BitVec.toNat_ofNat, Nat.mod_eq_of_lt (by omega)]
      exact hp
    rw [HF.scan, looks_bind_ok (run_checkRecordExists hv hid), looks_check (by omega),
      looks_bind_ok (run_readIf hread _), looks_readIf hread hquiet, nextSlot_eq hn hk]
    simp only [looks_bind_ok hpages]
    rfl
  induction m with
  | zero =>
      intro k fuel hk hend hf
      obtain ⟨fuel, rfl⟩ := Nat.exists_eq_succ_of_ne_zero (Nat.ne_of_gt hf)
      rw [hturn hk (by omega), if_neg (by omega), placesFrom_eq_cons hk (by omega),
        placesFrom_eq_nil (by omega)]
      rfl
  | succ m ih =>
      intro k fuel hk hend hf
      obtain ⟨fuel, rfl⟩ := Nat.exists_eq_succ_of_ne_zero (Nat.ne_of_gt (Nat.zero_lt_of_lt hf))
      have hnext : (k + numSlotsPer ft) / 256 < s.pages ft := by
        rcases hn with hn | hn <;> rw [hn] at hend ⊢ <;> omega
      have hk' : (k + numSlotsPer ft) % numSlotsPer ft = 0 := by rw [Nat.add_mod_right, hk]
      have hend' : k + numSlotsPer ft + (m + 1) * numSlotsPer ft = s.pages ft * 256 := by
        rw [← hend]
        ring
      have hlt := Nat.lt_of_succ_lt_succ hf
      have hp : k / 256 < s.pages ft := by omega
      rw [hturn hk hp, if_pos hnext, recordId_eq (by omega),
        looks_bind_ok (run_scan hv hread m hk' hend' hlt), ih hk' hend' hlt,
        placesFrom_eq_cons hk hp]
      exact congrArg _ (List.append_nil _)

/-- The scan of a whole file. -/
theorem looks_scan_all (hv : s.Valid)
    (hread : ∀ id, s.Live ft id → run (read id) s = .ok (rd id, s))
    (hquiet : ∀ id, s.Live ft id → s.looks (read id) = []) {fuel : ℕ}
    (hf : s.pages ft * 256 < fuel) :
    (s.looks (HF.scan 4096 ft read fuel 0#64 0 0)).filter (·.1 < s.pages ft) =
      placesFrom 4096 ft (s.pages ft) 0 := by
  have hn := numSlotsPer_cases ft
  by_cases hp : s.pages ft = 0
  · rw [hp, placesFrom_eq_nil (Nat.zero_le _), List.filter_eq_nil_iff]
    exact fun p _ h => Nat.not_lt_zero _ (of_decide_eq_true h)
  · obtain ⟨m, hm⟩ : ∃ m, s.pages ft * 256 / numSlotsPer ft = m + 1 :=
      Nat.exists_eq_succ_of_ne_zero (by rcases hn with hn | hn <;> rw [hn] <;> omega)
    have hend : 0 + (m + 1) * numSlotsPer ft = s.pages ft * 256 := by
      rw [← hm]
      rcases hn with hn | hn <;> rw [hn] <;> omega
    have hlen : m < fuel := by
      rcases hn with hn | hn <;> rw [hn] at hm <;> omega
    have hlooks := looks_scan hv hread hquiet m (Nat.zero_mod _) hend hlen
    rw [show HF.scan 4096 ft read fuel 0#64 0 0 =
      HF.scan 4096 ft read fuel (BitVec.ofNat 64 0) (0 / 256) (0 % 256) from rfl, hlooks,
      List.filter_eq_self]
    intro p hp
    rw [placesFrom, show slotsPerPage 4096 = 256 from rfl, List.mem_map] at hp
    obtain ⟨j, hj, rfl⟩ := hp
    obtain ⟨i, hi, rfl⟩ := List.mem_range'.mp hj
    refine decide_eq_true ?_
    rcases hn with hn | hn <;> rw [hn] at hi ⊢ <;> simp only <;> omega

end Scan

/-- The search from slot `k` on. -/
theorem looks_findFreeSlot (hv : s.Valid) (fuel : ℕ) : ∀ {k : ℕ}, k % numSlotsPer ft = 0 →
    k < 2 ^ 62 → s.pages ft * 256 - k < fuel → ∃ o,
      run (HF.findFreeSlot 4096 ft fuel (BitVec.ofNat 64 k) (k / 256) (k % 256)) s = .ok (o, s) ∧
      s.looks (HF.findFreeSlot 4096 ft fuel (BitVec.ofNat 64 k) (k / 256) (k % 256)) <+:
        placesFrom 4096 ft (s.pages ft) k ∧
      (o = none →
        s.looks (HF.findFreeSlot 4096 ft fuel (BitVec.ofNat 64 k) (k / 256) (k % 256)) =
          placesFrom 4096 ft (s.pages ft) k) := by
  have hn := numSlotsPer_cases ft
  have hmax := hv.pages_lt ft
  rw [show maxPageNo 4096 = 2251799813685247 by decide] at hmax
  have hpages : run (Prog.perform (.numPages ft)) s = .ok (s.pages ft, s) := rfl
  induction fuel with
  | zero => exact fun _ _ h => absurd h (Nat.not_lt_zero _)
  | succ fuel ih =>
      intro k hk hlt hf
      have hid : (BitVec.ofNat 64 k).toNat = k := by
        rw [BitVec.toNat_ofNat, Nat.mod_eq_of_lt (by omega)]
      rw [HF.findFreeSlot, run, Prog.run_bind_ok _ hpages, looks_bind_ok hpages]
      by_cases hp : k / 256 < s.pages ft
      · have hcheck := run_checkRecordExists hv
          (show (BitVec.ofNat 64 k).toNat / 256 < s.pages ft by rw [hid]; exact hp)
        rw [if_pos hp, Prog.run_bind_ok _ hcheck, looks_bind_ok hcheck, looks_check (by omega),
          placesFrom_eq_cons hk hp]
        by_cases hl : s.Live ft (BitVec.ofNat 64 k)
        · rw [if_neg (by simp [hl]), nextSlot_eq hn hk]
          dsimp only
          rw [recordId_eq (by omega)]
          obtain ⟨o, hr, hpre, hall⟩ := ih (k := k + numSlotsPer ft)
            (by rw [Nat.add_mod_right, hk]) (by omega) (by omega)
          exact ⟨o, hr, List.cons_prefix_cons.mpr ⟨rfl, hpre⟩, fun ho =>
            congrArg (List.cons (k / 256, k % 256)) (hall ho)⟩
        · have hfits : k % 256 % slotsPerPage 4096 ≤
              (k % 256 + (numSlotsPer ft - 1)) % slotsPerPage 4096 := by
            rw [show slotsPerPage 4096 = 256 from rfl]
            rcases hn with hn | hn <;> rw [hn] at hk ⊢ <;> omega
          rw [if_pos ⟨decide_eq_false hl, hfits⟩]
          refine ⟨some (BitVec.ofNat 64 k), rfl, ?_, fun ho => by cases ho⟩
          exact List.cons_prefix_cons.mpr ⟨rfl, List.nil_prefix⟩
      · rw [if_neg hp, placesFrom_eq_nil (not_lt.mp hp)]
        exact ⟨none, rfl, List.nil_prefix, fun _ => rfl⟩

/-- The search from the last id handed out. -/
theorem looks_search (hv : s.Valid) {prev : Ulong} (ha : prev.toNat % numSlotsPer ft = 0) : ∃ o,
    run (HF.findFreeSlot 4096 ft (s.pages ft * 256 + 1) prev (pageOf prev) (slotOf prev)) s =
        .ok (o, s) ∧
      s.looks (HF.findFreeSlot 4096 ft (s.pages ft * 256 + 1) prev (pageOf prev) (slotOf prev)) <+:
        placesFrom 4096 ft (s.pages ft) (pageOf prev * slotsPerPage 4096 + slotOf prev) ∧
      (o = none →
        s.looks (HF.findFreeSlot 4096 ft (s.pages ft * 256 + 1) prev (pageOf prev) (slotOf prev)) =
          placesFrom 4096 ft (s.pages ft) (pageOf prev * slotsPerPage 4096 + slotOf prev)) := by
  have hmax := hv.pages_lt ft
  rw [show maxPageNo 4096 = 2251799813685247 by decide] at hmax
  have hstart : pageOf prev * slotsPerPage 4096 + slotOf prev = prev.toNat := by
    rw [pageOf_eq, slotOf_eq, show slotsPerPage 4096 = 256 from rfl]
    omega
  rw [hstart, pageOf_eq, slotOf_eq]
  by_cases hlt : prev.toNat < 2 ^ 62
  · have h := looks_findFreeSlot hv (s.pages ft * 256 + 1) ha hlt (by omega)
    rw [BitVec.ofNat_toNat, BitVec.setWidth_eq] at h
    exact h
  · have hpages : run (Prog.perform (.numPages ft)) s = .ok (s.pages ft, s) := rfl
    refine ⟨none, ?_, ?_⟩
    · rw [run, HF.findFreeSlot, Prog.run_bind_ok _ hpages, if_neg (by omega)]
      rfl
    · rw [HF.findFreeSlot, looks_bind_ok hpages, if_neg (by omega), placesFrom_eq_nil (by omega)]
      exact ⟨List.nil_prefix, fun _ => rfl⟩

end Store

/-! ### Larger pages -/

namespace HeapFile

open PhyDatabase

variable {P : ℕ} {hf : HeapFile PhyDatabase} {ft : FileType}

/-- With larger pages the slot never leaves the page. -/
theorem nextSlot_of_large {slot : ℕ} (hP : 512 ≤ slotsPerPage P) (hslot : slot < 256) :
    HF.nextSlot P (numSlotsPer ft) 0 slot = (0, (slot + numSlotsPer ft) % 256) := by
  have hn := Store.numSlotsPer_cases ft
  rw [HF.nextSlot, Nat.mod_eq_of_lt (by omega), Nat.mod_eq_of_lt (by omega), if_neg (by omega)]
  rfl

/-- **The scan does not come to an end** if a page has more slots than a slot number can tell. -/
theorem scan_ne_ok {α : Type} {read : Ulong → HF α} (hP : 512 ≤ slotsPerPage P)
    (hread : ∀ id, Keeps (step P (flat P)) (· = ·) (read id))
    (hpages : 0 < (hf.cache.records ft).numPages) (fuel : ℕ) : ∀ {id : Ulong} {slot : ℕ},
    slot < 256 → ∀ r hf', Prog.run (step P (flat P)) (HF.scan P ft read fuel id 0 slot) hf ≠
      .ok (r, hf') := by
  induction fuel with
  | zero =>
      intro id slot _ r hf' h
      cases h
  | succ fuel ih =>
      intro id slot hslot r hf' h
      rw [HF.scan] at h
      obtain ⟨found, hf₁, h₁, h⟩ := Prog.run_bind_inv _ h
      obtain rfl := same_check ft id _ _ _ h₁
      obtain ⟨here, hf₂, h₂, h⟩ := Prog.run_bind_inv _ h
      have hsame : hf = hf₂ := by
        cases found with
        | false =>
            cases h₂
            rfl
        | true =>
            obtain ⟨a, hf₃, h₃, h₄⟩ := Prog.run_bind_inv _ h₂
            cases h₄
            exact hread id _ _ _ h₃
      subst hsame
      rw [nextSlot_of_large hP hslot] at h
      have hnum : Prog.run (step P (flat P)) (Prog.perform (.numPages ft)) hf =
          .ok ((hf.cache.records ft).numPages, hf) := rfl
      dsimp only at h
      rw [Prog.run_bind_ok _ hnum, if_pos hpages] at h
      obtain ⟨rest, hf₃, h₃, -⟩ := Prog.run_bind_inv _ h
      exact ih (Nat.mod_lt _ (by decide)) _ _ h₃

/-! ### Empty record files -/

theorem compareBits_size (ar : PageData) {size n : ℕ} (h : n ≤ size) (hn : n ≤ 4) :
    compareBits ar size ucharMax 0 n = compareBits ar 32768 ucharMax 0 n := by
  have hc : charBit = 8 := rfl
  unfold compareBits
  rw [if_neg (show ¬ (size < 0 + n ∨ charBit < n) by omega),
    if_neg (show ¬ (32768 < 0 + n ∨ charBit < n) by omega)]

/-- No record is found at the start of an empty file. -/
theorem run_checkRecordExists_empty (hP : 16 ≤ P) (hs : hf.Sound P)
    (hpages : (hf.cache.records ft).numPages = 0) :
    Prog.run (step P (flat P)) (HF.checkRecordExists ft 0#64) hf = .ok (false, hf) := by
  have hc : charBit = 8 := rfl
  have hn : numSlotsPer ft = 1 ∨ numSlotsPer ft = 4 ∧ 0 % 4 = 0 := by cases ft <;> decide
  have hkey : OnPages.headerKey P ft (absoluteSlot P 0#64) = ⟨.header, ft, 0⟩ := by
    simp [OnPages.headerKey, absoluteSlot, pageOf, slotOf]
  have habs : absoluteSlot P 0#64 % (P * charBit) = 0 := by simp [absoluteSlot, pageOf, slotOf]
  have hin : hf.cache.InFile ⟨.header, ft, 0⟩ := hs.accounts.header_pos ft
  have hmax : 0 < maxPageNo P := Nat.zero_lt_of_lt (hs.accounts.records_lt ft)
  have hbounds := checkBounds_ok (k := ⟨.header, ft, 0⟩) hmax hin
  have hpin : (Prog.perform (.pinPage ⟨.header, ft, 0⟩)).run (flat P) hf.cache =
      .ok ((), hf.cache) := by
    rw [Prog.run_perform, flat, if_neg (by simp), hbounds]
    rfl
  have hunpin : (Prog.perform (.unpinPage ⟨.header, ft, 0⟩)).run (flat P) hf.cache =
      .ok ((), hf.cache) := by
    rw [Prog.run_perform, flat, hbounds]
    rfl
  have hget : (Prog.perform (.getData ⟨.header, ft, 0⟩)).run (flat P) hf.cache =
      .ok ((hf.cache.header ft).page 0, hf.cache) := rfl
  have hbits : ((List.range (numSlotsPer ft)).all fun i =>
      pageBit ((hf.cache.header ft).page 0) (0 + i)) = false := by
    have h₀ := hs.clear ft 0 (by rw [hpages, Nat.zero_mul])
    rw [Nat.zero_div, Nat.zero_mod] at h₀
    refine List.all_eq_false.mpr ⟨0, List.mem_range.mpr (by omega), ?_⟩
    rw [Nat.zero_add, h₀]
    decide
  have hcompare : compareBits ((hf.cache.header ft).page 0) (P * charBit) ucharMax 0
      (numSlotsPer ft) = .ok false := by
    have hsize : 4 ≤ P * charBit := by
      rw [hc]
      omega
    rw [compareBits_size _ (by omega) (by omega), compareBits_ones _ (by omega) hn, hbits]
  have hrun : (OnPages.checkRecordExists P ft 0#64).run (flat P) hf.cache =
      .ok (false, hf.cache) := by
    have hslot : slotOf 0#64 = 0 := rfl
    rw [OnPages.checkRecordExists, if_neg (by simp), if_neg (by rw [hslot, Nat.zero_mod]; simp)]
    simp only [hkey, habs]
    rw [Prog.run_bind_ok _ hpin, Prog.run_bind_ok _ hget, hcompare]
    exact (Prog.run_bind_ok _ (show _ = Except.ok (false, hf.cache) from rfl) _).trans
      ((Prog.run_bind_ok _ hunpin _).trans rfl)
  rw [HF.checkRecordExists, Prog.run_perform]
  show onPages (flat P) hf (OnPages.checkRecordExists P ft 0#64) = _
  rw [onPages, hrun]

/-- The scan of an empty file ends after the first slot. -/
theorem visits_empty {α : Type} {read : Ulong → HF α} (hP : 16 ≤ P) (hs : hf.Sound P)
    (hpages : (hf.cache.records ft).numPages = 0) :
    Visits P ft (HF.scan P ft read 1 0#64 0 0) hf := by
  have hnum : Prog.run (step P (flat P)) (Prog.perform (.numPages ft)) hf =
      .ok ((hf.cache.records ft).numPages, hf) := rfl
  refine ⟨⟨[], hf, ?_⟩, ?_⟩
  · rw [HF.scan, Prog.run_bind_ok _ (run_checkRecordExists_empty hP hs hpages),
      Prog.run_bind_ok _ (show _ = Except.ok ([], hf) from rfl)]
    refine (Prog.run_bind_ok _ hnum _).trans ?_
    rw [hpages, if_neg (Nat.not_lt_zero _)]
    rfl
  · rw [hpages, placesFrom, Nat.zero_mul, Nat.zero_sub, Nat.zero_div, List.filter_eq_nil_iff.mpr
      fun p _ h => Nat.not_lt_zero _ (of_decide_eq_true h)]
    rfl

/-- The search in an empty file gives up at once. -/
theorem search_empty (hpages : (hf.cache.records ft).numPages = 0) :
    Prog.run (step P (flat P)) (search P 1 ft hf) hf = .ok (none, hf) ∧
      looks P (search P 1 ft hf) hf = [] ∧ ahead P ft hf = [] := by
  have hnum : Prog.run (step P (flat P)) (Prog.perform (.numPages ft)) hf =
      .ok ((hf.cache.records ft).numPages, hf) := rfl
  refine ⟨?_, ?_, ?_⟩
  · rw [search, HF.findFreeSlot, Prog.run_bind_ok _ hnum, hpages, if_neg (Nat.not_lt_zero _)]
    rfl
  · rw [looks, search, HF.findFreeSlot, Prog.trace_bind_ok hnum, hpages, if_neg (Nat.not_lt_zero _)]
    rfl
  · rw [ahead, hpages, placesFrom, Nat.zero_mul, Nat.zero_sub, Nat.zero_div]
    rfl

theorem scansSlots_empty (hP : 16 ≤ P) (hs : hf.Sound P)
    (hpages : ∀ ft, (hf.cache.records ft).numPages = 0) : ScansSlots P hf where
  nodes := ⟨1, visits_empty hP hs (hpages .node)⟩
  relationships := ⟨1, visits_empty hP hs (hpages .relationship)⟩
  free ft := by
    obtain ⟨hrun, hlooks, hahead⟩ := search_empty (P := P) (hpages ft)
    refine ⟨1, none, hf, hrun, ?_, fun _ => ?_⟩
    · rw [hlooks]
      exact List.nil_prefix
    · rw [hlooks, hahead]

/-! ### All page sizes -/

theorem Sound.good (hs : hf.Sound 4096) : hf.Good := hs.accounts

theorem Sound.valid (hs : hf.Sound 4096) : (Store.of hf).Valid :=
  ⟨hs.accounts.records_lt, hs.clear, hs.aligned⟩

theorem looks_eq {α : Type} (hg : hf.Good) (x : HF α) : looks 4096 x hf = (Store.of hf).looks x :=
  Prog.trace_agrees step_agrees x hg

/-- With pages of 4 KiB all slots are visited. -/
theorem scansSlots_4096 (hs : hf.Sound 4096) : ScansSlots 4096 hf := by
  have hv := hs.valid
  refine ⟨?_, ?_, fun ft => ?_⟩
  · refine ⟨(Store.of hf).pages .node * 256 + 1, ?_, ?_⟩
    · obtain ⟨hf', hrun, -, -⟩ := run_ok hs.good (Store.run_getNodes hv (Nat.lt_succ_self _))
      exact ⟨_, hf', hrun⟩
    · rw [looks_eq hs.good]
      exact Store.looks_scan_all hv (fun _ hl => Store.run_readNodeInternal_false hv hl)
        (fun id hl => by
          rw [HF.readNodeInternal, if_neg (hv.ne_uninitialized hl.2.1)]
          exact Prog.trace_perform (RecordOp.readNode id) (Store.of hf)) (Nat.lt_succ_self _)
  · refine ⟨(Store.of hf).pages .relationship * 256 + 1, ?_, ?_⟩
    · obtain ⟨hf', hrun, -, -⟩ :=
        run_ok hs.good (Store.run_getRelationships hv (Nat.lt_succ_self _))
      exact ⟨_, hf', hrun⟩
    · rw [looks_eq hs.good]
      exact Store.looks_scan_all hv (fun _ hl => Store.run_readRelationshipInternal_false hv hl)
        (fun id hl => by
          rw [HF.readRelationshipInternal, if_neg (hv.ne_uninitialized hl.2.1)]
          exact Prog.trace_perform (RecordOp.readRelationship id) (Store.of hf)) (Nat.lt_succ_self _)
  · have haligned : (hf.counters.lastAlloc ft).toNat % numSlotsPer ft = 0 := by
      cases ft with
      | node => exact Nat.mod_one _
      | relationship => exact hs.aligned
    obtain ⟨o, hrun, hpre, hall⟩ := Store.looks_search hv haligned
    obtain ⟨hf', hrun', -, -⟩ := run_ok hs.good hrun
    refine ⟨(Store.of hf).pages ft * 256 + 1, o, hf', hrun', ?_, fun ho => ?_⟩
    · rw [looks_eq hs.good]
      exact hpre
    · rw [looks_eq hs.good]
      exact hall ho

/-- **All slots are visited** exactly if the pages have 4 KiB, or there are none. -/
theorem scansSlots_iff (hP : ∃ k, 12 ≤ k ∧ P = 2 ^ k) (hs : hf.Sound P) :
    ScansSlots P hf ↔ P = 4096 ∨ ∀ ft, (hf.cache.records ft).numPages = 0 := by
  obtain ⟨k, hk, rfl⟩ := hP
  constructor
  · intro h
    by_cases h12 : k = 12
    · rw [h12]
      exact .inl rfl
    · have hlarge : 512 ≤ slotsPerPage (2 ^ k) := by
        rw [slotsPerPage, Nat.le_div_iff_mul_le (by decide)]
        exact Nat.pow_le_pow_right (show 0 < 2 by decide) (show 13 ≤ k by omega)
      refine .inr fun ft => Nat.eq_zero_of_not_pos fun hpos => ?_
      cases ft with
      | node =>
          obtain ⟨fuel, ⟨r, hf', hrun⟩, -⟩ := h.nodes
          exact scan_ne_ok hlarge same_readNodeInternal hpos fuel (Nat.zero_lt_succ 255) r hf' hrun
      | relationship =>
          obtain ⟨fuel, ⟨r, hf', hrun⟩, -⟩ := h.relationships
          exact scan_ne_ok hlarge same_readRelationshipInternal hpos fuel (Nat.zero_lt_succ 255) r hf'
            hrun
  · rintro (h | h)
    · rw [h] at hs ⊢
      exact scansSlots_4096 hs
    · exact scansSlots_empty ((show 16 ≤ 2 ^ 12 by decide).trans
        (Nat.pow_le_pow_right (show 0 < 2 by decide) hk)) hs h

theorem WellFormed.sound (hw : hf.WellFormed) : hf.Sound 4096 :=
  ⟨hw.good, hw.store.valid.bit_beyond, hw.store.valid.aligned⟩

/-- Two nodes and two relationships in pages of 4 KiB. -/
theorem scansSlots_created : ∃ db hf₀ hf, PhyDatabase.create 4096 = .ok db ∧
    create 4096 1000 (flat 4096) db = .ok hf₀ ∧
    run (HF.creations 4096 1000 [.node 7#64, .node 8#64, .relationship 0#64 1#64 0#64 5#64,
      .relationship 1#64 1#64 0#64 6#64]) hf₀ = .ok ([0#64, 1#64, 0#64, 4#64], hf) ∧
    (∀ ft, (hf.cache.records ft).numPages = 1) ∧ ScansSlots 4096 hf := by
  have h : Prog.check Store.step (HF.creations 4096 1000
      [.node 7#64, .node 8#64, .relationship 0#64 1#64 0#64 5#64,
        .relationship 1#64 1#64 0#64 6#64]) Store.empty
      (fun ids s => decide (ids = [0#64, 1#64, 0#64, 4#64] ∧ s.pages .node = 1 ∧
        s.pages .relationship = 1)) = true := by
    decide +kernel
  obtain ⟨ids, s, hrun, hp⟩ := Prog.check_inv _ h
  obtain ⟨rfl, hn, hr⟩ := of_decide_eq_true hp
  obtain ⟨db, hf₀, hf, hdb, hcreate, hrun', hw, rfl⟩ := exists_created hrun
  refine ⟨db, hf₀, hf, hdb, hcreate, hrun', fun ft => ?_, ?_⟩
  · cases ft with
    | node => exact hn
    | relationship => exact hr
  · exact (scansSlots_iff ⟨12, le_rfl, rfl⟩ hw.sound).mpr (.inl rfl)

/-- A node in pages of 8 KiB: `get_nodes` does not come to an end. -/
theorem not_scansSlots_8192 : ∃ db hf₀ hf, PhyDatabase.create 8192 = .ok db ∧
    create 8192 1000 (flat 8192) db = .ok hf₀ ∧
    Prog.run (step 8192 (flat 8192)) (HF.createNode 8192 1000 0#64) hf₀ = .ok (0#64, hf) ∧
    (∀ fuel r hf', Prog.run (step 8192 (flat 8192)) (HF.getNodes 8192 fuel) hf ≠ .ok (r, hf')) ∧
    ¬ ScansSlots 8192 hf := by
  have h : Prog.check (step 8192 (flat 8192))
      (HF.countRecords 8192 1000 >>= fun _ => HF.createNode 8192 1000 0#64)
      ⟨PhyDatabase.fresh 8192, ⟨0, 0, 0, 0, []⟩⟩
      (fun id hf => decide (id = 0#64 ∧ (hf.cache.records .node).numPages = 1)) = true := by
    decide +kernel
  obtain ⟨id, hf, hrun, hp⟩ := Prog.check_inv _ h
  obtain ⟨rfl, hpages⟩ := of_decide_eq_true hp
  obtain ⟨u, hf₀, hcount, hcreate⟩ := Prog.run_bind_inv _ hrun
  have hne : ∀ fuel r hf', Prog.run (step 8192 (flat 8192)) (HF.getNodes 8192 fuel) hf ≠
      .ok (r, hf') := fun fuel r hf' =>
    scan_ne_ok (by decide) same_readNodeInternal (hpages ▸ Nat.one_pos) fuel (by decide) r hf'
  refine ⟨_, hf₀, hf, PhyDatabase.create_eq ⟨13, by decide, by decide, by decide⟩, ?_, hcreate,
    hne, fun hs => ?_⟩
  · rw [create]
    exact congrArg (· >>= fun p => pure p.2) hcount
  · obtain ⟨fuel, ⟨r, hf', hrun'⟩, -⟩ := hs.nodes
    exact hne fuel r hf' hrun'

end HeapFile

end Goedb
