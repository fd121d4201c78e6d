import Goedb.Lib.Scan
import Goedb.Query.FaithfulImport
import Goedb.Query.Uncompress

/-!
# Query — edge lists as text

`import_from_txt` reads its file with `fgets` and `sscanf`.  Here the file is its bytes, and the loop
over the lines is the loop over what `fgets` reads (`Importer.importText`).  It is the import of the
lines as they were read before (`importText_eq`).

* `importFromText_reads`: an import without weights returns for the texts whose lines are comments or
  begin with two numerals, if the records fit, and leaves the graph with these relationships; at the first
  other line the program exits.

What `%lf` makes of a text is a parameter.
-/

namespace Goedb

open Lib

/-- `#`. -/
def hash : Uchar := 0x23#8

/-- `sscanf` with `"%lu %lu %lf\n"`, or with `"%lu %lu\n"` without weights, if it converts all fields. -/
def sscanfFields (scanDouble : List Uchar → Option Double) (weighted : Bool) (buf : List Uchar) :
    Option (Ulong × Ulong × Option Double) := do
  let (fromId, s) ← scanUlong (cString buf)
  let (toId, s) ← scanUlong (s.dropWhile isSpace)
  if weighted then
    let weight ← scanDouble (s.dropWhile isSpace)
    return (fromId, toId, some weight)
  else return (fromId, toId, none)

/-- The loop of `import_from_txt` and of `in_memory_import_from_txt`; `inFile` is what is left of the
file. -/
def Importer.importText {Op : Type → Type} (I : Importer Op)
    (scanDouble : List Uchar → Option Double) (weighted : Bool) :
    (fuel : ℕ) → (inFile : List Uchar) → (lines : Ulong) → (txtToDbIdN txtToDbIdR : Dict) →
    Prog Op (Dict × Dict)
  | 0, _, _, _, _ => I.abort .diverge
  | fuel + 1, inFile, lines, txtToDbIdN, txtToDbIdR =>
      match fgets chunk inFile with
      | none => pure (txtToDbIdN, txtToDbIdR)
      | some (buf, inFile) =>
          if buf.head? = some hash then
            importText I scanDouble weighted fuel inFile lines txtToDbIdN txtToDbIdR
          else
            match sscanfFields scanDouble weighted buf with
            | none => I.abort (.exit "snap importer - import from txt: Failed to read input\n")
            | some (fromId, toId, weight) => do
                let (fromTo, txtToDbIdN) ←
                  I.translate (Importer.importFields weighted) 0 [fromId, toId] txtToDbIdN
                let dbId ← I.createFor fromTo weight lines
                importText I scanDouble weighted fuel inFile (lines + 1) txtToDbIdN
                  (txtToDbIdR.insert lines dbId)

/-- `import_from_txt`, with the bytes of the file. -/
def HeapFile.importFromText (P fuel : ℕ) (hf : HeapFile PageCache)
    (scanDouble : List Uchar → Option Double) (text : List Uchar) (weighted : Bool)
    (dataset : Dataset) : Except Fault ((Dict × Dict) × HeapFile PageCache) := do
  let hf := hf.setBulkImport true
  let hf ← hf.allocatePages P .node (pagesFor P .node (getNoNodes dataset))
  let hf ← hf.allocatePages P .relationship (pagesFor P .relationship (getNoRels dataset))
  let (result, hf) ← Prog.run (step P (PageCache.handler P))
    ((HF.importer P fuel).importText scanDouble weighted fuel text 0 ∅ ∅) hf
  return (result, hf.setBulkImport false)

/-- `in_memory_import_from_txt`, with the bytes of the file. -/
def inMemoryImportFromText (fuel : ℕ) (g : InMemoryGraph) (scanDouble : List Uchar → Option Double)
    (text : List Uchar) (weighted : Bool) : Except Fault ((Dict × Dict) × InMemoryGraph) :=
  InMemoryGraph.run (Mem.importer.importText scanDouble weighted fuel text 0 ∅ ∅) g

/-! ### The lines of a text -/

/-- A line as it was read. -/
def lineOf (scanDouble : List Uchar → Option Double) (buf : List Uchar) : Line :=
  if buf.head? = some hash then .comment
  else
    match sscanfFields scanDouble false buf with
    | none => .other
    | some (fromId, toId, _) =>
        .fields fromId toId ((sscanfFields scanDouble true buf).bind (·.2.2))

variable {scanDouble : List Uchar → Option Double} {buf : List Uchar}

theorem lineOf_ne_comment (h : buf.head? ≠ some hash) : lineOf scanDouble buf ≠ .comment := by
  rw [lineOf, if_neg h]
  split <;> exact Line.noConfusion

/-- The fields that are read are those of the line. -/
theorem scan_lineOf (h : buf.head? ≠ some hash) (weighted : Bool) :
    (lineOf scanDouble buf).scan weighted = sscanfFields scanDouble weighted buf := by
  rw [lineOf, if_neg h]
  simp only [sscanfFields, Option.bind_eq_bind]
  cases scanUlong (cString buf) with
  | none => rfl
  | some p =>
      obtain ⟨fromId, s⟩ := p
      simp only [Option.bind_some]
      cases scanUlong (s.dropWhile isSpace) with
      | none => rfl
      | some q =>
          obtain ⟨toId, s⟩ := q
          cases weighted with
          | false => rfl
          | true =>
              simp only [Option.bind_some, Bool.false_eq_true, if_false, if_true, Line.scan]
              cases scanDouble (s.dropWhile isSpace) <;> rfl

theorem two_le_chunk : 2 ≤ chunk := by decide

/-- **The loop over the text** is the loop over its lines. -/
theorem Importer.importText_eq {Op : Type → Type} (I : Importer Op) (weighted : Bool) (fuel : ℕ) :
    ∀ {text : List Uchar}, text.length < fuel → ∀ (lines : Ulong) (N R : Dict),
      I.importText scanDouble weighted fuel text lines N R =
        I.importLines weighted ((fileLines chunk text).map (lineOf scanDouble)) lines N R := by
  induction fuel with
  | zero => exact fun h => absurd h (Nat.not_lt_zero _)
  | succ fuel ih =>
      intro text hlen lines N R
      rw [importText]
      cases hread : fgets chunk text with
      | none =>
          cases text with
          | nil => rfl
          | cons c text => cases hread
      | some p =>
          obtain ⟨buf, rest⟩ := p
          have hrest : rest.length < fuel :=
            Nat.lt_of_lt_of_le (length_lt_of_fgets two_le_chunk hread) (Nat.le_of_lt_succ hlen)
          rw [fileLines_of_fgets two_le_chunk hread, List.map_cons, importLines]
          by_cases hc : buf.head? = some hash
          · rw [if_pos (by rw [lineOf, if_pos hc])]
            simp only [hc, if_true]
            exact ih hrest lines N R
          · rw [if_neg (lineOf_ne_comment hc), scan_lineOf hc]
            simp only [hc, if_false]
            cases sscanfFields scanDouble weighted buf with
            | none => rfl
            | some f =>
                obtain ⟨fromId, toId, weight⟩ := f
                refine congrArg (_ >>= ·) (funext fun q => congrArg (_ >>= ·) (funext fun dbId => ?_))
                exact ih hrest (lines + 1) q.2 (R.insert lines dbId)

theorem HeapFile.importFromText_eq {fuel : ℕ} {text : List Uchar} (h : text.length < fuel)
    (hf : HeapFile PageCache) (weighted : Bool) (dataset : Dataset) :
    hf.importFromText 4096 fuel scanDouble text weighted dataset =
      hf.importFromTxt 4096 fuel ((fileLines chunk text).map (lineOf scanDouble)) weighted dataset := by
  simp only [importFromText, importFromTxt, Importer.importText_eq _ weighted fuel h]

theorem inMemoryImportFromText_eq {fuel : ℕ} {text : List Uchar} (h : text.length < fuel)
    (g : InMemoryGraph) (weighted : Bool) :
    inMemoryImportFromText fuel g scanDouble text weighted =
      inMemoryImportFromTxt g ((fileLines chunk text).map (lineOf scanDouble)) weighted := by
  rw [inMemoryImportFromText, inMemoryImportFromTxt, Importer.importText_eq _ weighted fuel h]

/-! ### What a line says -/

/-- The line begins with numerals of two ids; what is behind them does not matter. -/
def EdgeText (buf : List Uchar) (e : Entry) : Prop :=
  e.weight = doubleOne ∧ ∃ fromText toText rest, cString buf = fromText ++ (toText ++ rest) ∧
    Numeral fromText e.fromId ∧ Numeral toText e.toId ∧ NoDigit (toText ++ rest) ∧ NoDigit rest

/-- The lines are comments and, in this order, those of the edges. -/
def SaysEdges (bufs : List (List Uchar)) (es : List Entry) : Prop :=
  List.Forall₂ EdgeText (bufs.filter fun buf => buf.head? ≠ some hash) es

theorem sscanfFields_eq_some_iff {e : Entry} :
    (sscanfFields scanDouble false buf).map
        (fun (fromId, toId, weight) => (⟨fromId, toId, weight.getD doubleOne⟩ : Entry)) = some e ↔
      EdgeText buf e := by
  obtain ⟨fromId, toId, weight⟩ := e
  constructor
  · intro h
    obtain ⟨⟨f, t, w⟩, hs, he⟩ := Option.map_eq_some_iff.mp h
    obtain ⟨⟨f', s₁⟩, h₁, hs⟩ := Option.bind_eq_some_iff.mp hs
    obtain ⟨⟨t', s₂⟩, h₂, hs⟩ := Option.bind_eq_some_iff.mp hs
    cases hs
    cases he
    rw [scanUlong_dropWhile] at h₂
    obtain ⟨fromText, hf, hfn, hfd⟩ := scanUlong_eq_some_iff.mp h₁
    obtain ⟨toText, rfl, htn, htd⟩ := scanUlong_eq_some_iff.mp h₂
    exact ⟨rfl, fromText, toText, s₂, hf, hfn, htn, hfd, htd⟩
  · rintro ⟨hw, fromText, toText, rest, hs, hfn, htn, hfd, htd⟩
    have h₁ : scanUlong (cString buf) = some (fromId, toText ++ rest) :=
      scanUlong_eq_some_iff.mpr ⟨fromText, hs, hfn, hfd⟩
    have h₂ : scanUlong ((toText ++ rest).dropWhile isSpace) = some (toId, rest) := by
      rw [scanUlong_dropWhile]
      exact scanUlong_eq_some_iff.mpr ⟨toText, rfl, htn, htd⟩
    have hw' : weight = doubleOne := hw
    rw [sscanfFields, h₁, hw']
    simp only [Option.bind_eq_bind, Option.bind_some, h₂]
    rfl

variable (scanDouble) in
theorem entry_lineOf_iff (h : buf.head? ≠ some hash) {e : Entry} :
    (lineOf scanDouble buf).entry false = some e ↔ EdgeText buf e := by
  rw [Line.entry, scan_lineOf h]
  exact sscanfFields_eq_some_iff

theorem Readable.of_edgeText (h : buf.head? ≠ some hash) {e : Entry} (he : EdgeText buf e) :
    (lineOf scanDouble buf).Readable false := by
  refine .inr ⟨e, (entry_lineOf_iff scanDouble h).mpr he, ?_⟩
  rw [he.1]
  decide

variable (scanDouble) in
/-- The lines say what was read from them. -/
theorem saysEdges_iff (bufs : List (List Uchar)) : ∀ {es : List Entry}, SaysEdges bufs es ↔
    (∀ line ∈ bufs.map (lineOf scanDouble), line.Readable false) ∧
      entries false (bufs.map (lineOf scanDouble)) = es := by
  induction bufs with
  | nil =>
      intro es
      rw [SaysEdges, List.filter_nil, List.forall₂_nil_left_iff, List.map_nil]
      exact ⟨fun h => ⟨fun _ hl => absurd hl List.not_mem_nil, h.symm⟩, fun h => h.2.symm⟩
  | cons buf bufs ih =>
      intro es
      rw [List.map_cons, List.forall_mem_cons]
      by_cases hc : buf.head? = some hash
      · have hline : lineOf scanDouble buf = .comment := if_pos hc
        rw [SaysEdges, List.filter_cons_of_neg (by simpa using hc), hline,
          show entries false (.comment :: bufs.map (lineOf scanDouble)) =
            entries false (bufs.map (lineOf scanDouble)) from List.filterMap_cons_none rfl]
        exact ih.trans ⟨fun h => ⟨⟨.inl rfl, h.1⟩, h.2⟩, fun h => ⟨h.1.2, h.2⟩⟩
      · rw [SaysEdges, List.filter_cons_of_pos (by simpa using hc)]
        constructor
        · intro h
          obtain ⟨e, es', he, hes, rfl⟩ := List.forall₂_cons_left_iff.mp h
          obtain ⟨hread, heq⟩ := ih.mp hes
          refine ⟨⟨Readable.of_edgeText hc he, hread⟩, ?_⟩
          exact (List.filterMap_cons_some ((entry_lineOf_iff scanDouble hc).mpr he)).trans
            (congrArg (e :: ·) heq)
        · rintro ⟨⟨hcomment | ⟨e, he, -⟩, hread⟩, rfl⟩
          · exact absurd hcomment (lineOf_ne_comment hc)
          · rw [show entries false (lineOf scanDouble buf :: bufs.map (lineOf scanDouble)) =
              e :: entries false (bufs.map (lineOf scanDouble)) from List.filterMap_cons_some he]
            exact .cons ((entry_lineOf_iff scanDouble hc).mp he) (ih.mpr ⟨hread, rfl⟩)

/-! ### Lines that cannot be read -/

namespace Importer

variable {Op : Type → Type} {σ : Type} {I : Importer Op} {h : Handler Op σ Fault}

/-- A line that is no entry is never got past. -/
theorem importLines_ne_of_unreadable {weighted : Bool} {line : Line} (hline : line ≠ .comment)
    (hscan : line.scan weighted = none) (file : List Line) (hmem : line ∈ file) :
    ∀ (lines : Ulong) (N R : Dict) (s : σ) (r : (Dict × Dict) × σ),
      Prog.run h (I.importLines weighted file lines N R) s ≠ .ok r := by
  induction file with
  | nil => exact absurd hmem List.not_mem_nil
  | cons l file ih =>
      intro lines N R s r hr
      rw [importLines] at hr
      rcases List.mem_cons.mp hmem with rfl | hmem
      · rw [if_neg hline, hscan] at hr
        exact run_abort_ne _ s r hr
      · split at hr
        · exact ih hmem lines N R s r hr
        · split at hr
          · exact run_abort_ne _ s r hr
          · obtain ⟨p, s₁, -, hr⟩ := Prog.run_bind_inv h hr
            obtain ⟨x, s₂, -, hr⟩ := Prog.run_bind_inv h hr
            exact ih hmem _ _ _ s₂ r hr

/-- The loop stops at the first line that is no entry, after the lines before it. -/
theorem run_importLines_append {weighted : Bool} (file rest : List Line) :
    ∀ {lines : Ulong} {N R N' R' : Dict} {s s' : σ},
      Prog.run h (I.importLines weighted file lines N R) s = .ok ((N', R'), s') →
      ∃ lines', Prog.run h (I.importLines weighted (file ++ rest) lines N R) s =
        Prog.run h (I.importLines weighted rest lines' N' R') s' := by
  induction file with
  | nil =>
      rintro lines N R N' R' s s' ⟨⟩
      exact ⟨lines, rfl⟩
  | cons l file ih =>
      intro lines N R N' R' s s' hr
      rw [List.cons_append, importLines]
      rw [importLines] at hr
      split at hr
      · rename_i hl
        rw [if_pos hl]
        exact ih hr
      · rename_i hl
        rw [if_neg hl]
        cases hscan : l.scan weighted with
        | none =>
            rw [hscan] at hr
            exact absurd hr (run_abort_ne _ s _)
        | some f =>
            obtain ⟨fromId, toId, weight⟩ := f
            rw [hscan] at hr
            obtain ⟨p, s₁, h₁, hr⟩ := Prog.run_bind_inv h hr
            obtain ⟨x, s₂, h₂, hr⟩ := Prog.run_bind_inv h hr
            obtain ⟨lines', heq⟩ := ih hr
            exact ⟨lines', (Prog.run_bind_ok h h₁ _).trans ((Prog.run_bind_ok h h₂ _).trans heq)⟩

end Importer

/-! ### Imports of a text -/

/-- The message of an import that cannot read a line. -/
def failedToRead : Fault := .exit "snap importer - import from txt: Failed to read input\n"

/-- What an import without weights makes of lines.  It returns only if all are comments or edges.  If the
records fit too, it returns, and the graph is the one of the edges; at a line that is neither, behind
lines that fit, the program exits. -/
structure ReadsEdges {σ : Type} (lines : List (List Uchar)) (x : Except Fault ((Dict × Dict) × σ))
    (shows : σ → (Graph → Prop) → Prop) : Prop where
  edges : ∀ r, x = .ok r → ∃ es, SaysEdges lines es
  imports : ∀ es, SaysEdges lines es → FitsHeapFile es → ∃ N R s, x = .ok ((N, R), s) ∧
    shows s fun g => ImportedAs g (idsOfEntries es) es N R
  exits : ∀ bufs buf rest es, lines = bufs ++ buf :: rest → SaysEdges bufs es → FitsHeapFile es →
    buf.head? ≠ some hash → (∀ e, ¬ EdgeText buf e) → x = .error failedToRead

/-- Without weights only a line that is no edge cannot be read. -/
theorem unreadable {line : Line} (h : ¬ line.Readable false) :
    line ≠ .comment ∧ line.scan false = none := by
  rw [Line.Readable, not_or, not_exists] at h
  refine ⟨h.1, ?_⟩
  cases line with
  | comment => exact absurd rfl h.1
  | other => rfl
  | fields fromId toId weight =>
      exact absurd ⟨rfl, (by decide : doubleOne ≠ uninitializedWeight)⟩ (h.2 ⟨fromId, toId, doubleOne⟩)

/-- An importer that imports the lines that can be read, from the state `s` on. -/
theorem ReadsEdges.of_runs {Op : Type → Type} {σ : Type} {I : Importer Op} {h : Handler Op σ Fault}
    {s : σ} {shows : σ → (Graph → Prop) → Prop} (close : σ → σ)
    (hstop : ∀ f s, h _ (I.stop f) s = .error f)
    (himports : ∀ file : List Line, (∀ line ∈ file, line.Readable false) →
      FitsHeapFile (entries false file) →
      ∃ N R s', Prog.run h (I.importLines false file 0 ∅ ∅) s = .ok ((N, R), s') ∧
        shows (close s') fun g =>
          ImportedAs g (idsOfEntries (entries false file)) (entries false file) N R)
    (lines : List (List Uchar)) :
    ReadsEdges lines (Prog.run h (I.importLines false (lines.map (lineOf scanDouble)) 0 ∅ ∅) s >>=
      fun p => pure (p.1, close p.2)) shows where
  edges r hr := by
    obtain ⟨p, hrun, -⟩ := bind_inv hr
    refine ⟨_, (saysEdges_iff scanDouble _).mpr ⟨fun line hl => ?_, rfl⟩⟩
    by_contra hread
    obtain ⟨hline, hscan⟩ := unreadable hread
    exact Importer.importLines_ne_of_unreadable hline hscan _ hl 0 ∅ ∅ s p hrun
  imports es hes hfits := by
    obtain ⟨hread, hentries⟩ := (saysEdges_iff scanDouble _).mp hes
    subst hentries
    obtain ⟨N, R, s', hrun, hs'⟩ := himports _ hread hfits
    refine ⟨N, R, close s', ?_, hs'⟩
    rw [hrun]
    rfl
  exits bufs buf rest es hlines hes hfits hc he := by
    obtain ⟨hread, hentries⟩ := (saysEdges_iff scanDouble _).mp hes
    subst hentries
    obtain ⟨N, R, s', hrun, -⟩ := himports _ hread hfits
    -- the lines before are imported, and the loop stops at this one
    obtain ⟨lines', happend⟩ := Importer.run_importLines_append _ ((buf :: rest).map (lineOf scanDouble))
      hrun
    have hscan : (lineOf scanDouble buf).scan false = none := by
      by_contra hne
      obtain ⟨f, hf⟩ := Option.ne_none_iff_exists'.mp hne
      exact he _ ((entry_lineOf_iff scanDouble hc).mp (congrArg (Option.map _) hf))
    rw [hlines, List.map_append, happend, List.map_cons, Importer.importLines,
      if_neg (lineOf_ne_comment hc), hscan]
    show Prog.run h (I.abort failedToRead) s' >>= _ = _
    rw [Importer.abort, Prog.run, hstop]
    rfl

namespace HeapFile

variable {hf : HeapFile PageCache} {s : Store} {fuel : ℕ} {file : List Line} {dataset : Dataset}

/-- The file of a new database, with nothing in it. -/
theorem create_filled {fuel n : ℕ} {db : PhyDatabase} {pc : PageCache} (hn : 1 ≤ n)
    (hdb : PhyDatabase.create 4096 = .ok db) (hpc : PageCache.create db n = .ok pc)
    (hcreate : create 4096 fuel (PageCache.handler 4096) pc = .ok hf) :
    ∃ s, Cached hf s ∧ s.Filled 0 0 ∧ ∀ ft, s.pages ft = 0 := by
  obtain ⟨hC, hH⟩ := create_holds hn hdb hpc hcreate
  exact ⟨_, hC, ⟨⟨hH.valid, Store.empty_wellFormed.weights, Store.empty_wellFormed.graph⟩,
    Store.dense_recounted .node, Store.dense_recounted .relationship⟩, fun ft => by cases ft <;> rfl⟩

theorem Filled.not_live (hF : s.Filled 0 0) (ft : FileType) (x : Ulong) : ¬ s.Live ft x := by
  intro hl
  have hd : s.Dense ft 0 := by
    cases ft with
    | node => exact hF.nodes
    | relationship => exact hF.rels
  have := ((hd.live x).mp hl).2
  rw [Nat.zero_mul] at this
  exact Nat.not_lt_zero _ this

/-- Lines that can be read and records that fit are imported. -/
theorem run_importLines_cached (hC : Cached hf s) (hF : s.Filled 0 0)
    (hfuel : maxPageNo 4096 * 256 ≤ fuel) (hread : ∀ line ∈ file, line.Readable false)
    (hfits : FitsHeapFile (entries false file)) :
    ∃ N R hf', runCached ((HF.importer 4096 fuel).importLines false file 0 ∅ ∅) hf =
        .ok ((N, R), hf') ∧ (hf'.setBulkImport false).Shows fun g =>
      ImportedAs g (idsOfEntries (entries false file)) (entries false file) N R := by
  have hmax : 64 * (maxPageNo 4096 - 1) ≤ 2 ^ 64 := by decide
  obtain ⟨N, R, s', hr, hI⟩ := (Store.creates hfuel).run_file hmax hF
    (fun x => Store.node_eq_none.mpr (Filled.not_live hF _ x))
    (fun x => Store.rel_eq_none.mpr (Filled.not_live hF _ x)) hread (.inl rfl) hfits.1 hfits.2
  have hfollows := run_cached hC
    (Tidy.importLines fuel false file 0 ∅ ∅ s hF.wellFormed.valid).1
  obtain ⟨hf', hrun, hC'⟩ := hfollows.of_ok hr
  exact ⟨N, R, hf', hrun, hC'.shows hI⟩

end HeapFile

/-- **Which texts are imported** without weights, into a new database with any number of frames and into a
new graph. -/
theorem importFromText_reads {fuel fuel' n : ℕ} {db : PhyDatabase} {pc : PageCache}
    {hf : HeapFile PageCache} {text : List Uchar} {dataset : Dataset} (hn : 1 ≤ n)
    (hdb : PhyDatabase.create 4096 = .ok db) (hpc : PageCache.create db n = .ok pc)
    (hcreate : HeapFile.create 4096 fuel' (PageCache.handler 4096) pc = .ok hf)
    (hfuel : maxPageNo 4096 * 256 ≤ fuel) (htext : text.length < fuel) :
    ReadsEdges (fileLines chunk text)
      (hf.importFromText 4096 fuel scanDouble text false dataset) HeapFile.Shows ∧
    ReadsEdges (fileLines chunk text)
      (inMemoryImportFromText fuel .create scanDouble text false) fun g p => p g.graph := by
  constructor
  · obtain ⟨s, hC, hF, hp⟩ := HeapFile.create_filled hn hdb hpc hcreate
    obtain ⟨hf₁, s₁, hC₁, hF₁, heq⟩ := HeapFile.importFromTxt_eq hC hF hp fuel
      ((fileLines chunk text).map (lineOf scanDouble)) false dataset
    rw [HeapFile.importFromText_eq htext, heq]
    exact .of_runs (HeapFile.setBulkImport · false) (fun _ _ => rfl)
      (fun file hread hfits => HeapFile.run_importLines_cached hC₁ hF₁ hfuel hread hfits) _
  · have hU₁ : 256 * (maxPageNo 4096 - 1) ≤ uninitializedLong.toNat := by decide
    have hU₂ : 64 * (maxPageNo 4096 - 1) ≤ uninitializedLong.toNat := by decide
    have hF₀ : InMemoryGraph.create.Filled 0 0 := ⟨InMemoryGraph.create_wellFormed, rfl, rfl⟩
    rw [inMemoryImportFromText_eq htext, inMemoryImportFromTxt, ← bind_pure (InMemoryGraph.run _ _)]
    refine .of_runs id (fun _ _ => rfl) (fun file hread hfits => ?_) _
    exact InMemoryGraph.creates.run_file (by decide) hF₀ (fun _ => rfl) (fun _ => rfl) hread (.inl rfl)
      (hfits.1.trans hU₁) (hfits.2.trans hU₂)

/-- A comment, and an edge with white space behind it. -/
def edgeText : List Uchar :=
  [0x23#8, 0x20#8, 0x31#8, newline, 0x37#8, 0x09#8, 0x39#8, 0x0d#8, newline, 0x39#8, 0x20#8, 0x37#8]

theorem importFromText_reads_edgeText : ∃ db pc hf, PhyDatabase.create 4096 = .ok db ∧
    PageCache.create db 1 = .ok pc ∧ HeapFile.create 4096 1 (PageCache.handler 4096) pc = .ok hf ∧
    ReadsEdges (fileLines chunk edgeText)
      (hf.importFromText 4096 (maxPageNo 4096 * 256) (fun _ => none) edgeText false .cElegans)
      HeapFile.Shows ∧
    ReadsEdges (fileLines chunk edgeText)
      (inMemoryImportFromText (maxPageNo 4096 * 256) .create (fun _ => none) edgeText false)
      fun g p => p g.graph := by
  have h : (PhyDatabase.create 4096 >>= fun db => PageCache.create db 1 >>= fun pc =>
      HeapFile.create 4096 1 (PageCache.handler 4096) pc >>= fun _ => pure true) = .ok true := by
    decide +kernel
  obtain ⟨db, hdb, h⟩ := bind_inv h
  obtain ⟨pc, hpc, h⟩ := bind_inv h
  obtain ⟨hf, hcreate, -⟩ := bind_inv h
  exact ⟨db, pc, hf, hdb, hpc, hcreate,
    importFromText_reads (Nat.le_refl 1) hdb hpc hcreate (Nat.le_refl _) (by decide)⟩

end Goedb
