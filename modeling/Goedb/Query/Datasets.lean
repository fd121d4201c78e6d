import Goedb.Query.EdgeList

/-!
# Query — data sets

`import`: a data set is downloaded, uncompressed and imported.  What `download_dataset` has put in its file
is given here.

A list of edges that is written as text and compressed is the graph that `import` leaves
(`importDataset_edges`).  Comments may stand between the edges, whatever does not begin with a digit behind
them, and the last line need not end with a line feed.
-/

namespace Goedb

open Lib

/-- `import`, with what `download_dataset` has put in the file, if it returns 0. -/
def HeapFile.importDataset (P fuel : ℕ) (hf : HeapFile PageCache) (I : Inflater) (io : Calls)
    (scanDouble : List Uchar → Option Double) (downloaded : Option (List Uchar)) (weighted : Bool)
    (dataset : Dataset) : Except Fault (HeapFile PageCache) := do
  match downloaded with
  | none => .error (.exit "snap importer - import: Couldn't download dataset!\n")
  | some gz =>
      let (ret, text) ← uncompressDataset I io gz fuel
      if ret ≠ 0 then .error (.exit "snap importer - import: Couldn't uncompress dataset!\n")
      else
        let (_, hf) ← hf.importFromText P fuel scanDouble text weighted dataset
        return hf

variable {scanDouble : List Uchar → Option Double}

/-! ### Edges that are written down -/

/-- A line to write: a comment, or an edge, with white space between the ids and something behind
them. -/
inductive TextLine where
  | comment (text : List Uchar)
  | edge (fromId toId : Ulong) (gap tail : List Uchar)
  deriving DecidableEq

namespace TextLine

/-- The text of a line. -/
def print : TextLine → List Uchar
  | comment text => hash :: text
  | edge fromId toId gap tail => decimal fromId.toNat ++ (gap ++ decimal toId.toNat ++ tail)

/-- What the line says. -/
def entry : TextLine → Option Entry
  | comment _ => none
  | edge fromId toId _ _ => some ⟨fromId, toId, doubleOne⟩

/-- The line keeps to itself: there is no line feed in it, it has room in the buffer, and the ids do not run
into each other or into what is behind them. -/
def Plain (line : TextLine) : Prop :=
  newline ∉ line.print ∧ line.print.length + 2 ≤ chunk ∧
    match line with
    | comment _ => True
    | edge _ _ gap tail => gap ≠ [] ∧ (∀ c ∈ gap, isSpace c) ∧ NoDigit tail

theorem print_ne_nil (line : TextLine) : line.print ≠ [] := by
  cases line with
  | comment text => exact List.cons_ne_nil _ _
  | edge fromId toId gap tail =>
      rw [print, ne_eq, List.append_eq_nil_iff, not_and]
      exact fun h => absurd h (decimal_ne_nil _)

theorem head_print_edge {fromId toId : Ulong} {gap tail sfx : List Uchar} :
    ((edge fromId toId gap tail).print ++ sfx).head? ≠ some hash := by
  obtain ⟨c, cs, hcs⟩ := List.exists_cons_of_ne_nil (decimal_ne_nil fromId.toNat)
  have hc : isDigit c := isDigit_decimal fromId.toNat c (hcs ▸ List.mem_cons_self)
  rw [print, hcs, List.cons_append, List.cons_append, List.head?_cons, ne_eq, Option.some.injEq]
  exact (ne_zero_of_isDigit hc).2.2

theorem edgeText_print {fromId toId : Ulong} {gap tail : List Uchar}
    (h : (edge fromId toId gap tail).Plain) {sfx : List Uchar} (hsfx : NoDigit sfx) :
    EdgeText ((edge fromId toId gap tail).print ++ sfx) ⟨fromId, toId, doubleOne⟩ := by
  obtain ⟨-, -, hgap, hspace, htail⟩ := h
  have hdigits : ∀ n, ∀ c ∈ decimal n, (decide (c ≠ 0#8)) = true := fun n c hc =>
    decide_eq_true (ne_zero_of_isDigit (isDigit_decimal n c hc)).1
  have hspaces : ∀ c ∈ gap, (decide (c ≠ 0#8)) = true := fun c hc =>
    decide_eq_true (ne_zero_of_isSpace (hspace c hc))
  refine ⟨rfl, decimal fromId.toNat, gap ++ decimal toId.toNat, cString (tail ++ sfx), ?_,
    numeral_decimal (fun _ hc => absurd hc List.not_mem_nil) fromId, numeral_decimal hspace toId, ?_, ?_⟩
  · simp only [print, cString, List.append_assoc]
    rw [List.takeWhile_append_of_pos (hdigits _), List.takeWhile_append_of_pos hspaces,
      List.takeWhile_append_of_pos (hdigits _)]
  · obtain ⟨c, gap, rfl⟩ := List.exists_cons_of_ne_nil hgap
    rintro d ⟨⟩
    exact isDigit_of_isSpace (hspace c List.mem_cons_self)
  · exact (htail.append hsfx).cString

theorem noDigit_newline : NoDigit [newline] := by
  rintro c ⟨⟩
  decide

theorem noDigit_nil : NoDigit [] := by
  rintro c ⟨⟩

end TextLine

/-- A text file: lines with line feeds, and perhaps a last one without. -/
def printFile (lines : List TextLine) (last : Option TextLine) : List Uchar :=
  lines.flatMap (fun line => line.print ++ [newline]) ++ last.elim [] TextLine.print

/-- The edges of a text file, in their order. -/
def edgesOf (lines : List TextLine) (last : Option TextLine) : List Entry :=
  (lines ++ last.toList).filterMap TextLine.entry

variable {lines : List TextLine} {last : Option TextLine}

/-- The written lines say what they were written for. -/
theorem saysEdges_print {sfx : List Uchar} (hsfx : NoDigit sfx) (lines : List TextLine)
    (h : ∀ line ∈ lines, line.Plain) :
    SaysEdges (lines.map fun line => line.print ++ sfx) (lines.filterMap TextLine.entry) := by
  induction lines with
  | nil => exact .nil
  | cons line lines ih =>
      have hlines := ih fun l hl => h l (List.mem_cons_of_mem _ hl)
      rw [SaysEdges] at hlines ⊢
      cases line with
      | comment text =>
          rw [List.map_cons, List.filter_cons_of_neg (by simp [TextLine.print]),
            List.filterMap_cons_none rfl]
          exact hlines
      | edge fromId toId gap tail =>
          have hentry : (TextLine.edge fromId toId gap tail).entry = some ⟨fromId, toId, doubleOne⟩ := rfl
          have hhead : ((TextLine.edge fromId toId gap tail).print ++ sfx).head? ≠ some hash :=
            TextLine.head_print_edge
          rw [List.map_cons, List.filter_cons_of_pos
              (p := fun buf : List Uchar => decide (buf.head? ≠ some hash)) (decide_eq_true hhead),
            List.filterMap_cons_some hentry]
          exact .cons (TextLine.edgeText_print (h _ List.mem_cons_self) hsfx) hlines

/-- **A written file is read as it was written.** -/
theorem saysEdges_printFile (h : ∀ line ∈ lines ++ last.toList, line.Plain) :
    SaysEdges (fileLines chunk (printFile lines last)) (edgesOf lines last) := by
  have hlines : ∀ line ∈ lines, line.Plain := fun l hl => h l (List.mem_append_left _ hl)
  have hlast : ∀ line ∈ last, line.Plain := fun l hl =>
    h l (List.mem_append_right _ (Option.mem_toList.mpr hl))
  have hread : fileLines chunk (printFile lines last) =
      lines.map (fun line => line.print ++ [newline]) ++
        (last.toList).map fun line => line.print ++ [] := by
    have hflat : printFile lines last =
        (lines.map TextLine.print).flatMap (· ++ [newline]) ++ last.elim [] TextLine.print := by
      rw [List.flatMap_map]
      rfl
    rw [hflat, fileLines_flatMap two_le_chunk, List.map_map]
    · refine congrArg (_ ++ ·) ?_
      cases last with
      | none => rfl
      | some line => simp [TextLine.print_ne_nil]
    · intro l hl
      obtain ⟨line, hline, rfl⟩ := List.mem_map.mp hl
      exact ⟨(hlines line hline).1, (hlines line hline).2.1⟩
    · cases last with
      | none => exact ⟨List.not_mem_nil, by decide⟩
      | some line => exact ⟨(hlast line rfl).1, Nat.le_of_succ_le (hlast line rfl).2.1⟩
  rw [hread, edgesOf, List.filterMap_append, SaysEdges, List.filter_append]
  exact List.rel_append (saysEdges_print TextLine.noDigit_newline lines hlines)
    (saysEdges_print TextLine.noDigit_nil last.toList fun l hl => hlast l (Option.mem_toList.mp hl))

/-! ### Data sets -/

section Uncompress

variable {F : Format Uchar Uchar} {I : Inflater} {io : Calls}
  {At : I.State → List Uchar → List Uchar → Prop}

/-- Why the inner loop lets the function return. -/
theorem inflateLoop_inl (h : I.Keeps F At) (fuel : ℕ) : ∀ {c : List Uchar} {s : Inflating I},
    At s.stream c s.outFile → ∀ left, inflateLoop I io fuel s = .ok (.inl left) →
    (∃ d, d <+: c ++ s.nextIn ∧ F.Reached d ∧ F.fate d = .refused) ∨ ∃ i, io.fwriteFails i := by
  induction fuel with
  | zero =>
      intro c s _ left hl
      cases hl
  | succ fuel ih =>
      intro c s hat left hl
      obtain ⟨hret, hcall, hnext⟩ := h _ c _ s.nextIn chunk hat chunk_pos _ rfl
      rw [inflateLoop_succ hret] at hl
      generalize I.inflate s.stream s.nextIn chunk = answer at hl hcall hnext
      split_ifs at hl with hf hroom
      · refine hf.imp (fun hf => ?_) fun hw => ⟨_, hw⟩
        exact ⟨_, read_take c s answer.numUsed, hcall.reached, hcall.refused_of_failed hf⟩
      · cases hl
      · exact read_after c s answer ▸ ih hnext left hl

/-- Why the outer loop lets the function return. -/
theorem readLoop_inl (h : I.Keeps F At) (fuel turns : ℕ) : ∀ (numReads : ℕ) {c : List Uchar}
    (file : List Uchar) {s : Inflating I}, At s.stream c s.outFile → ∀ left,
    readLoop I io fuel turns numReads file s = .ok (.inl left) →
    (∃ d, d <+: c ++ file ∧ F.Reached d ∧ F.fate d = .refused) ∨ io.Fail := by
  induction turns with
  | zero =>
      intro numReads c file s _ left hl
      cases hl
  | succ turns ih =>
      intro numReads c file s hat left hl
      have hchunk : c ++ file.take chunk <+: c ++ file :=
        (List.prefix_append_right_inj c).mpr (List.take_prefix _ _)
      rw [readLoop] at hl
      split_ifs at hl with hread
      · exact .inr (.inr (.inr (.inr (.inl ⟨_, hread⟩))))
      · set s₀ : Inflating I := { s with nextIn := file.take chunk }
        have hat₀ : At s₀.stream c s₀.outFile := hat
        cases hinner : inflateLoop I io fuel s₀ with
        | error e =>
            rw [hinner] at hl
            cases hl
        | ok r =>
            rw [hinner] at hl
            cases r with
            | inl left' =>
                refine (inflateLoop_inl h fuel hat₀ left' hinner).imp ?_ fun hw =>
                  .inr (.inr (.inr (.inr hw)))
                rintro ⟨d, hd, hreached, hfate⟩
                exact ⟨d, hd.trans hchunk, hreached, hfate⟩
            | inr p =>
                obtain ⟨ret, s'⟩ := p
                obtain ⟨-, -, hend⟩ := inflateLoop_leftWith h fuel hat₀ _ hinner
                by_cases hret : ret = .streamEnd
                · simp only [hret, ne_eq, not_true_eq_false, if_false] at hl
                  cases hl
                · rw [if_neg hret] at hend
                  simp only [hret, ne_eq, not_false_eq_true, if_true] at hl
                  have hback : c ++ s₀.nextIn ++ file.drop chunk = c ++ file := by
                    rw [List.append_assoc, List.take_append_drop]
                  exact hback ▸ ih (numReads + 1) (file.drop chunk) hend.2 left hl

/-- **A complete stream** is uncompressed. -/
theorem uncompressDataset_eq (hI : I.Decodes F) (hio : ¬ io.Fail) {gz c : List Uchar} (hc : c <+: gz)
    (hreached : F.Reached c) (hend : F.fate c = .ended) :
    ∃ N, ∀ fuel ≥ N, uncompressDataset I io gz fuel = .ok (0, F.output c) := by
  have hfate : F.fate c ≠ .opened := by rw [hend]; exact Fate.noConfusion
  have hhalts : Halts (uncompressDataset I io gz) := uncompressDataset_halts hI (.inr ⟨c, hc, hfate⟩)
  obtain ⟨N, r, hN⟩ := hhalts
  refine ⟨N, fun fuel hfuel => ?_⟩
  have hok := hN fuel hfuel
  rcases uncompressDataset_endsWith io hI gz fuel with hd | ⟨out, hout, -⟩ | ⟨d, hout, hd, hr, he⟩
  · cases hd.symm.trans hok
  · -- it would have returned from within a loop
    exfalso
    obtain ⟨At, hinit, hkeeps⟩ := hI
    rw [uncompressDataset, if_neg fun h => hio (.inl h), if_neg fun h => hio (.inr (.inl h)),
      if_neg fun h => hio (.inr (.inr (.inl h)))] at hout
    split at hout
    · cases hout
    · rename_i left hl
      rcases readLoop_inl hkeeps fuel fuel 0 (c := []) gz (s := ⟨I.init, [], 0, []⟩) hinit left hl with
        ⟨d, hd, hr, hrefused⟩ | hfail
      · have hcd := hreached.eq hr hc hd hfate (by rw [hrefused]; exact Fate.noConfusion)
        rw [hcd, hrefused] at hend
        cases hend
      · exact hio hfail
    · rename_i ret s hl
      rcases readLoop_endsWith hkeeps fuel fuel 0 (c := []) gz (s := ⟨I.init, [], 0, []⟩) hinit with
        ⟨o, ho, hends⟩ | hd
      · rw [hl] at ho
        cases ho
        rw [if_pos hends.1] at hout
        cases hout
      · rw [hl] at hd
        cases hd
  · rw [hout, hreached.eq hr hc hd hfate (by rw [he]; exact Fate.noConfusion)]

end Uncompress

/-- **Edges that are written down and compressed** are the graph that `import` leaves in a new database:
for every compressed form of the text, behind which the file may go on, and every decoder. -/
theorem importDataset_edges {fuel' n : ℕ} {db : PhyDatabase} {pc : PageCache}
    {hf : HeapFile PageCache} {dataset : Dataset} {F : Format Uchar Uchar} {I : Inflater} {io : Calls}
    {gz c : List Uchar} (hn : 1 ≤ n) (hdb : PhyDatabase.create 4096 = .ok db)
    (hpc : PageCache.create db n = .ok pc)
    (hcreate : HeapFile.create 4096 fuel' (PageCache.handler 4096) pc = .ok hf) (hI : I.Decodes F)
    (hio : ¬ io.Fail) (hc : c <+: gz) (hreached : F.Reached c) (hend : F.fate c = .ended)
    (htext : F.output c = printFile lines last) (hplain : ∀ line ∈ lines ++ last.toList, line.Plain)
    (hfits : FitsHeapFile (edgesOf lines last)) :
    ∃ k, ∀ fuel ≥ k, ∃ hf', hf.importDataset 4096 fuel I io scanDouble (some gz) false dataset = .ok hf' ∧
      ∃ N R, hf'.Shows fun g => ImportedAs g (idsOfEntries (edgesOf lines last)) (edgesOf lines last) N R := by
  obtain ⟨k, hk⟩ := uncompressDataset_eq hI hio hc hreached hend
  refine ⟨max k (max (maxPageNo 4096 * 256) ((printFile lines last).length + 1)), fun fuel hfuel => ?_⟩
  obtain ⟨hfuel₁, hfuel₂, hfuel₃⟩ : k ≤ fuel ∧ maxPageNo 4096 * 256 ≤ fuel ∧
      (printFile lines last).length < fuel := by omega
  obtain ⟨s, hC, hF, hp⟩ := HeapFile.create_filled hn hdb hpc hcreate
  obtain ⟨hf₁, s₁, hC₁, hF₁, heq⟩ := HeapFile.importFromTxt_eq hC hF hp fuel
    ((fileLines chunk (printFile lines last)).map (lineOf scanDouble)) false dataset
  obtain ⟨hread, hentries⟩ := (saysEdges_iff scanDouble _).mp
    (saysEdges_printFile hplain)
  obtain ⟨N, R, hf', hrun, hshows⟩ := HeapFile.run_importLines_cached hC₁ hF₁ hfuel₂ hread
    (hentries ▸ hfits)
  refine ⟨hf'.setBulkImport false, ?_, N, R, hentries ▸ hshows⟩
  rw [HeapFile.importDataset]
  simp only [hk fuel hfuel₁, htext, ok_bind, ne_eq, not_true_eq_false, if_false]
  rw [HeapFile.importFromText_eq hfuel₃, heq, hrun]
  rfl

/-- The text of one edge as a stream of `zlib` in which it is stored as it is. -/
def storedStream : List Uchar :=
  [0x78#8, 0x01#8, 0x01#8, 0x04#8, 0x00#8, 0xfb#8, 0xff#8, 0x37#8, 0x09#8, 0x39#8, 0x0a#8, 0x01#8,
    0x77#8, 0x00#8, 0x84#8]

/-- The format with this stream only; its content begins behind seven bytes. -/
def storedFormat : Format Uchar Uchar where
  fate c :=
    if storedStream <+: c then .ended else if c <+: storedStream then .opened else .refused
  output c := (c.drop 7).take 4
  fate_nil := by decide
  output_mono := by
    rintro c c' ⟨d, rfl⟩
    rw [List.drop_append]
    exact ((List.prefix_append _ _).take 4)

theorem importDataset_edges_stored : ∃ db pc hf, PhyDatabase.create 4096 = .ok db ∧
    PageCache.create db 1 = .ok pc ∧ HeapFile.create 4096 1 (PageCache.handler 4096) pc = .ok hf ∧
    ∃ k, ∀ fuel ≥ k, ∃ hf', hf.importDataset 4096 fuel (inflaterOf storedFormat) noFailure
        (fun _ => none) (some (storedStream ++ [0x00#8])) false .cElegans = .ok hf' ∧
      ∃ N R, hf'.Shows fun g => ImportedAs g (idsOfEntries [⟨7#64, 9#64, doubleOne⟩])
        [⟨7#64, 9#64, doubleOne⟩] N R := by
  have h : (PhyDatabase.create 4096 >>= fun db => PageCache.create db 1 >>= fun pc =>
      HeapFile.create 4096 1 (PageCache.handler 4096) pc >>= fun _ => pure true) = .ok true := by
    decide +kernel
  obtain ⟨db, hdb, h⟩ := bind_inv h
  obtain ⟨pc, hpc, h⟩ := bind_inv h
  obtain ⟨hf, hcreate, -⟩ := bind_inv h
  have hreached : storedFormat.Reached storedStream := fun d hd hne =>
    (if_neg fun h => hne (hd.eq_of_length_le h.length_le)).trans (if_pos hd)
  have htext : storedFormat.output storedStream = printFile [.edge 7#64 9#64 [0x09#8] []] none := by
    simp [storedFormat, storedStream, printFile, TextLine.print, decimal, newline]
  refine ⟨db, pc, hf, hdb, hpc, hcreate, importDataset_edges (Nat.le_refl 1) hdb hpc hcreate
    (inflaterOf_decodes storedFormat) not_fail_noFailure (List.prefix_append _ _) hreached (by decide)
    htext ?_ ⟨by decide, by decide⟩⟩
  · intro line hl
    rw [Option.toList_none, List.append_nil, List.mem_singleton] at hl
    subst hl
    refine ⟨?_, ?_, by decide, by decide, TextLine.noDigit_nil⟩
    · simp [TextLine.print, decimal, newline]
    · simp [TextLine.print, decimal, chunk]

end Goedb
