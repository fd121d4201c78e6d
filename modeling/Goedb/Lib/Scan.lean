import Mathlib.Data.Nat.Digits.Lemmas
import Mathlib.Data.List.DropRight

/-!
# Lib — text files and the numerals in them

The bytes of a text as the C library reads them: `fgets` takes a line from a file, and a conversion of
`sscanf` takes a numeral from the line.

A numeral is white space, perhaps a sign, and digits.  `%lu` takes as many digits as there are; a number
that is too large becomes the largest one, and a minus negates modulo `2 ^ 64`.  `scanUlong_eq_some_iff`
says which texts are taken, and `scanUlong_decimal` that a number is read back as it was written.
-/

namespace Lib

/-- The line feed. -/
def newline : BitVec 8 := 0x0a#8

/-- `isspace`. -/
def isSpace (c : BitVec 8) : Bool := c = 0x20#8 ∨ 0x09#8 ≤ c ∧ c ≤ 0x0d#8

/-- `isdigit`. -/
def isDigit (c : BitVec 8) : Bool := 0x30#8 ≤ c ∧ c ≤ 0x39#8

/-- The text up to the first null byte. -/
def cString (s : List (BitVec 8)) : List (BitVec 8) := s.takeWhile (· ≠ 0#8)

/-! ### Lines -/

/-- The bytes that `fgets` reads, with room for `room` of them, and the file behind them. -/
def fgetsLoop : (room : ℕ) → (file : List (BitVec 8)) → List (BitVec 8) × List (BitVec 8)
  | 0, file => ([], file)
  | _ + 1, [] => ([], [])
  | room + 1, c :: file =>
      if c = newline then ([c], file)
      else
        let (buf, file) := fgetsLoop room file
        (c :: buf, file)

/-- `fgets` with a buffer of `size` bytes, of which one is for the null byte. -/
def fgets (size : ℕ) (file : List (BitVec 8)) : Option (List (BitVec 8) × List (BitVec 8)) :=
  match file with
  | [] => none
  | c :: file => some (fgetsLoop (size - 1) (c :: file))

/-- What `fgets` reads, one call after the other. -/
def readLines (size : ℕ) : (fuel : ℕ) → (file : List (BitVec 8)) → List (List (BitVec 8))
  | 0, _ => []
  | fuel + 1, file =>
      match fgets size file with
      | none => []
      | some (buf, file) => buf :: readLines size fuel file

variable {size room : ℕ} {file line buf rest : List (BitVec 8)}

theorem fgetsLoop_append : ∀ room file,
    (fgetsLoop room file).1 ++ (fgetsLoop room file).2 = file := by
  intro room
  induction room with
  | zero => exact fun file => rfl
  | succ room ih =>
      intro file
      cases file with
      | nil => rfl
      | cons c file =>
          rw [fgetsLoop]
          split
          · rfl
          · simpa using ih file

/-- A line is read whole, if there is room for it. -/
theorem fgetsLoop_line (hline : newline ∉ line) : ∀ {room}, line.length < room →
    fgetsLoop room (line ++ newline :: file) = (line ++ [newline], file) := by
  induction line with
  | nil =>
      intro room hroom
      obtain ⟨room, rfl⟩ := Nat.exists_eq_succ_of_ne_zero hroom.ne'
      rw [List.nil_append, fgetsLoop, if_pos rfl, List.nil_append]
  | cons c line ih =>
      intro room hroom
      obtain ⟨room, rfl⟩ := Nat.exists_eq_succ_of_ne_zero (Nat.ne_of_gt (Nat.zero_lt_of_lt hroom))
      rw [List.mem_cons, not_or] at hline
      rw [List.cons_append, fgetsLoop, if_neg (Ne.symm hline.1),
        ih hline.2 (Nat.lt_of_succ_lt_succ hroom), List.cons_append]

/-- The last line may end with the file. -/
theorem fgetsLoop_last (hline : newline ∉ line) : ∀ {room}, line.length ≤ room →
    fgetsLoop room line = (line, []) := by
  induction line with
  | nil =>
      intro room _
      cases room <;> rfl
  | cons c line ih =>
      intro room hroom
      obtain ⟨room, rfl⟩ := Nat.exists_eq_succ_of_ne_zero (Nat.ne_of_gt (Nat.zero_lt_of_lt hroom))
      rw [List.mem_cons, not_or] at hline
      rw [fgetsLoop, if_neg (Ne.symm hline.1), ih hline.2 (Nat.le_of_succ_le_succ hroom)]

theorem fgets_of_ne_nil (h : file ≠ []) : fgets size file = some (fgetsLoop (size - 1) file) := by
  cases file with
  | nil => exact absurd rfl h
  | cons c file => rfl

/-- Something is read at every call. -/
theorem length_lt_of_fgets (hsize : 2 ≤ size) (h : fgets size file = some (buf, rest)) :
    rest.length < file.length := by
  cases file with
  | nil => cases h
  | cons c file =>
      obtain ⟨room, hroom⟩ : ∃ room, size - 1 = room + 1 := ⟨size - 2, by omega⟩
      rw [fgets, hroom, fgetsLoop, Option.some.injEq] at h
      split at h
      · cases h
        exact Nat.lt_succ_self _
      · cases h
        have happ := congrArg List.length (fgetsLoop_append room file)
        rw [List.length_append] at happ
        rw [List.length_cons]
        omega

/-- Enough calls read the whole file. -/
theorem readLines_eq (hsize : 2 ≤ size) (fuel : ℕ) : ∀ {fuel' file}, file.length ≤ fuel →
    fuel ≤ fuel' → readLines size fuel' file = readLines size fuel file := by
  induction fuel with
  | zero =>
      intro fuel' file hlen _
      rw [Nat.le_zero, List.length_eq_zero_iff] at hlen
      subst hlen
      cases fuel' <;> rfl
  | succ fuel ih =>
      intro fuel' file hlen hle
      obtain ⟨fuel', rfl⟩ := Nat.exists_eq_succ_of_ne_zero (Nat.ne_of_gt (Nat.zero_lt_of_lt hle))
      rw [readLines, readLines]
      cases h : fgets size file with
      | none => rfl
      | some p =>
          have hlt : p.2.length < file.length := length_lt_of_fgets hsize h
          exact congrArg (p.1 :: ·) (ih (Nat.le_of_lt_succ (hlt.trans_le hlen))
            (Nat.le_of_succ_le_succ hle))

/-- The lines of a file, as `fgets` with a buffer of `size` bytes reads them. -/
def fileLines (size : ℕ) (file : List (BitVec 8)) : List (List (BitVec 8)) :=
  readLines size file.length file

theorem readLines_eq_fileLines (hsize : 2 ≤ size) {fuel : ℕ} (h : file.length ≤ fuel) :
    readLines size fuel file = fileLines size file :=
  readLines_eq hsize file.length (Nat.le_refl _) h

theorem fileLines_of_fgets (hsize : 2 ≤ size) (h : fgets size file = some (buf, rest)) :
    fileLines size file = buf :: fileLines size rest := by
  rw [← readLines_eq_fileLines hsize (Nat.le_succ file.length), readLines, h]
  exact congrArg (buf :: ·) (readLines_eq_fileLines hsize (length_lt_of_fgets hsize h).le)

/-- **A file of lines**, each with room in the buffer, and perhaps a last one without a line feed. -/
theorem fileLines_flatMap (hsize : 2 ≤ size) (lines : List (List (BitVec 8)))
    (hlines : ∀ l ∈ lines, newline ∉ l ∧ l.length + 2 ≤ size)
    (hlast : newline ∉ line ∧ line.length + 1 ≤ size) :
    fileLines size (lines.flatMap (· ++ [newline]) ++ line) =
      lines.map (· ++ [newline]) ++ if line = [] then [] else [line] := by
  induction lines with
  | nil =>
      rw [List.flatMap_nil, List.nil_append, List.map_nil, List.nil_append]
      split
      · rename_i h
        rw [h]
        rfl
      · rename_i h
        have hread : fgets size line = some (line, []) := by
          rw [fgets_of_ne_nil h, fgetsLoop_last hlast.1 (by omega)]
        rw [fileLines_of_fgets hsize hread]
        rfl
  | cons l lines ih =>
      obtain ⟨hl, hroom⟩ := hlines l List.mem_cons_self
      have hread : fgets size ((l :: lines).flatMap (· ++ [newline]) ++ line) =
          some (l ++ [newline], lines.flatMap (· ++ [newline]) ++ line) := by
        rw [fgets_of_ne_nil (by simp), List.flatMap_cons, List.append_assoc, List.append_assoc,
          List.singleton_append, fgetsLoop_line hl (by omega)]
      rw [fileLines_of_fgets hsize hread, ih fun l' hl' => hlines l' (List.mem_cons_of_mem _ hl'),
        List.map_cons, List.cons_append]

/-! ### Numerals -/

/-- The number that digits stand for. -/
def number (ds : List (BitVec 8)) : ℕ := ds.foldl (fun n c => 10 * n + (c.toNat - 48)) 0

/-- What `strtoul` makes of the number. -/
def ulongOf (negative : Bool) (n : ℕ) : BitVec 64 :=
  if 2 ^ 64 ≤ n then BitVec.allOnes 64
  else if negative then -BitVec.ofNat 64 n
  else BitVec.ofNat 64 n

/-- A sign, and what is behind it; the first result says whether it is a minus. -/
def scanSign : List (BitVec 8) → Bool × List (BitVec 8)
  | [] => (false, [])
  | c :: s => if c = 0x2d#8 then (true, s) else if c = 0x2b#8 then (false, s) else (false, c :: s)

/-- The conversion `%lu`: the number, and the text behind it. -/
def scanUlong (s : List (BitVec 8)) : Option (BitVec 64 × List (BitVec 8)) :=
  let (negative, s) := scanSign (s.dropWhile isSpace)
  if s.takeWhile isDigit = [] then none
  else some (ulongOf negative (number (s.takeWhile isDigit)), s.dropWhile isDigit)

/-- The text is a numeral of the number: white space, perhaps a sign, and digits. -/
def Numeral (text : List (BitVec 8)) (v : BitVec 64) : Prop :=
  ∃ space sign digits, text = space ++ sign ++ digits ∧ (∀ c ∈ space, isSpace c) ∧
    (sign = [] ∨ sign = [0x2b#8] ∨ sign = [0x2d#8]) ∧ digits ≠ [] ∧ (∀ c ∈ digits, isDigit c) ∧
    v = ulongOf (sign = [0x2d#8]) (number digits)

/-- No digit comes first. -/
def NoDigit (s : List (BitVec 8)) : Prop := ∀ c ∈ s.head?, isDigit c = false

theorem isDigit_of_isSpace {c : BitVec 8} (h : isSpace c) : isDigit c = false := by
  revert c
  decide

theorem not_sign_of_isDigit {c : BitVec 8} (h : isDigit c) : c ≠ 0x2d#8 ∧ c ≠ 0x2b#8 := by
  revert c
  decide

theorem ne_zero_of_isDigit {c : BitVec 8} (h : isDigit c) : c ≠ 0#8 ∧ c ≠ newline ∧ c ≠ 0x23#8 := by
  revert c
  decide

theorem ne_zero_of_isSpace {c : BitVec 8} (h : isSpace c) : c ≠ 0#8 := by
  revert c
  decide

/-- The digits that come first. -/
theorem takeWhile_digits {ds : List (BitVec 8)} (hds : ∀ c ∈ ds, isDigit c) (hrest : NoDigit rest) :
    (ds ++ rest).takeWhile isDigit = ds ∧ (ds ++ rest).dropWhile isDigit = rest := by
  rw [List.takeWhile_append_of_pos hds, List.dropWhile_append_of_pos hds]
  cases rest with
  | nil => simp
  | cons c rest => simp [hrest c rfl]

theorem noDigit_dropWhile (s : List (BitVec 8)) : NoDigit (s.dropWhile isDigit) := by
  intro c hc
  have := List.head?_dropWhile_not isDigit s
  rw [Option.mem_def] at hc
  rw [hc] at this
  simpa using this

theorem NoDigit.append {s t : List (BitVec 8)} (hs : NoDigit s) (ht : NoDigit t) :
    NoDigit (s ++ t) := by
  cases s with
  | nil => exact ht
  | cons c s => exact hs

theorem NoDigit.cString {s : List (BitVec 8)} (hs : NoDigit s) : NoDigit (cString s) := by
  cases s with
  | nil => exact hs
  | cons c s =>
      intro d hd
      rw [Lib.cString, List.takeWhile_cons] at hd
      split at hd
      · exact hs d hd
      · cases hd

/-- The sign, if there is one. -/
theorem scanSign_eq {s : List (BitVec 8)} : ∃ sign, s = sign ++ (scanSign s).2 ∧
    (sign = [] ∨ sign = [0x2b#8] ∨ sign = [0x2d#8]) ∧
    (scanSign s).1 = decide (sign = [0x2d#8]) := by
  cases s with
  | nil => exact ⟨[], rfl, .inl rfl, rfl⟩
  | cons c s =>
      rw [scanSign]
      split
      · rename_i h
        exact ⟨[0x2d#8], by rw [h]; rfl, .inr (.inr rfl), rfl⟩
      · split
        · rename_i h
          exact ⟨[0x2b#8], by rw [h]; rfl, .inr (.inl rfl), rfl⟩
        · exact ⟨[], rfl, .inl rfl, rfl⟩

theorem scanSign_append {sign ds : List (BitVec 8)}
    (hsign : sign = [] ∨ sign = [0x2b#8] ∨ sign = [0x2d#8]) (hne : ds ≠ [])
    (hds : ∀ c ∈ ds, isDigit c) :
    scanSign (sign ++ ds ++ rest) = (decide (sign = [0x2d#8]), ds ++ rest) := by
  obtain ⟨d, ds, rfl⟩ := List.exists_cons_of_ne_nil hne
  obtain ⟨hminus, hplus⟩ := not_sign_of_isDigit (hds d List.mem_cons_self)
  rcases hsign with rfl | rfl | rfl
  · rw [List.nil_append, List.cons_append, scanSign, if_neg hminus, if_neg hplus]
    rfl
  · rfl
  · rfl

/-- The white space before a numeral is skipped. -/
theorem dropWhile_space {space s : List (BitVec 8)} (hspace : ∀ c ∈ space, isSpace c)
    (hs : ∀ c ∈ s.head?, isSpace c = false) : (space ++ s).dropWhile isSpace = s := by
  rw [List.dropWhile_append_of_pos hspace]
  cases s with
  | nil => rfl
  | cons c s => simp [hs c rfl]

/-- **What `%lu` takes**: a numeral, with all its digits. -/
theorem scanUlong_eq_some_iff {s : List (BitVec 8)} {v : BitVec 64} :
    scanUlong s = some (v, rest) ↔ ∃ text, s = text ++ rest ∧ Numeral text v ∧ NoDigit rest := by
  constructor
  · intro h
    obtain ⟨sign, hs, hsign, hneg⟩ := scanSign_eq (s := s.dropWhile isSpace)
    rw [scanUlong] at h
    obtain ⟨hne, h⟩ : _ ∧ _ := by simpa only [Option.ite_none_left_eq_some] using h
    rw [Option.some.injEq, Prod.mk.injEq] at h
    obtain ⟨hv, hrest⟩ := h
    refine ⟨s.takeWhile isSpace ++ sign ++ (scanSign (s.dropWhile isSpace)).2.takeWhile isDigit, ?_,
      ⟨_, _, _, rfl, fun c hc => List.mem_takeWhile_imp hc, hsign, hne,
        fun c hc => List.mem_takeWhile_imp hc, ?_⟩, hrest ▸ noDigit_dropWhile _⟩
    · rw [List.append_assoc, ← hrest, List.takeWhile_append_dropWhile, List.append_assoc, ← hs,
        List.takeWhile_append_dropWhile]
    · rw [← hv, hneg]
  · rintro ⟨_, rfl, ⟨space, sign, ds, rfl, hspace, hsign, hne, hds, rfl⟩, hrest⟩
    have hhead : ∀ c ∈ (sign ++ ds ++ rest).head?, isSpace c = false := by
      obtain ⟨d, ds, rfl⟩ := List.exists_cons_of_ne_nil hne
      have hd : isSpace d = false := by
        by_contra h
        rw [Bool.not_eq_false] at h
        exact Bool.false_ne_true ((isDigit_of_isSpace h).symm.trans (hds d List.mem_cons_self))
      rcases hsign with rfl | rfl | rfl <;> simp [hd] <;> decide
    rw [scanUlong, List.append_assoc, List.append_assoc, ← List.append_assoc sign,
      dropWhile_space hspace hhead, scanSign_append hsign hne hds]
    obtain ⟨htake, hdrop⟩ := takeWhile_digits hds hrest
    simp only [htake, hdrop, if_neg hne]

theorem scanUlong_dropWhile (s : List (BitVec 8)) : scanUlong (s.dropWhile isSpace) = scanUlong s := by
  rw [scanUlong, scanUlong, List.dropWhile_idempotent]

/-! ### Decimal numerals -/

/-- A number as `%lu` writes it. -/
def decimal (n : ℕ) : List (BitVec 8) :=
  if n = 0 then [0x30#8] else (Nat.digits 10 n).reverse.map fun d => BitVec.ofNat 8 (48 + d)

theorem number_map (ds : List ℕ) (h : ∀ d ∈ ds, d < 10) :
    number (ds.reverse.map fun d => BitVec.ofNat 8 (48 + d)) = Nat.ofDigits 10 ds := by
  rw [number, List.foldl_map, List.foldl_reverse, Nat.ofDigits_eq_foldr]
  induction ds with
  | nil => rfl
  | cons d ds ih =>
      have hd := h d List.mem_cons_self
      rw [List.foldr_cons, List.foldr_cons, ih fun d' hd' => h d' (List.mem_cons_of_mem _ hd'),
        BitVec.toNat_ofNat, Nat.mod_eq_of_lt (by omega), Nat.add_sub_cancel_left, Nat.cast_id,
        Nat.add_comm]

theorem number_decimal (n : ℕ) : number (decimal n) = n := by
  rw [decimal]
  split
  · rename_i h
    rw [h]
    rfl
  · rw [number_map _ fun d hd => Nat.digits_lt_base (by decide) hd, Nat.ofDigits_digits]

theorem isDigit_ofNat : ∀ {d : ℕ}, d < 10 → isDigit (BitVec.ofNat 8 (48 + d)) := by
  decide

theorem isDigit_decimal (n : ℕ) : ∀ c ∈ decimal n, isDigit c := by
  intro c hc
  rw [decimal] at hc
  split at hc
  · rw [List.mem_singleton] at hc
    subst hc
    rfl
  · obtain ⟨d, hd, rfl⟩ := List.mem_map.mp hc
    exact isDigit_ofNat (Nat.digits_lt_base (by decide) (List.mem_reverse.mp hd))

theorem decimal_ne_nil (n : ℕ) : decimal n ≠ [] := by
  rw [decimal]
  split
  · exact List.cons_ne_nil _ _
  · rename_i h
    rw [ne_eq, List.map_eq_nil_iff, List.reverse_eq_nil_iff]
    exact Nat.digits_ne_nil_iff_ne_zero.mpr h

/-- White space and a written number are a numeral of it. -/
theorem numeral_decimal {space : List (BitVec 8)} (hspace : ∀ c ∈ space, isSpace c) (v : BitVec 64) :
    Numeral (space ++ decimal v.toNat) v := by
  refine ⟨space, [], decimal v.toNat, by rw [List.append_nil], hspace, .inl rfl,
    decimal_ne_nil _, isDigit_decimal _, ?_⟩
  rw [number_decimal, ulongOf, if_neg (Nat.not_le.mpr v.isLt)]
  simp

end Lib
