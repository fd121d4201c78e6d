import Goedb.Basic
import Goedb.Lib.Decoder

/-!
# Query — `uncompress_dataset`

The file is read in chunks, and every chunk is handed to `inflate` until it leaves room in the output
buffer; what it has put there is written after every call.  `zlib` is a parameter (`Inflater`), of
which `Inflater.Decodes` says what its manual promises, and so is whether a call of the C library fails
(`Calls`).

The outer loop goes on until `inflate` reports the end of the stream.  At the end of the file it reads
nothing, `inflate` makes no progress, and the loop goes on: no branch leaves it for want of input, and
the one that is to return `Z_DATA_ERROR` after the loop is never taken.  So the function returns exactly
if the file decides the fate of the stream in it or a call fails (`uncompressDataset_meets_iff`), and
when it returns 0 what it has written is the content of the stream.
-/

namespace Goedb

open Lib

/-- `CHUNK`. -/
def chunk : ℕ := 2 ^ 19

theorem chunk_pos : 0 < chunk := Nat.two_pow_pos 19

/-- What `inflate` returns. -/
inductive Ret where
  | ok
  | streamEnd
  | needDict
  | streamError
  | dataError
  | memError
  | bufError
  deriving DecidableEq, Repr

namespace Ret

/-- `Z_OK`. -/
def zOk : ℤ := 0

/-- `Z_DATA_ERROR`. -/
def zDataError : ℤ := -3

/-- What a return value says about the stream. -/
def status : Ret → Status
  | ok => .more
  | streamEnd => .finished
  | needDict | streamError | dataError | memError => .failed
  | bufError => .stalled

/-- A return value that says so. -/
def ofStatus : Status → Ret
  | .more => ok
  | .stalled => bufError
  | .finished => streamEnd
  | .failed => dataError

theorem status_ofStatus (status : Status) : (ofStatus status).status = status := by
  cases status <;> rfl

theorem ofStatus_ne_streamError (status : Status) : ofStatus status ≠ .streamError := by
  cases status <;> simp [ofStatus]

theorem status_finished_iff {ret : Ret} : ret.status = .finished ↔ ret = .streamEnd := by
  cases ret <;> simp [status]

end Ret

/-- What a call of `inflate` leaves: its return value, how much of the input it has consumed, what it
has put in the output buffer, and the stream. -/
structure Answer (State : Type) where
  ret : Ret
  numUsed : ℕ
  out : List Uchar
  stream : State

/-- `zlib`: the stream after `inflateInit2`, and `inflate` of the bytes at `next_in` with room for
`avail_out` bytes. -/
structure Inflater where
  State : Type
  init : State
  inflate : State → (nextIn : List Uchar) → (availOut : ℕ) → Answer State

/-- Which calls of `zlib` and of the C library fail: `inflateInit2`, the two calls of `fopen`, and
every call of `fread` and of `fwrite`. -/
structure Calls where
  inflateInitFails : Bool
  fopenOutFails : Bool
  fopenInFails : Bool
  freadFails : ℕ → Bool
  fwriteFails : ℕ → Bool

/-- The variables of the loops: the stream, what is left of the chunk, how often `fwrite` was called
and what it has written. -/
structure Inflating (I : Inflater) where
  stream : I.State
  nextIn : List Uchar
  numWrites : ℕ
  outFile : List Uchar

/-- The variables after a call of `inflate` and the call of `fwrite` behind it. -/
def Inflating.after {I : Inflater} (s : Inflating I) (answer : Answer I.State) : Inflating I where
  stream := answer.stream
  nextIn := s.nextIn.drop answer.numUsed
  numWrites := s.numWrites + 1
  outFile := s.outFile ++ answer.out

section Model

variable (I : Inflater) (io : Calls)

/-- The inner loop.  Either the function returns from it, with what the output file holds, or it ends
with the last return value. -/
def inflateLoop : ℕ → Inflating I → Except Fault (ℤ × List Uchar ⊕ Ret × Inflating I)
  | 0, _ => .error .diverge
  | fuel + 1, s =>
      let answer := I.inflate s.stream s.nextIn chunk
      let availOut := chunk - answer.out.length
      match answer.ret with
      | .streamError => .error (.exit "Assertion ret != Z_STREAM_ERROR failed.")
      | .needDict | .dataError | .memError => .ok (.inl (-1, s.outFile))
      | ret =>
          if io.fwriteFails s.numWrites then .ok (.inl (-1, s.outFile))
          else if availOut = 0 then inflateLoop fuel (s.after answer)
          else .ok (.inr (ret, s.after answer))

/-- The outer loop, with `fuel` for every inner loop, after `numReads` calls of `fread`; `file` is
what is left of the file. -/
def readLoop (fuel : ℕ) : (turns numReads : ℕ) → (file : List Uchar) → Inflating I →
    Except Fault (ℤ × List Uchar ⊕ Ret × Inflating I)
  | 0, _, _, _ => .error .diverge
  | turns + 1, numReads, file, s =>
      if io.freadFails numReads then .ok (.inl (-1, s.outFile))
      else
        match inflateLoop I io fuel { s with nextIn := file.take chunk } with
        | .error e => .error e
        | .ok (.inl left) => .ok (.inl left)
        | .ok (.inr (ret, s')) =>
            if ret ≠ .streamEnd then readLoop fuel turns (numReads + 1) (file.drop chunk) s'
            else .ok (.inr (ret, s'))

/-- `uncompress_dataset`: what it returns and what it has written. -/
def uncompressDataset (file : List Uchar) (fuel : ℕ) : Except Fault (ℤ × List Uchar) :=
  if io.inflateInitFails then .ok (-1, [])
  else if io.fopenOutFails then .ok (-1, [])
  else if io.fopenInFails then .ok (-1, [])
  else
    match readLoop I io fuel fuel 0 file ⟨I.init, [], 0, []⟩ with
    | .error e => .error e
    | .ok (.inl left) => .ok left
    | .ok (.inr (ret, s)) =>
        .ok (if ret = .streamEnd then Ret.zOk else Ret.zDataError, s.outFile)

end Model

/-- What is promised of `inflate`, for the streams of a format.  `At z c e` says that the calls up to
the stream `z` have consumed `c` and produced `e`; as long as there is room in the output buffer the
next call keeps the promise of a decoder, and it does not find the stream inconsistent. -/
def Inflater.Keeps (I : Inflater) (F : Format Uchar Uchar)
    (At : I.State → List Uchar → List Uchar → Prop) : Prop :=
  ∀ z c e nextIn availOut, At z c e → 0 < availOut →
    ∀ answer, I.inflate z nextIn availOut = answer →
      answer.ret ≠ .streamError ∧
      F.Call c e nextIn availOut answer.ret.status answer.numUsed answer.out ∧
      At answer.stream (c ++ nextIn.take answer.numUsed) (e ++ answer.out)

/-- The promise is kept from the beginning of a stream on. -/
def Inflater.Decodes (I : Inflater) (F : Format Uchar Uchar) : Prop :=
  ∃ At : I.State → List Uchar → List Uchar → Prop, At I.init [] [] ∧ I.Keeps F At

/-- Some call fails. -/
def Calls.Fail (io : Calls) : Prop :=
  io.inflateInitFails ∨ io.fopenOutFails ∨ io.fopenInFails ∨ (∃ i, io.freadFails i) ∨
    ∃ i, io.fwriteFails i

/-- With enough fuel there is a result, the same for all. -/
def Halts {α : Type} (x : ℕ → Except Fault α) : Prop := ∃ N r, ∀ fuel ≥ N, x fuel = .ok r

/-! ### The inner loop -/

variable {I : Inflater} {io : Calls} {F : Format Uchar Uchar}
  {At : I.State → List Uchar → List Uchar → Prop}

/-- What the inner loop is left with when the stream is in `s`, after `c` has been read of it: it fails
where the stream is refused or a write fails, it reports the end where the stream ends and all of its
content is written, and otherwise the stream is open after the whole of the chunk. -/
def LeftWith (F : Format Uchar Uchar) (io : Calls) (At : I.State → List Uchar → List Uchar → Prop)
    (c : List Uchar) (s : Inflating I) : ℤ × List Uchar ⊕ Ret × Inflating I → Prop
  | .inl (code, _) => code = -1 ∧ (F.Decided (c ++ s.nextIn) ∨ ∃ i, io.fwriteFails i)
  | .inr (ret, s') =>
      (∀ i, s.numWrites ≤ i → i < s'.numWrites → io.fwriteFails i = false) ∧
      s.numWrites < s'.numWrites ∧
      if ret = .streamEnd then
        ∃ d, d <+: c ++ s.nextIn ∧ F.Reached d ∧ F.fate d = .ended ∧ s'.outFile = F.output d
      else F.Open (c ++ s.nextIn) ∧ At s'.stream (c ++ s.nextIn) s'.outFile

theorem inflateLoop_succ {fuel : ℕ} {s : Inflating I}
    (h : (I.inflate s.stream s.nextIn chunk).ret ≠ .streamError) :
    inflateLoop I io (fuel + 1) s =
      if (I.inflate s.stream s.nextIn chunk).ret.status = .failed ∨ io.fwriteFails s.numWrites then
        .ok (.inl (-1, s.outFile))
      else if (I.inflate s.stream s.nextIn chunk).out.length < chunk then
        .ok (.inr ((I.inflate s.stream s.nextIn chunk).ret,
          s.after (I.inflate s.stream s.nextIn chunk)))
      else inflateLoop I io fuel (s.after (I.inflate s.stream s.nextIn chunk)) := by
  rw [inflateLoop]
  generalize I.inflate s.stream s.nextIn chunk = answer at h ⊢
  cases hret : answer.ret <;> simp [Ret.status, hret, Nat.sub_eq_zero_iff_le] at h ⊢ <;> split_ifs <;>
    grind

theorem read_take (c : List Uchar) (s : Inflating I) (n : ℕ) :
    c ++ s.nextIn.take n <+: c ++ s.nextIn :=
  (List.prefix_append_right_inj c).mpr (List.take_prefix n s.nextIn)

theorem read_after (c : List Uchar) (s : Inflating I) (answer : Answer I.State) :
    c ++ s.nextIn.take answer.numUsed ++ (s.after answer).nextIn = c ++ s.nextIn := by
  rw [Inflating.after, List.append_assoc, List.take_append_drop]

/-- What the loop is left with after a call that has filled the buffer. -/
theorem LeftWith.of_after {c : List Uchar} {s : Inflating I} {answer : Answer I.State}
    {r : ℤ × List Uchar ⊕ Ret × Inflating I} (hw : io.fwriteFails s.numWrites = false)
    (h : LeftWith F io At (c ++ s.nextIn.take answer.numUsed) (s.after answer) r) :
    LeftWith F io At c s r := by
  match r with
  | .inl (code, out) =>
      rw [LeftWith, read_after] at h
      exact h
  | .inr (ret, s') =>
      rw [LeftWith, read_after] at h
      obtain ⟨hwrites, hlt, hend⟩ := h
      have hnum : (s.after answer).numWrites = s.numWrites + 1 := rfl
      rw [hnum] at hwrites hlt
      refine ⟨fun i hi hi' => ?_, by omega, hend⟩
      rcases Nat.eq_or_lt_of_le hi with rfl | hi
      · exact hw
      · exact hwrites i hi hi'

/-- What the loop is left with after a call that has left room in the buffer. -/
theorem leftWith_of_room {c : List Uchar} {s : Inflating I} {answer : Answer I.State}
    (hcall : F.Call c s.outFile s.nextIn chunk answer.ret.status answer.numUsed answer.out)
    (hnext : At answer.stream (c ++ s.nextIn.take answer.numUsed) (s.outFile ++ answer.out))
    (hf : answer.ret.status ≠ .failed) (hw : io.fwriteFails s.numWrites = false)
    (hroom : answer.out.length < chunk) :
    LeftWith F io At c s (.inr (answer.ret, s.after answer)) := by
  have hwrites : ∀ i, s.numWrites ≤ i → i < s.numWrites + 1 → io.fwriteFails i = false := by
    intro i hi hi'
    rw [show i = s.numWrites by omega]
    exact hw
  refine ⟨hwrites, Nat.lt_succ_self _, ?_⟩
  split
  case isTrue hret =>
      obtain ⟨hend, hout⟩ := hcall.finished_iff.mp (Ret.status_finished_iff.mpr hret)
      exact ⟨_, read_take c s answer.numUsed, hcall.reached, hend, hout⟩
  case isFalse hret =>
      have hopen : F.fate (c ++ s.nextIn.take answer.numUsed) = .opened := by
        cases hfate : F.fate (c ++ s.nextIn.take answer.numUsed) with
        | opened => rfl
        | ended =>
            have hout := hcall.flushes (by simp [hfate]) hroom
            exact absurd (Ret.status_finished_iff.mp (hcall.finished_iff.mpr ⟨hfate, hout⟩)) hret
        | refused => exact absurd (hcall.failed_of_refused hfate hroom) hf
      have hall : s.nextIn.take answer.numUsed = s.nextIn := by
        rw [hcall.exhausts hopen hroom, List.take_length]
      rw [hall] at hopen hnext
      exact ⟨(hall ▸ hcall.reached).open hopen, hnext⟩

/-- What the inner loop is left with, if it ends. -/
theorem inflateLoop_leftWith (h : I.Keeps F At) (fuel : ℕ) : ∀ {c : List Uchar} {s : Inflating I},
    At s.stream c s.outFile → ∀ r, inflateLoop I io fuel s = .ok r → LeftWith F io At c s r := by
  induction fuel with
  | zero =>
      intro c s _ r hr
      cases hr
  | succ fuel ih =>
      intro c s hat r hr
      obtain ⟨hret, hcall, hnext⟩ := h _ c _ s.nextIn chunk hat chunk_pos _ rfl
      rw [inflateLoop_succ hret] at hr
      generalize I.inflate s.stream s.nextIn chunk = answer at hr hcall hnext
      split_ifs at hr with hf hroom
      · cases hr
        refine ⟨rfl, hf.imp (fun hf => ?_) fun hw => ⟨_, hw⟩⟩
        exact ⟨_, read_take c s answer.numUsed, by simp [hcall.refused_of_failed hf]⟩
      · cases hr
        rw [not_or, Bool.not_eq_true] at hf
        exact leftWith_of_room hcall hnext hf.1 hf.2 hroom
      · rw [not_or, Bool.not_eq_true] at hf
        exact (ih hnext r hr).of_after hf.2

/-- The inner loop ends: every round but the last fills the buffer, and there is no more to write
than the content of what has been read. -/
theorem inflateLoop_ends (h : I.Keeps F At) (fuel : ℕ) : ∀ {c : List Uchar} {s : Inflating I},
    At s.stream c s.outFile → (F.output (c ++ s.nextIn)).length < fuel + s.outFile.length →
    ∃ r, inflateLoop I io fuel s = .ok r := by
  induction fuel with
  | zero =>
      intro c s hat hlt
      obtain ⟨-, hcall, -⟩ := h _ c _ s.nextIn chunk hat chunk_pos _ rfl
      have hout := (hcall.made_prefix.trans (F.output_mono (read_take c s _))).length_le
      rw [List.length_append] at hout
      omega
  | succ fuel ih =>
      intro c s hat hlt
      obtain ⟨hret, hcall, hnext⟩ := h _ c _ s.nextIn chunk hat chunk_pos _ rfl
      rw [inflateLoop_succ hret]
      generalize I.inflate s.stream s.nextIn chunk = answer at hcall hnext
      split_ifs with hf hroom
      · exact ⟨_, rfl⟩
      · exact ⟨_, rfl⟩
      · have hchunk := chunk_pos
        apply ih hnext
        rw [read_after, Inflating.after, List.length_append]
        omega

/-- The inner loop does not stop with a fault. -/
theorem inflateLoop_error (h : I.Keeps F At) (fuel : ℕ) : ∀ {c : List Uchar} {s : Inflating I},
    At s.stream c s.outFile → ∀ e, inflateLoop I io fuel s = .error e → e = .diverge := by
  induction fuel with
  | zero =>
      intro c s _ e he
      cases he
      rfl
  | succ fuel ih =>
      intro c s hat e he
      obtain ⟨hret, hcall, hnext⟩ := h _ c _ s.nextIn chunk hat chunk_pos _ rfl
      rw [inflateLoop_succ hret] at he
      split_ifs at he with hf hroom
      exact ih hnext e he

/-! ### The outer loop -/

/-- What the outer loop ends with, for the stream of a file. -/
def EndsWith (F : Format Uchar Uchar) (io : Calls) (file : List Uchar) :
    ℤ × List Uchar ⊕ Ret × Inflating I → Prop
  | .inl (code, _) => code = -1 ∧ (F.Decided file ∨ io.Fail)
  | .inr (ret, s) =>
      ret = .streamEnd ∧ ∃ d, d <+: file ∧ F.Reached d ∧ F.fate d = .ended ∧ s.outFile = F.output d

/-- A turn of the outer loop, with `c` read so far: the function returns, or the stream is open after
the chunk and the loop goes on, or the inner loop has run out of fuel. -/
theorem readLoop_succ (h : I.Keeps F At) (fuel turns numReads : ℕ) {c : List Uchar}
    (file : List Uchar) {s : Inflating I} (hat : At s.stream c s.outFile) :
    (∃ o, readLoop I io fuel (turns + 1) numReads file s = .ok o ∧ EndsWith F io (c ++ file) o) ∨
    (∃ s', readLoop I io fuel (turns + 1) numReads file s =
        readLoop I io fuel turns (numReads + 1) (file.drop chunk) s' ∧
      io.freadFails numReads = false ∧
      (∀ i, s.numWrites ≤ i → i < s'.numWrites → io.fwriteFails i = false) ∧
      s.numWrites < s'.numWrites ∧
      F.Open (c ++ file.take chunk) ∧ At s'.stream (c ++ file.take chunk) s'.outFile) ∨
    readLoop I io fuel (turns + 1) numReads file s = .error .diverge ∧
      fuel ≤ (F.output (c ++ file)).length := by
  have hchunk : c ++ file.take chunk <+: c ++ file :=
    (List.prefix_append_right_inj c).mpr (List.take_prefix _ _)
  rw [readLoop]
  cases hread : io.freadFails numReads with
  | true => exact .inl ⟨_, rfl, rfl, .inr (.inr (.inr (.inr (.inl ⟨_, hread⟩))))⟩
  | false =>
      rw [if_neg Bool.false_ne_true]
      set s₀ : Inflating I := { s with nextIn := file.take chunk }
      have hat₀ : At s₀.stream c s₀.outFile := hat
      cases hl : inflateLoop I io fuel s₀ with
      | error e =>
          obtain rfl := inflateLoop_error h fuel hat₀ e hl
          refine .inr (.inr ⟨rfl, not_lt.mp fun hlt => ?_⟩)
          obtain ⟨r, hr⟩ := inflateLoop_ends h fuel hat₀
            ((F.output_mono hchunk).length_le.trans_lt (hlt.trans_le (Nat.le_add_right _ _)))
          cases hl.symm.trans hr
      | ok left =>
          have hleft := inflateLoop_leftWith h fuel hat₀ left hl
          match left with
          | .inl (code, out) =>
              obtain ⟨hcode, hwhy⟩ := hleft
              exact .inl ⟨_, rfl, hcode,
                hwhy.imp (fun hd => hd.mono hchunk) fun hw => .inr (.inr (.inr (.inr hw)))⟩
          | .inr (ret, s') =>
              obtain ⟨hwrites, hlt, hend⟩ := hleft
              by_cases hret : ret = .streamEnd
              · rw [if_pos hret] at hend
                obtain ⟨d, hd, hreached, hfate, hout⟩ := hend
                exact .inl ⟨_, if_neg (not_not_intro hret), hret, d, hd.trans hchunk, hreached,
                  hfate, hout⟩
              · rw [if_neg hret] at hend
                exact .inr (.inl ⟨s', if_pos hret, rfl, hwrites, hlt, hend⟩)

/-- What the outer loop ends with, if it ends. -/
theorem readLoop_endsWith (h : I.Keeps F At) (fuel turns : ℕ) : ∀ (numReads : ℕ)
    {c : List Uchar} (file : List Uchar) {s : Inflating I}, At s.stream c s.outFile →
    (∃ o, readLoop I io fuel turns numReads file s = .ok o ∧ EndsWith F io (c ++ file) o) ∨
    readLoop I io fuel turns numReads file s = .error .diverge := by
  induction turns with
  | zero => exact fun _ _ _ _ _ => .inr rfl
  | succ turns ih =>
      intro numReads c file s hat
      rcases readLoop_succ h fuel turns numReads file hat with
        ho | ⟨s', heq, -, -, -, -, hat'⟩ | ⟨hd, -⟩
      · exact .inl ho
      · rw [heq]
        simpa using ih (numReads + 1) (file.drop chunk) hat'
      · exact .inr hd

/-- Why the outer loop ends within `m` further turns, after `numReads` calls of `fread` and
`numWrites` of `fwrite`. -/
def Due (F : Format Uchar Uchar) (io : Calls) (whole file : List Uchar) (numReads numWrites m : ℕ) :
    Prop :=
  (F.Decided whole ∧ file.length ≤ m) ∨
    (∃ i, io.freadFails i ∧ numReads ≤ i ∧ i ≤ numReads + m) ∨
    ∃ i, io.fwriteFails i ∧ numWrites ≤ i ∧ i ≤ numWrites + m

/-- A turn after which the loop goes on brings it nearer to its end. -/
theorem Due.next {c file : List Uchar} {numReads numWrites numWrites' m : ℕ}
    (h : Due F io (c ++ file) file numReads numWrites m)
    (hread : io.freadFails numReads = false)
    (hwrite : ∀ i, numWrites ≤ i → i < numWrites' → io.fwriteFails i = false)
    (hlt : numWrites < numWrites') (hopen : F.Open (c ++ file.take chunk)) :
    ∃ m', m = m' + 1 ∧
      Due F io (c ++ file) (file.drop chunk) (numReads + 1) numWrites' m' := by
  have hchunk := chunk_pos
  rcases h with ⟨hdecided, hle⟩ | ⟨i, hi, hge, hle⟩ | ⟨i, hi, hge, hle⟩
  · have hpos : 0 < file.length := by
      by_contra hn
      have hnil : file.take chunk = file := List.take_of_length_le (by omega)
      rw [hnil] at hopen
      exact F.not_decided_iff.mpr hopen hdecided
    refine ⟨m - 1, by omega, .inl ⟨hdecided, ?_⟩⟩
    rw [List.length_drop]
    omega
  · have hne : i ≠ numReads := fun he => by simp [he, hread] at hi
    exact ⟨m - 1, by omega, .inr (.inl ⟨i, hi, by omega, by omega⟩)⟩
  · have hnew : numWrites' ≤ i := by
      by_contra hn
      simp [hwrite i hge (by omega)] at hi
    exact ⟨m - 1, by omega, .inr (.inr ⟨i, hi, hnew, by omega⟩)⟩

theorem readLoop_ends (h : I.Keeps F At) (fuel turns : ℕ) : ∀ (numReads : ℕ) {m : ℕ}
    {c : List Uchar} (file : List Uchar) {s : Inflating I}, At s.stream c s.outFile →
    Due F io (c ++ file) file numReads s.numWrites m → m < turns →
    (F.output (c ++ file)).length < fuel →
    ∃ o, readLoop I io fuel turns numReads file s = .ok o := by
  induction turns with
  | zero => exact fun _ _ _ _ _ _ _ hlt => absurd hlt (Nat.not_lt_zero _)
  | succ turns ih =>
      intro numReads m c file s hat hdue hlt hfuel
      rcases readLoop_succ h fuel turns numReads file hat with
        ⟨o, ho, -⟩ | ⟨s', heq, hread, hwrite, hnum, hopen, hat'⟩ | ⟨-, hle⟩
      · exact ⟨o, ho⟩
      · obtain ⟨m', rfl, hdue'⟩ := hdue.next hread hwrite hnum hopen
        rw [heq]
        apply ih (numReads + 1) (file.drop chunk) hat' (by simpa using hdue') (by omega)
        simpa using hfuel
      · omega

/-! ### More fuel -/

theorem inflateLoop_mono {fuel : ℕ} : ∀ {fuel' : ℕ} {s : Inflating I}
    {r : ℤ × List Uchar ⊕ Ret × Inflating I}, inflateLoop I io fuel s = .ok r → fuel ≤ fuel' →
    inflateLoop I io fuel' s = .ok r := by
  induction fuel with
  | zero =>
      intro fuel' s r hr
      cases hr
  | succ fuel ih =>
      intro fuel' s r hr hle
      obtain ⟨fuel', rfl⟩ : ∃ k, fuel' = k + 1 := ⟨fuel' - 1, by omega⟩
      have hgo : ∀ {s'}, inflateLoop I io fuel s' = .ok r → inflateLoop I io fuel' s' = .ok r :=
        fun h => ih h (Nat.le_of_succ_le_succ hle)
      rw [inflateLoop] at hr ⊢
      generalize I.inflate s.stream s.nextIn chunk = answer at hr ⊢
      cases hret : answer.ret <;> simp only [hret] at hr ⊢ <;>
        first
        | exact hr
        | split_ifs at hr ⊢
          · exact hr
          · exact hgo hr
          · exact hr

theorem readLoop_mono {fuel fuel' : ℕ} (hfuel : fuel ≤ fuel') {turns : ℕ} : ∀ {turns' numReads : ℕ}
    {file : List Uchar} {s : Inflating I} {o : ℤ × List Uchar ⊕ Ret × Inflating I},
    readLoop I io fuel turns numReads file s = .ok o → turns ≤ turns' →
    readLoop I io fuel' turns' numReads file s = .ok o := by
  induction turns with
  | zero =>
      intro turns' numReads file s o ho
      cases ho
  | succ turns ih =>
      intro turns' numReads file s o ho hle
      obtain ⟨turns', rfl⟩ : ∃ k, turns' = k + 1 := ⟨turns' - 1, by omega⟩
      rw [readLoop] at ho ⊢
      split
      case isTrue hread => rw [if_pos hread] at ho; exact ho
      case isFalse hread =>
          rw [if_neg hread] at ho
          cases hl : inflateLoop I io fuel { s with nextIn := file.take chunk } with
          | error e =>
              rw [hl] at ho
              cases ho
          | ok left =>
              rw [hl] at ho
              rw [inflateLoop_mono hl hfuel]
              match left with
              | .inl left => exact ho
              | .inr (ret, s') =>
                  by_cases hret : ret = .streamEnd
                  · simpa [hret] using ho
                  · simp only [hret, ne_eq, not_false_eq_true, if_true] at ho ⊢
                    exact ih ho (Nat.le_of_succ_le_succ hle)

/-! ### `uncompress_dataset` -/

theorem uncompressDataset_mono {file : List Uchar} {fuel fuel' : ℕ} {o : ℤ × List Uchar}
    (h : uncompressDataset I io file fuel = .ok o) (hle : fuel ≤ fuel') :
    uncompressDataset I io file fuel' = .ok o := by
  rw [uncompressDataset] at h ⊢
  split_ifs at h ⊢
  · exact h
  · exact h
  · exact h
  · cases hl : readLoop I io fuel fuel 0 file ⟨I.init, [], 0, []⟩ with
    | error e =>
        rw [hl] at h
        cases h
    | ok left =>
        rw [hl] at h
        rw [readLoop_mono hle hl hle]
        exact h

variable (io) in
theorem uncompressDataset_endsWith (hI : I.Decodes F) (file : List Uchar) (fuel : ℕ) :
    uncompressDataset I io file fuel = .error .diverge ∨
    (∃ out, uncompressDataset I io file fuel = .ok (-1, out) ∧ (io.Fail ∨ F.Decided file)) ∨
    ∃ d, uncompressDataset I io file fuel = .ok (0, F.output d) ∧
      d <+: file ∧ F.Reached d ∧ F.fate d = .ended := by
  obtain ⟨At, hinit, hkeeps⟩ := hI
  rw [uncompressDataset]
  split_ifs with h₁ h₂ h₃
  · exact .inr (.inl ⟨_, rfl, .inl (.inl h₁)⟩)
  · exact .inr (.inl ⟨_, rfl, .inl (.inr (.inl h₂))⟩)
  · exact .inr (.inl ⟨_, rfl, .inl (.inr (.inr (.inl h₃)))⟩)
  · rcases readLoop_endsWith hkeeps fuel fuel 0 (c := []) file (s := ⟨I.init, [], 0, []⟩)
      hinit with ⟨o, ho, hend⟩ | hd
    · rw [ho]
      match o with
      | .inl (code, out) =>
          obtain ⟨rfl, hwhy⟩ := hend
          exact .inr (.inl ⟨out, rfl, hwhy.symm⟩)
      | .inr (ret, s) =>
          obtain ⟨rfl, d, hd, hreached, hfate, hout⟩ := hend
          exact .inr (.inr ⟨d, by rw [← hout]; rfl, hd, hreached, hfate⟩)
    · rw [hd]
      exact .inl rfl

/-- It returns if a call fails or the stream is decided. -/
theorem uncompressDataset_halts (hI : I.Decodes F) {file : List Uchar}
    (h : io.Fail ∨ F.Decided file) : Halts (uncompressDataset I io file) := by
  suffices hex : ∃ fuel o, uncompressDataset I io file fuel = .ok o by
    obtain ⟨fuel, o, ho⟩ := hex
    exact ⟨fuel, o, fun fuel' hle => uncompressDataset_mono ho hle⟩
  obtain ⟨At, hinit, hkeeps⟩ := hI
  by_cases hopened : io.inflateInitFails ∨ io.fopenOutFails ∨ io.fopenInFails
  · refine ⟨0, (-1, []), ?_⟩
    rw [uncompressDataset]
    split_ifs
    · rfl
    · rfl
    · rfl
    · simp_all
  · have hdue : ∃ m, Due F io ([] ++ file) file 0 0 m := by
      rcases h with (h | h | h | ⟨i, hi⟩ | ⟨i, hi⟩) | h
      · exact absurd (.inl h) hopened
      · exact absurd (.inr (.inl h)) hopened
      · exact absurd (.inr (.inr h)) hopened
      · exact ⟨i, .inr (.inl ⟨i, hi, Nat.zero_le i, by omega⟩)⟩
      · exact ⟨i, .inr (.inr ⟨i, hi, Nat.zero_le i, by omega⟩)⟩
      · exact ⟨file.length, .inl ⟨h, Nat.le_refl _⟩⟩
    obtain ⟨m, hdue⟩ := hdue
    have hends := readLoop_ends hkeeps (m + (F.output file).length + 1)
      (m + (F.output file).length + 1) 0 (c := []) file (s := ⟨I.init, [], 0, []⟩) hinit
      hdue (by omega) (by simp only [List.nil_append]; omega)
    obtain ⟨o, ho⟩ := hends
    refine ⟨m + (F.output file).length + 1, ?_⟩
    rw [uncompressDataset, ho]
    split_ifs
    · exact ⟨_, rfl⟩
    · exact ⟨_, rfl⟩
    · exact ⟨_, rfl⟩
    · match o with
      | .inl _ => exact ⟨_, rfl⟩
      | .inr _ => exact ⟨_, rfl⟩

/-- Where no call fails and the stream is open after every beginning of the file, the outer loop is
never left. -/
theorem uncompressDataset_diverges (hI : I.Decodes F) {file : List Uchar} (hio : ¬ io.Fail)
    (hopen : F.Open file) (fuel : ℕ) : uncompressDataset I io file fuel = .error .diverge := by
  rcases uncompressDataset_endsWith io hI file fuel with
    hd | ⟨out, -, hwhy⟩ | ⟨d, -, hd, -, hfate⟩
  · exact hd
  · exact absurd hwhy (not_or.mpr ⟨hio, F.not_decided_iff.mpr hopen⟩)
  · rw [hopen d hd] at hfate
    cases hfate

/-- `uncompress_dataset` returns, and returns 0 only when the stream has ended and its content is
written, exactly if a call fails or some beginning of the file ends the stream or is refused. -/
theorem uncompressDataset_meets_iff (F : Format Uchar Uchar) (I : Inflater) (hI : I.Decodes F)
    (io : Calls) (file : List Uchar) :
    (Halts (uncompressDataset I io file) ∧
      ∀ fuel out, uncompressDataset I io file fuel = .ok (0, out) →
        ∃ c, c <+: file ∧ F.Reached c ∧ F.fate c = .ended ∧ out = F.output c) ↔
    io.Fail ∨ F.Decided file := by
  constructor
  · rintro ⟨⟨N, o, hN⟩, -⟩
    by_contra hn
    rw [not_or, F.not_decided_iff] at hn
    cases (hN N (Nat.le_refl N)).symm.trans (uncompressDataset_diverges hI hn.1 hn.2 N)
  · intro h
    refine ⟨uncompressDataset_halts hI h, fun fuel out hout => ?_⟩
    rcases uncompressDataset_endsWith io hI file fuel with
      hd | ⟨out', hout', -⟩ | ⟨d, hout', hd, hreached, hfate⟩
    · cases hout.symm.trans hd
    · cases hout.symm.trans hout'
    · cases hout.symm.trans hout'
      exact ⟨d, hd, hreached, hfate, rfl⟩

/-- `inflate` as the decoder of a format. -/
def inflaterOf (F : Format Uchar Uchar) : Inflater where
  State := List Uchar × List Uchar
  init := ([], [])
  inflate := fun (c, e) nextIn availOut =>
    let (status, used, made) := F.decode c e nextIn availOut
    ⟨Ret.ofStatus status, used, made, c ++ nextIn.take used, e ++ made⟩

theorem inflaterOf_decodes (F : Format Uchar Uchar) : (inflaterOf F).Decodes F := by
  refine ⟨fun z c e => z = (c, e) ∧ F.Reached c ∧ e <+: F.output c,
    ⟨rfl, F.open_nil.reached, List.nil_prefix⟩, ?_⟩
  rintro _ c e nextIn availOut ⟨rfl, hc, he⟩ - _ rfl
  have hcall := F.call_decode hc he nextIn availOut
  refine ⟨Ret.ofStatus_ne_streamError _, ?_, rfl, hcall.reached, hcall.made_prefix⟩
  rw [← Ret.status_ofStatus (F.decode c e nextIn availOut).1] at hcall
  exact hcall

/-- The letter `a`, compressed. -/
def letterStream : List Uchar :=
  [0x78#8, 0x9c#8, 0x4b#8, 0x04#8, 0x00#8, 0x00#8, 0x62#8, 0x00#8, 0x62#8]

/-- The format with this stream only.  The letter is known from the fourth byte on. -/
def letterFormat : Format Uchar Uchar where
  fate c :=
    if letterStream <+: c then .ended else if c <+: letterStream then .opened else .refused
  output c := if letterStream.take 4 <+: c then [0x61#8] else []
  fate_nil := by decide
  output_mono := by
    intro c c' h
    split_ifs with h₁ h₂
    · exact List.prefix_refl _
    · exact absurd (h₁.trans h) h₂
    · exact List.nil_prefix
    · exact List.nil_prefix

/-- Every call succeeds. -/
def noFailure : Calls := ⟨false, false, false, fun _ => false, fun _ => false⟩

theorem not_fail_noFailure : ¬ noFailure.Fail := by
  simp [Calls.Fail, noFailure]

/-- The outer loop is never left when the file is empty, nor when it breaks off. -/
theorem uncompressDataset_truncated : (inflaterOf letterFormat).Decodes letterFormat ∧
    ¬ Halts (uncompressDataset (inflaterOf letterFormat) noFailure []) ∧
    ∀ n < letterStream.length,
      ¬ Halts (uncompressDataset (inflaterOf letterFormat) noFailure (letterStream.take n)) := by
  have hopen : ∀ n < letterStream.length, letterFormat.Open (letterStream.take n) := by
    intro n hn d hd
    have hnot : ¬ letterStream <+: d := fun h => by
      have := (h.trans hd).length_le
      rw [List.length_take] at this
      omega
    exact (if_neg hnot).trans (if_pos (hd.trans (List.take_prefix n _)))
  have hnot : ∀ n < letterStream.length,
      ¬ Halts (uncompressDataset (inflaterOf letterFormat) noFailure (letterStream.take n)) := by
    rintro n hn ⟨N, o, hN⟩
    cases (hN N (Nat.le_refl N)).symm.trans
      (uncompressDataset_diverges (inflaterOf_decodes _) not_fail_noFailure (hopen n hn) N)
  exact ⟨inflaterOf_decodes _, hnot 0 (by decide), hnot⟩

/-- Where the file holds the whole stream it is left. -/
theorem uncompressDataset_meets_letter :
    Halts (uncompressDataset (inflaterOf letterFormat) noFailure letterStream) ∧
      ∀ fuel out, uncompressDataset (inflaterOf letterFormat) noFailure letterStream fuel =
          .ok (0, out) →
        ∃ c, c <+: letterStream ∧ letterFormat.Reached c ∧ letterFormat.fate c = .ended ∧
          out = letterFormat.output c :=
  (uncompressDataset_meets_iff letterFormat _ (inflaterOf_decodes _) noFailure letterStream).mpr
    (.inr ⟨letterStream, List.prefix_refl _, by decide⟩)

/-- It is a run that writes the letter. -/
example : uncompressDataset (inflaterOf letterFormat) noFailure letterStream 2 =
    .ok (0, [0x61#8]) := by
  decide +kernel

end Goedb
