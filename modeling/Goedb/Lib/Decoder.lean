import Mathlib.Data.List.Infix
import Mathlib.Data.List.TakeDrop

/-!
# Lib — streaming decoders

A *format* says of every word that a reader may have read of a stream whether the stream is still
open, has ended or is refused, and what can be written of its content.  A decoder is handed the
stream in pieces of any length and room for its output in portions of any size; what it promises of a
call, after the symbols it has read and written before, is `Format.Call`.

No decoder reads past the word on which the format decides.  A stream is *decided* when some beginning
of it has ended or is refused, and every format has a decoder that keeps the promise
(`Format.call_decode`).
-/

namespace Lib

variable {α β : Type}

/-- What becomes of a stream. -/
inductive Fate where
  | opened
  | ended
  | refused
  deriving DecidableEq, Repr

/-- What a format says of the words that may be read of a stream. -/
structure Format (α β : Type) where
  fate : List α → Fate
  output : List α → List β
  fate_nil : fate [] = .opened
  output_mono : ∀ {c c'}, c <+: c' → output c <+: output c'

/-- What a call of a decoder reports. -/
inductive Status where
  | more
  | stalled
  | finished
  | failed
  deriving DecidableEq, Repr

namespace Format

variable (F : Format α β)

/-- The stream is open after every beginning of the word. -/
def Open (c : List α) : Prop := ∀ d, d <+: c → F.fate d = .opened

/-- The stream is open after every beginning of the word but the word itself. -/
def Reached (c : List α) : Prop := ∀ d, d <+: c → d ≠ c → F.fate d = .opened

/-- Some beginning of the stream ends it or is refused. -/
def Decided (stream : List α) : Prop := ∃ c, c <+: stream ∧ F.fate c ≠ .opened

/-- What a decoder promises that has read `c` and written `e` before: it reads the first `used`
symbols of `input` and writes `made` where there is room for `room` symbols. -/
structure Call (c : List α) (e : List β) (input : List α) (room : ℕ) (status : Status) (used : ℕ)
    (made : List β) : Prop where
  used_le : used ≤ input.length
  made_le : made.length ≤ room
  reached : F.Reached (c ++ input.take used)
  made_prefix : e ++ made <+: F.output (c ++ input.take used)
  /-- Whoever leaves room has read all there is, unless the stream is over. -/
  exhausts : F.fate (c ++ input.take used) = .opened → made.length < room → used = input.length
  /-- Whoever leaves room has written all there is. -/
  flushes : F.fate (c ++ input.take used) ≠ .refused → made.length < room →
    e ++ made = F.output (c ++ input.take used)
  finished_iff : status = .finished ↔
    F.fate (c ++ input.take used) = .ended ∧ e ++ made = F.output (c ++ input.take used)
  refused_of_failed : status = .failed → F.fate (c ++ input.take used) = .refused
  failed_of_refused : F.fate (c ++ input.take used) = .refused → made.length < room →
    status = .failed
  idle_of_stalled : status = .stalled → used = 0 ∧ made = []
  stalled_of_idle : F.fate (c ++ input.take used) = .opened → used = 0 → made = [] →
    status = .stalled

variable {F}

theorem open_nil : F.Open [] := by
  intro d hd
  rw [List.prefix_nil.mp hd]
  exact F.fate_nil

theorem Open.fate {c : List α} (h : F.Open c) : F.fate c = .opened := h c (List.prefix_refl c)

theorem Open.reached {c : List α} (h : F.Open c) : F.Reached c := fun d hd _ => h d hd

theorem Reached.open {c : List α} (h : F.Reached c) (ho : F.fate c = .opened) : F.Open c := by
  intro d hd
  by_cases hne : d = c
  · rw [hne]
    exact ho
  · exact h d hd hne

/-- An open stream is not decided, and the other way round. -/
theorem not_decided_iff {stream : List α} : ¬ F.Decided stream ↔ F.Open stream := by
  constructor
  · intro h d hd
    by_contra ho
    exact h ⟨d, hd, ho⟩
  · rintro h ⟨c, hc, ho⟩
    exact ho (h c hc)

theorem Decided.mono {s t : List α} (h : F.Decided s) (hst : s <+: t) : F.Decided t := by
  obtain ⟨c, hc, ho⟩ := h
  exact ⟨c, hc.trans hst, ho⟩

/-! ### The decoder of a format -/

/-- A stream is decided once. -/
theorem Reached.eq {c d s : List α} (hc : F.Reached c) (hd : F.Reached d) (hcs : c <+: s)
    (hds : d <+: s) (hfate : F.fate c ≠ .opened) (hfate' : F.fate d ≠ .opened) : c = d := by
  by_contra hne
  rcases List.prefix_or_prefix_of_prefix hcs hds with h | h
  · exact hfate (hd c h hne)
  · exact hfate' (hc d h (Ne.symm hne))

variable (F)

/-- How much of the input is read after `c`: all of it, or as much as the format decides on. -/
def toRead : List α → List α → ℕ
  | _, [] => 0
  | c, a :: input => if F.fate c = .opened then toRead (c ++ [a]) input + 1 else 0

/-- A call of the decoder that has read `c` and written `e`. -/
def decode [DecidableEq β] (c : List α) (e : List β) (input : List α) (room : ℕ) : Status × ℕ × List β :=
  let used := F.toRead c input
  let c' := c ++ input.take used
  let made := ((F.output c').drop e.length).take room
  let status :=
    if F.fate c' = .ended ∧ e ++ made = F.output c' then .finished
    else if F.fate c' = .refused ∧ made.length < room then .failed
    else if used = 0 ∧ made = [] then .stalled
    else .more
  (status, used, made)

variable {F}

theorem toRead_le (input : List α) : ∀ c, F.toRead c input ≤ input.length := by
  induction input with
  | nil => exact fun c => Nat.le_refl 0
  | cons a input ih =>
      intro c
      rw [toRead, List.length_cons]
      split
      · exact Nat.succ_le_succ (ih _)
      · exact Nat.zero_le _

theorem toRead_eq_length (input : List α) : ∀ c,
    F.fate (c ++ input.take (F.toRead c input)) = .opened → F.toRead c input = input.length := by
  induction input with
  | nil => exact fun c _ => rfl
  | cons a input ih =>
      intro c ho
      rw [toRead] at ho ⊢
      split at ho
      case isTrue h =>
          rw [if_pos h, ih (c ++ [a]) (by simpa using ho), List.length_cons]
      case isFalse h =>
          rw [List.take_zero, List.append_nil] at ho
          exact absurd ho h

/-- What is read after a reached word is reached. -/
theorem Reached.toRead (input : List α) : ∀ {c}, F.Reached c →
    F.Reached (c ++ input.take (F.toRead c input)) := by
  induction input with
  | nil =>
      intro c h
      simpa using h
  | cons a input ih =>
      intro c h
      rw [Format.toRead]
      split
      case isTrue ho =>
          have hnext : F.Reached (c ++ [a]) := by
            intro d hd hne
            rcases List.prefix_concat_iff.mp hd with he | hd'
            · exact absurd he hne
            · exact h.open ho d hd'
          simpa using ih hnext
      case isFalse => simpa using h

/-- The decoder of a format keeps the promise. -/
theorem call_decode [DecidableEq β] {c : List α} {e : List β} (hc : F.Reached c) (he : e <+: F.output c)
    (input : List α) (room : ℕ) :
    F.Call c e input room (F.decode c e input room).1 (F.decode c e input room).2.1
      (F.decode c e input room).2.2 := by
  obtain ⟨rest, hrest⟩ : e <+: F.output (c ++ input.take (F.toRead c input)) :=
    he.trans (F.output_mono (List.prefix_append c _))
  have hmade : (F.decode c e input room).2.2 = rest.take room := by
    simp [decode, ← hrest]
  have hused : (F.decode c e input room).2.1 = F.toRead c input := rfl
  -- a call that does not fill its room has given out all that is decided
  have hfull : (rest.take room).length < room →
      e ++ rest.take room = F.output (c ++ input.take (F.toRead c input)) := by
    intro h
    rw [List.length_take] at h
    rw [List.take_of_length_le (by omega), hrest]
  have hstatus : (F.decode c e input room).1 =
      if F.fate (c ++ input.take (F.toRead c input)) = .ended ∧
          e ++ rest.take room = F.output (c ++ input.take (F.toRead c input)) then .finished
      else if F.fate (c ++ input.take (F.toRead c input)) = .refused ∧
          (rest.take room).length < room then .failed
      else if F.toRead c input = 0 ∧ rest.take room = [] then .stalled
      else .more := by
    rw [← hmade]
    rfl
  rw [hused, hmade, hstatus]
  exact
    { used_le := toRead_le input c
      made_le := List.length_take_le _ _
      reached := hc.toRead input
      made_prefix := by
        rw [← hrest]
        exact (List.prefix_append_right_inj e).mpr (List.take_prefix room rest)
      exhausts := fun ho _ => toRead_eq_length input c ho
      flushes := fun _ h => hfull h
      finished_iff := by
        refine ⟨fun h => ?_, fun h => if_pos h⟩
        by_contra hn
        rw [if_neg hn] at h
        split_ifs at h
      refused_of_failed := by
        intro h
        split_ifs at h with _ hr
        exact hr.1
      failed_of_refused := by
        intro hr h
        rw [if_neg (by simp [hr]), if_pos ⟨hr, h⟩]
      idle_of_stalled := by
        intro h
        split_ifs at h with _ _ hs
        exact hs
      stalled_of_idle := by
        intro ho hu hm
        rw [if_neg (by simp [ho]), if_neg (by simp [ho]), if_pos ⟨hu, hm⟩] }

end Format

end Lib
