import Webcrown.Bytes.Rewriting
import Webcrown.Common.StringUtils

/-!
# The loops of `split` and `replace_all`

Each loop is followed turn by turn, with the turns it may make as an argument:
a run that needs more of them has no outcome. `split` occurs twice in the
source, as `string_utils::split` and as `orm::split`, with the same body.
-/

namespace Webcrown.Common

open Bytes

section Split

variable {str : ByteString} {delimiter : UInt8}

/-- The `while (true)` of `split` with the tokens it has stored; no outcome
where `turns` are not enough. -/
def splitTurns (str : ByteString) (delimiter : UInt8) (skipEmpty : Bool) :
    ℕ → ℕ → List ByteString → Option (List ByteString)
  | 0, _, _ => none
  | turns + 1, posLast, tokens =>
    let posCurrent := scan (fun k => str[k]?.getD 0 == delimiter) str.length posLast
    let length := posCurrent - posLast
    let token := (str.drop posLast).take length
    let tokens := if !skipEmpty || length != 0 then tokens ++ [token] else tokens
    if posCurrent = str.length then some tokens
    else splitTurns str delimiter skipEmpty turns (posCurrent + 1) tokens

/-- The tokens that are stored: with `skip_empty` the nonempty ones. -/
def kept (skipEmpty : Bool) (tokens : List ByteString) : List ByteString :=
  if skipEmpty then tokens.filter (· ≠ []) else tokens

theorem kept_cons (skipEmpty : Bool) (token : ByteString) (tokens : List ByteString) :
    kept skipEmpty (token :: tokens) =
      (if !skipEmpty || token.length != 0 then [token] else []) ++ kept skipEmpty tokens := by
  cases skipEmpty with
  | false => rfl
  | true => cases token <;> simp [kept]

theorem drop_eq_slice (posLast : ℕ) :
    str.drop posLast = slice (fun k => str[k]?.getD 0) posLast str.length := by
  conv_lhs => rw [← slice_getElem? str, drop_slice, Nat.zero_add]

theorem kept_nil (skipEmpty : Bool) : kept skipEmpty [] = [] := by
  cases skipEmpty <;> rfl

theorem splitLoop_eq (skipEmpty : Bool) {turns posLast : ℕ} (hpos : posLast ≤ str.length)
    (hturns : str.length - posLast < turns) :
    splitLoop str delimiter skipEmpty turns posLast =
      kept skipEmpty ((str.drop posLast).splitOn delimiter) := by
  induction turns generalizing posLast with
  | zero => omega
  | succ turns ih =>
    have hsplit := splitOn_slice (m := fun k => str[k]?.getD 0) (d := delimiter) hpos
    have hle : posLast ≤ scan (fun k => str[k]?.getD 0 == delimiter) str.length posLast := le_scan
    have hend : scan (fun k => str[k]?.getD 0 == delimiter) str.length posLast ≤ str.length :=
      scan_le hpos
    dsimp only [splitLoop] at hsplit ⊢
    generalize scan (fun k => str[k]?.getD 0 == delimiter) str.length posLast = p at *
    have htoken : (str.drop posLast).take (p - posLast) =
        slice (fun k => str[k]?.getD 0) posLast p := by
      rw [drop_eq_slice, take_slice _ (by omega), Nat.add_sub_cancel' hle]
    rw [htoken, drop_eq_slice, hsplit, ← length_slice (fun k => str[k]?.getD 0) posLast p]
    by_cases hp : p = str.length
    · rw [if_pos hp, if_pos hp, kept_cons, kept_nil, List.append_nil]
    · rw [if_neg hp, if_neg hp, kept_cons, ih (by omega) (by omega), drop_eq_slice]

/-- With more turns than bytes left the loop ends, on the tokens it had and those
still to come. -/
theorem splitTurns_eq (skipEmpty : Bool) {turns posLast : ℕ} (hpos : posLast ≤ str.length)
    (hturns : str.length - posLast < turns) (tokens : List ByteString) :
    splitTurns str delimiter skipEmpty turns posLast tokens =
      some (tokens ++ splitLoop str delimiter skipEmpty turns posLast) := by
  induction turns generalizing posLast tokens with
  | zero => omega
  | succ turns ih =>
    have hle : posLast ≤ scan (fun k => str[k]?.getD 0 == delimiter) str.length posLast := le_scan
    have hend : scan (fun k => str[k]?.getD 0 == delimiter) str.length posLast ≤ str.length :=
      scan_le hpos
    dsimp only [splitTurns, splitLoop]
    generalize scan (fun k => str[k]?.getD 0 == delimiter) str.length posLast = p at *
    by_cases hp : p = str.length
    · rw [if_pos hp, if_pos hp]
      split_ifs <;> simp
    · rw [if_neg hp, if_neg hp, ih (by omega) (by omega)]
      split_ifs <;> simp

theorem split_eq (str : ByteString) (delimiter : UInt8) (skipEmpty : Bool) :
    split str delimiter skipEmpty = kept skipEmpty (str.splitOn delimiter) := by
  rw [split, splitLoop_eq skipEmpty (Nat.zero_le _) (by omega), List.drop_zero]

/-- What a caller of `split` relies on, for the text `str` and every delimiter in it. -/
structure Splits (split : ByteString → UInt8 → Bool → List ByteString) (str : ByteString)
    (delimiter : UInt8) : Prop where
  not_mem : ∀ token ∈ split str delimiter false, delimiter ∉ token
  join : [delimiter].intercalate (split str delimiter false) = str
  length : (split str delimiter false).length = str.count delimiter + 1
  skipEmpty : split str delimiter true = (split str delimiter false).filter (· ≠ [])

theorem splits_split (str : ByteString) (delimiter : UInt8) : Splits split str delimiter where
  not_mem token h := by
    rw [split_eq] at h
    exact not_mem_of_mem_splitOn h
  join := by
    rw [split_eq]
    exact List.intercalate_splitOn delimiter
  length := by
    rw [split_eq]
    exact length_splitOn delimiter str
  skipEmpty := by
    rw [split_eq, split_eq]
    rfl

end Split

end Webcrown.Common

namespace Webcrown.Orm

open Common

/-- `orm::split`: the body of `string_utils::split` a second time. -/
def split (str : ByteString) (delimiter : UInt8) (skipEmpty : Bool) : List ByteString :=
  splitLoop str delimiter skipEmpty (str.length + 1) 0

end Webcrown.Orm

namespace Webcrown.Common

open Bytes

/-- Both copies of `split` end, within one turn for each byte and one more, and
what they return is the text cut at its delimiters. -/
theorem split_copies (str : ByteString) (delimiter : UInt8) :
    (∀ skipEmpty turns, str.length < turns →
      splitTurns str delimiter skipEmpty turns 0 [] = some (split str delimiter skipEmpty) ∧
      splitTurns str delimiter skipEmpty turns 0 [] = some (Orm.split str delimiter skipEmpty)) ∧
    Splits split str delimiter ∧ Splits Orm.split str delimiter := by
  refine ⟨fun skipEmpty turns hturns => ?_, splits_split str delimiter,
    splits_split str delimiter⟩
  have hrun : splitTurns str delimiter skipEmpty turns 0 [] =
      some (split str delimiter skipEmpty) := by
    rw [splitTurns_eq skipEmpty (Nat.zero_le _) (by omega), List.nil_append,
      splitLoop_eq skipEmpty (Nat.zero_le _) (by omega), List.drop_zero, split_eq]
  exact ⟨hrun, hrun⟩

example : split [47, 97, 47, 47] 47 false = [[], [97], [], []] := by decide

section ReplaceAll

/-- `str.find(substr, pos)`: the first occurrence at `pos` or behind it, none
for a `pos` past the end. -/
def findFrom (str substr : ByteString) (pos : ℕ) : Option ℕ :=
  if pos ≤ str.length then (find substr (str.drop pos)).map (pos + ·) else none

inductive StringError where
  | lengthError
  deriving DecidableEq, Repr

/-- `str.replace(pos, length, with)` on a string that may not outgrow `maxSize`. -/
def replaceAt (maxSize : ℕ) (str : ByteString) (pos length : ℕ) (replacement : ByteString) :
    Except StringError ByteString :=
  if maxSize - (str.length - length) < replacement.length then .error .lengthError
  else .ok (str.take pos ++ replacement ++ str.drop (pos + length))

/-- The loop of `string_utils::replace_all` from `pos` on; no outcome where
`turns` are not enough. -/
def replaceAllLoop (maxSize : ℕ) (substr replacement : ByteString) :
    ℕ → ByteString → ℕ → Bool → Option (Except StringError (ByteString × Bool))
  | 0, _, _, _ => none
  | turns + 1, str, pos, result =>
    match findFrom str substr pos with
    | none => some (.ok (str, result))
    | some pos =>
      match replaceAt maxSize str pos substr.length replacement with
      | .error e => some (.error e)
      | .ok str =>
        replaceAllLoop maxSize substr replacement turns str (pos + replacement.length) true

/-- `string_utils::replace_all`: the string it leaves and the flag it returns,
or the exception it ends with. -/
def replaceAll (maxSize turns : ℕ) (str substr replacement : ByteString) :
    Option (Except StringError (ByteString × Bool)) :=
  replaceAllLoop maxSize substr replacement turns str 0 false

variable {maxSize turns : ℕ} {substr replacement : ByteString} {result : Bool}

theorem findFrom_append (done rest substr : ByteString) :
    findFrom (done ++ rest) substr done.length =
      (find substr rest).map (done.length + ·) := by
  rw [findFrom, if_pos (by simp), List.drop_left]

theorem replaceAllLoop_of_find_none (done : ByteString) {rest : ByteString}
    (h : find substr rest = none) :
    replaceAllLoop maxSize substr replacement (turns + 1) (done ++ rest) done.length result =
      some (.ok (done ++ rest, result)) := by
  rw [replaceAllLoop, findFrom_append, h]
  rfl

theorem replaceAllLoop_of_find_some (done : ByteString) {x y : ByteString}
    (h : find substr (x ++ substr ++ y) = some x.length) :
    replaceAllLoop maxSize substr replacement (turns + 1) (done ++ (x ++ substr ++ y))
        done.length result =
      if maxSize - (done ++ x ++ y).length < replacement.length then some (.error .lengthError)
      else replaceAllLoop maxSize substr replacement turns ((done ++ x ++ replacement) ++ y)
        (done ++ x ++ replacement).length true := by
  have htext : done ++ (x ++ substr ++ y) = (done ++ x) ++ (substr ++ y) := by simp
  have hpos : done.length + x.length = (done ++ x).length := List.length_append.symm
  have hsize : ((done ++ x) ++ (substr ++ y)).length - substr.length = (done ++ x ++ y).length := by
    simp only [List.length_append]
    omega
  have hnext : (done ++ x).length + replacement.length = (done ++ x ++ replacement).length :=
    List.length_append.symm
  have hdrop : ((done ++ x) ++ (substr ++ y)).drop ((done ++ x).length + substr.length) = y := by
    rw [← List.append_assoc, ← List.length_append, List.drop_left]
  rw [replaceAllLoop, findFrom_append, h, htext]
  simp only [Option.map_some, hpos, replaceAt, hsize]
  split_ifs
  · rfl
  · rw [List.take_left, hdrop, hnext]

/-- From `pos` on the loop computes the one-pass rewriting of the text that is
left there, as long as the string may grow to it. -/
theorem replaceAllLoop_eq (done rest : ByteString) (hne : substr ≠ [])
    (hturns : rest.length < turns) (hsize : (done ++ rest).length ≤ maxSize) :
    replaceAllLoop maxSize substr replacement turns (done ++ rest) done.length result =
      some (if (done ++ replaced substr replacement rest).length ≤ maxSize then
        .ok (done ++ replaced substr replacement rest, result || decide (substr <:+: rest))
      else .error .lengthError) := by
  induction turns generalizing done rest result with
  | zero => omega
  | succ turns ih =>
    cases hf : find substr rest with
    | none =>
      have hno : ¬ substr <:+: rest := find_eq_none_iff.mp hf
      rw [replaceAllLoop_of_find_none done hf, replaced_of_find_none hf, if_pos hsize]
      simp [hno]
    | some i =>
      obtain ⟨⟨x, y, rfl, rfl⟩, -⟩ := find_spec hf
      have hpos := List.length_pos_iff.mpr hne
      simp only [List.length_append] at hturns hsize
      rw [replaceAllLoop_of_find_some done hf, replaced_of_find_some hne hf]
      split_ifs with hgrow hfits hfits
      · -- the string grows, so what is left can only make it longer
        simp only [List.length_append] at hgrow hfits
        have hle : substr.length ≤ replacement.length := by omega
        have hlong := length_le_replaced hne hle y
        omega
      · rfl
      · rw [ih (done ++ x ++ replacement) y (by omega)
          (by simp only [List.length_append] at hgrow ⊢; omega)]
        simp only [← List.append_assoc] at hfits ⊢
        rw [if_pos hfits]
        simp
      · rw [ih (done ++ x ++ replacement) y (by omega)
          (by simp only [List.length_append] at hgrow ⊢; omega)]
        simp only [← List.append_assoc] at hfits ⊢
        rw [if_neg hfits]

theorem exists_replaceAllLoop (done rest : ByteString) (hne : substr ≠ [])
    (hturns : rest.length < turns) :
    ∃ outcome, replaceAllLoop maxSize substr replacement turns (done ++ rest) done.length result =
      some outcome := by
  induction turns generalizing done rest result with
  | zero => omega
  | succ turns ih =>
    cases hf : find substr rest with
    | none => exact ⟨_, replaceAllLoop_of_find_none done hf⟩
    | some i =>
      obtain ⟨⟨x, y, rfl, rfl⟩, -⟩ := find_spec hf
      have hpos := List.length_pos_iff.mpr hne
      simp only [List.length_append] at hturns
      rw [replaceAllLoop_of_find_some done hf]
      split_ifs
      · exact ⟨_, rfl⟩
      · exact ih (done ++ x ++ replacement) y (by omega)

theorem replaceAllLoop_nil (done rest : ByteString) :
    replaceAllLoop maxSize [] replacement (turns + 1) (done ++ rest) done.length result =
      if maxSize - (done ++ rest).length < replacement.length then some (.error .lengthError)
      else replaceAllLoop maxSize [] replacement turns ((done ++ replacement) ++ rest)
        (done ++ replacement).length true := by
  have hfind : find [] ([] ++ [] ++ rest) = some ([] : ByteString).length :=
    find_of_startsWith List.nil_prefix
  simpa only [List.nil_append, List.append_nil] using replaceAllLoop_of_find_some done hfind

theorem replaceAllLoop_nil_ne_ok (done rest : ByteString) (out : ByteString × Bool) :
    replaceAllLoop maxSize [] replacement turns (done ++ rest) done.length result ≠
      some (.ok out) := by
  induction turns generalizing done result with
  | zero => exact fun h => nomatch h
  | succ turns ih =>
    rw [replaceAllLoop_nil]
    split_ifs
    · exact fun h => nomatch h
    · exact ih (done ++ replacement)

/-- Every turn on an empty `substr` makes the string longer, until it may not be. -/
theorem exists_replaceAllLoop_nil (done rest : ByteString) (hne : replacement ≠ [])
    (hturns : maxSize - (done ++ rest).length < turns) :
    ∃ outcome, replaceAllLoop maxSize [] replacement turns (done ++ rest) done.length result =
      some outcome := by
  induction turns generalizing done result with
  | zero => omega
  | succ turns ih =>
    have hpos := List.length_pos_iff.mpr hne
    rw [replaceAllLoop_nil]
    split_ifs with hgrow
    · exact ⟨_, rfl⟩
    · apply ih
      simp only [List.length_append] at hturns hgrow ⊢
      omega

theorem replaceAllLoop_nil_nil (done rest : ByteString) :
    replaceAllLoop maxSize [] [] turns (done ++ rest) done.length result = none := by
  induction turns generalizing result with
  | zero => rfl
  | succ turns ih =>
    rw [replaceAllLoop_nil, if_neg (by simp)]
    simpa only [List.append_nil] using ih

/-- The call ends, by a return or by the exception of a string that outgrows
`maxSize`, unless `substr` and `with` are both empty; for an empty `substr` it never returns. -/
theorem replaceAll_ends_iff (maxSize : ℕ) (str substr replacement : ByteString) :
    ((∃ turns outcome, replaceAll maxSize turns str substr replacement = some outcome) ↔
      substr ≠ [] ∨ replacement ≠ []) ∧
    (substr = [] → ∀ turns out, replaceAll maxSize turns str substr replacement ≠
      some (.ok out)) := by
  constructor
  · constructor
    · rintro ⟨turns, outcome, hrun⟩
      by_contra hnil
      obtain ⟨rfl, rfl⟩ := by simpa only [not_or, not_not] using hnil
      exact nomatch hrun.symm.trans (replaceAllLoop_nil_nil [] str)
    · intro hne
      by_cases hsub : substr = []
      · subst hsub
        have hrep := hne.resolve_left fun h => h rfl
        exact ⟨_, exists_replaceAllLoop_nil [] str hrep (Nat.lt_succ_self _)⟩
      · exact ⟨_, exists_replaceAllLoop [] str hsub (Nat.lt_succ_self _)⟩
  · rintro rfl turns out
    exact replaceAllLoop_nil_ne_ok [] str out

/-- On the empty string with nothing to look for and nothing to put in there is no last turn. -/
theorem replaceAll_endless :
    ¬ ∃ turns outcome, replaceAll (2 ^ 63 - 1) turns [] [] [] = some outcome := by
  rintro ⟨turns, outcome, hrun⟩
  exact nomatch hrun.symm.trans (replaceAllLoop_nil_nil [] [])

/-- For a nonempty `substr`, the string left behind is the one-pass rewriting of
the original, and the flag says whether `substr` occurs in it. -/
theorem replaceAll_eq_replaced {maxSize : ℕ} {str substr : ByteString}
    (replacement : ByteString) (hstr : str.length ≤ maxSize) (hsub : substr ≠ []) {turns : ℕ}
    (hturns : str.length < turns) :
    replaceAll maxSize turns str substr replacement =
      some (if (replaced substr replacement str).length ≤ maxSize then
        .ok (replaced substr replacement str, decide (substr <:+: str))
      else .error .lengthError) := by
  rw [replaceAll]
  exact replaceAllLoop_eq [] str hsub hturns hstr

theorem replaceAll_eq_replaced_overlap :
    replaceAll (2 ^ 63 - 1) 4 (ascii "aaa") (ascii "aa") (ascii "aab") =
      some (.ok (ascii "aaba", true)) := by
  rw [replaceAll_eq_replaced (ascii "aab") (by decide) (by decide) (by decide)]
  decide

end ReplaceAll

end Webcrown.Common
