import Webcrown.Http.Message

/-!
# `parse_message_header` and its two scanners

Every scanner moves the shared iterator `it` through memory `m` towards `last`
and passes the error code on. Reads are not bounded by `last`: the line-end test
looks up to three cells ahead.
-/

namespace Webcrown.Http

open Bytes Common

/-- What a scanner leaves behind: the iterator, the text it found, the error code. -/
structure Scanned where
  it : ℕ
  text : ByteString
  ec : ErrorCode
  deriving DecidableEq, Repr

/-- `parse_message_header_name`. The iterator moves one past the position where
the loop ended, also when that is `last`. -/
def parseMessageHeaderName (m : ℕ → UInt8) (last it : ℕ) (ec : ErrorCode) : Scanned :=
  let p := scan (fun k => m k == colon || !isValidToken (m k)) last it
  if p < last && m p != colon then ⟨p, [], some .badField⟩
  else ⟨p + 1, slice m it p, ec⟩

/-- `parse_message_header_value`: leading blanks, then printable bytes up to CR LF. -/
def parseMessageHeaderValue (m : ℕ → UInt8) (last it : ℕ) (ec : ErrorCode) : Scanned :=
  let first := scan (fun k => !(m k == sp || m k == tab)) last it
  if first + 1 > last then ⟨first, [], some .incompleteMessageHeader⟩
  else
    let p := scan (fun k => (m k == cr && m (k + 1) == lf) || !isPrint (m k)) last first
    if p < last && !(m p == cr && m (p + 1) == lf) then ⟨p, [], some .badFieldValue⟩
    else ⟨p, slice m first p, ec⟩

structure LineEnd where
  it : ℕ
  ec : ErrorCode
  leave : Bool
  deriving DecidableEq, Repr

/-- The test at the bottom of the header loop; the loop's own `++it` comes after it. -/
def headerLineEnd (m : ℕ → UInt8) (it : ℕ) (ec : ErrorCode) : LineEnd :=
  if m it = cr then
    let ec := if m (it + 1) ≠ lf then some .invalidMessageHeaderCrlf else ec
    if m (it + 2) = cr ∧ m (it + 3) = lf then ⟨it, ec, true⟩ else ⟨it + 1, ec, false⟩
  else ⟨it, ec, false⟩

structure HeaderBlock where
  it : ℕ
  headers : Headers
  ec : ErrorCode
  deriving DecidableEq

/-- The header loop. A turn moves the iterator at least one cell, so `last - it`
turns are enough. -/
def headerLoop (m : ℕ → UInt8) (last : ℕ) : ℕ → ℕ → Headers → ErrorCode → HeaderBlock
  | 0, it, headers, ec => ⟨it, headers, ec⟩
  | fuel + 1, it, headers, ec =>
    if it < last then
      let name := parseMessageHeaderName m last it ec
      let value := parseMessageHeaderValue m last name.it name.ec
      let headers := headers.insertNew (toLower name.text) value.text
      let e := headerLineEnd m value.it value.ec
      if e.leave then ⟨e.it, headers, e.ec⟩
      else headerLoop m last fuel (e.it + 1) headers e.ec
    else ⟨it, headers, ec⟩

/-- `parse_message_header`, with the phase it ends in. -/
def parseMessageHeader (m : ℕ → UInt8) (last it : ℕ) (headers : Headers) (ec : ErrorCode) :
    HeaderBlock × ParsePhase :=
  if it + 2 > last then (⟨it, headers, some .incompleteMessageHeader⟩, .parseHeaders)
  else (headerLoop m last (last - it) it headers ec, .parseHeadersFinished)

theorem le_parseMessageHeaderName (m : ℕ → UInt8) (last it : ℕ) (ec : ErrorCode) :
    it ≤ (parseMessageHeaderName m last it ec).it := by
  have h : it ≤ scan (fun k => m k == colon || !isValidToken (m k)) last it := le_scan
  simp only [parseMessageHeaderName]
  split_ifs
  · exact h
  · exact h.trans (Nat.le_succ _)

theorem le_parseMessageHeaderValue (m : ℕ → UInt8) (last it : ℕ) (ec : ErrorCode) :
    it ≤ (parseMessageHeaderValue m last it ec).it := by
  have h : it ≤ scan (fun k => !(m k == sp || m k == tab)) last it := le_scan
  simp only [parseMessageHeaderValue]
  split_ifs
  · exact h
  · exact h.trans le_scan
  · exact h.trans le_scan

theorem le_headerLineEnd (m : ℕ → UInt8) (it : ℕ) (ec : ErrorCode) :
    it ≤ (headerLineEnd m it ec).it := by
  unfold headerLineEnd
  dsimp only
  split_ifs <;> simp

theorem le_headerTurn (m : ℕ → UInt8) (last it : ℕ) (ec : ErrorCode) :
    let name := parseMessageHeaderName m last it ec
    let value := parseMessageHeaderValue m last name.it name.ec
    it ≤ (headerLineEnd m value.it value.ec).it :=
  (le_parseMessageHeaderName m last it ec).trans
    ((le_parseMessageHeaderValue m last _ _).trans (le_headerLineEnd m _ _))

theorem headerLoop_fuel (m : ℕ → UInt8) (last : ℕ) {fuel it : ℕ} (headers : Headers)
    (ec : ErrorCode) (h : last - it ≤ fuel) :
    headerLoop m last fuel it headers ec = headerLoop m last (last - it) it headers ec := by
  induction hn : last - it using Nat.strong_induction_on generalizing fuel it headers ec with
  | _ n ih =>
    subst hn
    by_cases hlt : it < last
    · obtain ⟨f, rfl⟩ : ∃ f, fuel = f + 1 := ⟨fuel - 1, by omega⟩
      obtain ⟨g, hg⟩ : ∃ g, last - it = g + 1 := ⟨last - it - 1, by omega⟩
      rw [hg]
      simp only [headerLoop, if_pos hlt]
      set name := parseMessageHeaderName m last it ec with hname
      set value := parseMessageHeaderValue m last name.it name.ec with hvalue
      set e := headerLineEnd m value.it value.ec with he
      have hadvance : it ≤ e.it := le_headerTurn m last it ec
      split_ifs
      · rfl
      · have hf := ih (last - (e.it + 1)) (by omega)
          (headers.insertNew (toLower name.text) value.text) e.ec
          (show last - (e.it + 1) ≤ f by omega) rfl
        have hg' := ih (last - (e.it + 1)) (by omega)
          (headers.insertNew (toLower name.text) value.text) e.ec
          (show last - (e.it + 1) ≤ g by omega) rfl
        rw [hf, hg']
    · have h0 : last - it = 0 := by omega
      rw [h0]
      cases fuel <;> simp [headerLoop, hlt]

theorem le_headerLoop (m : ℕ → UInt8) (last fuel it : ℕ) (headers : Headers) (ec : ErrorCode) :
    it ≤ (headerLoop m last fuel it headers ec).it := by
  induction fuel generalizing it headers ec with
  | zero => exact le_rfl
  | succ fuel ih =>
    have hadvance := le_headerTurn m last it ec
    simp only [headerLoop]
    split_ifs
    · exact hadvance
    · exact (hadvance.trans (Nat.le_succ _)).trans (ih _ _ _)
    · exact le_rfl

theorem le_parseMessageHeader (m : ℕ → UInt8) (last it : ℕ) (headers : Headers) (ec : ErrorCode) :
    it ≤ (parseMessageHeader m last it headers ec).1.it := by
  unfold parseMessageHeader
  split_ifs
  · exact le_rfl
  · exact le_headerLoop _ _ _ _ _ _

/-- The loop as the source writes it, one turn unrolled. -/
theorem headerLoop_eq (m : ℕ → UInt8) (last it : ℕ) (headers : Headers) (ec : ErrorCode) :
    headerLoop m last (last - it) it headers ec =
      if it < last then
        let name := parseMessageHeaderName m last it ec
        let value := parseMessageHeaderValue m last name.it name.ec
        let headers := headers.insertNew (toLower name.text) value.text
        let e := headerLineEnd m value.it value.ec
        if e.leave then ⟨e.it, headers, e.ec⟩
        else headerLoop m last (last - (e.it + 1)) (e.it + 1) headers e.ec
      else ⟨it, headers, ec⟩ := by
  by_cases hlt : it < last
  · obtain ⟨g, hg⟩ : ∃ g, last - it = g + 1 := ⟨last - it - 1, by omega⟩
    rw [hg]
    simp only [headerLoop, if_pos hlt]
    split_ifs
    · rfl
    · apply headerLoop_fuel
      have hadvance := le_headerTurn m last it ec
      dsimp only at hadvance
      omega
  · have h0 : last - it = 0 := by omega
    rw [h0]
    simp [headerLoop, hlt]

end Webcrown.Http
