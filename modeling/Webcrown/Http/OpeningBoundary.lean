import Webcrown.Http.CallSpecs

/-!
# The opening boundary

`parse_media_type_begin` on the text behind the head: where the part headers
start, and the chunks in which it passes their start before they are there.
-/

namespace Webcrown.Http

open Bytes Common

/-- The text in which the opening boundary is looked for: behind an empty line and
any dashes. -/
def openingText (t : ByteString) : ByteString :=
  (if crlf ++ crlf <+: t then t.drop 4 else t).dropWhile (· == dash)

/-- What of `t` is left when the start of its first `b` is passed. -/
def behindBoundary (b t : ByteString) : ByteString :=
  match find b t with
  | none => t
  | some i => t.drop (i + 1)

theorem length_behindBoundary_le (b t : ByteString) : (behindBoundary b t).length ≤ t.length := by
  unfold behindBoundary
  split
  · exact le_rfl
  · simp

/-- The end of a boundary `b` that ends the chunk, and `z` behind it, are `--` CR LF. -/
def ClosedBehind (z : ℕ → UInt8) (b : ByteString) : Prop :=
  ([dash, dash] <:+ b ∧ z 0 = cr ∧ z 1 = lf) ∨
    ([dash] <:+ b ∧ z 0 = dash ∧ z 1 = cr ∧ z 2 = lf)

/-- The chunk, with `z` behind it, ends after the boundary `b` and `y`, and the line
end behind the boundary is taken from outside. -/
def OpeningCut (z : ℕ → UInt8) (b y : ByteString) : Prop :=
  y = [] ∧ ¬ ClosedBehind z b ∨ y = [cr] ∧ z 0 = lf ∧ ¬[dash, dash] <:+ b

theorem OpeningCut.length_le {z : ℕ → UInt8} {b y : ByteString} (h : OpeningCut z b y) :
    y.length ≤ 1 := by
  rcases h with ⟨rfl, -⟩ | ⟨rfl, -⟩ <;> simp

variable {m : ℕ → UInt8} {last : ℕ}

theorem emptyLine_iff {it : ℕ} (h : it + 4 ≤ last) :
    (crlfAt m it && crlfAt m (it + 2)) = true ↔ crlf ++ crlf <+: slice m it last := by
  have h4 : (crlf ++ crlf).length = 4 := rfl
  rw [prefix_slice_iff (by omega), h4, Bool.and_eq_true]
  simp [h, crlfAt, HoldsAt, crlf, slice, List.range_succ, and_assoc]

theorem slice_openingText {it : ℕ} (h : it + 4 ≤ last) :
    ∃ i, i = scan (fun k => m k != dash) last
        (if crlfAt m it && crlfAt m (it + 2) then it + 4 else it) ∧
      it ≤ i ∧ i ≤ last ∧ slice m i last = openingText (slice m it last) := by
  refine ⟨_, rfl, ?_, ?_, ?_⟩
  · refine le_trans ?_ le_scan
    split_ifs <;> omega
  · apply scan_le
    split_ifs <;> omega
  · rw [slice_scan_last (f := fun c => c != dash) (by split_ifs <;> omega), openingText]
    have hdash : (fun a : UInt8 => !(a != dash)) = fun a => a == dash := by
      funext a
      simp [bne]
    rw [hdash]
    congr 1
    by_cases he : crlf ++ crlf <+: slice m it last
    · rw [if_pos he, if_pos ((emptyLine_iff h).mpr he), drop_slice]
    · rw [if_neg he, if_neg (fun hc => he ((emptyLine_iff h).mp hc))]

theorem slice_of_openingText {it : ℕ} {x y : ByteString} (h : it + 4 ≤ last)
    (ht : openingText (slice m it last) = x ++ y) : slice m (last - y.length) last = y := by
  obtain ⟨i, -, -, -, hslice⟩ := slice_openingText (m := m) h
  rw [ht] at hslice
  exact slice_suffix hslice

theorem parseMediaTypeBegin_eq {s : Cursor} {v b : ByteString}
    (hv : s.parser.headers.lookup (ascii "content-type") = some v)
    (hb : boundaryParameter v = some b) :
    parseMediaTypeBegin m last s = parseOpeningBoundary m last
      { s with parser := { s.parser with parsePhase := .parseMediaType, boundaryValue := b } } := by
  simp [parseMediaTypeBegin, hv, hb]

theorem head_boundaryParameter {v b : ByteString} (hb : boundaryParameter v = some b) :
    b.head? ≠ some dash := by
  obtain ⟨i, -, rfl⟩ := Option.map_eq_some_iff.mp hb
  intro hd
  have hne := List.head?_eq_some_iff.mp hd
  obtain ⟨t, ht⟩ := hne
  have := List.head?_dropWhile_not (p := fun c : UInt8 => c == 61 || c == dash)
    (l := v.drop (i + (ascii "boundary").length))
  rw [hd] at this
  simp at this

theorem boundaryParameter_suffix {v b : ByteString} (hb : boundaryParameter v = some b) :
    b <:+ v := by
  obtain ⟨i, -, rfl⟩ := Option.map_eq_some_iff.mp hb
  exact (List.dropWhile_suffix _).trans (List.drop_suffix _ _)

theorem mem_boundaryParameter {v b : ByteString} (hb : boundaryParameter v = some b) {c : UInt8}
    (hc : c ∈ b) : c ∈ v :=
  (boundaryParameter_suffix hb).subset hc

/-- Where `--` CR LF stands, in a text that a boundary `b` ends at `p`. -/
theorem closesAt_of_suffix {b : ByteString} {f p : ℕ} (hp : p = f + b.length)
    (hb : slice m f p = b) (hdash : [dash, dash] <:+ b) :
    f ≤ p - 2 ∧ p - 2 < p ∧ closesAt m (p - 2) = crlfAt m p := by
  obtain ⟨b', rfl⟩ := hdash
  simp only [List.length_append, List.length_cons, List.length_nil] at hp
  obtain ⟨-, htail⟩ := slice_eq_append hb
  obtain ⟨-, h0, htail⟩ := slice_eq_cons htail
  obtain ⟨-, h1, -⟩ := slice_eq_cons htail
  have hp2 : p - 2 = f + b'.length := by omega
  have hp1 : p = f + b'.length + 2 := by omega
  refine ⟨by omega, by omega, ?_⟩
  rw [hp2, hp1]
  simp [closesAt, crlfAt, h0, h1]

/-- `parse_media_type_begin` from the position `first` on at which the search for the
boundary `b` ended. -/
def openingLine (m : ℕ → UInt8) (last : ℕ) (s : Cursor) (b : ByteString) (first : ℕ) : Cursor :=
  let p := scan (fun k => closesAt m k || crlfAt m k) last first
  if p < last && closesAt m p then { s with it := p }
  else if slice m first p ≠ b then { s with it := p }
  else parseUploadHeaders m last { s with it := p + 2 }

theorem parseOpeningBoundary_eq {s : Cursor} {b : ByteString} (hb : s.parser.boundaryValue = b)
    (hdash : b.head? ≠ some dash) (h : s.it + 4 ≤ last) :
    ∃ i ≤ last, (i < last → m i ≠ dash) ∧ slice m i last = openingText (slice m s.it last) ∧
      parseOpeningBoundary m last s =
        openingLine m last
          { s with parser := { s.parser with boundaryValueLength := b.length } } b
          (scan (fun k => decide (HoldsAt m b k)) last i) := by
  subst hb
  obtain ⟨i, hi, hsi, hil, hslice⟩ := slice_openingText (m := m) h
  refine ⟨i, hil, ?_, hslice, ?_⟩
  · intro hlt
    have := stop_scan (hi ▸ hlt)
    rw [← hi] at this
    simpa using this
  · simp only [parseOpeningBoundary, ← hi, openingLine]
    rw [if_neg (by omega), verifyBoundaryValue_eq m last i le_rfl hdash, List.take_length]

theorem startByte_of_holdsAt {b : ByteString} {f : ℕ} (hdash : b.head? ≠ some dash)
    (hprint : ∀ c ∈ b, isPrint c = true) (hne : b ≠ []) (hold : HoldsAt m b f) :
    m f ≠ dash ∧ m f ≠ cr := by
  obtain ⟨c, b, rfl⟩ := List.exists_cons_of_ne_nil hne
  have hc : m f = c := by
    have h0 := holdsAt_iff.mp hold 0 (by simp)
    rwa [Nat.add_zero, List.getElem_cons_zero] at h0
  rw [hc]
  constructor
  · rintro rfl
    exact hdash rfl
  · rintro rfl
    have := hprint cr (by simp)
    rw [isPrint_cr] at this
    cases this

theorem slice_suffix_behindBoundary {b t : ByteString} {i q : ℕ} (ht : slice m i last = t)
    (hiq : i ≤ q) (hql : q ≤ last) (hq : ∀ j, find b t = some j → i + j < q) :
    slice m q last <:+ behindBoundary b t := by
  subst ht
  unfold behindBoundary
  split
  · rw [← slice_append m hiq hql]
    exact List.suffix_append _ _
  · rename_i j hj
    have := hq j hj
    rw [drop_slice, ← slice_append m (show i + (j + 1) ≤ q by omega) hql]
    exact List.suffix_append _ _

/-- The line scan passes the end of a boundary that ends with `--` only where no CR LF
stands there. -/
theorem not_dashes_of_scan {b : ByteString} {f q : ℕ}
    (hq : q = scan (fun k => closesAt m k || crlfAt m k) last f) (hqf : q = f + b.length)
    (hb : slice m f q = b) (hcrlf : crlfAt m q = true) : ¬[dash, dash] <:+ b := by
  intro hsuf
  obtain ⟨h1, h2, h3⟩ := closesAt_of_suffix hqf hb hsuf
  have := not_stop_of_lt_scan h1 (lt_of_lt_of_eq h2 hq)
  rw [h3, hcrlf] at this
  simp at this

theorem not_closedBehind_of_scan {b : ByteString} {f : ℕ}
    (hq : last = scan (fun k => closesAt m k || crlfAt m k) last f) (hqf : last = f + b.length)
    (hb : slice m f last = b) : ¬ ClosedBehind (fun k => m (last + k)) b := by
  rintro (⟨hsuf, hcr, hlf⟩ | ⟨⟨b', hb'⟩, hz0, hz1, hz2⟩)
  · exact not_dashes_of_scan hq hqf hb (by simpa [crlfAt] using ⟨hcr, hlf⟩) hsuf
  · have hlast := slice_eq_append (hb.trans hb'.symm)
    obtain ⟨-, hd, -⟩ := slice_eq_cons hlast.2
    have hl := congrArg List.length hb'
    simp only [List.length_append, List.length_singleton] at hl
    have := not_stop_of_lt_scan (show f ≤ f + b'.length by omega) (by rw [← hq]; omega)
    simp only [Nat.add_zero] at hz0
    simp [closesAt, hd, show f + b'.length + 1 = last by omega, hz0,
      show f + b'.length + 2 = last + 1 by omega, hz1,
      show f + b'.length + 3 = last + 2 by omega, hz2] at this

/-- What `parse_media_type_begin` makes of the text behind the head: it ends before
any part header, reads them behind the boundary's line, or reads them from a
position behind the chunk. -/
theorem parseOpeningBoundary_cases {s : Cursor} {b t : ByteString}
    (hb : s.parser.boundaryValue = b) (hdash : b.head? ≠ some dash)
    (hprint : ∀ c ∈ b, isPrint c = true) (h : s.it + 4 ≤ last)
    (ht : openingText (slice m s.it last) = t) :
    let p := { s.parser with boundaryValueLength := b.length }
    (∃ i ≤ last, slice m i last <:+ behindBoundary b t ∧
      parseOpeningBoundary m last s = { s with parser := p, it := i }) ∨
    (∃ x y, t = x ++ b ++ (crlf ++ y) ∧ find b t = some x.length ∧ ¬[dash, dash] <:+ b ∧
      parseOpeningBoundary m last s =
        parseUploadHeaders m last { s with parser := p, it := last - y.length }) ∨
    (∃ x y, t = x ++ b ++ y ∧ find b t = some x.length ∧
      OpeningCut (fun k => m (last + k)) b y ∧
      parseOpeningBoundary m last s =
        parseUploadHeaders m last { s with parser := p, it := last - y.length + 2 }) := by
  intro p
  obtain ⟨i, hil, hnd, hslice, hstart⟩ := parseOpeningBoundary_eq (m := m) hb hdash h
  rw [ht] at hslice
  rw [hstart, openingLine]
  dsimp only
  set f := scan (fun k => decide (HoldsAt m b k)) last i with hf
  have hif : i ≤ f := le_scan
  have hfl : f ≤ last := scan_le hil
  set q := scan (fun k => closesAt m k || crlfAt m k) last f with hq
  have hfq : f ≤ q := le_scan
  have hql : q ≤ last := scan_le hfl
  have hff : ∀ j, find b t = some j → f = i + j := by
    intro j hj
    rw [← hslice] at hj
    exact scan_holdsAt_of_find_some hil hj
  have hbyte : b ≠ [] → f < last → m f ≠ dash ∧ m f ≠ cr := by
    intro hne hlt
    have hold : HoldsAt m b f := of_decide_eq_true (stop_scan (hf ▸ hlt))
    exact startByte_of_holdsAt hdash hprint hne hold
  -- a line scan that moves leaves the start of the boundary behind
  have hrest : (q < last → q ≠ f) → slice m q last <:+ behindBoundary b t := by
    intro hmove
    rcases hql.eq_or_lt with he | hlt
    · rw [he, slice_self]
      exact List.nil_suffix
    · have := hmove hlt
      apply slice_suffix_behindBoundary hslice (hif.trans hfq) hql
      intro j hj
      have := hff j hj
      omega
  by_cases hclose : (q < last && closesAt m q) = true
  · refine Or.inl ⟨q, hql, hrest ?_, if_pos hclose⟩
    intro hlt he
    simp only [closesAt, Bool.and_eq_true, decide_eq_true_eq, beq_iff_eq] at hclose
    rcases eq_or_ne b [] with hnil | hne
    · -- the dash loop has left no dash at the start
      have hfi : f = i := hff 0 (by rw [hnil]; exact find_of_startsWith List.nil_prefix)
      exact hnd (by omega) (by rw [← hfi, ← he, hclose.2.1.1.1])
    · exact (hbyte hne (by omega)).1 (he ▸ hclose.2.1.1.1)
  rw [if_neg hclose]
  by_cases hline : slice m f q = b
  swap
  · refine Or.inl ⟨q, hql, hrest ?_, if_pos hline⟩
    intro hlt he
    have hne : b ≠ [] := by
      rintro rfl
      rw [he, slice_self] at hline
      exact hline rfl
    have hstop := stop_scan (hq ▸ hlt)
    rw [← hq, he] at hstop
    have := hbyte hne (by omega)
    simp [closesAt, crlfAt, this.1, this.2] at hstop
  rw [if_neg (not_not.mpr hline)]
  have hqf : q = f + b.length := by
    rw [← hline, length_slice]
    omega
  have hsplit : t = slice m i f ++ b ++ slice m q last := by
    rw [← hslice, ← hline, slice_append m hif hfq, slice_append m (hif.trans hfq) hql]
  have hfind : find b t = some (slice m i f).length := by
    obtain ⟨j, hj⟩ := @exists_find_of_occurs _ _ b t ⟨_, _, hsplit.symm⟩
    rw [hj, length_slice, hff j hj, Nat.add_sub_cancel_left]
  apply Or.inr
  rcases hql.eq_or_lt with hqe | hqlt
  · have hopen : ¬ ClosedBehind (fun k => m (last + k)) b :=
      not_closedBehind_of_scan (hqe ▸ hq) (hqe ▸ hqf) (hqe ▸ hline)
    refine Or.inr ⟨_, [], by rw [hsplit, hqe, slice_self], hfind, Or.inl ⟨rfl, hopen⟩, ?_⟩
    rw [hqe]
    rfl
  · have hstop := stop_scan (hq ▸ hqlt)
    rw [← hq] at hstop
    have hcrlf : crlfAt m q = true := by
      simp only [Bool.and_eq_true, decide_eq_true_eq, not_and] at hclose
      simpa [hclose hqlt] using hstop
    have hdashes : ¬[dash, dash] <:+ b := not_dashes_of_scan hq hqf hline hcrlf
    have hcr : m q = cr ∧ m (q + 1) = lf := by simpa [crlfAt] using hcrlf
    rcases Nat.lt_or_ge (q + 1) last with hlt | hge
    · refine Or.inl ⟨_, slice m (q + 2) last, ?_, hfind, hdashes, ?_⟩
      · rw [hsplit, slice_cons m hqlt, slice_cons m hlt, hcr.1, hcr.2]
        rfl
      · rw [length_slice, show last - (last - (q + 2)) = q + 2 by omega]
    · have hq1 : last = q + 1 := by omega
      refine Or.inr ⟨_, [cr], ?_, hfind, Or.inr ⟨rfl, ?_, hdashes⟩, ?_⟩
      · rw [hsplit, slice_cons m hqlt, hcr.1, hq1, slice_self]
      · rw [hq1]
        exact hcr.2
      · rw [hq1]
        rfl

theorem lineStop_printable {b : ByteString} {f k : ℕ} (hprint : ∀ c ∈ b, isPrint c = true)
    (hb : slice m f (f + b.length) = b) (hk : f ≤ k) (hkb : k < f + b.length)
    (hs : (closesAt m k || crlfAt m k) = true) :
    m k = dash ∧ m (k + 1) = dash ∧ m (k + 2) = cr ∧ m (k + 3) = lf ∧ f + b.length ≤ k + 2 ∧
      slice m k (f + b.length) <:+ b := by
  have hne : ∀ j, f ≤ j → j < f + b.length → m j ≠ cr := by
    intro j hj hjb he
    have hmem : m j ∈ b := by
      rw [← hb]
      exact mem_slice.mpr ⟨j, hj, hjb, rfl⟩
    have := hprint _ hmem
    rw [he, isPrint_cr] at this
    cases this
  have hcloses : closesAt m k = true := by
    rcases Bool.or_eq_true _ _ ▸ hs with h | h
    · exact h
    · simp only [crlfAt, Bool.and_eq_true, beq_iff_eq] at h
      exact absurd h.1 (hne k hk hkb)
  simp only [closesAt, Bool.and_eq_true, beq_iff_eq] at hcloses
  obtain ⟨⟨⟨h0, h1⟩, h2⟩, h3⟩ := hcloses
  refine ⟨h0, h1, h2, h3, ?_, ?_⟩
  · by_contra hlt
    exact hne (k + 2) (by omega) (by omega) h2
  · conv_rhs => rw [← hb, ← slice_append m hk hkb.le]
    exact List.suffix_append _ _

/-- Inside a printable line only its last two bytes can be the `--` of `--` CR LF. -/
theorem lineStop_inside {b : ByteString} {f k : ℕ} (hprint : ∀ c ∈ b, isPrint c = true)
    (hb : slice m f (f + b.length) = b) (hcr : m (f + b.length) = cr) (hk : f ≤ k)
    (hkb : k < f + b.length) (hs : (closesAt m k || crlfAt m k) = true) :
    k + 2 = f + b.length ∧ [dash, dash] <:+ b := by
  obtain ⟨h0, h1, -, -, hle, htail⟩ := lineStop_printable hprint hb hk hkb hs
  have hk1 : k + 1 ≠ f + b.length := by
    intro he
    rw [he, hcr] at h1
    exact absurd h1 (by decide)
  have hk2 : k + 2 = f + b.length := by omega
  rw [slice_cons m hkb, slice_cons m (by omega), h0, h1, slice_of_le m (by omega)] at htail
  exact ⟨hk2, htail⟩

theorem parseOpeningBoundary_of_text {s : Cursor} {b x y : ByteString}
    (hb : s.parser.boundaryValue = b) (hdash : b.head? ≠ some dash)
    (hprint : ∀ c ∈ b, isPrint c = true) (h : s.it + 4 ≤ last)
    (ht : openingText (slice m s.it last) = x ++ b ++ (crlf ++ y))
    (hfind : find b (x ++ b ++ (crlf ++ y)) = some x.length) :
    parseOpeningBoundary m last s =
      if [dash, dash] <:+ b then
        { s with
          parser := { s.parser with boundaryValueLength := b.length }
          it := last - (y.length + 4) }
      else
        parseUploadHeaders m last
          { s with
            parser := { s.parser with boundaryValueLength := b.length }
            it := last - y.length } := by
  obtain ⟨i, hil, -, hslice, hstart⟩ := parseOpeningBoundary_eq (m := m) hb hdash h
  rw [ht] at hslice
  have hf : scan (fun k => decide (HoldsAt m b k)) last i = i + x.length :=
    scan_holdsAt_of_find_some hil (hslice ▸ hfind)
  have htext : slice m (i + x.length) last = b ++ (crlf ++ y) := by
    rw [← drop_slice, hslice, List.append_assoc, List.drop_left]
  rw [hstart, hf, openingLine]
  dsimp only
  set f := i + x.length with hfi
  have hl := congrArg List.length htext
  have h2 : crlf.length = 2 := rfl
  simp only [length_slice, List.length_append, h2] at hl
  obtain ⟨hline, hrest⟩ := slice_eq_append htext
  obtain ⟨-, hcr, hrest⟩ := slice_eq_cons hrest
  obtain ⟨-, hlf, -⟩ := slice_eq_cons hrest
  have hend : crlfAt m (f + b.length) = true := by simp [crlfAt, hcr, hlf]
  by_cases hsuf : [dash, dash] <:+ b
  · obtain ⟨h1, h2, h3⟩ := closesAt_of_suffix rfl hline hsuf
    have hscan : scan (fun k => closesAt m k || crlfAt m k) last f = f + b.length - 2 := by
      apply scan_eq h1 (by omega) (by simp [h3, hend])
      intro k hk hkl
      rw [Bool.eq_false_iff]
      intro hs
      have := (lineStop_inside hprint hline hcr hk (by omega) hs).1
      omega
    rw [if_pos hsuf, hscan, if_pos (by simp [h3, hend]; omega)]
    congr 1
    omega
  · have hscan : scan (fun k => closesAt m k || crlfAt m k) last f = f + b.length := by
      apply scan_eq (by omega) (by omega) (by simp [hend])
      intro k hk hkl
      rw [Bool.eq_false_iff]
      intro hs
      exact hsuf (lineStop_inside hprint hline hcr hk hkl hs).2
    have hnot : closesAt m (f + b.length) = false := by
      simp [closesAt, hcr, show cr ≠ dash by decide]
    rw [if_neg hsuf, hscan, if_neg (by simp [hnot]), if_neg (not_not.mpr hline)]
    congr 2
    omega

theorem scan_lineStop_cut {b y : ByteString} {f : ℕ} (hprint : ∀ c ∈ b, isPrint c = true)
    (ht : slice m f last = b ++ y) (hf : f ≤ last)
    (hcut : OpeningCut (fun k => m (last + k)) b y) :
    scan (fun k => closesAt m k || crlfAt m k) last f = f + b.length ∧
      f + b.length = last - y.length ∧
      (f + b.length < last → closesAt m (f + b.length) = false) := by
  have hl := congrArg List.length ht
  simp only [length_slice, List.length_append] at hl
  obtain ⟨hb, hrest⟩ := slice_eq_append ht
  rcases hcut with ⟨rfl, hclosed⟩ | ⟨rfl, hlf, hdashes⟩
  · have hend : f + b.length = last := by simp at hl; omega
    refine ⟨?_, by simpa using hend, fun hlt => by omega⟩
    rw [hend]
    apply scan_eq_last hf
    intro k hk hkl
    rw [Bool.eq_false_iff]
    intro hs
    obtain ⟨h0, h1, h2, h3, hle, htail⟩ := lineStop_printable hprint hb hk (by omega) hs
    rw [hend] at htail
    rcases Nat.lt_or_ge (k + 1) last with hlt | hge
    · rw [slice_cons m hkl, slice_cons m hlt, h0, h1, slice_of_le m (by omega)] at htail
      exact hclosed (Or.inl ⟨htail, (congrArg m (show last + 0 = k + 2 by omega)).trans h2,
        (congrArg m (show last + 1 = k + 3 by omega)).trans h3⟩)
    · rw [slice_cons m hkl, h0, slice_of_le m (by omega)] at htail
      exact hclosed (Or.inr ⟨htail, (congrArg m (show last + 0 = k + 1 by omega)).trans h1,
        (congrArg m (show last + 1 = k + 2 by omega)).trans h2,
        (congrArg m (show last + 2 = k + 3 by omega)).trans h3⟩)
  · simp only [List.length_singleton] at hl
    obtain ⟨hlt, hcr, -⟩ := slice_eq_cons hrest
    have hend : f + b.length + 1 = last := by omega
    have hcrlf : crlfAt m (f + b.length) = true := by
      have hlf' : m (f + b.length + 1) = lf := by rw [hend]; exact hlf
      simp [crlfAt, hcr, hlf']
    refine ⟨?_, by simp only [List.length_singleton]; omega, fun _ => by simp [closesAt, hcr,
      show cr ≠ dash by decide]⟩
    apply scan_eq (by omega) hlt (by simp [hcrlf])
    intro k hk hkl
    rw [Bool.eq_false_iff]
    intro hs
    exact hdashes (lineStop_inside hprint hb hcr hk hkl hs).2

theorem parseOpeningBoundary_of_cut {s : Cursor} {b x y : ByteString}
    (hb : s.parser.boundaryValue = b) (hdash : b.head? ≠ some dash)
    (hprint : ∀ c ∈ b, isPrint c = true) (h : s.it + 4 ≤ last)
    (ht : openingText (slice m s.it last) = x ++ b ++ y)
    (hfind : find b (x ++ b ++ y) = some x.length)
    (hcut : OpeningCut (fun k => m (last + k)) b y) :
    parseOpeningBoundary m last s =
      parseUploadHeaders m last
        { s with
          parser := { s.parser with boundaryValueLength := b.length }
          it := last - y.length + 2 } := by
  obtain ⟨i, hil, -, hslice, hstart⟩ := parseOpeningBoundary_eq (m := m) hb hdash h
  rw [ht] at hslice
  have hlx := congrArg List.length hslice
  simp only [length_slice, List.length_append] at hlx
  have hf : scan (fun k => decide (HoldsAt m b k)) last i = i + x.length :=
    scan_holdsAt_of_find_some hil (hslice ▸ hfind)
  have htext : slice m (i + x.length) last = b ++ y := by
    rw [← drop_slice, hslice, List.append_assoc, List.drop_left]
  obtain ⟨hscan, hend, hopen⟩ := scan_lineStop_cut hprint htext (by omega) hcut
  rw [hstart, hf, openingLine]
  dsimp only
  rw [hscan, (slice_eq_append htext).1, if_neg (not_not.mpr rfl), if_neg, hend]
  intro hclose
  simp only [Bool.and_eq_true, decide_eq_true_eq] at hclose
  rw [hopen hclose.1] at hclose
  exact Bool.false_ne_true hclose.2

theorem parseUploadHeaders_spec (s : Cursor) :
    (parseUploadHeaders m last s).parser.boundaryValue = s.parser.boundaryValue ∧
      (parseUploadHeaders m last s).parser.boundaryValueLength = s.parser.boundaryValueLength ∧
      s.it ≤ (parseUploadHeaders m last s).it ∧
      (parseUploadHeaders m last s).it ≤ max s.it (last + 3) + 4 := by
  have hle := le_parseMessageHeader m last s.it ∅ s.ec
  have hge := it_blockEnd_le m last s.it s.ec
  have hit : (blockEnd m last s.it s.ec).it = (parseMessageHeader m last s.it ∅ s.ec).1.it := by
    rw [parseMessageHeader_eq_blockEnd]
  rw [hit] at hge
  unfold parseUploadHeaders
  dsimp only
  split
  · exact ⟨rfl, rfl, hle, hge.trans (Nat.le_add_right _ _)⟩
  · exact ⟨rfl, rfl, hle.trans (Nat.le_add_right _ _), Nat.add_le_add_right hge 4⟩

theorem ec_parseUploadHeaders (s : Cursor) :
    (parseUploadHeaders m last s).ec = (blockEnd m last s.it s.ec).ec := by
  have hec : (blockEnd m last s.it s.ec).ec = (parseMessageHeader m last s.it ∅ s.ec).1.ec := by
    rw [parseMessageHeader_eq_blockEnd]
  rw [hec]
  unfold parseUploadHeaders
  dsimp only
  split <;> rfl

theorem suffix_behindBoundary {b x w y : ByteString} (hw : w ≠ [])
    (hfind : find b (x ++ w ++ y) = some x.length) : y <:+ behindBoundary b (x ++ w ++ y) := by
  obtain ⟨c, w, rfl⟩ := List.exists_cons_of_ne_nil hw
  rw [behindBoundary, hfind]
  have hx : x ++ c :: w ++ y = (x ++ [c]) ++ (w ++ y) := by simp
  have hl : (x ++ [c]).length = x.length + 1 := by simp
  dsimp only
  rw [hx, ← hl, List.drop_left]
  exact List.suffix_append _ _

/-- Behind `parse_media_type_begin` the iterator stands in the text behind the start
of the opening boundary, or a few cells behind the chunk. -/
theorem parseOpeningBoundary_spec {s : Cursor} {b t : ByteString}
    (hb : s.parser.boundaryValue = b) (hdash : b.head? ≠ some dash)
    (hprint : ∀ c ∈ b, isPrint c = true) (h : s.it + 4 ≤ last)
    (ht : openingText (slice m s.it last) = t) :
    let k := parseOpeningBoundary m last s
    k.parser.boundaryValue = b ∧ k.parser.boundaryValueLength = b.length ∧
      (k.it ≤ last ∧ slice m k.it last <:+ behindBoundary b t ∨
        last < k.it ∧ k.it ≤ last + 8) := by
  intro k
  have hcases := parseOpeningBoundary_cases hb hdash hprint h ht
  simp only at hcases
  rcases hcases with ⟨i, hil, hsuffix, hk⟩ | ⟨x, y, rfl, hfind, -, hk⟩ |
    ⟨x, y, rfl, hfind, hcut, hk⟩
  · rw [show k = _ from hk]
    exact ⟨hb, rfl, Or.inl ⟨hil, hsuffix⟩⟩
  · obtain ⟨h1, h2, hle, hge⟩ := @parseUploadHeaders_spec m last
      { s with
        parser := { s.parser with boundaryValueLength := b.length }
        it := last - y.length }
    rw [← hk] at h1 h2 hle hge
    refine ⟨h1.trans hb, h2, ?_⟩
    rcases Nat.lt_or_ge last k.it with hlt | hle'
    · refine Or.inr ⟨hlt, hge.trans ?_⟩
      dsimp only
      omega
    · refine Or.inl ⟨hle', ?_⟩
      have hx : x ++ b ++ (crlf ++ y) = x ++ (b ++ crlf) ++ y := by simp
      rw [hx] at hfind ⊢
      refine List.IsSuffix.trans ?_ (suffix_behindBoundary (by simp [crlf]) hfind)
      have hy : slice m (last - y.length) last = y := slice_of_openingText h (ht.trans hx)
      conv_rhs => rw [← hy]
      rw [← slice_append m hle hle']
      exact List.suffix_append _ _
  · obtain ⟨h1, h2, hle, hge⟩ := @parseUploadHeaders_spec m last
      { s with
        parser := { s.parser with boundaryValueLength := b.length }
        it := last - y.length + 2 }
    rw [← hk] at h1 h2 hle hge
    have hy := hcut.length_le
    refine ⟨h1.trans hb, h2, Or.inr ⟨?_, hge.trans ?_⟩⟩
    · refine lt_of_lt_of_le ?_ hle
      dsimp only
      omega
    · dsimp only
      omega

end Webcrown.Http
