import Webcrown.Http.HeadText

/-!
# What lies behind the chunk

Two buffers with the same chunk and different memory behind it. The request line, an
upload that waits for more and a waiting body are read from the chunk alone; a header
block and the opening boundary are where their texts settle them.
-/

namespace Webcrown.Http

open Bytes Common BlockText

/-- Every end of the block that no byte behind the chunk takes part in. -/
def BlockSettled (u : ByteString) : Prop :=
  u.length < 2 ∨ (start.read u).pos = .name [] ∨ ∃ rest, (start.read u).pos = .closed rest

/-- The search for the opening boundary `b` and its line in the text `t` behind the head
ends in the chunk, and so do the part headers behind it. -/
structure BoundarySettled (b t : ByteString) : Prop where
  absent : find b t = none → ¬([dash, dash] <:+ b ∧ b.dropLast <:+ t)
  line : ∀ x l, t = x ++ l → find b t = some x.length →
    crlf <:+: l ∨ (l.getLast? ≠ some cr ∧ l.getLast? ≠ some dash)
  part : ∀ x y, t = x ++ b ++ (crlf ++ y) → find b t = some x.length →
    ¬[dash, dash] <:+ b → BlockSettled y

/-- The lines entered do not depend on what lies behind the chunk. -/
def LinePos.linesSettled : LinePos → Prop
  | .lineCr _ _ => False
  | .blankCr => False
  | _ => True

/-- The block is settled; or its chunk ends behind a line and nothing is taken from
there; or its type is rejected, and its errors with it. -/
inductive EndSettled (u : ByteString) : Prop
  | block : BlockSettled u → EndSettled u
  | untaken : (start.read u).pos = .lineEnd → (∀ z, HeadWaits z u ∨
      (headType z u).takesMedia = true ∧
        (headHeaders z u).lookup (ascii "content-length") = none) → EndSettled u
  | rejected : (start.read u).pos.linesSettled → (∀ z, (headType z u).supported = false) →
      EndSettled u

/-- The text behind a request line is read from the chunk alone. What a settled block
says of its fields it says with any memory `z` behind it. -/
structure HeadSettled (u : ByteString) : Prop where
  block : EndSettled u
  boundary : ∀ z w b rest, (start.read u).pos = .closed rest →
    (headType z u).takesMedia = true → ¬ HeadWaits z u →
    (headHeaders z u).lookup (ascii "content-type") = some w → boundaryParameter w = some b →
    BoundarySettled b (openingText (contentText u))

/-- Only a first call looks behind its chunk. -/
def Settled (p : Parser) (t : ByteString) : Prop :=
  p.parsePhase = .notStarted → ∀ n g u, RequestLine t n g u → HeadSettled u

section Agree

variable {m m' : ℕ → UInt8} {last it : ℕ}

/-- The two memories hold the same chunk. -/
def AgreeBelow (m m' : ℕ → UInt8) (last : ℕ) : Prop :=
  ∀ k < last, m k = m' k

theorem AgreeBelow.slice {i j : ℕ} (h : AgreeBelow m m' last) (hj : j ≤ last) :
    slice m i j = slice m' i j :=
  slice_congr fun k _ hk => h k (by omega)

theorem AgreeBelow.scan (h : AgreeBelow m m' last) (f : UInt8 → Bool) :
    scan (fun k => f (m k)) last it = scan (fun k => f (m' k)) last it :=
  scan_congr fun k _ hk => by rw [h k hk]

theorem parseMethod_congr (h : AgreeBelow m m' last) (hit : it < last) (ec : ErrorCode) :
    parseMethod m last it ec = parseMethod m' last it ec := by
  have hle := @scan_le (fun k => !isTokenChar (m' k) || !isAlpha (m' k)) last it hit.le
  unfold parseMethod
  rw [h.scan fun c => !isTokenChar c || !isAlpha c, h it hit]
  generalize scan (fun k => !isTokenChar (m' k) || !isAlpha (m' k)) last it = p at hle ⊢
  dsimp only
  rw [h.slice (i := it) hle]
  rcases hle.eq_or_lt with rfl | hlt
  · simp
  · rw [h p hlt]

theorem parseTarget_congr (h : AgreeBelow m m' last) (hit : it < last) (ec : ErrorCode) :
    parseTarget m last it ec = parseTarget m' last it ec := by
  have hle := @scan_le (fun k => !isPathchar (m' k)) last it hit.le
  unfold parseTarget
  rw [h.scan fun c => !isPathchar c, h it hit]
  generalize scan (fun k => !isPathchar (m' k)) last it = p at hle ⊢
  dsimp only
  rw [h.slice (i := it) hle]
  rcases hle.eq_or_lt with rfl | hlt
  · simp
  · rw [h p hlt]

theorem matchLiteral_congr (h : AgreeBelow m m' last) {cs : ByteString}
    (hit : it + cs.length ≤ last) : matchLiteral m cs it = matchLiteral m' cs it := by
  induction cs generalizing it with
  | nil => rfl
  | cons c cs ih =>
    rw [List.length_cons] at hit
    rw [matchLiteral, matchLiteral, h it (by omega), ih (by omega)]

theorem matchLiteral_it_le (m : ℕ → UInt8) (cs : ByteString) (it : ℕ) :
    (matchLiteral m cs it).1 ≤ it + cs.length := by
  induction cs generalizing it with
  | nil => exact le_rfl
  | cons c cs ih =>
    rw [matchLiteral, List.length_cons]
    split_ifs
    · dsimp only
      omega
    · exact (ih (it + 1)).trans (by omega)

theorem parseProtocol_congr (h : AgreeBelow m m' last) (version : ℤ) (ec : ErrorCode) :
    parseProtocol m last it version ec = parseProtocol m' last it version ec := by
  unfold parseProtocol
  by_cases hshort : it + 8 > last
  · rw [if_pos hshort, if_pos hshort]
  have hname : (ascii "HTTP/").length = 5 := by decide +kernel
  have hle := matchLiteral_it_le m' (ascii "HTTP/") it
  rw [if_neg hshort, if_neg hshort, matchLiteral_congr h (by omega)]
  generalize matchLiteral m' (ascii "HTTP/") it = name at hle ⊢
  dsimp only
  rw [h _ (by omega), h _ (by omega), h _ (by omega)]

theorem it_parseMethod_lt {ec : ErrorCode} (h : (parseMethod m last it ec).ec.isSome = false) :
    (parseMethod m last it ec).it < last := by
  unfold parseMethod at h ⊢
  dsimp only at h ⊢
  split_ifs at h ⊢ <;> first | cases h | exact Nat.lt_of_not_le ‹_›

theorem parseRequestLine_congr (h : AgreeBelow m m' last) {s : Cursor} (hit : s.it < last) :
    parseRequestLine m last s = parseRequestLine m' last s := by
  unfold parseRequestLine
  rw [parseMethod_congr h hit]
  have hmethod := @it_parseMethod_lt m' last s.it s.ec
  generalize parseMethod m' last s.it s.ec = method at hmethod ⊢
  dsimp only
  cases hm : method.ec.isSome with
  | true => simp
  | false =>
    simp only [parseTarget_congr h (hmethod hm), parseProtocol_congr h]
    generalize parseTarget m' last method.it method.ec = target
    by_cases hshort :
        (parseProtocol m' last target.it s.parser.protocolVersion target.ec).it + 2 > last
    · simp only [if_pos hshort]
    · have h0 := h (parseProtocol m' last target.it s.parser.protocolVersion target.ec).it
        (by omega)
      have h1 := h ((parseProtocol m' last target.it s.parser.protocolVersion target.ec).it + 1)
        (by omega)
      simp only [h0, h1]

end Agree

section Block

variable {m m' : ℕ → UInt8} {last : ℕ}

/-- A settled block is read from the chunk alone. -/
theorem blockEnd_congr (h : AgreeBelow m m' last) {it : ℕ} (ec : ErrorCode)
    (hs : BlockSettled (slice m it last)) : blockEnd m last it ec = blockEnd m' last it ec := by
  unfold blockEnd
  rw [← h.slice le_rfl]
  split_ifs with hshort
  · rfl
  · have hpos := read_start_pos ec (slice m it last)
    generalize read ⟨.name [], [], ec⟩ (slice m it last) = b at hpos ⊢
    rcases hs with hl | hname | ⟨rest, hclosed⟩
    · rw [length_slice] at hl
      omega
    · rw [hname] at hpos
      simp only [close, hpos, if_true]
    · rw [hclosed] at hpos
      simp only [close, hpos]

theorem parseUploadHeaders_congr (h : AgreeBelow m m' last) (s : Cursor)
    (hs : BlockSettled (slice m s.it last)) :
    parseUploadHeaders m last s = parseUploadHeaders m' last s := by
  have hphase : (parseMessageHeader m last s.it ∅ s.ec).2 =
      (parseMessageHeader m' last s.it ∅ s.ec).2 := by
    unfold parseMessageHeader
    split_ifs <;> rfl
  unfold parseUploadHeaders
  dsimp only
  rw [hphase, parseMessageHeader_eq_blockEnd, parseMessageHeader_eq_blockEnd,
    blockEnd_congr h s.ec hs]

theorem lineStop_congr (h : AgreeBelow m m' last) {k j : ℕ} (hj : j + 1 < last) (hcr : m j = cr)
    (hk : k ≤ j) : closesAt m k = closesAt m' k ∧ crlfAt m k = crlfAt m' k := by
  have hcr' : m' j = cr := (h j (by omega)).symm.trans hcr
  have hdash : (cr == dash) = false := by decide
  refine ⟨?_, by simp only [crlfAt, h k (by omega), h (k + 1) (by omega)]⟩
  obtain rfl | rfl | hlt : k = j ∨ k + 1 = j ∨ k + 2 ≤ j := by omega
  · simp [closesAt, hcr, hcr', hdash]
  · simp [closesAt, hcr, hcr', hdash]
  · simp only [closesAt, h k (by omega), h (k + 1) (by omega), h (k + 2) (by omega),
      h (k + 3) (by omega)]

theorem scan_lineStop_eq_last {f : ℕ} (hf : f ≤ last) (hno : ¬ crlf <:+: slice m f last)
    (hcr : (slice m f last).getLast? ≠ some cr) (hdash : (slice m f last).getLast? ≠ some dash) :
    scan (fun k => closesAt m k || crlfAt m k) last f = last := by
  have hlast : ∀ k, f ≤ k → k + 1 = last → m k ≠ cr ∧ m k ≠ dash := by
    intro k hk hkl
    have hsplit := slice_append m hk (show k ≤ last by omega)
    rw [slice_cons m (show k < last by omega), slice_of_le m (show last ≤ k + 1 by omega)] at hsplit
    rw [← hsplit, List.getLast?_concat] at hcr hdash
    exact ⟨fun he => hcr (by rw [he]), fun he => hdash (by rw [he])⟩
  have hline : ∀ k, f ≤ k → k < last → crlfAt m k = false := by
    intro k hk hkl
    rw [Bool.eq_false_iff]
    intro hs
    rcases Nat.lt_or_ge (k + 1) last with hlt | hge
    · have hpre := (prefix_slice_iff hkl.le).mpr
        ⟨show k + crlf.length ≤ last from hlt, (crlfAt_iff m k).mp hs⟩
      refine hno (hpre.isInfix.trans ?_)
      rw [← slice_append m hk hkl.le]
      exact (List.suffix_append _ _).isInfix
    · simp only [crlfAt, Bool.and_eq_true, beq_iff_eq] at hs
      exact (hlast k hk (by omega)).1 hs.1
  apply scan_eq_last hf
  intro k hk hkl
  rw [hline k hk hkl, Bool.or_false, Bool.eq_false_iff]
  intro hs
  have htail : crlfAt m (k + 2) = true := by
    simp only [closesAt, crlfAt, Bool.and_eq_true, beq_iff_eq] at hs ⊢
    exact ⟨hs.1.2, hs.2⟩
  simp only [closesAt, Bool.and_eq_true, beq_iff_eq] at hs
  rcases Nat.lt_or_ge (k + 2) last with hlt | hge
  · rw [hline (k + 2) (by omega) hlt] at htail
    cases htail
  · rcases Nat.lt_or_ge (k + 1) last with hlt | hge'
    · exact (hlast (k + 1) (by omega) (by omega)).2 hs.1.1.2
    · exact (hlast k hk (by omega)).2 hs.1.1.1

/-- The line scan ends at the same place when the chunk settles it. -/
theorem scan_lineStop_congr (h : AgreeBelow m m' last) {f : ℕ} (hf : f ≤ last)
    (hl : crlf <:+: slice m f last ∨
      (slice m f last).getLast? ≠ some cr ∧ (slice m f last).getLast? ≠ some dash) :
    let p := scan (fun k => closesAt m k || crlfAt m k) last f
    scan (fun k => closesAt m' k || crlfAt m' k) last f = p ∧
      (p < last → p + 1 < last ∧ closesAt m p = closesAt m' p) := by
  intro p
  by_cases hline : crlf <:+: slice m f last
  · obtain ⟨x, y, hxy⟩ := hline
    rw [List.append_assoc] at hxy
    obtain ⟨-, hrest⟩ := slice_eq_append hxy.symm
    obtain ⟨hlt, hcr, hrest⟩ := slice_eq_cons hrest
    obtain ⟨hlt', hlf, -⟩ := slice_eq_cons hrest
    have hcongr := fun k (hk : k ≤ f + x.length) => lineStop_congr h hlt' hcr hk
    have hpj : p ≤ f + x.length := by
      by_contra hgt
      have := not_stop_of_lt_scan (show f ≤ f + x.length by omega) (Nat.lt_of_not_le hgt)
      simp [crlfAt, hcr, hlf] at this
    refine ⟨?_, fun _ => ⟨by omega, (hcongr p hpj).1⟩⟩
    refine scan_eq le_scan (by omega) ?_ fun k hk hkp => ?_
    · rw [← (hcongr p hpj).1, ← (hcongr p hpj).2]
      exact stop_scan (show p < last by omega)
    · rw [← (hcongr k (by omega)).1, ← (hcongr k (by omega)).2]
      exact not_stop_of_lt_scan hk hkp
  · obtain ⟨hcr, hdash⟩ := hl.resolve_left hline
    have hp : p = last := scan_lineStop_eq_last hf hline hcr hdash
    rw [h.slice le_rfl] at hline hcr hdash
    exact ⟨(scan_lineStop_eq_last hf hline hcr hdash).trans hp.symm, fun hlt => by omega⟩

theorem openingLine_of_absent {s : Cursor} {b : ByteString} {i : ℕ}
    (hprint : ∀ c ∈ b, isPrint c = true) (hi : i ≤ last)
    (hfind : find b (slice m i last) = none)
    (habsent : ¬([dash, dash] <:+ b ∧ b.dropLast <:+ slice m i last)) :
    openingLine m last s b (scan (fun k => decide (HoldsAt m b k)) last i) =
      { s with it := last } := by
  have hne : b ≠ [] := by
    rintro rfl
    rw [find_of_startsWith List.nil_prefix] at hfind
    cases hfind
  set f := scan (fun k => decide (HoldsAt m b k)) last i with hf
  have hif : i ≤ f := le_scan
  have hfl : f ≤ last := scan_le hi
  have hover : f = last ∨ f < last ∧ HoldsAt m b f ∧ last < f + b.length := by
    rcases scan_of_find_none hi (fun k _ _ => decide_eq_true_iff) hfind with he | ⟨hlt, hs, hlong⟩
    · exact Or.inl he
    · exact Or.inr ⟨hlt, of_decide_eq_true hs, hlong⟩
  have hscan : scan (fun k => closesAt m k || crlfAt m k) last f = last := by
    rcases hover with he | ⟨hlt, hhold, hlong⟩
    · rw [he, scan_of_le le_rfl]
    have hget : ∀ j, f ≤ j → j < f + b.length → m j ∈ b := by
      intro j hj hjb
      rw [← show slice m f (f + b.length) = b from hhold]
      exact mem_slice.mpr ⟨j, hj, hjb, rfl⟩
    have hcr : ∀ j, f ≤ j → j < f + b.length → m j ≠ cr := by
      intro j hj hjb he
      have := hprint _ (hget j hj hjb)
      rw [he, isPrint_cr] at this
      cases this
    apply scan_eq_last hfl
    intro k hk hkl
    have hline : crlfAt m k = false := by simp [crlfAt, hcr k hk (by omega)]
    rw [hline, Bool.or_false, Bool.eq_false_iff]
    intro hs
    simp only [closesAt, Bool.and_eq_true, beq_iff_eq] at hs
    -- the CR of `--` CR LF stands behind the overhanging boundary
    have hend : f + b.length ≤ k + 2 := by
      by_contra hlt'
      exact hcr (k + 2) (by omega) (by omega) hs.1.2
    have hlong' : f + b.length = last + 1 := by omega
    have hk1 : k + 1 = last := by omega
    have hb : slice m f last ++ [m last] = b := by
      have hsplit := slice_append m hfl (Nat.le_add_right last 1)
      rw [slice_cons m (Nat.lt_succ_self last), slice_of_le m (Nat.le_refl (last + 1))] at hsplit
      rw [hsplit, ← hlong']
      exact hhold
    refine habsent ⟨⟨slice m f k, ?_⟩, ?_⟩
    · rw [← hb, ← slice_append m hk hkl.le, slice_cons m hkl, slice_of_le m hk1.ge, hs.1.1.1,
        ← hk1, hs.1.1.2]
      simp
    · rw [← hb, List.dropLast_concat, ← slice_append m hif hfl]
      exact List.suffix_append _ _
  have hshort : slice m f last ≠ b := by
    intro he
    have hl := congrArg List.length he
    rw [length_slice] at hl
    rcases hover with hfe | ⟨hlt, -, hlong⟩
    · exact hne (List.eq_nil_of_length_eq_zero (by omega))
    · omega
  rw [openingLine, hscan, if_pos hshort]
  simp

/-- A settled opening boundary is read from the chunk alone. -/
theorem parseOpeningBoundary_congr (h : AgreeBelow m m' last) {s : Cursor} {b : ByteString}
    (hb : s.parser.boundaryValue = b) (hdash : b.head? ≠ some dash)
    (hprint : ∀ c ∈ b, isPrint c = true) (hit : s.it + 4 ≤ last)
    (hs : BoundarySettled b (openingText (slice m s.it last))) :
    parseOpeningBoundary m last s = parseOpeningBoundary m' last s := by
  obtain ⟨i, hi, -, hslice, hk⟩ := parseOpeningBoundary_eq (m := m) hb hdash hit
  obtain ⟨i', hi', -, hslice', hk'⟩ := parseOpeningBoundary_eq (m := m') hb hdash hit
  rw [← h.slice (i := s.it) le_rfl, ← hslice] at hslice'
  have hii : i' = i := by
    have hl := congrArg List.length hslice'
    simp only [length_slice] at hl
    omega
  subst hii
  rw [hk, hk']
  rw [← hslice] at hs
  set s' : Cursor := { s with parser := { s.parser with boundaryValueLength := b.length } }
  cases hfind : find b (slice m i' last) with
  | none =>
    have habsent := hs.absent hfind
    rw [openingLine_of_absent hprint hi hfind habsent]
    rw [h.slice le_rfl] at hfind habsent
    rw [openingLine_of_absent hprint hi hfind habsent]
  | some j =>
    obtain ⟨⟨x, y, hxy, hx⟩, -⟩ := find_spec hfind
    have hl := congrArg List.length hxy
    simp only [length_slice, List.length_append, hx] at hl
    have hfind' := hfind
    rw [h.slice le_rfl] at hfind'
    rw [scan_holdsAt_of_find_some hi hfind, scan_holdsAt_of_find_some hi hfind']
    have hsplit : slice m i' last = x ++ slice m (i' + j) last := by
      rw [← drop_slice, hxy, ← hx, List.append_assoc, List.drop_left]
    have hline := hs.line x _ hsplit (hx ▸ hfind)
    obtain ⟨hscan, hstop⟩ := scan_lineStop_congr h (show i' + j ≤ last by omega) hline
    unfold openingLine
    rw [hscan]
    set f := i' + j with hf
    set p := scan (fun k => closesAt m k || crlfAt m k) last f with hp
    have hfp : f ≤ p := le_scan
    have hpl : p ≤ last := scan_le (by omega)
    dsimp only
    rw [h.slice (i := f) hpl]
    have hclose : (p < last && closesAt m p) = (p < last && closesAt m' p) := by
      by_cases hlt : p < last
      · rw [(hstop hlt).2]
      · simp [hlt]
    rw [hclose]
    split_ifs with hcloses hne
    · rfl
    · rfl
    apply parseUploadHeaders_congr h _
    rw [not_not, ← h.slice hpl] at hne
    rcases hpl.eq_or_lt with he | hlt
    · exact Or.inl (by simp [he])
    obtain ⟨hlt', -⟩ := hstop hlt
    have hcrlf : crlfAt m p = true := by
      have hs' := stop_scan (hp ▸ hlt)
      rw [← hp, Bool.or_eq_true] at hs'
      refine hs'.resolve_left fun hc => hcloses ?_
      rw [← hclose, hc]
      simpa using hlt
    have hpf : p = f + b.length := by
      rw [← hne, length_slice]
      omega
    have hy : slice m i' last = x ++ b ++ (crlf ++ slice m (p + 2) last) := by
      simp only [crlfAt, Bool.and_eq_true, beq_iff_eq] at hcrlf
      rw [hsplit, ← slice_append m hfp hpl, hne, slice_cons m hlt, slice_cons m hlt', hcrlf.1,
        hcrlf.2]
      simp [crlf]
    exact hs.part x _ hy (hx ▸ hfind) (not_dashes_of_scan hp hpf hne hcrlf)

theorem parseMediaTypeMore_congr (h : AgreeBelow m m' last) {s : Cursor}
    (hok : s.parser.BoundaryOk) : parseMediaTypeMore m last s = parseMediaTypeMore m' last s := by
  unfold parseMediaTypeMore
  split
  · rfl
  split_ifs with hit
  · rfl
  have hscan : scanUpload m last s.it s.parser.boundaryValueLength s.parser.boundaryValue =
      scanUpload m' last s.it s.parser.boundaryValueLength s.parser.boundaryValue ∧
      (scanUpload m' last s.it s.parser.boundaryValueLength s.parser.boundaryValue).bufferEnd ≤
        last := by
    rcases Nat.lt_or_gt_of_ne hit with hlt | hgt
    · have hpart := (uploadPart_isPrefix
        (s.parser.boundaryValue.take s.parser.boundaryValueLength)
        (slice m' s.it last)).length_le
      rw [length_slice] at hpart
      rw [scanUpload_eq m hok.length_le hok.head_ne_dash hok.print hlt,
        scanUpload_eq m' hok.length_le hok.head_ne_dash hok.print hlt, h.slice le_rfl]
      exact ⟨rfl, by dsimp only; omega⟩
    · have hbehind : ∀ m, scanUpload m last s.it s.parser.boundaryValueLength
          s.parser.boundaryValue = ⟨s.it, last, false⟩ := by
        intro m
        simp only [scanUpload, verifyBoundaryValue, scan_of_le hgt.le]
        exact if_neg (by omega)
      rw [hbehind m, hbehind m']
      exact ⟨rfl, le_rfl⟩
  dsimp only
  rw [hscan.1, h.slice (i := s.it) hscan.2]

theorem boundaryOk_parseMediaTypeMore {s s' : Cursor} (hok : s.parser.BoundaryOk)
    (h : parseMediaTypeMore m last s = .ok s') : s'.parser.BoundaryOk := by
  unfold parseMediaTypeMore at h
  split at h
  · cases h
    exact hok
  dsimp only at h
  split_ifs at h <;> cases h <;> exact ⟨hok.1, hok.2, hok.3⟩

end Block

section First

variable {t : ContentType} {c c' : Chunk} {n g u : ByteString}

theorem agreeBelow_memory (hb : c.bytes = c'.bytes) : AgreeBelow c.memory c'.memory c.size := by
  intro k hk
  rw [c.memory_of_lt hk, c'.memory_of_lt (hb ▸ hk)]
  simp only [hb]

theorem headCursor_congr (hb : c.bytes = c'.bytes) (h : RequestLine c.bytes n g u)
    (hs : BlockSettled u) : headCursor t c n g u = headCursor t c' n g u := by
  have hblock := @blockEnd_congr c.memory c'.memory c.size (agreeBelow_memory hb)
    (c.size - u.length) none
    (by rwa [(slice_rest h).1])
  have hsize : c'.size = c.size := congrArg List.length hb.symm
  simp only [headCursor, hsize, hblock]

theorem headFields_congr {z z' : ℕ → UInt8} (hs : (start.read u).pos.linesSettled) :
    headFields z u = headFields z' u := by
  unfold headFields
  revert hs
  cases (start.read u).pos <;> simp [LinePos.linesSettled, LinePos.lastFields]

theorem parser_headCursor_congr (hb : c.bytes = c'.bytes) (h : RequestLine c.bytes n g u)
    (hs : (start.read u).pos.linesSettled) :
    (headCursor t c n g u).parser = (headCursor t c' n g u).parser := by
  have hf := fields_blockEnd (m := c.memory) (Nat.sub_le c.size u.length) none
  have hf' := fields_blockEnd (m := c'.memory) (Nat.sub_le c'.size u.length) none
  rw [(slice_rest h).1, c.memory_behind] at hf
  rw [(slice_rest (hb ▸ h)).1, c'.memory_behind, @headFields_congr u c'.behind c.behind hs,
    ← hf] at hf'
  simp only [headCursor, Parser.headRead, BlockEnd.headers, BlockEnd.contentType, hf']

theorem ec_headCursor_congr (hb : c.bytes = c'.bytes) (h : RequestLine c.bytes n g u)
    (hpos : (start.read u).pos = .lineEnd) :
    (headCursor t c n g u).ec = (headCursor t c' n g u).ec := by
  have hlong : 2 ≤ u.length := by
    have hend := endsAs_read u
    rw [hpos] at hend
    obtain ⟨x, d, rfl⟩ := hend
    simp
  have hblock : ∀ d : Chunk, d.bytes = c.bytes →
      (blockEnd d.memory d.size (d.size - u.length) none).ec = (start.read u).ec := by
    intro d hd
    obtain ⟨hslice, hle⟩ := slice_rest (c := d) (hd ▸ h)
    rw [blockEnd, if_neg (by omega), hslice]
    change (close (start.read u) _ _).ec = _
    simp only [close, hpos]
  have hparser := parser_headCursor_congr (t := t) hb h (by rw [hpos]; trivial)
  have htype : (headCursor t c n g u).parser.headerContentType =
      (headCursor t c' n g u).parser.headerContentType := by rw [hparser]
  simp only [headCursor, Parser.headRead] at htype ⊢
  rw [htype, hblock c rfl, hblock c' hb.symm]

theorem parseMediaTypeBegin_of_lt {m m' : ℕ → UInt8} {last i j : ℕ} {p : Parser} {ec : ErrorCode}
    {ranges : List (ℕ × ℕ)} (hi : last < i + 4) (hj : last < j + 4) :
    parseMediaTypeBegin m' last ⟨p, j, ec, ranges⟩ =
      { parseMediaTypeBegin m last ⟨p, i, ec, ranges⟩ with it := j } := by
  simp only [parseMediaTypeBegin]
  split
  · rfl
  split
  · rfl
  · simp only [parseOpeningBoundary]
    rw [if_pos hi, if_pos hj]

/-- A settled search behind the head. -/
theorem parseMediaTypeBegin_congr (hb : c.bytes = c'.bytes) (h : RequestLine c.bytes n g u)
    (hs : HeadSettled u) (hmedia : (headType c.behind u).takesMedia = true)
    (hwait : ¬ HeadWaits c.behind u) :
    parseMediaTypeBegin c.memory c.size (headCursor t c n g u) =
      parseMediaTypeBegin c'.memory c.size (headCursor t c n g u) := by
  have hheaders := headers_headCursor (t := t) h
  cases hw : (headHeaders c.behind u).lookup (ascii "content-type") with
  | none => simp only [parseMediaTypeBegin, hheaders, hw]
  | some w =>
    cases hbound : boundaryParameter w with
    | none => simp only [parseMediaTypeBegin, hheaders, hw, hbound]
    | some b =>
      have hw' := (congrArg _ hheaders).trans hw
      rw [parseMediaTypeBegin_eq hw' hbound, parseMediaTypeBegin_eq hw' hbound]
      by_cases hpos : ∃ rest, (start.read u).pos = .closed rest
      · obtain ⟨rest, hpos⟩ := hpos
        obtain ⟨hit, htext⟩ := slice_boundaryCursor (t := t) (b := b) h hpos
        refine parseOpeningBoundary_congr (agreeBelow_memory hb) rfl (head_boundaryParameter hbound)
          (print_boundary h hw hbound) hit ?_
        have hsettled := hs.boundary c.behind w b rest hpos hmedia hwait hw hbound
        rwa [← htext] at hsettled
      · simp only [not_exists] at hpos
        have hopen : c.size < (headCursor t c n g u).it + 4 :=
          it_blockEnd_open (slice_rest h).1 (Nat.sub_le _ _) hpos none
        unfold parseOpeningBoundary
        rw [if_pos hopen, if_pos hopen]

theorem call_headSettled_congr (hb : c.bytes = c'.bytes) (hline : RequestLine c.bytes n g u)
    (hsettled : HeadSettled u) (hblock : BlockSettled u) :
    (Parser.fresh t).call c = (Parser.fresh t).call c' := by
  have hagree := agreeBelow_memory hb
  have hsize : c'.size = c.size := congrArg List.length hb.symm
  rw [Parser.call_of_requestLine t hline, Parser.call_of_requestLine t (hb ▸ hline), hsize,
    ← headCursor_congr hb hline hblock]
  split_ifs with hwaits
  · rfl
  rw [awaitsBody_headCursor hline] at hwaits
  have htype := type_headCursor (t := t) hline
  cases hsupp : (headType c.behind u).supported with
  | false =>
    have hunknown := htype.trans (headersContentType_of_unsupported hsupp)
    rw [parseContent_unknown rfl hunknown, parseContent_unknown rfl hunknown]
  | true =>
    rcases ContentType.takesBody_or_takesMedia hsupp with hbody | hmedia
    · rw [Parser.parseContent_body (Or.inl rfl) (htype ▸ hbody),
        Parser.parseContent_body (Or.inl rfl) (htype ▸ hbody)]
      unfold parseBody
      rw [hagree.slice le_rfl]
    · have hbegin := parseMediaTypeBegin_congr (t := t) hb hline hsettled hmedia hwaits
      have hok := (@parseMediaTypeBegin_spec c.memory c.size (headCursor t c n g u) rfl rfl
        (fun name v hv => print_headers (printValues_blockEnd _ _ _ _) hv)
        (it_headCursor_le t c n g u)).1
      rw [parseContent_media rfl (htype ▸ hmedia), parseContent_media rfl (htype ▸ hmedia),
        ← hbegin, ← parseMediaTypeMore_congr hagree hok]
      cases hmore : parseMediaTypeMore c.memory c.size
          (parseMediaTypeBegin c.memory c.size (headCursor t c n g u)) with
      | error s => rfl
      | ok s =>
        have hok' := boundaryOk_parseMediaTypeMore hok hmore
        have hmedia' : parseMedia c.memory c.size s = parseMedia c'.memory c.size s := by
          by_cases hneed : s.parser.parsePhase = .parseMediaTypeNeedMore
          · rw [parseMedia_of_needMore hneed, parseMedia_of_needMore hneed,
              parseMediaTypeMore_congr hagree hok']
          · rw [parseMedia_of_ne hneed, parseMedia_of_ne hneed]
        simp only [bind, Except.bind, hmedia']

theorem call_untaken_congr (hb : c.bytes = c'.bytes) (hline : RequestLine c.bytes n g u)
    (hpos : (start.read u).pos = .lineEnd)
    (huntaken : ∀ z, HeadWaits z u ∨ (headType z u).takesMedia = true ∧
      (headHeaders z u).lookup (ascii "content-length") = none) :
    (Parser.fresh t).call c = (Parser.fresh t).call c' := by
  have hline' : RequestLine c'.bytes n g u := hb ▸ hline
  have hsize : c'.size = c.size := congrArg List.length hb.symm
  have hlines : (start.read u).pos.linesSettled := by rw [hpos]; trivial
  have hparser := parser_headCursor_congr (t := t) hb hline hlines
  have hec := ec_headCursor_congr (t := t) hb hline hpos
  have hheaders : headHeaders c'.behind u = headHeaders c.behind u :=
    congrArg _ (headFields_congr hlines)
  rw [Parser.call_of_requestLine t hline, Parser.call_of_requestLine t hline']
  have hwaits : HeadWaits c'.behind u ↔ HeadWaits c.behind u := by
    rw [HeadWaits, HeadWaits, hheaders]
  by_cases hwait : HeadWaits c.behind u
  · rw [if_pos ((awaitsBody_headCursor hline).mpr hwait),
      if_pos ((awaitsBody_headCursor hline').mpr (hwaits.mpr hwait)), hparser, hec]
  · obtain ⟨hmedia, hcl⟩ := (huntaken c.behind).resolve_left hwait
    rw [if_neg (fun hw => hwait ((awaitsBody_headCursor hline).mp hw)),
      if_neg (fun hw => hwait (hwaits.mp ((awaitsBody_headCursor hline').mp hw)))]
    have hopen : ∀ rest, (start.read u).pos ≠ .closed rest := by simp [hpos]
    have hlt : c.size < (headCursor t c n g u).it + 4 :=
      it_blockEnd_open (slice_rest hline).1 (Nat.sub_le _ _) hopen none
    have hlt' : c.size < (headCursor t c' n g u).it + 4 :=
      hsize ▸ it_blockEnd_open (slice_rest hline').1 (Nat.sub_le _ _) hopen none
    have hcursor : headCursor t c' n g u =
        ⟨(headCursor t c n g u).parser, (headCursor t c' n g u).it, (headCursor t c n g u).ec,
          []⟩ := by
      rw [hparser, hec]
      rfl
    have htype : (headCursor t c n g u).parser.headerContentType.takesMedia = true :=
      (type_headCursor (t := t) hline) ▸ hmedia
    obtain ⟨k, hk⟩ : ∃ k, parseMediaTypeBegin c.memory c.size (headCursor t c n g u) = k := ⟨_, rfl⟩
    have hk' : parseMediaTypeBegin c'.memory c'.size (headCursor t c' n g u) =
        { k with it := (headCursor t c' n g u).it } := by
      rw [hsize, hcursor, ← hk]
      exact parseMediaTypeBegin_of_lt hlt hlt'
    have hnone : k.parser.headers.lookup (ascii "content-length") = none := by
      rw [← hk, (parseMediaTypeBegin_frame _).2.headers, headers_headCursor hline, hcl]
    rw [parseContent_media_of_none hk rfl htype hnone,
      parseContent_media_of_none hk' rfl (hparser ▸ htype) hnone]

theorem call_rejected_congr (hb : c.bytes = c'.bytes) (hline : RequestLine c.bytes n g u)
    (hlines : (start.read u).pos.linesSettled)
    (hsupp : ∀ z, (headType z u).supported = false) :
    (Parser.fresh t).call c = (Parser.fresh t).call c' := by
  have hline' : RequestLine c'.bytes n g u := hb ▸ hline
  have hparser := parser_headCursor_congr (t := t) hb hline hlines
  have hheaders : headHeaders c'.behind u = headHeaders c.behind u :=
    congrArg _ (headFields_congr hlines)
  have hwaits : HeadWaits c'.behind u ↔ HeadWaits c.behind u := by
    rw [HeadWaits, HeadWaits, hheaders]
  have hec : ∀ d : Chunk, RequestLine d.bytes n g u →
      (headCursor t d n g u).ec = some .contentTypeNotImplemented := by
    intro d hd
    have htype := hsupp d.behind
    rw [← type_headCursor (t := t) hd] at htype
    exact if_neg (by rw [Bool.not_eq_true]; exact htype)
  have hunknown : ∀ d : Chunk, RequestLine d.bytes n g u →
      parseContent d.memory d.size (headCursor t d n g u) =
        .ok ⟨(headCursor t d n g u).parser, (headCursor t d n g u).ec, [], none⟩ := fun d hd =>
    parseContent_unknown rfl
      ((type_headCursor hd).trans (headersContentType_of_unsupported (hsupp d.behind)))
  rw [Parser.call_of_requestLine t hline, Parser.call_of_requestLine t hline', hunknown c hline,
    hunknown c' hline', hec c hline, hec c' hline', ← hparser]
  by_cases hwait : HeadWaits c.behind u
  · rw [if_pos ((awaitsBody_headCursor hline).mpr hwait),
      if_pos ((awaitsBody_headCursor hline').mpr (hwaits.mpr hwait))]
  · rw [if_neg (fun hw => hwait ((awaitsBody_headCursor hline).mp hw)),
      if_neg (fun hw => hwait (hwaits.mp ((awaitsBody_headCursor hline').mp hw)))]

/-- A first call on a settled chunk. -/
theorem call_fresh_congr (hb : c.bytes = c'.bytes)
    (hs : ∀ n g u, RequestLine c.bytes n g u → HeadSettled u) :
    (Parser.fresh t).call c = (Parser.fresh t).call c' := by
  have hagree := agreeBelow_memory hb
  have hsize : c'.size = c.size := congrArg List.length hb.symm
  rcases eq_or_ne c.bytes [] with hnil | hne
  · have hzero : c.size = 0 := by simp [Chunk.size, hnil]
    rw [Parser.call, Parser.call, parse_eq, parse_eq, if_pos ⟨rfl, hzero⟩,
      if_pos ⟨rfl, hsize.trans hzero⟩]
  by_cases hline : ∃ n g u, RequestLine c.bytes n g u
  swap
  · simp only [not_exists] at hline
    obtain ⟨s, hs, -, -, hcall⟩ :=
      Parser.call_of_not_requestLine (p := Parser.fresh t) rfl hne hline
    obtain ⟨s', hs', hec', -, hcall'⟩ :=
      Parser.call_of_not_requestLine (c := c') (p := Parser.fresh t) rfl (hb ▸ hne) (hb ▸ hline)
    have hlt : 0 < c.size := List.length_pos_iff.mpr hne
    have hss : s = s' := by
      rw [hs, hs', hsize, parseStartLine, parseStartLine, parseRequestLine_congr hagree hlt]
      have hec : (parseRequestLine c'.memory c.size
          ⟨{ Parser.fresh t with parsePhase := .parseStartLineStarted }, 0, none, []⟩).ec ≠
            none := by
        intro he
        obtain ⟨n, g, u, hl⟩ := parseRequestLine_ec_none he
        rw [← hagree.slice le_rfl, c.slice_memory] at hl
        exact hline n g u hl
      simp only [Option.isSome_iff_ne_none.mpr hec, if_true]
    rw [hcall, hcall', hss]
  obtain ⟨n, g, u, hline⟩ := hline
  have hsettled := hs n g u hline
  cases hsettled.block with
  | block hblock => exact call_headSettled_congr hb hline hsettled hblock
  | untaken hpos huntaken => exact call_untaken_congr hb hline hpos huntaken
  | rejected hlines hsupp => exact call_rejected_congr hb hline hlines hsupp

end First

/-- What the caller sees of a call that returns. -/
def Observed (p : Parser) (c : Chunk) : Option (ErrorCode × Option HttpRequest × Parser) :=
  (p.call c).toOption.map fun r => (r.ec, r.request, r.parser)

/-- On a settled chunk a reachable parser does the same, whatever lies behind it. -/
theorem observed_congr {p : Parser} {c c' : Chunk} (hp : Reachable p) (hb : c.bytes = c'.bytes)
    (hs : Settled p c.bytes) : Observed p c = Observed p c' := by
  have hinv := hp.inv
  have hsize : c'.size = c.size := congrArg List.length hb.symm
  have hcall : p.call c = p.call c' := by
    by_cases hidle : p.Idle
    · rw [Parser.call_idle hidle, Parser.call_idle hidle]
    by_cases hfresh : p.parsePhase = .notStarted
    · obtain ⟨t, rfl⟩ := hinv.fresh hfresh
      exact call_fresh_congr hb (hs rfl)
    by_cases hneed : p.parsePhase = .parseMediaTypeNeedMore
    · obtain ⟨v, hsearch⟩ := hinv.collecting hneed
      rw [Parser.call_needMore_eq hneed, Parser.call_needMore_eq hneed, hsize,
        parseMediaTypeMore_congr (agreeBelow_memory hb) hsearch.boundary]
    by_cases hpending : p.parsePhase = .parseBodyPending
    · cases hbody : p.headerContentType.takesBody with
      | true =>
        rw [Parser.call_pending_body c hpending hbody, Parser.call_pending_body c' hpending hbody,
          hsize, hb]
      | false =>
        rw [Parser.call_pending_media c hpending hbody, Parser.call_pending_media c' hpending hbody]
    by_cases hrejected : p.parsePhase = .parseContentTypeFinished
    · have henter : ∀ m last, p.enter m last none = ⟨p, 0, none, []⟩ := fun m last => by
        simp [Parser.enter, hrejected]
      have hunknown : ∀ m last, parseContent m last ⟨p, 0, none, []⟩ = .ok ⟨p, none, [], none⟩ :=
        fun m last => parseContent_unknown hrejected (hinv.rejected hrejected)
      rw [Parser.call, Parser.call, parse_eq, parse_eq, hsize, henter, henter, hunknown, hunknown]
    · exact absurd ⟨hfresh, hrejected, hpending, hneed, hinv.settled⟩ hidle
  rw [Observed, Observed, hcall]

def getChunkReused : Chunk where
  bytes := getChunk.bytes
  stale := fun k => if k % 2 = 0 then lf else cr
  size_le := getChunk.size_le

theorem observed_congr_getChunk :
    Observed (Parser.fresh .unknown) getChunk =
      Observed (Parser.fresh .unknown) getChunkReused := by
  refine observed_congr (reachable_fresh _) rfl fun _ n g u hline => ?_
  have hget : RequestLine getChunk.bytes (ascii "GET") (ascii "/") (ascii "Host: a\r\n\r\n") :=
    ⟨cr, lf, by decide +kernel, by decide +kernel, by decide +kernel, Or.inl rfl⟩
  obtain ⟨-, -, rfl⟩ := hget.unique hline
  have hread : start.read (ascii "Host: a\r\n\r\n") =
      ⟨.closed [], [(ascii "Host", ascii "a")], none⟩ := by decide +kernel
  refine ⟨.block (Or.inr (Or.inr ⟨[], by rw [hread]⟩)), fun z w b rest _ hmedia => ?_⟩
  have hfields : headFields z (ascii "Host: a\r\n\r\n") = [(ascii "Host", ascii "a")] := by
    rw [headFields, if_neg (by decide +kernel), hread]
    rfl
  rw [headType, headHeaders, hfields] at hmedia
  exact absurd hmedia (by decide +kernel)

/-- A read that ends behind a header line, and two buffers for it: one blank behind the
read, one that still holds the empty line of an earlier request. -/
def lineChunk : Chunk where
  bytes := ascii "GET / HTTP/1.1\r\nHost: a\r\n"
  stale := fun _ => 0
  size_le := by decide +kernel

def lineChunkReused : Chunk where
  bytes := lineChunk.bytes
  stale := fun k => (crlf)[k - lineChunk.size]?.getD 0
  size_le := lineChunk.size_le

/-- With the empty line behind it, the line end of the read itself becomes the body. -/
theorem lineChunk_observed_ne :
    ¬ ∀ p c c', Reachable p → c.bytes = c'.bytes → Observed p c = Observed p c' := by
  intro hall
  have hsame := hall _ lineChunk lineChunkReused (reachable_fresh .unknown) rfl
  have hne : Observed (Parser.fresh .unknown) lineChunk ≠
      Observed (Parser.fresh .unknown) lineChunkReused := by decide +kernel
  exact hne hsame

end Webcrown.Http
