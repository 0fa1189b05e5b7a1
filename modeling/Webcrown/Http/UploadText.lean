import Webcrown.Http.Parser

/-!
# Uploads as text

`uploadPart` is what one chunk contributes to an upload, as a function of its
text: everything up to the CR LF behind the first boundary, or all of it. The
search of `parse_media_type_more` computes it, although its look-ahead may match
a boundary that reaches behind the chunk.
-/

namespace Webcrown.Http

open Bytes Common

/-- The bytes a text contributes to an upload delimited by `b`, and whether they
complete it. -/
def uploadPart (b t : ByteString) : ByteString × Bool :=
  match find b t with
  | none => (t, false)
  | some i =>
    match find crlf (t.drop i) with
    | none => (t, false)
    | some j => (t.take (i + j + 2), true)

theorem uploadPart_isPrefix (b t : ByteString) : (uploadPart b t).1 <+: t := by
  unfold uploadPart
  split
  · exact List.prefix_refl t
  · split
    · exact List.prefix_refl t
    · exact List.take_prefix _ t

theorem uploadPart_of_open {b t : ByteString} (h : (uploadPart b t).2 = false) :
    uploadPart b t = (t, false) := by
  unfold uploadPart at h ⊢
  split
  · rfl
  · split
    · rfl
    · simp_all

/-- An upload is completed by a boundary with a line end anywhere behind its start. -/
theorem uploadPart_closed_iff {b t : ByteString} :
    (uploadPart b t).2 = true ↔ ∃ x w, t = x ++ w ∧ b <+: w ∧ crlf <:+: w := by
  constructor
  · intro h
    unfold uploadPart at h
    split at h
    · simp at h
    · rename_i i hi
      split at h
      · simp at h
      · rename_i j hj
        obtain ⟨⟨x, y, rfl, rfl⟩, -⟩ := find_spec hi
        obtain ⟨⟨x', y', hw, -⟩, -⟩ := find_spec hj
        rw [List.append_assoc, List.drop_left] at hw
        exact ⟨x, b ++ y, by simp, List.prefix_append _ _, ⟨x', y', hw.symm⟩⟩
  · rintro ⟨x, w, rfl, hb, hcrlf⟩
    obtain ⟨i, hi⟩ := exists_find_of_occurs (hb.isInfix.trans (List.suffix_append x w).isInfix)
    have hix : i ≤ x.length := by
      by_contra hlt
      apply (find_spec hi).2 x.length (by omega)
      rwa [List.drop_left]
    have hline : crlf <:+: (x ++ w).drop i := by
      rw [List.drop_append_of_le_length hix]
      exact hcrlf.trans (List.suffix_append _ _).isInfix
    obtain ⟨j, hj⟩ := exists_find_of_occurs hline
    simp [uploadPart, hi, hj]

theorem ne_nil_of_uploadPart_closed {b t : ByteString} (h : (uploadPart b t).2 = true) :
    t ≠ [] := by
  rintro rfl
  obtain ⟨x, w, hxw, -, hline⟩ := uploadPart_closed_iff.mp h
  obtain ⟨-, rfl⟩ := List.append_eq_nil_iff.mp hxw.symm
  exact absurd hline (by decide)

theorem uploadPart_open_of_suffix {b t u : ByteString} (h : (uploadPart b t).2 = false)
    (hu : u <:+ t) : uploadPart b u = (u, false) := by
  apply uploadPart_of_open
  rw [Bool.eq_false_iff] at h ⊢
  intro hclosed
  obtain ⟨x, w, rfl, hb, hcrlf⟩ := uploadPart_closed_iff.mp hclosed
  obtain ⟨p, rfl⟩ := hu
  exact h (uploadPart_closed_iff.mpr ⟨p ++ x, w, by simp, hb, hcrlf⟩)

theorem length_le_of_find_crlf {b y : ByteString} {j : ℕ} (hcr : cr ∉ b)
    (h : find crlf (b ++ y) = some j) : b.length ≤ j := by
  obtain ⟨⟨u, v, huv, rfl⟩, -⟩ := find_spec h
  by_contra hlt
  have hget : (b ++ y)[u.length]? = some cr := by
    rw [huv]
    simp [crlf]
  rw [List.getElem?_append_left (by omega)] at hget
  exact hcr (List.mem_of_getElem? hget)

theorem uploadPart_middle {b p x q : ByteString} {i : ℕ} (hcr : cr ∉ b)
    (hfind : find b (p ++ (x ++ q)) = some i) (hp : p.length ≤ i)
    (hclosed : (uploadPart b (p ++ (x ++ q))).2 = true)
    (hlen : (uploadPart b (p ++ (x ++ q))).1.length ≤ p.length + x.length) :
    (uploadPart b x).2 = true ∧ p ++ (uploadPart b x).1 = (uploadPart b (p ++ (x ++ q))).1 := by
  obtain ⟨⟨u, v, huv, hu⟩, -⟩ := find_spec hfind
  have hdrop : (p ++ (x ++ q)).drop i = b ++ v := by
    rw [huv, List.append_assoc, ← hu, List.drop_left]
  cases hline : find crlf ((p ++ (x ++ q)).drop i) with
  | none => simp [uploadPart, hfind, hline] at hclosed
  | some j =>
    have hbj : b.length ≤ j := length_le_of_find_crlf hcr (by rw [← hdrop, hline])
    obtain ⟨⟨u', v', huv', hu'⟩, -⟩ := find_spec hline
    have hij : i + j + 2 ≤ (p ++ (x ++ q)).length := by
      have hl := congrArg List.length huv'
      have h2 : crlf.length = 2 := rfl
      simp only [List.length_drop, List.length_append, hu', h2] at hl ⊢
      omega
    have hpart : uploadPart b (p ++ (x ++ q)) = ((p ++ (x ++ q)).take (i + j + 2), true) := by
      simp [uploadPart, hfind, hline]
    rw [hpart, List.length_take, min_eq_left hij] at hlen
    have hx : find b x = some (i - p.length) := find_middle hfind hp (by omega)
    have hrest : (p ++ (x ++ q)).drop i = x.drop (i - p.length) ++ q := by
      rw [← Nat.add_sub_cancel' hp, ← List.drop_drop, List.drop_left,
        List.drop_append_of_le_length (by omega), Nat.add_sub_cancel_left]
    have hxline : find crlf (x.drop (i - p.length)) = some j := by
      rw [hrest] at hline
      have hfit : j + crlf.length ≤ ([] : ByteString).length + (x.drop (i - p.length)).length := by
        simp only [List.length_nil, List.length_drop, show crlf.length = 2 from rfl]
        omega
      exact find_middle (p := []) hline (Nat.zero_le j) hfit
    have hxpart : uploadPart b x = (x.take (i - p.length + j + 2), true) := by
      simp [uploadPart, hx, hxline]
    rw [hxpart, hpart]
    refine ⟨rfl, ?_⟩
    dsimp only
    have htake : (p ++ (x ++ q)).take (i + j + 2) = p ++ (x ++ q).take (i - p.length + j + 2) := by
      rw [List.take_append, List.take_of_length_le (show p.length ≤ i + j + 2 by omega)]
      congr 2
      omega
    rw [htake, List.take_append_of_le_length (by omega)]

variable {m : ℕ → UInt8} {last it : ℕ}

theorem boundaryMatchCount_eq_iff (m : ℕ → UInt8) (it len : ℕ) (b : ByteString) :
    boundaryMatchCount m it len b = len ↔
      ∀ c < len, m (it + c) = b[c]?.getD 0 ∧ m it ≠ dash := by
  have hstep : ∀ n, boundaryMatchCount m it n b ≤ n ∧
      (boundaryMatchCount m it n b = n ↔ ∀ c < n, m (it + c) = b[c]?.getD 0 ∧ m it ≠ dash) := by
    intro n
    induction n with
    | zero => simp [boundaryMatchCount]
    | succ n ih =>
      obtain ⟨hle, hiff⟩ := ih
      have hsucc : boundaryMatchCount m it (n + 1) b =
          if m (it + n) ≠ b[n]?.getD 0 then 0
          else if m it = dash then boundaryMatchCount m it n b
          else boundaryMatchCount m it n b + 1 := by
        simp only [boundaryMatchCount, List.range_succ, List.foldl_append, List.foldl_cons,
          List.foldl_nil]
      have hall : (∀ c < n + 1, m (it + c) = b[c]?.getD 0 ∧ m it ≠ dash) ↔
          (∀ c < n, m (it + c) = b[c]?.getD 0 ∧ m it ≠ dash) ∧
            (m (it + n) = b[n]?.getD 0 ∧ m it ≠ dash) := by
        constructor
        · intro h
          exact ⟨fun c hc => h c (by omega), h n (by omega)⟩
        · rintro ⟨h, hn⟩ c hc
          rcases Nat.lt_succ_iff_lt_or_eq.mp hc with hc | rfl
          · exact h c hc
          · exact hn
      rw [hsucc, hall, ← hiff]
      split_ifs with h1 h2
      · exact ⟨by omega, by simp [h1]⟩
      · exact ⟨by omega, by simp [h2]; omega⟩
      · refine ⟨by omega, ?_⟩
        simp only [ne_eq, not_not] at h1
        simp [h1, h2]
  exact (hstep len).2

theorem verifyBoundaryValue_eq (m : ℕ → UInt8) (last it : ℕ) {len : ℕ} {b : ByteString}
    (hlen : len ≤ b.length) (hdash : b.head? ≠ some dash) :
    verifyBoundaryValue m last it len b =
      scan (fun k => decide (HoldsAt m (b.take len) k)) last it := by
  apply scan_congr
  intro k _ _
  rw [Bool.eq_iff_iff, beq_iff_eq, decide_eq_true_eq, boundaryMatchCount_eq_iff, holdsAt_iff]
  have hl : (b.take len).length = len := by simp [hlen]
  constructor
  · intro h c hc
    have hc' : c < b.length := by omega
    rw [(h c (by omega)).1]
    simp [hc']
  · intro h c hc
    have hc' : c < b.length := by omega
    refine ⟨?_, ?_⟩
    · rw [h c (by omega)]
      simp [hc']
    · rintro hd
      have h0 := h 0 (by omega)
      rw [Nat.add_zero, hd] at h0
      apply hdash
      rw [List.head?_eq_getElem?, List.getElem?_eq_getElem (by omega), h0, List.getElem_take]

theorem crlfAt_iff (m : ℕ → UInt8) (k : ℕ) : crlfAt m k = true ↔ HoldsAt m crlf k := by
  simp [crlfAt, HoldsAt, crlf, slice, List.range_succ]

theorem scan_crlf_stop (m : ℕ → UInt8) (last k : ℕ) (h : k + crlf.length ≤ last) :
    (m k != dash && decide (k + 2 ≤ last) && crlfAt m k) = true ↔ HoldsAt m crlf k := by
  have hdash : cr ≠ dash := by decide
  have hk : k + 2 ≤ last := h
  rw [← crlfAt_iff]
  constructor
  · intro hs
    exact (Bool.and_eq_true _ _ ▸ hs).2
  · intro hs
    have hcr : m k = cr := by
      simp only [crlfAt, Bool.and_eq_true, beq_iff_eq] at hs
      exact hs.1
    simp [hs, hk, hcr, hdash]

/-- A match that reaches behind the chunk is of no use: what the chunk holds of it
is printable and contains no CR. -/
theorem scan_crlf_of_overhang {pat : ByteString} (hprint : ∀ c ∈ pat, isPrint c = true)
    (hit : it < last) (hm : HoldsAt m pat it) (hover : last < it + pat.length) :
    scan (fun k => m k != dash && k + 2 ≤ last && crlfAt m k) last it = last := by
  apply scan_eq_last hit.le
  intro k hk hkl
  have hget := holdsAt_iff.mp hm (k - it) (by omega)
  rw [Nat.add_sub_cancel' hk] at hget
  have hcr : m k ≠ cr := by
    intro hcr
    have := hprint _ (List.getElem_mem (show k - it < pat.length by omega))
    rw [← hget, hcr, isPrint_cr] at this
    cases this
  simp [crlfAt, hcr]

/-- The search of `parse_media_type_more` on a nonempty chunk takes what
`uploadPart` takes of its text. -/
theorem scanUpload_eq (m : ℕ → UInt8) {last it len : ℕ} {b : ByteString} (hlen : len ≤ b.length)
    (hdash : b.head? ≠ some dash) (hprint : ∀ c ∈ b, isPrint c = true) (h : it < last) :
    let part := uploadPart (b.take len) (slice m it last)
    scanUpload m last it len b =
      ⟨it + part.1.length, it + part.1.length, part.2⟩ := by
  set pat := b.take len with hpat
  have hpatprint : ∀ c ∈ pat, isPrint c = true := fun c hc => hprint c (List.mem_of_mem_take hc)
  have hstop : ∀ k, it ≤ k → k + pat.length ≤ last →
      (decide (HoldsAt m pat k) = true ↔ HoldsAt m pat k) := fun k _ _ => decide_eq_true_iff
  have hall : it + (slice m it last).length = last := by
    rw [length_slice]
    omega
  intro part
  simp only [scanUpload, verifyBoundaryValue_eq m last it hlen hdash, ← hpat]
  set f := scan (fun k => decide (HoldsAt m pat k)) last it with hf
  cases hfind : find pat (slice m it last) with
  | none =>
    have hpart : part = (slice m it last, false) := by
      simp only [part, uploadPart, hfind]
    rw [hpart, hall]
    rcases scan_of_find_none h.le hstop hfind with he | ⟨hlt, hs, hover⟩
    · rw [← hf] at he
      simp [he]
    · rw [← hf] at hlt hs hover
      rw [if_pos hlt, scan_crlf_of_overhang hpatprint hlt (of_decide_eq_true hs) hover]
      simp
  | some i =>
    have hfi : f = it + i := scan_holdsAt_of_find_some h.le hfind
    obtain ⟨⟨x, y, hxy, hx⟩, -⟩ := find_spec hfind
    have hl := congrArg List.length hxy
    simp only [length_slice, List.length_append, hx] at hl
    have hdrop : (slice m it last).drop i = slice m f last := by rw [drop_slice, hfi]
    have hfl : f < last := by
      rcases eq_or_ne pat [] with hnil | hne
      · rw [hnil, find_of_startsWith List.nil_prefix, Option.some.injEq] at hfind
        omega
      · have := List.length_pos_iff.mpr hne
        omega
    rw [if_pos hfl]
    cases hline : find crlf (slice m f last) with
    | none =>
      have hpart : part = (slice m it last, false) := by
        simp only [part, uploadPart, hfind, hdrop, hline]
      have hend : scan (fun k => m k != dash && k + 2 ≤ last && crlfAt m k) last f = last := by
        rcases scan_of_find_none hfl.le (fun k _ => scan_crlf_stop m last k) hline with
          he | ⟨-, hs, hover⟩
        · exact he
        · -- the test itself stays within the chunk
          simp only [Bool.and_eq_true, decide_eq_true_eq] at hs
          have h2 : crlf.length = 2 := rfl
          omega
      rw [hpart, hall, hend]
      simp
    | some j =>
      obtain ⟨⟨x', y', hxy', hx'⟩, -⟩ := find_spec hline
      have hl' := congrArg List.length hxy'
      simp only [length_slice, List.length_append, hx', show crlf.length = 2 from rfl] at hl'
      have hpart : part = ((slice m it last).take (i + j + 2), true) := by
        simp only [part, uploadPart, hfind, hdrop, hline]
      have hend : scan (fun k => m k != dash && k + 2 ≤ last && crlfAt m k) last f = f + j :=
        scan_of_find_some (by decide) hfl.le (fun k _ => scan_crlf_stop m last k) hline
      have hlen' : ((slice m it last).take (i + j + 2)).length = i + j + 2 := by
        rw [List.length_take, length_slice]
        omega
      rw [hpart, hend, if_pos (by omega), hlen', hfi]
      simp only [UploadScan.mk.injEq, and_true]
      omega

/-- The boundary searched for: `boundaryValueLength` stays zero where the opening
boundary was never looked for. -/
def Parser.pattern (p : Parser) : ByteString := p.boundaryValue.take p.boundaryValueLength

/-- A boundary as `parse_media_type_begin` takes it from a header value. -/
structure Parser.BoundaryOk (p : Parser) : Prop where
  length_le : p.boundaryValueLength ≤ p.boundaryValue.length
  head_ne_dash : p.boundaryValue.head? ≠ some dash
  print : ∀ c ∈ p.boundaryValue, isPrint c = true

/-- The parser after a part of an upload: waiting for more, or with the upload complete. -/
def Parser.takePart (p : Parser) (contentLength : ByteString) (part : ByteString × Bool) :
    Parser :=
  let p := { p with
    bufferSizeReaded := p.bufferSizeReaded + part.1.length
    multipartBuffer := p.multipartBuffer ++ part.1 }
  if !part.2 && p.bufferSizeReaded < sizeT (atoi contentLength) then
    { p with parsePhase := .parseMediaTypeNeedMore }
  else
    { p with
      uploads := p.uploads ++ [⟨p.multipartBuffer, p.uploadBodyHeaders⟩]
      parsePhase := .parseMediaTypeFinished }

theorem Parser.parsePhase_takePart (p : Parser) (v : ByteString) (part : ByteString × Bool) :
    (part.2 = false ∧ (p.takePart v part).parsePhase = .parseMediaTypeNeedMore) ∨
      (p.takePart v part).parsePhase = .parseMediaTypeFinished := by
  unfold Parser.takePart
  dsimp only
  split_ifs with h
  · simp only [Bool.and_eq_true, Bool.not_eq_true'] at h
    exact Or.inl ⟨h.1, rfl⟩
  · exact Or.inr rfl

theorem finishMedia_takePart (p : Parser) (v : ByteString) (part : ByteString × Bool) (it : ℕ)
    (ec : ErrorCode) (ranges : List (ℕ × ℕ)) :
    (part.2 = false ∧ p.bufferSizeReaded + part.1.length < sizeT (atoi v) ∧
      finishMedia ⟨p.takePart v part, it, ec, ranges⟩ =
        ⟨{ p with
            bufferSizeReaded := p.bufferSizeReaded + part.1.length
            multipartBuffer := p.multipartBuffer ++ part.1
            parsePhase := .parseMediaTypeNeedMore }, ec, ranges, none⟩) ∨
    ((part.2 = true ∨ sizeT (atoi v) ≤ p.bufferSizeReaded + part.1.length) ∧
      (finishMedia ⟨p.takePart v part, it, ec, ranges⟩).parser.parsePhase = .finished ∧
      (finishMedia ⟨p.takePart v part, it, ec, ranges⟩).request =
        some ⟨toMethod p.method, p.protocolVersion, p.target, p.headers, [],
          p.uploads ++ [⟨p.multipartBuffer ++ part.1, p.uploadBodyHeaders⟩]⟩) := by
  by_cases h : part.2 = false ∧ p.bufferSizeReaded + part.1.length < sizeT (atoi v)
  · exact Or.inl ⟨h.1, h.2, by simp [Parser.takePart, finishMedia, h.1, h.2]⟩
  · have hdone : (!part.2 && decide (p.bufferSizeReaded + part.1.length < sizeT (atoi v))) =
        false := by
      rw [Bool.eq_false_iff]
      intro hc
      simp only [Bool.and_eq_true, Bool.not_eq_true', decide_eq_true_eq] at hc
      exact h hc
    refine Or.inr ⟨?_, ?_⟩
    · cases hpart : part.2 with
      | true => exact Or.inl rfl
      | false =>
        refine Or.inr (Nat.le_of_not_lt fun hlt => h ⟨hpart, hlt⟩)
    · simp [Parser.takePart, finishMedia, hdone]

theorem sizeT_natCast {n : ℕ} (h : n ≤ maxSize) : sizeT n = n := by
  have : n < 2 ^ 64 := by
    unfold maxSize at h
    omega
  simp only [sizeT]
  omega

theorem parseMediaTypeMore_eq (m : ℕ → UInt8) {last : ℕ} {s : Cursor} {contentLength : ByteString}
    {part : ByteString × Bool}
    (hv : s.parser.headers.lookup (ascii "content-length") = some contentLength)
    (hb : s.parser.BoundaryOk) (h : s.it < last)
    (hpart : uploadPart s.parser.pattern (slice m s.it last) = part)
    (hsize : s.parser.bufferSizeReaded + part.1.length ≤ maxSize) :
    parseMediaTypeMore m last s =
      .ok ⟨s.parser.takePart contentLength part, s.it + part.1.length, s.ec,
        s.ranges ++ [(s.it, s.it + part.1.length)]⟩ := by
  have hscan := scanUpload_eq m hb.length_le hb.head_ne_dash hb.print h
  rw [← Parser.pattern, hpart] at hscan
  have hslice : slice m s.it (s.it + part.1.length) = part.1 := by
    obtain ⟨t, ht⟩ := uploadPart_isPrefix s.parser.pattern (slice m s.it last)
    rw [hpart] at ht
    exact (slice_eq_append ht.symm).1
  have hreaded : sizeT ((s.parser.bufferSizeReaded : ℤ) + (((s.it + part.1.length : ℕ) : ℤ) -
      (s.it : ℤ))) = s.parser.bufferSizeReaded + part.1.length := by
    rw [← sizeT_natCast hsize]
    congr 1
    push_cast
    ring
  simp only [parseMediaTypeMore, hv, if_neg h.ne, hscan]
  rw [hreaded, if_neg (by omega), hslice]
  unfold Parser.takePart
  dsimp only
  split_ifs <;> rfl

theorem le_maxSize_of_parseMediaTypeMore (m : ℕ → UInt8) {last : ℕ} {s s' : Cursor}
    {contentLength : ByteString} {part : ByteString × Bool}
    (hv : s.parser.headers.lookup (ascii "content-length") = some contentLength)
    (hb : s.parser.BoundaryOk) (h : s.it < last) (hlast : last ≤ maxSize)
    (hpart : uploadPart s.parser.pattern (slice m s.it last) = part)
    (hreaded : s.parser.bufferSizeReaded ≤ maxSize)
    (hok : parseMediaTypeMore m last s = .ok s') :
    s.parser.bufferSizeReaded + part.1.length ≤ maxSize := by
  have hscan := scanUpload_eq m hb.length_le hb.head_ne_dash hb.print h
  rw [← Parser.pattern, hpart] at hscan
  have hlen : part.1.length ≤ last := by
    have := (uploadPart_isPrefix s.parser.pattern (slice m s.it last)).length_le
    rw [hpart, length_slice] at this
    omega
  by_contra hsum
  have hsize : sizeT ((s.parser.bufferSizeReaded : ℤ) + (((s.it + part.1.length : ℕ) : ℤ) -
      (s.it : ℤ))) = s.parser.bufferSizeReaded + part.1.length := by
    simp only [sizeT, maxSize] at *
    omega
  simp only [parseMediaTypeMore, hv, if_neg h.ne, hscan] at hok
  rw [hsize, if_pos (by omega)] at hok
  cases hok

/-- With the iterator behind the chunk the byte count wraps, and `reserve` throws. -/
theorem parseMediaTypeMore_overrun (m : ℕ → UInt8) {last : ℕ} {s : Cursor}
    {contentLength : ByteString}
    (hv : s.parser.headers.lookup (ascii "content-length") = some contentLength)
    (h : last < s.it) (hit : s.it ≤ last + 8) (hreaded : s.parser.bufferSizeReaded = 0) :
    ∃ s', parseMediaTypeMore m last s = .error s' := by
  have hscan : scanUpload m last s.it s.parser.boundaryValueLength s.parser.boundaryValue =
      ⟨s.it, last, false⟩ := by
    simp only [scanUpload, verifyBoundaryValue, scan_of_le h.le]
    exact if_neg (by omega)
  have hsize : sizeT (((0 : ℕ) : ℤ) + ((last : ℤ) - (s.it : ℤ))) > maxSize := by
    simp only [sizeT, maxSize]
    omega
  simp only [parseMediaTypeMore, hv, if_neg h.ne', hscan, hreaded]
  exact ⟨_, if_pos hsize⟩

end Webcrown.Http
