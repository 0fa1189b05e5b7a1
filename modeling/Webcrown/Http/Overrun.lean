import Webcrown.Http.HeadText

/-!
# Where the iterator runs past the chunk

The chunks whose cut leaves the iterator behind their end, so that the range to the
end is turned round and the call throws. Everything else is in bounds.
-/

namespace Webcrown.Http

open Bytes Common BlockText

/-- The header block is cut inside a line. -/
def HeadCut (z : ℕ → UInt8) (u : ByteString) : Prop :=
  2 ≤ u.length ∧ (start.read u).pos.Overshoots z

/-- The part headers are cut: inside a line, or, where the four bytes of the empty line
are skipped because of a `Content-Type`, anywhere before their end. -/
def PartCut (z : ℕ → UInt8) (y : ByteString) : Prop :=
  if (headHeaders z y).lookup (ascii "content-type") = none then HeadCut z y
  else ∀ rest, (start.read y).pos ≠ .closed rest

section Block

variable {m : ℕ → UInt8} {last it : ℕ}

theorem lt_it_lineTail {p : ℕ} {fs ec} (hp : last ≤ p)
    (h : ¬(m p = cr ∧ m (p + 2) = cr ∧ m (p + 3) = lf)) : last < (lineTail m p fs ec).it := by
  by_cases hcr : m p = cr
  · have hblank : ¬(m (p + 2) = cr ∧ m (p + 3) = lf) := fun hb => h ⟨hcr, hb⟩
    simp only [lineTail, headerLineEnd, if_pos hcr, if_neg hblank, Bool.false_eq_true, if_false]
    omega
  · simp only [lineTail, headerLineEnd, if_neg hcr, Bool.false_eq_true, if_false]
    omega

theorem lt_it_lineTail_cr {x : ByteString} {fs ec} (ht : slice m it last = x ++ [cr])
    (h : ¬(m (last + 1) = cr ∧ m (last + 2) = lf)) : last < (lineTail m (last - 1) fs ec).it := by
  obtain ⟨hcr, hl⟩ := last_of_slice ht
  have h' : ¬(m (last - 1 + 2) = cr ∧ m (last - 1 + 3) = lf) := by
    rwa [show last - 1 + 2 = last + 1 by omega, show last - 1 + 3 = last + 2 by omega]
  simp only [lineTail, headerLineEnd, if_pos hcr, if_neg h', Bool.false_eq_true, if_false]
  omega

theorem lt_it_close {s : BlockText} {t : ByteString} (ht : slice m it last = t)
    (hend : EndsAs t s.pos) (h : s.pos.Overshoots (fun k => m (last + k))) :
    last < (s.close m last).it := by
  obtain ⟨pos, fs, ec⟩ := s
  cases pos with
  | name n =>
    simp only [LinePos.Overshoots] at h
    simp only [close, if_neg h]
    apply lt_of_lt_of_le (Nat.lt_succ_self last)
    have := le_headerLineEnd m (last + 1) (some .incompleteMessageHeader)
    unfold lineTail
    dsimp only
    split_ifs <;> omega
  | blanks n => exact lt_it_lineTail le_rfl h
  | value n v => exact lt_it_lineTail le_rfl h
  | lineCr n v =>
    obtain ⟨x, rfl⟩ := hend
    exact lt_it_lineTail_cr ht h
  | lineEnd => exact h.elim
  | blankCr =>
    obtain ⟨x, c, rfl⟩ := hend
    simp only [LinePos.Overshoots, Nat.add_zero] at h
    simp only [close, if_neg h.1]
    exact lt_it_lineTail_cr (x := x ++ [cr, c]) (by rw [ht]; simp) h.2
  | closed rest => exact h.elim

/-- Where the block from `it` on leaves the iterator. -/
theorem it_blockEnd_le_iff {u : ByteString} (hu : slice m it last = u) (h : it ≤ last)
    (ec : ErrorCode) :
    (blockEnd m last it ec).it ≤ last ↔ ¬ HeadCut (fun k => m (last + k)) u := by
  subst hu
  rw [HeadCut, length_slice]
  unfold blockEnd
  split_ifs with hs
  · exact iff_of_true h fun hcut => by omega
  · have hpos := read_start_pos ec (slice m it last)
    constructor
    · rintro hle ⟨-, hcut⟩
      rw [← hpos] at hcut
      have := lt_it_close (s := read ⟨.name [], [], ec⟩ (slice m it last)) rfl
        (by rw [hpos]; exact endsAs_read _) hcut
      omega
    · intro hcut
      refine it_close_le (by omega) fun hover => hcut ⟨by omega, ?_⟩
      rwa [hpos] at hover

theorem it_parseUploadHeaders_le_iff {s : Cursor} {y : ByteString}
    (hy : slice m (last - y.length) last = y) (hit : s.it = last - y.length) :
    (parseUploadHeaders m last s).it ≤ last ↔ ¬ PartCut (fun k => m (last + k)) y := by
  rw [← hit] at hy
  have hle : s.it ≤ last := by omega
  have hfields := fields_blockEnd (m := m) hle s.ec
  rw [hy] at hfields
  have hlookup : (parseMessageHeader m last s.it ∅ s.ec).1.headers =
      headHeaders (fun k => m (last + k)) y := by
    rw [parseMessageHeader_eq_blockEnd, hfields]
    rfl
  have hend : (parseMessageHeader m last s.it ∅ s.ec).1.it = (blockEnd m last s.it s.ec).it := by
    rw [parseMessageHeader_eq_blockEnd]
  unfold parseUploadHeaders PartCut
  dsimp only
  rw [hlookup]
  cases hct : (headHeaders (fun k => m (last + k)) y).lookup (ascii "content-type") with
  | none =>
    simp only [if_true]
    rw [hend, it_blockEnd_le_iff hy hle]
  | some w =>
    simp only [reduceCtorEq, if_false, not_forall, not_not]
    rw [hend]
    constructor
    · intro hfit
      by_contra hopen
      simp only [not_exists] at hopen
      have := it_blockEnd_open hy hle hopen s.ec
      omega
    · rintro ⟨rest, hpos⟩
      obtain ⟨hclosed, -, hsum⟩ := it_blockEnd_closed hy hpos s.ec
      rw [hclosed]
      omega

end Block

/-- The chunk of an upload is cut behind the opening boundary or inside the part headers. -/
inductive UploadCut (z : ℕ → UInt8) (u : ByteString) : Prop
  | atBoundary {w b x y rest} : (start.read u).pos = .closed rest →
      (headHeaders z u).lookup (ascii "content-type") = some w → boundaryParameter w = some b →
      openingText (contentText u) = x ++ b ++ y →
      find b (openingText (contentText u)) = some x.length → OpeningCut z b y → UploadCut z u
  | inPart {w b x y rest} : (start.read u).pos = .closed rest →
      (headHeaders z u).lookup (ascii "content-type") = some w → boundaryParameter w = some b →
      openingText (contentText u) = x ++ b ++ (crlf ++ y) →
      find b (openingText (contentText u)) = some x.length → ¬[dash, dash] <:+ b →
      PartCut z y → UploadCut z u

/-- First chunks on which the iterator runs past the end and the rest is taken from there. -/
inductive Overrun (z : ℕ → UInt8) (t : ByteString) : Prop
  | inBody {n g u} : RequestLine t n g u → (headType z u).takesBody = true → ¬ HeadWaits z u →
      HeadCut z u → Overrun z t
  | inUpload {n g u} : RequestLine t n g u → Searches z u → HeadCut z u ∨ UploadCut z u →
      Overrun z t

/-- The chunks that stay in bounds: first chunks that do not run past their end, and
parts of an upload that fit into a vector with what it holds. -/
def InBounds (p : Parser) (c : Chunk) : Prop :=
  (p.parsePhase = .notStarted → ¬ Overrun c.behind c.bytes) ∧
    (p.parsePhase = .parseMediaTypeNeedMore →
      p.bufferSizeReaded + (uploadPart p.pattern c.bytes).1.length ≤ maxSize)

/-- The call returns, and every range it turned into bytes starts before its end. -/
def InRange (p : Parser) (c : Chunk) : Prop :=
  ∃ r, p.call c = .ok r ∧ ∀ f ∈ r.ranges, f.1 ≤ f.2

section Head

variable {t : ContentType} {c : Chunk} {n g u : ByteString}

theorem it_headCursor_le_iff (h : RequestLine c.bytes n g u) :
    (headCursor t c n g u).it ≤ c.size ↔ ¬ HeadCut c.behind u := by
  have hcut := it_blockEnd_le_iff (slice_rest h).1 (Nat.sub_le c.size u.length) none
  rwa [c.memory_behind] at hcut

theorem it_parseMediaTypeBegin_le_iff (h : RequestLine c.bytes n g u)
    (hsearch : Searches c.behind u) :
    (parseMediaTypeBegin c.memory c.size (headCursor t c n g u)).it ≤ c.size ↔
      ¬(HeadCut c.behind u ∨ UploadCut c.behind u) := by
  obtain ⟨w, hw⟩ := hsearch.exists_contentType
  rw [not_or, ← it_headCursor_le_iff (t := t) h]
  cases hb : boundaryParameter w with
  | none =>
    have hk : (parseMediaTypeBegin c.memory c.size (headCursor t c n g u)).it =
        (headCursor t c n g u).it := by
      have hlookup := (congrArg _ (headers_headCursor (t := t) h)).trans hw
      simp only [parseMediaTypeBegin, hlookup, hb]
    have hcut : ¬ UploadCut c.behind u := by
      rintro (⟨-, hw', hb', -⟩ | ⟨-, hw', hb', -⟩) <;>
        · rw [hw, Option.some.injEq] at hw'
          rw [← hw', hb] at hb'
          cases hb'
    rw [hk]
    exact ⟨fun hle => ⟨hle, hcut⟩, fun hle => hle.1⟩
  | some b =>
    rw [parseMediaTypeBegin_headCursor h hw hb]
    by_cases hpos : ∃ rest, (start.read u).pos = .closed rest
    swap
    · simp only [not_exists] at hpos
      have hcut : ¬ UploadCut c.behind u := by
        rintro (⟨hclosed, -⟩ | ⟨hclosed, -⟩) <;> exact hpos _ hclosed
      rw [parseOpeningBoundary_open h hpos]
      exact ⟨fun hle => ⟨hle, hcut⟩, fun hle => hle.1⟩
    obtain ⟨rest, hpos⟩ := hpos
    obtain ⟨hit, htext⟩ := slice_boundaryCursor (t := t) (b := b) h hpos
    have hhead : (headCursor t c n g u).it ≤ c.size :=
      (Nat.le_add_right _ 4).trans hit
    have hdash := head_boundaryParameter hb
    have hprint := print_boundary h hw hb
    have hlast : ∀ x y, openingText (contentText u) = x ++ b ++ (crlf ++ y) →
        slice c.memory (c.size - y.length) c.size = y := fun x y ht =>
      slice_of_openingText (x := x ++ b ++ crlf) hit (by rw [htext, ht]; simp)
    constructor
    · refine fun hle => ⟨hhead, fun hcut => absurd hle (Nat.not_le.mpr ?_)⟩
      rcases hcut with ⟨-, hw', hb', ht, hfind, hcut⟩ | ⟨-, hw', hb', ht, hfind, hdashes, hcut⟩
      · rw [hw, Option.some.injEq] at hw'
        rw [← hw', hb, Option.some.injEq] at hb'
        subst hb'
        rw [parseOpeningBoundary_of_cut (b := b) rfl hdash hprint hit (by rw [htext, ht])
          (ht ▸ hfind) (by rwa [c.memory_behind])]
        refine lt_of_lt_of_le ?_ (parseUploadHeaders_spec _).2.2.1
        have := hcut.length_le
        dsimp only
        omega
      · rw [hw, Option.some.injEq] at hw'
        rw [← hw', hb, Option.some.injEq] at hb'
        subst hb'
        rw [parseOpeningBoundary_of_text (b := b) rfl hdash hprint hit (by rw [htext, ht])
          (ht ▸ hfind), if_neg hdashes]
        by_contra hle
        rw [Nat.not_lt, it_parseUploadHeaders_le_iff (hlast _ _ ht) rfl, c.memory_behind] at hle
        exact hle hcut
    · rintro ⟨-, hcut⟩
      have hcases := parseOpeningBoundary_cases (m := c.memory) (s := boundaryCursor t c n g u b)
        (b := b) rfl hdash hprint hit (congrArg openingText htext)
      simp only at hcases
      rcases hcases with ⟨i, hil, -, hk⟩ | ⟨x, y, ht, hfind, hdashes, hk⟩ |
        ⟨x, y, ht, hfind, hopening, -⟩
      · rw [hk]
        exact hil
      · rw [hk, it_parseUploadHeaders_le_iff (hlast x y ht) rfl, c.memory_behind]
        exact fun hpart => hcut (.inPart hpos hw hb ht hfind hdashes hpart)
      · rw [c.memory_behind] at hopening
        exact absurd (.atBoundary hpos hw hb ht hfind hopening) hcut

end Head

/-- Behind the end, the length of the body wraps. -/
theorem parseBody_overrun {m : ℕ → UInt8} {last : ℕ} {s : Cursor} (h : last < s.it)
    (hit : s.it ≤ last + 3) : ∃ e, parseBody m last s = .error e := by
  have hsize : sizeT ((last : ℤ) - s.it) > maxSize := by
    simp only [sizeT, maxSize]
    omega
  simp only [parseBody]
  exact ⟨_, if_pos hsize⟩

theorem ranges_finishMedia (s : Cursor) : (finishMedia s).ranges = s.ranges := by
  unfold finishMedia
  dsimp only
  split_ifs <;> rfl

theorem inRange_of_call {p q : Parser} {c : Chunk} {ec : ErrorCode} {req : Option HttpRequest}
    (h : p.call c = .ok ⟨q, ec, [], req⟩) : InRange p c :=
  ⟨_, h, by simp⟩

theorem not_inRange_of_error {p : Parser} {c : Chunk} {e : LengthError}
    (h : p.call c = .error e) : ¬ InRange p c := by
  rintro ⟨r, hr, -⟩
  rw [h] at hr
  cases hr

section First

variable {t : ContentType} {c : Chunk} {n g u : ByteString}

theorem inRange_body (h : RequestLine c.bytes n g u)
    (htype : (headType c.behind u).takesBody = true) (hwait : ¬ HeadWaits c.behind u) :
    InRange (Parser.fresh t) c ↔ ¬ HeadCut c.behind u := by
  have hcall := Parser.call_of_requestLine t h
  rw [if_neg (fun hw => hwait ((awaitsBody_headCursor (t := t) h).mp hw)),
    Parser.parseContent_body (Or.inl rfl) ((type_headCursor (t := t) h) ▸ htype)] at hcall
  rw [← it_headCursor_le_iff (t := t) h]
  rcases Nat.lt_or_ge c.size (headCursor t c n g u).it with hlt | hle
  · obtain ⟨e, he⟩ := parseBody_overrun (m := c.memory) hlt (it_headCursor_le t c n g u)
    rw [he] at hcall
    exact iff_of_false (not_inRange_of_error hcall) (by omega)
  · rw [Parser.parseBody_of_le hle c.size_le] at hcall
    refine iff_of_true ⟨_, hcall, ?_⟩ hle
    simpa [headCursor] using hle

/-- A first call takes the upload from inside the chunk, or the head, the boundary or
the part headers were cut. -/
theorem inRange_media (h : RequestLine c.bytes n g u) (hsearch : Searches c.behind u) :
    InRange (Parser.fresh t) c ↔ ¬(HeadCut c.behind u ∨ UploadCut c.behind u) := by
  obtain ⟨hmedia, ⟨v, hv⟩, hwait⟩ := id hsearch
  have hcall := Parser.call_of_requestLine t h
  rw [if_neg (fun hw => hwait ((awaitsBody_headCursor (t := t) h).mp hw))] at hcall
  rw [← it_parseMediaTypeBegin_le_iff (t := t) h hsearch]
  have htype : (headCursor t c n g u).parser.headerContentType.takesMedia = true :=
    (type_headCursor (t := t) h) ▸ hmedia
  obtain ⟨k, hk⟩ : ∃ k, parseMediaTypeBegin c.memory c.size (headCursor t c n g u) = k := ⟨_, rfl⟩
  obtain ⟨hok, hit⟩ := @parseMediaTypeBegin_spec c.memory c.size (headCursor t c n g u) rfl rfl
    (fun name v hv => print_headers (printValues_blockEnd _ _ _ _) hv)
    (it_headCursor_le t c n g u)
  obtain ⟨hranges, hframe⟩ := @parseMediaTypeBegin_frame c.memory c.size
    (headCursor t c n g u)
  rw [hk] at hok hit hframe hranges ⊢
  have hbuf : k.parser.bufferSizeReaded = 0 := hframe.bufferSizeReaded
  have hcl : k.parser.headers.lookup (ascii "content-length") = some v := by
    rw [hframe.headers, headers_headCursor h, hv]
  have hnone : k.ranges = [] := hranges
  rcases lt_trichotomy k.it c.size with hlt | he | hgt
  · have hmax : c.size ≤ maxSize := c.size_le
    have hpart := (uploadPart_isPrefix k.parser.pattern (slice c.memory k.it c.size)).length_le
    rw [length_slice] at hpart
    rw [parseContent_media_part hk rfl htype hcl hok hlt rfl (by omega)] at hcall
    refine iff_of_true ⟨_, hcall, ?_⟩ hlt.le
    simp [ranges_finishMedia, hnone]
  · rw [parseContent_media_at_end hk rfl htype hcl he, hnone] at hcall
    exact iff_of_true (inRange_of_call hcall) he.le
  · obtain ⟨s'', herr⟩ := parseMediaTypeMore_overrun c.memory hcl hgt hit hbuf
    rw [parseContent_media rfl htype, hk, herr] at hcall
    exact iff_of_false (not_inRange_of_error hcall) (by omega)

theorem inRange_fresh (hc : c.bytes ≠ []) :
    InRange (Parser.fresh t) c ↔ ¬ Overrun c.behind c.bytes := by
  constructor
  · rintro hin (⟨hline, hbody, hwait, hcut⟩ | ⟨hline, hsearch, hcut⟩)
    · exact (inRange_body hline hbody hwait).mp hin hcut
    · exact (inRange_media hline hsearch).mp hin hcut
  intro hover
  by_cases hline : ∃ n g u, RequestLine c.bytes n g u
  swap
  · simp only [not_exists] at hline
    obtain ⟨s, -, -, -, hcall⟩ :=
      Parser.call_of_not_requestLine (p := Parser.fresh t) rfl hc hline
    exact inRange_of_call hcall
  obtain ⟨n, g, u, hline⟩ := hline
  have hcall := Parser.call_of_requestLine t hline
  by_cases hwait : HeadWaits c.behind u
  · rw [if_pos ((awaitsBody_headCursor (t := t) hline).mpr hwait)] at hcall
    exact inRange_of_call hcall
  cases hsupp : (headType c.behind u).supported with
  | false =>
    have hunknown := headersContentType_of_unsupported hsupp
    rw [if_neg (fun h => hwait ((awaitsBody_headCursor (t := t) hline).mp h)),
      parseContent_unknown rfl ((type_headCursor hline).trans hunknown)] at hcall
    exact inRange_of_call hcall
  | true =>
    rcases ContentType.takesBody_or_takesMedia hsupp with hbody | hmedia
    · exact (inRange_body hline hbody hwait).mpr fun hcut => hover (.inBody hline hbody hwait hcut)
    · cases hcl : (headHeaders c.behind u).lookup (ascii "content-length") with
      | none =>
        obtain ⟨hranges, hframe⟩ := @parseMediaTypeBegin_frame c.memory c.size
          (headCursor t c n g u)
        rw [if_neg (fun h => hwait ((awaitsBody_headCursor (t := t) hline).mp h)),
          parseContent_media_of_none rfl rfl ((type_headCursor (t := t) hline) ▸ hmedia)
            (by rw [hframe.headers, headers_headCursor hline, hcl]), hranges] at hcall
        exact inRange_of_call hcall
      | some v =>
        have hsearch : Searches c.behind u := ⟨hmedia, ⟨v, hcl⟩, hwait⟩
        exact (inRange_media hline hsearch).mpr fun hcut => hover (.inUpload hline hsearch hcut)

end First

theorem inRange_needMore {p : Parser} {c : Chunk} (hc : c.bytes ≠ []) (hp : p.Inv)
    (hphase : p.parsePhase = .parseMediaTypeNeedMore) :
    InRange p c ↔ p.bufferSizeReaded + (uploadPart p.pattern c.bytes).1.length ≤ maxSize := by
  obtain ⟨v, hsearch⟩ := hp.collecting hphase
  constructor
  · rintro ⟨r, hr, -⟩
    exact Parser.le_maxSize_of_call_needMore hphase hsearch.contentLength hsearch.boundary hc
      hsearch.readed_le_max hr
  · intro hsize
    refine ⟨_, Parser.call_needMore hphase hsearch.contentLength hsearch.boundary hc rfl hsize, ?_⟩
    simp [ranges_finishMedia]

def cutNameChunk : Chunk where
  bytes := ascii "GET / HTTP/1.1\r\nAB"
  stale := fun _ => 0
  size_le := by decide +kernel

end Webcrown.Http
