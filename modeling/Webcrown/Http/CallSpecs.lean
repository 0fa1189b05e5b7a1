import Webcrown.Http.BlockEnds
import Webcrown.Http.Phases
import Webcrown.Http.UploadText

/-!
# One call, by what it finds

What a first call makes of a request line and its header block, and what a call in
each waiting phase makes of its chunk.
-/

namespace Webcrown.Http

open Bytes Common

namespace BlockEnd

def headers (e : BlockEnd) : Headers := Headers.insertAll ∅ e.fields

def contentType (e : BlockEnd) : ContentType := headersContentType e.headers

end BlockEnd

variable {m : ℕ → UInt8} {last : ℕ}

theorem parseHead_eq {s : Cursor} (hfresh : s.parser.headers = ∅) (hec : s.ec = none) :
    parseHead m last s =
      let e := blockEnd m last s.it none
      { parser := { s.parser with
          headers := e.headers
          headerContentType := e.contentType
          parsePhase := .parseContentTypeFinished }
        it := e.it
        ec := if e.contentType.supported then e.ec else some .contentTypeNotImplemented
        ranges := s.ranges } := by
  simp only [parseHead, hfresh, hec, parseMessageHeader_eq_blockEnd]
  rfl

namespace Parser

/-- The parser behind the request line of `n` and `g` and a header block. -/
def headRead (p : Parser) (n g : ByteString) (e : BlockEnd) : Parser :=
  { p with
    parsePhase := .parseContentTypeFinished
    method := n
    target := g
    protocolVersion := 11
    headers := e.headers
    headerContentType := e.contentType }

/-- A first call behind a request line and the header block. -/
theorem enter_of_requestLine {p : Parser} {n g u : ByteString} (hp : p.parsePhase = .notStarted)
    (hfresh : p.headers = ∅) (h : RequestLine (slice m 0 last) n g u) :
    p.enter m last none =
      let e := blockEnd m last (last - u.length) none
      ⟨p.headRead n g e, e.it,
        if e.contentType.supported then e.ec else some .contentTypeNotImplemented, []⟩ := by
  rw [enter, if_pos hp, parseStartLine, parseRequestLine_of_text rfl h]
  simp only [Option.isSome_none, Bool.false_eq_true, if_false]
  rw [parseHead_eq hfresh rfl]
  rfl

/-- Without a request line a first call sets an error and leaves an idle parser. -/
theorem call_of_not_requestLine {p : Parser} {c : Chunk} (hp : p.parsePhase = .notStarted)
    (hc : c.bytes ≠ []) (h : ∀ n g u, ¬ RequestLine c.bytes n g u) :
    ∃ s, s = parseStartLine c.memory c.size
        ⟨{ p with parsePhase := .parseStartLineStarted }, 0, none, []⟩ ∧
      s.ec ≠ none ∧ s.parser.Idle ∧ p.call c = .ok ⟨s.parser, s.ec, [], none⟩ := by
  have hsize : c.size ≠ 0 := by simpa [Chunk.size] using hc
  rcases @parseStartLine_cases c.memory c.size
      ⟨{ p with parsePhase := .parseStartLineStarted }, 0, none, []⟩ rfl with
    ⟨n, g, u, hline, -⟩ | ⟨-, hec, hranges, phase, n, g, v, hdead, hparser⟩
  · rw [Chunk.slice_memory] at hline
    exact absurd hline (h n g u)
  · set s := parseStartLine c.memory c.size
      ⟨{ p with parsePhase := .parseStartLineStarted }, 0, none, []⟩ with hs
    have henter : p.enter c.memory c.size none = s := by rw [enter, if_pos hp]
    have hidle : s.parser.Idle := idle_of_dead (hparser ▸ hdead)
    refine ⟨s, rfl, hec, hidle, ?_⟩
    obtain ⟨h1, h2, h3, h4, h5⟩ := hidle
    rw [call, parse_eq, if_neg (fun h => hsize h.2), henter]
    simp [awaitsBody, parseContent, parseMedia, finishMedia, h2, h3, h4, h5, bind, Except.bind,
      hranges]

theorem parseContent_body {s : Cursor} (hphase : s.parser.parsePhase = .parseContentTypeFinished ∨
      s.parser.parsePhase = .parseBodyPending)
    (htype : s.parser.headerContentType.takesBody = true) :
    parseContent m last s = parseBody m last s := by
  unfold parseContent
  rcases hphase with h | h <;> simp [h, htype]

theorem parseBody_of_le {s : Cursor} (h : s.it ≤ last) (hsize : last ≤ maxSize) :
    parseBody m last s =
      .ok
        { parser := { s.parser with parsePhase := .finished }
          ec := s.ec
          ranges := s.ranges ++ [(s.it, last)]
          request := some ⟨toMethod s.parser.method, s.parser.protocolVersion, s.parser.target,
            s.parser.headers, slice m s.it last, []⟩ } := by
  have hlen : sizeT ((last : ℤ) - (s.it : ℤ)) = last - s.it := by
    rw [← sizeT_natCast (show last - s.it ≤ maxSize by omega)]
    congr 1
    omega
  unfold parseBody
  dsimp only
  rw [hlen, if_neg (by omega)]

end Parser

theorem ContentType.takesBody_eq_false {t : ContentType} (h : t.takesMedia = true) :
    t.takesBody = false := by
  cases t <;> simp_all [takesMedia, takesBody]

theorem ContentType.takesBody_or_takesMedia {t : ContentType} (h : t.supported = true) :
    t.takesBody = true ∨ t.takesMedia = true := by
  revert h
  cases t <;> decide

theorem parseMediaTypeMore_at_end {s : Cursor} (h : s.it = last)
    (hphase : s.parser.parsePhase = .parseMediaTypeNeedMore) :
    parseMediaTypeMore m last s = .ok s := by
  obtain ⟨p, it, ec, ranges⟩ := s
  dsimp only at h hphase
  unfold parseMediaTypeMore
  dsimp only
  split
  · rfl
  · rw [if_pos h, ← hphase]

theorem parseMedia_of_needMore {s : Cursor}
    (h : s.parser.parsePhase = .parseMediaTypeNeedMore) :
    parseMedia m last s = parseMediaTypeMore m last s := by
  simp [parseMedia, parseMediaType, h]

theorem parseMedia_of_ne {s : Cursor} (h : s.parser.parsePhase ≠ .parseMediaTypeNeedMore) :
    parseMedia m last s = .ok s := by
  simp [parseMedia, h]

theorem parseContent_media {s : Cursor} (hphase : s.parser.parsePhase = .parseContentTypeFinished)
    (htype : s.parser.headerContentType.takesMedia = true) :
    parseContent m last s =
      match parseMediaTypeMore m last (parseMediaTypeBegin m last s) >>= parseMedia m last with
      | .error s => .error ⟨s.parser, s.ranges⟩
      | .ok s => .ok (finishMedia s) := by
  have hmedia : parseMediaType m last s =
      parseMediaTypeMore m last (parseMediaTypeBegin m last s) := by
    simp [parseMediaType, hphase]
  rw [← hmedia]
  cases hresult : parseMediaType m last s >>= parseMedia m last <;>
    simp [parseContent, hphase, htype, ContentType.takesBody_eq_false htype, hresult]

theorem finishMedia_of_ne {s : Cursor} (h : s.parser.parsePhase ≠ .parseMediaTypeFinished) :
    finishMedia s = ⟨s.parser, s.ec, s.ranges, none⟩ := by
  simp [finishMedia, h]

theorem ParsePhase.begun.ne {phase : ParsePhase} (h : phase.begun) :
    phase ≠ .parseMediaTypeNeedMore ∧ phase ≠ .parseMediaTypeFinished := by
  rcases h with rfl | rfl | rfl <;> decide

section Media

variable {s b : Cursor} (hb : parseMediaTypeBegin m last s = b)
  (hphase : s.parser.parsePhase = .parseContentTypeFinished)
  (htype : s.parser.headerContentType.takesMedia = true)

include hb hphase htype

theorem parseContent_media_of_none
    (hlen : b.parser.headers.lookup (ascii "content-length") = none) :
    parseContent m last s = .ok ⟨b.parser, b.ec, b.ranges, none⟩ := by
  have hbegun := (@parsePhase_parseMediaTypeBegin m last s).ne
  rw [hb] at hbegun
  have hmore : parseMediaTypeMore m last b = .ok b := by
    simp [parseMediaTypeMore, hlen]
  rw [parseContent_media hphase htype, hb, hmore]
  simp [bind, Except.bind, parseMedia_of_ne hbegun.1, finishMedia_of_ne hbegun.2]

theorem parseContent_media_at_end {v : ByteString}
    (hlen : b.parser.headers.lookup (ascii "content-length") = some v) (hit : b.it = last) :
    parseContent m last s =
      .ok ⟨{ b.parser with parsePhase := .parseMediaTypeNeedMore }, b.ec, b.ranges, none⟩ := by
  have hmore : parseMediaTypeMore m last b =
      .ok { b with parser.parsePhase := .parseMediaTypeNeedMore } := by
    simp [parseMediaTypeMore, hlen, hit]
  rw [parseContent_media hphase htype, hb, hmore]
  simp [bind, Except.bind, parseMedia_of_needMore, parseMediaTypeMore_at_end, hit,
    finishMedia_of_ne]

theorem parseContent_media_part {v : ByteString} {part : ByteString × Bool}
    (hlen : b.parser.headers.lookup (ascii "content-length") = some v) (hok : b.parser.BoundaryOk)
    (hit : b.it < last) (hpart : uploadPart b.parser.pattern (slice m b.it last) = part)
    (hsize : b.parser.bufferSizeReaded + part.1.length ≤ maxSize) :
    parseContent m last s =
      .ok (finishMedia ⟨b.parser.takePart v part, b.it + part.1.length, b.ec,
        b.ranges ++ [(b.it, b.it + part.1.length)]⟩) := by
  have hmore := parseMediaTypeMore_eq m hlen hok hit hpart hsize
  rw [parseContent_media hphase htype, hb, hmore]
  simp only [bind, Except.bind]
  rcases b.parser.parsePhase_takePart v part with ⟨hopen, hneed⟩ | hfin
  · have hwhole : part.1 = slice m b.it last := by
      have := uploadPart_of_open (b := b.parser.pattern) (t := slice m b.it last)
        (by rw [hpart, hopen])
      rw [← hpart, this]
    have hend : b.it + part.1.length = last := by
      rw [hwhole, length_slice]
      omega
    rw [parseMedia_of_needMore hneed, parseMediaTypeMore_at_end hend hneed]
  · rw [parseMedia_of_ne (by simp [hfin])]

end Media

/-- A call on an upload that waits for more is one turn of `parse_media_type_more`. -/
theorem Parser.call_needMore_eq {p : Parser} {c : Chunk}
    (hphase : p.parsePhase = .parseMediaTypeNeedMore) :
    p.call c =
      match parseMediaTypeMore c.memory c.size ⟨p, 0, none, []⟩ with
      | .error s => .error ⟨s.parser, s.ranges⟩
      | .ok s => .ok (finishMedia s) := by
  rw [call, parse_eq]
  simp only [enter, hphase, awaitsBody, parseContent, reduceCtorEq, false_and, if_false,
    decide_false, Bool.false_and, Bool.or_self, Bool.false_eq_true]
  rw [← parseMedia_of_needMore (s := ⟨p, 0, none, []⟩) hphase]
  rfl

theorem Parser.call_needMore {p : Parser} {c : Chunk} {v : ByteString} {part : ByteString × Bool}
    (hphase : p.parsePhase = .parseMediaTypeNeedMore)
    (hlen : p.headers.lookup (ascii "content-length") = some v) (hok : p.BoundaryOk)
    (hne : c.bytes ≠ []) (hpart : uploadPart p.pattern c.bytes = part)
    (hsize : p.bufferSizeReaded + part.1.length ≤ maxSize) :
    p.call c = .ok (finishMedia ⟨p.takePart v part, part.1.length, none,
      [(0, part.1.length)]⟩) := by
  have hpos : 0 < c.size := List.length_pos_iff.mpr hne
  have hmore := parseMediaTypeMore_eq c.memory (s := ⟨p, 0, none, []⟩) hlen hok hpos
    (by rw [Chunk.slice_memory]; exact hpart) hsize
  rw [call_needMore_eq hphase, hmore]
  simp

theorem Parser.call_needMore_nil {p : Parser} {c : Chunk}
    (hphase : p.parsePhase = .parseMediaTypeNeedMore) (hc : c.bytes = []) :
    p.call c = .ok ⟨p, none, [], none⟩ := by
  have hsize : 0 = c.size := by simp [Chunk.size, hc]
  have hmore := parseMediaTypeMore_at_end (m := c.memory) (s := ⟨p, 0, none, []⟩) hsize hphase
  rw [call_needMore_eq hphase, hmore]
  simp [finishMedia, hphase]

namespace Parser

theorem le_maxSize_of_call_needMore {p : Parser} {c : Chunk} {r : CallResult} {v : ByteString}
    (hphase : p.parsePhase = .parseMediaTypeNeedMore)
    (hlen : p.headers.lookup (ascii "content-length") = some v) (hok : p.BoundaryOk)
    (hne : c.bytes ≠ []) (hreaded : p.bufferSizeReaded ≤ maxSize) (hr : p.call c = .ok r) :
    p.bufferSizeReaded + (uploadPart p.pattern c.bytes).1.length ≤ maxSize := by
  have hpos : 0 < c.size := List.length_pos_iff.mpr hne
  cases hmore : parseMediaTypeMore c.memory c.size ⟨p, 0, none, []⟩ with
  | error s' =>
    rw [call_needMore_eq hphase, hmore] at hr
    cases hr
  | ok s' =>
    exact le_maxSize_of_parseMediaTypeMore c.memory (s := ⟨p, 0, none, []⟩) hlen hok hpos
      c.size_le (by rw [Chunk.slice_memory]) hreaded hmore

theorem call_pending_body {p : Parser} (c : Chunk) (hphase : p.parsePhase = .parseBodyPending)
    (htype : p.headerContentType.takesBody = true) :
    p.call c =
      .ok ⟨{ p with parsePhase := .finished }, none, [(0, c.size)],
        some ⟨toMethod p.method, p.protocolVersion, p.target, p.headers, c.bytes, []⟩⟩ := by
  have henter : p.enter c.memory c.size none = ⟨p, 0, none, []⟩ := by simp [enter, hphase]
  have hbody := parseBody_of_le (m := c.memory) (s := ⟨p, 0, none, []⟩) (Nat.zero_le c.size)
    (show c.size ≤ maxSize from c.size_le)
  rw [Chunk.slice_memory] at hbody
  rw [call, parse_eq, henter, if_neg (by simp [hphase]), if_neg (by simp [awaitsBody, hphase]),
    parseContent_body (Or.inr hphase) htype, hbody]
  rfl

/-- Uploads never leave that phase: `parse_media_type` does nothing in it. -/
theorem call_pending_media {p : Parser} (c : Chunk) (hphase : p.parsePhase = .parseBodyPending)
    (htype : p.headerContentType.takesBody = false) : p.call c = .ok ⟨p, none, [], none⟩ := by
  rw [call, parse_eq]
  simp [enter, hphase, awaitsBody, parseContent, htype, parseMediaType, parseMedia, finishMedia,
    bind, Except.bind]

end Parser

/-- A parser that collects an upload delimited by `b`, of which it holds at most `got`
bytes. -/
structure Searching (p : Parser) (v b : ByteString) (got : ℕ) : Prop where
  phase : p.parsePhase = .parseMediaTypeNeedMore
  contentLength : p.headers.lookup (ascii "content-length") = some v
  boundary : p.BoundaryOk
  pattern : p.pattern = b
  readed_le : p.bufferSizeReaded ≤ got
  readed_le_max : p.bufferSizeReaded ≤ maxSize

/-- A call that collects either goes on collecting, or ends the request because its
chunk completes the upload or `Content-Length` bytes are there. -/
theorem Searching.call {p : Parser} {v b : ByteString} {got : ℕ} {c : Chunk} {r : CallResult}
    (h : Searching p v b got) (hr : p.call c = .ok r) :
    (r.request = none ∧ Searching r.parser v b (got + c.bytes.length)) ∨
      (r.parser.parsePhase = .finished ∧
        ((uploadPart b c.bytes).2 = true ∨
          sizeT (atoi v) ≤ min (got + c.bytes.length) maxSize)) := by
  rcases eq_or_ne c.bytes [] with hnil | hne
  · rw [Parser.call_needMore_nil h.phase hnil, Except.ok.injEq] at hr
    subst hr
    exact Or.inl ⟨rfl, h.phase, h.contentLength, h.boundary, h.pattern,
      h.readed_le.trans (Nat.le_add_right _ _), h.readed_le_max⟩
  · have hsize := Parser.le_maxSize_of_call_needMore h.phase h.contentLength h.boundary hne
      h.readed_le_max hr
    have hlen := (uploadPart_isPrefix p.pattern c.bytes).length_le
    have hle := h.readed_le
    rw [Parser.call_needMore h.phase h.contentLength h.boundary hne rfl hsize,
      Except.ok.injEq] at hr
    rw [h.pattern] at hr hsize hlen
    rcases finishMedia_takePart p v (uploadPart b c.bytes) (uploadPart b c.bytes).1.length none
        [(0, (uploadPart b c.bytes).1.length)] with ⟨-, -, hmore⟩ | ⟨hdone, hfin, -⟩
    · rw [hmore] at hr
      subst hr
      exact Or.inl ⟨rfl, rfl, h.contentLength, ⟨h.boundary.1, h.boundary.2, h.boundary.3⟩,
        h.pattern, by dsimp only; omega, hsize⟩
    · rw [hr] at hfin
      exact Or.inr ⟨hfin, hdone.imp_right fun hs => by omega⟩

end Webcrown.Http
