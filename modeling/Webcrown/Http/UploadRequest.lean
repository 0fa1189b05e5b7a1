import Webcrown.Http.EarlyFinish

/-!
# Upload requests

A well-formed `multipart/form-data` request with one part, and what the first call
makes of it when its chunk holds the part headers: from there on the parser collects
the text behind them.
-/

namespace Webcrown.Http

open Bytes Common

def partHead (boundary : ByteString) (part : List FieldLine) : ByteString :=
  [dash, dash] ++ boundary ++ (crlf ++ (linesText part ++ crlf))

def closingLine (boundary : ByteString) : ByteString :=
  crlf ++ ([dash, dash] ++ (boundary ++ ([dash, dash] ++ crlf)))

def uploadType (parameters boundary : ByteString) : ByteString :=
  ascii "multipart/form-data;" ++ parameters ++ ascii "boundary=" ++ boundary

/-- A well-formed upload of `content` in one part. -/
structure UploadRequest where
  head : RequestHead
  parameters : ByteString
  boundary : ByteString
  part : List FieldLine
  content : ByteString
  contentLength : ByteString
  boundary_ne : boundary ≠ []
  part_ne : part ≠ []
  type_field : head.field (ascii "content-type") = some (uploadType parameters boundary)
  type_first : find (ascii "boundary=") (uploadType parameters boundary) =
    some (ascii "multipart/form-data;" ++ parameters).length
  length_field : head.field (ascii "content-length") = some contentLength
  length_eq : IsNumeral contentLength
    (partHead boundary part ++ content ++ closingLine boundary).length

namespace UploadRequest

def bytes (r : UploadRequest) : ByteString :=
  r.head.bytes ++ (partHead r.boundary r.part ++ r.content ++ closingLine r.boundary)

/-- The boundary as `parse` searches for it, without the `=` and `-` it starts with. -/
def pattern (r : UploadRequest) : ByteString :=
  r.boundary.dropWhile fun c => c == 61 || c == dash

def partHeaders (r : UploadRequest) : Headers := Headers.insertAll ∅ (r.part.map FieldLine.pair)

/-- The part names its type, so that its headers are kept. -/
def Typed (r : UploadRequest) : Prop :=
  (r.partHeaders.lookup (ascii "content-type")).isSome = true

instance (r : UploadRequest) : Decidable r.Typed :=
  inferInstanceAs (Decidable (_ = true))

def uploadHeaders (r : UploadRequest) : Headers := if r.Typed then r.partHeaders else ∅

/-- The text taken for the upload when `e` lies behind the part headers. -/
def data (r : UploadRequest) (e : ByteString) : ByteString :=
  if r.Typed then e else crlf ++ crlf ++ e

def request (r : UploadRequest) (up : ByteString) : HttpRequest :=
  ⟨toMethod r.head.method, 11, r.head.target, r.head.headers, [], [⟨up, r.uploadHeaders⟩]⟩

theorem contentType_head (r : UploadRequest) : r.head.contentType = .multipartFormdata := by
  have htype : ∀ c ∈ ascii "multipart/form-data", (c != 59) = true := by decide +kernel
  have hsplit : uploadType r.parameters r.boundary = ascii "multipart/form-data" ++
      59 :: (r.parameters ++ ascii "boundary=" ++ r.boundary) := by
    rw [uploadType, show ascii "multipart/form-data;" = ascii "multipart/form-data" ++ [59] by
      decide +kernel]
    simp
  have htake : (uploadType r.parameters r.boundary).takeWhile (· != 59) =
      ascii "multipart/form-data" := by
    rw [hsplit, List.takeWhile_append_of_pos htype]
    simp
  simp only [RequestHead.contentType, r.type_field, contentTypeOf, head?_split, htake,
    Option.getD_some, if_true]

theorem takesMedia_head (r : UploadRequest) : r.head.contentType.takesMedia = true := by
  rw [r.contentType_head]
  rfl

theorem boundaryParameter_type (r : UploadRequest) :
    boundaryParameter (uploadType r.parameters r.boundary) = some r.pattern := by
  have h8 : ascii "boundary=" = ascii "boundary" ++ [61] := by decide +kernel
  have hdrop : (uploadType r.parameters r.boundary).drop
      ((ascii "multipart/form-data;" ++ r.parameters).length + (ascii "boundary").length) =
      61 :: r.boundary := by
    rw [uploadType, h8, ← List.append_assoc, ← List.length_append, List.append_assoc _ [61],
      List.drop_left]
    rfl
  rw [boundaryParameter, r.type_first, Option.map_some, hdrop]
  simp [pattern]

theorem head_pattern (r : UploadRequest) : r.pattern.head? ≠ some dash :=
  head_boundaryParameter r.boundaryParameter_type

theorem print_pattern (r : UploadRequest) : ∀ c ∈ r.pattern, isPrint c = true := fun _ hc =>
  r.head.print_field r.type_field _ (mem_boundaryParameter r.boundaryParameter_type hc)

/-- What stands in front of the pattern are the characters it was stripped of. -/
theorem exists_stripped (r : UploadRequest) :
    ∃ s, r.boundary = s ++ r.pattern ∧ ∀ c ∈ s, c = 61 ∨ c = dash := by
  refine ⟨_, (List.takeWhile_append_dropWhile).symm, fun c hc => ?_⟩
  have := List.mem_takeWhile_imp hc
  simpa using this

theorem openingText_partHead (r : UploadRequest) (hne : r.pattern ≠ []) (e : ByteString) :
    ∃ x, openingText (crlf ++ crlf ++ (partHead r.boundary r.part ++ e)) =
        x ++ r.pattern ++ (crlf ++ (linesText r.part ++ (crlf ++ e))) ∧
      find r.pattern (x ++ r.pattern ++ (crlf ++ (linesText r.part ++ (crlf ++ e)))) =
        some x.length := by
  obtain ⟨s, hs, hstripped⟩ := r.exists_stripped
  obtain ⟨a, p, hp⟩ := List.exists_cons_of_ne_nil hne
  have hhead : r.pattern.head? = some a := by rw [hp]; rfl
  have ha : a ≠ 61 ∧ a ≠ dash := by
    have := List.head?_dropWhile_not (p := fun c : UInt8 => c == 61 || c == dash) (l := r.boundary)
    rw [← pattern, hhead] at this
    simpa using this
  refine ⟨([dash, dash] ++ s).dropWhile (· == dash), ?_, ?_⟩
  · rw [openingText_body, partHead, hs]
    have hsplit : [dash, dash] ++ (s ++ r.pattern) ++ (crlf ++ (linesText r.part ++ crlf)) ++ e =
        ([dash, dash] ++ s) ++ (r.pattern ++ (crlf ++ (linesText r.part ++ (crlf ++ e)))) := by
      simp
    rw [hsplit, List.dropWhile_append]
    split_ifs with hall
    · rw [List.isEmpty_iff.mp hall, hp, List.nil_append, List.cons_append,
        List.dropWhile_cons_of_neg (by simpa using ha.2)]
    · rw [List.append_assoc]
  · apply find_append_of_head hhead
    intro hmem
    have hmem' := (List.dropWhile_suffix _).subset hmem
    simp only [List.cons_append, List.nil_append, List.mem_cons] at hmem'
    rcases hmem' with rfl | rfl | hmem'
    · exact ha.2 rfl
    · exact ha.2 rfl
    · rcases hstripped a hmem' with h | h
      · exact ha.1 h
      · exact ha.2 h

/-- The parser that collects the upload and holds `got` of it. -/
def collector (r : UploadRequest) (t : ContentType) (got : ByteString) : Parser :=
  { r.head.parsed (Parser.fresh t) with
    parsePhase := .parseMediaTypeNeedMore
    bufferSizeReaded := got.length
    multipartBuffer := got
    boundaryValueLength := r.pattern.length
    boundaryValue := r.pattern
    uploadBodyHeaders := r.uploadHeaders }

theorem pattern_collector (r : UploadRequest) (t : ContentType) (got : ByteString) :
    (r.collector t got).pattern = r.pattern :=
  List.take_length

theorem boundaryOk_collector (r : UploadRequest) (t : ContentType) (got : ByteString) :
    (r.collector t got).BoundaryOk :=
  ⟨le_rfl, r.head_pattern, r.print_pattern⟩

theorem lookup_collector (r : UploadRequest) (t : ContentType) (got : ByteString) :
    (r.collector t got).headers.lookup (ascii "content-length") = some r.contentLength :=
  (r.head.lookup_headers _).trans r.length_field

section First

variable {c : Chunk} {e : ByteString}

def headCursor (r : UploadRequest) (t : ContentType) (c : Chunk) (body : ByteString) : Cursor :=
  ⟨r.head.parsed (Parser.fresh t), c.size - (body.length + 4), none, []⟩

theorem call_fresh_media (r : UploadRequest) (t : ContentType) {body : ByteString}
    (hc : c.bytes = r.head.bytes ++ body) (hne : body ≠ []) :
    (Parser.fresh t).call c = parseContent c.memory c.size (r.headCursor t c body) := by
  rw [r.head.call_fresh t hc (r.head.supported_of_takesMedia r.takesMedia_head)]
  exact if_neg fun h => hne h.1

theorem parseMediaTypeBegin_head (r : UploadRequest) (t : ContentType) {body : ByteString} :
    parseMediaTypeBegin c.memory c.size (r.headCursor t c body) =
      parseOpeningBoundary c.memory c.size
        { r.headCursor t c body with
          parser := { r.head.parsed (Parser.fresh t) with
            parsePhase := .parseMediaType
            boundaryValue := r.pattern } } :=
  parseMediaTypeBegin_eq ((r.head.lookup_headers _).trans r.type_field) r.boundaryParameter_type

/-- A chunk with the part headers, and a pattern that does not end in `--`: the rest is
text to collect. -/
theorem parseMediaTypeBegin_partHead (r : UploadRequest) (t : ContentType)
    (hc : c.bytes = r.head.bytes ++ (partHead r.boundary r.part ++ e)) (hne : r.pattern ≠ [])
    (hdashes : ¬[dash, dash] <:+ r.pattern) :
    parseMediaTypeBegin c.memory c.size
        (r.headCursor t c (partHead r.boundary r.part ++ e)) =
      ⟨{ r.collector t [] with parsePhase := .parseHeadersFinished },
        c.size - (r.data e).length, none, []⟩ ∧
    slice c.memory (c.size - (r.data e).length) c.size = r.data e := by
  set body := partHead r.boundary r.part ++ e with hbody
  obtain ⟨x, hx, hfind⟩ := r.openingText_partHead hne e
  have hsize := r.head.size_chunk hc
  have htext := r.head.slice_chunk hc
  set y := linesText r.part ++ (crlf ++ e) with hy
  have hopening := @parseOpeningBoundary_of_text c.memory c.size
    { r.headCursor t c body with
      parser := { r.head.parsed (Parser.fresh t) with
        parsePhase := .parseMediaType
        boundaryValue := r.pattern } }
    r.pattern x y rfl r.head_pattern r.print_pattern
    (by simp only [headCursor]; omega) (by simp only [headCursor]; rw [htext, hx]) hfind
  have hslice : slice c.memory (c.size - y.length) c.size = y := by
    refine @slice_of_openingText c.memory c.size (c.size - (body.length + 4))
      (x ++ r.pattern ++ crlf) y (by omega) ?_
    rw [htext, hx]
    simp
  have hdata : slice c.memory (c.size - (r.data e).length) c.size = r.data e := by
    obtain ⟨z, hz⟩ := exists_linesText_crlf r.part_ne
    unfold data
    split_ifs
    · exact slice_suffix (s := linesText r.part ++ crlf) (by rw [hslice, hy]; simp)
    · exact slice_suffix (s := z) (by rw [hslice, hy, hz]; simp)
  refine ⟨?_, hdata⟩
  rw [r.parseMediaTypeBegin_head, hopening, if_neg hdashes]
  have hlen : e.length + 4 ≤ c.size := by
    have h2 := two_le_linesText r.part_ne
    have hl := congrArg List.length hslice
    have h2' : crlf.length = 2 := rfl
    simp only [length_slice, hy, List.length_append, h2'] at hl
    omega
  have hblock : parseMessageHeader c.memory c.size (c.size - y.length) ∅ none =
      (⟨c.size - (e.length + 4), r.partHeaders, none⟩, .parseHeadersFinished) :=
    parseMessageHeader_of_block r.part_ne hslice ∅ none
  simp only [parseUploadHeaders, headCursor, hblock]
  cases htyped : r.partHeaders.lookup (ascii "content-type") with
  | none =>
    have hno : ¬ r.Typed := by simp [Typed, htyped]
    have h2 : crlf.length = 2 := rfl
    simp only [collector, uploadHeaders, data, if_neg hno, RequestHead.parsed, Parser.fresh,
      List.length_append, List.length_nil, h2]
    congr 1
    omega
  | some w =>
    have hyes : r.Typed := by simp [Typed, htyped]
    simp only [collector, uploadHeaders, data, if_pos hyes, RequestHead.parsed, Parser.fresh,
      List.length_nil]
    congr 1
    omega

theorem call_partHead (r : UploadRequest) (t : ContentType)
    (hc : c.bytes = r.head.bytes ++ (partHead r.boundary r.part ++ e)) (hne : r.pattern ≠ [])
    (hdashes : ¬[dash, dash] <:+ r.pattern) :
    ∃ it ranges, (Parser.fresh t).call c = .ok
      (if r.data e = [] then ⟨r.collector t [], none, ranges, none⟩
      else finishMedia ⟨(r.collector t []).takePart r.contentLength
        (uploadPart r.pattern (r.data e)), it, none, ranges⟩) := by
  have hbody : partHead r.boundary r.part ++ e ≠ [] := by simp [partHead]
  obtain ⟨hk, hdata⟩ := r.parseMediaTypeBegin_partHead t hc hne hdashes
  have htype :
      (r.headCursor t c (partHead r.boundary r.part ++ e)).parser.headerContentType.takesMedia =
        true := r.takesMedia_head
  have hl := congrArg List.length hdata
  rw [length_slice] at hl
  rw [r.call_fresh_media t hc hbody]
  by_cases hnil : r.data e = []
  · simp only [if_pos hnil]
    exact ⟨0, [], parseContent_media_at_end hk rfl htype (r.lookup_collector t [])
      (by simp [hnil])⟩
  · have hpos := List.length_pos_iff.mpr hnil
    have hmax : c.size ≤ maxSize := c.size_le
    have hpart := (uploadPart_isPrefix r.pattern (r.data e)).length_le
    simp only [if_neg hnil]
    refine ⟨_, _, parseContent_media_part hk rfl htype (r.lookup_collector t [])
      ⟨le_rfl, r.head_pattern, r.print_pattern⟩ (by dsimp only; omega)
      (show _ = uploadPart r.pattern (r.data e) from ?_) ?_⟩
    · dsimp only
      rw [hdata]
      exact congrArg (fun b => uploadPart b _) List.take_length
    · simp only [collector, List.length_nil]
      omega

/-- A pattern that ends in `--`: the part headers are taken for the upload. -/
theorem call_dashes (r : UploadRequest) (t : ContentType)
    (hc : c.bytes = r.head.bytes ++ (partHead r.boundary r.part ++ e)) (hne : r.pattern ≠ [])
    (hdashes : [dash, dash] <:+ r.pattern) :
    ∃ (k : Parser) (part : ByteString × Bool) (it : ℕ) (ranges : List (ℕ × ℕ)),
      k.uploads = [] ∧ k.uploadBodyHeaders = ∅ ∧
      (Parser.fresh t).call c =
        .ok (finishMedia ⟨k.takePart r.contentLength part, it, none, ranges⟩) := by
  set body := partHead r.boundary r.part ++ e with hbody
  obtain ⟨x, hx, hfind⟩ := r.openingText_partHead hne e
  rw [← hbody] at hx
  have hsize := r.head.size_chunk hc
  have htext := r.head.slice_chunk hc
  set y := linesText r.part ++ (crlf ++ e) with hy
  set s : Cursor := { r.headCursor t c body with
      parser := { r.head.parsed (Parser.fresh t) with
        parsePhase := .parseMediaType
        boundaryValue := r.pattern } } with hs
  have hopening := @parseOpeningBoundary_of_text c.memory c.size s r.pattern x y rfl r.head_pattern
    r.print_pattern
    (by simp only [hs, headCursor]; omega) (by simp only [hs, headCursor]; rw [htext, hx]) hfind
  rw [if_pos hdashes, hs, ← r.parseMediaTypeBegin_head t] at hopening
  have hbehind : y.length + 4 ≤ c.size := by
    have hl := congrArg List.length hx
    have hdrop := (List.dropWhile_suffix (l := body) (· == dash)).length_le
    have h2 : crlf.length = 2 := rfl
    rw [openingText_body] at hl
    simp only [List.length_append, h2] at hl hdrop
    omega
  rw [r.call_fresh_media t hc (by simp [hbody, partHead])]
  have hmax : c.size ≤ maxSize := c.size_le
  have hpart := (uploadPart_isPrefix r.pattern
    (slice c.memory (c.size - (y.length + 4)) c.size)).length_le
  rw [length_slice] at hpart
  refine ⟨_, _, _, _, ?_, ?_, parseContent_media_part hopening rfl r.takesMedia_head
    ((r.head.lookup_headers _).trans r.length_field) ⟨le_rfl, r.head_pattern, r.print_pattern⟩
    (by dsimp only; omega)
    (show _ = uploadPart r.pattern (slice c.memory (c.size - (y.length + 4)) c.size) from ?_) ?_⟩
  · rfl
  · rfl
  · exact congrArg (fun b => uploadPart b _) List.take_length
  · simp only [RequestHead.parsed, Parser.fresh]
    omega

theorem finishMedia_collector (r : UploadRequest) (t : ContentType) (got : ByteString)
    (part : ByteString × Bool) (it : ℕ) (ranges : List (ℕ × ℕ)) :
    (part.2 = false ∧ got.length + part.1.length < sizeT (atoi r.contentLength) ∧
      finishMedia ⟨(r.collector t got).takePart r.contentLength part, it, none, ranges⟩ =
        ⟨r.collector t (got ++ part.1), none, ranges, none⟩) ∨
    ((part.2 = true ∨ sizeT (atoi r.contentLength) ≤ got.length + part.1.length) ∧
      (finishMedia ⟨(r.collector t got).takePart r.contentLength part, it, none,
        ranges⟩).parser.parsePhase = .finished ∧
      (finishMedia ⟨(r.collector t got).takePart r.contentLength part, it, none,
        ranges⟩).request = some (r.request (got ++ part.1))) := by
  rcases finishMedia_takePart (r.collector t got) r.contentLength part it none ranges with
    ⟨hopen, hlt, hmore⟩ | ⟨hdone, hfin, hreq⟩
  · refine Or.inl ⟨hopen, hlt, hmore.trans ?_⟩
    simp [collector]
  · exact Or.inr ⟨hdone, hfin, hreq⟩

end First

end UploadRequest

end Webcrown.Http
