import Webcrown.Http.HeaderScanners

/-!
# The request parser

`parser::parse` and the functions under it, on explicit state. A call works on a
`Cursor`: the parser object, the iterator as an offset from the buffer pointer,
the error code, and the ranges `[first, last)` the call has turned into bytes so
far. The ranges are a record for the proofs; no branch reads them.

`size_t` arithmetic is modulo `2 ^ 64`, and building a string or reserving a
vector beyond `maxSize` throws `length_error`.
-/

namespace Webcrown.Http

open Bytes Common

/-- The parser object. `header_limit_` and `body_` are never used and left out. -/
structure Parser where
  parsePhase : ParsePhase
  method : ByteString
  target : ByteString
  protocolVersion : ℤ
  headers : Headers
  uploads : List HttpFormUpload
  headerContentType : ContentType
  bufferSizeReaded : ℕ
  multipartBuffer : ByteString
  boundaryValueLength : ℕ
  boundaryValue : ByteString
  uploadBodyHeaders : Headers
  deriving DecidableEq

/-- A parser as constructed. `header_content_type_` is not initialised, so it
starts with an arbitrary value. -/
def Parser.fresh (headerContentType : ContentType) : Parser where
  parsePhase := .notStarted
  method := []
  target := []
  protocolVersion := 0
  headers := ∅
  uploads := []
  headerContentType := headerContentType
  bufferSizeReaded := 0
  multipartBuffer := []
  boundaryValueLength := 0
  boundaryValue := []
  uploadBodyHeaders := ∅

structure Cursor where
  parser : Parser
  it : ℕ
  ec : ErrorCode
  ranges : List (ℕ × ℕ)
  deriving DecidableEq

def sizeT (z : ℤ) : ℕ := (z % 2 ^ 64).toNat

/-- `max_size()` of `std::string` and of `std::vector<std::byte>`: `PTRDIFF_MAX`. -/
def maxSize : ℕ := 2 ^ 63 - 1

/-- A request-line scanner's result: iterator, token, error code and phase. -/
structure Token where
  it : ℕ
  text : ByteString
  ec : ErrorCode
  phase : ParsePhase
  deriving DecidableEq, Repr

def parseMethod (m : ℕ → UInt8) (last it : ℕ) (ec : ErrorCode) : Token :=
  if isSpace (m it) then ⟨it, [], some .badMethod, .parseMethod⟩
  else
    let p := scan (fun k => !isTokenChar (m k) || !isAlpha (m k)) last it
    if p < last && isTokenChar (m p) then ⟨p, [], some .badMethod, .parseMethod⟩
    else if p + 1 ≥ last then ⟨p, [], some .incompleteStartLine, .parseMethod⟩
    else if m p ≠ sp then ⟨p, [], some .badMethod, .parseMethod⟩
    else if p = last then ⟨p, [], some .badMethod, .parseMethod⟩
    else ⟨p + 1, slice m it p, ec, .parseMethodFinished⟩

def parseTarget (m : ℕ → UInt8) (last it : ℕ) (ec : ErrorCode) : Token :=
  if !isPathchar (m it) then ⟨it, [], some .badTarget, .parseTarget⟩
  else
    let p := scan (fun k => !isPathchar (m k)) last it
    if p + 1 ≥ last then ⟨p, [], some .incompleteStartLine, .parseTarget⟩
    else if m p ≠ sp then ⟨p, [], some .badTarget, .parseTarget⟩
    else if p = last then ⟨p, [], some .badTarget, .parseTarget⟩
    else ⟨p + 1, slice m it p, ec, .parseTargetFinished⟩

def matchLiteral (m : ℕ → UInt8) : ByteString → ℕ → ℕ × Bool
  | [], it => (it, true)
  | c :: cs, it => if m it ≠ c then (it + 1, false) else matchLiteral m cs (it + 1)

structure ProtocolVersion where
  it : ℕ
  version : ℤ
  ec : ErrorCode
  phase : ParsePhase
  deriving DecidableEq, Repr

def parseProtocol (m : ℕ → UInt8) (last it : ℕ) (version : ℤ) (ec : ErrorCode) :
    ProtocolVersion :=
  if it + 8 > last then ⟨it, version, some .incompleteStartLine, .parseProtocolVersion⟩
  else
    let name := matchLiteral m (ascii "HTTP/") it
    let it := name.1
    if !name.2 then ⟨it, version, some .badVersion, .parseProtocolVersion⟩
    else if !isDigit (m it) then ⟨it, version, some .badVersion, .parseProtocolVersion⟩
    else
      let version : ℤ := 10 * ((m it).toNat - 48)
      if m (it + 1) ≠ 46 then ⟨it + 2, version, some .badVersion, .parseProtocolVersion⟩
      else if !isDigit (m (it + 2)) then
        ⟨it + 2, version, some .badVersion, .parseProtocolVersion⟩
      else
        ⟨it + 3, version + ((m (it + 2)).toNat - 48), ec, .parseProtocolVersionFinished⟩

/-- The type a `Content-Type` value names: its text before the first `;`. -/
def contentTypeOf (value : ByteString) : ContentType :=
  let type := ((split value 59 false).head?).getD value
  if type = ascii "multipart/form-data" then .multipartFormdata
  else if type = ascii "application/json" then .applicationJson
  else if type = ascii "image/jpeg" then .imageJpeg
  else if type = ascii "application/x-www-form-urlencoded" then .applicationFormUrlencoded
  else .unknown

/-- The content type `parse_content_type` chooses for a header map. -/
def headersContentType (headers : Headers) : ContentType :=
  match headers.lookup (ascii "content-type") with
  | none => .notSpecified
  | some value => contentTypeOf value

/-- The types `parse_start_line` lets through. -/
def ContentType.supported (t : ContentType) : Bool :=
  t = .applicationJson || t = .multipartFormdata || t = .notSpecified ||
    t = .applicationFormUrlencoded || t = .imageJpeg

/-- `parse_start_line` up to the header block; every exit before that sets an error. -/
def parseRequestLine (m : ℕ → UInt8) (last : ℕ) (s : Cursor) : Cursor :=
  let method := parseMethod m last s.it s.ec
  let p := { s.parser with parsePhase := method.phase }
  if method.ec.isSome then { s with parser := p, it := method.it, ec := method.ec }
  else
    let p := { p with method := method.text }
    let target := parseTarget m last method.it method.ec
    let p := { p with parsePhase := target.phase }
    if target.ec.isSome then { s with parser := p, it := target.it, ec := target.ec }
    else
      let p := { p with target := target.text }
      let protocol := parseProtocol m last target.it p.protocolVersion target.ec
      let p := { p with protocolVersion := protocol.version, parsePhase := protocol.phase }
      let s := { s with parser := p, it := protocol.it, ec := protocol.ec }
      if s.ec.isSome then s
      else if p.protocolVersion < 11 || p.protocolVersion > 11 then
        { s with ec := some .badVersion }
      else if s.it + 2 > last then { s with ec := some .incompleteStartLine }
      else if m s.it ≠ cr ∧ m (s.it + 1) ≠ lf then { s with ec := some .invalidRequestLine }
      else { s with it := s.it + 2 }

/-- `parse_start_line` from the header block on: the headers, the content type,
and the rejection of unsupported types. -/
def parseHead (m : ℕ → UInt8) (last : ℕ) (s : Cursor) : Cursor :=
  let block := (parseMessageHeader m last s.it s.parser.headers s.ec).1
  let type := headersContentType block.headers
  { parser := { s.parser with
      headers := block.headers
      headerContentType := type
      parsePhase := .parseContentTypeFinished }
    it := block.it
    ec := if type.supported then block.ec else some .contentTypeNotImplemented
    ranges := s.ranges }

def parseStartLine (m : ℕ → UInt8) (last : ℕ) (s : Cursor) : Cursor :=
  let s := parseRequestLine m last s
  if s.ec.isSome then s else parseHead m last s

/-- The inner loop of `verify_boundary_value`: the count is reset at a mismatch,
and no match counts while the outer byte is a dash. -/
def boundaryMatchCount (m : ℕ → UInt8) (it len : ℕ) (b : ByteString) : ℕ :=
  (List.range len).foldl (fun count c =>
    if m (it + c) ≠ b[c]?.getD 0 then 0 else if m it = dash then count else count + 1) 0

/-- `verify_boundary_value`, as the iterator it leaves; it returns true when that is
before `last`. -/
def verifyBoundaryValue (m : ℕ → UInt8) (last it len : ℕ) (b : ByteString) : ℕ :=
  scan (fun k => boundaryMatchCount m k len b == len) last it

/-- The boundary a `Content-Type` value announces: the text after `boundary`
without the `=` and `-` that follow. The source also tests the eight letters one by
one, which cannot fail where the search for `boundary=` succeeded. -/
def boundaryParameter (value : ByteString) : Option ByteString :=
  (find (ascii "boundary=") value).map fun pos =>
    (value.drop (pos + (ascii "boundary").length)).dropWhile fun c => c == 61 || c == dash

/-- `--` CR LF at `k`, which ends the line scan of `parse_media_type_begin`. -/
def closesAt (m : ℕ → UInt8) (k : ℕ) : Bool :=
  m k == dash && m (k + 1) == dash && m (k + 2) == cr && m (k + 3) == lf

def crlfAt (m : ℕ → UInt8) (k : ℕ) : Bool :=
  m k == cr && m (k + 1) == lf

/-- The end of `parse_media_type_begin`, from the part headers on. -/
def parseUploadHeaders (m : ℕ → UInt8) (last : ℕ) (s : Cursor) : Cursor :=
  let (block, phase) := parseMessageHeader m last s.it ∅ s.ec
  let s := { s with parser.parsePhase := phase, it := block.it, ec := block.ec }
  match block.headers.lookup (ascii "content-type") with
  | none => s
  | some _ => { s with parser.uploadBodyHeaders := block.headers, it := s.it + 4 }

/-- `parse_media_type_begin` from the blank line of the request head on, with the
boundary already taken from the header. -/
def parseOpeningBoundary (m : ℕ → UInt8) (last : ℕ) (s : Cursor) : Cursor :=
  if s.it + 4 > last then s
  else
    let it := if crlfAt m s.it && crlfAt m (s.it + 2) then s.it + 4 else s.it
    let b := s.parser.boundaryValue
    let s := { s with parser.boundaryValueLength := b.length }
    let it := scan (fun k => m k != dash) last it
    let first := verifyBoundaryValue m last it b.length b
    let p := scan (fun k => closesAt m k || crlfAt m k) last first
    if p < last && closesAt m p then { s with it := p }
    else if slice m first p ≠ b then { s with it := p }
    else parseUploadHeaders m last { s with it := p + 2 }

def parseMediaTypeBegin (m : ℕ → UInt8) (last : ℕ) (s : Cursor) : Cursor :=
  let s := { s with parser.parsePhase := .parseMediaType }
  match s.parser.headers.lookup (ascii "content-type") with
  | none => s
  | some value =>
    match boundaryParameter value with
    | none => { s with ec := some .noBoundaryHeaderForMultipart }
    | some b => parseOpeningBoundary m last { s with parser.boundaryValue := b }

/-- The search of `parse_media_type_more`: the iterator after it, `buffer_end`, and
`endbuffer_was_reached`. -/
structure UploadScan where
  it : ℕ
  bufferEnd : ℕ
  endbufferWasReached : Bool
  deriving DecidableEq, Repr

def scanUpload (m : ℕ → UInt8) (last it len : ℕ) (b : ByteString) : UploadScan :=
  let it := verifyBoundaryValue m last it len b
  if it < last then
    let q := scan (fun k => m k != dash && k + 2 ≤ last && crlfAt m k) last it
    if q < last then ⟨q + 2, q + 2, true⟩ else ⟨q, q, false⟩
  else ⟨it, last, false⟩

/-- `parse_media_type_more`; `.error` is the state in which `reserve` threw. -/
def parseMediaTypeMore (m : ℕ → UInt8) (last : ℕ) (s : Cursor) : Except Cursor Cursor :=
  match s.parser.headers.lookup (ascii "content-length") with
  | none => .ok s
  | some contentLength =>
    if s.it = last then .ok { s with parser.parsePhase := .parseMediaTypeNeedMore }
    else
      let u := scanUpload m last s.it s.parser.boundaryValueLength s.parser.boundaryValue
      let readed := sizeT (s.parser.bufferSizeReaded + ((u.bufferEnd : ℤ) - s.it))
      let p := { s.parser with bufferSizeReaded := readed }
      let ranges := s.ranges ++ [(s.it, u.bufferEnd)]
      if readed > maxSize then .error ⟨p, u.it, s.ec, ranges⟩
      else
        let p := { p with multipartBuffer := p.multipartBuffer ++ slice m s.it u.bufferEnd }
        if !u.endbufferWasReached && readed < sizeT (atoi contentLength) then
          .ok ⟨{ p with parsePhase := .parseMediaTypeNeedMore }, u.it, s.ec, ranges⟩
        else
          .ok ⟨{ p with
            uploads := p.uploads ++ [⟨p.multipartBuffer, p.uploadBodyHeaders⟩]
            parsePhase := .parseMediaTypeFinished }, u.it, s.ec, ranges⟩

def parseMediaType (m : ℕ → UInt8) (last : ℕ) (s : Cursor) : Except Cursor Cursor :=
  if s.parser.parsePhase = .parseContentTypeFinished then
    parseMediaTypeMore m last (parseMediaTypeBegin m last s)
  else if s.parser.parsePhase = .parseMediaTypeNeedMore then parseMediaTypeMore m last s
  else .ok s

def ContentType.takesBody (t : ContentType) : Bool :=
  t = .text || t = .applicationJson || t = .applicationFormUrlencoded || t = .notSpecified

def ContentType.takesMedia (t : ContentType) : Bool :=
  t = .image || t = .imageJpeg || t = .multipartFormdata

/-- What a call leaves: the parser, the error code, the ranges it turned into
bytes, and the returned request. -/
structure CallResult where
  parser : Parser
  ec : ErrorCode
  ranges : List (ℕ × ℕ)
  request : Option HttpRequest
  deriving DecidableEq

structure LengthError where
  parser : Parser
  ranges : List (ℕ × ℕ)
  deriving DecidableEq

/-- `parse_body`, and the step to `finished` after it. -/
def parseBody (m : ℕ → UInt8) (last : ℕ) (s : Cursor) : Except LengthError CallResult :=
  let ranges := s.ranges ++ [(s.it, last)]
  if sizeT ((last : ℤ) - s.it) > maxSize then .error ⟨s.parser, ranges⟩
  else
    let p := s.parser
    .ok
      { parser := { p with parsePhase := .finished }
        ec := s.ec
        ranges := ranges
        request := some ⟨toMethod p.method, p.protocolVersion, p.target, p.headers,
          slice m s.it last, []⟩ }

/-- The end of `parse`: a finished upload becomes a request. -/
def finishMedia (s : Cursor) : CallResult :=
  let p := s.parser
  if p.parsePhase = .parseMediaTypeFinished then
    { parser := { p with parsePhase := .finished }
      ec := s.ec
      ranges := s.ranges
      request := some ⟨toMethod p.method, p.protocolVersion, p.target, p.headers, [], p.uploads⟩ }
  else ⟨p, s.ec, s.ranges, none⟩

/-- The media branches of `parse`: after the head, then again when more is needed. -/
def parseMedia (m : ℕ → UInt8) (last : ℕ) (s : Cursor) : Except Cursor Cursor :=
  if s.parser.parsePhase = .parseMediaTypeNeedMore then parseMediaType m last s else .ok s

/-- `parse` after the head, outside its corner case. -/
def parseContent (m : ℕ → UInt8) (last : ℕ) (s : Cursor) : Except LengthError CallResult :=
  let phase := s.parser.parsePhase
  let started : Bool := phase = .parseContentTypeFinished || phase = .parseBodyPending
  if started && s.parser.headerContentType.takesBody then parseBody m last s
  else
    let media := started && s.parser.headerContentType.takesMedia
    match (if media then parseMediaType m last s else .ok s) >>= parseMedia m last with
    | .error s => .error ⟨s.parser, s.ranges⟩
    | .ok s => .ok (finishMedia s)

/-- The corner case of `parse`: a positive `Content-Length` with no byte after the
blank line. -/
def awaitsBody (last : ℕ) (s : Cursor) : Bool :=
  s.parser.parsePhase = .parseContentTypeFinished &&
    match s.parser.headers.lookup (ascii "content-length") with
    | none => false
    | some value => 0 < atoi value && last ≤ s.it + 4

def parse (p : Parser) (m : ℕ → UInt8) (size : ℕ) (ec : ErrorCode) :
    Except LengthError CallResult :=
  if p.parsePhase = .notStarted ∧ size = 0 then .ok ⟨p, some .needMore, [], none⟩
  else
    let s : Cursor :=
      if p.parsePhase = .notStarted then
        parseStartLine m size ⟨{ p with parsePhase := .parseStartLineStarted }, 0, ec, []⟩
      else ⟨p, 0, ec, []⟩
    if awaitsBody size s then
      .ok ⟨{ s.parser with parsePhase := .parseBodyPending }, s.ec, s.ranges, none⟩
    else parseContent m size s

end Webcrown.Http
