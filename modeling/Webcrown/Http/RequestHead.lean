import Webcrown.Http.HeaderGrammar
import Webcrown.Http.RequestLine

/-!
# Request heads

A well-formed head: a request line, one or more header lines and the empty line.
A fresh parser reads it into exactly its method, its target and the map of its
fields, and stops at the CR LF CR LF that ends it.
-/

namespace Webcrown.Http

open Bytes Common BlockText

/-- A well-formed request head. -/
structure RequestHead where
  method : ByteString
  target : ByteString
  lines : List FieldLine
  method_ne : method ≠ []
  method_alpha : ∀ c ∈ method, isAlpha c = true
  target_ne : target ≠ []
  target_path : ∀ c ∈ target, isPathchar c = true
  lines_ne : lines ≠ []
  lines_named : ∀ l ∈ lines, l.name ≠ []

namespace RequestHead

def bytes (h : RequestHead) : ByteString :=
  h.method ++ sp :: (h.target ++ sp :: (ascii "HTTP/1.1" ++ crlf)) ++ linesText h.lines ++ crlf

/-- The value of the first line under a name, names compared in lower case. -/
def field (h : RequestHead) (name : ByteString) : Option ByteString :=
  (h.lines.find? fun l => toLower l.name == name).map FieldLine.value

def headers (h : RequestHead) : Headers := Headers.insertAll ∅ (h.lines.map FieldLine.pair)

theorem lookup_headers (h : RequestHead) (name : ByteString) :
    h.headers.lookup name = h.field name := by
  rw [headers, Headers.lookup_insertAll, Finmap.lookup_empty, Option.none_or, List.find?_map,
    Option.map_map, field]
  rfl

theorem print_field (h : RequestHead) {name v : ByteString} (hv : h.field name = some v) :
    ∀ c ∈ v, isPrint c = true := by
  obtain ⟨l, -, rfl⟩ := Option.map_eq_some_iff.mp hv
  exact l.value_print

def contentType (h : RequestHead) : ContentType :=
  match h.field (ascii "content-type") with
  | none => .notSpecified
  | some value => contentTypeOf value

theorem headersContentType_headers (h : RequestHead) :
    headersContentType h.headers = h.contentType := by
  rw [headersContentType, lookup_headers]
  rfl

theorem requestLine_bytes (h : RequestHead) (rest : ByteString) :
    RequestLine (h.bytes ++ rest) h.method h.target (linesText h.lines ++ (crlf ++ rest)) := by
  refine ⟨cr, lf, ?_, ⟨h.method_ne, h.method_alpha⟩, ⟨h.target_ne, h.target_path⟩, Or.inl rfl⟩
  simp [bytes, crlf]

def parsed (h : RequestHead) (p : Parser) : Parser :=
  { p with
    parsePhase := .parseContentTypeFinished
    method := h.method
    target := h.target
    protocolVersion := 11
    headers := h.headers
    headerContentType := h.contentType }

end RequestHead

variable {m : ℕ → UInt8} {last it : ℕ}

theorem two_le_linesText {ls : List FieldLine} (h : ls ≠ []) : 2 ≤ (linesText ls).length := by
  obtain ⟨l, ls, rfl⟩ := List.exists_cons_of_ne_nil h
  simp [linesText, FieldLine.bytes, crlf]
  omega

/-- A complete block is entered line by line; the iterator ends on the CR LF of its
last line. -/
theorem parseMessageHeader_of_block {ls : List FieldLine} {rest : ByteString} (hls : ls ≠ [])
    (h : slice m it last = linesText ls ++ (crlf ++ rest)) (hs : Headers) (ec : ErrorCode) :
    parseMessageHeader m last it hs ec =
      (⟨last - (rest.length + 4), hs.insertAll (ls.map FieldLine.pair), ec⟩,
        .parseHeadersFinished) := by
  have hl := congrArg List.length h
  have h2 := two_le_linesText hls
  simp only [length_slice, List.length_append] at hl
  rw [parseMessageHeader_eq_read m hs ec (by omega), h, read_block hls]
  rfl

theorem exists_linesText_crlf {ls : List FieldLine} (h : ls ≠ []) :
    ∃ t, linesText ls = t ++ crlf := by
  obtain ⟨ls, l, rfl⟩ := List.eq_nil_or_concat ls |>.resolve_left h
  refine ⟨linesText ls ++ l.text, ?_⟩
  rw [List.concat_eq_append, linesText_append, linesText_singleton, FieldLine.bytes,
    List.append_assoc]

theorem RequestHead.exists_bytes_crlf (h : RequestHead) : ∃ t, h.bytes = t ++ (crlf ++ crlf) := by
  obtain ⟨t, ht⟩ := exists_linesText_crlf h.lines_ne
  exact ⟨h.method ++ sp :: (h.target ++ sp :: (ascii "HTTP/1.1" ++ crlf)) ++ t,
    by simp [bytes, ht]⟩

theorem parseStartLine_of_head (h : RequestHead) {rest : ByteString} {s : Cursor}
    (hec : s.ec = none) (hfresh : s.parser.headers = ∅)
    (ht : slice m s.it last = h.bytes ++ rest) (htype : h.contentType.supported = true) :
    parseStartLine m last s =
      { s with parser := h.parsed s.parser, it := last - (rest.length + 4) } := by
  have hline := h.requestLine_bytes rest
  rw [← ht] at hline
  have hreq := parseRequestLine_of_text hec hline
  set u := linesText h.lines ++ (crlf ++ rest) with hu
  have htext : slice m (last - u.length) last = u := by
    obtain ⟨t, ht, -⟩ := hline.rest
    exact slice_suffix ht
  rw [parseStartLine, hreq]
  simp only [hec, Option.isSome_none, Bool.false_eq_true, if_false]
  simp only [parseHead, hfresh, parseMessageHeader_of_block h.lines_ne htext]
  rw [← RequestHead.headers, h.headersContentType_headers, if_pos htype]
  rfl

/-- Round trip of a request head: no error, the method, the target, the map from
lower-cased names to first values, and the iterator on the CR LF CR LF. -/
theorem parseStartLine_head (h : RequestHead) (rest : ByteString) (m : ℕ → UInt8) (last : ℕ)
    (s : Cursor) (hec : s.ec = none) (hfresh : s.parser.headers = ∅)
    (ht : slice m s.it last = h.bytes ++ rest) (htype : h.contentType.supported = true) :
    (parseStartLine m last s).ec = none ∧
    (parseStartLine m last s).parser.method = h.method ∧
    (parseStartLine m last s).parser.target = h.target ∧
    (∀ name, (parseStartLine m last s).parser.headers.lookup name = h.field name) ∧
    s.it ≤ (parseStartLine m last s).it ∧
    slice m (parseStartLine m last s).it last = crlf ++ crlf ++ rest := by
  rw [parseStartLine_of_head h hec hfresh ht htype]
  obtain ⟨t, hbytes⟩ := h.exists_bytes_crlf
  rw [hbytes, List.append_assoc] at ht
  have hl := congrArg List.length ht
  have hend := slice_suffix ht
  have h4 : (crlf ++ crlf ++ rest).length = rest.length + 4 := by simp [crlf]
  rw [length_slice, List.length_append, h4] at hl
  rw [h4] at hend
  exact ⟨hec, rfl, rfl, h.lookup_headers, by dsimp only; omega, hend⟩

theorem blank_sp : ∀ c ∈ [sp], c = sp ∨ c = tab :=
  fun _ hc => Or.inl (List.mem_singleton.mp hc)

theorem rootTarget_ne_nil : ascii "/" ≠ [] := by
  decide +kernel

theorem isPathchar_rootTarget : ∀ c ∈ ascii "/", isPathchar c = true := by
  decide +kernel

theorem postMethod_ne_nil : ascii "POST" ≠ [] := by
  decide +kernel

theorem isAlpha_postMethod : ∀ c ∈ ascii "POST", isAlpha c = true := by
  decide +kernel

theorem isValidToken_contentType : ∀ c ∈ ascii "Content-Type", isValidToken c = true := by
  decide +kernel

theorem isValidToken_contentLength : ∀ c ∈ ascii "Content-Length", isValidToken c = true := by
  decide +kernel

theorem isPrint_letter : ∀ c ∈ ascii "a", isPrint c = true := by
  decide +kernel

theorem head?_letter_ne_sp : (ascii "a").head? ≠ some sp := by
  decide +kernel

def hostHead : RequestHead where
  method := ascii "GET"
  target := ascii "/"
  lines := [⟨ascii "Host", [sp], ascii "a",
      by decide +kernel, blank_sp, isPrint_letter, head?_letter_ne_sp⟩,
    ⟨ascii "Accept", [], ascii "a",
      by decide +kernel, by simp, isPrint_letter, head?_letter_ne_sp⟩]
  method_ne := by decide +kernel
  method_alpha := by decide +kernel
  target_ne := rootTarget_ne_nil
  target_path := isPathchar_rootTarget
  lines_ne := by simp
  lines_named := by decide +kernel

theorem parseStartLine_hostHead :
    let m := fun k => (hostHead.bytes ++ ascii "rest")[k]?.getD 0
    let s := parseStartLine m (hostHead.bytes ++ ascii "rest").length
      ⟨Parser.fresh .unknown, 0, none, []⟩
    s.ec = none ∧ s.parser.method = ascii "GET" ∧ s.parser.target = ascii "/" ∧
      (∀ name, s.parser.headers.lookup name = hostHead.field name) ∧ 0 ≤ s.it ∧
      slice m s.it (hostHead.bytes ++ ascii "rest").length = crlf ++ crlf ++ ascii "rest" :=
  parseStartLine_head hostHead (ascii "rest") _ _ _ rfl rfl (by rw [slice_getElem?])
    (by decide +kernel)

end Webcrown.Http
