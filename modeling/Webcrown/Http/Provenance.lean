import Webcrown.Http.Reachability

/-!
# Where the bytes of a request come from

The scanners look behind a chunk, but they take nothing from there: every text of a
request stands, without a gap, in the bytes that the parser has been given, and an upload
in those of all its chunks together.
-/

namespace Webcrown.Http

open Bytes Common

/-- The entries of a header map stand in `seen`, their names up to their case. -/
def HeadersFrom (seen : ByteString) (headers : Headers) : Prop :=
  ∀ name value, headers.lookup name = some value →
    (∃ n, n <:+: seen ∧ name = toLower n) ∧ value <:+: seen

/-- Every text that a parser holds stands in `seen`. -/
structure Parser.From (seen : ByteString) (p : Parser) : Prop where
  method : p.method <:+: seen
  target : p.target <:+: seen
  headers : HeadersFrom seen p.headers
  uploadBodyHeaders : HeadersFrom seen p.uploadBodyHeaders
  multipartBuffer : p.multipartBuffer <:+: seen
  uploads : ∀ u ∈ p.uploads, u.bytes <:+: seen ∧ HeadersFrom seen u.headers
  boundaryValue : p.boundaryValue <:+: seen

/-- Between calls, what is collected of an upload is what has come in last. -/
structure Parser.Traced (seen : ByteString) (p : Parser) : Prop extends p.From seen where
  collected : p.parsePhase = .parseMediaTypeNeedMore → p.multipartBuffer <:+ seen

/-- The texts of a request stand in `seen`, and its body ends the chunk that finished it. -/
structure HttpRequest.From (seen : ByteString) (c : Chunk) (request : HttpRequest) : Prop where
  method : ∃ m, m <:+: seen ∧ request.method = toMethod m
  target : request.target <:+: seen
  headers : HeadersFrom seen request.headers
  body : request.body <:+ c.bytes
  uploads : ∀ u ∈ request.uploads, u.bytes <:+: seen ∧ HeadersFrom seen u.headers

section Texts

variable {seen seen' : ByteString} {m : ℕ → UInt8} {last it : ℕ} {ec : ErrorCode}
  {headers : Headers}

theorem headersFrom_empty (seen : ByteString) : HeadersFrom seen ∅ := fun name value h => by
  simp at h

theorem HeadersFrom.mono (h : HeadersFrom seen headers) (hseen : seen <:+: seen') :
    HeadersFrom seen' headers := fun name value hlookup =>
  have ⟨⟨n, hn, hname⟩, hvalue⟩ := h name value hlookup
  ⟨⟨n, hn.trans hseen, hname⟩, hvalue.trans hseen⟩

theorem HeadersFrom.insertNew {n v : ByteString} (h : HeadersFrom seen headers)
    (hn : n <:+: seen) (hv : v <:+: seen) :
    HeadersFrom seen (headers.insertNew (toLower n) v) := by
  intro name value hlookup
  rw [Headers.lookup_insertNew] at hlookup
  rcases Option.or_eq_some_iff.mp hlookup with hold | ⟨-, hnew⟩
  · exact h name value hold
  · split_ifs at hnew with hname
    obtain rfl := Option.some.inj hnew
    exact ⟨⟨n, hn, hname⟩, hv⟩

theorem Parser.From.mono {p : Parser} (h : p.From seen) (hseen : seen <:+: seen') :
    p.From seen' where
  method := h.method.trans hseen
  target := h.target.trans hseen
  headers := h.headers.mono hseen
  uploadBodyHeaders := h.uploadBodyHeaders.mono hseen
  multipartBuffer := h.multipartBuffer.trans hseen
  uploads u hu := ⟨(h.uploads u hu).1.trans hseen, (h.uploads u hu).2.mono hseen⟩
  boundaryValue := h.boundaryValue.trans hseen

theorem slice_infix {i j : ℕ} (hj : j ≤ last) : slice m i j <:+: slice m 0 last := by
  rcases le_total j i with hle | hle
  · rw [slice_of_le m hle]
    exact List.nil_infix
  · refine ⟨slice m 0 i, slice m j last, ?_⟩
    rw [slice_append m (Nat.zero_le i) hle, slice_append m (Nat.zero_le j) hj]

theorem slice_suffix_last (m : ℕ → UInt8) (last it : ℕ) : slice m it last <:+ slice m 0 last := by
  rcases le_total last it with hle | hle
  · rw [slice_of_le m hle]
    exact List.nil_suffix
  · exact ⟨slice m 0 it, slice_append m (Nat.zero_le it) hle⟩

/-- The texts of a request line, also of one that is not accepted. -/
theorem texts_parseRequestLine {s : Cursor} :
    ((parseRequestLine m last s).parser.method = s.parser.method ∨
        (parseRequestLine m last s).parser.method <:+: slice m 0 last) ∧
      ((parseRequestLine m last s).parser.target = s.parser.target ∨
        (parseRequestLine m last s).parser.target <:+: slice m 0 last) := by
  have hmethod : (parseMethod m last s.it s.ec).text <:+: slice m 0 last := by
    simp only [parseMethod]
    split_ifs
    all_goals first | exact List.nil_infix | exact slice_infix (by omega)
  have htarget : ∀ it ec, (parseTarget m last it ec).text <:+: slice m 0 last := by
    intro it ec
    simp only [parseTarget]
    split_ifs
    all_goals first | exact List.nil_infix | exact slice_infix (by omega)
  simp only [parseRequestLine]
  split_ifs
  · exact ⟨.inl rfl, .inl rfl⟩
  · exact ⟨.inr hmethod, .inl rfl⟩
  all_goals exact ⟨.inr hmethod, .inr (htarget _ _)⟩

theorem text_parseMessageHeaderName (h : it ≤ last) :
    (parseMessageHeaderName m last it ec).text <:+: slice m 0 last := by
  unfold parseMessageHeaderName
  dsimp only
  split_ifs
  · exact List.nil_infix
  · exact slice_infix (scan_le h)

theorem text_parseMessageHeaderValue :
    (parseMessageHeaderValue m last it ec).text <:+: slice m 0 last := by
  unfold parseMessageHeaderValue
  dsimp only
  split_ifs with hfirst
  · exact List.nil_infix
  · exact List.nil_infix
  · exact slice_infix (scan_le (by omega))

theorem headersFrom_headerLoop (hseen : slice m 0 last <:+: seen) (fuel it : ℕ)
    (h : HeadersFrom seen headers) (ec : ErrorCode) :
    HeadersFrom seen (headerLoop m last fuel it headers ec).headers := by
  induction fuel generalizing it headers ec with
  | zero => exact h
  | succ fuel ih =>
    simp only [headerLoop]
    split_ifs with hlt
    · exact h.insertNew ((text_parseMessageHeaderName hlt.le).trans hseen)
        (text_parseMessageHeaderValue.trans hseen)
    · exact ih _ (h.insertNew ((text_parseMessageHeaderName hlt.le).trans hseen)
        (text_parseMessageHeaderValue.trans hseen)) _
    · exact h

theorem headersFrom_parseMessageHeader (hseen : slice m 0 last <:+: seen)
    (h : HeadersFrom seen headers) :
    HeadersFrom seen (parseMessageHeader m last it headers ec).1.headers := by
  unfold parseMessageHeader
  split_ifs
  · exact h
  · exact headersFrom_headerLoop hseen _ _ h ec

end Texts

theorem headersFrom_parseMediaTypeBegin {seen : ByteString} {m : ℕ → UInt8} {last : ℕ}
    (hseen : slice m 0 last <:+: seen) {s : Cursor}
    (h : HeadersFrom seen s.parser.uploadBodyHeaders) :
    HeadersFrom seen (parseMediaTypeBegin m last s).parser.uploadBodyHeaders := by
  have hpart : ∀ t : Cursor, HeadersFrom seen t.parser.uploadBodyHeaders →
      HeadersFrom seen (parseUploadHeaders m last t).parser.uploadBodyHeaders := by
    intro t ht
    unfold parseUploadHeaders
    dsimp only
    split
    · exact ht
    · exact headersFrom_parseMessageHeader hseen (headersFrom_empty seen)
  have hopening : ∀ t : Cursor, HeadersFrom seen t.parser.uploadBodyHeaders →
      HeadersFrom seen (parseOpeningBoundary m last t).parser.uploadBodyHeaders := by
    intro t ht
    simp only [parseOpeningBoundary]
    generalize scan (fun k => m k != dash) last _ = i
    split_ifs
    · exact ht
    · exact ht
    · exact ht
    · exact hpart _ ht
  unfold parseMediaTypeBegin
  dsimp only
  split
  · exact h
  · split
    · exact h
    · exact hopening _ h

theorem boundaryValue_parseMediaTypeBegin {seen : ByteString} {m : ℕ → UInt8} {last : ℕ}
    {s : Cursor} (hheaders : HeadersFrom seen s.parser.headers)
    (h : s.parser.boundaryValue <:+: seen) :
    (parseMediaTypeBegin m last s).parser.boundaryValue <:+: seen := by
  have hopening : ∀ t : Cursor,
      (parseOpeningBoundary m last t).parser.boundaryValue = t.parser.boundaryValue := by
    intro t
    simp only [parseOpeningBoundary]
    generalize scan (fun k => m k != dash) last _ = i
    split_ifs
    · rfl
    · rfl
    · rfl
    · exact (parseUploadHeaders_spec _).1
  cases hv : s.parser.headers.lookup (ascii "content-type") with
  | none => simpa [parseMediaTypeBegin, hv] using h
  | some v =>
    cases hb : boundaryParameter v with
    | none => simpa [parseMediaTypeBegin, hv, hb] using h
    | some b =>
      rw [parseMediaTypeBegin_eq hv hb, hopening]
      exact (boundaryParameter_suffix hb).isInfix.trans (hheaders _ v hv).2

section Calls

variable {seen : ByteString} {p : Parser} {c : Chunk} {r : CallResult}

/-- What a call makes of a parser whose texts stand in `seen`. -/
def Traces (seen : ByteString) (c : Chunk) (r : CallResult) : Prop :=
  r.parser.Traced (seen ++ c.bytes) ∧
    ∀ request, r.request = some request → request.From (seen ++ c.bytes) c

theorem Traced.append (h : p.Traced seen) (c : Chunk)
    (hphase : p.parsePhase ≠ .parseMediaTypeNeedMore) : p.Traced (seen ++ c.bytes) :=
  ⟨h.toFrom.mono (List.prefix_append seen c.bytes).isInfix, fun hcollect => absurd hcollect hphase⟩

theorem traces_same (h : p.Traced seen) (hphase : p.parsePhase ≠ .parseMediaTypeNeedMore)
    (ec : ErrorCode) (ranges : List (ℕ × ℕ)) : Traces seen c ⟨p, ec, ranges, none⟩ :=
  ⟨Traced.append h c hphase, fun request hrequest => by cases hrequest⟩

/-- A call that takes a part of an upload, behind what is collected already. -/
theorem traces_part {p : Parser} {v : ByteString} {part : ByteString × Bool} {it : ℕ}
    {ec : ErrorCode} {ranges : List (ℕ × ℕ)} (h : p.From (seen ++ c.bytes))
    (hpart : p.multipartBuffer ++ part.1 <:+: seen ++ c.bytes)
    (hopen : part.2 = false → p.multipartBuffer ++ part.1 <:+ seen ++ c.bytes) :
    Traces seen c (finishMedia ⟨p.takePart v part, it, ec, ranges⟩) := by
  have huploads : ∀ u ∈ p.uploads ++ [⟨p.multipartBuffer ++ part.1, p.uploadBodyHeaders⟩],
      u.bytes <:+: seen ++ c.bytes ∧ HeadersFrom (seen ++ c.bytes) u.headers := by
    intro u hu
    rcases List.mem_append.mp hu with hu | hu
    · exact h.uploads u hu
    · obtain rfl := List.mem_singleton.mp hu
      exact ⟨hpart, h.uploadBodyHeaders⟩
  by_cases hmore : part.2 = false ∧ p.bufferSizeReaded + part.1.length < sizeT (atoi v)
  · have htake : p.takePart v part = { p with
        bufferSizeReaded := p.bufferSizeReaded + part.1.length
        multipartBuffer := p.multipartBuffer ++ part.1
        parsePhase := .parseMediaTypeNeedMore } := by
      simp [Parser.takePart, hmore.1, hmore.2]
    rw [htake, finishMedia_of_ne (by simp)]
    exact ⟨⟨⟨h.method, h.target, h.headers, h.uploadBodyHeaders, hpart, h.uploads,
      h.boundaryValue⟩, fun _ => hopen hmore.1⟩, fun request hrequest => by cases hrequest⟩
  · have htake : p.takePart v part = { p with
        bufferSizeReaded := p.bufferSizeReaded + part.1.length
        multipartBuffer := p.multipartBuffer ++ part.1
        uploads := p.uploads ++ [⟨p.multipartBuffer ++ part.1, p.uploadBodyHeaders⟩]
        parsePhase := .parseMediaTypeFinished } := by
      unfold Parser.takePart
      exact if_neg fun hcond => hmore (by simpa using hcond)
    rw [htake, finishMedia, if_pos rfl]
    refine ⟨⟨⟨h.method, h.target, h.headers, h.uploadBodyHeaders, hpart, huploads,
      h.boundaryValue⟩, fun hphase => by cases hphase⟩, fun request hrequest => ?_⟩
    obtain rfl := Option.some.inj hrequest
    exact ⟨⟨p.method, h.method, rfl⟩, h.target, h.headers, List.nil_suffix, huploads⟩

theorem traces_body {s : Cursor} (h : s.parser.From (seen ++ c.bytes))
    (hr : parseBody c.memory c.size s = .ok r) : Traces seen c r := by
  unfold parseBody at hr
  dsimp only at hr
  split_ifs at hr
  obtain rfl := Except.ok.inj hr
  refine ⟨⟨⟨h.method, h.target, h.headers, h.uploadBodyHeaders, h.multipartBuffer, h.uploads,
    h.boundaryValue⟩, fun hphase => by cases hphase⟩, fun request hrequest => ?_⟩
  obtain rfl := Option.some.inj hrequest
  refine ⟨⟨_, h.method, rfl⟩, h.target, h.headers, ?_, fun u hu => by cases hu⟩
  have hsuffix := slice_suffix_last c.memory c.size s.it
  rwa [Chunk.slice_memory] at hsuffix

theorem from_headCursor {n g u : ByteString} (t : ContentType) (h : RequestLine c.bytes n g u) :
    (headCursor t c n g u).parser.From (seen ++ c.bytes) := by
  have hchunk : c.bytes <:+: seen ++ c.bytes := (List.suffix_append seen c.bytes).isInfix
  have hseen : slice c.memory 0 c.size <:+: seen ++ c.bytes := by
    rw [Chunk.slice_memory]
    exact hchunk
  obtain ⟨x, y, hline, -⟩ := h
  have hheaders : HeadersFrom (seen ++ c.bytes)
      (parseMessageHeader c.memory c.size (c.size - u.length) ∅ none).1.headers :=
    headersFrom_parseMessageHeader hseen (headersFrom_empty (seen ++ c.bytes))
  rw [parseMessageHeader_eq_blockEnd] at hheaders
  refine ⟨?_, ?_, hheaders, headersFrom_empty _, List.nil_infix, (fun u hu => nomatch hu),
    List.nil_infix⟩
  · refine List.IsInfix.trans ⟨[], sp :: (g ++ sp :: (ascii "HTTP/1.1" ++ x :: y :: u)), ?_⟩ hchunk
    rw [hline]
    rfl
  · refine List.IsInfix.trans ⟨n ++ [sp], sp :: (ascii "HTTP/1.1" ++ x :: y :: u), ?_⟩ hchunk
    rw [hline]
    simp [headCursor, Parser.headRead]

theorem traces_media {n g u : ByteString} {t : ContentType} (h : RequestLine c.bytes n g u)
    (htype : (headCursor t c n g u).parser.headerContentType.takesMedia = true)
    (hr : parseContent c.memory c.size (headCursor t c n g u) = .ok r) : Traces seen c r := by
  have hfrom : (headCursor t c n g u).parser.From (seen ++ c.bytes) := from_headCursor t h
  set s := headCursor t c n g u with hs
  obtain ⟨k, hk⟩ : ∃ k, parseMediaTypeBegin c.memory c.size s = k := ⟨_, rfl⟩
  obtain ⟨hok, hit⟩ := @parseMediaTypeBegin_spec c.memory c.size s rfl rfl
    (fun name v hv => print_headers (printValues_blockEnd _ _ _ _) hv)
    (it_headCursor_le t c n g u)
  have hframe := (@parseMediaTypeBegin_frame c.memory c.size s).2
  have hbegun := (@parsePhase_parseMediaTypeBegin c.memory c.size s).ne
  have hseen : slice c.memory 0 c.size <:+: seen ++ c.bytes := by
    rw [Chunk.slice_memory]
    exact (List.suffix_append seen c.bytes).isInfix
  have hupload := headersFrom_parseMediaTypeBegin hseen hfrom.uploadBodyHeaders
  have hboundary := @boundaryValue_parseMediaTypeBegin _ c.memory c.size s hfrom.headers
    hfrom.boundaryValue
  rw [hk] at hok hit hframe hbegun hupload hboundary
  have hempty : k.parser.multipartBuffer = [] := hframe.multipartBuffer
  have hkfrom : k.parser.From (seen ++ c.bytes) :=
    ⟨hframe.method ▸ hfrom.method, hframe.target ▸ hfrom.target, hframe.headers ▸ hfrom.headers,
      hupload, hframe.multipartBuffer ▸ hfrom.multipartBuffer, hframe.uploads ▸ hfrom.uploads,
      hboundary⟩
  cases hcl : k.parser.headers.lookup (ascii "content-length") with
  | none =>
    rw [parseContent_media_of_none hk rfl htype hcl, Except.ok.injEq] at hr
    subst hr
    exact ⟨⟨hkfrom, fun hphase => absurd hphase hbegun.1⟩, fun request hrequest => by
      cases hrequest⟩
  | some v =>
    rcases lt_trichotomy k.it c.size with hlt | he | hgt
    · have hmax : c.size ≤ maxSize := c.size_le
      obtain ⟨part, hpart⟩ : ∃ part, uploadPart k.parser.pattern (slice c.memory k.it c.size) =
        part := ⟨_, rfl⟩
      have hprefix := uploadPart_isPrefix k.parser.pattern (slice c.memory k.it c.size)
      have hlength := hprefix.length_le
      rw [hpart] at hprefix hlength
      rw [length_slice] at hlength
      have hbuf : k.parser.bufferSizeReaded = 0 := hframe.bufferSizeReaded
      have hsum : k.parser.bufferSizeReaded + part.1.length ≤ maxSize := by omega
      rw [parseContent_media_part hk rfl htype hcl hok hlt hpart hsum, Except.ok.injEq] at hr
      subst hr
      have htail : slice c.memory k.it c.size <:+ seen ++ c.bytes := by
        have hsuffix := slice_suffix_last c.memory c.size k.it
        rw [Chunk.slice_memory] at hsuffix
        exact hsuffix.trans (List.suffix_append seen c.bytes)
      refine traces_part hkfrom ?_ fun hopen => ?_
      · rw [hempty, List.nil_append]
        exact hprefix.isInfix.trans htail.isInfix
      · have hwhole := uploadPart_of_open (b := k.parser.pattern)
          (t := slice c.memory k.it c.size) (by rw [hpart, hopen])
        rw [hempty, List.nil_append, ← hpart, hwhole]
        exact htail
    · rw [parseContent_media_at_end hk rfl htype hcl he, Except.ok.injEq] at hr
      subst hr
      refine ⟨⟨⟨hkfrom.method, hkfrom.target, hkfrom.headers, hkfrom.uploadBodyHeaders,
        hkfrom.multipartBuffer, hkfrom.uploads, hkfrom.boundaryValue⟩, fun _ => ?_⟩,
        fun request hrequest => by cases hrequest⟩
      rw [show k.parser.multipartBuffer = [] from hempty]
      exact List.nil_suffix
    · obtain ⟨s', herr⟩ := parseMediaTypeMore_overrun c.memory hcl hgt hit
        (show k.parser.bufferSizeReaded = 0 from hframe.bufferSizeReaded)
      rw [parseContent_media rfl htype, hk, herr] at hr
      cases hr

theorem traces_fresh {t : ContentType} (hc : c.bytes ≠ [])
    (hr : (Parser.fresh t).call c = .ok r) :
    Traces seen c r := by
  by_cases hline : ∃ n g u, RequestLine c.bytes n g u
  · obtain ⟨n, g, u, hline⟩ := hline
    have hfrom : (headCursor t c n g u).parser.From (seen ++ c.bytes) :=
      from_headCursor t hline
    rw [Parser.call_of_requestLine t hline] at hr
    split_ifs at hr
    · obtain rfl := Except.ok.inj hr
      exact ⟨⟨⟨hfrom.method, hfrom.target, hfrom.headers, hfrom.uploadBodyHeaders,
        hfrom.multipartBuffer, hfrom.uploads, hfrom.boundaryValue⟩, fun hphase => by cases hphase⟩,
        fun request hrequest => by cases hrequest⟩
    · cases hsupp : (headCursor t c n g u).parser.headerContentType.supported with
      | false =>
        have hunknown := headersContentType_of_unsupported hsupp
        rw [parseContent_unknown rfl hunknown] at hr
        obtain rfl := Except.ok.inj hr
        exact ⟨⟨hfrom, fun hphase => by cases hphase⟩, fun request hrequest => by cases hrequest⟩
      | true =>
        rcases ContentType.takesBody_or_takesMedia hsupp with hbody | hmedia
        · rw [Parser.parseContent_body (Or.inl rfl) hbody] at hr
          exact traces_body hfrom hr
        · exact traces_media hline hmedia hr
  · simp only [not_exists] at hline
    obtain ⟨s, hs, hec, hidle, hcall⟩ :=
      Parser.call_of_not_requestLine (p := Parser.fresh t) rfl hc hline
    rw [hcall] at hr
    obtain rfl := Except.ok.inj hr
    set s₀ : Cursor :=
      ⟨{ Parser.fresh t with parsePhase := .parseStartLineStarted }, 0, none, []⟩ with hs₀
    have hchunk : c.bytes <:+: seen ++ c.bytes := (List.suffix_append seen c.bytes).isInfix
    have hstop : s = parseRequestLine c.memory c.size s₀ := by
      rw [hs, parseStartLine]
      refine if_pos (Option.isSome_iff_ne_none.mpr fun hnone => ?_)
      obtain ⟨n, g, u, hfound⟩ := parseRequestLine_ec_none hnone
      rw [hs₀, Chunk.slice_memory] at hfound
      exact hline n g u hfound
    obtain ⟨phase, n, g, v, -, -, hparser⟩ := @parseRequestLine_frame c.memory c.size s₀ rfl
    obtain ⟨hmethod, htarget⟩ := @texts_parseRequestLine c.memory c.size s₀
    rw [Chunk.slice_memory] at hmethod htarget
    have hempty : ∀ text : ByteString, text = [] ∨ text <:+: c.bytes →
        text <:+: seen ++ c.bytes := by
      rintro text (rfl | htext)
      · exact List.nil_infix
      · exact htext.trans hchunk
    rw [← hstop] at hmethod htarget hparser
    refine ⟨⟨⟨hempty _ hmethod, hempty _ htarget, ?_, ?_, ?_, ?_, ?_⟩,
      fun hcollect => absurd hcollect hidle.2.2.2.1⟩, fun request hrequest => by cases hrequest⟩
    · rw [hparser]
      exact headersFrom_empty _
    · rw [hparser]
      exact headersFrom_empty _
    · rw [hparser]
      exact List.nil_infix
    · rw [hparser]
      intro u hu
      cases hu
    · rw [hparser]
      exact List.nil_infix

/-- Every call keeps the invariant, and returns what stands in the bytes given so far. -/
theorem traces_call (hp : Reachable p) (h : p.Traced seen) (hr : p.call c = .ok r) :
    Traces seen c r := by
  have hinv := hp.inv
  by_cases hidle : p.Idle
  · rw [Parser.call_idle hidle] at hr
    obtain rfl := Except.ok.inj hr
    exact traces_same h hidle.2.2.2.1 _ _
  by_cases hfresh : p.parsePhase = .notStarted
  · obtain ⟨t, rfl⟩ := hinv.fresh hfresh
    rcases eq_or_ne c.bytes [] with hnil | hne
    · have hsize : c.size = 0 := by simp [Chunk.size, hnil]
      rw [Parser.call, parse_eq, if_pos ⟨hfresh, hsize⟩] at hr
      obtain rfl := Except.ok.inj hr
      exact traces_same h (by simp [hfresh]) _ _
    · exact traces_fresh hne hr
  by_cases hrejected : p.parsePhase = .parseContentTypeFinished
  · have hunknown := hinv.rejected hrejected
    have henter : p.enter c.memory c.size none = ⟨p, 0, none, []⟩ := by
      simp [Parser.enter, hrejected]
    rw [Parser.call, parse_eq, if_neg (by simp [hrejected]), henter] at hr
    split_ifs at hr
    · obtain rfl := Except.ok.inj hr
      have hmono := h.toFrom.mono (List.prefix_append seen c.bytes).isInfix
      exact ⟨⟨⟨hmono.method, hmono.target, hmono.headers, hmono.uploadBodyHeaders,
        hmono.multipartBuffer, hmono.uploads, hmono.boundaryValue⟩, fun hphase => by cases hphase⟩,
        fun request hrequest => by cases hrequest⟩
    · rw [parseContent_unknown hrejected hunknown] at hr
      obtain rfl := Except.ok.inj hr
      exact traces_same h (by simp [hrejected]) _ _
  by_cases hpending : p.parsePhase = .parseBodyPending
  · cases hbody : p.headerContentType.takesBody with
    | true =>
      have henter : p.enter c.memory c.size none = ⟨p, 0, none, []⟩ := by
        simp [Parser.enter, hpending]
      rw [Parser.call, parse_eq, henter, if_neg (by simp [hpending]),
        if_neg (by simp [awaitsBody, hpending]),
        Parser.parseContent_body (Or.inr hpending) hbody] at hr
      exact traces_body (h.toFrom.mono (List.prefix_append seen c.bytes).isInfix) hr
    | false =>
      rw [Parser.call_pending_media c hpending hbody] at hr
      obtain rfl := Except.ok.inj hr
      exact traces_same h (by simp [hpending]) _ _
  have hcollect : p.parsePhase = .parseMediaTypeNeedMore := by
    by_contra hne
    exact hidle ⟨hfresh, hrejected, hpending, hne, hinv.settled⟩
  obtain ⟨v, hsearch⟩ := hinv.collecting hcollect
  have hbuffer := h.collected hcollect
  rcases eq_or_ne c.bytes [] with hnil | hne
  · rw [Parser.call_needMore_nil hcollect hnil] at hr
    obtain rfl := Except.ok.inj hr
    refine ⟨?_, fun request hrequest => by cases hrequest⟩
    rw [hnil, List.append_nil]
    exact h
  · have hsize := Parser.le_maxSize_of_call_needMore hcollect hsearch.contentLength
      hsearch.boundary hne hsearch.readed_le_max hr
    have hprefix := uploadPart_isPrefix p.pattern c.bytes
    rw [Parser.call_needMore hcollect hsearch.contentLength hsearch.boundary hne rfl hsize] at hr
    obtain rfl := Except.ok.inj hr
    obtain ⟨front, hfront⟩ := hbuffer
    obtain ⟨back, hback⟩ := hprefix
    refine traces_part (h.toFrom.mono (List.prefix_append seen c.bytes).isInfix)
      ⟨front, back, ?_⟩ fun hopen => ⟨front, ?_⟩
    · rw [← List.append_assoc, hfront, List.append_assoc, hback]
    · rw [uploadPart_of_open hopen, ← List.append_assoc, hfront]

theorem traced_fresh (t : ContentType) : (Parser.fresh t).Traced [] where
  method := List.nil_infix
  target := List.nil_infix
  headers := headersFrom_empty []
  uploadBodyHeaders := headersFrom_empty []
  multipartBuffer := List.nil_infix
  uploads u hu := by cases hu
  boundaryValue := List.nil_infix
  collected hphase := by cases hphase

end Calls

def input (cs : List Call) : ByteString := (cs.map fun c => c.chunk.bytes).flatten

theorem input_append (cs ds : List Call) : input (cs ++ ds) = input cs ++ input ds := by
  simp [input]

theorem input_cons (c : Call) (cs : List Call) : input (c :: cs) = c.chunk.bytes ++ input cs := rfl

theorem Run.traced {p q : Parser} {cs : List Call} {seen : ByteString} (h : Run p cs q)
    (hp : Reachable p) (htraced : p.Traced seen) : q.Traced (seen ++ input cs) := by
  induction h generalizing seen with
  | nil p =>
    rw [show input [] = [] from rfl, List.append_nil]
    exact htraced
  | @cons c cs q _ ih =>
    have hstep := (traces_call hp htraced c.returned).1
    rw [input_cons, ← List.append_assoc]
    exact ih (hp.call c.returned) hstep

theorem Run.request_from {t : ContentType} {as bs : List Call} {c : Call} {q : Parser}
    {request : HttpRequest} (h : Run (Parser.fresh t) (as ++ c :: bs) q)
    (hrequest : c.result.request = some request) :
    request.From (input (as ++ [c])) c.chunk := by
  obtain ⟨hrun, -⟩ := h.at_call
  have htraced := hrun.traced (reachable_fresh t) (traced_fresh t)
  rw [input_append, input_cons, show input [] = [] from rfl, List.append_nil]
  exact (traces_call ⟨t, as, hrun⟩ htraced c.returned).2 request hrequest

/-- What a request says, and what a parser keeps for later, has come in with its own chunks:
nothing of it is what the receive buffer held before. -/
theorem requests_stand_in_input {t : ContentType} {cs : List Call} {q : Parser}
    (h : Run (Parser.fresh t) cs q) :
    q.From (input cs) ∧ ∀ as c bs request, cs = as ++ c :: bs → c.result.request = some request →
      request.From (input (as ++ [c])) c.chunk := by
  refine ⟨(h.traced (reachable_fresh t) (traced_fresh t)).toFrom, ?_⟩
  rintro as c bs request rfl hrequest
  exact h.request_from hrequest

theorem requests_stand_in_input_getCall :
    ∃ q, Run (Parser.fresh .unknown) [getCall] q ∧ q.From (input [getCall]) ∧
      ∀ as c bs request, [getCall] = as ++ c :: bs → c.result.request = some request →
        request.From (input (as ++ [c])) c.chunk :=
  have hrun : Run (Parser.fresh .unknown) [getCall] getCall.result.parser :=
    Run.cons (c := getCall) (Run.nil _)
  ⟨getCall.result.parser, hrun, requests_stand_in_input hrun⟩

end Webcrown.Http
