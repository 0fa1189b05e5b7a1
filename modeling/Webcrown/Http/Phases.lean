import Webcrown.Http.Calls
import Webcrown.Http.RequestLine

/-!
# Phases over calls

What each phase makes of a call. The request line leaves a dead phase or goes on
into the header block; the media functions never enter `finished`; so a call
returns its request exactly when it finishes the parser, and a finished parser
stays as it is.
-/

namespace Webcrown.Http

open Bytes Common

/-- The cursor `parse` goes on with: behind the head on a first call. -/
def Parser.enter (p : Parser) (m : ℕ → UInt8) (size : ℕ) (ec : ErrorCode) : Cursor :=
  if p.parsePhase = .notStarted then
    parseStartLine m size ⟨{ p with parsePhase := .parseStartLineStarted }, 0, ec, []⟩
  else ⟨p, 0, ec, []⟩

theorem parse_eq (p : Parser) (m : ℕ → UInt8) (size : ℕ) (ec : ErrorCode) :
    parse p m size ec =
      if p.parsePhase = .notStarted ∧ size = 0 then .ok ⟨p, some .needMore, [], none⟩
      else if awaitsBody size (p.enter m size ec) then
        .ok ⟨{ (p.enter m size ec).parser with parsePhase := .parseBodyPending },
          (p.enter m size ec).ec, (p.enter m size ec).ranges, none⟩
      else parseContent m size (p.enter m size ec) := rfl

variable {m : ℕ → UInt8} {last : ℕ}

/-- `parse_start_line` goes on into the header block behind a request line, or leaves
a dead phase with an error. -/
theorem parseStartLine_cases {s : Cursor} (hec : s.ec = none) :
    (∃ n g u, RequestLine (slice m s.it last) n g u ∧
      parseStartLine m last s = parseHead m last
        { s with
          parser := { s.parser with
            method := n
            target := g
            protocolVersion := 11
            parsePhase := .parseProtocolVersionFinished }
          it := last - u.length }) ∨
    ((∀ n g u, ¬ RequestLine (slice m s.it last) n g u) ∧
      (parseStartLine m last s).ec ≠ none ∧ (parseStartLine m last s).ranges = s.ranges ∧
      ∃ phase n g v, ParsePhase.dead phase ∧ (parseStartLine m last s).parser =
        { s.parser with parsePhase := phase, method := n, target := g, protocolVersion := v }) := by
  by_cases hline : ∃ n g u, RequestLine (slice m s.it last) n g u
  · obtain ⟨n, g, u, hline⟩ := hline
    refine Or.inl ⟨n, g, u, hline, ?_⟩
    rw [parseStartLine, parseRequestLine_of_text hec hline]
    simp only [hec, Option.isSome_none, Bool.false_eq_true, if_false]
  · have herr : (parseRequestLine m last s).ec ≠ none := fun h =>
      hline (parseRequestLine_ec_none h)
    have hstop : parseStartLine m last s = parseRequestLine m last s := by
      rw [parseStartLine, if_pos (Option.isSome_iff_ne_none.mpr herr)]
    obtain ⟨phase, n, g, v, hdead, hranges, hparser⟩ := @parseRequestLine_frame m last s hec
    rw [hstop]
    exact Or.inr ⟨fun n g u h => hline ⟨n, g, u, h⟩, herr, hranges, phase, n, g, v, hdead, hparser⟩

theorem parsePhase_parseStartLine {s : Cursor} (hec : s.ec = none) :
    (parseStartLine m last s).parser.parsePhase = .parseContentTypeFinished ∨
      ParsePhase.dead (parseStartLine m last s).parser.parsePhase := by
  rcases @parseStartLine_cases m last s hec with
    ⟨n, g, u, -, h⟩ | ⟨-, -, -, phase, n, g, v, hdead, h⟩
  · rw [h]
    exact Or.inl rfl
  · rw [h]
    exact Or.inr hdead

theorem ParsePhase.dead.ne_finished {phase : ParsePhase} (h : phase.dead) : phase ≠ .finished := by
  rcases h with rfl | rfl | rfl | rfl <;> decide

/-- The fields `parse_media_type_begin` leaves alone. -/
structure BeginFrame (p q : Parser) : Prop where
  method : q.method = p.method
  target : q.target = p.target
  protocolVersion : q.protocolVersion = p.protocolVersion
  headers : q.headers = p.headers
  uploads : q.uploads = p.uploads
  headerContentType : q.headerContentType = p.headerContentType
  bufferSizeReaded : q.bufferSizeReaded = p.bufferSizeReaded
  multipartBuffer : q.multipartBuffer = p.multipartBuffer

theorem parsePhase_parseMessageHeader (it : ℕ) (hs : Headers) (ec : ErrorCode) :
    (parseMessageHeader m last it hs ec).2 = .parseHeaders ∨
      (parseMessageHeader m last it hs ec).2 = .parseHeadersFinished := by
  unfold parseMessageHeader
  split_ifs <;> simp

theorem parseUploadHeaders_frame (s : Cursor) :
    (parseUploadHeaders m last s).ranges = s.ranges ∧
      BeginFrame s.parser (parseUploadHeaders m last s).parser := by
  unfold parseUploadHeaders
  dsimp only
  split <;> exact ⟨rfl, ⟨rfl, rfl, rfl, rfl, rfl, rfl, rfl, rfl⟩⟩

theorem parsePhase_parseUploadHeaders (s : Cursor) :
    (parseUploadHeaders m last s).parser.parsePhase = .parseHeaders ∨
      (parseUploadHeaders m last s).parser.parsePhase = .parseHeadersFinished := by
  have h := @parsePhase_parseMessageHeader m last s.it ∅ s.ec
  unfold parseUploadHeaders
  dsimp only
  split <;> exact h

theorem parseOpeningBoundary_frame (s : Cursor) :
    (parseOpeningBoundary m last s).ranges = s.ranges ∧
      BeginFrame s.parser (parseOpeningBoundary m last s).parser := by
  simp only [parseOpeningBoundary]
  generalize scan (fun k => m k != dash) last _ = i
  split_ifs
  · exact ⟨rfl, ⟨rfl, rfl, rfl, rfl, rfl, rfl, rfl, rfl⟩⟩
  · exact ⟨rfl, ⟨rfl, rfl, rfl, rfl, rfl, rfl, rfl, rfl⟩⟩
  · exact ⟨rfl, ⟨rfl, rfl, rfl, rfl, rfl, rfl, rfl, rfl⟩⟩
  · obtain ⟨hranges, hframe⟩ := @parseUploadHeaders_frame m last
      ⟨_, _ + 2, s.ec, s.ranges⟩
    exact ⟨hranges, ⟨hframe.1, hframe.2, hframe.3, hframe.4, hframe.5, hframe.6, hframe.7,
      hframe.8⟩⟩

theorem parsePhase_parseOpeningBoundary (s : Cursor) :
    (parseOpeningBoundary m last s).parser.parsePhase = s.parser.parsePhase ∨
      (parseOpeningBoundary m last s).parser.parsePhase = .parseHeaders ∨
      (parseOpeningBoundary m last s).parser.parsePhase = .parseHeadersFinished := by
  simp only [parseOpeningBoundary]
  generalize scan (fun k => m k != dash) last _ = i
  split_ifs
  · exact Or.inl rfl
  · exact Or.inl rfl
  · exact Or.inl rfl
  · exact Or.inr (parsePhase_parseUploadHeaders _)

theorem parseMediaTypeBegin_frame (s : Cursor) :
    (parseMediaTypeBegin m last s).ranges = s.ranges ∧
      BeginFrame s.parser (parseMediaTypeBegin m last s).parser := by
  unfold parseMediaTypeBegin
  dsimp only
  split
  · exact ⟨rfl, ⟨rfl, rfl, rfl, rfl, rfl, rfl, rfl, rfl⟩⟩
  · split
    · exact ⟨rfl, ⟨rfl, rfl, rfl, rfl, rfl, rfl, rfl, rfl⟩⟩
    · obtain ⟨hranges, h⟩ := @parseOpeningBoundary_frame m last _
      exact ⟨hranges, ⟨h.1, h.2, h.3, h.4, h.5, h.6, h.7, h.8⟩⟩

def ParsePhase.begun (phase : ParsePhase) : Prop :=
  phase = .parseMediaType ∨ phase = .parseHeaders ∨ phase = .parseHeadersFinished

theorem parsePhase_parseMediaTypeBegin (s : Cursor) :
    (parseMediaTypeBegin m last s).parser.parsePhase.begun := by
  unfold parseMediaTypeBegin
  dsimp only
  split
  · exact Or.inl rfl
  · split
    · exact Or.inl rfl
    · exact parsePhase_parseOpeningBoundary _

theorem parsePhase_parseMediaTypeMore {s s' : Cursor}
    (h : parseMediaTypeMore m last s = .ok s') :
    s' = s ∨ s'.parser.parsePhase = .parseMediaTypeNeedMore ∨
      s'.parser.parsePhase = .parseMediaTypeFinished := by
  unfold parseMediaTypeMore at h
  split at h
  · cases h
    exact Or.inl rfl
  · dsimp only at h
    split_ifs at h
    · cases h
      exact Or.inr (Or.inl rfl)
    · cases h
      exact Or.inr (Or.inl rfl)
    · cases h
      exact Or.inr (Or.inr rfl)

theorem parseMediaTypeMore_ne_finished {s s' : Cursor} (h : parseMediaTypeMore m last s = .ok s')
    (hs : s.parser.parsePhase ≠ .finished) : s'.parser.parsePhase ≠ .finished := by
  rcases parsePhase_parseMediaTypeMore h with rfl | h | h
  · exact hs
  · simp [h]
  · simp [h]

theorem parseMediaType_ne_finished {s s' : Cursor} (h : parseMediaType m last s = .ok s')
    (hs : s.parser.parsePhase ≠ .finished) : s'.parser.parsePhase ≠ .finished := by
  unfold parseMediaType at h
  split_ifs at h with h1 h2
  · apply parseMediaTypeMore_ne_finished h
    rcases @parsePhase_parseMediaTypeBegin m last s with hb | hb | hb <;> simp [hb]
  · exact parseMediaTypeMore_ne_finished h hs
  · cases h
    exact hs

theorem parseMedia_ne_finished {s s' : Cursor} (h : parseMedia m last s = .ok s')
    (hs : s.parser.parsePhase ≠ .finished) : s'.parser.parsePhase ≠ .finished := by
  unfold parseMedia at h
  split_ifs at h
  · exact parseMediaType_ne_finished h hs
  · cases h
    exact hs

theorem request_finishMedia {s : Cursor} (hs : s.parser.parsePhase ≠ .finished) :
    (finishMedia s).request.isSome ↔ (finishMedia s).parser.parsePhase = .finished := by
  unfold finishMedia
  dsimp only
  split_ifs <;> simp [hs]

theorem request_parseContent {s : Cursor} {r : CallResult} (h : parseContent m last s = .ok r)
    (hs : s.parser.parsePhase ≠ .finished) :
    r.request.isSome ↔ r.parser.parsePhase = .finished := by
  unfold parseContent at h
  dsimp only at h
  split_ifs at h with hbody hmedia
  · unfold parseBody at h
    dsimp only at h
    split_ifs at h
    cases h
    simp
  · cases hm : parseMediaType m last s with
    | error s' => simp [hm, bind, Except.bind] at h
    | ok s' =>
      have hs' := parseMediaType_ne_finished hm hs
      cases hm' : parseMedia m last s' with
      | error s'' => simp [hm, hm', bind, Except.bind] at h
      | ok s'' =>
        simp only [hm, hm', bind, Except.bind, Except.ok.injEq] at h
        subst h
        exact request_finishMedia (parseMedia_ne_finished hm' hs')
  · cases hm' : parseMedia m last s with
    | error s'' => simp [hm', bind, Except.bind] at h
    | ok s'' =>
      simp only [hm', bind, Except.bind, Except.ok.injEq] at h
      subst h
      exact request_finishMedia (parseMedia_ne_finished hm' hs)

theorem enter_ne_finished {p : Parser} {m : ℕ → UInt8} {size : ℕ}
    (hp : p.parsePhase ≠ .finished) : (p.enter m size none).parser.parsePhase ≠ .finished := by
  unfold Parser.enter
  split_ifs with h
  · rcases @parsePhase_parseStartLine m size
      ⟨{ p with parsePhase := .parseStartLineStarted }, 0, none, []⟩ rfl with h | h
    · simp [h]
    · exact h.ne_finished
  · exact hp

namespace Parser

/-- A call on an unfinished parser returns a request exactly when it finishes it. -/
theorem request_call {p : Parser} {c : Chunk} {r : CallResult} (h : p.call c = .ok r)
    (hp : p.parsePhase ≠ .finished) : r.request.isSome ↔ r.parser.parsePhase = .finished := by
  rw [call, parse_eq] at h
  split_ifs at h
  · cases h
    simp [hp]
  · cases h
    simp
  · exact request_parseContent h (enter_ne_finished hp)

/-- Phases in which `parse` runs through without touching anything. -/
def Idle (p : Parser) : Prop :=
  p.parsePhase ≠ .notStarted ∧ p.parsePhase ≠ .parseContentTypeFinished ∧
    p.parsePhase ≠ .parseBodyPending ∧ p.parsePhase ≠ .parseMediaTypeNeedMore ∧
    p.parsePhase ≠ .parseMediaTypeFinished

theorem call_idle {p : Parser} (h : p.Idle) (c : Chunk) : p.call c = .ok ⟨p, none, [], none⟩ := by
  obtain ⟨h1, h2, h3, h4, h5⟩ := h
  rw [call, parse_eq]
  simp [enter, awaitsBody, parseContent, parseMedia, finishMedia, h1, h2, h3, h4, h5, bind,
    Except.bind]

theorem idle_of_finished {p : Parser} (h : p.parsePhase = .finished) : p.Idle := by
  simp [Idle, h]

theorem idle_of_dead {p : Parser} (h : p.parsePhase.dead) : p.Idle := by
  rcases h with h | h | h | h <;> simp [Idle, h]

end Parser

theorem Run.fixed {p q : Parser} {cs : List Call} (h : Run p cs q)
    (hfix : ∀ c, p.call c = .ok ⟨p, none, [], none⟩) :
    q = p ∧ ∀ c ∈ cs, c.before = p ∧ c.result = ⟨p, none, [], none⟩ := by
  induction h with
  | nil p => exact ⟨rfl, by simp⟩
  | @cons c cs q hrun ih =>
    have hc : c.result = ⟨c.before, none, [], none⟩ := by
      have := c.returned
      rw [hfix, Except.ok.injEq] at this
      exact this.symm
    rw [hc] at ih
    obtain ⟨hq, hcs⟩ := ih hfix
    refine ⟨hq, fun d hd => ?_⟩
    rcases List.mem_cons.mp hd with rfl | hd
    · exact ⟨rfl, hc⟩
    · exact hcs d hd

theorem Run.idle {p q : Parser} {cs : List Call} (h : Run p cs q) (hp : p.Idle) :
    q = p ∧ ∀ c ∈ cs, c.before = p ∧ c.result = ⟨p, none, [], none⟩ :=
  h.fixed (Parser.call_idle hp)

theorem Run.requests_le_one {p q : Parser} {cs : List Call} (h : Run p cs q) :
    (cs.countP fun c => c.result.request.isSome) ≤ 1 := by
  induction h with
  | nil => simp
  | @cons c cs q hrun ih =>
    rw [List.countP_cons]
    by_cases hreq : c.result.request.isSome
    · -- the request finishes the parser, and the rest of the run is idle
      have hidle : c.result.parser.Idle := by
        by_cases hp : c.before.parsePhase = .finished
        · have hc := c.returned
          rw [Parser.call_idle (Parser.idle_of_finished hp), Except.ok.injEq] at hc
          rw [← hc] at hreq
          simp at hreq
        · exact Parser.idle_of_finished ((Parser.request_call c.returned hp).mp hreq)
      have hrest : cs.countP (fun c => c.result.request.isSome) = 0 := by
        rw [List.countP_eq_zero]
        intro d hd
        simp [((hrun.idle hidle).2 d hd).2]
      simp [hrest, hreq]
    · simp [hreq, ih]

/-- One request a parser: at most one call of a run returns a request, the calls on
an unfinished parser return one exactly when they finish it, and the calls after
that change nothing and return nothing. -/
theorem at_most_one_request {p q : Parser} {cs : List Call} (h : Run p cs q) :
    (cs.countP fun c => c.result.request.isSome) ≤ 1 ∧
    (∀ c ∈ cs, c.before.parsePhase ≠ .finished →
      (c.result.request.isSome ↔ c.result.parser.parsePhase = .finished)) ∧
    (∀ as c bs, cs = as ++ c :: bs → c.result.parser.parsePhase = .finished →
      ∀ d ∈ bs, d.result.parser = c.result.parser ∧ d.result.request = none) ∧
    (p.parsePhase = .finished → ∀ c ∈ cs, c.result.parser = p ∧ c.result.request = none) := by
  refine ⟨h.requests_le_one, fun c _ hc => Parser.request_call c.returned hc, ?_, ?_⟩
  · rintro as c bs rfl hfin d hd
    have hd' := (h.at_call.2.idle (Parser.idle_of_finished hfin)).2 d hd
    simp [hd'.2]
  · intro hfin c hc
    simp [((h.idle (Parser.idle_of_finished hfin)).2 c hc).2]

def getChunk : Chunk where
  bytes := ascii "GET / HTTP/1.1\r\nHost: a\r\n\r\n"
  stale := fun _ => 0
  size_le := by decide +kernel

def getCall : Call := Call.of (Parser.fresh .unknown) getChunk (by decide +kernel)

def getCallAgain : Call := Call.of getCall.result.parser getChunk (by decide +kernel)

theorem at_most_one_request_getCall :
    ([getCall, getCallAgain].countP fun c => c.result.request.isSome) ≤ 1 ∧
    (∀ c ∈ [getCall, getCallAgain], c.before.parsePhase ≠ .finished →
      (c.result.request.isSome ↔ c.result.parser.parsePhase = .finished)) ∧
    (∀ as c bs, [getCall, getCallAgain] = as ++ c :: bs →
      c.result.parser.parsePhase = .finished →
      ∀ d ∈ bs, d.result.parser = c.result.parser ∧ d.result.request = none) ∧
    (getCall.before.parsePhase = .finished → ∀ c ∈ [getCall, getCallAgain],
      c.result.parser = getCall.before ∧ c.result.request = none) :=
  at_most_one_request (Run.cons (Run.cons (c := getCallAgain) (Run.nil _)))

end Webcrown.Http
