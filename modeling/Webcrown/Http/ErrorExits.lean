import Webcrown.Http.HeadText

/-!
# What errors stop

An error ends the parser when the request line raises it or when the type is not
supported. Errors of a header block, of a missing boundary and of part headers are
reported, but the parser goes on, except where nothing is left to go on with.
-/

namespace Webcrown.Http

open Bytes Common BlockText

/-- First chunks on which an error is set and the parser goes on: `z` is the memory
behind the chunk. -/
inductive ErrorIgnored (z : ℕ → UInt8) (t : ByteString) : Prop
  /-- in the header block -/
  | inHead {n g u} : RequestLine t n g u → HeadError z u →
      (headType z u).takesBody = true ∨ Searches z u → ErrorIgnored z t
  /-- an upload without a boundary -/
  | noBoundary {n g u w} : RequestLine t n g u → Searches z u →
      (headHeaders z u).lookup (ascii "content-type") = some w → boundaryParameter w = none →
      ErrorIgnored z t
  /-- in the part headers -/
  | inPart {n g u w b x y} : RequestLine t n g u → Searches z u →
      (headHeaders z u).lookup (ascii "content-type") = some w → boundaryParameter w = some b →
      openingText (contentText u) = x ++ b ++ (crlf ++ y) →
      find b (openingText (contentText u)) = some x.length → ¬[dash, dash] <:+ b →
      HeadError z y → ErrorIgnored z t

/-- States from which no call returns a request. -/
def Parser.Silent (p : Parser) : Prop :=
  p.Idle ∨ (p.parsePhase = .parseContentTypeFinished ∧ p.headerContentType = .unknown) ∨
    (p.parsePhase = .parseBodyPending ∧ p.headerContentType.takesBody = false)

theorem Parser.Silent.call {p : Parser} {c : Chunk} {r : CallResult} (h : p.Silent)
    (hr : p.call c = .ok r) : r.request = none ∧ r.parser.Silent := by
  rcases h with hidle | ⟨hphase, htype⟩ | ⟨hphase, htype⟩
  · rw [call_idle hidle, Except.ok.injEq] at hr
    subst hr
    exact ⟨rfl, Or.inl hidle⟩
  · have henter : p.enter c.memory c.size none = ⟨p, 0, none, []⟩ := by simp [enter, hphase]
    rw [Parser.call, parse_eq, if_neg (by simp [hphase]), henter] at hr
    split_ifs at hr
    · cases hr
      exact ⟨rfl, Or.inr (Or.inr ⟨rfl, by simp [htype, ContentType.takesBody]⟩)⟩
    · rw [parseContent_unknown hphase htype, Except.ok.injEq] at hr
      subst hr
      exact ⟨rfl, Or.inr (Or.inl ⟨hphase, htype⟩)⟩
  · rw [call_pending_media c hphase htype, Except.ok.injEq] at hr
    subst hr
    exact ⟨rfl, Or.inr (Or.inr ⟨hphase, htype⟩)⟩

theorem Run.silent {p q : Parser} {cs : List Call} (h : Run p cs q) (hp : p.Silent) :
    ∀ c ∈ cs, c.result.request = none := by
  induction h with
  | nil => simp
  | @cons c cs q hrun ih =>
    obtain ⟨hnone, hnext⟩ := hp.call c.returned
    intro d hd
    rcases List.mem_cons.mp hd with rfl | hd
    · exact hnone
    · exact ih hnext d hd

section Ec

variable {m : ℕ → UInt8} {last : ℕ}

theorem ec_parseMediaTypeMore {s s' : Cursor} (h : parseMediaTypeMore m last s = .ok s') :
    s'.ec = s.ec := by
  unfold parseMediaTypeMore at h
  split at h
  · cases h
    rfl
  · dsimp only at h
    split_ifs at h <;> cases h <;> rfl

theorem ec_parseMedia {s s' : Cursor} (h : parseMedia m last s = .ok s') : s'.ec = s.ec := by
  unfold parseMedia parseMediaType at h
  split_ifs at h with h1 h2
  · rw [h1] at h2
    cases h2
  · exact ec_parseMediaTypeMore h
  · cases h
    rfl

theorem ec_finishMedia (s : Cursor) : (finishMedia s).ec = s.ec := by
  unfold finishMedia
  dsimp only
  split_ifs <;> rfl

theorem ec_parseContent_media {s k : Cursor} {r : CallResult}
    (hphase : s.parser.parsePhase = .parseContentTypeFinished)
    (htype : s.parser.headerContentType.takesMedia = true)
    (hk : parseMediaTypeBegin m last s = k) (hr : parseContent m last s = .ok r) :
    r.ec = k.ec := by
  rw [parseContent_media hphase htype, hk] at hr
  cases hmore : parseMediaTypeMore m last k with
  | error s' =>
    rw [hmore] at hr
    cases hr
  | ok s' =>
    cases hmedia : parseMedia m last s' with
    | error s'' =>
      simp [hmore, hmedia, bind, Except.bind] at hr
    | ok s'' =>
      simp only [hmore, hmedia, bind, Except.bind, Except.ok.injEq] at hr
      rw [← hr, ec_finishMedia, ec_parseMedia hmedia, ec_parseMediaTypeMore hmore]

end Ec

theorem Parser.Inv.ec_call {p : Parser} {c : Chunk} {r : CallResult} (h : p.Inv)
    (hstarted : p.parsePhase ≠ .notStarted) (hr : p.call c = .ok r) : r.ec = none := by
  have henter : p.enter c.memory c.size none = ⟨p, 0, none, []⟩ := by simp [enter, hstarted]
  by_cases hidle : p.Idle
  · rw [call_idle hidle, Except.ok.injEq] at hr
    rw [← hr]
  have hphase : p.parsePhase = .parseContentTypeFinished ∨
      p.parsePhase = .parseBodyPending ∨ p.parsePhase = .parseMediaTypeNeedMore := by
    by_contra hne
    simp only [not_or] at hne
    exact hidle ⟨hstarted, hne.1, hne.2.1, hne.2.2, h.settled⟩
  rcases hphase with hphase | hphase | hphase
  · rw [Parser.call, parse_eq, if_neg (by simp [hphase]), henter] at hr
    split_ifs at hr
    · cases hr
      rfl
    · rw [parseContent_unknown hphase (h.rejected hphase), Except.ok.injEq] at hr
      rw [← hr]
  · cases hbody : p.headerContentType.takesBody with
    | true =>
      rw [call_pending_body c hphase hbody, Except.ok.injEq] at hr
      rw [← hr]
    | false =>
      rw [call_pending_media c hphase hbody, Except.ok.injEq] at hr
      rw [← hr]
  · rw [call_needMore_eq hphase] at hr
    cases hmore : parseMediaTypeMore c.memory c.size ⟨p, 0, none, []⟩ with
    | error s' =>
      rw [hmore] at hr
      cases hr
    | ok s' =>
      rw [hmore, Except.ok.injEq] at hr
      rw [← hr, ec_finishMedia, ec_parseMediaTypeMore hmore]

/-- The part headers of an upload raise an error only where `ErrorIgnored` says so. -/
theorem ec_parseMediaTypeBegin {t : ContentType} {c : Chunk} {n g u w b : ByteString}
    {r : CallResult} (hline : RequestLine c.bytes n g u) (hsearch : Searches c.behind u)
    (hec : (headCursor t c n g u).ec = none)
    (hw : (headHeaders c.behind u).lookup (ascii "content-type") = some w)
    (hb : boundaryParameter w = some b) (hstop : ¬ ErrorIgnored c.behind c.bytes)
    (hr : parseContent c.memory c.size (headCursor t c n g u) = .ok r) :
    (parseMediaTypeBegin c.memory c.size (headCursor t c n g u)).ec = none := by
  have hbegin := parseMediaTypeBegin_headCursor (t := t) hline hw hb
  by_cases hpos : ∃ rest, (start.read u).pos = .closed rest
  swap
  · simp only [not_exists] at hpos
    rw [hbegin, parseOpeningBoundary_open hline hpos]
    exact hec
  obtain ⟨rest, hpos⟩ := hpos
  obtain ⟨hit, htext⟩ := slice_boundaryCursor (t := t) (b := b) hline hpos
  have hcases := parseOpeningBoundary_cases (m := c.memory) (s := boundaryCursor t c n g u b)
    (b := b) rfl (head_boundaryParameter hb) (print_boundary hline hw hb) hit
    (congrArg openingText htext)
  simp only at hcases
  rcases hcases with ⟨i, -, -, hk⟩ | ⟨x, y, ht, hfind, hdashes, hk⟩ | ⟨x, y, -, -, hcut, hk⟩
  · rw [hbegin, hk]
    exact hec
  · rw [hbegin, hk, ec_parseUploadHeaders]
    have hy : slice c.memory (c.size - y.length) c.size = y :=
      slice_of_openingText (x := x ++ b ++ crlf) hit (by rw [htext, ht]; simp)
    have hnone := ec_blockEnd_eq_none (m := c.memory) (Nat.sub_le c.size y.length)
    rw [hy, c.memory_behind] at hnone
    rw [show (boundaryCursor t c n g u b).ec = none from hec]
    exact hnone.mpr fun herr => hstop (.inPart hline hsearch hw hb ht hfind hdashes herr)
  · -- the part headers are read from behind the chunk, and the byte count wraps
    exfalso
    have hframe := (@parseMediaTypeBegin_frame c.memory c.size
      (headCursor t c n g u)).2
    obtain ⟨-, -, hge', hle'⟩ := @parseUploadHeaders_spec c.memory c.size
      { boundaryCursor t c n g u b with
        parser := { (boundaryCursor t c n g u b).parser with boundaryValueLength := b.length }
        it := c.size - y.length + 2 }
    rw [← hk, ← hbegin] at hge' hle'
    obtain ⟨hmedia, ⟨v, hcl⟩, -⟩ := hsearch
    have hy := hcut.length_le
    have hlt : c.size < (parseMediaTypeBegin c.memory c.size (headCursor t c n g u)).it :=
      lt_of_lt_of_le (by dsimp only; omega) hge'
    have hle'' : (parseMediaTypeBegin c.memory c.size (headCursor t c n g u)).it ≤ c.size + 8 :=
      hle'.trans (by dsimp only; omega)
    obtain ⟨s'', herr⟩ := parseMediaTypeMore_overrun c.memory
      (s := parseMediaTypeBegin c.memory c.size (headCursor t c n g u))
      (by rw [hframe.headers, headers_headCursor hline]; exact hcl) hlt hle''
      hframe.bufferSizeReaded
    rw [parseContent_media rfl (by rwa [type_headCursor hline]), herr] at hr
    cases hr

section FirstCall

variable {t : ContentType} {c : Chunk} {n g u : ByteString} {r : CallResult}

theorem silent_of_unsupported (hline : RequestLine c.bytes n g u)
    (hsupp : (headType c.behind u).supported = false) (hr : (Parser.fresh t).call c = .ok r) :
    r.request = none ∧ r.parser.Silent := by
  have hunknown := headersContentType_of_unsupported hsupp
  rw [← headType, ← type_headCursor (t := t) hline] at hunknown
  rw [Parser.call_of_requestLine t hline] at hr
  split_ifs at hr
  · cases hr
    exact ⟨rfl, Or.inr (Or.inr ⟨rfl, by rw [hunknown]; rfl⟩)⟩
  · rw [parseContent_unknown rfl hunknown, Except.ok.injEq] at hr
    subst hr
    exact ⟨rfl, Or.inr (Or.inl ⟨rfl, hunknown⟩)⟩

theorem ec_of_takesBody (hline : RequestLine c.bytes n g u)
    (hbody : (headType c.behind u).takesBody = true) (hr : (Parser.fresh t).call c = .ok r) :
    r.ec = (headCursor t c n g u).ec := by
  rw [Parser.call_of_requestLine t hline] at hr
  split_ifs at hr
  · cases hr
    rfl
  · rw [Parser.parseContent_body (Or.inl rfl) (type_headCursor (t := t) hline ▸ hbody)] at hr
    unfold parseBody at hr
    dsimp only at hr
    split_ifs at hr
    cases hr
    rfl

theorem silent_of_not_searches (hline : RequestLine c.bytes n g u)
    (hmedia : (headType c.behind u).takesMedia = true) (hsearch : ¬ Searches c.behind u)
    (hr : (Parser.fresh t).call c = .ok r) : r.request = none ∧ r.parser.Silent := by
  have hwaits := awaitsBody_headCursor (t := t) hline
  have hmedia' := type_headCursor (t := t) hline ▸ hmedia
  rw [Parser.call_of_requestLine t hline] at hr
  by_cases hwait : HeadWaits c.behind u
  · rw [if_pos (hwaits.mpr hwait), Except.ok.injEq] at hr
    subst hr
    exact ⟨rfl, Or.inr (Or.inr ⟨rfl, ContentType.takesBody_eq_false hmedia'⟩)⟩
  · have hcl : (headHeaders c.behind u).lookup (ascii "content-length") = none := by
      by_contra hne
      obtain ⟨v, hv⟩ := Option.ne_none_iff_exists'.mp hne
      exact hsearch ⟨hmedia, ⟨v, hv⟩, hwait⟩
    obtain ⟨k, hk⟩ : ∃ k, parseMediaTypeBegin c.memory c.size (headCursor t c n g u) = k :=
      ⟨_, rfl⟩
    have hframe := (@parseMediaTypeBegin_frame c.memory c.size (headCursor t c n g u)).2
    have hbegun := @parsePhase_parseMediaTypeBegin c.memory c.size (headCursor t c n g u)
    rw [hk] at hframe hbegun
    rw [if_neg (fun h => hwait (hwaits.mp h)), parseContent_media_of_none hk rfl hmedia'
      (by rw [hframe.headers, headers_headCursor hline, hcl]), Except.ok.injEq] at hr
    subst hr
    refine ⟨rfl, Or.inl ?_⟩
    rcases hbegun with h | h | h <;> simp [Parser.Idle, h]

/-- The search for an upload raises an error only where `ErrorIgnored` says so. -/
theorem ec_of_searches (hline : RequestLine c.bytes n g u) (hsearch : Searches c.behind u)
    (hnone : (headCursor t c n g u).ec = none) (hstop : ¬ ErrorIgnored c.behind c.bytes)
    (hr : (Parser.fresh t).call c = .ok r) : r.ec = none := by
  have hwaits := awaitsBody_headCursor (t := t) hline
  rw [Parser.call_of_requestLine t hline,
    if_neg (fun h => hsearch.2.2 (hwaits.mp h))] at hr
  obtain ⟨w, hw⟩ := hsearch.exists_contentType
  cases hb : boundaryParameter w with
  | none => exact absurd (.noBoundary hline hsearch hw hb) hstop
  | some b =>
    have hk := ec_parseMediaTypeBegin hline hsearch hnone hw hb hstop hr
    have hmedia := type_headCursor (t := t) hline ▸ hsearch.1
    exact (ec_parseContent_media rfl hmedia rfl hr).trans hk

end FirstCall

theorem silent_of_error {t : ContentType} {c : Chunk} {r : CallResult} (hc : c.bytes ≠ [])
    (hstop : ¬ ErrorIgnored c.behind c.bytes) (hr : (Parser.fresh t).call c = .ok r)
    (hec : r.ec ≠ none) : r.request = none ∧ r.parser.Silent := by
  by_cases hline : ∃ n g u, RequestLine c.bytes n g u
  swap
  · simp only [not_exists] at hline
    obtain ⟨s, -, -, hidle, hcall⟩ :=
      Parser.call_of_not_requestLine (p := Parser.fresh t) rfl hc hline
    rw [hcall, Except.ok.injEq] at hr
    subst hr
    exact ⟨rfl, Or.inl hidle⟩
  obtain ⟨n, g, u, hline⟩ := hline
  cases hsupp : (headType c.behind u).supported with
  | false => exact silent_of_unsupported hline hsupp hr
  | true =>
    have hhead := ec_headCursor (t := t) hline hsupp
    -- an error of the header block would be ignored
    have hnone : (headType c.behind u).takesBody = true ∨ Searches c.behind u →
        (headCursor t c n g u).ec = none := by
      intro hgoes
      by_contra hne
      exact hstop (.inHead hline (not_not.mp fun h => hne (hhead.mpr h)) hgoes)
    rcases ContentType.takesBody_or_takesMedia hsupp with hbody | hmedia
    · exact absurd ((ec_of_takesBody hline hbody hr).trans (hnone (Or.inl hbody))) hec
    · by_cases hsearch : Searches c.behind u
      · exact absurd (ec_of_searches hline hsearch (hnone (Or.inr hsearch)) hstop hr) hec
      · exact silent_of_not_searches hline hmedia hsearch hr

/-- The condition under which the errors of a call stop the parser. -/
def ErrorsStop (p : Parser) (c : Chunk) : Prop :=
  p.parsePhase = .notStarted → c.bytes ≠ [] ∧ ¬ ErrorIgnored c.behind c.bytes

/-- In a run whose calls meet the condition, errors are terminal. -/
theorem errors_terminal {t : ContentType} {q : Parser} {cs : List Call}
    (hrun : Run (Parser.fresh t) cs q) (hstop : ∀ c ∈ cs, ErrorsStop c.before c.chunk) :
    ∀ as c bs, cs = as ++ c :: bs → c.result.ec ≠ none →
      c.result.request = none ∧ ∀ d ∈ bs, d.result.request = none := by
  rintro as c bs rfl hec
  obtain ⟨hbefore, hafter⟩ := hrun.at_call
  have hinv := Reachable.inv ⟨t, as, hbefore⟩
  have hfresh : c.before.parsePhase = .notStarted := by
    by_contra hstarted
    exact hec (hinv.ec_call hstarted c.returned)
  obtain ⟨hne, hignored⟩ := hstop c (by simp) hfresh
  obtain ⟨t', ht'⟩ := hinv.fresh hfresh
  have hcall := c.returned
  rw [ht'] at hcall
  obtain ⟨hnone, hsilent⟩ := silent_of_error hne hignored hcall hec
  exact ⟨hnone, hafter.silent hsilent⟩

def junkChunk : Chunk := ⟨ascii "junk", fun _ => 0, by decide +kernel⟩

def junkCall : Call := Call.of (Parser.fresh .unknown) junkChunk (by decide +kernel)

def junkCallAgain : Call := Call.of junkCall.result.parser junkChunk (by decide +kernel)

theorem errors_terminal_junkCall :
    Run (Parser.fresh .unknown) [junkCall, junkCallAgain] junkCallAgain.result.parser ∧
      ∀ as c bs, [junkCall, junkCallAgain] = as ++ c :: bs → c.result.ec ≠ none →
        c.result.request = none ∧ ∀ d ∈ bs, d.result.request = none := by
  have hrun : Run (Parser.fresh .unknown) [junkCall, junkCallAgain] junkCallAgain.result.parser :=
    Run.cons (Run.cons (c := junkCallAgain) (Run.nil _))
  refine ⟨hrun, errors_terminal hrun ?_⟩
  have hshort : ∀ n g u, ¬ RequestLine (ascii "junk") n g u := by
    intro n g u hline
    obtain ⟨s, hs, hl⟩ := hline.rest
    have := congrArg List.length hs
    rw [List.length_append, show (ascii "junk").length = 4 by decide +kernel] at this
    omega
  intro c hc
  simp only [List.mem_cons, List.not_mem_nil, or_false] at hc
  rcases hc with rfl | rfl
  · exact fun _ => ⟨by decide +kernel, fun h => by cases h <;> exact hshort _ _ _ ‹_›⟩
  · exact fun h => absurd h (by decide +kernel)

def badHeaderChunk : Chunk where
  bytes := ascii "GET / HTTP/1.1\r\nBad Header\r\n\r\n"
  stale := fun _ => 0
  size_le := by decide +kernel

def badHeaderCall : Call := Call.of (Parser.fresh .unknown) badHeaderChunk (by decide +kernel)

/-- The first call on a fresh parser reports `bad_field` and returns a request. -/
theorem badHeaderCall_not_terminal :
    Run (Parser.fresh .unknown) [badHeaderCall] badHeaderCall.result.parser ∧
      ¬ ∀ as c bs, [badHeaderCall] = as ++ c :: bs → c.result.ec ≠ none →
        c.result.request = none ∧ ∀ d ∈ bs, d.result.request = none := by
  refine ⟨Run.cons (c := badHeaderCall) (Run.nil _), fun hterminal => ?_⟩
  have hec : badHeaderCall.result.ec = some .badField := by decide +kernel
  have hrequest : badHeaderCall.result.request ≠ none := by decide +kernel
  exact hrequest (hterminal [] badHeaderCall [] rfl (by simp [hec])).1

end Webcrown.Http
