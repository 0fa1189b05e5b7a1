import Webcrown.Http.CallSpecs
import Webcrown.Http.RequestHead

/-!
# Where a body begins

`parse` takes a body from the iterator behind the head. That iterator still stands
on the CR LF CR LF which ends the head, so a body that comes with its head starts
with these four bytes.
-/

namespace Webcrown.Http

open Bytes Common

/-- The call returns a request with this body. -/
def ReturnsBody (p : Parser) (c : Chunk) (body : ByteString) : Prop :=
  ∃ r req, p.call c = .ok r ∧ r.request = some req ∧ req.body = body

namespace RequestHead

theorem enter_fresh (h : RequestHead) {m : ℕ → UInt8} {last : ℕ} {rest : ByteString}
    (t : ContentType) (ht : slice m 0 last = h.bytes ++ rest)
    (htype : h.contentType.supported = true) :
    (Parser.fresh t).enter m last none =
      ⟨h.parsed (Parser.fresh t), last - (rest.length + 4), none, []⟩ := by
  rw [Parser.enter, if_pos (show (Parser.fresh t).parsePhase = .notStarted from rfl),
    parseStartLine_of_head h rfl rfl ht htype]
  rfl

theorem four_le_bytes (h : RequestHead) : 4 ≤ h.bytes.length := by
  obtain ⟨t, ht⟩ := h.exists_bytes_crlf
  simp [ht, crlf]

theorem slice_chunk (h : RequestHead) {c : Chunk} {rest : ByteString}
    (hc : c.bytes = h.bytes ++ rest) :
    slice c.memory (c.size - (rest.length + 4)) c.size = crlf ++ crlf ++ rest := by
  obtain ⟨t, ht⟩ := h.exists_bytes_crlf
  have hmem := c.slice_memory
  rw [hc, ht, List.append_assoc] at hmem
  have h4 : (crlf ++ crlf ++ rest).length = rest.length + 4 := by simp [crlf]
  rw [← h4]
  exact slice_suffix hmem

theorem size_chunk (h : RequestHead) {c : Chunk} {rest : ByteString}
    (hc : c.bytes = h.bytes ++ rest) : rest.length + 4 ≤ c.size := by
  have := h.four_le_bytes
  simp [Chunk.size, hc]
  omega

/-- The corner case of `parse`: a positive `Content-Length` and nothing behind the head. -/
theorem awaitsBody_iff (h : RequestHead) {c : Chunk} {rest : ByteString} (t : ContentType)
    (hc : c.bytes = h.bytes ++ rest) :
    awaitsBody c.size ⟨h.parsed (Parser.fresh t), c.size - (rest.length + 4), none, []⟩ = true ↔
      rest = [] ∧ ∃ v, h.field (ascii "content-length") = some v ∧ 0 < atoi v := by
  have hsize := h.size_chunk hc
  have hlookup := h.lookup_headers (ascii "content-length")
  simp only [awaitsBody, parsed, hlookup, decide_true, Bool.true_and]
  cases hv : h.field (ascii "content-length") with
  | none => simp
  | some v =>
    simp only [Bool.and_eq_true, decide_eq_true_eq, Option.some.injEq, exists_eq_left']
    constructor
    · rintro ⟨hpos, hle⟩
      exact ⟨List.eq_nil_of_length_eq_zero (by omega), hpos⟩
    · rintro ⟨rfl, hpos⟩
      exact ⟨hpos, by simp only [List.length_nil] at hsize ⊢; omega⟩

theorem call_fresh (h : RequestHead) {c : Chunk} {rest : ByteString} (t : ContentType)
    (hc : c.bytes = h.bytes ++ rest) (htype : h.contentType.supported = true) :
    (Parser.fresh t).call c =
      if rest = [] ∧ ∃ v, h.field (ascii "content-length") = some v ∧ 0 < atoi v then
        .ok ⟨{ h.parsed (Parser.fresh t) with parsePhase := .parseBodyPending }, none, [], none⟩
      else
        parseContent c.memory c.size
          ⟨h.parsed (Parser.fresh t), c.size - (rest.length + 4), none, []⟩ := by
  have hsize := h.size_chunk hc
  have hmem := c.slice_memory
  rw [hc] at hmem
  rw [Parser.call, parse_eq, if_neg (by omega), h.enter_fresh t hmem htype]
  simp only [h.awaitsBody_iff t hc]

theorem contentType_ne (h : RequestHead) : h.contentType ≠ .text ∧ h.contentType ≠ .image := by
  unfold contentType contentTypeOf
  dsimp only
  split
  · decide
  · split_ifs <;> decide

theorem supported_of_takesBody (h : RequestHead) (htype : h.contentType.takesBody = true) :
    h.contentType.supported = true := by
  have hne := h.contentType_ne.1
  revert htype hne
  cases h.contentType <;> decide

theorem supported_of_takesMedia (h : RequestHead) (htype : h.contentType.takesMedia = true) :
    h.contentType.supported = true := by
  have hne := h.contentType_ne.2
  revert htype hne
  cases h.contentType <;> decide

def request (h : RequestHead) (body : ByteString) : HttpRequest :=
  ⟨toMethod h.method, 11, h.target, h.headers, body, []⟩

theorem call_body (h : RequestHead) {c : Chunk} {rest : ByteString} (t : ContentType)
    (hc : c.bytes = h.bytes ++ rest) (htype : h.contentType.takesBody = true)
    (hwait : ¬(rest = [] ∧ ∃ v, h.field (ascii "content-length") = some v ∧ 0 < atoi v)) :
    (Parser.fresh t).call c =
      .ok ⟨{ h.parsed (Parser.fresh t) with parsePhase := .finished }, none,
        [(c.size - (rest.length + 4), c.size)], some (h.request (crlf ++ crlf ++ rest))⟩ := by
  rw [h.call_fresh t hc (h.supported_of_takesBody htype), if_neg hwait,
    Parser.parseContent_body (Or.inl rfl) htype, Parser.parseBody_of_le (Nat.sub_le _ _)
      (show c.size ≤ maxSize from c.size_le), h.slice_chunk hc]
  rfl

end RequestHead

/-- A body that comes with its head is never returned as it was sent: the four bytes
that end the head are put in front of it. -/
theorem call_body_ne (h : RequestHead) (body : ByteString) (c : Chunk) (t : ContentType)
    (hc : c.bytes = h.bytes ++ body) (htype : h.contentType.takesBody = true) (hbody : body ≠ []) :
    ReturnsBody (Parser.fresh t) c (crlf ++ crlf ++ body) ∧
      ¬ ReturnsBody (Parser.fresh t) c body := by
  have hcall := h.call_body t hc htype fun hwait => hbody hwait.1
  refine ⟨⟨_, _, hcall, rfl, rfl⟩, ?_⟩
  rintro ⟨r, req, hr, hreq, rfl⟩
  rw [hcall, Except.ok.injEq] at hr
  subst hr
  rw [Option.some.injEq] at hreq
  have hl := congrArg (fun q => q.body.length) hreq
  simp [RequestHead.request, crlf] at hl
  omega

def hostBodyChunk : Chunk where
  bytes := hostHead.bytes ++ ascii "x"
  stale := fun _ => 0
  size_le := by decide +kernel

theorem call_body_ne_hostBodyChunk :
    ReturnsBody (Parser.fresh .unknown) hostBodyChunk (crlf ++ crlf ++ ascii "x") ∧
      ¬ ReturnsBody (Parser.fresh .unknown) hostBodyChunk (ascii "x") :=
  call_body_ne hostHead (ascii "x") hostBodyChunk .unknown rfl (by decide +kernel)
    (by decide +kernel)

/-- The well-formed request `hostBodyChunk` has no content fields, and its body `x`
is not what is returned. -/
theorem call_prepends_emptyLine :
    hostBodyChunk.bytes = hostHead.bytes ++ ascii "x" ∧
      hostHead.field (ascii "content-type") = none ∧
      hostHead.field (ascii "content-length") = none ∧
      ¬ ReturnsBody (Parser.fresh .unknown) hostBodyChunk (ascii "x") := by
  refine ⟨rfl, by decide +kernel, by decide +kernel, ?_⟩
  rintro ⟨r, req, hr, hreq, hbody⟩
  have hrun : ((Parser.fresh .unknown).call hostBodyChunk).toOption.bind
      (fun r => r.request.map HttpRequest.body) = some (crlf ++ crlf ++ ascii "x") := by
    decide +kernel
  rw [hr] at hrun
  simp only [Except.toOption, Option.bind_some, hreq, Option.map_some, hbody] at hrun
  exact absurd hrun (by decide)

end Webcrown.Http
